import Cetcd.Calls.Strokes
import Cetcd.Raft.Config

/-!
# A server and its write-ahead log

Every call into the node is followed by `process_ready_`, which writes the new entries and the hard
state, hands out the messages, applies what is committed and lets the log be compacted;
`replay_wal_` reads the file back. The file is the list of its records, and a crash is one between
two records. What applying an entry does to the peer table is left open.
-/

namespace Cetcd.Server

open Lib Raft Calls List Option

/-- The records `process_ready_` and the release of the file write. -/
inductive DiskRecord
  | entry (e : Entry)
  | state (hs : HardState)
  | snapshot (index term : Nat)
  deriving DecidableEq

/-- What the loop of `replay_wal_` has so far. -/
structure Replayed where
  raft : Raft
  hs : Option HardState
  lastSnapIndex : Nat

/-- One round of the loop of `replay_wal_`; the hard state is kept for the end. Where only the log
matters, `Durable.replayRecord` is the same loop without it. -/
def replayRecord (p : Replayed) : DiskRecord → Replayed
  | .entry e => { p with raft := cetcdRaftRestoreEntry p.raft e }
  | .state hs => { p with hs := some hs }
  | .snapshot index term =>
    if index = 0 then p
    else
      match logCompact p.raft.rlog index term with
      | none => p
      | some l => { p with raft := { p.raft with rlog := l }, lastSnapIndex := index }

/-- `replay_wal_`: the node and `last_snap_index`. -/
def replayWal (r : Raft) (wal : List DiskRecord) : Raft × Nat :=
  let p := wal.foldl replayRecord ⟨r, none, 0⟩
  match p.hs with
  | none => (p.raft, p.lastSnapIndex)
  | some hs => (cetcdRaftRestoreHardState p.raft hs, p.lastSnapIndex)

/-- `snapshot_count`, `snapshot_catchup_set` and `snapshot_catchup_entries` of the configuration. -/
structure SnapshotConfig where
  snapshotCount : Nat := 0
  catchupSet : Bool := false
  catchupEntries : Nat := 0
  deriving DecidableEq

def snapshotCountEffective (n : Nat) : Nat := if n ≠ 0 then n else 100000

def snapshotCatchupEntries (set : Bool) (n : Nat) : Nat := if set then n else 5000

def raftCompactIndex (applied catchup : Nat) : Nat :=
  if applied = 0 then 0
  else if catchup = 0 ∨ catchup < applied then applied - catchup
  else 1

/-- How many applied entries stay in the log when it is compacted. -/
def SnapshotConfig.keep (cfg : SnapshotConfig) : Nat :=
  snapshotCatchupEntries cfg.catchupSet cfg.catchupEntries

structure State where
  cfg : SnapshotConfig
  raft : Raft
  wal : List DiskRecord
  lastSnapIndex : Nat

/-- The peer table and the progress of the peers. -/
structure Table where
  mem : Membership
  progress : ZeroArray PeerProgress
  deriving DecidableEq

def Table.of (r : Raft) : Table := ⟨r.mem, r.progress⟩

def Table.put (t : Table) (r : Raft) : Raft := { r with mem := t.mem, progress := t.progress }

/-- The calls that `process_ready_` follows; proposals are steps. -/
inductive Call
  | tick
  | step (m : Msg)
  | confChange (data : List UInt8)
  | flush
  deriving DecidableEq

def Call.run : Call → Raft → Raft
  | .tick, r => cetcdRaftTick r
  | .step m, r => (cetcdRaftStep r m).2
  | .confChange data, r => cetcdRaftProposeConfChange r data
  | .flush, r => r

def Call.msg : Call → Raft → Msg
  | .tick, r => timerMsg r
  | .step m, _ => m
  | .confChange _, _ => { type := .prop }
  | .flush, _ => { type := .prop }

lemma Call.strokes (c : Call) (r : Raft) : Strokes (c.msg r) r r (c.run r) := by
  cases c with
  | tick => exact strokes_cetcdRaftTick
  | step m => exact strokes_cetcdRaftStep
  | confChange data => exact strokes_cetcdRaftProposeConfChange data rfl
  | flush => exact Strokes.refl r

/-- What `process_ready_` writes: the entries, then the hard state. -/
def Ready.records (rd : Ready) : List DiskRecord :=
  rd.entries.map .entry ++ rd.hardState.toList.map .state

def copyHardState (r : Raft) : HardState := ⟨r.term, r.vote, r.commit⟩

/-- The checks of `maybe_snapshot_truncate_`: the index to compact to and the term there. -/
def compactPoint (s : State) : Option (Nat × Nat) :=
  let applied := s.raft.applied
  if applied = 0 ∨ applied < s.lastSnapIndex + snapshotCountEffective s.cfg.snapshotCount then none
  else if s.raft.rlog.lastIndex ≠ applied then none
  else
    match logAt s.raft.rlog applied with
    | none => none
    | some e =>
      let compactTo := raftCompactIndex applied s.cfg.keep
      if compactTo = 0 then none
      else
        match if compactTo = applied then some e else logAt s.raft.rlog compactTo with
        | none => none
        | some ce => some (compactTo, ce.term)

/-- `maybe_snapshot_truncate_`; `released` is whether `cetcd_wal_encoder_release` succeeds, which
replaces the file by a snapshot record and the hard state. -/
def maybeSnapshotTruncate (s : State) (released : Bool) : State :=
  match compactPoint s with
  | none => s
  | some (compactTo, term) =>
    if released then
      { s with
        wal := [.snapshot compactTo term, .state (copyHardState s.raft)]
        lastSnapIndex := s.raft.applied
        raft := cetcdRaftCompact s.raft compactTo term }
    else s

/-- What disk and applied entries do in one `process_ready_`. `failed = none`: all was written and
synced; `failed = some k`: `k` records were, and the Ready is dropped. `table` is what the entries
make of the peer table. -/
structure Outcome where
  failed : Option Nat := none
  released : Bool := false
  table : Table
  deriving DecidableEq

/-- `process_ready_` after the Ready is on disk, up to the compaction. -/
def advanced (s : State) (table : Table) : State :=
  let rd := (cetcdRaftReady s.raft).1
  { s with
    raft := cetcdRaftAdvance (table.put (cetcdRaftReady s.raft).2) rd
    wal := s.wal ++ Ready.records rd }

/-- `process_ready_`.  The round it starts for `maybe_propose_leave_joint_` is a call of its own. -/
def processReady (s : State) (out : Outcome) : State :=
  match out.failed with
  | none => maybeSnapshotTruncate (advanced s out.table) out.released
  | some k =>
    { s with
      raft := (cetcdRaftReady s.raft).2
      wal := s.wal ++ (Ready.records (cetcdRaftReady s.raft).1).take k }

/-- What `process_ready_` hands to the transport. -/
def sentBy (s : State) (c : Call) (out : Outcome) : List Msg :=
  match out.failed with
  | none => (cetcdRaftReady (c.run s.raft)).1.messages
  | some _ => []

/-- The file when the Ready after `c` has been written. -/
def walBy (s : State) (c : Call) : List DiskRecord :=
  s.wal ++ Ready.records (cetcdRaftReady (c.run s.raft)).1

/-- The file when `k` records of that Ready have been written. -/
def walUpTo (s : State) (c : Call) (k : Nat) : List DiskRecord :=
  s.wal ++ (Ready.records (cetcdRaftReady (c.run s.raft)).1).take k

/-- `cetcd_server_start` with a new node: the file read back, the committed entries applied. -/
def restart (s : State) (r0 : Raft) (table : Table) : State :=
  let (r, snap) := replayWal r0 s.wal
  { s with raft := { table.put r with applied := r.commit }, lastSnapIndex := snap }

/-- A call with its `process_ready_`, or a crash while a call is handled, with `k` records of its
Ready in the file, and a new start. -/
inductive Act
  | ready (c : Call) (out : Outcome)
  | crash (c : Call) (k : Nat) (cfg : RaftConfig) (table : Table)
  deriving DecidableEq

/-- A crash falls between two records. One in the middle of a record, whose torn frame the file that
is opened again with `ab` keeps, is outside these runs. -/
def State.next (s : State) : Act → State
  | .ready c out => processReady { s with raft := c.run s.raft } out
  | .crash c k cfg table =>
    match cetcdRaftNew cfg with
    | none => s
    | some r0 => restart { s with wal := walUpTo s c k } r0 table

/-- A server that starts with an empty file. -/
def Initial (s : State) : Prop :=
  ∃ cfg table r0, cetcdRaftNew cfg = some r0 ∧
    s = { cfg := s.cfg, raft := Table.put table r0, wal := [], lastSnapIndex := 0 }

def Run (ok : State → Act → Prop) : List State → Prop :=
  RunOf Initial (fun s a s' => ok s a ∧ s' = s.next a)

def node1 : Raft :=
  (cetcdRaftNew { id := 1, electionTick := 3, heartbeatTick := 1 }).getD default

lemma node1_new : cetcdRaftNew ⟨1, 3, 1, 0, 0, false, false⟩ = some node1 := rfl

/-- Node 1 with the peers `ps`, before its first call. -/
def start (cfg : SnapshotConfig) (ps : List Peer) : State :=
  { cfg := cfg, raft := addPeers node1 ps, wal := [], lastSnapIndex := 0 }

lemma initial_start (cfg : SnapshotConfig) (ps : List Peer) : Initial (start cfg ps) := by
  obtain ⟨mem, progress, hps⟩ := addPeers_eq node1 ps
  refine ⟨⟨1, 3, 1, 0, 0, false, false⟩, ⟨mem, progress⟩, node1, rfl, ?_⟩
  unfold start
  rw [hps]
  rfl

/-- A call after which the peer table stays as it is. -/
def act (c : Call) (failed : Option Nat) (released : Bool) (s : State) : Act :=
  .ready c { failed := failed, released := released, table := Table.of (c.run s.raft) }

lemma run_script {ok : State → Act → Prop} {cfg : SnapshotConfig} {ps : List Peer}
    {fs : List (State → Act)} (hplay : Playable State.next ok (start cfg ps) fs) :
    Run ok (Lib.replay State.next [] (start cfg ps) fs) :=
  run_of_playable (fun _ _ h => ⟨h, rfl⟩) (initial_start cfg ps) hplay

/-- What a record does to the log. -/
def logRecord (l : RaftLog) : DiskRecord → RaftLog
  | .entry e => if e.index = 0 then l else logAppend l e
  | .state _ => l
  | .snapshot index term => if index = 0 then l else (logCompact l index term).getD l

def emptyLog : RaftLog := { log := ZeroArray.empty, lastIndex := 0, lastTerm := 0, compacted := 0 }

def nothingPending : Raft.Pending := { hs := none, entries := [], msgs := [], hasPending := false }

def logOf (wal : List DiskRecord) : RaftLog := wal.foldl logRecord emptyLog

/-- What a record does to the hard state. -/
def hardRecord (hs : HardState) : DiskRecord → HardState
  | .state hs' => hs'
  | _ => hs

/-- The hard state that replay makes of a file: the last one written. -/
def stateOf (wal : List DiskRecord) : HardState := wal.foldl hardRecord ⟨0, 0, 0⟩

lemma logOf_append (wal wal' : List DiskRecord) :
    logOf (wal ++ wal') = wal'.foldl logRecord (logOf wal) := foldl_append

lemma stateOf_append (wal wal' : List DiskRecord) :
    stateOf (wal ++ wal') = wal'.foldl hardRecord (stateOf wal) := foldl_append

lemma logOf_concat (wal : List DiskRecord) (rec : DiskRecord) :
    logOf (wal ++ [rec]) = logRecord (logOf wal) rec := logOf_append wal [rec]

lemma logOf_append_states (wal : List DiskRecord) (hs : List HardState) :
    logOf (wal ++ hs.map .state) = logOf wal := by
  rw [logOf_append]
  induction hs with
  | nil => rfl
  | cons h hs ih => exact ih

lemma stateOf_append_entries (wal : List DiskRecord) (es : List Entry) :
    stateOf (wal ++ es.map .entry) = stateOf wal := by
  rw [stateOf_append]
  induction es with
  | nil => rfl
  | cons e es ih => exact ih

lemma logOf_records (wal : List DiskRecord) (rd : Ready) :
    logOf (wal ++ Ready.records rd) = logOf (wal ++ rd.entries.map .entry) := by
  unfold Ready.records
  rw [← append_assoc, logOf_append_states]

lemma stateOf_records (wal : List DiskRecord) (rd : Ready) :
    stateOf (wal ++ Ready.records rd) = rd.hardState.getD (stateOf wal) := by
  unfold Ready.records
  rw [← append_assoc, stateOf_append, stateOf_append_entries]
  cases rd.hardState <;> rfl

section

variable {p : Replayed} {rec : DiskRecord}

lemma replayRecord_raft :
    (replayRecord p rec).raft = { p.raft with rlog := logRecord p.raft.rlog rec } := by
  cases rec with
  | entry e =>
    simp only [replayRecord, logRecord, cetcdRaftRestoreEntry]
    split <;> rfl
  | state hs => rfl
  | snapshot index term =>
    simp only [replayRecord, logRecord]
    split
    · rfl
    · cases logCompact p.raft.rlog index term <;> rfl

lemma replayRecord_hs :
    (replayRecord p rec).hs = match rec with | .state hs => some hs | _ => p.hs := by
  cases rec with
  | entry e | state hs => rfl
  | snapshot index term =>
    simp only [replayRecord]
    split
    · rfl
    · cases logCompact p.raft.rlog index term <;> rfl

lemma foldl_replayRecord (wal : List DiskRecord) (p : Replayed) :
    (wal.foldl replayRecord p).raft = { p.raft with rlog := wal.foldl logRecord p.raft.rlog } ∧
      (wal.foldl replayRecord p).hs.getD ⟨0, 0, 0⟩ =
        wal.foldl hardRecord (p.hs.getD ⟨0, 0, 0⟩) := by
  induction wal generalizing p with
  | nil => exact ⟨rfl, rfl⟩
  | cons rec wal ih =>
    obtain ⟨hraft, hhs⟩ := ih (replayRecord p rec)
    rw [foldl_cons]
    refine ⟨?_, ?_⟩
    · rw [hraft, replayRecord_raft]
      rfl
    rw [hhs, replayRecord_hs, foldl_cons]
    cases rec <;> rfl

lemma cetcdRaftNew_blank {cfg : RaftConfig} {r0 : Raft} (hnew : cetcdRaftNew cfg = some r0) :
    r0.rlog = emptyLog ∧ copyHardState r0 = ⟨0, 0, 0⟩ ∧ r0.role = .follower ∧
      r0.pending = nothingPending := by
  unfold cetcdRaftNew at hnew
  split_ifs at hnew
  cases hnew
  exact ⟨rfl, rfl, rfl, rfl⟩

lemma replayWal_new {cfg : RaftConfig} {r0 : Raft} (hnew : cetcdRaftNew cfg = some r0)
    (wal : List DiskRecord) :
    (replayWal r0 wal).1 =
      { r0 with
        rlog := logOf wal
        term := (stateOf wal).term
        vote := (stateOf wal).vote
        commit := (stateOf wal).commit } := by
  obtain ⟨hraft, hhs⟩ := foldl_replayRecord wal ⟨r0, none, 0⟩
  obtain ⟨hlog, hhs0, _, _⟩ := cetcdRaftNew_blank hnew
  have hterm : r0.term = 0 := congrArg HardState.term hhs0
  have hvote : r0.vote = 0 := congrArg HardState.vote hhs0
  have hcommit : r0.commit = 0 := congrArg HardState.commit hhs0
  have hlog' : wal.foldl logRecord r0.rlog = logOf wal := by
    rw [hlog]
    rfl
  have hstate : (wal.foldl replayRecord ⟨r0, none, 0⟩).hs.getD ⟨0, 0, 0⟩ = stateOf wal := hhs
  unfold replayWal
  dsimp only at hraft ⊢
  rw [hlog'] at hraft
  cases hcase : (wal.foldl replayRecord ⟨r0, none, 0⟩).hs with
  | none =>
    rw [hcase, getD_none] at hstate
    rw [← hstate]
    simp only [hraft, hterm, hvote, hcommit]
  | some hs =>
    rw [hcase, getD_some] at hstate
    rw [← hstate]
    simp only [hraft, cetcdRaftRestoreHardState]

end

end Cetcd.Server
