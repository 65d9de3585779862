import Cetcd.Server.Recorded

/-!
# Durable before visible

Between two calls nothing is pending, so the file alone gives the log and the hard state. Three
things break that: a Ready that is not written is dropped while the node keeps what was in it; a
release of the file loses entries kept in memory for slow followers; a snapshot installed into an
empty log is not recorded. Without these, a crash loses nothing, and what the node sends is on disk
when it is sent.
-/

namespace Cetcd.Server

open Lib Raft Protocol Calls List

/-! ## Between two calls -/

structure AtRest (s : State) : Prop where
  recorded : Recorded s.wal s.raft
  idle : s.raft.pending = nothingPending

section

variable {wal : List DiskRecord} {r r' : Raft} {s : State}

lemma written_of_idle (h : r.pending = nothingPending) : written wal r = logOf wal := by
  unfold written
  rw [h]
  exact congrArg logOf (append_nil wal)

lemma recorded_of_idle (hidle : r.pending = nothingPending) (hlog : Mirrors (logOf wal) r.rlog)
    (hhs : stateOf wal = copyHardState r) (hcommit : r.commit ≤ (logOf wal).lastIndex)
    (hterm : r.role = .candidate ∨ r.role = .leader → 1 ≤ r.term) : Recorded wal r := by
  refine ⟨by rw [written_of_idle hidle]; exact hlog, by rw [hidle]; exact hhs,
    by rw [written_of_idle hidle]; exact hcommit, hterm, ?_⟩
  rw [hidle]
  exact fun a ha => by cases ha

lemma Recorded.flush (h : Recorded wal r) (hlog : r'.rlog = r.rlog)
    (hhs : copyHardState r' = copyHardState r) (hrole : r'.role = r.role)
    (hidle : r'.pending = nothingPending) :
    Recorded (wal ++ Ready.records (cetcdRaftReady r).1) r' := by
  have hw := logOf_flush wal r
  have hterm : r'.term = r.term := congrArg HardState.term hhs
  have hcommit : r'.commit = r.commit := congrArg HardState.commit hhs
  refine recorded_of_idle hidle ?_ ?_ ?_ ?_
  · rw [hw, hlog]
    exact h.log
  · rw [stateOf_records, hhs]
    exact h.hs
  · rw [hw, hcommit]
    exact h.commit_le
  rw [hrole, hterm]
  exact h.term_pos

/-! ## Compaction -/

/-- If the file is released, no applied entry is to stay in memory. -/
def ReleasesAll (s : State) : Prop :=
  compactPoint s ≠ none → s.cfg.keep = 0 ∨ s.raft.applied = 1
  deriving Decidable

lemma compactPoint_eq_some {i t : Nat} (h : compactPoint s = some (i, t)) :
    s.raft.applied ≠ 0 ∧ s.raft.rlog.lastIndex = s.raft.applied ∧
      i = raftCompactIndex s.raft.applied s.cfg.keep ∧ ∃ e, logAt s.raft.rlog i = some e := by
  unfold compactPoint at h
  dsimp only at h
  split at h
  · cases h
  rename_i happlied
  split at h
  · cases h
  rename_i hlast
  cases hat : logAt s.raft.rlog s.raft.applied with
  | none =>
    rw [hat] at h
    cases h
  | some e =>
    rw [hat] at h
    dsimp only at h
    split at h
    · cases h
    have hce : (if raftCompactIndex s.raft.applied s.cfg.keep = s.raft.applied then some e
        else logAt s.raft.rlog (raftCompactIndex s.raft.applied s.cfg.keep)) =
        logAt s.raft.rlog (raftCompactIndex s.raft.applied s.cfg.keep) := by
      split
      · rename_i heq
        rw [heq, hat]
      · rfl
    rw [hce] at h
    split at h
    · cases h
    rename_i ce hsome
    cases h
    exact ⟨fun h0 => happlied (.inl h0), not_not.1 hlast, rfl, ce, hsome⟩

lemma raftCompactIndex_all {applied keep : Nat} (h0 : applied ≠ 0)
    (h : keep = 0 ∨ applied = 1) : raftCompactIndex applied keep = applied := by
  unfold raftCompactIndex
  rw [if_neg h0]
  split <;> omega

lemma AtRest.release (h : AtRest s) (happlied : s.raft.commit ≤ s.raft.applied) {t : Nat}
    (hpoint : compactPoint s = some (s.raft.applied, t)) :
    Recorded [.snapshot s.raft.applied t, .state (copyHardState s.raft)]
        (cetcdRaftCompact s.raft s.raft.applied t) ∧
      (cetcdRaftCompact s.raft s.raft.applied t).pending = nothingPending := by
  obtain ⟨h0, hlast, _, e, hat⟩ := compactPoint_eq_some hpoint
  have hcomp : s.raft.rlog.compacted ≤ s.raft.applied := (logAt_eq_some.1 hat).2.2.1
  obtain ⟨l, hl⟩ := logCompact_isSome (t := t) h0 hcomp (.inr hlast.ge)
  obtain ⟨v, hv⟩ := logCompact_isSome (l := emptyLog) (t := t) h0 zero_le (.inl rfl)
  obtain ⟨_, _, _, hlc, hllast, _⟩ := logCompact_eq_some hl
  obtain ⟨_, _, _, hvc, hvlast, _⟩ := logCompact_eq_some hv
  have hraft : cetcdRaftCompact s.raft s.raft.applied t = { s.raft with rlog := l } := by
    unfold cetcdRaftCompact
    rw [hl]
  have hfile : logOf [.snapshot s.raft.applied t, .state (copyHardState s.raft)] = v := by
    change logRecord emptyLog (.snapshot s.raft.applied t) = v
    unfold logRecord
    dsimp only
    rw [if_neg h0, hv, Option.getD_some]
  rw [hraft]
  refine ⟨recorded_of_idle h.idle ?_ rfl ?_ h.recorded.term_pos, h.idle⟩
  · rw [hfile]
    -- nothing is left above the new end, so there are no cells to compare
    exact ⟨by rw [hvc, hlc], by rw [hlc, hvlast]; exact le_max_right _ _,
      by rw [hllast, hvlast, hlast]; simp, fun q hq hqlast => by
        rw [hlc] at hq
        rw [hllast, hlast, max_self] at hqlast
        omega⟩
  rw [hfile, hvlast]
  exact happlied.trans (le_max_right _ _)

lemma AtRest.truncate (h : AtRest s) (happlied : s.raft.commit ≤ s.raft.applied) {released : Bool}
    (hall : released → ReleasesAll s) : AtRest (maybeSnapshotTruncate s released) := by
  unfold maybeSnapshotTruncate
  cases hpoint : compactPoint s with
  | none => exact h
  | some p =>
    obtain ⟨i, t⟩ := p
    dsimp only
    split
    · rename_i hreleased
      obtain ⟨h0, _, hi, _⟩ := compactPoint_eq_some hpoint
      have heq : i = s.raft.applied := by
        rw [hi]
        exact raftCompactIndex_all h0 (hall hreleased (by rw [hpoint]; simp))
      subst heq
      obtain ⟨hrec, hidle⟩ := h.release happlied hpoint
      exact ⟨hrec, hidle⟩
    · exact h

/-! ## Start -/

lemma compacted_foldl_entries (es : List Entry) (v : RaftLog) :
    ((es.map DiskRecord.entry).foldl logRecord v).compacted = v.compacted ∧
      v.lastIndex ≤ ((es.map DiskRecord.entry).foldl logRecord v).lastIndex := by
  induction es generalizing v with
  | nil => exact ⟨rfl, le_rfl⟩
  | cons e es ih =>
    obtain ⟨hcomp, hlast⟩ := ih (logRecord v (.entry e))
    refine ⟨hcomp.trans ?_, (last_le_logRecord v e).trans hlast⟩
    by_cases h0 : e.index = 0
    · exact congrArg RaftLog.compacted (if_pos h0)
    · rw [logRecord_entry h0, logAppend_compacted]

lemma kept_restart {cfg : RaftConfig} {r0 : Raft} (hnew : cetcdRaftNew cfg = some r0)
    (table : Table) (hcomp : (logOf s.wal).compacted ≤ (logOf s.wal).lastIndex)
    (hcommit : (stateOf s.wal).commit ≤ (logOf s.wal).lastIndex) : AtRest (restart s r0 table) := by
  obtain ⟨_, _, hrole0, hidle⟩ := cetcdRaftNew_blank hnew
  have hraft : (restart s r0 table).raft =
      { table.put (replayWal r0 s.wal).1 with applied := (replayWal r0 s.wal).1.commit } := rfl
  rw [replayWal_new hnew] at hraft
  refine ⟨?_, by rw [hraft]; exact hidle⟩
  change Recorded s.wal _
  rw [hraft]
  refine recorded_of_idle hidle (Mirrors.refl hcomp) rfl hcommit fun hrole => ?_
  change r0.role = _ ∨ r0.role = _ at hrole
  rw [hrole0] at hrole
  rcases hrole with h | h <;> cases h

lemma walUpTo_cases (s : State) (c : Call) (k : Nat) : walUpTo s c k = walBy s c ∨
      walUpTo s c k = s.wal ++ ((c.run s.raft).pending.entries.take k).map .entry := by
  unfold walUpTo walBy
  generalize c.run s.raft = r
  obtain hk | hk := Nat.lt_or_ge r.pending.entries.length k
  · refine .inl (congrArg (s.wal ++ ·) (take_of_length_le ?_))
    unfold Ready.records
    rw [length_append, length_map, length_map]
    have hone : r.pending.hs.toList.length ≤ 1 := by cases r.pending.hs <;> simp
    change r.pending.entries.length + r.pending.hs.toList.length ≤ k
    omega
  refine .inr (congrArg (s.wal ++ ·) ?_)
  unfold Ready.records
  rw [take_append_of_le_length (by rw [length_map]; exact hk), map_take]
  rfl

lemma AtRest.startable (h : AtRest s) {c : Call} (hrec : Recorded s.wal (c.run s.raft)) (k : Nat) :
    (logOf (walUpTo s c k)).compacted ≤ (logOf (walUpTo s c k)).lastIndex ∧
      (stateOf (walUpTo s c k)).commit ≤ (logOf (walUpTo s c k)).lastIndex := by
  obtain hall | hsome := walUpTo_cases s c k
  · have hw : logOf (walBy s c) = written s.wal (c.run s.raft) := logOf_flush s.wal _
    have hstate : stateOf (walBy s c) = copyHardState (c.run s.raft) :=
      (stateOf_records s.wal _).trans hrec.hs
    rw [hall, hw, hstate]
    exact ⟨hrec.log.compacted.trans hrec.log.compacted_le, hrec.commit_le⟩
  -- the hard state in the file is the old one
  rw [hsome, stateOf_append_entries, logOf_append]
  generalize (c.run s.raft).pending.entries.take k = es
  obtain ⟨hcomp, hlast⟩ := compacted_foldl_entries es (logOf s.wal)
  have hlog := h.recorded.log
  have hhs := h.recorded.hs
  have hcommit := h.recorded.commit_le
  rw [written_of_idle h.idle] at hlog hcommit
  rw [h.idle] at hhs
  change stateOf s.wal = copyHardState s.raft at hhs
  refine ⟨?_, ?_⟩
  · rw [hcomp]
    exact (hlog.compacted.trans hlog.compacted_le).trans hlast
  rw [hhs]
  exact hcommit.trans hlast

end

/-! ## Runs -/

/-- A Ready is dropped only when its records reached the file, the file is released only for the
whole log, and no snapshot goes into an empty log. -/
def Careful (s : State) : Act → Prop
  | .ready c out =>
    NotIntoEmpty s.raft (c.msg s.raft) ∧
      (∀ k ∈ out.failed, (Ready.records (cetcdRaftReady (c.run s.raft)).1).length ≤ k) ∧
      (out.failed = none → out.released = true →
        ReleasesAll (advanced { s with raft := c.run s.raft } out.table))
  | .crash c _ _ _ => NotIntoEmpty s.raft (c.msg s.raft)

instance (s : State) (a : Act) : Decidable (Careful s a) := by
  cases a <;> unfold Careful <;> infer_instance

section

variable {s : State} {hist : List State}

lemma AtRest.call (h : AtRest s) (c : Call) (hno : NotIntoEmpty s.raft (c.msg s.raft)) :
    Recorded s.wal (c.run s.raft) :=
  h.recorded.call c hno (by rw [h.idle]; rfl)

lemma kept_advanced {s : State} (h : Recorded s.wal s.raft) (table : Table) :
    AtRest (advanced s table) ∧ (advanced s table).raft.commit ≤ (advanced s table).raft.applied := by
  unfold advanced
  dsimp only
  unfold cetcdRaftAdvance
  split
  · rename_i hlt
    exact ⟨⟨h.flush rfl rfl rfl rfl, rfl⟩, le_rfl⟩
  rename_i hge
  exact ⟨⟨h.flush rfl rfl rfl rfl, rfl⟩, not_lt.1 hge⟩

lemma AtRest.next (h : AtRest s) {a : Act} (hok : Careful s a) : AtRest (s.next a) := by
  cases a with
  | ready c out =>
    rcases hok with ⟨hno, hfail, hrelease⟩
    have hrec : Recorded s.wal (c.run s.raft) := h.call c hno
    change AtRest (processReady { s with raft := c.run s.raft } out)
    unfold processReady
    cases hf : out.failed with
    | none =>
      rcases kept_advanced (s := { s with raft := c.run s.raft }) hrec out.table with
        ⟨hkept, happlied⟩
      exact hkept.truncate happlied (hrelease hf)
    | some k =>
      dsimp only
      rw [take_of_length_le (hfail k hf)]
      exact ⟨hrec.flush rfl rfl rfl rfl, rfl⟩
  | crash c k cfg table =>
    unfold State.next
    dsimp only
    cases hnew : cetcdRaftNew cfg with
    | none => exact h
    | some r0 =>
      rcases h.startable (h.call c hok) k with ⟨hcomp, hcommit⟩
      exact kept_restart hnew table hcomp hcommit

lemma kept_initial (h : Initial s) : AtRest s := by
  obtain ⟨cfg, table, r0, hnew, heq⟩ := h
  obtain ⟨hlog, hhs, hrole, hidle⟩ := cetcdRaftNew_blank hnew
  rw [heq]
  refine ⟨recorded_of_idle hidle ?_ hhs.symm ?_ fun hr => ?_, hidle⟩
  · change Mirrors emptyLog r0.rlog
    rw [hlog]
    exact Mirrors.refl le_rfl
  · exact (congrArg HardState.commit hhs).le
  change r0.role = _ ∨ r0.role = _ at hr
  rw [hrole] at hr
  rcases hr with h | h <;> cases h

lemma kept_of_run (hrun : Run Careful hist) : ∀ s ∈ hist, AtRest s := by
  refine hrun.forall_mem (fun s => kept_initial) ?_
  rintro s a s' hkept ⟨hok, rfl⟩
  exact hkept.next hok

/-! ## What replay finds -/

/-- `v` has the entries of `l` from behind the compacted prefix up to `n`. -/
def HoldsUpTo (v l : RaftLog) (n : Nat) : Prop :=
  ∀ q, l.compacted < q → q ≤ n → ∃ e, logAt l q = some e ∧ logAt v q = some e

lemma Mirrors.holdsUpTo {v l : RaftLog} (h : Mirrors v l) {n : Nat} (hn : n ≤ l.lastIndex) :
    HoldsUpTo v l n := by
  intro q hq hqn
  have hc := h.compacted
  have hl := h.last_le
  refine ⟨l.log.read q, logAt_of_range (by omega) (by omega) (by omega), ?_⟩
  rw [← h.cells q hq (by omega)]
  exact logAt_of_range (by omega) (by omega) (by omega)

/-- The node started from the file has all entries that are committed or not compacted. -/
theorem replay_holds_log (hrun : Run Careful hist) (hs : s ∈ hist) {cfg : RaftConfig} {r0 : Raft}
    (hnew : cetcdRaftNew cfg = some r0) :
    HoldsUpTo (replayWal r0 s.wal).1.rlog s.raft.rlog s.raft.rlog.lastIndex ∧
      ∀ (c : Call) (k : Nat), NotIntoEmpty s.raft (c.msg s.raft) →
        (replayWal r0 (walUpTo s c k)).1.commit ≤ (replayWal r0 (walUpTo s c k)).1.rlog.lastIndex := by
  have h := kept_of_run hrun s hs
  refine ⟨?_, fun c k hno => ?_⟩
  · rw [replayWal_new hnew]
    have hlog := h.recorded.log
    rw [written_of_idle h.idle] at hlog
    exact hlog.holdsUpTo le_rfl
  rw [replayWal_new hnew]
  exact (h.startable (h.call c hno) k).2

/-- A single voter is elected and commits two entries; the file is released after each. -/
def releasingScript : List (State → Act) :=
  [act (.step { type := .hup }) none true, act (.step { type := .prop, context := [1] }) none true,
    act (.step { type := .prop, context := [2] }) none true]

theorem replay_holds_log_released :
    (Lib.finish State.next (start ⟨1, true, 0⟩ []) releasingScript).raft.rlog.compacted = 2 ∧
      ∀ s ∈ Lib.replay State.next [] (start ⟨1, true, 0⟩ []) releasingScript,
        HoldsUpTo (replayWal node1 s.wal).1.rlog s.raft.rlog s.raft.rlog.lastIndex ∧
          (replayWal node1 s.wal).1.commit ≤ (replayWal node1 s.wal).1.rlog.lastIndex := by
  refine ⟨by decide +kernel, fun s hs => ?_⟩
  have h := replay_holds_log (run_script (by decide +kernel)) hs node1_new
  have hidle := h.2 .flush 0 (by rintro ⟨⟩)
  have hwal : walUpTo s .flush 0 = s.wal := append_nil s.wal
  rw [hwal] at hidle
  exact ⟨h.1, hidle⟩

/-- One entry is to be kept for slow followers: the file loses it. -/
theorem release_loses_tail :
    Run (fun _ _ => True) (Lib.replay State.next [] (start ⟨1, true, 1⟩ []) releasingScript) ∧
      ∃ s ∈ Lib.replay State.next [] (start ⟨1, true, 1⟩ []) releasingScript,
        s.raft.rlog.compacted = 1 ∧ logAt s.raft.rlog 2 = some ⟨1, 2, .normal, [2]⟩ ∧
          (replayWal node1 s.wal).1.commit = 2 ∧ (replayWal node1 s.wal).1.rlog.lastIndex = 1 ∧
          logAt (replayWal node1 s.wal).1.rlog 2 = none :=
  ⟨run_script (by decide +kernel), Lib.finish State.next (start ⟨1, true, 1⟩ []) releasingScript,
    Lib.finish_mem_replay _ _ _ _, by decide +kernel⟩

/-- What a message of `r` promises; `disk` is the node started from the file. -/
def OnDisk (r disk : Raft) (a : Msg) : Prop :=
  match a.type with
  | .voteResp => disk.term = a.term ∧ (a.reject = 0 → disk.vote = a.dest)
  | .appResp => a.reject = 0 →
      disk.term = a.term ∧ disk.vote = r.vote ∧ HoldsUpTo disk.rlog r.rlog a.index
  | .app =>
    disk.term = a.term ∧ disk.vote = r.vote ∧
      HoldsUpTo disk.rlog r.rlog (a.index + a.entries.length) ∧
      ∀ k (h : k < a.entries.length), logAt disk.rlog (a.index + 1 + k) = some a.entries[k]
  | _ => True

lemma Recorded.onDisk {wal : List DiskRecord} {r disk : Raft} {a : Msg} (h : Recorded wal r)
    (hlog : disk.rlog = written wal r) (hhs : copyHardState disk = copyHardState r)
    (ha : Truthful r a) : OnDisk r disk a := by
  have hterm : disk.term = r.term := congrArg HardState.term hhs
  have hvote : disk.vote = r.vote := congrArg HardState.vote hhs
  revert ha
  unfold Truthful OnDisk
  rw [hterm, hvote, hlog]
  cases a.type with
  | voteResp => exact fun ha => ⟨ha.1.symm, fun h0 => (ha.2 h0).symm⟩
  | appResp => exact fun ha h0 => ⟨ha.1.symm, rfl, h.log.holdsUpTo (ha.2 h0).le⟩
  | app =>
    rintro ⟨ha, happ⟩
    have hholds := h.log.holdsUpTo happ.le_last
    refine ⟨ha.symm, rfl, hholds, fun k hk => ?_⟩
    have hcomp := happ.compacted_le
    obtain ⟨e, hl, hv⟩ := hholds (a.index + 1 + k) (by omega) (by omega)
    rw [happ.entries k hk] at hl
    rw [hv, ← hl]
  | _ => exact fun _ => trivial

theorem durable_before_visible (hrun : Run Careful hist) (hs : s ∈ hist) {c : Call} {out : Outcome}
    (hok : Careful s (.ready c out)) {cfg : RaftConfig} {r0 : Raft}
    (hnew : cetcdRaftNew cfg = some r0) :
    ∀ a ∈ sentBy s c out, OnDisk (c.run s.raft) (replayWal r0 (walBy s c)).1 a := by
  have hrec := (kept_of_run hrun s hs).call c hok.1
  intro a ha
  have hmem : a ∈ (c.run s.raft).pending.msgs := by
    unfold sentBy at ha
    split at ha
    · exact ha
    · cases ha
  rw [replayWal_new hnew]
  refine hrec.onDisk (logOf_flush s.wal _) ?_ (hrec.msgs a hmem)
  change stateOf (walBy s c) = _
  unfold walBy
  rw [stateOf_records]
  exact hrec.hs

/-- Node 1 is elected with the vote of node 2. -/
def electedScript : List (State → Act) :=
  [act (.step { type := .hup }) none false,
    act (.step { type := .voteResp, sender := 2, term := 1 }) none false]

def threeVoters : State := start {} [⟨2, false⟩, ⟨3, false⟩]

def newLeader : State := Lib.finish State.next threeVoters electedScript

def firstProp : Call := .step { type := .prop, context := [1] }

theorem durable_before_visible_three :
    (∃ a ∈ sentBy newLeader firstProp ⟨none, false, Table.of newLeader.raft⟩,
      a.type = .app ∧ a.entries.length = 1) ∧
    ∀ a ∈ sentBy newLeader firstProp ⟨none, false, Table.of newLeader.raft⟩,
      OnDisk (firstProp.run newLeader.raft) (replayWal node1 (walBy newLeader firstProp)).1 a :=
  ⟨by decide +kernel, durable_before_visible
      (run_script (by decide +kernel) : Run Careful (Lib.replay State.next [] threeVoters electedScript))
      (Lib.finish_mem_replay _ _ _ _) (by decide +kernel) node1_new⟩

/-- The Ready with the first entry is not written; the entry goes out with the next beat. -/
def droppedScript : List (State → Act) := electedScript ++ [act firstProp (some 0) false]

theorem dropped_entry_is_sent :
    let s := Lib.finish State.next threeVoters droppedScript
    Run (fun _ _ => True) (Lib.replay State.next [] threeVoters droppedScript) ∧
      s ∈ Lib.replay State.next [] threeVoters droppedScript ∧
      ∃ a ∈ sentBy s .tick ⟨none, false, Table.of s.raft⟩, a.type = .app ∧
        ¬ OnDisk (Call.run .tick s.raft) (replayWal node1 (walBy s .tick)).1 a := by
  refine ⟨run_script (by decide +kernel), Lib.finish_mem_replay _ _ _ _, ?_⟩
  have hsent : ∃ a ∈ sentBy (Lib.finish State.next threeVoters droppedScript) .tick
      ⟨none, false, Table.of (Lib.finish State.next threeVoters droppedScript).raft⟩,
      a.type = .app ∧ a.index = 0 ∧ a.entries.length = 1 := by decide +kernel
  have hlast : (replayWal node1
      (walBy (Lib.finish State.next threeVoters droppedScript) .tick)).1.rlog.lastIndex = 0 := by
    decide +kernel
  obtain ⟨a, ha, htype, hindex, hlength⟩ := hsent
  refine ⟨a, ha, htype, fun hdisk => ?_⟩
  simp only [OnDisk, htype] at hdisk
  have hentry := (logAt_eq_some.1 (hdisk.2.2.2 0 (by omega))).2.1
  omega

end

end Cetcd.Server
