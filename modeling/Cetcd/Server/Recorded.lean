import Cetcd.Raft.Stored
import Cetcd.Server.Model

/-!
# What the file knows of the node

`Recorded wal r` relates a node in the middle of a call to the file: file and waiting entries give
at least the log in memory, file and pending hard state its term, vote and commit index. Every
stroke keeps it but one: a snapshot installed into an empty log moves its end without a record.
-/

namespace Cetcd.Server

open Lib Raft Protocol Calls List

/-! ## Logs -/

/-- `v` has every entry of `l` past the compacted prefix, and perhaps more behind them. -/
structure Mirrors (v l : RaftLog) : Prop where
  compacted : v.compacted ≤ l.compacted
  compacted_le : l.compacted ≤ v.lastIndex
  last_le : l.lastIndex ≤ v.lastIndex
  cells : ∀ q, l.compacted < q → q ≤ l.lastIndex → v.log.read q = l.log.read q

/-- What a stored and queued entry adds to the file: nothing if it is compacted. -/
def addStored (v l : RaftLog) (idx : Nat) : RaftLog :=
  match logAt l idx with
  | some e => logRecord v (.entry e)
  | none => v

section

variable {v l l' : RaftLog} {idx : Nat} {e : Entry}

lemma Mirrors.refl (h : l.compacted ≤ l.lastIndex) : Mirrors l l :=
  ⟨le_rfl, h, le_rfl, fun _ _ _ => rfl⟩

lemma logRecord_entry (hidx : e.index ≠ 0) : logRecord v (.entry e) = logAppend v e :=
  if_neg hidx

lemma last_le_logRecord (v : RaftLog) (e : Entry) :
    v.lastIndex ≤ (logRecord v (.entry e)).lastIndex := by
  by_cases h0 : e.index = 0
  · exact (congrArg RaftLog.lastIndex (if_pos h0 : logRecord v (.entry e) = v)).ge
  rw [logRecord_entry h0, logAppend_lastIndex]
  exact le_max_left _ _

lemma last_le_addStored (v l : RaftLog) (idx : Nat) :
    v.lastIndex ≤ (addStored v l idx).lastIndex := by
  unfold addStored
  split
  · exact last_le_logRecord v _
  · exact le_rfl

lemma Mirrors.write (h : Mirrors v l) (h1 : 1 ≤ idx) (hcomp : l'.compacted = l.compacted)
    (hin : idx ≤ l'.lastIndex) (hlast : l'.lastIndex ≤ max l.lastIndex idx)
    (hself : (l'.log.read idx).index = idx)
    (hread : ∀ q, q ≠ idx → q ≤ l'.lastIndex → l'.log.read q = l.log.read q)
    (hgap : idx ≤ l.lastIndex + 1) : Mirrors (addStored v l' idx) l' := by
  have hc := h.compacted
  have hcle := h.compacted_le
  have hl := h.last_le
  have hcells : ∀ q, l'.compacted < q → q ≤ l'.lastIndex → q ≠ idx →
      v.log.read q = l'.log.read q := by
    intro q hq hqlast hne
    rw [hread q hne hqlast]
    exact h.cells q (by omega) (by omega)
  unfold addStored
  by_cases hlow : idx < l.compacted
  · have hnone : logAt l' idx = none := by
      unfold logAt
      rw [if_neg (by omega), if_pos (by omega)]
    rw [hnone]
    dsimp only
    exact ⟨by omega, by omega, by omega, fun q hq hqlast => hcells q hq hqlast (by omega)⟩
  have hsome : logAt l' idx = some (l'.log.read idx) := logAt_of_range (by omega) hin (by omega)
  rw [hsome]
  dsimp only
  rw [logRecord_entry (by omega)]
  refine ⟨by rw [logAppend_compacted]; omega, ?_, ?_, fun q hq hqlast => ?_⟩
  · rw [logAppend_lastIndex]
    omega
  · rw [logAppend_lastIndex, hself]
    omega
  rw [logAppend_log, hself]
  by_cases hne : q = idx
  · rw [hne, ZeroArray.read_write_self]
  rw [ZeroArray.read_write_of_ne _ _ hne]
  exact hcells q hq hqlast hne

lemma Mirrors.store (h : Mirrors v l) (h1 : 1 ≤ idx) (hgap : idx ≤ l.lastIndex + 1) (e : Entry) :
    Mirrors (addStored v (storeEntry l idx e) idx) (storeEntry l idx e) ∧
      idx ≤ (storeEntry l idx e).lastIndex := by
  have hself : ((storeEntry l idx e).log.read idx).index = idx := by rw [storeEntry_read_self]
  by_cases hcut : Contradicts l idx e
  · have hlast := (storeEntry_cut hcut h1).1
    refine ⟨h.write h1 (by simp) hlast.ge (by rw [hlast]; exact le_max_right _ _) hself ?_ hgap,
      hlast.ge⟩
    intro q hne hq
    exact storeEntry_read_below (by omega)
  obtain ⟨hlast, _, hread⟩ := storeEntry_keep hcut
  have hin : idx ≤ (storeEntry l idx e).lastIndex := by
    rw [hlast]
    exact le_max_right _ _
  exact ⟨h.write h1 (by simp) hin hlast.le hself (fun q hne _ => hread q hne) hgap, hin⟩

end

/-! ## The node and the file -/

/-- The log that replay will find once the pending entries are written. -/
def written (wal : List DiskRecord) (r : Raft) : RaftLog :=
  logOf (wal ++ r.pending.entries.map .entry)

lemma logOf_flush (wal : List DiskRecord) (r : Raft) :
    logOf (wal ++ Ready.records (cetcdRaftReady r).1) = written wal r := logOf_records wal _

/-- What a message says of its sender: term, vote, the end of its log, its entries. -/
def Truthful (r : Raft) (a : Msg) : Prop :=
  match a.type with
  | .voteResp => a.term = r.term ∧ (a.reject = 0 → a.dest = r.vote)
  | .appResp => a.term = r.term ∧ (a.reject = 0 → a.index = r.rlog.lastIndex)
  | .app => a.term = r.term ∧ AppFrom r.rlog a
  | _ => True

structure Recorded (wal : List DiskRecord) (r : Raft) : Prop where
  log : Mirrors (written wal r) r.rlog
  hs : r.pending.hs.getD (stateOf wal) = copyHardState r
  commit_le : r.commit ≤ (written wal r).lastIndex
  term_pos : r.role = .candidate ∨ r.role = .leader → 1 ≤ r.term
  msgs : ∀ a ∈ r.pending.msgs, Truthful r a

section

variable {wal : List DiskRecord} {m : Msg} {o r r' : Raft}

lemma truthful_congr (hterm : r'.term = r.term) (hvote : r'.vote = r.vote)
    (hlog : r'.rlog = r.rlog) (a : Msg) : Truthful r' a ↔ Truthful r a := by
  unfold Truthful
  rw [hterm, hvote, hlog]

lemma truthful_of_utters {a : Msg} (h : Utters r a) : Truthful r a := by
  revert h
  unfold Utters Truthful
  cases a.type with
  | voteResp => exact fun h => ⟨h.2, fun h0 => absurd h0 h.1⟩
  | appResp => exact id
  | app => exact fun h => ⟨h.1, h.2.2⟩
  | _ => exact fun _ => trivial

lemma written_queueStored (wal : List DiskRecord) (r : Raft) (idx : Nat) :
    written wal (queueStored r idx) = addStored (written wal r) r.rlog idx := by
  unfold queueStored addStored
  cases logAt r.rlog idx with
  | none => rfl
  | some e =>
    change logOf (wal ++ (r.pending.entries ++ [e]).map .entry) = _
    rw [map_append, ← append_assoc]
    exact logOf_concat _ _

lemma Recorded.frame (h : Recorded wal r) (hlog : r'.rlog = r.rlog)
    (hpending : r'.pending = r.pending) (hhs : copyHardState r' = copyHardState r)
    (hrole : r'.role = .candidate ∨ r'.role = .leader → 1 ≤ r'.term) : Recorded wal r' := by
  have hw : written wal r' = written wal r := by
    unfold written
    rw [hpending]
  have hterm : r'.term = r.term := congrArg HardState.term hhs
  have hvote : r'.vote = r.vote := congrArg HardState.vote hhs
  have hcommit : r'.commit = r.commit := congrArg HardState.commit hhs
  refine ⟨by rw [hw, hlog]; exact h.log, by rw [hpending, hhs]; exact h.hs,
    by rw [hw, hcommit]; exact h.commit_le, hrole, fun a ha => ?_⟩
  rw [hpending] at ha
  exact (truthful_congr hterm hvote hlog a).2 (h.msgs a ha)

lemma Recorded.hard (h : Recorded wal r) (hlog : r'.rlog = r.rlog)
    (hentries : r'.pending.entries = r.pending.entries)
    (hcommit : r'.commit ≤ (written wal r).lastIndex)
    (hrole : r'.role = .candidate ∨ r'.role = .leader → 1 ≤ r'.term)
    (hmsgs : ∀ a ∈ r'.pending.msgs, Truthful r' a) : Recorded wal (queueHardState r') := by
  have hw : written wal (queueHardState r') = written wal r := by
    change logOf (wal ++ r'.pending.entries.map .entry) = _
    rw [hentries]
    rfl
  exact ⟨by rw [hw]; exact hlog ▸ h.log, rfl, by rw [hw]; exact hcommit, hrole, hmsgs⟩

lemma mirrors_appendEntries (es : List Entry) {r : Raft} {idx : Nat}
    (h : Mirrors (written wal r) r.rlog) (h1 : 1 ≤ idx) (hgap : idx ≤ r.rlog.lastIndex + 1) :
    Mirrors (written wal (appendEntries r idx es)) (appendEntries r idx es).rlog ∧
      (written wal r).lastIndex ≤ (written wal (appendEntries r idx es)).lastIndex := by
  induction es generalizing r idx with
  | nil => exact ⟨h, le_rfl⟩
  | cons e es ih =>
    rcases h.store h1 hgap e with ⟨hstore, hin⟩
    have hlog : (queueStored { r with rlog := storeEntry r.rlog idx e } idx).rlog =
        storeEntry r.rlog idx e := congrArg View.rlog (view_queueStored _ idx)
    have hw : written wal (queueStored { r with rlog := storeEntry r.rlog idx e } idx) =
        addStored (written wal r) (storeEntry r.rlog idx e) idx := written_queueStored wal _ idx
    rw [appendEntries]
    rcases @ih (queueStored { r with rlog := storeEntry r.rlog idx e } idx) (idx + 1)
      (by rw [hw, hlog]; exact hstore) (by omega) (by rw [hlog]; omega) with ⟨hrest, hle⟩
    refine ⟨hrest, le_trans ?_ hle⟩
    rw [hw]
    exact last_le_addStored _ _ _

lemma Recorded.accept (h : Recorded wal r) (hprev : PrevMatches r.rlog m)
    (hfollow : r.role = .follower) (hmsgs : r.pending.msgs = []) :
    Recorded wal (appendEntries r (m.index + 1) m.entries) := by
  have hgap : m.index + 1 ≤ r.rlog.lastIndex + 1 := by
    obtain h0 | ⟨hle, _⟩ := hprev
    all_goals omega
  have hview := appendEntries_spec m.entries r (m.index + 1)
  have hseat := sameSeat_appendEntries m.entries r (m.index + 1)
  obtain ⟨hlog, hle⟩ := mirrors_appendEntries m.entries h.log (by omega) hgap
  have hcommit : (appendEntries r (m.index + 1) m.entries).commit = r.commit :=
    (congrArg View.commit hview :)
  refine ⟨hlog, ?_, ?_, ?_, ?_⟩
  · have hhs : copyHardState (appendEntries r (m.index + 1) m.entries) = copyHardState r := by
      unfold copyHardState
      rw [hseat.term, hseat.vote, hcommit]
    rw [hs_appendEntries, hhs]
    exact h.hs
  · rw [hcommit]
    exact h.commit_le.trans hle
  · rw [hseat.role, hfollow]
    rintro (h | h) <;> cases h
  rw [hseat.msgs, hmsgs]
  simp

section

variable (r : Raft) (type : EntryType) (data : List UInt8)

lemma rlog_proposed : (proposed r type data).rlog =
      logAppend { r.rlog with lastIndex := r.rlog.lastIndex + 1, lastTerm := r.term }
        { term := r.term, index := r.rlog.lastIndex + 1, type := type, data := data } :=
  congrArg View.rlog (view_queueStored _ _)

lemma proposed_rlog :
    (proposed r type data).rlog.lastIndex = r.rlog.lastIndex + 1 ∧
      (proposed r type data).rlog.lastTerm = r.term ∧
      (proposed r type data).rlog.compacted = r.rlog.compacted ∧
      (proposed r type data).rlog.log.read (r.rlog.lastIndex + 1) =
        { term := r.term, index := r.rlog.lastIndex + 1, type := type, data := data } ∧
      ∀ q, q ≠ r.rlog.lastIndex + 1 →
        (proposed r type data).rlog.log.read q = r.rlog.log.read q := by
  rw [rlog_proposed, logAppend_lastIndex, logAppend_lastTerm, logAppend_compacted, logAppend_log]
  exact ⟨max_self _, ite_self _, rfl, ZeroArray.read_write_self _ _ _,
    fun q hq => ZeroArray.read_write_of_ne _ _ hq⟩

lemma written_proposed (wal : List DiskRecord) :
    written wal (proposed r type data) =
      addStored (written wal r) (proposed r type data).rlog (r.rlog.lastIndex + 1) := by
  rw [rlog_proposed]
  exact written_queueStored wal _ _

end

lemma Recorded.propose (h : Recorded wal r) (type : EntryType) (data : List UInt8)
    (hmsgs : r.pending.msgs = []) : Recorded wal (queueHardState (proposed r type data)) := by
  obtain ⟨hlast, _, hcomp, hself, hread⟩ := proposed_rlog r type data
  have hcommit : (proposed r type data).commit = r.commit := congrArg View.commit (view_queueStored _ _)
  have hseat := sameSeat_proposed r type data
  refine ⟨?_, rfl, ?_, ?_, ?_⟩
  · change Mirrors (written wal (proposed r type data)) (proposed r type data).rlog
    rw [written_proposed]
    exact h.log.write (by omega) hcomp hlast.ge (by omega) (by rw [hself])
      (fun q hne _ => hread q hne) le_rfl
  · change (proposed r type data).commit ≤ (written wal (proposed r type data)).lastIndex
    rw [hcommit, written_proposed]
    exact h.commit_le.trans (last_le_addStored _ _ _)
  · change (proposed r type data).role = _ ∨ (proposed r type data).role = _ →
      1 ≤ (proposed r type data).term
    rw [hseat.role, hseat.term]
    exact h.term_pos
  change ∀ a ∈ (proposed r type data).pending.msgs, _
  rw [hseat.msgs, hmsgs]
  simp

@[simp] lemma coverSnapshot_entries (r : Raft) (s : Nat) :
    (coverSnapshot r s).pending.entries = r.pending.entries := by
  unfold coverSnapshot
  dsimp only
  split
  all_goals split <;> rfl

lemma Recorded.cover (h : Recorded wal r) {s : Nat} (hs : s ≤ r.rlog.compacted) :
    Recorded wal (coverSnapshot r s) := by
  have hraise : Recorded wal
      (if r.commit < s then queueHardState { r with commit := s } else r) := by
    split
    · refine h.hard rfl rfl ?_ h.term_pos (fun a ha => (truthful_congr rfl rfl rfl a).2 (h.msgs a ha))
      have hc := h.log.compacted
      have hcle := h.log.compacted_le
      change s ≤ _
      omega
    · exact h
  unfold coverSnapshot
  dsimp only
  generalize (if r.commit < s then queueHardState { r with commit := s } else r) = r1 at hraise
  split
  · exact hraise.frame rfl rfl rfl hraise.term_pos
  · exact hraise

lemma Recorded.install (h : Recorded wal r) {s t : Nat} {l : RaftLog}
    (hl : logCompact r.rlog s t = some l) (hlast : r.rlog.lastIndex ≠ 0)
    (hmsgs : r.pending.msgs = []) : Recorded wal (coverSnapshot { r with rlog := l } s) := by
  obtain ⟨_, hle, hin, hcomp, hlast', _, _, hread⟩ := logCompact_eq_some hl
  have hs : s ≤ r.rlog.lastIndex := by
    obtain h0 | hin := hin
    · exact absurd h0 hlast
    · exact hin
  have hlog : Mirrors (written wal r) l := by
    have hc := h.log.compacted
    have hl := h.log.last_le
    refine ⟨by omega, by omega, by omega, fun q hq hqlast => ?_⟩
    rw [hread q (by omega)]
    exact h.log.cells q (by omega) (by omega)
  have hrec : Recorded wal { r with rlog := l } := by
    refine ⟨hlog, h.hs, h.commit_le, h.term_pos, fun a ha => ?_⟩
    change a ∈ r.pending.msgs at ha
    rw [hmsgs] at ha
    cases ha
  exact hrec.cover hcomp.ge

/-- No snapshot is installed into an empty log. -/
def NotIntoEmpty (r : Raft) (m : Msg) : Prop :=
  m.type = .snap → r.term ≤ m.term → r.rlog.compacted < m.snapshot → r.rlog.lastIndex ≠ 0
  deriving Decidable

lemma Recorded.stroke (h : Recorded wal r) (hno : NotIntoEmpty o m) (ho : o.pending.msgs = [])
    (hs : Stroke m o r r') : Recorded wal r' := by
  cases hs with
  | pace | track | count => exact h.frame rfl rfl rfl h.term_pos
  | note => exact h.hard rfl rfl h.commit_le h.term_pos h.msgs
  | demote | preCampaign => exact h.frame rfl rfl rfl (by rintro (hr | hr) <;> cases hr)
  | stepDown _ hmsgs =>
    refine h.hard rfl rfl h.commit_le (by rintro (hr | hr) <;> cases hr) ?_
    intro a ha
    rw [show ({ r with role := .follower, term := _, vote := 0 } : Raft).pending.msgs = [] from
      hmsgs.trans ho] at ha
    cases ha
  | campaign _ hmsgs =>
    refine h.hard rfl rfl h.commit_le (fun _ => Nat.succ_le_succ zero_le) ?_
    intro a ha
    change a ∈ r.pending.msgs at ha
    rw [hmsgs, ho] at ha
    cases ha
  | lead _ hcand => exact h.frame rfl rfl rfl (fun _ => h.term_pos (.inl hcand))
  | @say a ha =>
    refine ⟨h.log, h.hs, h.commit_le, h.term_pos, fun b hb => ?_⟩
    change b ∈ r.pending.msgs ++ [a] at hb
    obtain hb | hb := mem_append.1 hb
    · exact h.msgs b hb
    rw [mem_singleton.1 hb]
    exact truthful_of_utters ha
  | grant _ _ _ hmsgs =>
    have hhard : Recorded wal (queueHardState { r with vote := m.sender }) := by
      refine h.hard rfl rfl h.commit_le h.term_pos fun a ha => ?_
      change a ∈ r.pending.msgs at ha
      rw [hmsgs, ho] at ha
      cases ha
    refine ⟨hhard.log, hhard.hs, hhard.commit_le, hhard.term_pos, fun b hb => ?_⟩
    change b ∈ r.pending.msgs ++ [_] at hb
    rw [hmsgs, ho] at hb
    rw [mem_singleton.1 hb]
    exact ⟨rfl, fun _ => rfl⟩
  | accept _ _ hfollow hmsgs _ _ hprev => exact h.accept hprev hfollow (hmsgs.trans ho)
  | propose type data _ hmsgs => exact h.propose type data (hmsgs.trans ho)
  | @commit c _ hc =>
    refine h.hard rfl rfl ?_ h.term_pos h.msgs
    change c ≤ _
    refine le_trans ?_ h.log.last_le
    obtain hc | ⟨hlead, hc⟩ := hc
    · exact hc
    have hpos := h.term_pos (.inr hlead)
    exact (range_of_logTermAt_ne_zero (by omega)).2.1
  | cover _ hle => exact h.cover hle
  | install htype _ hmsgs hterm hlog hnew hl =>
    rw [hlog] at hnew
    exact h.install hl (hlog ▸ hno htype hterm hnew) (hmsgs.trans ho)

lemma Recorded.call (h : Recorded wal r) (c : Call) (hno : NotIntoEmpty r (c.msg r))
    (hmsgs : r.pending.msgs = []) : Recorded wal (c.run r) :=
  (c.strokes r).induct h fun _ _ hs hrec => hrec.stroke hno hmsgs hs

end

end Cetcd.Server
