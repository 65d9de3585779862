import Cetcd.Apply.Committed
import Cetcd.Server.Durable

/-!
# Proposals and their acknowledgement

`cetcd_v3rpc_propose_or_apply` appends an operation to the log of the leader, lets `process_ready_`
run, and takes an applied index at the end of the log for success. `process_ready_` is modelled with
the store, and with the second round in which a leader proposes to leave a joint configuration.
-/

namespace Cetcd.Server

open Lib Raft Calls Apply Mvcc List

/-! ## The server with its store -/

structure Machine where
  server : State
  world : World

def Machine.raft (m : Machine) : Raft := m.server.raft

abbrev Machine.last (m : Machine) : Nat := m.raft.rlog.lastIndex

def Machine.withRaft (m : Machine) (r : Raft) : Machine :=
  { m with server := { m.server with raft := r } }

/-- One round of `process_ready_`: the committed entries are applied if the Ready is on disk. -/
def applyReady (accepts : List UInt8 → Bool) (m : Machine) (out : Outcome) :
    Machine × List Applied :=
  match out.failed with
  | none =>
    match applyCommitted accepts (logAt m.raft.rlog) m.world m.raft.applied m.raft.commit with
    | (w, calls) => (⟨processReady m.server out, w⟩, calls)
  | some _ => (⟨processReady m.server out, m.world⟩, [])

def proposal (data : List UInt8) : Msg := { type := .prop, context := data }

/-- `maybe_propose_leave_joint_`; `none` says that nothing was proposed. -/
def maybeProposeLeaveJoint (r : Raft) : Option Raft :=
  if r.role ≠ .leader then none
  else if !cetcdRaftInJoint r then none
  else if r.mem.leavePending then none
  else if !cetcdRaftJointCaughtUp r then none
  else
    match cetcdRaftStep r (proposal [9]) with
    | (rc, r') => if rc ≠ 0 then none else some (cetcdRaftSetLeavePending r' true)

/-- `process_ready_`, with the outcome of the second round in `out'`. -/
def processReadyFull (accepts : List UInt8 → Bool) (m : Machine) (out out' : Outcome) :
    Machine × List Applied :=
  match applyReady accepts m out with
  | (m1, calls) =>
    match maybeProposeLeaveJoint m1.raft with
    | none => (m1, calls)
    | some r =>
      match applyReady accepts (m1.withRaft r) out' with
      | (m2, calls') => (m2, calls ++ calls')

/-! ## Proposals -/

/-- `cetcd_v3rpc_propose_or_apply` after its checks, with the entries that were applied. -/
def proposeAfterChecks (accepts : List UInt8 → Bool) (m : Machine) (data : List UInt8)
    (out out' : Outcome) :
    Int × Machine × List Applied :=
  if m.raft.role ≠ .leader then (-1, m, [])
  else
    match cetcdRaftStep m.raft (proposal data) with
    | (rc, r) =>
      if rc ≠ 0 then (-1, m.withRaft r, [])
      else
        match processReadyFull accepts (m.withRaft r) out out' with
        | (m', calls) =>
          (if m'.raft.applied < m'.raft.rlog.lastIndex then -1 else 0, m', calls)

/-- `cetcd_apply_encode_alarm` for an alarm that is raised because space is short. -/
def encodeNospaceAlarm (memberId : Nat) : List UInt8 :=
  24 :: (writeVarint 1 ++ writeVarint 1 ++ writeVarint memberId)

/-- `cetcd_v3rpc_propose_or_apply` with Raft enabled; `overQuota`: the backend has reached its
quota. -/
def proposeOrApply (accepts : List UInt8 → Bool) (overQuota : Bool) (nodeId : Nat) (m : Machine)
    (data : List UInt8) (out out' : Outcome) : Int × Machine × List Applied :=
  match data with
  | [] => (-1, m, [])
  | op :: _ =>
    if op = 1 ∧ overQuota then
      match proposeAfterChecks accepts m
          (encodeNospaceAlarm (if nodeId ≠ 0 then nodeId else 1)) out out' with
      | (_, m', calls) => (-1, m', calls)
    else proposeAfterChecks accepts m data out out'

/-! ## The node after a proposal -/

section

variable {r r' : Raft} {data : Bytes}

/-- What a proposal to a leader makes of its node. -/
structure Proposed (r : Raft) (data : List UInt8) (r' : Raft) : Prop where
  applied : r'.applied = r.applied
  commit : r.commit ≤ r'.commit
  rlog : r'.rlog = proposedLog r .normal data

lemma step_proposal (hrole : r.role = .leader) (data : Bytes) :
    cetcdRaftStep r (proposal data) = (0, proposeEntry r .normal data) := by
  unfold cetcdRaftStep proposal
  dsimp only
  rw [if_neg (not_not.2 hrole)]

lemma cetcdRaftStep_proposal (hrole : r.role = .leader) (data : Bytes) :
    (cetcdRaftStep r (proposal data)).1 = 0 ∧
      Proposed r data (cetcdRaftStep r (proposal data)).2 := by
  rw [step_proposal hrole]
  obtain ⟨commit, hle, hsends⟩ := sends_proposeEntry r .normal data
  exact ⟨rfl, hsends.applied, hle.trans_eq hsends.commit.symm, hsends.rlog⟩

lemma maybeProposeLeaveJoint_eq_some (h : maybeProposeLeaveJoint r = some r') :
    Proposed r [9] r' := by
  unfold maybeProposeLeaveJoint at h
  by_cases hrole : r.role ≠ .leader
  · rw [if_pos hrole] at h
    cases h
  obtain ⟨hrc, hprop⟩ := cetcdRaftStep_proposal (not_not.1 hrole) [9]
  rw [if_neg hrole] at h
  split at h
  · cases h
  split at h
  · cases h
  split at h
  · cases h
  dsimp only at h
  rw [if_neg (not_not.2 hrc)] at h
  cases h
  exact ⟨hprop.applied, hprop.commit, hprop.rlog⟩

end

/-! ## The node after a round -/

/-- What a round makes of the node: the log may be compacted up to the applied index. -/
structure AfterRound (r : Raft) (persisted : Prop) (r' : Raft) : Prop where
  commit : r'.commit = r.commit
  applied_pos : persisted → r'.applied = max r.applied r.commit
  applied_neg : ¬ persisted → r'.applied = r.applied
  lastIndex : r'.rlog.lastIndex = r.rlog.lastIndex
  compacted : r.rlog.compacted ≤ r'.rlog.compacted
  compacted_le : r'.rlog = r.rlog ∨ r'.rlog.compacted ≤ r'.applied
  logAt : ∀ i, r'.rlog.compacted < i → logAt r'.rlog i = logAt r.rlog i

section

variable {accepts : Bytes → Bool} {m : Machine} {out : Outcome} {s : State} {r : Raft}
  {out' : Outcome}

lemma raftCompactIndex_le (applied catchup : Nat) : raftCompactIndex applied catchup ≤ applied := by
  unfold raftCompactIndex
  split_ifs
  · exact zero_le
  · exact Nat.sub_le _ _
  · omega

lemma maybeSnapshotTruncate_spec (s : State) (released : Bool) :
    (maybeSnapshotTruncate s released).raft.commit = s.raft.commit ∧
      (maybeSnapshotTruncate s released).raft.applied = s.raft.applied ∧
      ((maybeSnapshotTruncate s released).raft.rlog = s.raft.rlog ∨
        ∃ i t l, compactPoint s = some (i, t) ∧ logCompact s.raft.rlog i t = some l ∧
          (maybeSnapshotTruncate s released).raft.rlog = l) := by
  unfold maybeSnapshotTruncate
  split
  · exact ⟨rfl, rfl, Or.inl rfl⟩
  rename_i i t hpoint
  split
  · unfold cetcdRaftCompact
    dsimp only
    cases hl : logCompact s.raft.rlog i t with
    | none => exact ⟨rfl, rfl, Or.inl rfl⟩
    | some l => exact ⟨rfl, rfl, Or.inr ⟨i, t, l, hpoint, hl, rfl⟩⟩
  · exact ⟨rfl, rfl, Or.inl rfl⟩

lemma rounded_maybeSnapshotTruncate (s : State) (released : Bool) :
    (maybeSnapshotTruncate s released).raft.rlog.lastIndex = s.raft.rlog.lastIndex ∧
      s.raft.rlog.compacted ≤ (maybeSnapshotTruncate s released).raft.rlog.compacted ∧
      ((maybeSnapshotTruncate s released).raft.rlog = s.raft.rlog ∨
        (maybeSnapshotTruncate s released).raft.rlog.compacted ≤ s.raft.applied) ∧
      ∀ i, (maybeSnapshotTruncate s released).raft.rlog.compacted < i →
        logAt (maybeSnapshotTruncate s released).raft.rlog i = logAt s.raft.rlog i := by
  obtain hsame | ⟨i, t, l, hpoint, hl, heq⟩ := (maybeSnapshotTruncate_spec s released).2.2
  · rw [hsame]
    exact ⟨rfl, le_rfl, Or.inl rfl, fun _ _ => rfl⟩
  obtain ⟨_, hlast, hi, _⟩ := compactPoint_eq_some hpoint
  obtain ⟨_, hcomp, _, hcomp', hlast', _, _, hread⟩ := logCompact_eq_some hl
  have hle : i ≤ s.raft.applied := hi ▸ raftCompactIndex_le _ _
  have hlastEq : l.lastIndex = s.raft.rlog.lastIndex := by
    rw [hlast', hlast]
    exact max_eq_left hle
  rw [heq]
  refine ⟨hlastEq, hcomp'.symm ▸ hcomp, Or.inr (hcomp' ▸ hle), fun j hj => ?_⟩
  rw [hcomp'] at hj
  unfold logAt
  rw [hlastEq, hcomp', hread j hj, if_neg (show ¬ j < i by omega),
    if_neg (show ¬ j < s.raft.rlog.compacted by omega)]

lemma rounded_processReady (s : State) (out : Outcome) :
    AfterRound s.raft (out.failed = none) (processReady s out).raft := by
  unfold processReady
  cases hfailed : out.failed with
  | some k =>
    dsimp only
    exact ⟨rfl, fun h => (nomatch h), fun _ => rfl, rfl, le_rfl, Or.inl rfl, fun _ _ => rfl⟩
  | none =>
    dsimp only
    rcases maybeSnapshotTruncate_spec (advanced s out.table) out.released with
      ⟨hcommit, happlied, _⟩
    rcases rounded_maybeSnapshotTruncate (advanced s out.table) out.released with
      ⟨hlast, hcomp, hle, hlog⟩
    have hadvanced : (advanced s out.table).raft.applied = max s.raft.applied s.raft.commit ∧
        (advanced s out.table).raft.commit = s.raft.commit ∧
        (advanced s out.table).raft.rlog = s.raft.rlog := by
      unfold advanced cetcdRaftAdvance Table.put cetcdRaftReady
      dsimp only
      split
      · rename_i hlt
        exact ⟨(max_eq_right hlt.le).symm, rfl, rfl⟩
      rename_i hnot
      exact ⟨(max_eq_left (not_lt.1 hnot)).symm, rfl, rfl⟩
    rw [hadvanced.2.2] at hlast hcomp hle hlog
    refine ⟨hcommit.trans hadvanced.2.1, fun _ => happlied.trans hadvanced.1, fun h => absurd rfl h,
      hlast, hcomp, ?_, hlog⟩
    rw [happlied]
    exact hle

lemma rounded_applyReady (accepts : Bytes → Bool) (m : Machine) (out : Outcome) :
    AfterRound m.raft (out.failed = none) (applyReady accepts m out).1.raft := by
  have h := rounded_processReady m.server out
  unfold applyReady
  cases hfailed : out.failed with
  | some k | none =>
    rw [hfailed] at h
    exact h

lemma processReadyFull_none (h : maybeProposeLeaveJoint (applyReady accepts m out).1.raft = none) :
    processReadyFull accepts m out out' = applyReady accepts m out := by
  unfold processReadyFull
  dsimp only
  rw [h]

lemma processReadyFull_some
    (h : maybeProposeLeaveJoint (applyReady accepts m out).1.raft = some r) :
    processReadyFull accepts m out out' =
      ((applyReady accepts ((applyReady accepts m out).1.withRaft r) out').1,
        (applyReady accepts m out).2 ++
          (applyReady accepts ((applyReady accepts m out).1.withRaft r) out').2) := by
  unfold processReadyFull
  dsimp only
  rw [h]

lemma mem_applyReady {x : Applied} : x ∈ (applyReady accepts m out).2 ↔
      out.failed = none ∧ m.raft.applied < x.index ∧ x.index ≤ m.raft.commit ∧
        CalledIn accepts (logAt m.raft.rlog)
          (applyRange accepts (logAt m.raft.rlog) m.world m.raft.applied (x.index - 1)).1 x := by
  unfold applyReady
  cases hfailed : out.failed with
  | some k => exact iff_of_false not_mem_nil fun h => nomatch h.1
  | none =>
    dsimp only
    rw [mem_applyCommitted]
    exact (and_iff_right rfl).symm

end

/-! ## Acknowledgement -/

/-- The store that the proposed entry meets, in the first round if that applies it, else in the
second. -/
def meets (accepts : List UInt8 → Bool) (m : Machine) (data : List UInt8) (out : Outcome) : World :=
  let m1 := m.withRaft (cetcdRaftStep m.raft (proposal data)).2
  let last := m.raft.rlog.lastIndex
  if out.failed = none ∧ last < m1.raft.commit then
    (applyRange accepts (logAt m1.raft.rlog) m1.world m1.raft.applied last).1
  else
    let m2 := (applyReady accepts m1 out).1
    (applyRange accepts (logAt m2.raft.rlog) m2.world m2.raft.applied last).1

/-- The entry is committed at its index, in the log unless compacted, and was applied with success.
-/
structure TookEffect (m : Machine) (data : List UInt8) (m' : Machine) (calls : List Applied) :
    Prop where
  committed : m.raft.rlog.lastIndex + 1 ≤ m'.raft.commit
  kept : m'.raft.rlog.compacted < m.raft.rlog.lastIndex + 1 →
    logAt m'.raft.rlog (m.raft.rlog.lastIndex + 1) =
      some ⟨m.raft.term, m.raft.rlog.lastIndex + 1, .normal, data⟩
  applied : ⟨m.raft.rlog.lastIndex + 1, data, 0⟩ ∈ calls

/-- The applied index is not past the log, the log not compacted past its end, and the entry is
accepted by the store that it meets. -/
def Acceptable (accepts : List UInt8 → Bool) (m : Machine) (data : List UInt8) (out : Outcome) :
    Prop :=
  m.raft.applied ≤ m.raft.rlog.lastIndex ∧ m.raft.rlog.compacted ≤ m.raft.rlog.lastIndex + 1 ∧
    (applyEntry accepts (meets accepts m data out) data).1 = 0
  deriving Decidable

section

variable {accepts : Bytes → Bool} {m : Machine} {data : Bytes} {out out' : Outcome}
  {r : Raft} {w : World} {rc : Int} {l : RaftLog} {m2 : Machine}

lemma calledIn_iff {term i : Nat} (hdata : data ≠ [])
    (hlog : logAt l i = some ⟨term, i, .normal, data⟩) :
    CalledIn accepts (logAt l) w ⟨i, data, rc⟩ ↔ rc = (applyEntry accepts w data).1 := by
  constructor
  · rintro ⟨e, he, _, _, hd, hrc⟩
    dsimp only at hd hrc
    rw [← hd] at hrc
    exact hrc
  · exact fun hrc => ⟨_, hlog, rfl, hdata, rfl, hrc⟩

lemma compacted_le_of_calledIn {i : Nat} (h : CalledIn accepts (logAt l) w ⟨i, data, rc⟩) :
    l.compacted ≤ i := by
  obtain ⟨e, he, _⟩ := h
  exact (logAt_eq_some.1 he).2.2.1

lemma Proposed.entry (h : Proposed m.raft data r)
    (hle : m.raft.rlog.compacted ≤ m.last + 1) :
    logAt r.rlog (m.last + 1) =
      some ⟨m.raft.term, m.last + 1, .normal, data⟩ := by
  rw [h.rlog]
  exact logAt_proposedLog_new hle

lemma Proposed.kept (h : Proposed m.raft data r)
    (hi : r.rlog.compacted < m.last + 1) :
    logAt r.rlog (m.last + 1) =
      some ⟨m.raft.term, m.last + 1, .normal, data⟩ := by
  rw [h.rlog, proposedLog_compacted] at hi
  exact h.entry hi.le

lemma Proposed.lastIndex (h : Proposed m.raft data r) :
    r.rlog.lastIndex = m.last + 1 :=
  (congrArg RaftLog.lastIndex h.rlog).trans proposedLog_lastIndex

section

variable (hprop : Proposed m.raft data r) (heq : r = (cetcdRaftStep m.raft (proposal data)).2)
  (hdata : data ≠ [])

include hprop heq hdata

lemma mem_first_round :
    ⟨m.last + 1, data, rc⟩ ∈ (applyReady accepts (m.withRaft r) out).2 ↔
      (out.failed = none ∧ m.last < r.commit) ∧
        m.raft.applied ≤ m.last ∧
        m.raft.rlog.compacted ≤ m.last + 1 ∧
        rc = (applyEntry accepts (meets accepts m data out) data).1 := by
  have hcomp : r.rlog.compacted = m.raft.rlog.compacted := by
    rw [hprop.rlog, proposedLog_compacted]
  have hmeets : out.failed = none ∧ m.last < r.commit → meets accepts m data out =
        (applyRange accepts (logAt r.rlog) m.world r.applied m.last).1 := by
    intro hfirst
    unfold meets
    dsimp only
    rw [← heq]
    exact if_pos hfirst
  rw [mem_applyReady]
  change out.failed = none ∧ r.applied < _ ∧ _ ≤ r.commit ∧
    CalledIn accepts (logAt r.rlog) (applyRange accepts (logAt r.rlog) m.world r.applied _).1 _ ↔ _
  rw [hprop.applied]
  constructor
  · rintro ⟨hfailed, happlied, hcommit, hcall⟩
    have hle := (compacted_le_of_calledIn hcall).trans_eq' hcomp
    refine ⟨⟨hfailed, hcommit⟩, Nat.lt_succ_iff.1 happlied, hle, ?_⟩
    rw [hmeets ⟨hfailed, hcommit⟩, hprop.applied]
    exact (calledIn_iff hdata (hprop.entry hle)).1 hcall
  rintro ⟨hfirst, happlied, hle, hrc⟩
  refine ⟨hfirst.1, Nat.lt_succ_of_le happlied, hfirst.2, (calledIn_iff hdata (hprop.entry hle)).2 ?_⟩
  rw [hmeets hfirst, hprop.applied] at hrc
  exact hrc

omit heq hdata in
lemma applied_first_round :
    (applyReady accepts (m.withRaft r) out).1.raft.applied ≤ m.last ↔
      m.raft.applied ≤ m.last ∧
        ¬ (out.failed = none ∧ m.last < r.commit) := by
  have hround := rounded_applyReady accepts (m.withRaft r) out
  by_cases hfailed : out.failed = none
  · rw [hround.applied_pos hfailed]
    change max r.applied r.commit ≤ _ ↔ _
    rw [hprop.applied, max_le_iff, and_iff_right hfailed, not_lt]
  rw [hround.applied_neg hfailed]
  change r.applied ≤ _ ↔ _
  rw [hprop.applied]
  exact (and_iff_left fun h => hfailed h.1).symm

lemma mem_second_round {r2 : Raft} (hm2 : (applyReady accepts (m.withRaft r) out).1 = m2)
    (hleave : Proposed m2.raft [9] r2) :
    ⟨m.last + 1, data, rc⟩ ∈ (applyReady accepts (m2.withRaft r2) out').2 ↔
      (out'.failed = none ∧ m.last < r2.commit) ∧
        ¬ (out.failed = none ∧ m.last < r.commit) ∧
        m.raft.applied ≤ m.last ∧
        m.raft.rlog.compacted ≤ m.last + 1 ∧
        rc = (applyEntry accepts (meets accepts m data out) data).1 := by
  have hround := hm2 ▸ rounded_applyReady accepts (m.withRaft r) out
  have hfar := hm2 ▸ @applied_first_round accepts m data out r hprop
  have hlast : m2.raft.rlog.lastIndex = m.last + 1 :=
    hround.lastIndex.trans hprop.lastIndex
  -- as long as the entry is not applied, both rounds read it from the same log
  have hlog : ∀ i, m2.raft.applied < i → logAt m2.raft.rlog i = logAt r.rlog i := by
    intro i hi
    obtain hsame | hle := hround.compacted_le
    · rw [hsame]
      rfl
    · exact hround.logAt i (hle.trans_lt hi)
  have hlog2 : ∀ i, i ≤ m.last + 1 → logAt r2.rlog i = logAt m2.raft.rlog i := by
    intro i hi
    rw [hleave.rlog]
    exact logAt_proposedLog_of_le (hlast.symm ▸ hi)
  have hmeets : ¬ (out.failed = none ∧ m.last < r.commit) →
      m2.raft.applied ≤ m.last →
      meets accepts m data out =
        (applyRange accepts (logAt r2.rlog) m2.world m2.raft.applied m.last).1 := by
    intro hnot hle
    unfold meets
    dsimp only
    rw [← heq, hm2]
    refine (if_neg hnot).trans ?_
    refine congrArg Prod.fst (applyRange_congr hle fun i _ hi => ?_)
    exact (hlog2 i (hi.trans (Nat.le_succ _))).symm
  rw [mem_applyReady]
  change out'.failed = none ∧ r2.applied < _ ∧ _ ≤ r2.commit ∧
    CalledIn accepts (logAt r2.rlog) (applyRange accepts (logAt r2.rlog) m2.world r2.applied _).1 _ ↔ _
  rw [hleave.applied, Nat.lt_succ_iff, hfar]
  have hsame : m2.raft.applied ≤ m.last →
      logAt r2.rlog (m.last + 1) = logAt r.rlog (m.last + 1) :=
    fun hle => (hlog2 _ le_rfl).trans (hlog _ (Nat.lt_succ_of_le hle))
  constructor
  · rintro ⟨hfailed, ⟨happlied, hnot⟩, hcommit, hcall⟩
    have hle2 := hfar.2 ⟨happlied, hnot⟩
    have hle : m.raft.rlog.compacted ≤ m.last + 1 := by
      obtain ⟨e, he, _⟩ := hcall
      have hc := (logAt_eq_some.1 ((hsame hle2).symm.trans he)).2.2.1
      rwa [hprop.rlog, proposedLog_compacted] at hc
    refine ⟨⟨hfailed, hcommit⟩, hnot, happlied, hle, ?_⟩
    rw [hmeets hnot hle2]
    exact (calledIn_iff hdata ((hsame hle2).trans (hprop.entry hle))).1 hcall
  rintro ⟨⟨hfailed, hcommit⟩, hnot, happlied, hle, hrc⟩
  have hle2 := hfar.2 ⟨happlied, hnot⟩
  rw [hmeets hnot hle2] at hrc
  exact ⟨hfailed, ⟨happlied, hnot⟩, hcommit,
    (calledIn_iff hdata ((hsame hle2).trans (hprop.entry hle))).2 hrc⟩

omit hprop heq hdata in
lemma AfterRound.kept {r r' : Raft} {persisted : Prop} {i : Nat} {e : Entry}
    (h : AfterRound r persisted r') (he : r.rlog.compacted < i → Raft.logAt r.rlog i = some e)
    (hi : r'.rlog.compacted < i) : Raft.logAt r'.rlog i = some e :=
  (h.logAt i hi).trans (he (h.compacted.trans_lt hi))

lemma tookEffect_first_round
    (hack : (applyReady accepts (m.withRaft r) out).1.raft.rlog.lastIndex ≤ (applyReady accepts (m.withRaft r) out).1.raft.applied) :
    TookEffect m data (applyReady accepts (m.withRaft r) out).1
      (applyReady accepts (m.withRaft r) out).2 ↔ Acceptable accepts m data out := by
  have hround := rounded_applyReady accepts (m.withRaft r) out
  have hlast : m.last < (applyReady accepts (m.withRaft r) out).1.raft.applied := by
    rw [hround.lastIndex] at hack
    exact (Nat.lt_succ_self _).trans_le (hprop.lastIndex.symm.trans_le hack)
  constructor
  · intro h
    obtain ⟨_, happlied, hcomp, hrc⟩ := (mem_first_round hprop heq hdata).1 h.applied
    exact ⟨happlied, hcomp, hrc.symm⟩
  rintro ⟨happlied, hcomp, hrc⟩
  have hfirst : out.failed = none ∧ m.last < r.commit := by
    by_contra hnot
    exact absurd ((applied_first_round hprop).2 ⟨happlied, hnot⟩) (not_le.2 hlast)
  exact ⟨hfirst.2.trans_eq hround.commit.symm, hround.kept fun hi => hprop.kept hi,
    (mem_first_round hprop heq hdata).2 ⟨hfirst, happlied, hcomp, hrc.symm⟩⟩

lemma tookEffect_second_round {r2 : Raft} (hm2 : (applyReady accepts (m.withRaft r) out).1 = m2)
    (hleave : Proposed m2.raft [9] r2)
    (hack : (applyReady accepts (m2.withRaft r2) out').1.raft.rlog.lastIndex ≤ (applyReady accepts (m2.withRaft r2) out').1.raft.applied) :
    TookEffect m data (applyReady accepts (m2.withRaft r2) out').1
        ((applyReady accepts (m.withRaft r) out).2 ++
          (applyReady accepts (m2.withRaft r2) out').2) ↔
      Acceptable accepts m data out := by
  have hround := hm2 ▸ rounded_applyReady accepts (m.withRaft r) out
  have hround2 := rounded_applyReady accepts (m2.withRaft r2) out'
  have hlast : m2.raft.rlog.lastIndex = m.last + 1 :=
    hround.lastIndex.trans hprop.lastIndex
  have hkept : (applyReady accepts (m2.withRaft r2) out').1.raft.rlog.compacted <
      m.last + 1 →
      logAt (applyReady accepts (m2.withRaft r2) out').1.raft.rlog (m.last + 1) =
        some ⟨m.raft.term, m.last + 1, .normal, data⟩ := by
    refine hround2.kept fun hi => ?_
    change r2.rlog.compacted < _ at hi
    change logAt r2.rlog _ = _
    rw [hleave.rlog] at hi ⊢
    rw [proposedLog_compacted] at hi
    rw [logAt_proposedLog_of_le hlast.ge]
    exact hround.kept (fun hi => hprop.kept hi) hi
  have hcommit : m.last < r.commit →
      m.last + 1 ≤ (applyReady accepts (m2.withRaft r2) out').1.raft.commit := by
    intro hlt
    rw [hround2.commit]
    exact (hlt.trans_eq hround.commit.symm).trans_le hleave.commit
  constructor
  · intro h
    obtain hcall | hcall := mem_append.1 h.applied
    · obtain ⟨_, happlied, hcomp, hrc⟩ := (mem_first_round hprop heq hdata).1 hcall
      exact ⟨happlied, hcomp, hrc.symm⟩
    obtain ⟨_, _, happlied, hcomp, hrc⟩ := (mem_second_round hprop heq hdata hm2 hleave).1 hcall
    exact ⟨happlied, hcomp, hrc.symm⟩
  rintro ⟨happlied, hcomp, hrc⟩
  by_cases hfirst : out.failed = none ∧ m.last < r.commit
  · exact ⟨hcommit hfirst.2, hkept, mem_append_left _
      ((mem_first_round hprop heq hdata).2 ⟨hfirst, happlied, hcomp, hrc.symm⟩)⟩
  -- the second round answered, so it was on disk and applied up to its own entry
  have hle : m2.raft.applied ≤ m.last :=
    hm2 ▸ (applied_first_round hprop).2 ⟨happlied, hfirst⟩
  have hack' : m.last + 1 <
      (applyReady accepts (m2.withRaft r2) out').1.raft.applied := by
    rw [hround2.lastIndex] at hack
    refine hlast.symm.trans_lt ((Nat.lt_succ_self _).trans_le ?_)
    exact hleave.lastIndex.symm.trans_le hack
  have hfailed : out'.failed = none := by
    by_contra hnot
    rw [hround2.applied_neg hnot] at hack'
    change _ < r2.applied at hack'
    rw [hleave.applied] at hack'
    omega
  have hr2 : m.last + 1 < r2.commit := by
    rw [hround2.applied_pos hfailed] at hack'
    change _ < max r2.applied r2.commit at hack'
    rw [hleave.applied] at hack'
    omega
  refine ⟨hr2.le.trans_eq hround2.commit.symm, hkept, mem_append_right _ ?_⟩
  exact (mem_second_round hprop heq hdata hm2 hleave).2
    ⟨⟨hfailed, (Nat.lt_succ_self _).trans hr2⟩, hfirst, happlied, hcomp, hrc.symm⟩

end

lemma propose_tookEffect_iff (hdata : data ≠ [])
    (hack : 0 ≤ (proposeAfterChecks accepts m data out out').1) :
    TookEffect m data (proposeAfterChecks accepts m data out out').2.1
        (proposeAfterChecks accepts m data out out').2.2 ↔
      Acceptable accepts m data out := by
  have hnat : ∀ a b : Nat, (0 : Int) ≤ (if a < b then -1 else 0) → b ≤ a := by
    intro a b h
    split at h <;> omega
  unfold proposeAfterChecks at hack ⊢
  by_cases hrole : m.raft.role ≠ .leader
  · rw [if_pos hrole] at hack
    exact absurd hack (show ¬ (0 : Int) ≤ -1 by decide)
  rw [if_neg hrole] at hack ⊢
  obtain ⟨hrc, hprop⟩ := cetcdRaftStep_proposal (not_not.1 hrole) data
  generalize heq : (cetcdRaftStep m.raft (proposal data)).2 = r at hprop
  dsimp only at hack ⊢
  rw [if_neg (not_not.2 hrc), heq] at hack ⊢
  cases hjoint : maybeProposeLeaveJoint (applyReady accepts (m.withRaft r) out).1.raft with
  | none =>
    rw [processReadyFull_none hjoint] at hack ⊢
    exact tookEffect_first_round hprop heq.symm hdata (hnat _ _ hack)
  | some r2 =>
    rw [processReadyFull_some hjoint] at hack ⊢
    exact tookEffect_second_round hprop heq.symm hdata rfl (maybeProposeLeaveJoint_eq_some hjoint)
      (hnat _ _ hack)

lemma proposeOrApply_acknowledged {overQuota : Bool} {nodeId : Nat}
    (hack : 0 ≤ (proposeOrApply accepts overQuota nodeId m data out out').1) :
    data ≠ [] ∧
      proposeOrApply accepts overQuota nodeId m data out out' =
        proposeAfterChecks accepts m data out out' := by
  cases data with
  | nil => exact absurd hack (show ¬ (0 : Int) ≤ -1 by decide)
  | cons op rest =>
    unfold proposeOrApply at hack ⊢
    dsimp only at hack ⊢
    by_cases hquota : op = 1 ∧ overQuota
    · rw [if_pos hquota] at hack
      exact absurd hack (show ¬ (0 : Int) ≤ -1 by decide)
    rw [if_neg hquota]
    exact ⟨cons_ne_nil op rest, rfl⟩

/-- A proposal that is answered with success took effect exactly if it was acceptable. -/
theorem acknowledged_iff (overQuota : Bool) (nodeId : Nat)
    (hack : 0 ≤ (proposeOrApply accepts overQuota nodeId m data out out').1) :
    TookEffect m data (proposeOrApply accepts overQuota nodeId m data out out').2.1
        (proposeOrApply accepts overQuota nodeId m data out out').2.2 ↔
      Acceptable accepts m data out := by
  obtain ⟨hdata, heq⟩ := proposeOrApply_acknowledged hack
  rw [heq] at hack ⊢
  exact propose_tookEffect_iff hdata hack

end

/-- A single voter that leads, with an empty store and the outcomes of its next transactions. -/
def soleLeader (outcomes : List Bool) : Machine :=
  ⟨Lib.finish State.next (start ⟨0, false, 0⟩ []) [act (.step { type := .hup }) none false],
    { store := Store.new, leases := .empty, disk := { be := Backend.empty, outcomes := outcomes } }⟩

/-- A round that is written, after which the peer table stays as it is. -/
def onDisk (m : Machine) : Outcome := { table := Table.of m.raft }

/-- What a node that accepts every operation answers to the operation that puts `b` under `a`. -/
def putAnswer (m : Machine) : Int × Machine × List Applied :=
  proposeOrApply (fun _ => true) false 1 m [1, 1, 97, 1, 98] (onDisk m) (onDisk m)

theorem acknowledged_put : (putAnswer (soleLeader [])).1 = 0 ∧
      TookEffect (soleLeader []) [1, 1, 97, 1, 98] (putAnswer (soleLeader [])).2.1
        (putAnswer (soleLeader [])).2.2 :=
  ⟨by decide +kernel, (acknowledged_iff false 1 (by decide +kernel)).2 (by decide +kernel)⟩

/-- The transaction of the put fails: the put is acknowledged and the store stays empty. -/
theorem failed_put_acknowledged : (putAnswer (soleLeader [false])).1 = 0 ∧
      (putAnswer (soleLeader [false])).2.2 = [⟨1, [1, 1, 97, 1, 98], -1⟩] ∧
      (putAnswer (soleLeader [false])).2.1.world.store.index = .empty ∧
      ¬ TookEffect (soleLeader [false]) [1, 1, 97, 1, 98] (putAnswer (soleLeader [false])).2.1
        (putAnswer (soleLeader [false])).2.2 := by
  have hcalls : (putAnswer (soleLeader [false])).2.2 = [⟨1, [1, 1, 97, 1, 98], -1⟩] := by
    decide +kernel
  refine ⟨by decide +kernel, hcalls, by decide +kernel, fun h => ?_⟩
  have happlied := h.applied
  rw [hcalls] at happlied
  exact absurd (congrArg Applied.rc (mem_singleton.1 happlied)) (by decide)

end Cetcd.Server
