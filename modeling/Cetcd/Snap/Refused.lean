import Cetcd.Apply.Effects
import Cetcd.Snap.Transfer

/-!
# Snapshots that are refused

`peer_apply_encoded_` imports the rows of a SNAP message before the node has looked at it. A store
at revision zero takes them even if the node refuses the snapshot. Behind it the entries are applied
that were waiting.
-/

namespace Cetcd.Snap

open Lib Mvcc Raft Apply Server List

/-- The message is of an earlier term, or the node answers that it has not installed it. -/
def Refuses (r : Raft) (msg : Msg) : Prop :=
  msg.term < r.term ∨ ∃ a, (cetcdRaftStep r msg).2.pending.msgs = r.pending.msgs ++ [a] ∧
    a.type = .snapStatus ∧ a.reject = 1

/-! ## The rows -/

/-- The import begins, and the rows are these. -/
def Imports (w : World) (msg : Msg) (rows : Option (List SnapEntry)) : Prop :=
  msg.context ≠ [] ∧ w.store.mainRev = 0 ∧ decodeKv msg.context = rows

/-- The import writes at least one row. -/
def BringsRow (w : World) (msg : Msg) : Prop :=
  ∃ e es, Imports w msg (some (e :: es)) ∧ e.key ≠ [] ∧ w.disk.takes = true

/-- The import fails at once. -/
def ImportFails (w : World) (msg : Msg) : Prop :=
  Imports w msg none ∨
    ∃ e es, Imports w msg (some (e :: es)) ∧ (e.key = [] ∨ w.disk.takes = false)

section

variable {w : World} {msg : Msg}

lemma mvccPut_fst_eq_zero_iff {s : Store} {d : Disk} {key : Key} {value : Bytes} {leaseId : Int} :
    (mvccPut s d key value leaseId).1 = .zero ↔ d.takes = false := by
  rw [← mvccPut_main s d key value leaseId]
  unfold mvccPut
  simp only [Disk.write_eq]
  cases d.takes <;> simp [Revision.zero]

lemma age_le_importEntries (es : List SnapEntry) (x : Durable) :
    x.store.age ≤ (importEntries es x).2.store.age := by
  induction es generalizing x with
  | nil => exact le_rfl
  | cons e es ih =>
    have hput := (Call.settles (.put e.key e.value 0) x).le
    unfold importEntries
    split
    · exact le_rfl
    dsimp only
    split
    · exact hput
    · exact hput.trans (ih ⟨_, _⟩)

lemma BringsRow.age_lt (htype : msg.type = .snap) (h : BringsRow w msg) :
    w.store.age < (applySnapContext w msg).2.store.age := by
  obtain ⟨e, es, ⟨hcontext, hzero, hdecode⟩, hkey, htakes⟩ := h
  have hput := Call.run_grows (c := .put e.key e.value 0) (x := ⟨w.store, w.disk⟩) trivial htakes
  unfold applySnapContext
  rw [if_neg (not_not.2 htype), if_neg hcontext, if_neg (not_not.2 hzero), hdecode]
  dsimp only
  rw [importEntries, if_neg hkey]
  dsimp only
  rw [if_neg (by rw [mvccPut_fst_eq_zero_iff, htakes]; exact Bool.false_ne_true.symm)]
  exact hput.trans_le (age_le_importEntries es _)

lemma applySnapContext_of_not (htype : msg.type = .snap) (h : ¬ BringsRow w msg) :
    (applySnapContext w msg).2.store = w.store ∧
      ((applySnapContext w msg).1 = false ↔ ImportFails w msg) ∧
      ((applySnapContext w msg).1 = true → (applySnapContext w msg).2 = w) := by
  by_cases himport : msg.context ≠ [] ∧ w.store.mainRev = 0
  · unfold applySnapContext
    rw [if_neg (not_not.2 htype), if_neg himport.1, if_neg (not_not.2 himport.2)]
    cases hdecode : decodeKv msg.context with
    | none =>
      exact ⟨rfl, iff_of_true rfl (.inl ⟨himport.1, himport.2, hdecode⟩), fun h => by cases h⟩
    | some es =>
      cases es with
      | nil =>
        refine ⟨rfl, iff_of_false Bool.false_ne_true.symm ?_, fun _ => rfl⟩
        rintro (h | ⟨e, es, h, _⟩)
        all_goals
          have heq := hdecode.symm.trans h.2.2
          cases heq
      | cons e es =>
        -- the first row is refused
        have hfirst : e.key = [] ∨ w.disk.takes = false := by
          by_contra hgood
          rw [not_or, Bool.not_eq_false] at hgood
          exact h ⟨e, es, ⟨himport.1, himport.2, hdecode⟩, hgood.1, hgood.2⟩
        have hfails : ImportFails w msg := .inr ⟨e, es, ⟨himport.1, himport.2, hdecode⟩, hfirst⟩
        dsimp only
        rw [importEntries]
        split
        · exact ⟨rfl, iff_of_true rfl hfails, fun h => by cases h⟩
        next hkey =>
        have htakes := hfirst.resolve_left hkey
        dsimp only
        rw [if_pos (mvccPut_fst_eq_zero_iff.2 htakes)]
        refine ⟨?_, iff_of_true rfl hfails, fun h => by cases h⟩
        exact (Call.run_quiet (c := .put e.key e.value 0) (x := ⟨w.store, w.disk⟩) (.inr htakes)).1
  · have hskip : applySnapContext w msg = (true, w) := by
      unfold applySnapContext
      split_ifs with _ hcontext hzero
      iterate 3 rfl
      exact absurd ⟨hcontext, not_not.1 hzero⟩ himport
    rw [hskip]
    refine ⟨rfl, iff_of_false Bool.false_ne_true.symm ?_, fun _ => rfl⟩
    rintro (h | ⟨e, es, h, _⟩)
    all_goals exact himport ⟨h.1, h.2.1⟩

end

/-! ## The entries -/

/-- The operations of the entries leave the store as it is. -/
def EntriesRest (w : World) : List (List Op) → Prop
  | [] => True
  | ops :: es => OpsRest w ops ∧ EntriesRest (runOps w ops).2 es

/-- The entries that wait to be applied leave the store as it is, or are not applied because the
Ready is not on disk. -/
def Rests (accepts : List UInt8 → Bool) (m : Machine) (out : Outcome) : Prop :=
  out.failed = none →
    EntriesRest m.world (roundOps accepts (logAt m.raft.rlog) m.raft.applied m.raft.commit)

section

variable {accepts : Bytes → Bool} {m : Machine} {out out' : Outcome}

lemma applyAll_settles (w : World) (es : List (List Op)) :
    Settles (EntriesRest w es) w.store (w.applyAll es).store := by
  induction es generalizing w with
  | nil => exact .refl trivial _
  | cons ops es ih => exact (runOps_settles w ops).trans (ih _)

lemma applyReady_settles (accepts : Bytes → Bool) (m : Machine) (out : Outcome) :
    Settles (Rests accepts m out) m.world.store (applyReady accepts m out).1.world.store := by
  unfold applyReady Rests
  cases out.failed with
  | some k => exact .refl (fun h => by cases h) _
  | none =>
    rw [forall_prop_of_true rfl]
    dsimp only
    unfold applyCommitted
    split
    · next hnone =>
      have hrange : roundRange m.raft.applied m.raft.commit = [] := by
        rw [roundRange, Nat.sub_eq_zero_of_le (by omega)]
        rfl
      rw [roundOps, hrange]
      exact .refl trivial _
    · have hall := applyAll_settles m.world
        (roundOps accepts (logAt m.raft.rlog) m.raft.applied m.raft.commit)
      rw [← applyRange_fst] at hall
      exact hall

/-- The second round is that in which a leader proposes to leave a joint configuration. -/
def LeaveRests (accepts : Bytes → Bool) (m : Machine) (out' : Outcome) : Prop :=
  ∀ r, maybeProposeLeaveJoint m.raft = some r → Rests accepts (m.withRaft r) out'

lemma processReadyFull_settles (accepts : Bytes → Bool) (m : Machine) (out out' : Outcome) :
    Settles (Rests accepts m out ∧ LeaveRests accepts (applyReady accepts m out).1 out')
      m.world.store (processReadyFull accepts m out out').1.world.store := by
  have hfirst := applyReady_settles accepts m out
  unfold processReadyFull
  dsimp only
  cases hleave : maybeProposeLeaveJoint (applyReady accepts m out).1.raft with
  | none =>
    refine hfirst.congr (and_iff_left fun r hr => ?_).symm
    rw [hleave] at hr
    cases hr
  | some r =>
    refine (hfirst.trans (applyReady_settles accepts
      ((applyReady accepts m out).1.withRaft r) out')).congr (and_congr_right fun _ => ?_)
    refine ⟨fun h r' hr' => ?_, fun h => h r hleave⟩
    rw [hleave] at hr'
    cases hr'
    exact h

/-- A node that refuses a snapshot leaves its log and its indexes as they are. -/
lemma Refuses.same {r : Raft} {msg : Msg} (htype : msg.type = .snap) (h : Refuses r msg) :
    (cetcdRaftStep r msg).2.rlog = r.rlog ∧ (cetcdRaftStep r msg).2.applied = r.applied ∧
      (cetcdRaftStep r msg).2.commit = r.commit := by
  have hdown : (stepDown r msg.term msg.sender).rlog = r.rlog ∧
      (stepDown r msg.term msg.sender).applied = r.applied ∧
      (stepDown r msg.term msg.sender).commit = r.commit ∧
      (stepDown r msg.term msg.sender).pending.msgs = r.pending.msgs := by
    unfold stepDown becomeFollower
    split_ifs <;> exact ⟨rfl, rfl, rfl, rfl⟩
  unfold Refuses at h
  unfold cetcdRaftStep at h ⊢
  rw [htype] at h ⊢
  dsimp only at h ⊢
  unfold handleSnap at h ⊢
  split
  · exact ⟨rfl, rfl, rfl⟩
  next hterm =>
  obtain ⟨a, hmsgs, _, hreject⟩ := h.resolve_left hterm
  rw [if_neg hterm] at hmsgs
  dsimp only at hmsgs ⊢
  generalize stepDown r msg.term msg.sender = r1 at hdown hmsgs ⊢
  obtain ⟨hlog, happlied, hcommit, hpending⟩ := hdown
  split
  · exact ⟨hlog, happlied, hcommit⟩
  next hindex =>
  rw [if_neg hindex] at hmsgs
  have hfollow : ∀ r2, r2 = (if r1.role ≠ .follower then becomeFollower r1 r1.term msg.sender
      else r1) → r2.rlog = r1.rlog ∧ r2.applied = r1.applied ∧ r2.commit = r1.commit ∧
        r2.pending.msgs = r1.pending.msgs := by
    rintro r2 rfl
    unfold becomeFollower
    split_ifs <;> exact ⟨rfl, rfl, rfl, rfl⟩
  obtain ⟨hlog2, happlied2, hcommit2, hpending2⟩ := hfollow _ rfl
  generalize (if r1.role ≠ .follower then becomeFollower r1 r1.term msg.sender else r1) = r2
    at hmsgs hlog2 happlied2 hcommit2 hpending2 ⊢
  split
  · exact ⟨hlog2.trans hlog, happlied2.trans happlied, hcommit2.trans hcommit⟩
  next l hinstalled =>
  -- an installed snapshot is answered without a rejection
  rw [hinstalled] at hmsgs
  have hcover : ∀ r3 : Raft, (coverSnapshot r3 msg.snapshot).pending.msgs = r3.pending.msgs := by
    intro r3
    unfold coverSnapshot
    dsimp only
    split_ifs <;> rfl
  simp only [queueMsg, hcover, hpending2, hpending] at hmsgs
  have hlast := append_cancel_left hmsgs
  rw [← (cons.inj hlast).1] at hreject
  cases hreject

end

/-- After a SNAP message that the node refuses the store is the same exactly if the import writes no
row, and it fails or the entries that were waiting leave the store as it is. -/
theorem store_after_refused_iff (accepts : List UInt8 → Bool) (m : Machine) (msg : Msg)
    (out out' : Outcome) (htype : msg.type = .snap) (hrefuses : Refuses m.raft msg) :
    (peerApplyEncoded accepts m msg out out').2.1.world.store = m.world.store ↔
      ¬ BringsRow m.world msg ∧ (ImportFails m.world msg ∨
        (Rests accepts m out ∧ LeaveRests accepts
          (applyReady accepts (m.withRaft (cetcdRaftStep m.raft msg).2) out).1 out')) := by
  unfold peerApplyEncoded
  by_cases hrow : BringsRow m.world msg
  · refine iff_of_false (fun hsame => ?_) fun h => h.1 hrow
    have hgrown := hrow.age_lt htype
    rcases hctx : applySnapContext m.world msg with ⟨_ | _, w⟩
    all_goals
      rw [hctx] at hsame hgrown
      dsimp only at hsame hgrown
    · rw [hsame] at hgrown
      exact hgrown.ne rfl
    · have hle := (processReadyFull_settles accepts
        (({ m with world := w } : Machine).withRaft (cetcdRaftStep m.raft msg).2) out out').le
      rw [hsame] at hle
      exact absurd hle (not_le.2 hgrown)
  · obtain ⟨hstore, hfails, hworld⟩ := applySnapContext_of_not htype hrow
    rcases hctx : applySnapContext m.world msg with ⟨_ | _, w⟩
    all_goals
      rw [hctx] at hstore hfails hworld
      dsimp only at hstore hfails hworld
    · exact iff_of_true hstore ⟨hrow, .inl (hfails.1 rfl)⟩
    · obtain rfl := hworld rfl
      have hnot : ¬ ImportFails m.world msg := fun h => Bool.false_ne_true (hfails.2 h).symm
      rw [and_iff_right hrow, or_iff_right hnot]
      obtain ⟨hlog, happlied, hcommit⟩ := hrefuses.same htype
      -- what waits is the same before and after the message
      have hrests : Rests accepts (m.withRaft (cetcdRaftStep m.raft msg).2) out ↔
          Rests accepts m out := by
        unfold Rests
        change (_ → EntriesRest m.world (roundOps accepts (logAt (cetcdRaftStep m.raft msg).2.rlog)
          (cetcdRaftStep m.raft msg).2.applied (cetcdRaftStep m.raft msg).2.commit)) ↔ _
        rw [hlog, happlied, hcommit]
      rw [← hrests]
      exact (processReadyFull_settles accepts _ out out').iff

/-- A message without an index for a store with a row: the import is skipped, and nothing waits. -/
theorem store_after_refused_skipped :
    let w := (exec World.fresh (.put [97] [98] 0)).2
    let msg : Msg := { snapOf 0 with context := encodeKv [⟨[99], [98]⟩] }
    w.store.mainRev = 1 ∧
      (peerApplyEncoded (fun _ => true) (newcomer w) msg (onDisk (newcomer w))
        (onDisk (newcomer w))).2.1.world.store = w.store := by
  refine ⟨by decide +kernel, (store_after_refused_iff _ _ _ _ _ rfl
    (.inr ⟨_, rfl, by decide +kernel, by decide +kernel⟩)).2 ⟨?_, .inr ⟨?_, ?_⟩⟩⟩
  · rintro ⟨e, es, ⟨_, hzero, _⟩, _⟩
    exact absurd hzero (by decide +kernel)
  · exact fun _ => trivial
  · intro r hr
    exact absurd (Option.isSome_iff_exists.2 ⟨r, hr⟩) (by decide +kernel)

/-- A SNAP message without an index: the node refuses it, and the store has the row it brings. -/
theorem refused_snapshot_imported :
    let msg : Msg := { snapOf 0 with context := encodeKv [⟨[97], [98]⟩] }
    Refuses (newcomer World.fresh).raft msg ∧
      (peerApplyEncoded (fun _ => true) (newcomer World.fresh) msg (onDisk (newcomer World.fresh))
        (onDisk (newcomer World.fresh))).2.1.world.store ≠ (newcomer World.fresh).world.store := by
  refine ⟨.inr ⟨_, rfl, by decide +kernel, by decide +kernel⟩, by decide +kernel⟩

end Cetcd.Snap
