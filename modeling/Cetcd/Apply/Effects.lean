import Cetcd.Apply.Entry
import Cetcd.Mvcc.History

/-!
# What an operation does

Whether an operation is accepted, and whether it leaves the store or the leases as they are, said of
the state that it meets and of the coming write of the backend. A store that was changed is never
the same again: its revision or its compacted revision has grown.
-/

namespace Cetcd.Mvcc

open Lib Option

/-! ## Calls of the store -/

/-- The next write succeeds. -/
def Disk.takes (d : Disk) : Bool := d.outcomes.head? ≠ some false

lemma Disk.write_eq (d : Disk) (f : Backend → Backend) : d.write f =
    if d.takes then (true, ⟨f d.be, d.outcomes.tail⟩) else (false, ⟨d.be, d.outcomes.tail⟩) := by
  obtain ⟨be, outcomes⟩ := d
  rcases outcomes with _ | ⟨_ | _, rest⟩ <;> rfl

/-- The call has something to write. -/
def Call.Finds (s : Store) : Call → Prop
  | .put _ _ _ => True
  | .delete key => s.index.find key ≠ none
  | .deleteKeys keys => liveKeys s keys ≠ []
  | .advance rev => s.mainRev < rev
  | .compact rev => 0 < rev ∧ rev ≤ s.mainRev ∧ s.compactedRev < rev

/-- What grows with every change. -/
def Store.age (s : Store) : Nat := s.mainRev + s.compactedRev

section

variable {s s' : Store} {f : Backend → Backend} {c : Call} {x : Durable}

lemma Call.effect_eq_none_iff : c.effect s = none ↔ ¬ c.Finds s := by
  cases c <;> simp [Call.effect, Call.Finds]

lemma Call.age_lt_effect (h : c.effect s = some (s', f)) : s.age < s'.age := by
  have hpush : ∀ es, es ≠ [] → (∀ e ∈ es, e.rev.main = s.mainRev + 1) → s.age < (s.pushAll es).age := by
    intro es hne hmain
    rw [Store.age, Store.age, pushAll_mainRev (Nat.le_succ _) hne hmain, (push_history s es).2]
    omega
  cases c with
  | put key value leaseId =>
    cases h
    exact hpush [_] (List.cons_ne_nil _ _) (by simp [putEntry])
  | delete key =>
    obtain ⟨kg, _, heq⟩ := map_eq_some_iff.1 h
    cases heq
    exact hpush [_] (List.cons_ne_nil _ _) (by simp [deleteEntry])
  | deleteKeys keys =>
    unfold Call.effect at h
    dsimp only at h
    split at h
    · cases h
    next hlive =>
    cases h
    exact hpush _ (deleteEntries_ne_nil hlive fun k hk => (mem_liveKeys.1 hk).2.2)
      fun e he => (mem_deleteEntries he).1
  | advance rev =>
    unfold Call.effect at h
    dsimp only at h
    split at h
    · next hlt =>
      cases h
      exact Nat.add_lt_add_right hlt _
    · cases h
  | compact rev =>
    obtain ⟨_, _, hlt, rfl⟩ := Call.effect_compact h
    exact Nat.add_lt_add_left hlt _

lemma Call.run_quiet (h : ¬ c.Finds x.store ∨ x.disk.takes = false) :
    (c.run x).store = x.store ∧ (c.run x).disk.be = x.disk.be := by
  rw [Call.run_eq]
  cases heffect : c.effect x.store with
  | none => exact ⟨rfl, rfl⟩
  | some p =>
    have hfinds : c.Finds x.store := by
      by_contra hno
      rw [← Call.effect_eq_none_iff, heffect] at hno
      cases hno
    simp only [elim_some, Durable.commit, Disk.write_eq, h.resolve_left (not_not.2 hfinds)]
    exact ⟨rfl, rfl⟩

lemma Call.run_grows (hfinds : c.Finds x.store) (htakes : x.disk.takes) :
    x.store.age < (c.run x).store.age := by
  rw [Call.run_eq]
  cases heffect : c.effect x.store with
  | none => exact absurd hfinds (Call.effect_eq_none_iff.1 heffect)
  | some p =>
    simp only [elim_some, Durable.commit, Disk.write_eq, htakes, if_true]
    exact Call.age_lt_effect heffect

end

/-- The age does not fall from `s` to `s'`; if it stays then `quiet`, and then the store stays. -/
structure Settles (quiet : Prop) (s s' : Store) : Prop where
  le : s.age ≤ s'.age
  rests : s'.age = s.age → quiet
  same : quiet → s' = s

section

variable {s s' s'' : Store} {a b : Prop}

lemma Settles.refl (ha : a) (s : Store) : Settles a s s := ⟨le_rfl, fun _ => ha, fun _ => rfl⟩

lemma Settles.iff (h : Settles a s s') : s' = s ↔ a :=
  ⟨fun heq => h.rests (congrArg Store.age heq), h.same⟩

lemma Settles.trans (h : Settles a s s') (h' : Settles b s' s'') : Settles (a ∧ b) s s'' where
  le := h.le.trans h'.le
  rests heq := by
    have hle := h.le
    have hle' := h'.le
    exact ⟨h.rests (by omega), h'.rests (by omega)⟩
  same hab := (h'.same hab.2).trans (h.same hab.1)

lemma Settles.congr (h : Settles a s s') (hab : a ↔ b) : Settles b s s' :=
  ⟨h.le, fun heq => hab.1 (h.rests heq), fun hb => h.same (hab.2 hb)⟩

lemma Call.settles (c : Call) (x : Durable) :
    Settles (¬ c.Finds x.store ∨ x.disk.takes = false) x.store (c.run x).store := by
  by_cases hquiet : ¬ c.Finds x.store ∨ x.disk.takes = false
  · rw [(Call.run_quiet hquiet).1]
    exact .refl hquiet _
  · have hgrows : x.store.age < (c.run x).store.age := by
      simp only [not_or, not_not, Bool.not_eq_false] at hquiet
      exact Call.run_grows hquiet.1 hquiet.2
    exact ⟨hgrows.le, fun heq => absurd heq hgrows.ne', fun h => absurd h hquiet⟩

end

end Cetcd.Mvcc

namespace Cetcd.Apply

open Lib Mvcc Lease

/-! ## Operations -/

/-- The call of the store that an operation makes. -/
def storeCall (w : World) : Op → Option Call
  | .put key value leaseId => if key = [] then none else some (.put key value leaseId)
  | .delete key => if key = [] then none else some (.delete key)
  | .deleteRange key rangeEnd =>
    if key = [] then none
    else if rangeEnd = [] then some (.delete key)
    else some (.deleteKeys ((mvccRange w.store key rangeEnd).map Prod.fst))
  | .leaseRevoke id => some (.deleteKeys (leaseKeys w.leases id))
  | .compact rev => some (.compact rev)
  | _ => none

/-- The operation calls for nothing, finds nothing to write, or its write fails. -/
def KeepsStore (w : World) (op : Op) : Prop :=
  ∀ c, storeCall w op = some c → ¬ c.Finds w.store ∨ w.disk.takes = false

/-- The operation returns zero. -/
def Succeeds (w : World) : Op → Prop
  | .put key _ _ => key ≠ [] ∧ w.disk.takes = true
  | .delete key => key ≠ []
  | .deleteRange key _ => key ≠ []
  | .leaseRevoke _ => True
  | .leaseGrant id ttl =>
    leaseExists w.leases id = true ∨
      (id ≠ 0 ∧ 0 < ttl ∧ ttl ≤ maxLeaseTtl) ∧ w.disk.takes = true
  | .leaseKeepalive id _ => leaseExists w.leases id = true → w.disk.takes = true
  | .compact rev =>
    0 < rev ∧ rev ≤ w.store.mainRev ∧ (rev ≤ w.store.compactedRev ∨ w.disk.takes = true)
  | .other accepted => accepted = true
  | .bad => False

section

variable {w : World} {op : Op}

lemma exec_storeCall : (exec w op).2.store =
    (storeCall w op).elim w.store fun c => (c.run ⟨w.store, w.disk⟩).store := by
  cases op with
  | put key value leaseId =>
    simp only [exec, applyPut, storeCall]
    split
    · rfl
    · split <;> rfl
  | delete key =>
    simp only [exec, applyDeleteOne, storeCall]
    split <;> rfl
  | deleteRange key rangeEnd =>
    simp only [exec, applyDeleteRange, storeCall]
    split
    · rfl
    next hkey =>
    split
    · rw [applyDeleteOne, if_neg hkey]
      rfl
    · split
      · next hrows => simp [hrows, Call.run, mvccDeleteKeys]
      · rfl
  | leaseGrant id ttl =>
    simp only [exec, applyLeaseGrant, storeCall]
    split <;> rfl
  | leaseKeepalive id ttl =>
    simp only [exec, applyLeaseKeepalive, storeCall]
    split <;> rfl
  | leaseRevoke id | compact rev | other accepted | bad => rfl

lemma exec_settles (w : World) (op : Op) :
    Settles (KeepsStore w op) w.store (exec w op).2.store := by
  rw [exec_storeCall]
  cases hc : storeCall w op with
  | none => exact .refl (fun c h => by rw [hc] at h; cases h) _
  | some c =>
    refine (Call.settles c ⟨w.store, w.disk⟩).congr ⟨fun h c' hc' => ?_, fun h => h c hc⟩
    rw [hc] at hc'
    cases hc'
    exact h

lemma mvccPut_main (s : Store) (d : Disk) (key : Key) (value : List UInt8) (leaseId : Int) :
    (mvccPut s d key value leaseId).1.main = 0 ↔ d.takes = false := by
  unfold mvccPut
  simp only [Disk.write_eq]
  cases d.takes <;> simp [Revision.zero]

/-- An operation is accepted exactly in these cases. -/
lemma exec_succeeds_iff : (exec w op).1 = 0 ↔ Succeeds w op := by
  cases op with
  | put key value leaseId =>
    simp only [exec, applyPut, Succeeds]
    split
    · next hkey => simp [hkey]
    next hkey =>
    split
    · next hmain => simp [hkey, (mvccPut_main ..).1 hmain]
    · next hmain =>
      rw [mvccPut_main] at hmain
      simpa [hkey] using hmain
  | delete key =>
    simp only [exec, applyDeleteOne, Succeeds]
    split <;> simp_all
  | deleteRange key rangeEnd =>
    simp only [exec, applyDeleteRange, Succeeds]
    split
    · next hkey => simp [hkey]
    next hkey =>
    split
    · simp [applyDeleteOne, hkey]
    · split <;> simp [hkey]
  | leaseRevoke id => exact iff_of_true rfl trivial
  | leaseGrant id ttl =>
    simp only [exec, applyLeaseGrant, Succeeds]
    split
    · next hexists => simp [hexists]
    next hexists =>
    simp only [leaseGrantId, Disk.write_eq]
    cases htakes : w.disk.takes
    all_goals split_ifs with hbad <;> simp_all <;> grind
  | leaseKeepalive id ttl =>
    simp only [exec, applyLeaseKeepalive, Succeeds]
    split
    · next hexists =>
      simp only [leaseKeepAlive, Disk.write_eq]
      cases w.disk.takes <;> simp [hexists]
    · next hexists => simp [hexists]
  | compact rev =>
    simp only [exec, applyCompact, Succeeds, mvccCompact, Disk.write_eq]
    by_cases hrev : 0 < rev ∧ rev ≤ w.store.mainRev
    · have hzero : rev ≠ 0 := by omega
      have hmain : ¬ w.store.mainRev < rev := by omega
      by_cases hdone : rev ≤ w.store.compactedRev
      · have hrange : 0 < w.store.compactedRev ∧ rev ≤ w.store.compactedRev := ⟨by omega, hdone⟩
        simp [hrev, hzero, hmain, hrange]
      · cases w.disk.takes <;> simp [hrev, hzero, hmain, hdone]
    · refine iff_of_false ?_ fun h => hrev ⟨h.1, h.2.1⟩
      by_cases hzero : rev = 0
      · simp [hzero]
      · have hmain : w.store.mainRev < rev := by omega
        simp [hzero, hmain]
  | other accepted => cases accepted <;> simp [exec, Succeeds]
  | bad => simp [exec, Succeeds]

end

/-- The operations of an entry leave the store as it is, up to the first that fails. -/
def OpsRest (w : World) : List Op → Prop
  | [] => True
  | op :: ops => KeepsStore w op ∧ (Succeeds w op → OpsRest (exec w op).2 ops)

lemma runOps_settles (w : World) (ops : List Op) :
    Settles (OpsRest w ops) w.store (runOps w ops).2.store := by
  induction ops generalizing w with
  | nil => exact .refl trivial _
  | cons op ops ih =>
    have hfirst := exec_settles w op
    unfold runOps OpsRest
    rw [← exec_succeeds_iff]
    dsimp only
    split
    · next hrc => exact (hfirst.trans (ih _)).congr (by simp [hrc])
    · next hrc => exact hfirst.congr (by simp [hrc])

end Cetcd.Apply
