import Cetcd.Apply.Abstract

/-!
# Applying entries again

Operations without puts find nothing to do a second time. So a crash inside a list of entries does
no harm if no put was done before it and every entry ends where it ended the first time.
-/

namespace Cetcd.Apply

open Lib Mvcc Lease List

/-! ## Lists of operations without puts -/

section

variable {a b : Abs} {ops : List Op} {id : Nat}

lemma execAll_cons (a : Abs) (op : Op) (ops : List Op) :
    a.execAll (op :: ops) = (a.exec op).execAll ops := rfl

lemma execAll_append (a : Abs) (ops ops' : List Op) :
    a.execAll (ops ++ ops') = (a.execAll ops).execAll ops' := foldl_append

section

variable (ha : Agree a) (hops : ∀ op ∈ ops, NotPut op)

include ha hops

lemma agree_execAll : Agree (a.execAll ops) := by
  induction ops generalizing a with
  | nil => exact ha
  | cons op ops ih =>
    rw [forall_mem_cons] at hops
    exact ih (agree_exec ha hops.1) hops.2

lemma shrinks_execAll : Shrinks a (a.execAll ops) := by
  induction ops generalizing a with
  | nil => exact fun _ _ hk => hk
  | cons op ops ih =>
    rw [forall_mem_cons] at hops
    exact (shrinks_exec ha hops.1).trans (ih (agree_exec ha hops.1) hops.2)

lemma clean_execAll (hb : Shrinks (a.execAll ops) b) :
    ∀ op ∈ ops, ∀ k, Hits b op k → ¬ b.Live k := by
  induction ops generalizing a with
  | nil => exact forall_mem_nil _
  | cons first ops ih =>
    rw [forall_mem_cons] at hops ⊢
    have hafter : Agree (a.exec first) := agree_exec ha hops.1
    refine ⟨fun k hk hlive => ?_, ih hafter hops.2 hb⟩
    have hshrinks : Shrinks (a.exec first) b := (shrinks_execAll hafter hops.2).trans hb
    have hhit : Hits a first k := ((shrinks_exec ha hops.1).trans hshrinks).hits hk
    exact clean_exec ha hops.1 hhit (hshrinks.live hlive)

lemma execAll_index_of_clean (hclean : ∀ op ∈ ops, ∀ k, Hits a op k → ¬ a.Live k) :
    (a.execAll ops).index = a.index ∧ (a.execAll ops).mainRev = a.mainRev := by
  induction ops generalizing a with
  | nil => exact ⟨rfl, rfl⟩
  | cons op ops ih =>
    rw [forall_mem_cons] at hops hclean
    have hstep := exec_index ha hops.1
    rw [drop_eq_of_clean hclean.1] at hstep
    have hrest := ih (agree_exec ha hops.1) hops.2 fun op' hop' k hk hlive =>
      hclean.2 op' hop' k ((shrinks_exec ha hops.1).hits hk) ((live_congr hstep.1).1 hlive)
    exact ⟨hrest.1.trans hstep.1, hrest.2.trans hstep.2⟩

end

section

variable (hops : ∀ op ∈ ops, NotPut op) (ha : Agree a)

include hops ha

omit ha in
lemma execAll_has (j : Nat) :
    ∃ keeps makes : Prop, ∀ a : Abs, (a.execAll ops).Has j ↔ a.Has j ∧ keeps ∨ makes := by
  induction ops with
  | nil => exact ⟨True, False, fun a => by simp [Abs.execAll]⟩
  | cons op ops ih =>
    rw [forall_mem_cons] at hops
    obtain ⟨keeps, makes, hrest⟩ := ih hops.2
    refine ⟨Keeps op j ∧ keeps, Makes op j ∧ keeps ∨ makes, fun a => ?_⟩
    rw [execAll_cons, hrest, exec_has hops.1]
    tauto

lemma execAll_fixed (hb : Agree b) (hshrinks : Shrinks (a.execAll ops) b)
    (hhas : ∀ id, b.Has id ↔ (a.execAll ops).Has id) :
    b.execAll ops = b := by
  have hindex := execAll_index_of_clean hb hops (clean_execAll ha hops hshrinks)
  refine (agree_execAll hb hops).ext hb hindex.1 hindex.2 fun id => not_iff_not.1 ?_
  change (b.execAll ops).Has id ↔ b.Has id
  obtain ⟨keeps, makes, h⟩ := execAll_has hops id
  rw [h, hhas, h]
  tauto

lemma execAll_again {post : List Op} :
    (a.execAll ops).restart.execAll (ops ++ post) = a.execAll (ops ++ post) := by
  have hagree : Agree (a.execAll ops) := agree_execAll ha hops
  have hfixed : (a.execAll ops).execAll ops = a.execAll ops :=
    execAll_fixed hops ha hagree (fun _ _ hk => hk) fun _ => Iff.rfl
  rw [hagree.restart_eq, execAll_append, hfixed, ← execAll_append]

lemma execAll_again_half {post : List Op} :
    ((a.execAll ops).dropAttached id).restart.execAll (ops ++ .leaseRevoke id :: post) =
      a.execAll (ops ++ .leaseRevoke id :: post) := by
  have hagree : Agree (a.execAll ops) := agree_execAll ha hops
  have hhalf : Agree ((a.execAll ops).drop fun k => (a.execAll ops).Leased k id).restart :=
    agree_restart fun hlive => hagree.nonempty (live_drop.1 hlive).1
  have hfixed : ((a.execAll ops).drop fun k => (a.execAll ops).Leased k id).restart.execAll ops =
      ((a.execAll ops).drop fun k => (a.execAll ops).Leased k id).restart :=
    execAll_fixed hops ha hhalf (shrinks_drop _ _) fun j => hagree.has_restart_drop
  rw [hagree.dropAttached, execAll_append, execAll_append, execAll_cons, execAll_cons, hfixed,
    hagree.exec_revoke_half]

end

end

/-! ## Entries -/

/-- Refused in every state. -/
def Op.refused : Op → Bool
  | .put key _ _ => key = []
  | .delete key => key = []
  | .deleteRange key _ => key = []
  | .other accepted => !accepted
  | .bad => true
  | _ => false

/-- Refused in this state. -/
def Abs.Refuses (a : Abs) : Op → Prop
  | .compact rev => rev = 0 ∨ a.mainRev < rev
  | .leaseGrant id ttl => (id = 0 ∨ ttl ≤ 0 ∨ maxLeaseTtl < ttl) ∧ ¬ a.Has id
  | op => op.refused = true

open scoped Classical in
/-- The operations of an entry, up to the first that is refused. -/
noncomputable def Abs.runOps (a : Abs) : List Op → Abs
  | [] => a
  | op :: ops => if a.Refuses op then a.exec op else (a.exec op).runOps ops

noncomputable def Abs.applyAll (a : Abs) (es : List (List Op)) : Abs := es.foldl Abs.runOps a

/-- Refused in all states or in none, as long as the store revision is at least `mainRev`. -/
def Steady (mainRev : Nat) : Op → Prop
  | .compact rev => 0 < rev ∧ rev ≤ mainRev
  | .leaseGrant id ttl => id ≠ 0 ∧ 0 < ttl ∧ ttl ≤ maxLeaseTtl
  | _ => True

/-- An entry whose end does not depend on the state. -/
def SteadyEntry (mainRev : Nat) (ops : List Op) : Prop := ∀ op ∈ ops.dropLast, Steady mainRev op

/-- The operations of a steady entry that are tried. -/
def tried : List Op → List Op
  | [] => []
  | op :: ops => if op.refused then [op] else op :: tried ops

section

variable {a : Abs} {op : Op} {ops post : List Op} {es : List (List Op)} {m n id : Nat}

lemma applyAll_append (a : Abs) (es es' : List (List Op)) :
    a.applyAll (es ++ es') = (a.applyAll es).applyAll es' := foldl_append

lemma mainRev_le_drop (a : Abs) (p : Key → Prop) : a.mainRev ≤ (a.drop p).mainRev := by
  unfold Abs.drop
  dsimp only
  split
  · exact Nat.le_succ _
  · exact le_rfl

lemma mainRev_le_exec (a : Abs) (op : Op) : a.mainRev ≤ (a.exec op).mainRev := by
  have hremove : ∀ p, a.mainRev ≤ (a.remove p).mainRev := mainRev_le_drop a
  cases op with
  | put key value leaseId =>
    simp only [Abs.exec]
    split
    · exact le_rfl
    · exact Nat.le_succ _
  | delete key =>
    simp only [Abs.exec]
    split
    · exact le_rfl
    · exact hremove _
  | deleteRange key rangeEnd =>
    simp only [Abs.exec]
    split
    · exact le_rfl
    split
    all_goals exact hremove _
  | leaseRevoke id => exact mainRev_le_drop a _
  | leaseGrant id ttl =>
    simp only [Abs.exec]
    split <;> exact le_rfl
  | leaseKeepalive id ttl | compact rev | other accepted | bad => exact le_rfl

lemma mainRev_le_execAll (a : Abs) (ops : List Op) : a.mainRev ≤ (a.execAll ops).mainRev := by
  induction ops generalizing a with
  | nil => exact le_rfl
  | cons op ops ih => exact (mainRev_le_exec a op).trans (ih (a.exec op))

lemma Steady.refuses_iff (h : Steady m op) (hm : m ≤ a.mainRev) : a.Refuses op ↔ op.refused := by
  cases op with
  | compact rev =>
    refine iff_of_false ?_ (by simp [Op.refused])
    rintro (hzero | hlt)
    · exact h.1.ne' hzero
    · exact (h.2.trans hm).not_gt hlt
  | leaseGrant id ttl =>
    refine iff_of_false ?_ (by simp [Op.refused])
    rintro ⟨hzero | hneg | hmax, _⟩
    · exact h.1 hzero
    · exact hneg.not_gt h.2.1
    · exact h.2.2.not_gt hmax
  | _ => exact Iff.rfl

lemma SteadyEntry.tail (h : SteadyEntry m (op :: ops)) : SteadyEntry m ops := by
  cases ops with
  | nil => exact forall_mem_nil _
  | cons op' ops => exact fun o ho => h o (mem_cons_of_mem op ho)

lemma SteadyEntry.refuses_iff (h : SteadyEntry m (op :: ops)) (hm : m ≤ a.mainRev)
    (hops : ops ≠ []) : a.Refuses op ↔ op.refused := by
  refine Steady.refuses_iff (h op ?_) hm
  rw [dropLast_cons_of_ne_nil hops]
  exact mem_cons_self

lemma tried_singleton (op : Op) : tried [op] = [op] := by
  unfold tried
  split <;> rfl

lemma SteadyEntry.runOps_eq (h : SteadyEntry m ops) (hm : m ≤ a.mainRev) :
    a.runOps ops = a.execAll (tried ops) := by
  induction ops generalizing a with
  | nil => rfl
  | cons op ops ih =>
    have hrest := ih h.tail (hm.trans (mainRev_le_exec a op))
    by_cases hops : ops = []
    · subst hops
      rw [tried_singleton]
      unfold Abs.runOps
      split <;> rfl
    unfold Abs.runOps tried
    simp only [h.refuses_iff hm hops]
    split
    · rfl
    · exact hrest

lemma applyAll_eq_of_steady (h : ∀ ops ∈ es, SteadyEntry m ops) (hm : m ≤ a.mainRev) :
    a.applyAll es = a.execAll (es.flatMap tried) := by
  induction es generalizing a with
  | nil => rfl
  | cons ops es ih =>
    rw [forall_mem_cons] at h
    change (a.runOps ops).applyAll es = _
    rw [h.1.runOps_eq hm, ih h.2 (hm.trans (mainRev_le_execAll a _)), flatMap_cons, execAll_append]

lemma applyAll_again (ha : Agree a) (hes : ∀ ops ∈ es, SteadyEntry a.mainRev ops)
    (hput : ∀ op ∈ (es.flatMap tried).take n, NotPut op) :
    (a.execAll ((es.flatMap tried).take n)).restart.applyAll es = a.applyAll es := by
  have hagain := @execAll_again _ _ hput ha ((es.flatMap tried).drop n)
  rw [take_append_drop] at hagain
  have hle : a.mainRev ≤ (a.execAll ((es.flatMap tried).take n)).restart.mainRev :=
    mainRev_le_execAll a _
  rw [applyAll_eq_of_steady hes le_rfl, applyAll_eq_of_steady hes hle, hagain]

lemma applyAll_again_half (ha : Agree a) (hes : ∀ ops ∈ es, SteadyEntry a.mainRev ops)
    (hput : ∀ op ∈ (es.flatMap tried).take n, NotPut op)
    (hnext : (es.flatMap tried).drop n = .leaseRevoke id :: post) :
    ((a.execAll ((es.flatMap tried).take n)).dropAttached id).restart.applyAll es =
      a.applyAll es := by
  have hagain := @execAll_again_half _ _ id hput ha post
  rw [← hnext, take_append_drop] at hagain
  have hle : a.mainRev ≤ ((a.execAll ((es.flatMap tried).take n)).dropAttached id).restart.mainRev :=
    (mainRev_le_execAll a _).trans (mainRev_le_drop _ _)
  rw [applyAll_eq_of_steady hes le_rfl, applyAll_eq_of_steady hes hle, hagain]

end

end Cetcd.Apply
