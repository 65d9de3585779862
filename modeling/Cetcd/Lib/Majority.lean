import Mathlib.Tactic

/-!
# Majorities of a list

`Majority V P` says that more than half of the positions of `V` hold a member with `P`; the witness
is a Boolean test. Two majorities of one list meet; the last section says when those of two lists
do.
-/

namespace Lib

open List Finset

variable {N : Type} {V : List N} {P Q : N → Prop}

def Majority (V : List N) (P : N → Prop) : Prop :=
  ∃ f : N → Bool, V.length < 2 * V.countP f ∧ ∀ v ∈ V, f v = true → P v

lemma Majority.mono (h : Majority V P) (hPQ : ∀ v ∈ V, P v → Q v) : Majority V Q := by
  obtain ⟨f, hf, hP⟩ := h
  exact ⟨f, hf, fun v hv hfv => hPQ v hv (hP v hv hfv)⟩

lemma Majority.perm {W : List N} (h : Majority V P) (hVW : V.Perm W) : Majority W P := by
  obtain ⟨f, hf, hP⟩ := h
  refine ⟨f, ?_, fun v hv => hP v (hVW.mem_iff.2 hv)⟩
  rw [← hVW.length_eq, ← hVW.countP_eq]
  exact hf

lemma exists_of_length_lt_countP_add {f g : N → Bool} :
    ∀ V : List N, V.length < V.countP f + V.countP g → ∃ v ∈ V, f v ∧ g v
  | [], h => by simp at h
  | v :: V, h => by
      by_cases hboth : f v ∧ g v
      · exact ⟨v, by simp, hboth⟩
      have hrest : V.length < V.countP f + V.countP g := by
        simp only [countP_cons, length_cons] at h
        by_cases hf : f v = true
        · have hg : g v = false := by simpa [hf] using hboth
          simp [hf, hg] at h
          omega
        simp [hf] at h
        split at h <;> omega
      obtain ⟨w, hw, hfg⟩ := exists_of_length_lt_countP_add V hrest
      exact ⟨w, mem_cons_of_mem _ hw, hfg⟩

lemma Majority.inter (hP : Majority V P) (hQ : Majority V Q) : ∃ v ∈ V, P v ∧ Q v := by
  obtain ⟨f, hf, hfP⟩ := hP
  obtain ⟨g, hg, hgQ⟩ := hQ
  obtain ⟨v, hv, hfv, hgv⟩ := exists_of_length_lt_countP_add (f := f) (g := g) V (by omega)
  exact ⟨v, hv, hfP v hv hfv, hgQ v hv hgv⟩

lemma Majority.exists_finset [DecidableEq N] (hV : V.Nodup) (h : Majority V P) :
    ∃ A ⊆ V.toFinset, V.length < 2 * A.card ∧ ∀ v ∈ A, P v := by
  obtain ⟨f, hf, hP⟩ := h
  refine ⟨(V.filter f).toFinset, ?_, ?_, ?_⟩
  · intro v hv
    rw [mem_toFinset, mem_filter] at hv
    exact mem_toFinset.2 hv.1
  · rw [toFinset_card_of_nodup (hV.filter f), ← countP_eq_length_filter]
    exact hf
  intro v hv
  rw [mem_toFinset, mem_filter] at hv
  exact hP v hv.1 hv.2

section

variable [DecidableEq N] {S T : Finset N}

lemma exists_disjoint_subsets {p q : ℕ} (hS : p ≤ S.card) (hT : q ≤ T.card)
    (h : p + q ≤ (S ∪ T).card) :
    ∃ A ⊆ S, ∃ B ⊆ T, A.card = p ∧ B.card = q ∧ Disjoint A B := by
  have hunion : (S \ T).card + T.card = (S ∪ T).card := by
    rw [card_sdiff_add_card]
  obtain hle | hle := Nat.le_total p (S \ T).card
  · -- what only `S` has is enough for `A`
    obtain ⟨A, hA, hcard⟩ := exists_subset_card_eq hle
    obtain ⟨B, hB, hcard'⟩ := exists_subset_card_eq hT
    refine ⟨A, hA.trans sdiff_subset, B, hB, hcard, hcard', ?_⟩
    exact disjoint_of_subset_left hA (disjoint_of_subset_right hB sdiff_disjoint)
  -- `A` takes all of that and as little as possible of what both have
  obtain ⟨A, hsub, hA, hcard⟩ := exists_subsuperset_card_eq sdiff_subset hle hS
  have hleft : T \ A = (S ∪ T) \ A := by
    rw [union_sdiff_distrib]
    refine (union_eq_right.2 ?_).symm
    intro v hv
    obtain ⟨hvS, hvA⟩ := mem_sdiff.1 hv
    refine mem_sdiff.2 ⟨?_, hvA⟩
    by_contra hvT
    exact hvA (hsub (mem_sdiff.2 ⟨hvS, hvT⟩))
  have hroom : q ≤ (T \ A).card := by
    rw [hleft, card_sdiff_of_subset (hA.trans subset_union_left)]
    omega
  obtain ⟨B, hB, hcard'⟩ := exists_subset_card_eq hroom
  refine ⟨A, hA, B, hB.trans sdiff_subset, hcard, hcard', ?_⟩
  exact disjoint_of_subset_right hB disjoint_sdiff

end

end Lib
