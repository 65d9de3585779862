import Mathlib.Tactic

/-!
# Reaching a goal along an infinite run

The goal is reached along a run if every step before it lowers a well-founded rank, or no step
raises it and again and again one lowers it. Where the head of a queue is taken again and again,
every element gets its turn. A run with an invariant exists if every state with it has a step to
another one.
-/

namespace Lib

open List

variable {S α : Type}

lemma exists_of_rank [LT α] [WellFoundedLT α] (run : ℕ → S) (goal inv : S → Prop) (rank : S → α)
    (hstep : ∀ k, inv (run k) →
      goal (run (k + 1)) ∨ inv (run (k + 1)) ∧ rank (run (k + 1)) < rank (run k))
    (h0 : inv (run 0)) : ∃ n, goal (run n) := by
  -- well-founded induction on the rank, for every moment that has it
  have hall : ∀ a : α, ∀ k, rank (run k) = a → inv (run k) → ∃ n, goal (run n) := by
    intro a
    induction a using WellFoundedLT.induction with
    | ind a ih =>
      intro k hk hinv
      obtain hgoal | ⟨hinv', hlt⟩ := hstep k hinv
      · exact ⟨k + 1, hgoal⟩
      · exact ih _ (hk ▸ hlt) (k + 1) rfl hinv'
  exact hall _ 0 rfl h0

lemma exists_of_recurring_drop (rank : ℕ → ℕ) (goal : ℕ → Prop)
    (hle : ∀ k, ¬ goal k → rank (k + 1) ≤ rank k)
    (hlt : ∀ k, ∃ n, k ≤ n ∧ (goal n ∨ rank (n + 1) < rank n)) : ∃ n, goal n := by
  by_contra hnone
  have hno : ∀ k, ¬ goal k := fun k hk => hnone ⟨k, hk⟩
  have hanti : Antitone rank := antitone_nat_of_succ_le fun k => hle k (hno k)
  -- strong induction on the rank: it has dropped at some later moment
  have hall : ∀ r k, rank k = r → False := by
    intro r
    induction r using Nat.strong_induction_on with
    | _ r ih =>
      intro k hk
      obtain ⟨n, hkn, hgoal | hdrop⟩ := hlt k
      · exact hno n hgoal
      have := hanti hkn
      exact ih (rank (n + 1)) (by omega) (n + 1) rfl
  exact hall _ 0 rfl

lemma eventually_zero_of_recurring_drop (rank : ℕ → ℕ) (k₀ : ℕ)
    (hle : ∀ k, k₀ ≤ k → rank (k + 1) ≤ rank k)
    (hlt : ∀ k, k₀ ≤ k → rank k ≠ 0 → ∃ n, k ≤ n ∧ rank (n + 1) < rank n) :
    ∃ n, k₀ ≤ n ∧ ∀ k, n ≤ k → rank k = 0 := by
  have hzero : ∃ n, rank (k₀ + n) = 0 := by
    refine exists_of_recurring_drop (fun k => rank (k₀ + k)) (fun k => rank (k₀ + k) = 0)
      (fun k _ => hle (k₀ + k) (by omega)) (fun k => ?_)
    by_cases hk : rank (k₀ + k) = 0
    · exact ⟨k, le_rfl, .inl hk⟩
    obtain ⟨n, hkn, hdrop⟩ := hlt (k₀ + k) (by omega) hk
    obtain ⟨j, rfl⟩ := Nat.exists_eq_add_of_le (show k₀ ≤ n by omega)
    exact ⟨j, by omega, .inr hdrop⟩
  obtain ⟨n, hn⟩ := hzero
  refine ⟨k₀ + n, by omega, fun k hk => ?_⟩
  induction k, hk using Nat.le_induction with
  | base => exact hn
  | succ k hk ih => exact Nat.le_zero.1 ((hle k (by omega)).trans ih.le)

lemma exists_taken (queue : ℕ → List α) (takes : ℕ → Bool)
    (hstep : ∀ k, ∃ new, queue (k + 1) = (bif takes k then (queue k).tail else queue k) ++ new)
    (hagain : ∀ k, ∃ n, k ≤ n ∧ takes n) {k : ℕ} {a : α} (ha : a ∈ queue k) :
    ∃ n, k ≤ n ∧ takes n ∧ (queue n).head? = some a := by
  -- the place of `a` is kept until the next head is taken
  have hwait : ∀ d k j : ℕ, (queue k)[j]? = some a → takes (k + d) →
      ∃ n, k ≤ n ∧ takes n = true ∧ (queue n)[j]? = some a := by
    intro d
    induction d with
    | zero => exact fun k j hj hd => ⟨k, le_rfl, hd, hj⟩
    | succ d ih =>
      intro k j hj hd
      cases htake : takes k with
      | true => exact ⟨k, le_rfl, htake, hj⟩
      | false =>
        obtain ⟨new, hnew⟩ := hstep k
        rw [htake, cond_false] at hnew
        have hj' : (queue (k + 1))[j]? = some a := by
          rw [hnew, List.getElem?_append_left (List.getElem?_eq_some_iff.1 hj).1]
          exact hj
        obtain ⟨n, hn, hrest⟩ := ih (k + 1) j hj' (by rwa [Nat.add_right_comm])
        exact ⟨n, by omega, hrest⟩
  -- induction on the place
  have hall : ∀ j k : ℕ, (queue k)[j]? = some a →
      ∃ n, k ≤ n ∧ takes n = true ∧ (queue n).head? = some a := by
    intro j
    induction j with
    | zero =>
      intro k hj
      obtain ⟨n, hkn, hn⟩ := hagain k
      obtain ⟨d, rfl⟩ := Nat.exists_eq_add_of_le hkn
      obtain ⟨n, hn, htake, hhead⟩ := hwait d k 0 hj hn
      exact ⟨n, hn, htake, by rwa [head?_eq_getElem?]⟩
    | succ j ih =>
      intro k hj
      obtain ⟨n, hkn, hn⟩ := hagain k
      obtain ⟨d, rfl⟩ := Nat.exists_eq_add_of_le hkn
      obtain ⟨n, hn, htake, hplace⟩ := hwait d k (j + 1) hj hn
      obtain ⟨new, hnew⟩ := hstep n
      rw [htake, cond_true] at hnew
      have hplace' : (queue (n + 1))[j]? = some a := by
        have htail : (queue n).tail[j]? = some a := by rwa [getElem?_tail]
        rw [hnew, List.getElem?_append_left (List.getElem?_eq_some_iff.1 htail).1]
        exact htail
      obtain ⟨m, hm, hrest⟩ := ih (n + 1) hplace'
      exact ⟨m, by omega, hrest⟩
  obtain ⟨j, hj⟩ := mem_iff_getElem?.1 ha
  exact hall j k hj

lemma exists_run {inv : S → Prop} {step : S → S → Prop}
    (hstep : ∀ s, inv s → ∃ s', step s s' ∧ inv s') {s : S} (h0 : inv s) :
    ∃ run : ℕ → S, run 0 = s ∧ ∀ k, inv (run k) ∧ step (run k) (run (k + 1)) := by
  choose next hnext using hstep
  -- the run carries the invariant, so that the next step can be chosen
  let run : ℕ → { s : S // inv s } := fun k =>
    Nat.rec ⟨s, h0⟩ (fun _ t => ⟨next t.1 t.2, (hnext t.1 t.2).2⟩) k
  exact ⟨fun k => (run k).1, rfl, fun k => ⟨(run k).2, (hnext (run k).1 (run k).2).1⟩⟩

end Lib
