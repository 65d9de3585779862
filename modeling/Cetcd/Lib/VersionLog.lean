import Mathlib.Tactic

/-!
# Logs of versions

Events, oldest first, each with a key and a time. What a key was at a time is said by its latest
event up to then; a reader walks backwards, for one key or, with the set of the keys met already,
for all.
-/

namespace Lib

open List Option

section

variable {ε κ τ : Type} [DecidableEq κ] [LinearOrder τ] (key : ε → κ) (time : ε → τ)

/-- The latest event about `k` that is not after `t`. -/
def latest (l : List ε) (k : κ) (t : τ) : Option ε :=
  l.reverse.find? fun e => time e ≤ t && key e = k

def newest (l : List ε) (k : κ) : Option ε := l.reverse.find? fun e => key e = k

variable {key time} {l l' : List ε} {k : κ} {t : τ} {e : ε}

lemma latest_append :
    latest key time (l ++ l') k t = (latest key time l' k t).or (latest key time l k t) := by
  unfold latest
  rw [reverse_append, find?_append]

lemma newest_append_singleton :
    newest key (l ++ [e]) k = if key e = k then some e else newest key l k := by
  unfold newest
  rw [reverse_append, find?_append]
  by_cases h : key e = k <;> simp [h]

lemma mem_of_latest (h : latest key time l k t = some e) : e ∈ l ∧ key e = k ∧ time e ≤ t := by
  have hp := find?_some h
  have hmem := mem_of_find?_eq_some h
  rw [Bool.and_eq_true, decide_eq_true_eq, decide_eq_true_eq] at hp
  exact ⟨mem_reverse.1 hmem, hp.2, hp.1⟩

lemma mem_of_newest (h : newest key l k = some e) : e ∈ l ∧ key e = k := by
  have hp := find?_some h
  exact ⟨mem_reverse.1 (mem_of_find?_eq_some h), of_decide_eq_true hp⟩

lemma latest_eq_none : latest key time l k t = none ↔ ∀ e ∈ l, key e = k → ¬ time e ≤ t := by
  unfold latest
  rw [find?_eq_none]
  simp only [mem_reverse, Bool.and_eq_true, decide_eq_true_eq, not_and]
  exact forall₂_congr fun _ _ => ⟨fun h hk ht => h ht hk, fun h ht hk => h hk ht⟩

lemma newest_eq_none : newest key l k = none ↔ ∀ e ∈ l, key e ≠ k := by
  unfold newest
  rw [find?_eq_none]
  simp only [mem_reverse, decide_eq_true_eq]

lemma latest_append_of_later (h : ∀ e ∈ l', t < time e) :
    latest key time (l ++ l') k t = latest key time l k t := by
  have hnone : latest key time l' k t = none :=
    latest_eq_none.2 fun e he _ => not_le.2 (h e he)
  rw [latest_append, hnone]
  rfl

lemma latest_eq_newest (h : ∀ e ∈ l, time e ≤ t) : latest key time l k t = newest key l k := by
  unfold latest newest
  refine find?_congr fun e he => ?_
  rw [decide_eq_true (h e (mem_reverse.1 he)), Bool.true_and]

lemma latest_of_newest (h : newest key l k = some e) (ht : time e ≤ t) :
    latest key time l k t = some e := by
  unfold newest at h
  unfold latest
  rw [find?_eq_some_iff_append] at h ⊢
  obtain ⟨hk, as, bs, heq, has⟩ := h
  have hk' : key e = k := of_decide_eq_true hk
  refine ⟨by simp [hk', ht], as, bs, heq, fun a ha => ?_⟩
  have hne : key a ≠ k := by simpa using has a ha
  simp [hne]

lemma time_le_latest (hsorted : l.Pairwise fun a b => time a ≤ time b)
    (h : latest key time l k t = some e) {a : ε} (ha : a ∈ l) (hk : key a = k) (ht : time a ≤ t) :
    time a ≤ time e := by
  unfold latest at h
  rw [find?_eq_some_iff_append] at h
  obtain ⟨_, as, bs, heq, has⟩ := h
  have hrev : l.reverse.Pairwise fun a b => time b ≤ time a := pairwise_reverse.2 hsorted
  have hmem : a ∈ l.reverse := mem_reverse.2 ha
  rw [heq] at hrev hmem
  obtain hmem | hmem := mem_append.1 hmem
  · have hne := has a hmem
    simp [hk, ht] at hne
  obtain rfl | hmem := mem_cons.1 hmem
  · exact le_rfl
  · exact (pairwise_cons.1 (pairwise_append.1 hrev).2.1).1 a hmem

lemma latest_filter_le (hsorted : l.Pairwise fun a b => time a ≤ time b) (c : τ) :
    latest key time (l.filter fun e => c ≤ time e) k t =
      (latest key time l k t).filter fun e => c ≤ time e := by
  cases h : latest key time l k t with
  | none =>
    refine latest_eq_none.2 fun e he => ?_
    exact latest_eq_none.1 h e (mem_filter.1 he).1
  | some e =>
    by_cases hc : c ≤ time e
    · rw [filter_some, if_pos (decide_eq_true hc)]
      unfold latest at h ⊢
      rw [find?_eq_some_iff_append] at h
      obtain ⟨hp, as, bs, heq, has⟩ := h
      have hkeep : (bs.cons e).filter (fun e => decide (c ≤ time e)) =
          e :: bs.filter fun e => decide (c ≤ time e) := by
        rw [filter_cons, if_pos (decide_eq_true hc)]
      rw [← filter_reverse, heq, filter_append, hkeep, find?_eq_some_iff_append]
      exact ⟨hp, _, _, rfl, fun a ha => has a (mem_filter.1 ha).1⟩
    rw [filter_some, if_neg (by simpa using hc)]
    refine latest_eq_none.2 fun a ha hk ht => hc ?_
    have ha' := mem_filter.1 ha
    exact (of_decide_eq_true ha'.2).trans (time_le_latest hsorted h ha'.1 hk ht)

end

section

variable {ε κ τ : Type} [DecidableEq κ] [LinearOrder τ] {key : ε → κ} {time : ε → τ}
  {l : List ε} {t : τ} {e : ε}

lemma newest_of_nodup (h : (l.map key).Nodup) (he : e ∈ l) : newest key l (key e) = some e := by
  cases hn : newest key l (key e) with
  | none => exact absurd rfl (newest_eq_none.1 hn e he)
  | some a =>
    obtain ⟨ha, hk⟩ := mem_of_newest hn
    rw [inj_on_of_nodup_map h ha he hk]

lemma latest_of_nodup (h : (l.map key).Nodup) (he : e ∈ l) :
    latest key time l (key e) t = if time e ≤ t then some e else none := by
  split
  · rename_i ht
    exact latest_of_newest (newest_of_nodup h he) ht
  rename_i ht
  refine latest_eq_none.2 fun a ha hk => ?_
  rw [inj_on_of_nodup_map h ha he hk]
  exact ht

end

section

variable {ε κ : Type} [DecidableEq κ] (key : ε → κ)

/-- The walk takes an event if it is wanted and the first one of its key. -/
def walk (wanted : ε → Bool) : List ε → List κ → List ε
  | [], _ => []
  | e :: es, seen =>
    if wanted e && !seen.contains (key e) then e :: walk wanted es (key e :: seen)
    else walk wanted es seen

variable {key} {wanted : ε → Bool} {es : List ε} {seen : List κ} {e : ε}

lemma mem_walk : e ∈ walk key wanted es seen ↔
    key e ∉ seen ∧ es.find? (fun a => wanted a && key a = key e) = some e := by
  induction es generalizing seen with
  | nil => simp [walk]
  | cons a es ih =>
    unfold walk
    by_cases hw : wanted a = true
    · by_cases hs : key a ∈ seen
      · -- seen before: not taken, and it is not of the key of `e` if that is new
        rw [if_neg (by simp [hs]), ih]
        refine and_congr_right fun hnew => ?_
        have hne : key a ≠ key e := fun heq => hnew (heq ▸ hs)
        rw [find?_cons_of_neg (by simp [hne])]
      rw [if_pos (by simp [hw, hs]), mem_cons, ih, mem_cons, not_or]
      by_cases hk : key a = key e
      · rw [find?_cons_of_pos (by simp [hw, hk]), some_inj]
        constructor
        · rintro (rfl | ⟨⟨hne, _⟩, _⟩)
          · exact ⟨hs, rfl⟩
          · exact absurd hk.symm hne
        · exact fun h => Or.inl h.2.symm
      rw [find?_cons_of_neg (by simp [hk])]
      constructor
      · rintro (rfl | ⟨⟨_, hnew⟩, hfind⟩)
        · exact absurd rfl hk
        · exact ⟨hnew, hfind⟩
      · exact fun h => Or.inr ⟨⟨Ne.symm hk, h.1⟩, h.2⟩
    · rw [if_neg (by simp [hw]), ih, find?_cons_of_neg (by simp [hw])]

lemma nodup_walk : ((walk key wanted es seen).map key).Nodup := by
  induction es generalizing seen with
  | nil => exact nodup_nil
  | cons a es ih =>
    unfold walk
    split
    · rw [map_cons, nodup_cons]
      refine ⟨fun hmem => ?_, ih⟩
      obtain ⟨b, hb, hk⟩ := mem_map.1 hmem
      exact (mem_walk.1 hb).1 (hk ▸ mem_cons_self)
    · exact ih

end

lemma eq_of_pairwise_lt {α β : Type} [LinearOrder β] {f : α → β} {l l' : List α}
    (h : l.Pairwise fun a b => f a < f b) (h' : l'.Pairwise fun a b => f a < f b)
    (hmem : ∀ x, x ∈ l ↔ x ∈ l') : l = l' := by
  have hnodup : ∀ {l : List α}, l.Pairwise (fun a b => f a < f b) → l.Nodup := fun h =>
    h.imp fun hlt heq => hlt.ne (congrArg f heq)
  have hperm : l.Perm l' := (perm_ext_iff_of_nodup (hnodup h) (hnodup h')).2 hmem
  exact hperm.eq_of_pairwise (fun a b _ _ hab hba => absurd hab hba.asymm) h h'

lemma pairwise_mergeSort {α β : Type} [LinearOrder β] {f : α → β} {l : List α}
    (h : (l.map f).Nodup) :
    (l.mergeSort fun a b => f a ≤ f b).Pairwise fun a b => f a < f b := by
  have hle : (l.mergeSort fun a b => f a ≤ f b).Pairwise fun a b => f a ≤ f b := by
    have hsort := @List.pairwise_mergeSort α (fun a b => decide (f a ≤ f b))
      (fun a b c hab hbc => by
        simp only [decide_eq_true_eq] at *
        exact hab.trans hbc)
      (fun a b => by
        simp only [Bool.or_eq_true, decide_eq_true_eq]
        exact le_total _ _) l
    exact hsort.imp fun hab => of_decide_eq_true hab
  have hne : (l.mergeSort fun a b => f a ≤ f b).Pairwise fun a b => f a ≠ f b :=
    pairwise_map.1 (((mergeSort_perm l _).map f).nodup_iff.2 h)
  exact (hle.and hne).imp fun hab => lt_of_le_of_ne hab.1 hab.2

end Lib
