import Mathlib.Data.List.Sort

/-!
# Finite maps in key order

A finite map is the list of its entries, strictly sorted by key. Sortedness is a field, so maps with
the same lookups are equal.
-/

namespace Lib

open List Option

structure OrdMap (α β : Type) [LinearOrder α] where
  entries : List (α × β)
  sorted : entries.Pairwise (fun a b => a.1 < b.1)

namespace OrdMap

variable {α β : Type} [LinearOrder α] {m m' : OrdMap α β}

lemma ext_entries (h : m.entries = m'.entries) : m = m' := by
  cases m
  cases m'
  cases h
  rfl

instance [DecidableEq β] : DecidableEq (OrdMap α β) := fun m m' =>
  decidable_of_iff (m.entries = m'.entries) ⟨ext_entries, congrArg entries⟩

def empty : OrdMap α β := ⟨[], List.Pairwise.nil⟩

def find (m : OrdMap α β) (k : α) : Option β := (m.entries.find? fun p => p.1 = k).map Prod.snd

def filter (m : OrdMap α β) (p : α → Bool) : OrdMap α β :=
  ⟨m.entries.filter fun e => p e.1, m.sorted.filter _⟩

def erase (m : OrdMap α β) (k : α) : OrdMap α β := m.filter fun j => j ≠ k

def insert (m : OrdMap α β) (k : α) (v : β) : OrdMap α β where
  entries := m.entries.filter (fun e => e.1 < k) ++ (k, v) :: m.entries.filter (fun e => k < e.1)
  sorted := by
    refine pairwise_append.2 ⟨m.sorted.filter _, pairwise_cons.2 ⟨?_, m.sorted.filter _⟩, ?_⟩
    · intro e he
      exact of_decide_eq_true (mem_filter.1 he).2
    intro a ha b hb
    have hak : a.1 < k := of_decide_eq_true (mem_filter.1 ha).2
    rcases mem_cons.1 hb with rfl | hb
    · exact hak
    · exact hak.trans (of_decide_eq_true (mem_filter.1 hb).2)

def map {γ : Type} (m : OrdMap α β) (f : β → γ) : OrdMap α γ where
  entries := m.entries.map fun e => (e.1, f e.2)
  sorted := pairwise_map.2 m.sorted

/-! ## Lookup -/

@[simp] lemma find_empty (k : α) : (empty : OrdMap α β).find k = none := rfl

lemma nodup_keys (m : OrdMap α β) : (m.entries.map Prod.fst).Nodup :=
  pairwise_map.2 (m.sorted.imp ne_of_lt)

lemma find_eq_some {k : α} {v : β} : m.find k = some v ↔ (k, v) ∈ m.entries := by
  unfold find
  cases hfind : m.entries.find? (fun p => p.1 = k) with
  | none =>
    refine ⟨fun h => (nomatch h), fun hmem => ?_⟩
    have hne := find?_eq_none.1 hfind _ hmem
    exact absurd (decide_eq_true rfl) hne
  | some e =>
    have hmem := mem_of_find?_eq_some hfind
    have hk : e.1 = k := by simpa using find?_some hfind
    constructor
    · intro h
      rw [← hk, ← some.inj h]
      exact hmem
    intro hkv
    rw [inj_on_of_nodup_map m.nodup_keys hmem hkv hk]
    rfl

lemma find_filter (m : OrdMap α β) (p : α → Bool) (k : α) :
    (m.filter p).find k = if p k then m.find k else none := by
  ext v
  rw [find_eq_some]
  change (k, v) ∈ m.entries.filter _ ↔ _
  rw [mem_filter]
  split
  · rename_i hp
    rw [find_eq_some]
    exact and_iff_left hp
  rename_i hp
  exact ⟨fun h => absurd h.2 hp, fun h => nomatch h⟩

lemma find_erase (m : OrdMap α β) (k j : α) :
    (m.erase k).find j = if j = k then none else m.find j := by
  unfold erase
  rw [find_filter]
  by_cases h : j = k
  · rw [if_pos h, if_neg (by simp [h])]
  · rw [if_neg h, if_pos (by simp [h])]

lemma find_insert (m : OrdMap α β) (k j : α) (v : β) :
    (m.insert k v).find j = if j = k then some v else m.find j := by
  ext w
  rw [find_eq_some]
  change (j, w) ∈ m.entries.filter _ ++ (k, v) :: m.entries.filter _ ↔ _
  rw [mem_append, mem_cons, mem_filter, mem_filter]
  obtain h | h | h := lt_trichotomy j k
  · rw [if_neg h.ne, find_eq_some]
    simp [h, h.not_gt, h.ne]
  · subst h
    simp [eq_comm]
  rw [if_neg h.ne', find_eq_some]
  simp [h, h.not_gt, h.ne']

lemma find_map {γ : Type} (m : OrdMap α β) (f : β → γ) (k : α) :
    (m.map f).find k = (m.find k).map f := by
  unfold find map
  dsimp only
  rw [List.find?_map, Option.map_map, Option.map_map]
  rfl

lemma ext_find (h : ∀ k, m.find k = m'.find k) : m = m' := by
  have hmem : ∀ e, e ∈ m.entries ↔ e ∈ m'.entries := fun e => by
    rw [← Prod.mk.eta (p := e), ← find_eq_some, ← find_eq_some, h]
  have hperm : m.entries.Perm m'.entries :=
    (perm_ext_iff_of_nodup m.nodup_keys.of_map m'.nodup_keys.of_map).2 hmem
  refine ext_entries (hperm.eq_of_pairwise (fun a b _ _ hab hba => ?_) m.sorted m'.sorted)
  exact absurd hab hba.asymm

end OrdMap
end Lib
