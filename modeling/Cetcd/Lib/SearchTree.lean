import Cetcd.Lib.OrdMap
import Mathlib.Tactic

/-!
# Search trees

Binary trees with a key, a value and a tag in each node. A tree is meant by its in-order list, which
a rotation does not change.
-/

namespace Lib

open List

inductive SearchTree (α β γ : Type)
  | nil
  | node (left : SearchTree α β γ) (key : α) (value : β) (tag : γ) (right : SearchTree α β γ)
  deriving DecidableEq

namespace SearchTree

variable {α β γ : Type}

def toList : SearchTree α β γ → List (α × β)
  | nil => []
  | node l k v _ r => l.toList ++ (k, v) :: r.toList

def size : SearchTree α β γ → Nat
  | nil => 0
  | node l _ _ _ r => l.size + 1 + r.size

def rotateRight : SearchTree α β γ → SearchTree α β γ
  | node (node a k v p b) k' v' p' c => node a k v p (node b k' v' p' c)
  | t => t

def rotateLeft : SearchTree α β γ → SearchTree α β γ
  | node a k v p (node b k' v' p' c) => node (node a k v p b) k' v' p' c
  | t => t

@[simp] lemma toList_rotateRight (t : SearchTree α β γ) : t.rotateRight.toList = t.toList := by
  unfold rotateRight
  split
  · simp [toList]
  · rfl

@[simp] lemma toList_rotateLeft (t : SearchTree α β γ) : t.rotateLeft.toList = t.toList := by
  unfold rotateLeft
  split
  · simp [toList]
  · rfl

lemma length_toList (t : SearchTree α β γ) : t.toList.length = t.size := by
  induction t with
  | nil => rfl
  | node l k v p r ihl ihr =>
    simp only [toList, size, length_append, length_cons, ihl, ihr]
    omega

end SearchTree

/-! ## Sorted lists around a key -/

section

variable {α β : Type} [LinearOrder α] {L R : List (α × β)} {k k0 : α} {v v0 : β}

def SortedKeys (l : List (α × β)) : Prop := l.Pairwise fun a b => a.1 < b.1

def putKey (l : List (α × β)) (k : α) (v : β) : List (α × β) :=
  l.filter (fun e => e.1 < k) ++ (k, v) :: l.filter (fun e => k < e.1)

lemma sortedKeys_node : SortedKeys (L ++ (k0, v0) :: R) ↔
    SortedKeys L ∧ SortedKeys R ∧ (∀ e ∈ L, e.1 < k0) ∧ ∀ e ∈ R, k0 < e.1 := by
  unfold SortedKeys
  rw [pairwise_append, pairwise_cons]
  constructor
  · rintro ⟨hL, ⟨hR, hsorted⟩, hcross⟩
    exact ⟨hL, hsorted, fun e he => hcross e he _ mem_cons_self, hR⟩
  rintro ⟨hL, hsorted, hlt, hR⟩
  refine ⟨hL, ⟨hR, hsorted⟩, fun a ha b hb => ?_⟩
  obtain rfl | hb := mem_cons.1 hb
  · exact hlt a ha
  · exact (hlt a ha).trans (hR b hb)

lemma filter_below (hL : ∀ e ∈ L, e.1 < k) : L.filter (fun e => e.1 < k) = L ∧
    L.filter (fun e => k < e.1) = [] := by
  refine ⟨filter_eq_self.2 fun e he => decide_eq_true (hL e he), ?_⟩
  exact filter_eq_nil_iff.2 fun e he => by simpa using (hL e he).le

lemma filter_above (hR : ∀ e ∈ R, k < e.1) : R.filter (fun e => k < e.1) = R ∧
    R.filter (fun e => e.1 < k) = [] := by
  refine ⟨filter_eq_self.2 fun e he => decide_eq_true (hR e he), ?_⟩
  exact filter_eq_nil_iff.2 fun e he => by simpa using (hR e he).le

lemma putKey_left (h : SortedKeys (L ++ (k0, v0) :: R)) (hk : k < k0) :
    putKey (L ++ (k0, v0) :: R) k v = putKey L k v ++ (k0, v0) :: R := by
  have hR : ∀ e ∈ R, k < e.1 := fun e he => hk.trans ((sortedKeys_node.1 h).2.2.2 e he)
  unfold putKey
  simp [filter_above hR, hk, hk.le]

lemma putKey_right (h : SortedKeys (L ++ (k0, v0) :: R)) (hk : k0 < k) :
    putKey (L ++ (k0, v0) :: R) k v = L ++ (k0, v0) :: putKey R k v := by
  have hL : ∀ e ∈ L, e.1 < k := fun e he => ((sortedKeys_node.1 h).2.2.1 e he).trans hk
  unfold putKey
  simp [filter_below hL, hk, hk.le]

lemma putKey_here (h : SortedKeys (L ++ (k, v0) :: R)) :
    putKey (L ++ (k, v0) :: R) k v = L ++ (k, v) :: R := by
  obtain ⟨_, _, hL, hR⟩ := sortedKeys_node.1 h
  unfold putKey
  simp [filter_below hL, filter_above hR]

def eraseKey (l : List (α × β)) (k : α) : List (α × β) := l.filter fun e => e.1 ≠ k

lemma eraseKey_of_ne (h : ∀ e ∈ L, e.1 ≠ k) : eraseKey L k = L :=
  filter_eq_self.2 fun e he => decide_eq_true (h e he)

lemma eraseKey_left (h : SortedKeys (L ++ (k0, v0) :: R)) (hk : k < k0) :
    eraseKey (L ++ (k0, v0) :: R) k = eraseKey L k ++ (k0, v0) :: R := by
  have hR := eraseKey_of_ne fun e he => (hk.trans ((sortedKeys_node.1 h).2.2.2 e he)).ne'
  unfold eraseKey at hR ⊢
  rw [filter_append, filter_cons, if_pos (decide_eq_true hk.ne'), hR]

lemma eraseKey_right (h : SortedKeys (L ++ (k0, v0) :: R)) (hk : k0 < k) :
    eraseKey (L ++ (k0, v0) :: R) k = L ++ (k0, v0) :: eraseKey R k := by
  have hL := eraseKey_of_ne fun e he => (((sortedKeys_node.1 h).2.2.1 e he).trans hk).ne
  unfold eraseKey at hL ⊢
  rw [filter_append, filter_cons, if_pos (decide_eq_true hk.ne), hL]

lemma eraseKey_here (h : SortedKeys (L ++ (k, v0) :: R)) :
    eraseKey (L ++ (k, v0) :: R) k = L ++ R := by
  obtain ⟨_, _, hL, hR⟩ := sortedKeys_node.1 h
  have hL' := eraseKey_of_ne fun e he => (hL e he).ne
  have hR' := eraseKey_of_ne fun e he => (hR e he).ne'
  unfold eraseKey at hL' hR' ⊢
  rw [filter_append, filter_cons, if_neg (by simp), hL', hR']

end

end Lib
