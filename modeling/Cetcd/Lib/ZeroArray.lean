import Mathlib.Data.List.GetD
import Mathlib.Tactic

/-!
# Zero-initialised growable arrays

A C array from `calloc`, grown with `realloc` and `memset`, reads as the default value wherever
nothing was stored. `read` is total and `write` grows the list of cells, so the two are a total map.
-/

namespace Lib

open List

structure ZeroArray (α : Type) where
  cells : List α
  deriving DecidableEq

namespace ZeroArray

variable {α : Type} [Inhabited α]

instance : Inhabited (ZeroArray α) := ⟨⟨[]⟩⟩

def empty : ZeroArray α := ⟨[]⟩

def read (a : ZeroArray α) (i : Nat) : α :=
  a.cells.getD i default

/-- Store `x` in cell `i`, growing the array with default cells when `i` is past its end. -/
def write (a : ZeroArray α) (i : Nat) (x : α) : ZeroArray α :=
  ⟨(a.cells ++ List.replicate (i + 1 - a.cells.length) default).set i x⟩

/-- The loop `for (i = lo; i < lo + n; i++) a[i] = f(a[i])`. -/
def update (f : α → α) (a : ZeroArray α) (lo : Nat) : Nat → ZeroArray α
  | 0 => a
  | n + 1 =>
    let b := update f a lo n
    b.write (lo + n) (f (b.read (lo + n)))

/-- The loop `for (i = lo; i < lo + n; i++) a[i] = a[i + 1]`. -/
def shift (a : ZeroArray α) (lo : Nat) : Nat → ZeroArray α
  | 0 => a
  | n + 1 => (shift a lo n).write (lo + n) ((shift a lo n).read (lo + n + 1))

lemma read_write (a : ZeroArray α) (i j : Nat) (x : α) :
    (a.write i x).read j = if j = i then x else a.read j := by
  unfold write read
  by_cases hji : j = i
  · subst hji
    have hlt : j < (a.cells ++ List.replicate (j + 1 - a.cells.length) default).length := by
      simp only [length_append, length_replicate]
      omega
    simp [List.getD, getElem?_set_self hlt]
  simp only [List.getD, getElem?_set_ne (Ne.symm hji), hji, if_false]
  by_cases hlen : j < a.cells.length
  · rw [getElem?_append_left hlen]
  rw [getElem?_append_right (by omega), getElem?_eq_none (by omega : a.cells.length ≤ j)]
  rw [getElem?_replicate]
  split <;> rfl

@[simp] lemma read_write_self (a : ZeroArray α) (i : Nat) (x : α) : (a.write i x).read i = x := by
  simp [read_write]

lemma read_write_of_ne (a : ZeroArray α) {i j : Nat} (x : α) (h : j ≠ i) :
    (a.write i x).read j = a.read j := by
  simp [read_write, h]

lemma read_update (f : α → α) (a : ZeroArray α) (lo j n : Nat) :
    (update f a lo n).read j = if lo ≤ j ∧ j < lo + n then f (a.read j) else a.read j := by
  induction n with
  | zero =>
    rw [if_neg (by omega)]
    rfl
  | succ n ih =>
    simp only [update, read_write]
    by_cases hj : j = lo + n
    · -- the cell written last: no earlier round of the loop has touched it
      subst hj
      rw [if_neg (by omega)] at ih
      rw [if_pos rfl, if_pos (by omega), ih]
    rw [if_neg hj, ih]
    by_cases hin : lo ≤ j ∧ j < lo + n
    · rw [if_pos hin, if_pos (by omega)]
    · rw [if_neg hin, if_neg (by omega)]

lemma read_shift (a : ZeroArray α) (lo j n : Nat) :
    (shift a lo n).read j = if lo ≤ j ∧ j < lo + n then a.read (j + 1) else a.read j := by
  induction n generalizing j with
  | zero =>
    rw [if_neg (by omega)]
    rfl
  | succ n ih =>
    simp only [shift, read_write]
    by_cases hj : j = lo + n
    · rw [if_pos hj, if_pos (by omega), ih, if_neg (by omega), hj]
    rw [if_neg hj, ih]
    by_cases hin : lo ≤ j ∧ j < lo + n
    · rw [if_pos hin, if_pos (by omega)]
    · rw [if_neg hin, if_neg (by omega)]

end ZeroArray
end Lib
