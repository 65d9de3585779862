import Mathlib.Data.List.Basic

/-!
# Frames in a byte stream

A parser on a growing buffer: it asks for more, gives up, or returns an item and the rest, and its
answer stands when bytes are added behind. Then it does not matter how a stream of encoded items is
cut into pieces.
-/

namespace Lib

open List

/-- What a parser says of a buffer. -/
inductive Cut (X B : Type)
  | more
  | bad
  | item (x : X) (rest : List B)
  deriving DecidableEq

/-- A parser whose answers stand when bytes are added. -/
structure Framing (X B : Type) where
  parse : List B → Cut X B
  parse_nil : parse [] = .more
  bad_append : ∀ b q, parse b = .bad → parse (b ++ q) = .bad
  item_append : ∀ b q x rest, parse b = .item x rest → parse (b ++ q) = .item x (rest ++ q)
  rest_lt : ∀ b x rest, parse b = .item x rest → rest.length < b.length

namespace Framing

variable {X Y B : Type} (F : Framing X B)

/-- The items, and the buffer after them unless the parser gave up. The length is fuel enough. -/
def drainLoop : Nat → List B → List X × Option (List B)
  | 0, b => ([], some b)
  | fuel + 1, b =>
    match F.parse b with
    | .more => ([], some b)
    | .bad => ([], none)
    | .item x rest => (x :: (drainLoop fuel rest).1, (drainLoop fuel rest).2)

def drain (b : List B) : List X × Option (List B) := F.drainLoop b.length b

variable {F}

lemma drainLoop_of_le {n n' : Nat} {b : List B} (h : b.length ≤ n) (h' : b.length ≤ n') :
    F.drainLoop n b = F.drainLoop n' b := by
  induction n generalizing n' b with
  | zero =>
    have hnil := length_eq_zero_iff.1 (Nat.le_zero.1 h)
    subst hnil
    cases n' with
    | zero => rfl
    | succ n' => simp [drainLoop, F.parse_nil]
  | succ n ih =>
    cases n' with
    | zero =>
      have hnil := length_eq_zero_iff.1 (Nat.le_zero.1 h')
      subst hnil
      simp [drainLoop, F.parse_nil]
    | succ n' =>
      rw [drainLoop, drainLoop]
      cases hparse : F.parse b with
      | more | bad => rfl
      | item x rest =>
        have hlt := F.rest_lt b x rest hparse
        simp only
        rw [@ih n' rest (by omega) (by omega)]

lemma drain_more {b : List B} (h : F.parse b = .more) : F.drain b = ([], some b) := by
  unfold drain
  cases b.length with
  | zero => rfl
  | succ n => simp [drainLoop, h]

lemma drain_item {b rest : List B} {x : X} (h : F.parse b = .item x rest) :
    F.drain b = (x :: (F.drain rest).1, (F.drain rest).2) := by
  have hlt := F.rest_lt b x rest h
  unfold drain
  cases hlen : b.length with
  | zero => omega
  | succ n =>
    rw [drainLoop, h]
    simp only
    have hfuel : F.drainLoop n rest = F.drainLoop rest.length rest :=
      drainLoop_of_le (by omega) (Nat.le_refl _)
    rw [hfuel]

variable (F)

/-- An encoding the parser reads back, wherever it stands at the head of a buffer. -/
structure Encodes (enc : Y → List B) (val : Y → X) (y : Y) : Prop where
  parse : ∀ q, F.parse (enc y ++ q) = .item (val y) q
  ne_nil : enc y ≠ []

variable {F} {enc : Y → List B} {val : Y → X}

/-- A proper beginning of an encoding is not enough: any other answer would stand for the whole of it. -/
lemma Encodes.parse_take {y : Y} (h : F.Encodes enc val y) {n : Nat} (hn : n < (enc y).length) :
    F.parse ((enc y).take n) = .more := by
  have hwhole := h.parse []
  rw [append_nil, ← take_append_drop n (enc y)] at hwhole
  cases hparse : F.parse ((enc y).take n) with
  | more => rfl
  | bad =>
    rw [F.bad_append _ _ hparse] at hwhole
    cases hwhole
  | item x rest =>
    rw [F.item_append _ _ _ _ hparse] at hwhole
    injection hwhole with _ hrest
    have hlen := congrArg List.length hrest
    simp only [length_append, length_drop, length_nil] at hlen
    omega

/-- How many encodings are complete in the first `n` bytes, and what follows them. -/
def split (enc : Y → List B) : List Y → Nat → Nat × Nat
  | [], n => (0, n)
  | y :: ys, n =>
    if (enc y).length ≤ n then
      ((split enc ys (n - (enc y).length)).1 + 1, (split enc ys (n - (enc y).length)).2)
    else (0, n)

def pending (enc : Y → List B) (ys : List Y) (n : Nat) : Nat := (split enc ys n).2

variable {ys : List Y}

lemma drain_take (hys : ∀ y ∈ ys, F.Encodes enc val y) {n : Nat}
    (hn : n ≤ (ys.flatMap enc).length) :
    F.drain ((ys.flatMap enc).take n) = ((ys.take (split enc ys n).1).map val,
        some (((ys.drop (split enc ys n).1).flatMap enc).take (split enc ys n).2)) := by
  induction ys generalizing n with
  | nil => simpa [split] using drain_more F.parse_nil
  | cons y ys ih =>
    have hy := hys y (by simp)
    rw [split]
    by_cases hle : (enc y).length ≤ n
    · rw [if_pos hle, flatMap_cons, take_append, take_of_length_le hle, drain_item (hy.parse _)]
      rw [flatMap_cons, length_append] at hn
      rw [ih (fun y' h' => hys y' (by simp [h'])) (by omega)]
      simp
    rw [if_neg hle, flatMap_cons, take_append_of_le_length (by omega),
      drain_more (hy.parse_take (by omega))]
    simp [take_append_of_le_length (Nat.le_of_not_le hle)]

lemma split_bytes (enc : Y → List B) (ys : List Y) (n : Nat) :
    ((ys.take (split enc ys n).1).flatMap enc).length + (split enc ys n).2 = n := by
  induction ys generalizing n with
  | nil => simp [split]
  | cons y ys ih =>
    rw [split]
    split
    · have h := ih (n - (enc y).length)
      simp only [take_succ_cons, flatMap_cons, length_append]
      omega
    · simp

lemma split_add (enc : Y → List B) (ys : List Y) (n m : Nat) : split enc ys (n + m) =
      ((split enc ys n).1 + (split enc (ys.drop (split enc ys n).1) ((split enc ys n).2 + m)).1,
        (split enc (ys.drop (split enc ys n).1) ((split enc ys n).2 + m)).2) := by
  induction ys generalizing n with
  | nil => simp [split]
  | cons y ys ih =>
    by_cases hle : (enc y).length ≤ n
    · have h := ih (n - (enc y).length)
      have hsub : n + m - (enc y).length = n - (enc y).length + m := by omega
      have hn : split enc (y :: ys) n =
          ((split enc ys (n - (enc y).length)).1 + 1, (split enc ys (n - (enc y).length)).2) := by
        rw [split, if_pos hle]
      rw [hn]
      rw [split, if_pos (by omega), hsub, h]
      simp only [drop_succ_cons, Nat.add_right_comm]
    have hn : split enc (y :: ys) n = (0, n) := by rw [split, if_neg hle]
    rw [hn]
    simp

lemma split_length (enc : Y → List B) (ys : List Y) :
    split enc ys (ys.flatMap enc).length = (ys.length, 0) := by
  induction ys with
  | nil => rfl
  | cons y ys ih =>
    rw [split, flatMap_cons, length_append, if_pos (by omega), Nat.add_sub_cancel_left, ih]
    rfl

end Framing

end Lib
