import Cetcd.Rpc.Requests

/-!
# Permission intervals

`cetcd_auth_perm_covers` with its `memcmp`, against the range of the store. A prefix is the interval
up to the end that `cetcd_key_prefix_end` gives.
-/

namespace Cetcd.Auth

open Mvcc List

/-- `memcmp` of the first `n` bytes. -/
def memcmp : Nat → Key → Key → Int
  | n + 1, a :: as, b :: bs => if a = b then memcmp n as bs else (a.toNat : Int) - b.toNat
  | _, _, _ => 0

def authPrefixMatch (pre key : Key) : Bool :=
  if pre.length = 0 then true
  else if key.length < pre.length then false
  else memcmp pre.length key pre = 0

def authPermCovers (key lo hi : Key) : Bool :=
  let c := memcmp (min key.length hi.length) key hi
  let d := memcmp (min key.length lo.length) key lo
  if hi.length = 0 then authPrefixMatch lo key
  else if hi ≠ [0] ∧ (0 < c ∨ c = 0 ∧ hi.length ≤ key.length) then false
  else if 0 < lo.length ∧ (d < 0 ∨ d = 0 ∧ key.length < lo.length) then false
  else true

def keyInRange (key lo hi : Key) : Bool :=
  let c := memcmp (min key.length lo.length) key lo
  let d := memcmp (min key.length hi.length) key hi
  if 0 < lo.length ∧ (c < 0 ∨ c = 0 ∧ key.length < lo.length) then false
  else if 0 < hi.length ∧ (0 < d ∨ d = 0 ∧ hi.length ≤ key.length) then false
  else true

/-- The loop of `cetcd_key_prefix_end`, over the bytes from the last one back. -/
def prefixEndLoop : List UInt8 → Option Key
  | [] => none
  | b :: back => if b < 0xff then some ((b + 1) :: back).reverse else prefixEndLoop back

/-- `cetcd_key_prefix_end`: a zero byte if there is no end, and nothing if there is no room. -/
def keyPrefixEnd (outCap : Nat) (key : Key) : Key :=
  if outCap = 0 ∨ outCap < key.length then [] else (prefixEndLoop key.reverse).getD [0]

lemma memcmp_lt (a b : Key) : a < b ↔ memcmp (min a.length b.length) a b < 0 ∨
    memcmp (min a.length b.length) a b = 0 ∧ a.length < b.length := by
  induction a generalizing b with
  | nil => cases b <;> simp [memcmp]
  | cons x xs ih =>
    cases b with
    | nil => simp [memcmp]
    | cons y ys =>
      rw [cons_lt_cons_iff, length_cons, length_cons, Nat.add_min_add_right, memcmp, ih ys]
      grind [UInt8.lt_iff_toNat_lt, UInt8.toNat_inj]

lemma authPrefixMatch_iff (p key : Key) : authPrefixMatch p key ↔ p <+: key := by
  unfold authPrefixMatch
  induction p generalizing key with
  | nil => simp
  | cons a as ih =>
    cases key with
    | nil => simp
    | cons k ks =>
      rw [cons_prefix_cons, ← ih, length_cons, length_cons, memcmp]
      grind [UInt8.toNat_inj, memcmp]

lemma prefixEndLoop_append (a : UInt8) (xs : Key) : prefixEndLoop (xs ++ [a]) =
    match prefixEndLoop xs with
    | some e => some (a :: e)
    | none => if a < 0xff then some [a + 1] else none := by
  induction xs with
  | nil => rfl
  | cons b xs ih =>
    by_cases hb : b < 0xff <;> simp [prefixEndLoop, hb, ih]

lemma prefixEndLoop_ne {xs e : Key} (h : prefixEndLoop xs = some e) :
    e ≠ [] ∧ e ≠ [0] := by
  induction xs with
  | nil => cases h
  | cons b xs ih =>
    rw [prefixEndLoop] at h
    split_ifs at h with hb
    · cases h
      have hzero : b + 1 ≠ 0 := by grind
      refine ⟨by simp, fun hlast => ?_⟩
      simpa [hzero] using congrArg getLast? hlast
    · exact ih h

lemma prefix_iff_lt (p key : Key) :
    p <+: key ↔ ¬ key < p ∧ ∀ e, prefixEndLoop p.reverse = some e → key < e := by
  induction p generalizing key with
  | nil => simp [prefixEndLoop]
  | cons a as ih =>
    cases key with
    | nil => simp
    | cons k ks =>
      rw [reverse_cons, prefixEndLoop_append, cons_prefix_cons, ih, cons_lt_cons_iff]
      cases hend : prefixEndLoop as.reverse with
      | some e =>
        simp [cons_lt_cons_iff]
        grind
      | none =>
        by_cases ha : a < 0xff <;> simp [ha, cons_lt_cons_iff]
        all_goals grind

lemma keyInRange_eq (key lo hi : Key) : keyInRange key lo hi = inRange lo hi key := by
  unfold keyInRange inRange
  have h1 := memcmp_lt key hi
  have h2 := memcmp_lt key lo
  have h3 := @not_lt _ _ key lo
  have h4 := @length_eq_zero_iff _ hi
  have hnil : lo.length = 0 → ¬ key < lo := fun h => length_eq_zero_iff.1 h ▸ not_lt_nil key
  grind

theorem perm_covers_range (key lo hi : Key) :
    (hi ≠ [] → authPermCovers key lo hi = keyInRange key lo (openEnd hi) ∧
      ∀ s g, (key, g) ∈ s.index.entries →
        (authPermCovers key lo hi ↔ (key, g) ∈ mvccRange s lo hi)) ∧
      (authPermCovers key lo [] ↔ lo <+: key) ∧
      ∀ cap, 0 < cap → lo.length ≤ cap →
        (lo <+: key ↔ inRange lo (openEnd (keyPrefixEnd cap lo)) key) := by
  refine ⟨fun hhi => ?_, authPrefixMatch_iff lo key, fun cap hcap hlen => ?_⟩
  · have hcovers : authPermCovers key lo hi = keyInRange key lo (openEnd hi) := by
      unfold authPermCovers keyInRange openEnd
      grind
    refine ⟨hcovers, fun s g hmem => ?_⟩
    rw [hcovers, keyInRange_eq, mvccRange, mem_filter, and_iff_right hmem]
  · unfold keyPrefixEnd
    rw [if_neg (by omega), prefix_iff_lt]
    unfold inRange openEnd
    cases hend : prefixEndLoop lo.reverse with
    | none => simp
    | some e => simp [prefixEndLoop_ne hend]

end Cetcd.Auth
