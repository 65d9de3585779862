import Cetcd.Auth.Token

/-! # Base64url within its buffers -/

namespace Cetcd.Auth

open Lib Rpc List

/-- Writes, each behind a test of the room; the flag says that all were made. -/
def b64urlStore (cap : Nat) : List UInt8 → List (List UInt8) → Bool × List UInt8
  | out, [] => (true, out)
  | out, c :: cs =>
    if cap < out.length + c.length then (false, out) else b64urlStore cap (out ++ c) cs

/-- What the loop of `b64url_encode_` writes behind one test. -/
def b64urlChunks : List UInt8 → List (List UInt8)
  | a :: b :: c :: d :: rest => [a, b] :: [c] :: [d] :: b64urlChunks rest
  | [a, b, c] => [[a, b], [c]]
  | [a, b] => [[a, b]]
  | _ => []

/-- The output of `b64url_encode_` and its return value. -/
def b64urlEncodeInto (cap : Nat) (bs : List UInt8) : List UInt8 × Nat :=
  match b64urlStore cap [] (b64urlChunks (b64urlEncode bs)) with
  | (true, out) => (if out.length < cap then out ++ [0] else out, out.length)
  | (false, out) => (out, 0)

/-- The end of the input without its padding; `none` is a read outside. -/
def b64urlTrim (bs : List UInt8) : Nat → Option Nat
  | 0 => some 0
  | n + 1 => bs[n]?.bind fun c => if c = 61 then b64urlTrim bs n else some (n + 1)

/-- The value at `i`, or `other` from the end `n` on; `none` is a read outside. -/
def b64urlRead (bs : List UInt8) (n i : Nat) (other : Option Nat) : Option (Option Nat) :=
  if i < n then bs[i]?.map b64urlVal else some other

/-- The bytes of the four characters from `i` on, or `some none` for an error. -/
def b64urlAt (bs : List UInt8) (n i : Nat) : Option (Option (List UInt8)) := do
  let a ← b64urlRead bs n i none
  let b ← b64urlRead bs n (i + 1) (some 0)
  let c ← b64urlRead bs n (i + 2) none
  let d ← b64urlRead bs n (i + 3) none
  some (a.bind fun a => b.map fun b => b64urlGroup a b c d)

/-- The loop of `b64url_decode_` -/
def b64urlDecodeLoop (bs : List UInt8) (cap n i : Nat) (out : List UInt8) :
    Option (Bool × List UInt8) :=
  if n ≤ i then some (true, out)
  else
    match b64urlAt bs n i with
    | none => none
    | some none => some (false, out)
    | some (some xs) =>
      match b64urlStore cap out (xs.map ([·])) with
      | (true, out) => b64urlDecodeLoop bs cap n (i + 4) out
      | (false, out) => some (false, out)
termination_by n - i

def b64urlDecodeInto (cap : Nat) (bs : List UInt8) : Option (Bool × List UInt8) :=
  (b64urlTrim bs bs.length).bind fun n => b64urlDecodeLoop bs cap n 0 []

/-- The bytes of the first four characters. -/
def b64urlFirst (s : List UInt8) : Option (List UInt8) :=
  ((s[0]?.map b64urlVal).getD none).bind fun a => ((s[1]?.map b64urlVal).getD (some 0)).map fun b =>
    b64urlGroup a b ((s[2]?.map b64urlVal).getD none) ((s[3]?.map b64urlVal).getD none)

variable {bs o x : Bytes} {cap n i : Nat}

lemma b64urlStore_length (cs : List Bytes) (ho : o.length ≤ cap) :
    (b64urlStore cap o cs).2.length ≤ cap := by
  induction cs generalizing o with
  | nil => exact ho
  | cons c cs ih =>
    unfold b64urlStore
    split
    · exact ho
    · exact ih (by rw [length_append]; omega)

lemma b64urlStore_fits (cs : List Bytes) (h : o.length + cs.flatten.length ≤ cap) :
    b64urlStore cap o cs = (true, o ++ cs.flatten) := by
  induction cs generalizing o with
  | nil => rw [flatten_nil, append_nil]; rfl
  | cons c cs ih =>
    rw [flatten_cons, length_append] at h
    unfold b64urlStore
    rw [if_neg (by omega), ih (by rw [length_append]; omega), flatten_cons, append_assoc]

lemma flatten_b64urlChunks (bs : Bytes) :
    (b64urlChunks (b64urlEncode bs)).flatten = b64urlEncode bs := by
  fun_induction b64urlEncode bs <;> simp_all [b64urlChunks]

lemma b64urlTrim_le (hn : n ≤ bs.length) : ∃ k, b64urlTrim bs n = some k ∧ k ≤ n := by
  induction n with
  | zero => exact ⟨0, rfl, le_rfl⟩
  | succ n ih =>
    unfold b64urlTrim
    rw [getElem?_eq_getElem hn, Option.bind_some]
    obtain ⟨k, hk, hle⟩ := ih (by omega)
    split
    · exact ⟨k, hk, by omega⟩
    · exact ⟨n + 1, rfl, le_rfl⟩

lemma b64urlTrim_eq (h : 61 ∉ bs) : b64urlTrim bs bs.length = some bs.length := by
  cases hn : bs.length with
  | zero => rfl
  | succ n =>
    have hlt : n < bs.length := by omega
    rw [b64urlTrim, getElem?_eq_getElem hlt, Option.bind_some, if_neg]
    intro heq
    exact h (heq ▸ getElem_mem hlt)

lemma b64urlAt_eq (hn : n ≤ bs.length) (i : Nat) :
    b64urlAt bs n i = some (b64urlFirst ((bs.take n).drop i)) := by
  have hread (k : Nat) (other : Option Nat) : b64urlRead bs n (i + k) other =
      some ((((bs.take n).drop i)[k]?.map b64urlVal).getD other) := by
    unfold b64urlRead
    rw [getElem?_drop, getElem?_take]
    split
    · rw [getElem?_eq_getElem (by omega)]
      rfl
    · rfl
  unfold b64urlAt b64urlFirst
  rw [show b64urlRead bs n i none = _ from hread 0 none, hread, hread, hread]
  rfl

lemma b64urlDecodeLoop_bounded (hn : n ≤ bs.length) (ho : o.length ≤ cap) :
    ∃ ok out, b64urlDecodeLoop bs cap n i o = some (ok, out) ∧ out.length ≤ cap := by
  fun_induction b64urlDecodeLoop bs cap n i o with
  | case1 => exact ⟨_, _, rfl, ho⟩
  | case2 i o _ hat =>
    rw [b64urlAt_eq hn] at hat
    cases hat
  | case3 => exact ⟨_, _, rfl, ho⟩
  | case4 i o _ xs _ out hst ih =>
    have hlen := b64urlStore_length (xs.map ([·])) ho
    rw [hst] at hlen
    exact ih hlen
  | case5 i o _ xs _ out hst =>
    have hlen := b64urlStore_length (xs.map ([·])) ho
    rw [hst] at hlen
    exact ⟨_, _, rfl, hlen⟩

lemma b64urlVal_char {v : Nat} (hv : v < 64) : b64urlVal (b64urlChar v) = some v :=
  (by decide +kernel : ∀ v < 64, b64urlVal (b64urlChar v) = some v) v hv

lemma ofNat_eq {a : UInt8} (h : n = a.toNat) : UInt8.ofNat n = a := by
  rw [h, UInt8.ofNat_toNat]

lemma b64urlFirst_encode (hx : x ≠ []) :
    b64urlFirst (b64urlEncode x) = some (x.take 3) ∧
      (b64urlEncode x).drop 4 = b64urlEncode (x.drop 3) := by
  have hbyte := UInt8.toNat_lt
  -- a last group of one or two bytes, or a full one
  match x with
  | [] => exact absurd rfl hx
  | [a] =>
    have ha := hbyte a
    refine ⟨?_, rfl⟩
    change (b64urlVal (b64urlChar _)).bind (fun a => (b64urlVal (b64urlChar _)).map fun b =>
      b64urlGroup a b none none) = _
    rw [b64urlVal_char (by omega), b64urlVal_char (by omega)]
    simp only [Option.bind_some, Option.map_some, b64urlGroup, Option.map_none]
    rw [ofNat_eq (a := a) (by omega)]
    rfl
  | [a, b] =>
    have ha := hbyte a
    have hb := hbyte b
    refine ⟨?_, rfl⟩
    change (b64urlVal (b64urlChar _)).bind (fun a => (b64urlVal (b64urlChar _)).map fun b =>
      b64urlGroup a b (b64urlVal (b64urlChar _)) none) = _
    rw [b64urlVal_char (by omega), b64urlVal_char (by omega), b64urlVal_char (by omega)]
    simp only [Option.bind_some, Option.map_some, b64urlGroup, Option.map_none]
    rw [ofNat_eq (a := a) (by omega), ofNat_eq (a := b) (by omega)]
    rfl
  | a :: b :: c :: rest =>
    have ha := hbyte a
    have hb := hbyte b
    have hc := hbyte c
    refine ⟨?_, rfl⟩
    change (b64urlVal (b64urlChar _)).bind (fun a => (b64urlVal (b64urlChar _)).map fun b =>
      b64urlGroup a b (b64urlVal (b64urlChar _)) (b64urlVal (b64urlChar _))) = _
    rw [b64urlVal_char (by omega), b64urlVal_char (by omega), b64urlVal_char (by omega),
      b64urlVal_char (by omega)]
    simp only [Option.bind_some, Option.map_some, b64urlGroup, Option.getD_some]
    rw [ofNat_eq (a := a) (by omega), ofNat_eq (a := b) (by omega), ofNat_eq (a := c) (by omega)]
    rfl

lemma b64urlDecodeLoop_encoded (hn : n ≤ bs.length) (hs : (bs.take n).drop i = b64urlEncode x)
    (hcap : o.length + x.length ≤ cap) :
    b64urlDecodeLoop bs cap n i o = some (true, o ++ x) := by
  -- one round reads four characters and writes the next three bytes
  induction hk : x.length using Nat.strong_induction_on generalizing i o x with
  | _ k ih =>
    rw [b64urlDecodeLoop]
    have hlen := congrArg length hs
    rw [length_drop, length_take_of_le hn] at hlen
    by_cases hx : x = []
    · rw [if_pos (by rw [hx] at hlen; exact Nat.sub_eq_zero_iff_le.1 hlen), hx, append_nil]
    have hpos := length_pos_iff.2 hx
    obtain ⟨hfirst, hrest⟩ := b64urlFirst_encode hx
    have hle := length_le_length_b64urlEncode x
    rw [if_neg (by omega), b64urlAt_eq hn, hs, hfirst]
    have hflat : ((x.take 3).map ([·])).flatten = x.take 3 := flatMap_singleton' _
    simp only
    rw [b64urlStore_fits _ (by rw [hflat, length_take]; omega), hflat]
    simp only
    rw [ih (x.drop 3).length (by rw [length_drop]; omega) (by rw [← drop_drop, hs, hrest]) (by
      rw [length_append, length_take, length_drop]; omega) rfl, append_assoc, take_append_drop]

/-- What is encoded is decoded, and both stay within their buffers. -/
theorem b64url_round_trip (x s : Bytes) (cap : Nat) :
    (b64urlEncodeInto cap x).1.length ≤ cap ∧
      ((b64urlEncode x).length ≤ cap → (b64urlEncodeInto cap x).2 = (b64urlEncode x).length ∧
        b64urlEncode x <+: (b64urlEncodeInto cap x).1) ∧
      (x.length ≤ cap → b64urlDecodeInto cap (b64urlEncode x) = some (true, x)) ∧
      ∃ ok out, b64urlDecodeInto cap s = some (ok, out) ∧ out.length ≤ cap := by
  refine ⟨?_, fun hcap => ?_, fun hcap => ?_, ?_⟩
  · have hlen := b64urlStore_length (b64urlChunks (b64urlEncode x))
      (show ([] : Bytes).length ≤ cap from Nat.zero_le _)
    unfold b64urlEncodeInto
    split
    all_goals
      rename_i hst
      rw [hst] at hlen
    · dsimp only
      split
      · rw [length_append]
        exact ‹_›
      · exact hlen
    · exact hlen
  · have hflat := flatten_b64urlChunks x
    unfold b64urlEncodeInto
    rw [b64urlStore_fits _ (by rw [hflat]; simpa using hcap), hflat]
    refine ⟨rfl, ?_⟩
    dsimp only
    split
    · exact prefix_append _ _
    · exact prefix_rfl
  · unfold b64urlDecodeInto
    rw [b64urlTrim_eq (b64urlEncode_no_special (.inr rfl) x), Option.bind_some]
    exact b64urlDecodeLoop_encoded le_rfl (by rw [take_length, drop_zero]) (by simpa using hcap)
  · obtain ⟨n, hn, hle⟩ := b64urlTrim_le (Nat.le_refl s.length)
    unfold b64urlDecodeInto
    rw [hn, Option.bind_some]
    exact b64urlDecodeLoop_bounded hle (Nat.zero_le _)

end Cetcd.Auth
