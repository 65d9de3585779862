import Mathlib.Tactic
import Mathlib.Data.List.TakeWhile

/-!
# Numbers as bytes

Little-endian words of a fixed width, base-128 varints of 64-bit numbers, and the part of a buffer
in front of its first zero byte.
-/

namespace Lib

open List

abbrev Bytes := List UInt8

def leBytes : Nat → Nat → List UInt8
  | 0, _ => []
  | n + 1, v => UInt8.ofNat (v % 256) :: leBytes n (v / 256)

def readLe : List UInt8 → Nat
  | [] => 0
  | b :: bs => b.toNat + 256 * readLe bs

@[simp] lemma length_leBytes (n v : Nat) : (leBytes n v).length = n := by
  induction n generalizing v with
  | zero => rfl
  | succ n ih => simp [leBytes, ih]

variable {n v shift acc : Nat} {bs rest : Bytes}

lemma toNat_ofNat_of_lt (h : n < 256) : (UInt8.ofNat n).toNat = n := by
  rw [UInt8.toNat_ofNat']
  exact Nat.mod_eq_of_lt h

lemma readLe_leBytes (h : v < 256 ^ n) : readLe (leBytes n v) = v := by
  induction n generalizing v with
  | zero =>
    rw [pow_zero] at h
    exact (Nat.lt_one_iff.1 h).symm
  | succ n ih =>
    have hdiv : v / 256 < 256 ^ n := by
      rw [Nat.div_lt_iff_lt_mul (by decide), ← pow_succ]
      exact h
    rw [leBytes, readLe, ih hdiv, toNat_ofNat_of_lt (Nat.mod_lt _ (by decide))]
    exact Nat.mod_add_div v 256

lemma readLe_append (a b : Bytes) :
    readLe (a ++ b) = readLe a + 256 ^ a.length * readLe b := by
  induction a with
  | nil => simp [readLe]
  | cons x a ih =>
    rw [cons_append, readLe, readLe, ih, length_cons, pow_succ]
    ring

lemma readLe_lt (a : Bytes) : readLe a < 256 ^ a.length := by
  induction a with
  | nil => simp [readLe]
  | cons x a ih =>
    have hx : x.toNat < 256 := x.toNat_lt
    rw [readLe, length_cons, pow_succ]
    omega

/-- The loop of the writer; `fuel` bounds the number of groups. -/
def writeVarintLoop : Nat → Nat → List UInt8
  | 0, _ => []
  | fuel + 1, v =>
    if v / 128 = 0 then [UInt8.ofNat (v % 128)]
    else UInt8.ofNat (v % 128 + 128) :: writeVarintLoop fuel (v / 128)

/-- A 64-bit number has at most ten groups of seven bits. -/
def writeVarint (v : Nat) : List UInt8 := writeVarintLoop 10 v

/-- The loop of the reader: the groups below `shift` are collected in `v`. -/
def readVarintLoop : List UInt8 → Nat → Nat → Option (Nat × List UInt8)
  | [], _, _ => none
  | b :: bs, shift, v =>
    if 64 ≤ shift then none
    else
      let v' := v ||| (b.toNat % 128) * 2 ^ shift % 2 ^ 64
      if b.toNat < 128 then some (v', bs) else readVarintLoop bs (shift + 7) v'

def readVarint (bs : List UInt8) : Option (Nat × List UInt8) := readVarintLoop bs 0 0

lemma lor_shifted {g : Nat} (hv : v < 2 ^ shift) : v ||| g * 2 ^ shift = v + g * 2 ^ shift := by
  have h := Nat.two_pow_add_eq_or_of_lt hv g
  rw [Nat.or_comm, mul_comm g, ← h, add_comm]

lemma readVarint_byte {b : UInt8} (h : b.toNat < 128) (bs : Bytes) :
    readVarint (b :: bs) = some (b.toNat, bs) := by
  unfold readVarint
  rw [readVarintLoop, if_neg (by decide)]
  dsimp only
  rw [if_pos h, Nat.mod_eq_of_lt h, pow_zero, mul_one, Nat.mod_eq_of_lt (by omega), Nat.zero_or]

lemma readVarintLoop_write {fuel : Nat} (rest : Bytes) (hfuel : v < 128 ^ fuel)
    (hpos : 0 < fuel) (hshift : shift < 64) (hacc : acc < 2 ^ shift)
    (hfit : acc + v * 2 ^ shift < 2 ^ 64) :
    readVarintLoop (writeVarintLoop fuel v ++ rest) shift acc = some (acc + v * 2 ^ shift, rest) := by
  induction fuel generalizing v shift acc with
  | zero => exact absurd hpos (lt_irrefl 0)
  | succ fuel ih =>
    have hpow : 0 < 2 ^ shift := Nat.two_pow_pos shift
    have hgroup : v % 128 * 2 ^ shift < 2 ^ 64 :=
      (Nat.mul_le_mul_right _ (Nat.mod_le v 128)).trans_lt (by omega)
    have hor : acc ||| v % 128 * 2 ^ shift = acc + v % 128 * 2 ^ shift := lor_shifted hacc
    rw [writeVarintLoop]
    by_cases hlast : v / 128 = 0
    · have hsmall : v % 128 = v := Nat.mod_eq_of_lt (by omega)
      rw [if_pos hlast, singleton_append, readVarintLoop, if_neg (by omega),
        toNat_ofNat_of_lt (by omega), Nat.mod_mod, Nat.mod_eq_of_lt hgroup, if_pos (by omega), hor,
        hsmall]
    have hbyte : (v % 128 + 128) % 128 = v % 128 := by omega
    -- another group follows, so it still fits below bit 64
    have hsplit : acc + v * 2 ^ shift = acc + v % 128 * 2 ^ shift + v / 128 * 2 ^ (shift + 7) := by
      have hv : v * 2 ^ shift = (v % 128 + 128 * (v / 128)) * 2 ^ shift := by
        rw [Nat.mod_add_div]
      rw [hv, pow_add]
      ring
    have hnext : shift + 7 < 64 := by
      by_contra hge
      have hle : 2 ^ 64 ≤ 2 ^ (shift + 7) := Nat.pow_le_pow_right (by decide) (by omega)
      have hone : 2 ^ (shift + 7) ≤ v / 128 * 2 ^ (shift + 7) :=
        Nat.le_mul_of_pos_left _ (Nat.pos_of_ne_zero hlast)
      omega
    have hacc' : acc + v % 128 * 2 ^ shift < 2 ^ (shift + 7) := by
      have hle : v % 128 * 2 ^ shift ≤ 127 * 2 ^ shift :=
        Nat.mul_le_mul_right _ (by omega)
      have hpow7 : 2 ^ (shift + 7) = 128 * 2 ^ shift := by
        rw [pow_add]
        ring
      omega
    have hfuel' : v / 128 < 128 ^ fuel := by
      rw [Nat.div_lt_iff_lt_mul (by decide), ← pow_succ]
      exact hfuel
    have hpos' : 0 < fuel := by
      obtain rfl | h := Nat.eq_zero_or_pos fuel
      · exact absurd (Nat.lt_one_iff.1 (by simpa using hfuel')) hlast
      · exact h
    rw [if_neg hlast, cons_append, readVarintLoop, if_neg (by omega),
      toNat_ofNat_of_lt (by omega), hbyte, Nat.mod_eq_of_lt hgroup, if_neg (by omega), hor,
      ih hfuel' hpos' hnext hacc' (by omega), hsplit]

lemma readVarint_writeVarint (rest : Bytes) (hv : v < 2 ^ 64) :
    readVarint (writeVarint v ++ rest) = some (v, rest) := by
  have h : readVarintLoop (writeVarintLoop 10 v ++ rest) 0 0 = some (0 + v * 2 ^ 0, rest) :=
    readVarintLoop_write rest (hv.trans (by norm_num)) (by decide) (by decide) (by decide)
      (by simpa using hv)
  rw [zero_add, pow_zero, mul_one] at h
  exact h

lemma length_writeVarintLoop_le (fuel v : Nat) : (writeVarintLoop fuel v).length ≤ fuel := by
  induction fuel generalizing v with
  | zero => exact le_rfl
  | succ fuel ih =>
    rw [writeVarintLoop]
    split
    · simp
    · simpa using ih (v / 128)

lemma length_writeVarint_le (v : Nat) : (writeVarint v).length ≤ 10 :=
  length_writeVarintLoop_le 10 v

lemma length_writeVarint_pos (v : Nat) : 1 ≤ (writeVarint v).length := by
  unfold writeVarint
  rw [writeVarintLoop]
  split
  all_goals simp

lemma readVarintLoop_length (h : readVarintLoop bs shift acc = some (v, rest)) :
    rest.length < bs.length := by
  induction bs generalizing shift acc with
  | nil => cases h
  | cons b bs ih =>
    rw [readVarintLoop] at h
    split at h
    · cases h
    dsimp only at h
    split at h
    · cases h
      simp
    · exact (ih h).trans (by simp)

lemma readVarint_length (h : readVarint bs = some (v, rest)) : rest.length < bs.length :=
  readVarintLoop_length h

def int64 (n : Nat) : Int64 := (UInt64.ofNat n).toInt64

lemma int64_toUInt64 (n : Int64) : int64 n.toUInt64.toNat = n := by simp [int64]

def cString (bs : List UInt8) : List UInt8 := bs.takeWhile (· ≠ 0)

lemma cString_eq_self_iff : cString bs = bs ↔ 0 ∉ bs := by
  unfold cString
  rw [takeWhile_eq_self_iff]
  constructor
  · intro h hzero
    simpa using h 0 hzero
  intro h b hb
  simp only [ne_eq, decide_eq_true_eq]
  rintro rfl
  exact h hb

lemma length_cString_le (bs : Bytes) : (cString bs).length ≤ bs.length :=
  (takeWhile_sublist _).length_le

lemma zero_notMem_cString (bs : Bytes) : 0 ∉ cString bs := by
  intro h
  simpa using mem_takeWhile_imp h

end Lib
