import Cetcd.Lib.Bytes

/-!
# Varints read without checks

A reader that takes what is there: it stops at the end of the bytes instead of failing, and bits
past the width are lost. On what the writer wrote it agrees with the strict reader.
-/

namespace Lib

/-- The groups below `shift` are collected in `v`, a number of `w` bits. -/
def readLaxLoop (w : Nat) : List UInt8 → Nat → Nat → Nat × List UInt8
  | [], _, v => (v, [])
  | b :: bs, shift, v =>
    let v' := v ||| (b.toNat % 128) * 2 ^ shift % 2 ^ w
    if b.toNat < 128 then (v', bs) else readLaxLoop w bs (shift + 7) v'

def readLax (w : Nat) (bs : List UInt8) : Nat × List UInt8 := readLaxLoop w bs 0 0

variable {v w fuel v' : Nat}

lemma readLaxLoop_of_strict {bs rest : Bytes} {shift acc : Nat}
    (h : readVarintLoop bs shift acc = some (v, rest)) :
    readLaxLoop 64 bs shift acc = (v, rest) := by
  induction bs generalizing shift acc with
  | nil => simp [readVarintLoop] at h
  | cons b bs ih =>
    rw [readVarintLoop] at h
    rw [readLaxLoop]
    split at h
    · cases h
    dsimp only at h ⊢
    split at h
    · rename_i hlast
      rw [if_pos hlast]
      cases h
      rfl
    rename_i hmore
    rw [if_neg hmore]
    exact ih h

lemma readLaxLoop_mod (hw : w ≤ 64) (bs : Bytes) (shift acc : Nat) :
    readLaxLoop w bs shift (acc % 2 ^ w) =
      ((readLaxLoop 64 bs shift acc).1 % 2 ^ w, (readLaxLoop 64 bs shift acc).2) := by
  induction bs generalizing shift acc with
  | nil => rfl
  | cons b bs ih =>
    have hor : acc % 2 ^ w ||| b.toNat % 128 * 2 ^ shift % 2 ^ w =
        (acc ||| b.toNat % 128 * 2 ^ shift % 2 ^ 64) % 2 ^ w := by
      rw [Nat.or_mod_two_pow, Nat.mod_mod_of_dvd _ (pow_dvd_pow 2 hw)]
    rw [readLaxLoop, readLaxLoop]
    rw [hor]
    split
    · rfl
    · exact ih _ _

lemma readLax_writeVarint (rest : Bytes) (hw : w ≤ 64) (hv : v < 2 ^ w) :
    readLax w (writeVarint v ++ rest) = (v, rest) := by
  have hv64 : v < 2 ^ 64 := hv.trans_le (Nat.pow_le_pow_right (by decide) hw)
  have hwide := readLaxLoop_of_strict (readVarint_writeVarint rest hv64)
  have h := readLaxLoop_mod hw (writeVarint v ++ rest) 0 0
  rw [hwide] at h
  simpa [readLax, Nat.mod_eq_of_lt hv] using h

lemma readLaxLoop_length (w : Nat) (bs : Bytes) (shift acc : Nat) :
    (readLaxLoop w bs shift acc).2.length ≤ bs.length := by
  induction bs generalizing shift acc with
  | nil => exact le_rfl
  | cons b bs ih =>
    rw [readLaxLoop]
    split
    · exact Nat.le_succ _
    · exact (ih _ _).trans (Nat.le_succ _)

lemma readLax_length (w : Nat) (bs : Bytes) : (readLax w bs).2.length ≤ bs.length :=
  readLaxLoop_length w bs 0 0

lemma length_writeVarintLoop_le_of_lt {n : Nat} (h : v < 128 ^ n) (hn : 0 < n) :
    (writeVarintLoop fuel v).length ≤ n := by
  induction fuel generalizing n v with
  | zero => exact zero_le
  | succ fuel ih =>
    rw [writeVarintLoop]
    split
    · exact hn
    rename_i hmore
    cases n with
    | zero => exact absurd hn (lt_irrefl 0)
    | succ n =>
      have hdiv : v / 128 < 128 ^ n := by
        rw [Nat.div_lt_iff_lt_mul (by decide), ← pow_succ]
        exact h
      have hpos : 0 < n := by
        obtain rfl | hpos := Nat.eq_zero_or_pos n
        · exact absurd (Nat.lt_one_iff.1 (by simpa using hdiv)) hmore
        · exact hpos
      exact Nat.succ_le_succ (ih hdiv hpos)

lemma length_writeVarint_le_five (h : v < 2 ^ 32) : (writeVarint v).length ≤ 5 :=
  length_writeVarintLoop_le_of_lt (h.trans (by norm_num)) (by decide)

lemma length_writeVarintLoop_mono (h : v ≤ v') :
    (writeVarintLoop fuel v).length ≤ (writeVarintLoop fuel v').length := by
  induction fuel generalizing v v' with
  | zero => exact le_rfl
  | succ fuel ih =>
    have hdiv : v / 128 ≤ v' / 128 := Nat.div_le_div_right h
    rw [writeVarintLoop, writeVarintLoop]
    by_cases hv' : v' / 128 = 0
    · rw [if_pos hv', if_pos (by omega)]
      exact le_rfl
    rw [if_neg hv']
    split
    · exact Nat.succ_le_succ zero_le
    · exact Nat.succ_le_succ (ih hdiv)

lemma readVarintLoop_lt {bs rest : Bytes} {shift acc : Nat}
    (h : readVarintLoop bs shift acc = some (v, rest)) (hacc : acc < 2 ^ shift) :
    ∃ k, bs.length = k + 1 + rest.length ∧ v < 2 ^ shift * 128 ^ (k + 1) := by
  induction bs generalizing shift acc with
  | nil => cases h
  | cons b bs ih =>
    rw [readVarintLoop] at h
    split at h
    · cases h
    have hgroup : (b.toNat % 128) * 2 ^ shift % 2 ^ 64 < 2 ^ (shift + 7) := by
      refine (Nat.mod_le _ _).trans_lt ?_
      rw [pow_add, mul_comm]
      exact Nat.mul_lt_mul_of_pos_left (Nat.mod_lt _ (by decide)) (Nat.two_pow_pos _)
    have hnext := Nat.or_lt_two_pow (hacc.trans (Nat.pow_lt_pow_right (by decide) (by omega))) hgroup
    dsimp only at h
    split at h
    · cases h
      exact ⟨0, by simp [Nat.add_comm], hnext.trans_eq (pow_add 2 shift 7)⟩
    obtain ⟨k, hlen, hlt⟩ := ih h hnext
    refine ⟨k + 1, by rw [List.length_cons, hlen]; omega, hlt.trans_eq ?_⟩
    rw [pow_add, pow_succ 128 (k + 1), mul_assoc, mul_comm (2 ^ 7)]
    rfl

/-- No other way to write a number is shorter. -/
lemma length_writeVarint_add_le {bs rest : Bytes} (h : readVarint bs = some (v, rest)) :
    (writeVarint v).length + rest.length ≤ bs.length := by
  obtain ⟨k, hlen, hlt⟩ := readVarintLoop_lt h (by decide)
  rw [pow_zero, one_mul] at hlt
  rw [hlen]
  exact Nat.add_le_add_right (length_writeVarintLoop_le_of_lt hlt (Nat.succ_pos k)) _

lemma length_writeVarint_mono (h : v ≤ v') : (writeVarint v).length ≤ (writeVarint v').length :=
  length_writeVarintLoop_mono h

end Lib
