import Cetcd.Lib.Lax
import Cetcd.Mvcc.Backend

/-!
# The snapshot blob

`cetcd_snap_encode_kv` and `cetcd_snap_decode_kv`: keys and values, each behind its length. The
reader skips a file header if the bytes begin like one, and a blob can begin like one although the
writer never writes a header.
-/

namespace Cetcd.Snap

open Lib Mvcc List

/-- `cetcd_snap_entry`; its revision is not written. -/
structure SnapEntry where
  key : Key
  value : List UInt8
  deriving DecidableEq

def encodeField (bs : List UInt8) : List UInt8 := writeVarint bs.length ++ bs

def encodeEntry (e : SnapEntry) : List UInt8 := encodeField e.key ++ encodeField e.value

def encodeKv (es : List SnapEntry) : List UInt8 := es.flatMap encodeEntry

def maxField : Nat := 16 * 1024 * 1024

def readField (bs : List UInt8) : Option (List UInt8 × List UInt8) :=
  match readVarint bs with
  | none => none
  | some (n, rest) =>
    if rest.length < n ∨ maxField < n then none else some (rest.take n, rest.drop n)

/-- The loop of the reader; every round takes at least two bytes. -/
def readEntries : Nat → List UInt8 → Option (List SnapEntry)
  | _, [] => some []
  | 0, _ :: _ => none
  | fuel + 1, b :: bs =>
    match readField (b :: bs) with
    | none => none
    | some (key, bs1) =>
      match readField bs1 with
      | none => none
      | some (value, bs2) => (readEntries fuel bs2).map (⟨key, value⟩ :: ·)

/-- The four letters `CTS2` and `CTS1`. -/
def magic2 : List UInt8 := [67, 84, 83, 50]
def magic1 : List UInt8 := [67, 84, 83, 49]

def skipHeader (data : List UInt8) : Option (List UInt8) :=
  if 16 ≤ data.length ∧ data.take 4 = magic2 then some (data.drop 16)
  else if 12 ≤ data.length ∧ data.take 4 = magic1 then some (data.drop 12)
  else if 4 ≤ data.length ∧ data.length < 16 ∧ data.take 4 = magic2 then none
  else some data

def decodeKv (data : List UInt8) : Option (List SnapEntry) :=
  match skipHeader data with
  | none => none
  | some bs => readEntries bs.length bs

/-! ## Round trip -/

/-- A row that the reader takes. -/
def SnapEntry.Fits (e : SnapEntry) : Prop := e.key.length ≤ maxField ∧ e.value.length ≤ maxField

instance (e : SnapEntry) : Decidable e.Fits := inferInstanceAs (Decidable (_ ∧ _))

/-- The bytes do not begin like a snapshot file. -/
def Headless (data : List UInt8) : Prop := data.take 4 ≠ magic2 ∧ data.take 4 ≠ magic1
  deriving Decidable

section

variable {es : List SnapEntry}

lemma skipHeader_headless {data : Bytes} (h : Headless data) :
    skipHeader data = some data := by
  unfold skipHeader
  rw [if_neg fun hm => h.1 hm.2, if_neg fun hm => h.2 hm.2, if_neg fun hm => h.1 hm.2.2]

lemma readField_encodeField {bs : Bytes} (rest : Bytes) (h : bs.length ≤ maxField) :
    readField (encodeField bs ++ rest) = some (bs, rest) := by
  have hlt : bs.length < 2 ^ 64 := h.trans_lt (by decide)
  have hfits : ¬ ((bs ++ rest).length < bs.length ∨ maxField < bs.length) := by
    rw [length_append]
    omega
  unfold readField encodeField
  rw [append_assoc, readVarint_writeVarint _ hlt]
  dsimp only
  rw [if_neg hfits, take_left, drop_left]

lemma length_encodeField_pos (bs : Bytes) : 0 < (encodeField bs).length := by
  unfold encodeField
  rw [length_append]
  exact Nat.add_pos_left (length_writeVarint_pos _) _

lemma encodeKv_cons (e : SnapEntry) (es : List SnapEntry) :
    encodeKv (e :: es) = encodeField e.key ++ (encodeField e.value ++ encodeKv es) := by
  unfold encodeKv
  rw [flatMap_cons, encodeEntry, append_assoc]

lemma encodeKv_eq_nil : encodeKv es = [] ↔ es = [] := by
  constructor
  · intro h
    cases es with
    | nil => rfl
    | cons e es =>
      rw [encodeKv_cons, append_eq_nil_iff] at h
      exact absurd (congrArg List.length h.1) (length_encodeField_pos e.key).ne'
  rintro rfl
  rfl

lemma readEntries_encodeKv {fuel : Nat} (hfits : ∀ e ∈ es, e.Fits)
    (hfuel : (encodeKv es).length ≤ fuel) : readEntries fuel (encodeKv es) = some es := by
  induction es generalizing fuel with
  | nil => cases fuel <;> rfl
  | cons e es ih =>
    rw [forall_mem_cons] at hfits
    have hpos := length_encodeField_pos e.key
    rw [encodeKv_cons] at hfuel ⊢
    have hlen : (encodeKv es).length + 1 ≤ fuel := by
      rw [length_append, length_append] at hfuel
      omega
    have hread := readField_encodeField (encodeField e.value ++ encodeKv es) hfits.1.1
    cases fuel with
    | zero => exact absurd hlen (Nat.not_succ_le_zero _)
    | succ fuel =>
      cases hbytes : encodeField e.key ++ (encodeField e.value ++ encodeKv es) with
      | nil =>
        rw [append_eq_nil_iff] at hbytes
        exact absurd (congrArg List.length hbytes.1) hpos.ne'
      | cons b bs =>
        rw [hbytes] at hread
        rw [readEntries, hread]
        dsimp only
        rw [readField_encodeField _ hfits.1.2]
        dsimp only
        rw [ih hfits.2 (Nat.succ_le_succ_iff.1 hlen)]
        rfl

lemma decodeKv_encodeKv (hfits : ∀ e ∈ es, e.Fits) (hhead : Headless (encodeKv es)) :
    decodeKv (encodeKv es) = some es := by
  unfold decodeKv
  rw [skipHeader_headless hhead]
  exact readEntries_encodeKv hfits le_rfl

lemma length_encodeField_add_le {f bs rest : Bytes} (h : readField bs = some (f, rest)) :
    (encodeField f).length + rest.length ≤ bs.length := by
  unfold readField at h
  split at h
  · cases h
  rename_i n bs' hn
  split at h
  · cases h
  rename_i hfits
  cases h
  have hlen : (bs'.take n).length = n := length_take_of_le (by omega)
  have hwritten := length_writeVarint_add_le hn
  unfold encodeField
  rw [length_append, hlen, length_drop]
  omega

lemma length_encodeKv_le {fuel : Nat} {bs : Bytes} (h : readEntries fuel bs = some es) :
    (encodeKv es).length ≤ bs.length := by
  fun_induction readEntries fuel bs generalizing es with
  | case1 =>
    cases h
    exact zero_le
  | case5 fuel b bs key bs1 hkey value bs2 hvalue ih =>
    obtain ⟨es', hes, rfl⟩ := Option.map_eq_some_iff.1 h
    have h1 := length_encodeField_add_le hkey
    have h2 := length_encodeField_add_le hvalue
    have h3 := ih hes
    rw [encodeKv_cons, length_append, length_append]
    dsimp only
    omega
  | _ => cases h

/-- A first letter `C` is the length of a key of 67 bytes. -/
lemma length_of_letter {data : Bytes} {x : Bytes × Bytes}
    (h : readField (67 :: data) = some x) : 67 ≤ data.length := by
  by_contra hshort
  unfold readField at h
  rw [show readVarint (67 :: data) = some (67, data) from rfl] at h
  dsimp only at h
  rw [if_pos (.inl (by omega))] at h
  cases h

lemma length_skipHeader {data bs : Bytes} (hlen : 16 ≤ data.length) (hhead : ¬ Headless data)
    (h : skipHeader data = some bs) : bs.length < data.length := by
  unfold skipHeader at h
  split_ifs at h with h2 h1
  · cases h
    rw [length_drop]
    omega
  · cases h
    rw [length_drop]
    omega
  exact absurd ⟨fun hm => h2 ⟨hlen, hm⟩, fun hm => h1 ⟨by omega, hm⟩⟩ hhead

end

/-- The first key is not one of 67 bytes that goes on like the magic numbers, whose first letter is
then its length. -/
def FirstKeyPlain (es : List SnapEntry) : Prop :=
  ∀ e ∈ es.head?, e.key.length = 67 → e.key.take 3 ≠ magic2.tail ∧ e.key.take 3 ≠ magic1.tail

lemma writeVarint_letter (n : Nat) :
    ∃ b tail, writeVarint n = b :: tail ∧ (b = 67 ↔ n = 67) ∧ (n = 67 → tail = []) := by
  unfold writeVarint writeVarintLoop
  split
  · refine ⟨_, [], rfl, ⟨fun hb => ?_, by rintro rfl; rfl⟩, fun _ => rfl⟩
    have hnat := congrArg UInt8.toNat hb
    simp only [UInt8.toNat_ofNat', UInt8.reduceToNat] at hnat
    omega
  · refine ⟨_, _, rfl, ⟨fun hb => ?_, fun hn => by omega⟩, fun hn => by omega⟩
    have hnat := congrArg UInt8.toNat hb
    simp only [UInt8.toNat_ofNat', UInt8.reduceToNat] at hnat
    omega

lemma headless_encodeKv {es : List SnapEntry} : Headless (encodeKv es) ↔ FirstKeyPlain es := by
  cases es with
  | nil => simp [encodeKv, Headless, magic1, magic2, FirstKeyPlain]
  | cons e es =>
    obtain ⟨b, tail, hvarint, hb, htail⟩ := writeVarint_letter e.key.length
    unfold Headless FirstKeyPlain
    rw [encodeKv_cons, encodeField, hvarint]
    simp only [cons_append, take_succ_cons, magic1, magic2, ne_eq, cons.injEq, head?_cons,
      Option.mem_some_iff, forall_eq', hb, not_and, tail_cons]
    by_cases hlen : e.key.length = 67
    · rw [htail hlen, nil_append, take_append_of_le_length (by omega)]
      simp [hlen]
    · simp [hlen]

/-- The context of a SNAP message is read as written exactly if its first key does not make it look
like a snapshot file. -/
theorem snap_context_round_trip {es : List SnapEntry} (hfits : ∀ e ∈ es, e.Fits) :
    decodeKv (encodeKv es) = some es ↔ FirstKeyPlain es := by
  rw [← headless_encodeKv]
  refine ⟨fun h => ?_, decodeKv_encodeKv hfits⟩
  by_contra hhead
  have hletter : ∃ tail, encodeKv es = 67 :: tail := by
    unfold Headless at hhead
    rw [not_and_or, not_not, not_not] at hhead
    obtain hm | hm := hhead
    all_goals
      cases hdata : encodeKv es with
      | nil =>
        rw [hdata] at hm
        cases hm
      | cons b tail =>
        rw [hdata] at hm
        exact ⟨tail, congrArg (· :: tail) (cons.inj hm).1⟩
  obtain ⟨tail, hdata⟩ := hletter
  have hlen : 67 ≤ tail.length := by
    cases es with
    | nil => cases hdata
    | cons e es =>
      rw [encodeKv_cons] at hdata
      have hread := readField_encodeField (encodeField e.value ++ encodeKv es)
        (hfits e mem_cons_self).1
      rw [hdata] at hread
      exact length_of_letter hread
  -- behind the header there are fewer bytes than the rows take
  unfold decodeKv at h
  split at h
  · cases h
  rename_i bs hskip
  have hshort := length_skipHeader (by rw [hdata, length_cons]; omega) hhead hskip
  exact absurd (length_encodeKv_le h) (not_le.2 hshort)

theorem snap_context_round_trip_short : decodeKv (encodeKv [⟨[67, 84, 83, 50], [1]⟩]) =
    some [⟨[67, 84, 83, 50], [1]⟩] :=
  (snap_context_round_trip (by decide)).2 (by simp [FirstKeyPlain])

/-- A first key of 67 bytes that begins with `TS2` is taken for a header. -/
theorem snap_context_lost : ∃ key : Key, key.length = 67 ∧
    decodeKv (encodeKv [⟨key, [1]⟩]) ≠ some [⟨key, [1]⟩] :=
  ⟨[84, 83, 50] ++ List.replicate 64 0, by decide, by decide +kernel⟩

end Cetcd.Snap
