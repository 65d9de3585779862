import Cetcd.Raft.Types
import Cetcd.Wal.Record

/-!
# What a record holds

The data of a record is a message: an entry, a hard state or the mark of a snapshot. The decoders
take the fields in any order and skip those they do not know; one that fails has set the fields it
read before.
-/

namespace Cetcd.Wal

open Lib Raft List

section

variable {S : Type}

/-- What a decoder has set, and whether it came to the end. The length is fuel enough. -/
def fieldLoop (read : S → List UInt8 → Option (S × List UInt8)) : Nat → S → List UInt8 → S × Bool
  | _, s, [] => (s, true)
  | 0, s, _ :: _ => (s, false)
  | fuel + 1, s, b :: bs =>
    match read s (b :: bs) with
    | none => (s, false)
    | some (s', rest) => fieldLoop read fuel s' rest

/-- A field of the decoders that know numbers only. -/
def numberField (set : Nat → Nat → S → S) (s : S) (bs : List UInt8) : Option (S × List UInt8) :=
  match readVarint bs with
  | none => none
  | some (tag, bs) =>
    if tag % 8 ≠ 0 then none
    else
      match readVarint bs with
      | none => none
      | some (v, bs) => some (set (tag / 8) v s, bs)

variable {read : S → Bytes → Option (S × Bytes)} {s s' : S} {bs rest : Bytes}
  {fuel : Nat}

lemma fieldLoop_nil (fuel : Nat) : fieldLoop read fuel s [] = (s, true) := by
  cases fuel <;> rfl

lemma fieldLoop_step (h : read s bs = some (s', rest)) (hne : bs ≠ []) :
    fieldLoop read (fuel + 1) s bs = fieldLoop read fuel s' rest := by
  cases bs with
  | nil => exact absurd rfl hne
  | cons b bs => rw [fieldLoop, h]

lemma numberField_write (set : Nat → Nat → S → S) {tag : UInt8} {v : Nat}
    (htag : tag.toNat < 128) (hwire : tag.toNat % 8 = 0) (hv : v < 2 ^ 64) :
    numberField set s (tag :: (writeVarint v ++ rest)) = some (set (tag.toNat / 8) v s, rest) := by
  unfold numberField
  rw [readVarint_byte htag]
  dsimp only
  rw [if_neg (not_not.2 hwire), readVarint_writeVarint rest hv]

end

/-- A record with its checksum, as the three encoders build it. -/
def checked (type : RecType) (data : List UInt8) : WalRecord :=
  { type := type, crc := crc32c 0 data, data := data }

lemma seal_checked (type : RecType) (data : Bytes) :
    (checked type data).seal = checked type data := by
  unfold WalRecord.seal
  split
  all_goals rfl

def stateBytes (hs : HardState) : List UInt8 :=
  0x08 :: (writeVarint hs.term ++ 0x10 :: (writeVarint hs.vote ++ 0x18 :: writeVarint hs.commit))

def encodeHardState (hs : HardState) : WalRecord := checked .state (stateBytes hs)

def setState (field v : Nat) (hs : HardState) : HardState :=
  if field = 1 then { hs with term := v }
  else if field = 2 then { hs with vote := v }
  else if field = 3 then { hs with commit := v }
  else hs

/-- `cetcd_wal_decode_hard_state`: what `out` holds, and whether it returned zero. -/
def decodeHardState (data : List UInt8) : HardState × Bool :=
  fieldLoop (numberField setState) data.length {} data

def StateFits (hs : HardState) : Prop := hs.term < 2 ^ 64 ∧ hs.vote < 2 ^ 64 ∧ hs.commit < 2 ^ 64

lemma decodeHardState_stateBytes {hs : HardState} (h : StateFits hs) :
    decodeHardState (stateBytes hs) = (hs, true) := by
  have hfuel : 3 ≤ (stateBytes hs).length := by
    unfold stateBytes
    simp only [length_cons, length_append]
    omega
  obtain ⟨n, hn⟩ := Nat.exists_eq_add_of_le' hfuel
  have hlast : writeVarint hs.commit = writeVarint hs.commit ++ [] := (append_nil _).symm
  unfold decodeHardState
  rw [hn]
  unfold stateBytes
  rw [fieldLoop_step (numberField_write setState (by decide) (by decide) h.1) (by simp),
    fieldLoop_step (numberField_write setState (by decide) (by decide) h.2.1) (by simp), hlast,
    fieldLoop_step (numberField_write setState (by decide) (by decide) h.2.2) (by simp),
    fieldLoop_nil]
  rfl

def markBytes (index term : Nat) : List UInt8 :=
  0x08 :: (writeVarint index ++ 0x10 :: writeVarint term)

/-- `cetcd_wal_encode_snapshot`; index zero is refused by the caller of it. -/
def encodeSnapshot (index term : Nat) : WalRecord := checked .snapshot (markBytes index term)

def setMark (field v : Nat) (mark : Nat × Nat) : Nat × Nat :=
  if field = 1 then (v, mark.2) else if field = 2 then (mark.1, v) else mark

/-- `cetcd_wal_decode_snapshot`: index and term, and whether it returned zero. -/
def decodeSnapshot (data : List UInt8) : (Nat × Nat) × Bool :=
  fieldLoop (numberField setMark) data.length (0, 0) data

lemma decodeSnapshot_markBytes {index term : Nat} (hindex : index < 2 ^ 64)
    (hterm : term < 2 ^ 64) : decodeSnapshot (markBytes index term) = ((index, term), true) := by
  have hfuel : 2 ≤ (markBytes index term).length := by
    unfold markBytes
    simp only [length_cons, length_append]
    omega
  obtain ⟨n, hn⟩ := Nat.exists_eq_add_of_le' hfuel
  have hlast : writeVarint term = writeVarint term ++ [] := (append_nil _).symm
  unfold decodeSnapshot
  rw [hn]
  unfold markBytes
  rw [fieldLoop_step (numberField_write setMark (by decide) (by decide) hindex) (by simp), hlast,
    fieldLoop_step (numberField_write setMark (by decide) (by decide) hterm) (by simp),
    fieldLoop_nil]
  rfl

def entryCode : EntryType → Nat
  | .normal => 0
  | .confChange => 1
  | .confChangeV2 => 2

/-- The cast to the enumeration; other numbers are not told apart. -/
def ofEntryCode (v : Nat) : EntryType :=
  match v % 2 ^ 32 with
  | 0 => .normal
  | 1 => .confChange
  | _ => .confChangeV2

def entryBytes (e : Entry) : List UInt8 :=
  0x08 :: (writeVarint e.term ++ 0x10 :: (writeVarint e.index ++
    0x18 :: (writeVarint (entryCode e.type) ++ 0x22 :: (writeVarint e.data.length ++ e.data))))

def encodeEntry (e : Entry) : WalRecord := checked .entry (entryBytes e)

/-- One round of the loop of `cetcd_wal_decode_entry`. -/
def entryField (e : Entry) (bs : List UInt8) : Option (Entry × List UInt8) :=
  match readVarint bs with
  | none => none
  | some (tag, bs) =>
    let field := tag / 8
    let wire := tag % 8
    if wire = 0 then
      match readVarint bs with
      | none => none
      | some (v, bs) =>
        if field = 1 then some ({ e with term := v }, bs)
        else if field = 2 then some ({ e with index := v }, bs)
        else if field = 3 then some ({ e with type := ofEntryCode v }, bs)
        else some (e, bs)
    else if wire = 2 then
      match readVarint bs with
      | none => none
      | some (len, bs) =>
        if bs.length < len then none
        -- an empty field leaves the data of an earlier one
        else if field = 4 ∧ 0 < len then some ({ e with data := bs.take len }, bs.drop len)
        else some (e, bs.drop len)
    else none

def decodeEntry (data : List UInt8) : Option Entry :=
  match fieldLoop entryField data.length {} data with
  | (e, true) => some e
  | (_, false) => none

structure EntryFits (e : Entry) : Prop where
  term : e.term < 2 ^ 64
  index : e.index < 2 ^ 64
  data : e.data.length < 2 ^ 55

section

variable {e : Entry} {rest : Bytes}

lemma ofEntryCode_entryCode (t : EntryType) : ofEntryCode (entryCode t) = t := by
  cases t <;> rfl

lemma entryField_number {tag : UInt8} {v : Nat} {e' : Entry} (htag : tag.toNat < 128)
    (hwire : tag.toNat % 8 = 0) (hv : v < 2 ^ 64)
    (hset : (if tag.toNat / 8 = 1 then { e with term := v }
      else if tag.toNat / 8 = 2 then { e with index := v }
      else if tag.toNat / 8 = 3 then { e with type := ofEntryCode v } else e) = e') :
    entryField e (tag :: (writeVarint v ++ rest)) = some (e', rest) := by
  unfold entryField
  rw [readVarint_byte htag]
  dsimp only
  rw [if_pos hwire, readVarint_writeVarint rest hv, ← hset]
  dsimp only
  split_ifs <;> rfl

lemma entryField_data (hdata : e.data = []) {data : Bytes} (hlen : data.length < 2 ^ 64) :
    entryField e (0x22 :: (writeVarint data.length ++ data)) = some ({ e with data := data }, []) := by
  unfold entryField
  rw [readVarint_byte (by decide)]
  dsimp only
  rw [if_neg (by decide), if_pos (by decide), readVarint_writeVarint data hlen]
  dsimp only
  rw [if_neg (lt_irrefl _), take_length, drop_length]
  cases data with
  | nil =>
    rw [if_neg fun h => lt_irrefl 0 h.2, ← hdata]
  | cons b data => exact if_pos ⟨by decide, Nat.succ_pos _⟩

lemma decodeEntry_entryBytes (h : EntryFits e) : decodeEntry (entryBytes e) = some e := by
  have hfuel : 4 ≤ (entryBytes e).length := by
    unfold entryBytes
    simp only [length_cons, length_append]
    omega
  obtain ⟨n, hn⟩ := Nat.exists_eq_add_of_le' hfuel
  have hcode : entryCode e.type < 2 ^ 64 := by cases e.type <;> decide
  have hloop : fieldLoop entryField (entryBytes e).length {} (entryBytes e) = (e, true) := by
    rw [hn]
    unfold entryBytes
    rw [fieldLoop_step (entryField_number (by decide) (by decide) h.term rfl) (by simp),
      fieldLoop_step (entryField_number (by decide) (by decide) h.index rfl) (by simp),
      fieldLoop_step (entryField_number (by decide) (by decide) hcode rfl) (by simp),
      fieldLoop_step (entryField_data rfl (h.data.trans (by decide))) (by simp), fieldLoop_nil]
    change (Entry.mk e.term e.index (ofEntryCode (entryCode e.type)) e.data, true) = _
    rw [ofEntryCode_entryCode]
  unfold decodeEntry
  rw [hloop]

end

end Cetcd.Wal
