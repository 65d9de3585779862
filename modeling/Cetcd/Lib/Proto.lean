import Cetcd.Lib.Bytes

/-!
# Messages of numbered fields

A message of protocol buffers is a list of fields, each a key and a payload. What a writer into a
buffer of a fixed size leaves behind is the whole message or nothing that decodes
(`putAll_decodes`).
-/

namespace Lib
namespace Proto

open List Option

/-! ## Reading -/

inductive Payload
  | varint (n : Nat)
  | fixed (bs : List UInt8)
  | sized (bs : List UInt8)
  deriving DecidableEq

structure Field where
  num : Nat
  payload : Payload
  deriving DecidableEq

def readFixed (n : Nat) (bs : List UInt8) : Option (List UInt8 × List UInt8) :=
  if bs.length < n then none else some (bs.take n, bs.drop n)

def readSized (bs : List UInt8) : Option (List UInt8 × List UInt8) :=
  match readVarint bs with
  | none => none
  | some (n, rest) => readFixed n rest

def readPayload (wireType : Nat) (bs : List UInt8) : Option (Payload × List UInt8) :=
  match wireType with
  | 0 => (readVarint bs).map fun p => (.varint p.1, p.2)
  | 1 => (readFixed 8 bs).map fun p => (.fixed p.1, p.2)
  | 2 => (readSized bs).map fun p => (.sized p.1, p.2)
  | 5 => (readFixed 4 bs).map fun p => (.fixed p.1, p.2)
  | _ => none

def readField (bs : List UInt8) : Option (Field × List UInt8) :=
  match readVarint bs with
  | none => none
  | some (key, rest) =>
    if key / 8 = 0 then none
    else (readPayload (key % 8) rest).map fun p => (⟨key / 8, p.1⟩, p.2)

def decodeLoop : Nat → List UInt8 → Option (List Field)
  | 0, bs => if bs = [] then some [] else none
  | fuel + 1, bs =>
    if bs = [] then some []
    else
      match readField bs with
      | none => none
      | some (f, rest) => (decodeLoop fuel rest).map (f :: ·)

def decode (bs : List UInt8) : Option (List Field) := decodeLoop bs.length bs

def Field.varintAt (n : Nat) : Field → Option Nat
  | ⟨m, .varint v⟩ => if m = n then some v else none
  | _ => none

def Field.sizedAt (n : Nat) : Field → Option (List UInt8)
  | ⟨m, .sized bs⟩ => if m = n then some bs else none
  | _ => none

/-- A number that is not there is zero, and the last one counts. -/
def lastVarint (n : Nat) (fs : List Field) : Nat := ((fs.filterMap (Field.varintAt n)).getLast?).getD 0

def allSized (n : Nat) (fs : List Field) : List (List UInt8) := fs.filterMap (Field.sizedAt n)

/-- A part that may be missing. -/
def lastSized (n : Nat) (fs : List Field) : Option (List UInt8) := (allSized n fs).getLast?

section

variable {bs rest : Bytes}

lemma readFixed_length {n : Nat} {part : Bytes} (h : readFixed n bs = some (part, rest)) :
    rest.length ≤ bs.length := by
  unfold readFixed at h
  split at h
  · cases h
  cases h
  simp

lemma readPayload_length {wireType : Nat} {p : Payload}
    (h : readPayload wireType bs = some (p, rest)) : rest.length ≤ bs.length := by
  unfold readPayload at h
  split at h
  · obtain ⟨⟨v, r⟩, hread, heq⟩ := map_eq_some_iff.1 h
    cases heq
    exact (readVarint_length hread).le
  · obtain ⟨⟨v, r⟩, hread, heq⟩ := map_eq_some_iff.1 h
    cases heq
    exact readFixed_length hread
  · obtain ⟨⟨v, r⟩, hread, heq⟩ := map_eq_some_iff.1 h
    cases heq
    unfold readSized at hread
    split at hread
    · cases hread
    · next hlen => exact (readFixed_length hread).trans (readVarint_length hlen).le
  · obtain ⟨⟨v, r⟩, hread, heq⟩ := map_eq_some_iff.1 h
    cases heq
    exact readFixed_length hread
  · cases h

lemma readField_length {f : Field} (h : readField bs = some (f, rest)) : rest.length < bs.length := by
  unfold readField at h
  split at h
  · cases h
  next key r hkey =>
  split at h
  · cases h
  obtain ⟨⟨p, r'⟩, hread, heq⟩ := map_eq_some_iff.1 h
  cases heq
  exact (readPayload_length hread).trans_lt (readVarint_length hkey)

lemma decodeLoop_fuel {n : Nat} (h : bs.length ≤ n) : decodeLoop n bs = decode bs := by
  unfold decode
  induction n using Nat.strongRecOn generalizing bs with
  | ind n ih =>
    cases n with
    | zero => rw [Nat.le_zero.1 h]
    | succ n =>
      cases hbs : bs with
      | nil => simp [decodeLoop]
      | cons b bs' =>
        rw [length_cons, decodeLoop, decodeLoop]
        cases hread : readField (b :: bs') with
        | none => rfl
        | some p =>
          obtain ⟨f, rest⟩ := p
          have hlt := readField_length hread
          rw [hbs] at h
          simp only [length_cons] at h hlt
          dsimp only
          rw [ih n (by omega) (by omega), ih bs'.length (by omega) (by omega)]

lemma decode_nil : decode [] = some [] := rfl

lemma decode_of_readField {f : Field} (h : readField bs = some (f, rest)) :
    decode bs = (decode rest).map (f :: ·) := by
  have hlt := readField_length h
  cases bs with
  | nil => simp at hlt
  | cons b bs =>
    unfold decode
    rw [length_cons, decodeLoop, if_neg (by simp), h]
    dsimp only
    rw [decodeLoop_fuel (by simpa using Nat.le_of_lt_succ hlt)]
    rfl

lemma decode_eq_none (h : readField bs = none) (hne : bs ≠ []) : decode bs = none := by
  obtain ⟨b, bs, rfl⟩ := exists_cons_of_ne_nil hne
  unfold decode
  rw [length_cons, decodeLoop, if_neg (by simp), h]

end

/-! ## Fields as they are written -/

/-- A tag of one byte for a field of the given form. -/
structure IsTag (tag : UInt8) (wireType : Nat) : Prop where
  small : tag.toNat < 128
  number : tag.toNat / 8 ≠ 0
  form : tag.toNat % 8 = wireType

instance (tag : UInt8) (wireType : Nat) : Decidable (IsTag tag wireType) :=
  decidable_of_iff (tag.toNat < 128 ∧ tag.toNat / 8 ≠ 0 ∧ tag.toNat % 8 = wireType)
    ⟨fun h => ⟨h.1, h.2.1, h.2.2⟩, fun h => ⟨h.small, h.number, h.form⟩⟩

inductive Item
  | number (tag : UInt8) (v : Nat)
  | sized (tag : UInt8) (bs : List UInt8)

namespace Item

def bytes : Item → List UInt8
  | number tag v => tag :: writeVarint v
  | sized tag bs => tag :: (writeVarint bs.length ++ bs)

def field : Item → Field
  | number tag v => ⟨tag.toNat / 8, .varint v⟩
  | sized tag bs => ⟨tag.toNat / 8, .sized bs⟩

/-- The tag is right, and a number has 64 bits. -/
def Tagged : Item → Prop
  | number tag v => IsTag tag 0 ∧ v < 2 ^ 64
  | sized tag _ => IsTag tag 2

/-- The tag is right, and numbers and lengths have 64 bits. -/
def Ok : Item → Prop
  | number tag v => IsTag tag 0 ∧ v < 2 ^ 64
  | sized tag bs => IsTag tag 2 ∧ bs.length < 2 ^ 64

lemma Tagged.ok {i : Item} (h : i.Tagged) (hlen : i.bytes.length < 2 ^ 64) : i.Ok := by
  cases i with
  | number tag v => exact h
  | sized tag bs =>
    simp only [bytes, length_cons, length_append] at hlen
    exact ⟨h, by omega⟩

end Item

def bytes (items : List Item) : List UInt8 := items.flatMap Item.bytes

@[simp]
lemma bytes_nil : bytes [] = [] := rfl

@[simp]
lemma bytes_cons (i : Item) (items : List Item) : bytes (i :: items) = i.bytes ++ bytes items := by
  simp [bytes]

@[simp]
lemma bytes_append (items items' : List Item) : bytes (items ++ items') = bytes items ++ bytes items' :=
  flatMap_append

variable {tag : UInt8} {items : List Item} {α β : Type}

lemma readField_tag {wireType : Nat} (h : IsTag tag wireType) (rest : Bytes) :
    readField (tag :: rest) =
      (readPayload wireType rest).map fun p => (⟨tag.toNat / 8, p.1⟩, p.2) := by
  unfold readField
  rw [readVarint_byte h.small]
  dsimp only
  rw [if_neg h.number, h.form]

lemma readField_item {i : Item} (h : i.Ok) (rest : Bytes) :
    readField (i.bytes ++ rest) = some (i.field, rest) := by
  cases i with
  | number tag v =>
    rw [Item.bytes, cons_append, readField_tag h.1, readPayload, readVarint_writeVarint rest h.2]
    rfl
  | sized tag bs =>
    rw [Item.bytes, cons_append, readField_tag h.1, readPayload, readSized, append_assoc,
      readVarint_writeVarint _ h.2]
    simp [readFixed, Item.field]

lemma decode_item {i : Item} (h : i.Ok) (rest : Bytes) :
    decode (i.bytes ++ rest) = (decode rest).map (i.field :: ·) :=
  decode_of_readField (readField_item h rest)

lemma decode_items (h : ∀ i ∈ items, i.Ok) (rest : Bytes) :
    decode (bytes items ++ rest) = (decode rest).map (items.map Item.field ++ ·) := by
  induction items with
  | nil => simp
  | cons i items ih =>
    rw [bytes_cons, append_assoc, decode_item (h i mem_cons_self),
      ih fun j hj => h j (mem_cons_of_mem _ hj), Option.map_map]
    rfl

lemma ok_of_length_lt (h : ∀ i ∈ items, i.Tagged) (hlen : (bytes items).length < 2 ^ 64) :
    ∀ i ∈ items, i.Ok := by
  intro i hi
  refine (h i hi).ok ?_
  have := (sublist_flatten_of_mem (mem_map_of_mem (f := Item.bytes) hi)).length_le
  simp only [bytes, flatMap_def] at hlen
  omega

lemma decode_bytes (h : ∀ i ∈ items, i.Ok) :
    decode (bytes items) = some (items.map Item.field) := by
  simpa [decode_nil] using decode_items h []

section

variable {n m : Nat} {parts : List Bytes}

lemma allSized_map_self : (parts.map fun p => (⟨n, .sized p⟩ : Field)).filterMap (Field.sizedAt n) = parts := by
  induction parts with
  | nil => rfl
  | cons p parts ih => simp [Field.sizedAt, ih]

lemma allVarint_map_sized :
    (parts.map fun p => (⟨n, .sized p⟩ : Field)).filterMap (Field.varintAt m) = [] := by
  simp [filterMap_eq_nil_iff, Field.varintAt]

end

lemma mapM_eq_some_iff {g : α → Option β} {l : List α} {l' : List β} :
    l.mapM g = some l' ↔ List.Forall₂ (fun a b => g a = some b) l l' := by
  induction l generalizing l' with
  | nil =>
    rw [forall₂_nil_left_iff, mapM_nil, eq_comm]
    exact some_inj
  | cons a l ih =>
    rw [mapM_cons, forall₂_cons_left_iff]
    constructor
    · intro h
      obtain ⟨b, hb, h⟩ := bind_eq_some_iff.1 h
      obtain ⟨bs, hbs, h⟩ := bind_eq_some_iff.1 h
      cases h
      exact ⟨b, bs, hb, ih.1 hbs, rfl⟩
    rintro ⟨b, bs, hb, hbs, rfl⟩
    rw [hb, ih.2 hbs]
    rfl

lemma forall_of_round_trip {w : α → Option β} {g : β → Option α} {l : List α} {l' : List β}
    (hw : l.mapM w = some l') (hg : l'.mapM g = some l) :
    ∀ a ∈ l, ∃ b, w a = some b ∧ g b = some a := by
  rw [mapM_eq_some_iff] at hw hg
  induction hw with
  | nil => simp
  | @cons a b l l' hab _ ih =>
    obtain ⟨hba, hg⟩ := forall₂_cons.1 hg
    intro a' ha'
    obtain rfl | ha' := mem_cons.1 ha'
    · exact ⟨b, hab, hba⟩
    · exact ih hg a' ha'

lemma exists_of_mapM {g : α → Option β} {l : List α} {l' : List β} {b : β} (h : l.mapM g = some l')
    (hb : b ∈ l') : ∃ a ∈ l, g a = some b := by
  rw [mapM_eq_some_iff] at h
  induction h with
  | nil => cases hb
  | @cons a c l l' hac _ ih =>
    obtain rfl | hb := mem_cons.1 hb
    · exact ⟨a, mem_cons_self, hac⟩
    obtain ⟨a', ha', h⟩ := ih hb
    exact ⟨a', mem_cons_of_mem _ ha', h⟩

lemma mapM_of_forall {g : α → Option β} {k : α → β} {l : List α} (h : ∀ a ∈ l, g a = some (k a)) :
    l.mapM g = some (l.map k) := by
  rw [mapM_eq_some_iff, forall₂_map_right_iff, forall₂_same]
  exact h

lemma mapM_map_of_forall {g : β → Option α} {k : α → β} {l : List α}
    (h : ∀ a ∈ l, g (k a) = some a) : (l.map k).mapM g = some l := by
  rw [mapM_eq_some_iff, forall₂_map_left_iff, forall₂_same]
  exact h

/-! ## Varints that are cut -/

lemma readVarintLoop_cut {fuel v k shift acc : Nat} (h : k < (writeVarintLoop fuel v).length) :
    readVarintLoop ((writeVarintLoop fuel v).take k) shift acc = none := by
  induction fuel generalizing v k shift acc with
  | zero => simp [writeVarintLoop] at h
  | succ fuel ih =>
    cases k with
    | zero => rfl
    | succ k =>
      rw [writeVarintLoop] at h ⊢
      split at h
      · simp at h
      next hmore =>
      rw [if_neg hmore, take_succ_cons, readVarintLoop]
      split
      · rfl
      -- the byte says that more follow
      have hbyte : (UInt8.ofNat (v % 128 + 128)).toNat = v % 128 + 128 :=
        toNat_ofNat_of_lt (by omega)
      rw [hbyte, if_neg (by omega)]
      exact ih (by simpa using h)

lemma readVarint_cut {v k : Nat} (h : k < (writeVarint v).length) :
    readVarint ((writeVarint v).take k) = none :=
  readVarintLoop_cut h

/-! ## Buffers -/

def putByte (cap : Nat) (b : UInt8) (out : List UInt8) : Option (List UInt8) :=
  if out.length < cap then some (out ++ [b]) else none

/-- A varint stops at the end of the buffer. -/
def putVarint (cap v : Nat) (out : List UInt8) : List UInt8 :=
  out ++ (writeVarint v).take (cap - out.length)

def putBytes (cap : Nat) (bs out : List UInt8) : Option (List UInt8) :=
  if out.length + bs.length ≤ cap then some (out ++ bs) else none

/-- A field; `none` is a write behind the end of the buffer. -/
def putItem (cap : Nat) (out : List UInt8) : Item → Option (List UInt8)
  | .number tag v => (putByte cap tag out).map (putVarint cap v)
  | .sized tag bs => ((putByte cap tag out).map (putVarint cap bs.length)).bind (putBytes cap bs)

def putAll (cap : Nat) (items : List Item) (out : List UInt8) : Option (List UInt8) :=
  items.foldlM (putItem cap) out

section

variable {cap : Nat} {out r : Bytes} {i : Item} {items : List Item} {tag : UInt8}

lemma putItem_of_le (h : out.length + i.bytes.length ≤ cap) :
    putItem cap out i = some (out ++ i.bytes) := by
  cases i with
  | number tag v =>
    simp only [Item.bytes, length_cons] at h
    have hroom : (writeVarint v).length ≤ cap - (out ++ [tag]).length := by simp; omega
    simp [putItem, putByte, putVarint, show out.length < cap by omega, Item.bytes,
      take_of_length_le (by simpa using hroom)]
  | sized tag bs =>
    simp only [Item.bytes, length_cons, length_append] at h
    have hroom : (writeVarint bs.length).length ≤ cap - (out.length + 1) := by omega
    simp only [putItem, putByte, putVarint, show out.length < cap by omega, if_true, map_some,
      bind_some, length_append, length_singleton, take_of_length_le hroom,
      putBytes, Item.bytes]
    rw [if_pos (by omega)]
    simp

def IsCut (bs : List UInt8) : Prop := bs ≠ [] ∧ readField bs = none

lemma isCut_number {v k : Nat} (htag : IsTag tag 0) (hk : k < (writeVarint v).length) :
    IsCut (tag :: (writeVarint v).take k) := by
  refine ⟨by simp, ?_⟩
  rw [readField_tag htag, readPayload, readVarint_cut hk]
  rfl

lemma isCut_tag (htag : IsTag tag 2) : IsCut [tag] := by
  refine ⟨by simp, ?_⟩
  rw [readField_tag htag]
  rfl

lemma putItem_of_lt (hi : i.Tagged) (h : cap < out.length + i.bytes.length)
    (hr : putItem cap out i = some r) : r.length = cap ∧ ∃ rest, IsCut rest ∧ r = out ++ rest := by
  cases i with
  | number tag v =>
    simp only [Item.bytes, length_cons] at h
    obtain ⟨o, ho, rfl⟩ := map_eq_some_iff.1 hr
    unfold putByte at ho
    split at ho
    · next hlt =>
      cases ho
      refine ⟨?_, _, @isCut_number tag v (cap - (out.length + 1)) hi.1 (by omega),
        by simp [putVarint]⟩
      simp only [putVarint, length_append, length_singleton, length_take]
      omega
    · cases ho
  | sized tag bs =>
    simp only [Item.bytes, length_cons, length_append] at h
    obtain ⟨o, ho, hcopy⟩ := bind_eq_some_iff.1 hr
    obtain ⟨o', ho', rfl⟩ := map_eq_some_iff.1 ho
    unfold putByte at ho'
    split at ho'
    · next hlt =>
      cases ho'
      unfold putBytes at hcopy
      split at hcopy
      · next hfits =>
        -- the copy fits only behind a length that was cut, so that there is nothing to copy
        cases hcopy
        simp only [putVarint, length_append, length_singleton, length_take] at hfits
        have hnil : bs = [] := eq_nil_of_length_eq_zero (by omega)
        subst hnil
        have hzero : (writeVarint ([] : Bytes).length).length = 1 := rfl
        have hroom : cap - (out.length + 1) = 0 := by omega
        refine ⟨by simp [putVarint, hroom]; omega, _, isCut_tag hi, by simp [putVarint, hroom]⟩
      · cases hcopy
    · cases ho'

lemma putItem_full (h : cap ≤ out.length) : putItem cap out i = none := by
  cases i <;> simp [putItem, putByte, Nat.not_lt.2 h]

lemma putAll_of_le (h : out.length + (bytes items).length ≤ cap) :
    putAll cap items out = some (out ++ bytes items) := by
  induction items generalizing out with
  | nil => simp [putAll]
  | cons i items ih =>
    simp only [bytes_cons, length_append] at h
    change (putItem cap out i).bind (putAll cap items) = _
    rw [putItem_of_le (by omega), bind_some, ih (by simp; omega)]
    simp

lemma putAll_of_lt (hitems : ∀ i ∈ items, i.Tagged) (hout : out.length ≤ cap)
    (h : cap < out.length + (bytes items).length) (hr : putAll cap items out = some r) :
    r.length = cap ∧ ∃ before rest, (∀ i ∈ before, i.Tagged) ∧ IsCut rest ∧
      r = out ++ (bytes before ++ rest) := by
  induction items generalizing out with
  | nil => simp at h; omega
  | cons i items ih =>
    have hi := hitems i mem_cons_self
    change (putItem cap out i).bind (putAll cap items) = _ at hr
    obtain ⟨o, ho, hr⟩ := bind_eq_some_iff.1 hr
    simp only [bytes_cons, length_append] at h
    by_cases hfits : out.length + i.bytes.length ≤ cap
    · rw [putItem_of_le hfits] at ho
      cases ho
      obtain ⟨hlen, before, rest, hbefore, hcut, rfl⟩ :=
        ih (fun j hj => hitems j (mem_cons_of_mem _ hj)) (by simpa using hfits) (by simp; omega) hr
      exact ⟨hlen, i :: before, rest, forall_mem_cons.2 ⟨hi, hbefore⟩, hcut, by simp⟩
    obtain ⟨hlen, rest, hcut, rfl⟩ := putItem_of_lt hi (by omega) ho
    cases items with
    | nil =>
      cases hr
      exact ⟨hlen, [], rest, by simp, hcut, rfl⟩
    | cons j items =>
      -- the next tag would be behind the end
      change (putItem cap _ j).bind _ = _ at hr
      rw [putItem_full hlen.ge] at hr
      cases hr

lemma length_putAll_le (hitems : ∀ i ∈ items, i.Tagged) (hout : out.length ≤ cap)
    (hr : putAll cap items out = some r) : r.length ≤ cap := by
  by_cases hfits : out.length + (bytes items).length ≤ cap
  · rw [putAll_of_le hfits] at hr
    cases hr
    simpa using hfits
  · exact (putAll_of_lt hitems hout (by omega) hr).1.le

lemma putAll_decodes (hitems : ∀ i ∈ items, i.Tagged) (hcap : cap < 2 ^ 64)
    (hr : putAll cap items [] = some r) (hdecode : decode r ≠ none) :
    (bytes items).length ≤ cap ∧ r = bytes items := by
  by_cases hfits : (bytes items).length ≤ cap
  · refine ⟨hfits, ?_⟩
    rw [putAll_of_le (by simpa using hfits)] at hr
    cases hr
    rfl
  obtain ⟨hlen, before, rest, hbefore, hcut, rfl⟩ :=
    putAll_of_lt hitems zero_le (by simp; omega) hr
  refine absurd ?_ hdecode
  simp only [nil_append, length_append] at hlen
  have hok := ok_of_length_lt hbefore (by omega)
  rw [nil_append, decode_items hok, decode_eq_none hcut.2 hcut.1]
  rfl

end

end Proto
end Lib
