import Cetcd.Lib.Lax
import Cetcd.Lib.Proto
import Cetcd.Mvcc.Read

/-!
# Rows of a range and events of a watch

`kv_handle_range` and `encode_event`: a key-value is written to a buffer on the stack (1024 and 4096
bytes) and copied into the response. A tag or a copy that does not fit is a write behind the buffer
(`none`), a lease that does not fit is left out. The header is moved in at the end, where the room
for it is what the growth of the response has left over.
-/

namespace Cetcd.Rows

open Lib Lib.Proto List

/-- `cetcd_kv`, as far as it is sent. -/
structure Kv where
  key : List UInt8
  createRev : Int64
  modRev : Int64
  version : Int64
  value : List UInt8
  lease : Int64
  deriving DecidableEq

/-- `keys_only`, and the events of a delete. -/
def Kv.shown (withoutValue : Bool) (kv : Kv) : Kv := if withoutValue then { kv with value := [] } else kv

/-! ## Key-values -/

/-- The fields in front of the lease; an empty value is not written. -/
def Kv.items (kv : Kv) : List Item :=
  [.sized 0x0a kv.key, .number 0x10 kv.createRev.toUInt64.toNat, .number 0x18 kv.modRev.toUInt64.toNat,
    .number 0x20 kv.version.toUInt64.toNat] ++ if kv.value = [] then [] else [.sized 0x2a kv.value]

def Kv.leaseItem (kv : Kv) : Item := .number 0x30 kv.lease.toUInt64.toNat

/-- A key-value in `cap` bytes; the lease needs 12 bytes in front of `leaseCap`. -/
def encodeKv (cap leaseCap : Nat) (kv : Kv) : Option (List UInt8) :=
  (putAll cap kv.items []).bind fun out =>
    if 0 < kv.lease ∧ out.length + 12 ≤ leaseCap then putItem cap out kv.leaseItem else some out

/-- The key-value that fields stand for. -/
def kvOf (fs : List Field) : Kv :=
  { key := (lastSized 1 fs).getD [], createRev := int64 (lastVarint 2 fs), modRev := int64 (lastVarint 3 fs)
    version := int64 (lastVarint 4 fs), value := (lastSized 5 fs).getD [], lease := int64 (lastVarint 6 fs) }

def decodeKv (bs : List UInt8) : Option Kv := (decode bs).map kvOf

def Kv.size (kv : Kv) : Nat := (bytes kv.items).length

/-- What the buffer holds. -/
structure Kv.Fits (cap leaseCap : Nat) (kv : Kv) : Prop where
  size : kv.size ≤ cap
  lease : 0 ≤ kv.lease
  room : 0 < kv.lease → kv.size + 12 ≤ leaseCap

def Kv.allItems (kv : Kv) : List Item := kv.items ++ if 0 < kv.lease then [kv.leaseItem] else []

section

variable {cap leaseCap : Nat} {kv : Kv} {bs : Bytes}

lemma Kv.items_tagged (kv : Kv) : ∀ i ∈ kv.items, i.Tagged := by
  intro i hi
  simp only [Kv.items, mem_append, mem_cons, not_mem_nil, or_false] at hi
  obtain (rfl | rfl | rfl | rfl) | hi := hi
  · exact (by decide : IsTag 0x0a 2)
  · exact ⟨by decide, UInt64.toNat_lt _⟩
  · exact ⟨by decide, UInt64.toNat_lt _⟩
  · exact ⟨by decide, UInt64.toNat_lt _⟩
  split at hi
  · cases hi
  rw [mem_singleton] at hi
  subst hi
  exact (by decide : IsTag 0x2a 2)

lemma Kv.leaseItem_ok (kv : Kv) : kv.leaseItem.Ok := ⟨by decide, UInt64.toNat_lt _⟩

lemma Kv.length_leaseItem_le (kv : Kv) : kv.leaseItem.bytes.length ≤ 11 := by
  have := length_writeVarint_le kv.lease.toUInt64.toNat
  simp only [Kv.leaseItem, Item.bytes, length_cons]
  omega

lemma kvOf_fields (key value : Bytes) (c m v l : Nat) (hasValue hasLease : Bool) :
    kvOf ([⟨1, .sized key⟩, ⟨2, .varint c⟩, ⟨3, .varint m⟩, ⟨4, .varint v⟩] ++
        (if hasValue then [⟨5, .sized value⟩] else []) ++ if hasLease then [⟨6, .varint l⟩] else []) =
      ⟨key, int64 c, int64 m, int64 v, if hasValue then value else [], if hasLease then int64 l else 0⟩ := by
  cases hasValue <;> cases hasLease <;> rfl

lemma Kv.fields (kv : Kv) : kv.items.map Item.field =
    [⟨1, .sized kv.key⟩, ⟨2, .varint kv.createRev.toUInt64.toNat⟩, ⟨3, .varint kv.modRev.toUInt64.toNat⟩,
      ⟨4, .varint kv.version.toUInt64.toNat⟩] ++
        if !kv.value.isEmpty then [⟨5, .sized kv.value⟩] else [] := by
  cases hvalue : kv.value <;> simp [Kv.items, hvalue, Item.field]

lemma shown_value (value : Bytes) : (if !value.isEmpty then value else []) = value := by
  cases value <;> rfl

lemma kvOf_items (kv : Kv) : kvOf (kv.items.map Item.field) = { kv with lease := 0 } := by
  have h := kvOf_fields kv.key kv.value kv.createRev.toUInt64.toNat kv.modRev.toUInt64.toNat
    kv.version.toUInt64.toNat 0 (!kv.value.isEmpty) false
  rw [← kv.fields, shown_value] at h
  simpa [int64_toUInt64] using h

lemma kvOf_items_lease (kv : Kv) : kvOf ((kv.items ++ [kv.leaseItem]).map Item.field) = kv := by
  have h := kvOf_fields kv.key kv.value kv.createRev.toUInt64.toNat kv.modRev.toUInt64.toNat
    kv.version.toUInt64.toNat kv.lease.toUInt64.toNat (!kv.value.isEmpty) true
  rw [← kv.fields, shown_value] at h
  simpa [int64_toUInt64, Kv.leaseItem, Item.field] using h

lemma decodeKv_allItems (hsize : kv.size < 2 ^ 64) (hlease : 0 ≤ kv.lease) :
    decodeKv (bytes kv.allItems) = some kv := by
  have hok := ok_of_length_lt kv.items_tagged hsize
  unfold decodeKv Kv.allItems
  split
  · have hall : ∀ i ∈ kv.items ++ [kv.leaseItem], i.Ok := by
      simpa [or_imp, forall_and] using ⟨hok, kv.leaseItem_ok⟩
    rw [decode_bytes hall, Option.map_some, kvOf_items_lease]
  next hnot =>
  have hzero : kv.lease = 0 := Int64.le_antisymm (Int64.not_lt.1 hnot) hlease
  rw [append_nil, decode_bytes hok, Option.map_some, kvOf_items, ← hzero]

lemma length_encodeKv_le (hle : leaseCap ≤ cap) (h : encodeKv cap leaseCap kv = some bs) :
    bs.length ≤ cap := by
  obtain ⟨out, hout, hbs⟩ := Option.bind_eq_some_iff.1 h
  split at hbs
  · next hlease =>
    have := kv.length_leaseItem_le
    rw [putItem_of_le (by omega)] at hbs
    cases hbs
    simp only [length_append]
    omega
  cases hbs
  exact length_putAll_le kv.items_tagged zero_le hout

lemma encodeKv_of_fits (h : kv.Fits cap leaseCap) (hle : leaseCap ≤ cap) :
    encodeKv cap leaseCap kv = some (bytes kv.allItems) := by
  have hput : putAll cap kv.items [] = some (bytes kv.items) := by
    exact putAll_of_le (by simpa [Kv.size] using h.size)
  unfold encodeKv Kv.allItems
  rw [hput, Option.bind_some]
  by_cases hlease : 0 < kv.lease
  · have hroom := h.room hlease
    have := kv.length_leaseItem_le
    unfold Kv.size at hroom
    rw [if_pos ⟨hlease, hroom⟩, if_pos hlease, putItem_of_le (by omega)]
    simp
  · rw [if_neg (fun hand => hlease hand.1), if_neg hlease, append_nil]

lemma encodeKv_iff (hcap : cap < 2 ^ 64) (hle : leaseCap ≤ cap) :
    (∃ bs, encodeKv cap leaseCap kv = some bs ∧ decodeKv bs = some kv) ↔ kv.Fits cap leaseCap := by
  constructor
  · rintro ⟨bs, hbs, hdecode⟩
    obtain ⟨out, hout, hbs⟩ := Option.bind_eq_some_iff.1 hbs
    split at hbs
    · next hlease =>
      -- a buffer whose last field was cut is full
      have hfits : kv.size ≤ cap := by
        by_contra hlong
        have := (putAll_of_lt kv.items_tagged zero_le (by simpa [Kv.size] using hlong) hout).1
        omega
      have hwhole : out = bytes kv.items := by
        rw [putAll_of_le (by simpa [Kv.size] using hfits)] at hout
        cases hout
        rfl
      subst hwhole
      exact ⟨hfits, Int64.le_of_lt hlease.1, fun _ => hlease.2⟩
    next hlease =>
    cases hbs
    unfold decodeKv at hdecode
    obtain ⟨fs, hfs, hkv⟩ := Option.map_eq_some_iff.1 hdecode
    obtain ⟨hfits, rfl⟩ := putAll_decodes kv.items_tagged hcap hout (by simp [hfs])
    have hok := ok_of_length_lt kv.items_tagged (Nat.lt_of_le_of_lt hfits hcap)
    rw [decode_bytes hok] at hfs
    cases hfs
    rw [kvOf_items] at hkv
    have hzero : 0 = kv.lease := congrArg Kv.lease hkv
    exact ⟨hfits, hzero ▸ Int64.le_refl _, fun hpos => absurd hpos (hzero ▸ Int64.lt_irrefl)⟩
  intro h
  exact ⟨_, encodeKv_of_fits h hle, decodeKv_allItems (Nat.lt_of_le_of_lt h.size hcap) h.lease⟩

end

/-! ## The response of a range -/

/-- What was found, after the filters and the sort. -/
inductive Found
  | point (kv : Option Kv)
  | range (kvs : List Kv) (h : kvs.length < 2 ^ 63)

structure RangeOptions where
  limit : Int
  keysOnly : Bool
  countOnly : Bool

def Found.count : Found → Nat
  | .point kv => kv.toList.length
  | .range kvs _ => kvs.length

def Found.rows (f : Found) (o : RangeOptions) : List Kv :=
  let kvs :=
    match f with
    | .point kv => kv.toList
    | .range kvs _ => if 0 < o.limit then kvs.take o.limit.toNat else kvs
  if o.countOnly then [] else kvs.map (Kv.shown o.keysOnly)

/-- Whether the limit has cut the rows. -/
def Found.more (f : Found) (o : RangeOptions) : Bool :=
  match f with
  | .point _ => false
  | .range kvs _ => 0 < o.limit ∧ o.limit < kvs.length

structure Resp where
  out : List UInt8
  cap : Nat

def Resp.layout (r : Resp) : Nat × Nat := (r.out.length, r.cap)

/-- How the response grows for a row of `kpos` bytes. -/
def Found.grown (f : Found) (rpos cap kpos : Nat) : Nat :=
  if cap < rpos + 1 + 5 + kpos then
    match f with
    | .point _ => rpos + kpos + 64
    | .range _ _ => cap * 2 + kpos + 64
  else cap

def Found.appendRow (f : Found) (r : Resp) (kv : Kv) : Option Resp :=
  (encodeKv 1024 1024 kv).bind fun row =>
    let cap := f.grown r.out.length r.cap row.length
    (putItem cap r.out (.sized 0x12 row)).map fun out => ⟨out, cap⟩

/-- A field behind the rows, where ten bytes are asked for. -/
def appendNumber (r : Resp) (tag : UInt8) (v : Nat) : Option Resp :=
  let cap := if r.cap < r.out.length + 10 then r.out.length + 16 else r.cap
  (putItem cap r.out (.number tag v)).map fun out => ⟨out, cap⟩

def headerRev (revision : Int64) : Int64 := if 0 < revision then revision else 1

def headerItem (revision : Int64) : Item :=
  .sized 0x0a (bytes [.number 0x18 (headerRev revision).toUInt64.toNat])

/-- The header takes the place of the two bytes that were kept for it; the rest moves. -/
def insertHeader (revision : Int64) (r : Resp) : Option (List UInt8) :=
  if r.cap < r.out.length - 2 + (headerItem revision).bytes.length then none
  else some ((headerItem revision).bytes ++ r.out.drop 2)

/-- The end of `kv_handle_range`; `none` is a write behind the end of a buffer. -/
def rangeResponse (f : Found) (o : RangeOptions) (revision : Int64) : Option (List UInt8) :=
  ((f.rows o).foldlM f.appendRow ⟨[0, 0], 4096⟩).bind fun r =>
    (if f.more o then appendNumber r 0x18 1 else some r).bind fun r =>
      (appendNumber r 0x20 f.count).bind (insertHeader revision)

structure RangeMsg where
  revision : Option Int64
  kvs : List Kv
  more : Bool
  count : Nat
  deriving DecidableEq

def decodeHeader (fs : List Field) : Option (Option Int64) :=
  match lastSized 1 fs with
  | none => some none
  | some bs => (decode bs).map fun hs => some (int64 (lastVarint 3 hs))

def decodeRange (bs : List UInt8) : Option RangeMsg :=
  (decode bs).bind fun fs =>
    (decodeHeader fs).bind fun revision =>
      ((allSized 2 fs).mapM decodeKv).map fun kvs =>
        ⟨revision, kvs, lastVarint 3 fs ≠ 0, lastVarint 4 fs⟩

/-- What the request asked for. -/
def Found.answer (f : Found) (o : RangeOptions) (revision : Int64) : RangeMsg :=
  ⟨some (headerRev revision), f.rows o, f.more o, f.count⟩

/-! ### The room for the header -/

def Kv.rowSize (kv : Kv) : Nat := (bytes kv.allItems).length

/-- Where the response ends and what is allocated, after a row. -/
def Found.afterRow (f : Found) (p : Nat × Nat) (kv : Kv) : Nat × Nat :=
  (p.1 + 1 + (writeVarint kv.rowSize).length + kv.rowSize, f.grown p.1 p.2 kv.rowSize)

def afterNumber (p : Nat × Nat) (v : Nat) : Nat × Nat :=
  (p.1 + 1 + (writeVarint v).length, if p.2 < p.1 + 10 then p.1 + 16 else p.2)

/-- The end of the response and what is allocated, in front of the header. -/
def Found.layout (f : Found) (o : RangeOptions) : Nat × Nat :=
  let p := (f.rows o).foldl f.afterRow (2, 4096)
  afterNumber (if f.more o then afterNumber p 1 else p) f.count

/-- The header takes two bytes that were kept and the bytes of the revision and its tag. -/
def Found.HeaderFits (f : Found) (o : RangeOptions) (revision : Int64) : Prop :=
  (f.layout o).1 + 1 + (writeVarint (headerRev revision).toUInt64.toNat).length ≤ (f.layout o).2

/-! ### The response as a whole -/

/-- A row that was encoded, in the response. -/
def Found.added (f : Found) (r : Resp) (row : List UInt8) : Resp :=
  ⟨r.out ++ (Item.sized 0x12 row).bytes, f.grown r.out.length r.cap row.length⟩

def numberAdded (r : Resp) (tag : UInt8) (v : Nat) : Resp :=
  ⟨r.out ++ (Item.number tag v).bytes, if r.cap < r.out.length + 10 then r.out.length + 16 else r.cap⟩

def Found.finished (f : Found) (o : RangeOptions) (rows : List (List UInt8)) : Resp :=
  let r := rows.foldl f.added ⟨[0, 0], 4096⟩
  numberAdded (if f.more o then numberAdded r 0x18 1 else r) 0x20 f.count

section

variable {f : Found} {o : RangeOptions} {r : Resp} {rows : List Bytes}

lemma Found.count_lt (f : Found) : f.count < 2 ^ 63 := by
  cases f with
  | point kv => cases kv <;> simp [Found.count]
  | range kvs h => exact h

lemma length_added_le {row : Bytes} (hr : r.out.length ≤ r.cap) (hrow : row.length ≤ 1024) :
    (f.added r row).out.length ≤ (f.added r row).cap := by
  have := length_writeVarint_le_five (show row.length < 2 ^ 32 by omega)
  simp only [Found.added, Found.grown, Item.bytes, length_append, length_cons]
  split
  · cases f <;> simp only <;> omega
  · omega

lemma appendRow_eq (hr : r.out.length ≤ r.cap) (kv : Kv) :
    f.appendRow r kv = (encodeKv 1024 1024 kv).map (f.added r) := by
  unfold Found.appendRow
  cases hrow : encodeKv 1024 1024 kv with
  | none => rfl
  | some row =>
    have hlen := @length_added_le f r row hr (length_encodeKv_le (Nat.le_refl _) hrow)
    simp only [Found.added, length_append] at hlen
    simp only [Option.bind_some, putItem_of_le hlen, Option.map_some, Found.added]

lemma appendRows_eq (hr : r.out.length ≤ r.cap) (kvs : List Kv) :
    kvs.foldlM f.appendRow r = (kvs.mapM (encodeKv 1024 1024)).map fun rows => rows.foldl f.added r := by
  induction kvs generalizing r with
  | nil => rfl
  | cons kv kvs ih =>
    rw [foldlM_cons, mapM_cons, appendRow_eq hr]
    cases hrow : encodeKv 1024 1024 kv with
    | none => rfl
    | some row =>
      have hlen := @length_added_le f r row hr (length_encodeKv_le (Nat.le_refl _) hrow)
      change kvs.foldlM f.appendRow (f.added r row) = _
      rw [ih hlen]
      cases kvs.mapM (encodeKv 1024 1024) <;> rfl

lemma appendNumber_eq {tag : UInt8} {v : Nat} (hv : v < 2 ^ 63) :
    appendNumber r tag v = some (numberAdded r tag v) := by
  have hlen : (writeVarint v).length ≤ 9 := length_writeVarintLoop_le_of_lt (n := 9) hv (by decide)
  unfold appendNumber numberAdded
  dsimp only
  rw [putItem_of_le, Option.map_some]
  simp only [Item.bytes, length_cons]
  split <;> omega

lemma rangeResponse_eq (revision : Int64) : rangeResponse f o revision =
      ((f.rows o).mapM (encodeKv 1024 1024)).bind fun rows => insertHeader revision (f.finished o rows) := by
  unfold rangeResponse Found.finished
  rw [appendRows_eq (by decide)]
  cases (f.rows o).mapM (encodeKv 1024 1024) with
  | none => rfl
  | some rows =>
    simp only [Option.map_some, Option.bind_some]
    split
    · rw [appendNumber_eq (by decide), Option.bind_some, appendNumber_eq f.count_lt, Option.bind_some]
    · rw [Option.bind_some, appendNumber_eq f.count_lt, Option.bind_some]

lemma out_foldl_added (rows : List Bytes) :
    (rows.foldl f.added r).out = r.out ++ bytes (rows.map (.sized 0x12)) := by
  induction rows generalizing r with
  | nil => simp
  | cons row rows ih =>
    rw [foldl_cons, ih]
    simp [Found.added]

def Found.restItems (f : Found) (o : RangeOptions) (rows : List (List UInt8)) : List Item :=
  rows.map (.sized 0x12) ++ ((if f.more o then [.number 0x18 1] else []) ++ [.number 0x20 f.count])

lemma out_finished (rows : List Bytes) :
    (f.finished o rows).out = [0, 0] ++ bytes (f.restItems o rows) := by
  unfold Found.finished Found.restItems
  split <;> simp [numberAdded, out_foldl_added]

lemma headerItem_ok (revision : Int64) : (headerItem revision).Ok := by
  refine ⟨by decide, ?_⟩
  have := length_writeVarint_le (headerRev revision).toUInt64.toNat
  simp only [bytes_cons, bytes_nil, Item.bytes, append_nil, length_cons]
  omega

lemma restItems_ok (h : ∀ row ∈ rows, row.length ≤ 1024) : ∀ i ∈ f.restItems o rows, i.Ok := by
  intro i hi
  simp only [Found.restItems, mem_append, mem_map, mem_singleton] at hi
  obtain ⟨row, hrow, rfl⟩ | hi | rfl := hi
  · exact ⟨by decide, Nat.lt_of_le_of_lt (h row hrow) (by decide)⟩
  · split at hi
    · rw [mem_singleton] at hi
      subst hi
      exact ⟨by decide, by decide⟩
    · cases hi
  · exact ⟨by decide, Nat.lt_trans f.count_lt (by decide)⟩

lemma decodeHeader_item (revision : Int64) (fs : List Field) (h : allSized 1 fs = []) :
    decodeHeader ((headerItem revision).field :: fs) = some (some (headerRev revision)) := by
  have hlast : lastSized 1 ((headerItem revision).field :: fs) =
      some (bytes [.number 0x18 (headerRev revision).toUInt64.toNat]) := by
    unfold lastSized
    rw [show allSized 1 ((headerItem revision).field :: fs) =
      bytes [.number 0x18 (headerRev revision).toUInt64.toNat] :: allSized 1 fs from rfl, h]
    rfl
  unfold decodeHeader
  rw [hlast]
  have hok : ∀ i ∈ [Item.number 0x18 (headerRev revision).toUInt64.toNat], i.Ok := by
    simpa using ⟨by decide, UInt64.toNat_lt _⟩
  simp only [decode_bytes hok, Option.map_some]
  rw [show lastVarint 3 ([Item.number 0x18 (headerRev revision).toUInt64.toNat].map Item.field) =
    (headerRev revision).toUInt64.toNat from rfl, int64_toUInt64]

lemma decodeRange_finished {revision : Int64} (h : ∀ row ∈ rows, row.length ≤ 1024) :
    decodeRange ((headerItem revision).bytes ++ bytes (f.restItems o rows)) =
      (rows.mapM decodeKv).map fun kvs => ⟨some (headerRev revision), kvs, f.more o, f.count⟩ := by
  have hrest : (f.restItems o rows).map Item.field =
      rows.map (fun row => ⟨2, .sized row⟩) ++ ((if f.more o then [⟨3, .varint 1⟩] else []) ++
        [⟨4, .varint f.count⟩]) := by
    unfold Found.restItems
    split <;> simp [Item.field]
  have hdecode : decode ((headerItem revision).bytes ++ bytes (f.restItems o rows)) =
      some ((headerItem revision).field :: (f.restItems o rows).map Item.field) := by
    rw [decode_item (headerItem_ok revision), decode_bytes (restItems_ok h), Option.map_some]
  unfold decodeRange
  rw [hdecode, Option.bind_some, hrest, decodeHeader_item _ _ (by
    cases f.more o <;> simp [allSized, Field.sizedAt]), Option.bind_some]
  have hrows : allSized 2 ((headerItem revision).field :: (rows.map (fun row => ⟨2, .sized row⟩) ++
      ((if f.more o then [⟨3, .varint 1⟩] else []) ++ [⟨4, .varint f.count⟩]))) = rows := by
    change allSized 2 (rows.map _ ++ _) = rows
    rw [allSized, filterMap_append, allSized_map_self]
    cases f.more o <;> exact append_nil rows
  have hnumbers (n : Nat) :
      lastVarint n ((headerItem revision).field :: (rows.map (fun row => ⟨2, .sized row⟩) ++
        ((if f.more o then [⟨3, .varint 1⟩] else []) ++ [⟨4, .varint f.count⟩]))) =
      lastVarint n ((if f.more o then [⟨3, .varint 1⟩] else []) ++ [⟨4, .varint f.count⟩]) := by
    change (((rows.map _ ++ _).filterMap _).getLast?).getD 0 = _
    rw [filterMap_append, allVarint_map_sized, nil_append]
    rfl
  rw [hrows, hnumbers 3, hnumbers 4]
  cases f.more o <;> rfl

lemma layout_added (kv : Kv) : (f.added r (bytes kv.allItems)).layout = f.afterRow r.layout kv := by
  simp only [Resp.layout, Found.added, Found.afterRow, Kv.rowSize, Item.bytes, length_append,
    length_cons, Prod.mk.injEq, and_true]
  omega

lemma layout_numberAdded (tag : UInt8) (v : Nat) :
    (numberAdded r tag v).layout = afterNumber r.layout v := by
  refine Prod.ext ?_ rfl
  simp only [Resp.layout, numberAdded, afterNumber, Item.bytes, length_append, length_cons]
  omega

lemma layout_foldl (kvs : List Kv) :
    ((kvs.map fun kv => bytes kv.allItems).foldl f.added r).layout = kvs.foldl f.afterRow r.layout := by
  induction kvs generalizing r with
  | nil => rfl
  | cons kv kvs ih => rw [map_cons, foldl_cons, foldl_cons, ih, layout_added]

lemma layout_finished :
    (f.finished o ((f.rows o).map fun kv => bytes kv.allItems)).layout = f.layout o := by
  unfold Found.finished Found.layout
  rw [layout_numberAdded]
  split
  · rw [layout_numberAdded, layout_foldl]
    rfl
  rw [layout_foldl]
  rfl

lemma length_headerItem (revision : Int64) : (headerItem revision).bytes.length =
      3 + (writeVarint (headerRev revision).toUInt64.toNat).length := by
  have hlen := length_writeVarint_le (headerRev revision).toUInt64.toNat
  have hpos := length_writeVarint_pos
    (bytes [.number 0x18 (headerRev revision).toUInt64.toNat]).length
  have hone : (writeVarint (bytes [.number 0x18 (headerRev revision).toUInt64.toNat]).length).length ≤ 1 := by
    refine length_writeVarintLoop_le_of_lt ?_ (by decide)
    simp only [bytes_cons, bytes_nil, Item.bytes, append_nil, length_cons]
    omega
  simp only [headerItem, Item.bytes, bytes_cons, bytes_nil, append_nil, length_append,
    length_cons] at hpos hone ⊢
  omega

lemma insertHeader_finished (revision : Int64) (rows : List Bytes) :
    insertHeader revision (f.finished o rows) =
      if (f.finished o rows).out.length + 1 + (writeVarint (headerRev revision).toUInt64.toNat).length ≤
          (f.finished o rows).cap then
        some ((headerItem revision).bytes ++ bytes (f.restItems o rows)) else none := by
  have htwo : 2 ≤ (f.finished o rows).out.length := by rw [out_finished]; simp
  have hdrop : (f.finished o rows).out.drop 2 = bytes (f.restItems o rows) := by rw [out_finished]; rfl
  unfold insertHeader
  rw [length_headerItem, hdrop]
  split
  · rw [if_neg (by omega)]
  · rw [if_pos (by omega)]

lemma rangeResponse_iff (revision : Int64) :
    (∃ bs, rangeResponse f o revision = some bs ∧ decodeRange bs = some (f.answer o revision)) ↔
      (∀ kv ∈ f.rows o, kv.Fits 1024 1024) ∧ f.HeaderFits o revision := by
  rw [rangeResponse_eq]
  have hfinished : f.HeaderFits o revision ↔
      (f.finished o ((f.rows o).map fun kv => bytes kv.allItems)).layout.1 + 1 +
        (writeVarint (headerRev revision).toUInt64.toNat).length ≤
      (f.finished o ((f.rows o).map fun kv => bytes kv.allItems)).layout.2 := by
    rw [layout_finished]
    rfl
  constructor
  · rintro ⟨bs, hbs, hdecode⟩
    obtain ⟨rows, hrows, hbs⟩ := Option.bind_eq_some_iff.1 hbs
    rw [insertHeader_finished] at hbs
    split at hbs
    · next hheader =>
      cases hbs
      -- what the decoder reads back are the rows, so each of them was written whole
      have hlen : ∀ row ∈ rows, row.length ≤ 1024 := by
        intro row hrow
        obtain ⟨kv, _, hkv⟩ := exists_of_mapM hrows hrow
        exact length_encodeKv_le (Nat.le_refl _) hkv
      rw [decodeRange_finished hlen, Option.map_eq_some_iff] at hdecode
      obtain ⟨kvs, hkvs, hanswer⟩ := hdecode
      have hsame : kvs = f.rows o := congrArg RangeMsg.kvs hanswer
      subst hsame
      have hfits : ∀ kv ∈ f.rows o, kv.Fits 1024 1024 := fun kv hkv =>
        (encodeKv_iff (by decide) (Nat.le_refl _)).1 (forall_of_round_trip hrows hkvs kv hkv)
      -- rows that fit are written with all their fields, which gives the size in front of the header
      have hwhole := mapM_of_forall fun kv hkv => encodeKv_of_fits (hfits kv hkv) (Nat.le_refl _)
      rw [hrows, Option.some.injEq] at hwhole
      subst hwhole
      exact ⟨hfits, hfinished.2 hheader⟩
    · cases hbs
  rintro ⟨hfits, hheader⟩
  have hwhole := mapM_of_forall fun kv hkv => encodeKv_of_fits (hfits kv hkv) (Nat.le_refl _)
  have hlen : ∀ row ∈ (f.rows o).map fun kv => bytes kv.allItems, row.length ≤ 1024 := by
    intro row hrow
    obtain ⟨kv, hkv, rfl⟩ := mem_map.1 hrow
    exact length_encodeKv_le (Nat.le_refl _) (encodeKv_of_fits (hfits kv hkv) (Nat.le_refl _))
  refine ⟨(headerItem revision).bytes ++
    bytes (f.restItems o ((f.rows o).map fun kv => bytes kv.allItems)), ?_, ?_⟩
  · rw [hwhole, Option.bind_some, insertHeader_finished]
    exact if_pos (hfinished.1 hheader)
  have hback := mapM_map_of_forall (l := f.rows o) (k := fun kv => bytes kv.allItems) fun kv hkv =>
    decodeKv_allItems (Nat.lt_of_le_of_lt (hfits kv hkv).size (by decide)) (hfits kv hkv).lease
  rw [decodeRange_finished hlen, hback]
  rfl

end

/-! ## The events of a watch -/

structure Event where
  isDelete : Bool
  kv : Kv
  prevKv : Option Kv
  deriving DecidableEq

/-- What a watcher is told: a delete has no value, and the previous key-value is sent on demand. -/
def Event.shown (wantPrevKv : Bool) (ev : Event) : Event :=
  { isDelete := ev.isDelete, kv := ev.kv.shown ev.isDelete, prevKv := if wantPrevKv then ev.prevKv else none }

def eventItems (isDelete : Bool) (kv : List UInt8) (prevKv : Option (List UInt8)) : List Item :=
  [.number 0x08 (if isDelete then 1 else 0), .sized 0x12 kv] ++ (prevKv.map (Item.sized 0x1a)).toList

def encodeEventBody (ev : Event) : Option (List UInt8) :=
  (encodeKv 4096 4095 ev.kv).bind fun kv =>
    match ev.prevKv with
    | none => putBytes 4200 (bytes (eventItems ev.isDelete kv none)) []
    | some prevKv =>
      (encodeKv 4096 4095 prevKv).bind fun prev =>
        putBytes 4200 (bytes (eventItems ev.isDelete kv (some prev))) []

/-- `encode_event`: an event that does not fit is left out. -/
def encodeEvent (cap : Nat) (wantPrevKv : Bool) (out : List UInt8) (ev : Event) : Option (List UInt8) :=
  (encodeEventBody (ev.shown wantPrevKv)).map fun body =>
    if cap < out.length + body.length + 10 then out else out ++ (Item.sized 0x5a body).bytes

structure WatchHeader where
  watchId : Int64
  created : Bool
  canceled : Bool
  currentRev : Int64
  compactRevision : Int64
  fragment : Bool

/-- etcd's `ErrCompacted`. -/
def compactedReason : List UInt8 :=
  "etcdserver: mvcc: required revision has been compacted".toList.map fun c => UInt8.ofNat c.toNat

/-- The fields that `encode_watch_prefix_` writes. -/
def WatchHeader.items (w : WatchHeader) : List Item :=
  [headerItem w.currentRev, .number 0x10 w.watchId.toUInt64.toNat] ++
    ((if w.created then [.number 0x18 1] else []) ++ ((if w.canceled then [.number 0x20 1] else []) ++
    ((if 0 < w.compactRevision then [.number 0x28 w.compactRevision.toUInt64.toNat] else []) ++
    ((if w.canceled ∧ 0 < w.compactRevision then [.sized 0x32 compactedReason] else []) ++
    (if w.fragment then [.number 0x38 1] else [])))))

/-- `encode_watch_response_frag`; `none` is a write behind the end of a buffer. -/
def watchResponse (w : WatchHeader) (wantPrevKv : Bool) (events : List Event) : Option (List UInt8) :=
  let cap := 256 + events.length * 8192
  (putAll cap w.items []).bind fun out => events.foldlM (encodeEvent cap wantPrevKv) out

def decodeEvent (bs : List UInt8) : Option Event :=
  (decode bs).bind fun fs =>
    (decodeKv ((lastSized 2 fs).getD [])).bind fun kv =>
      match lastSized 3 fs with
      | none => some ⟨lastVarint 1 fs ≠ 0, kv, none⟩
      | some prev => (decodeKv prev).map fun prev => ⟨lastVarint 1 fs ≠ 0, kv, some prev⟩

def decodeEvents (bs : List UInt8) : Option (List Event) :=
  (decode bs).bind fun fs => (allSized 11 fs).mapM decodeEvent

/-- What the buffers hold: each key-value, and the event with both. -/
structure Event.Fits (ev : Event) : Prop where
  kv : ev.kv.Fits 4096 4095
  prevKv : ∀ prev ∈ ev.prevKv, prev.Fits 4096 4095
  body : (bytes (eventItems ev.isDelete (bytes ev.kv.allItems)
    (ev.prevKv.map fun prev => bytes prev.allItems))).length ≤ 4200

section

variable {ev : Event} {w : WatchHeader} {bs body : Bytes} {isDelete : Bool} {kv : Bytes}
  {prevKv : Option Bytes} {P : Item → Prop}

lemma eventItems_ok (hkv : kv.length ≤ 4096) (hprev : ∀ prev ∈ prevKv, prev.length ≤ 4096) :
    ∀ i ∈ eventItems isDelete kv prevKv, i.Ok := by
  intro i hi
  simp only [eventItems, mem_append, mem_cons, not_mem_nil, or_false, Option.mem_toList,
    Option.map_eq_some_iff] at hi
  obtain (rfl | rfl) | ⟨prev, hmem, rfl⟩ := hi
  · exact ⟨by decide, by split <;> decide⟩
  · exact ⟨by decide, Nat.lt_of_le_of_lt hkv (by decide)⟩
  · exact ⟨by decide, Nat.lt_of_le_of_lt (hprev prev hmem) (by decide)⟩

lemma decodeEvent_items (hkv : kv.length ≤ 4096) (hprev : ∀ prev ∈ prevKv, prev.length ≤ 4096) :
    decodeEvent (bytes (eventItems isDelete kv prevKv)) = (decodeKv kv).bind fun kv =>
        match prevKv with
        | none => some ⟨isDelete, kv, none⟩
        | some prev => (decodeKv prev).map fun prev => ⟨isDelete, kv, some prev⟩ := by
  unfold decodeEvent
  rw [decode_bytes (eventItems_ok hkv hprev), Option.bind_some]
  cases prevKv <;> cases isDelete <;> rfl

lemma putBytes_eq_some {cap : Nat} (h : putBytes cap bs [] = some body) : bs.length ≤ cap ∧ body = bs := by
  unfold putBytes at h
  split at h
  · next hle =>
    cases h
    exact ⟨by simpa using hle, rfl⟩
  · cases h

lemma encodeEventBody_iff :
    (∃ body, encodeEventBody ev = some body ∧ decodeEvent body = some ev) ↔ ev.Fits := by
  obtain ⟨isDelete, kv, prevKv⟩ := ev
  constructor
  · rintro ⟨body, hbody, hdecode⟩
    obtain ⟨row, hrow, hbody⟩ := Option.bind_eq_some_iff.1 hbody
    have hlen := length_encodeKv_le (by decide) hrow
    cases prevKv with
    | none =>
      obtain ⟨hsize, rfl⟩ := putBytes_eq_some hbody
      rw [decodeEvent_items hlen (by simp)] at hdecode
      obtain ⟨kv', hkv, heq⟩ := Option.bind_eq_some_iff.1 hdecode
      cases heq
      -- the key-value came back, so it fitted; then the event holds all of it
      have hfits := (encodeKv_iff (by decide) (by decide)).1 ⟨row, hrow, hkv⟩
      rw [encodeKv_of_fits hfits (by decide)] at hrow
      cases hrow
      exact ⟨hfits, by simp, hsize⟩
    | some prev =>
      obtain ⟨prevRow, hprevRow, hbody⟩ := Option.bind_eq_some_iff.1 hbody
      obtain ⟨hsize, rfl⟩ := putBytes_eq_some hbody
      have hlen' := length_encodeKv_le (by decide) hprevRow
      rw [decodeEvent_items hlen (by simpa using hlen')] at hdecode
      obtain ⟨kv', hkv, heq⟩ := Option.bind_eq_some_iff.1 hdecode
      obtain ⟨prev', hprev, heq⟩ := Option.map_eq_some_iff.1 heq
      cases heq
      have hfits := (encodeKv_iff (by decide) (by decide)).1 ⟨row, hrow, hkv⟩
      have hfits' := (encodeKv_iff (by decide) (by decide)).1 ⟨prevRow, hprevRow, hprev⟩
      rw [encodeKv_of_fits hfits (by decide)] at hrow
      rw [encodeKv_of_fits hfits' (by decide)] at hprevRow
      cases hrow
      cases hprevRow
      exact ⟨hfits, by simpa using hfits', hsize⟩
  intro h
  have hrow := encodeKv_of_fits h.kv (by decide)
  have hkv := decodeKv_allItems (Nat.lt_of_le_of_lt h.kv.size (by decide)) h.kv.lease
  have hlen := length_encodeKv_le (by decide) hrow
  have hbody := h.body
  cases prevKv with
  | none =>
    refine ⟨bytes (eventItems isDelete (bytes kv.allItems) none), ?_, ?_⟩
    · simp only [encodeEventBody, hrow, Option.bind_some, putBytes]
      exact if_pos (by simpa using hbody)
    rw [decodeEvent_items hlen (by simp), hkv]
    rfl
  | some prev =>
    have hfits' := h.prevKv prev rfl
    have hrow' := encodeKv_of_fits hfits' (by decide)
    have hkv' := decodeKv_allItems (Nat.lt_of_le_of_lt hfits'.size (by decide)) hfits'.lease
    refine ⟨bytes (eventItems isDelete (bytes kv.allItems) (some (bytes prev.allItems))), ?_, ?_⟩
    · simp only [encodeEventBody, hrow, hrow', Option.bind_some, putBytes]
      exact if_pos (by simpa using hbody)
    rw [decodeEvent_items hlen (by simpa using length_encodeKv_le (by decide) hrow'), hkv]
    simp [hkv']

lemma length_encodeEventBody_le {body : Bytes} (h : encodeEventBody ev = some body) :
    body.length ≤ 4200 := by
  obtain ⟨row, _, h⟩ := Option.bind_eq_some_iff.1 h
  split at h
  · obtain ⟨hle, rfl⟩ := putBytes_eq_some h
    exact hle
  obtain ⟨_, _, h⟩ := Option.bind_eq_some_iff.1 h
  obtain ⟨hle, rfl⟩ := putBytes_eq_some h
  exact hle

lemma encodeEvents_eq {cap : Nat} {out : Bytes} (wantPrevKv : Bool) (events : List Event)
    (hcap : out.length + events.length * 8192 ≤ cap) :
    events.foldlM (encodeEvent cap wantPrevKv) out =
      (events.mapM fun ev => encodeEventBody (ev.shown wantPrevKv)).map fun bodies =>
        out ++ bytes (bodies.map (.sized 0x5a)) := by
  induction events generalizing out with
  | nil => simp
  | cons ev events ih =>
    rw [foldlM_cons, mapM_cons]
    unfold encodeEvent
    cases hbody : encodeEventBody (ev.shown wantPrevKv) with
    | none => rfl
    | some body =>
      have hlen := length_encodeEventBody_le hbody
      have hsize := length_writeVarint_le_five (show body.length < 2 ^ 32 by omega)
      rw [length_cons] at hcap
      rw [Option.map_some, if_neg (by omega)]
      change events.foldlM (encodeEvent cap wantPrevKv) (out ++ (Item.sized 0x5a body).bytes) = _
      rw [ih (by
        simp only [Item.bytes, length_append, length_cons]
        omega)]
      cases events.mapM fun ev => encodeEventBody (ev.shown wantPrevKv) with
      | none => rfl
      | some bodies => simp

lemma length_optional_le (p : Prop) [Decidable p] (i : Item) :
    (bytes (if p then [i] else [])).length ≤ i.bytes.length := by
  split <;> simp

lemma forall_mem_optional {p : Prop} [Decidable p] {i : Item} (h : P i) :
    ∀ j ∈ (if p then [i] else []), P j := by
  split <;> simp [h]

lemma WatchHeader.forall_items (hheader : P (headerItem w.currentRev))
    (hnumber : ∀ tag v, IsTag tag 0 → v < 2 ^ 64 → P (.number tag v))
    (hreason : P (.sized 0x32 compactedReason)) : ∀ i ∈ w.items, P i := by
  have h64 (n : Int64) : n.toUInt64.toNat < 2 ^ 64 := UInt64.toNat_lt _
  unfold WatchHeader.items
  simp only [forall_mem_append]
  refine ⟨?_, forall_mem_optional (hnumber _ _ (by decide) (by decide)),
    forall_mem_optional (hnumber _ _ (by decide) (by decide)),
    forall_mem_optional (hnumber _ _ (by decide) (h64 _)), forall_mem_optional hreason,
    forall_mem_optional (hnumber _ _ (by decide) (by decide))⟩
  simp only [forall_mem_cons, not_mem_nil, false_imp_iff, implies_true, and_true]
  exact ⟨hheader, hnumber _ _ (by decide) (h64 _)⟩

lemma WatchHeader.items_ok (w : WatchHeader) : ∀ i ∈ w.items, i.Ok :=
  w.forall_items (headerItem_ok _) (fun _ _ htag hv => ⟨htag, hv⟩) ⟨by decide, by decide⟩

lemma WatchHeader.length_items_le (w : WatchHeader) : (bytes w.items).length ≤ 256 := by
  have hnumber (tag : UInt8) (v : Nat) : (Item.number tag v).bytes.length ≤ 11 := by
    have := length_writeVarint_le v
    simp only [Item.bytes, length_cons]
    omega
  have hreason : (Item.sized 0x32 compactedReason).bytes.length = 56 := by decide
  have hheader := length_headerItem w.currentRev
  have hrev := length_writeVarint_le (headerRev w.currentRev).toUInt64.toNat
  have h0 := hnumber 0x10 w.watchId.toUInt64.toNat
  have h1 := length_optional_le w.created (.number 0x18 1)
  have h2 := length_optional_le w.canceled (.number 0x20 1)
  have h3 := length_optional_le (0 < w.compactRevision) (.number 0x28 w.compactRevision.toUInt64.toNat)
  have h4 := length_optional_le (w.canceled ∧ 0 < w.compactRevision) (.sized 0x32 compactedReason)
  have h5 := length_optional_le w.fragment (.number 0x38 1)
  have := hnumber 0x18 1
  have := hnumber 0x20 1
  have := hnumber 0x28 w.compactRevision.toUInt64.toNat
  have := hnumber 0x38 1
  simp only [WatchHeader.items, bytes_append, bytes_cons, bytes_nil, append_nil, length_append]
  omega

lemma WatchHeader.allSized_items (w : WatchHeader) : allSized 11 (w.items.map Item.field) = [] := by
  rw [allSized, filterMap_eq_nil_iff]
  intro f hf
  obtain ⟨i, hi, rfl⟩ := mem_map.1 hf
  exact w.forall_items (P := fun i => i.field.sizedAt 11 = none) rfl (fun _ _ _ _ => rfl) rfl i hi

lemma watchResponse_eq (wantPrevKv : Bool) (events : List Event) :
    watchResponse w wantPrevKv events =
      (events.mapM fun ev => encodeEventBody (ev.shown wantPrevKv)).map fun bodies =>
        bytes w.items ++ bytes (bodies.map (.sized 0x5a)) := by
  have hlen := w.length_items_le
  unfold watchResponse
  dsimp only
  rw [putAll_of_le (by simp only [length_nil]; omega), Option.bind_some,
    encodeEvents_eq _ _ (by simp only [nil_append]; omega)]
  rfl

lemma decodeEvents_bodies {bodies : List Bytes} (h : ∀ body ∈ bodies, body.length ≤ 4200) :
    decodeEvents (bytes w.items ++ bytes (bodies.map (.sized 0x5a))) = bodies.mapM decodeEvent := by
  have hok : ∀ i ∈ bodies.map (Item.sized 0x5a), i.Ok := by
    intro i hi
    obtain ⟨body, hbody, rfl⟩ := mem_map.1 hi
    exact ⟨by decide, Nat.lt_of_le_of_lt (h body hbody) (by decide)⟩
  have hfields : (bodies.map (Item.sized 0x5a)).map Item.field =
      bodies.map fun body => (⟨11, .sized body⟩ : Field) := by
    simp [Item.field]
  unfold decodeEvents
  rw [decode_items w.items_ok, decode_bytes hok, Option.map_some, Option.bind_some, hfields, allSized,
    filterMap_append, allSized_map_self]
  have := w.allSized_items
  rw [allSized] at this
  rw [this, nil_append]

lemma watchResponse_iff (wantPrevKv : Bool) (events : List Event) :
    (∃ bs, watchResponse w wantPrevKv events = some bs ∧
        decodeEvents bs = some (events.map (Event.shown wantPrevKv))) ↔
      ∀ ev ∈ events, (ev.shown wantPrevKv).Fits := by
  have hmap : (events.mapM fun ev => encodeEventBody (ev.shown wantPrevKv)) =
      (events.map (Event.shown wantPrevKv)).mapM encodeEventBody := by
    rw [mapM_map]
    rfl
  rw [watchResponse_eq, hmap]
  generalize hshown : events.map (Event.shown wantPrevKv) = shown
  have hall : (∀ ev ∈ events, (ev.shown wantPrevKv).Fits) ↔ ∀ ev ∈ shown, ev.Fits := by
    simp [← hshown]
  rw [hall]
  constructor
  · rintro ⟨bs, hbs, hdecode⟩
    obtain ⟨bodies, hbodies, rfl⟩ := Option.map_eq_some_iff.1 hbs
    have hlen : ∀ body ∈ bodies, body.length ≤ 4200 := by
      intro body hbody
      obtain ⟨ev, _, hev⟩ := exists_of_mapM hbodies hbody
      exact length_encodeEventBody_le hev
    rw [decodeEvents_bodies hlen] at hdecode
    exact fun ev hev => encodeEventBody_iff.1 (forall_of_round_trip hbodies hdecode ev hev)
  intro h
  choose! body hbody using fun ev hev => encodeEventBody_iff.2 (h ev hev)
  have hencoded := mapM_of_forall fun ev hev => (hbody ev hev).1
  have hdecoded := mapM_map_of_forall fun ev hev => (hbody ev hev).2
  refine ⟨bytes w.items ++ bytes ((shown.map body).map (.sized 0x5a)), by rw [hencoded]; rfl, ?_⟩
  rw [decodeEvents_bodies, hdecoded]
  intro b hb
  obtain ⟨ev, hev, rfl⟩ := mem_map.1 hb
  exact length_encodeEventBody_le (hbody ev hev).1

end

/-- **What was put can be read.** A range response is built within its buffers and decodes to
exactly the rows found, if and only if every row fits in 1024 bytes, with 12 to spare for a lease,
and the header in what the response has grown to. A watch response is built within its buffers and
decodes to exactly its events, if and only if every key-value fits in 4096 bytes, with more than 12
to spare for a lease, and every event in 4200. -/
theorem rows_and_events_iff (f : Found) (o : RangeOptions) (revision : Int64) (w : WatchHeader)
    (wantPrevKv : Bool) (events : List Event) :
    ((∃ bs, rangeResponse f o revision = some bs ∧ decodeRange bs = some (f.answer o revision)) ↔
        (∀ kv ∈ f.rows o, kv.Fits 1024 1024) ∧ f.HeaderFits o revision) ∧
      ((∃ bs, watchResponse w wantPrevKv events = some bs ∧
          decodeEvents bs = some (events.map (Event.shown wantPrevKv))) ↔
        ∀ ev ∈ events, (ev.shown wantPrevKv).Fits) :=
  ⟨rangeResponse_iff revision, watchResponse_iff wantPrevKv events⟩

def sampleKv (n : Nat) : Kv := ⟨[97], 2, 2, 1, List.replicate n 120, 0⟩

/-- A value of 1100 bytes overruns the buffer of a get, and one of 4200 that of a watch. -/
theorem value_overruns_buffers :
    rangeResponse (.point (some (sampleKv 1100))) ⟨0, false, false⟩ 2 = none ∧
      watchResponse ⟨1, false, false, 2, 0, false⟩ false [⟨false, sampleKv 4200, none⟩] = none := by
  decide +kernel

example : decodeRange [10, 2, 24, 2, 18, 12, 10, 1, 97, 16, 2, 24, 2, 32, 1, 42, 1, 98, 32, 1] =
    some ⟨some 2, [⟨[97], 2, 2, 1, [98], 0⟩], false, 1⟩ := by
  decide +kernel

end Cetcd.Rows
