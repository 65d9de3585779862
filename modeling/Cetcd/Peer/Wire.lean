import Cetcd.Lib.Lax

/-!
# Messages between members

The encoders and decoders of messages; the buffers are large enough. Lengths are 32-bit numbers: an
entry or message of four gigabytes or more is written with its length cut off, and another message
is read back.
-/

namespace Cetcd.Peer

open Lib List Option

/-! ## Messages -/

/-- `cetcd_entry` as the codec sees it; the type is the number of the enumeration. -/
structure WireEntry where
  term : UInt64 := 0
  index : UInt64 := 0
  type : UInt32 := 0
  data : List UInt8 := []
  deriving DecidableEq

structure WireMsg where
  type : UInt32 := 0
  dest : UInt64 := 0
  sender : UInt64 := 0
  term : UInt64 := 0
  logTerm : UInt64 := 0
  index : UInt64 := 0
  commit : UInt64 := 0
  reject : UInt64 := 0
  snapshot : UInt64 := 0
  context : List UInt8 := []
  entries : List WireEntry := []
  deriving DecidableEq

/-- Byte strings shorter than four gigabytes, at most 256 entries. -/
structure WireMsg.Sendable (m : WireMsg) : Prop where
  context : m.context.length < 2 ^ 32
  count : m.entries.length ≤ 256
  data : ∀ e ∈ m.entries, e.data.length < 2 ^ 32

/-! ## Encoding -/

/-- `TAG_U64` and `TAG_U32`. -/
def tagNat (fnum v : Nat) : List UInt8 := UInt8.ofNat (fnum * 8) :: writeVarint v

/-- `TAG_BYTES`: the length is a 32-bit number. -/
def tagBytes (fnum : Nat) (data : List UInt8) : List UInt8 :=
  UInt8.ofNat (fnum * 8 + 2) :: (writeVarint (data.length % 2 ^ 32) ++ data)

def entryFields (e : WireEntry) : List UInt8 :=
  tagNat 1 e.term.toNat ++ (tagNat 2 e.index.toNat ++ (tagNat 3 e.type.toNat ++
    if e.data = [] then [] else tagBytes 4 e.data))

/-- The allocated size of `entry_buf`. -/
def entryNeed (e : WireEntry) : Nat := 40 + e.data.length

/-- `elen` is the length of the fields cut to 32 bits, and only that many bytes are copied. -/
def encodeEntry (e : WireEntry) : List UInt8 :=
  UInt8.ofNat (11 * 8 + 2) ::
    (writeVarint ((entryFields e).length % 2 ^ 32) ++
      (entryFields e).take ((entryFields e).length % 2 ^ 32))

def headFields (m : WireMsg) : List UInt8 :=
  tagNat 1 m.type.toNat ++ (tagNat 2 m.dest.toNat ++ (tagNat 3 m.sender.toNat ++ (tagNat 4 m.term.toNat ++
    (tagNat 5 m.logTerm.toNat ++ (tagNat 6 m.index.toNat ++ (tagNat 7 m.commit.toNat ++
      (tagNat 8 m.reject.toNat ++ ((if m.snapshot = 0 then [] else tagNat 9 m.snapshot.toNat) ++
        if m.context = [] then [] else tagBytes 10 m.context))))))))

def encodeWire (m : WireMsg) : List UInt8 := headFields m ++ m.entries.flatMap encodeEntry

def need (m : WireMsg) : Nat :=
  128 + (if m.snapshot = 0 then 0 else 16) +
    (if m.context = [] then 0 else 10 + m.context.length) +
    (m.entries.map fun e => 1 + 5 + 40 + e.data.length).sum

/-- `cetcd_msg_encode`: four bytes of length, big end first. -/
def msgEncode (raw : List UInt8) : List UInt8 := (leBytes 4 (raw.length % 2 ^ 32)).reverse ++ raw

/-! ## Decoding -/

/-- The loop over the fields of an entry. The length is fuel enough. -/
def entryLoop : Nat → WireEntry → List UInt8 → WireEntry
  | 0, e, _ => e
  | _ + 1, e, [] => e
  | fuel + 1, e, tag :: bs =>
    let field := tag.toNat / 8
    if tag.toNat % 8 = 0 then
      if field = 1 then
        entryLoop fuel { e with term := UInt64.ofNat (readLax 64 bs).1 } (readLax 64 bs).2
      else if field = 2 then
        entryLoop fuel { e with index := UInt64.ofNat (readLax 64 bs).1 } (readLax 64 bs).2
      else if field = 3 then
        entryLoop fuel { e with type := UInt32.ofNat (readLax 32 bs).1 } (readLax 32 bs).2
      else entryLoop fuel e (readLax 64 bs).2
    else if tag.toNat % 8 = 2 then
      let dlen := (readLax 32 bs).1
      let rest := (readLax 32 bs).2
      if field = 4 ∧ dlen ≤ rest.length then
        entryLoop fuel { e with data := rest.take dlen } (rest.drop dlen)
      else entryLoop fuel e (rest.drop dlen)
    else e

/-- A number of the message; a field that is not known is skipped. -/
def setNat (field v : Nat) (m : WireMsg) : WireMsg :=
  if field = 2 then { m with dest := UInt64.ofNat v }
  else if field = 3 then { m with sender := UInt64.ofNat v }
  else if field = 4 then { m with term := UInt64.ofNat v }
  else if field = 5 then { m with logTerm := UInt64.ofNat v }
  else if field = 6 then { m with index := UInt64.ofNat v }
  else if field = 7 then { m with commit := UInt64.ofNat v }
  else if field = 8 then { m with reject := UInt64.ofNat v }
  else if field = 9 then { m with snapshot := UInt64.ofNat v }
  else m

def msgLoop : Nat → WireMsg → List UInt8 → WireMsg
  | 0, m, _ => m
  | _ + 1, m, [] => m
  | fuel + 1, m, tag :: bs =>
    let field := tag.toNat / 8
    if tag.toNat % 8 = 0 then
      if field = 1 then
        msgLoop fuel { m with type := UInt32.ofNat (readLax 32 bs).1 } (readLax 32 bs).2
      else msgLoop fuel (setNat field (readLax 64 bs).1 m) (readLax 64 bs).2
    else if tag.toNat % 8 = 2 then
      let blen := (readLax 32 bs).1
      let rest := (readLax 32 bs).2
      if rest.length < blen then m
      else if field = 10 then msgLoop fuel { m with context := rest.take blen } (rest.drop blen)
      else if field = 11 ∧ m.entries.length < 256 then
        msgLoop fuel { m with entries := m.entries ++ [entryLoop blen {} (rest.take blen)] }
          (rest.drop blen)
      else msgLoop fuel m (rest.drop blen)
    else m

def decodeWire (data : List UInt8) : Option WireMsg :=
  if data = [] then none else some (msgLoop data.length {} data)

def msgDecode (data : List UInt8) : Option (List UInt8) :=
  if data.length < 4 then none
  else
    let payloadLen := readLe (data.take 4).reverse
    if data.length < payloadLen + 4 then none else some ((data.drop 4).take payloadLen)

/-- A message through the codec of the sender and that of the receiver. -/
def transmit (m : WireMsg) : Option WireMsg := (msgDecode (msgEncode (encodeWire m))).bind decodeWire

/-- The size of a message with no length cut off. -/
def wireSize (m : WireMsg) : Nat :=
  (headFields m).length +
    (m.entries.map fun e => 1 + (writeVarint (entryFields e).length).length +
      (entryFields e).length).sum

/-! ## The buffers are large enough -/

section

variable {m : WireMsg} {e : WireEntry}

lemma length_tagNat_u64 (fnum : Nat) (v : Nat) : (tagNat fnum v).length ≤ 11 := by
  have h := length_writeVarint_le v
  simp only [tagNat, length_cons]
  omega

lemma length_tagNat_u32 (fnum : Nat) {v : Nat} (hv : v < 2 ^ 32) : (tagNat fnum v).length ≤ 6 := by
  have h := length_writeVarint_le_five hv
  simp only [tagNat, length_cons]
  omega

lemma length_tagBytes (fnum : Nat) (data : Bytes) :
    data.length ≤ (tagBytes fnum data).length ∧ (tagBytes fnum data).length ≤ 6 + data.length := by
  have h := length_writeVarint_le_five (Nat.mod_lt data.length (by decide : 0 < 2 ^ 32))
  simp only [tagBytes, length_cons, length_append]
  omega

lemma length_entryFields (e : WireEntry) :
    e.data.length ≤ (entryFields e).length ∧ (entryFields e).length ≤ 34 + e.data.length := by
  have h1 := length_tagNat_u64 1 e.term.toNat
  have h2 := length_tagNat_u64 2 e.index.toNat
  have h3 := length_tagNat_u32 3 e.type.toNat_lt
  have h4 := length_tagBytes 4 e.data
  unfold entryFields
  split
  · rename_i hnil
    simp only [length_append, length_nil, hnil]
    omega
  simp only [length_append]
  omega

lemma entryFields_le_need (e : WireEntry) : (entryFields e).length ≤ entryNeed e := by
  have h := (length_entryFields e).2
  unfold entryNeed
  omega

lemma length_encodeEntry (e : WireEntry) : (encodeEntry e).length ≤ 1 + 5 + 40 + e.data.length := by
  have hfields := (length_entryFields e).2
  have hlen := length_writeVarint_le_five (Nat.mod_lt (entryFields e).length (by decide : 0 < 2 ^ 32))
  have htake := length_take_le' ((entryFields e).length % 2 ^ 32) (entryFields e)
  simp only [encodeEntry, length_cons, length_append]
  omega

lemma length_headFields (m : WireMsg) : m.context.length ≤ (headFields m).length ∧
      (headFields m).length + 1 ≤ 84 + (if m.snapshot = 0 then 0 else 11) +
        (if m.context = [] then 0 else 6 + m.context.length) ∧ 16 ≤ (headFields m).length := by
  have h1 := length_tagNat_u32 1 m.type.toNat_lt
  have h2 := length_tagNat_u64 2 m.dest.toNat
  have h3 := length_tagNat_u64 3 m.sender.toNat
  have h4 := length_tagNat_u64 4 m.term.toNat
  have h5 := length_tagNat_u64 5 m.logTerm.toNat
  have h6 := length_tagNat_u64 6 m.index.toNat
  have h7 := length_tagNat_u64 7 m.commit.toNat
  have h8 := length_tagNat_u64 8 m.reject.toNat
  have h9 := length_tagNat_u64 9 m.snapshot.toNat
  have h10 := length_tagBytes 10 m.context
  have hpos : ∀ fnum v, 2 ≤ (tagNat fnum v).length := by
    intro fnum v
    have h := length_writeVarint_pos v
    simp only [tagNat, length_cons]
    omega
  have p1 := hpos 1 m.type.toNat
  have p2 := hpos 2 m.dest.toNat
  have p3 := hpos 3 m.sender.toNat
  have p4 := hpos 4 m.term.toNat
  have p5 := hpos 5 m.logTerm.toNat
  have p6 := hpos 6 m.index.toNat
  have p7 := hpos 7 m.commit.toNat
  have p8 := hpos 8 m.reject.toNat
  unfold headFields
  simp only [length_append]
  split_ifs with hsnap hctx hctx
  · simp only [length_nil, hctx]
    omega
  · simp only [length_nil]
    omega
  · simp only [length_nil, hctx]
    omega
  · omega

lemma encodeWire_le_need (m : WireMsg) : (encodeWire m).length ≤ need m := by
  have hhead := (length_headFields m).2.1
  have hentries : (m.entries.flatMap encodeEntry).length ≤
      (m.entries.map fun e => 1 + 5 + 40 + e.data.length).sum := by
    rw [length_flatMap]
    exact sum_le_sum fun e _ => length_encodeEntry e
  unfold encodeWire need
  rw [length_append]
  split_ifs at hhead ⊢ <;> omega

end

/-! ## What is sent is received -/

section

variable {m out : WireMsg} {e outE : WireEntry} {rest : Bytes}

/-- The loop ends with `out`, given fuel for every byte. -/
def MsgReads (m : WireMsg) (bs : List UInt8) (out : WireMsg) : Prop :=
  ∀ fuel, bs.length ≤ fuel → msgLoop fuel m bs = out

def EntryReads (e : WireEntry) (bs : List UInt8) (out : WireEntry) : Prop :=
  ∀ fuel, bs.length ≤ fuel → entryLoop fuel e bs = out

lemma MsgReads.nil (m : WireMsg) : MsgReads m [] m := by
  intro fuel _
  cases fuel <;> rfl

lemma EntryReads.nil (e : WireEntry) : EntryReads e [] e := by
  intro fuel _
  cases fuel <;> rfl

lemma exists_fuel {fuel : Nat} {tag : UInt8} {bs rest : Bytes}
    (h : (tag :: (bs ++ rest)).length ≤ fuel) :
    ∃ fuel', fuel = fuel' + 1 ∧ rest.length ≤ fuel' := by
  simp only [length_cons, length_append] at h
  exact ⟨fuel - 1, by omega, by omega⟩

lemma MsgReads.type {v : Nat} (hv : v < 2 ^ 32)
    (h : MsgReads { m with type := UInt32.ofNat v } rest out) :
    MsgReads m (tagNat 1 v ++ rest) out := by
  intro fuel hfuel
  rw [tagNat, cons_append] at hfuel ⊢
  obtain ⟨fuel, rfl, hrest⟩ := exists_fuel hfuel
  rw [msgLoop]
  simp only [toNat_ofNat_of_lt (by decide : 1 * 8 < 256), readLax_writeVarint rest (by decide) hv]
  exact h fuel hrest

lemma MsgReads.nat {f v : Nat} (hf : 2 ≤ f) (hf' : f < 32) (hv : v < 2 ^ 64)
    (h : MsgReads (setNat f v m) rest out) : MsgReads m (tagNat f v ++ rest) out := by
  intro fuel hfuel
  rw [tagNat, cons_append] at hfuel ⊢
  obtain ⟨fuel, rfl, hrest⟩ := exists_fuel hfuel
  rw [msgLoop]
  have htag : (UInt8.ofNat (f * 8)).toNat = f * 8 := toNat_ofNat_of_lt (by omega)
  simp only [htag, readLax_writeVarint rest le_rfl hv, Nat.mul_mod_left, Nat.mul_div_cancel f (by decide : 0 < 8), if_true, if_neg (by omega : ¬ f = 1)]
  exact h fuel hrest

lemma readLax_bytes {data : Bytes} (hdata : data.length < 2 ^ 32) (rest : Bytes) :
    readLax 32 (writeVarint data.length ++ (data ++ rest)) = (data.length, data ++ rest) :=
  readLax_writeVarint _ (by decide) hdata

lemma MsgReads.context {data : Bytes} (hdata : data.length < 2 ^ 32)
    (h : MsgReads { m with context := data } rest out) : MsgReads m (tagBytes 10 data ++ rest) out := by
  intro fuel hfuel
  rw [tagBytes, cons_append, append_assoc, Nat.mod_eq_of_lt hdata] at hfuel ⊢
  obtain ⟨fuel, rfl, hlen⟩ := exists_fuel hfuel
  rw [length_append] at hlen
  rw [msgLoop]
  simp only [toNat_ofNat_of_lt (by decide : 10 * 8 + 2 < 256), readLax_bytes hdata rest, length_append,
    take_left, drop_left]
  rw [if_neg (by decide), if_pos trivial, if_neg (by omega), if_pos trivial]
  exact h fuel (by omega)

lemma EntryReads.number {f v : Nat} {e' : WireEntry} (hf : f < 32) (hv : v < 2 ^ 64)
    (hset : (f = 1 ∧ e' = { e with term := UInt64.ofNat v }) ∨
      (f = 2 ∧ e' = { e with index := UInt64.ofNat v }) ∨
      (f = 3 ∧ v < 2 ^ 32 ∧ e' = { e with type := UInt32.ofNat v }))
    (h : EntryReads e' rest outE) : EntryReads e (tagNat f v ++ rest) outE := by
  intro fuel hfuel
  rw [tagNat, cons_append] at hfuel ⊢
  obtain ⟨fuel, rfl, hrest⟩ := exists_fuel hfuel
  rw [entryLoop]
  have htag : (UInt8.ofNat (f * 8)).toNat = f * 8 := toNat_ofNat_of_lt (by omega)
  simp only [htag, readLax_writeVarint rest le_rfl hv, Nat.mul_mod_left, Nat.mul_div_cancel f (by decide : 0 < 8), if_true]
  obtain ⟨rfl, rfl⟩ | ⟨rfl, rfl⟩ | ⟨rfl, hv32, rfl⟩ := hset
  · exact h fuel hrest
  · exact h fuel hrest
  simp only [readLax_writeVarint rest (by decide : 32 ≤ 64) hv32]
  exact h fuel hrest

lemma EntryReads.data {data : Bytes} (hdata : data.length < 2 ^ 32)
    (h : EntryReads { e with data := data } rest outE) :
    EntryReads e (tagBytes 4 data ++ rest) outE := by
  intro fuel hfuel
  rw [tagBytes, cons_append, append_assoc, Nat.mod_eq_of_lt hdata] at hfuel ⊢
  obtain ⟨fuel, rfl, hlen⟩ := exists_fuel hfuel
  rw [length_append] at hlen
  rw [entryLoop]
  simp only [toNat_ofNat_of_lt (by decide : 4 * 8 + 2 < 256), readLax_bytes hdata rest, length_append,
    take_left, drop_left]
  simp only [Nat.le_add_right, and_true]
  exact h fuel (by omega)

lemma entryReads_entryFields (hdata : e.data.length < 2 ^ 32) :
    EntryReads {} (entryFields e) e := by
  have htype : e.type.toNat < 2 ^ 32 := e.type.toNat_lt
  unfold entryFields
  refine .number (by decide) e.term.toNat_lt (.inl ⟨rfl, rfl⟩) ?_
  refine .number (by decide) e.index.toNat_lt (.inr (.inl ⟨rfl, rfl⟩)) ?_
  refine .number (by decide) (htype.trans (by decide)) (.inr (.inr ⟨rfl, htype, rfl⟩)) ?_
  simp only [UInt64.ofNat_toNat, UInt32.ofNat_toNat]
  split
  · rename_i hnil
    have he : (⟨e.term, e.index, e.type, []⟩ : WireEntry) = e := by rw [← hnil]
    rw [he]
    exact .nil e
  rw [← append_nil (tagBytes 4 e.data)]
  exact .data hdata (.nil e)

lemma MsgReads.entry (hlen : (entryFields e).length < 2 ^ 32) (hcount : m.entries.length < 256)
    (h : MsgReads { m with entries := m.entries ++ [e] } rest out) :
    MsgReads m (encodeEntry e ++ rest) out := by
  have hdata : e.data.length < 2 ^ 32 := (length_entryFields e).1.trans_lt hlen
  have hentry := entryReads_entryFields hdata (entryFields e).length le_rfl
  intro fuel hfuel
  rw [encodeEntry, cons_append, append_assoc, Nat.mod_eq_of_lt hlen, take_length] at hfuel ⊢
  obtain ⟨fuel, rfl, hrest⟩ := exists_fuel hfuel
  rw [length_append] at hrest
  rw [msgLoop]
  simp only [toNat_ofNat_of_lt (by decide : 11 * 8 + 2 < 256), readLax_bytes hlen rest, length_append,
    take_left, drop_left, hcount, hentry]
  rw [if_neg (by decide), if_pos trivial, if_neg (by omega), if_neg (by decide),
    if_pos ⟨by decide, trivial⟩]
  exact h fuel (by omega)

lemma MsgReads.entries (es : List WireEntry) (hlen : ∀ e ∈ es, (entryFields e).length < 2 ^ 32)
    (hcount : m.entries.length + es.length ≤ 256) :
    MsgReads m (es.flatMap encodeEntry) { m with entries := m.entries ++ es } := by
  induction es generalizing m with
  | nil => simpa using MsgReads.nil m
  | cons e es ih =>
    rw [length_cons] at hcount
    rw [flatMap_cons]
    refine .entry (hlen e (by simp)) (by omega) ?_
    have h := @ih { m with entries := m.entries ++ [e] } (fun e' he' => hlen e' (by simp [he']))
      (by simp only [length_append, length_singleton]; omega)
    simpa using h

lemma MsgReads.numbers
    (h : MsgReads { m with snapshot := 0, context := [], entries := [] } rest out) :
    MsgReads {} (tagNat 1 m.type.toNat ++ (tagNat 2 m.dest.toNat ++ (tagNat 3 m.sender.toNat ++
      (tagNat 4 m.term.toNat ++ (tagNat 5 m.logTerm.toNat ++ (tagNat 6 m.index.toNat ++
        (tagNat 7 m.commit.toNat ++ (tagNat 8 m.reject.toNat ++ rest)))))))) out := by
  refine MsgReads.type m.type.toNat_lt ?_
  refine MsgReads.nat (by decide) (by decide) m.dest.toNat_lt ?_
  refine MsgReads.nat (by decide) (by decide) m.sender.toNat_lt ?_
  refine MsgReads.nat (by decide) (by decide) m.term.toNat_lt ?_
  refine MsgReads.nat (by decide) (by decide) m.logTerm.toNat_lt ?_
  refine MsgReads.nat (by decide) (by decide) m.index.toNat_lt ?_
  refine MsgReads.nat (by decide) (by decide) m.commit.toNat_lt ?_
  refine MsgReads.nat (by decide) (by decide) m.reject.toNat_lt ?_
  simpa [setNat] using h

lemma MsgReads.snapshot (h : MsgReads { m with context := [], entries := [] } rest out) :
    MsgReads { m with snapshot := 0, context := [], entries := [] }
      ((if m.snapshot = 0 then [] else tagNat 9 m.snapshot.toNat) ++ rest) out := by
  split
  · rename_i hzero
    rw [← hzero]
    exact h
  refine MsgReads.nat (by decide) (by decide) m.snapshot.toNat_lt ?_
  simpa [setNat] using h

lemma MsgReads.context_field (hctx : m.context.length < 2 ^ 32)
    (h : MsgReads { m with entries := [] } rest out) :
    MsgReads { m with context := [], entries := [] }
      ((if m.context = [] then [] else tagBytes 10 m.context) ++ rest) out := by
  split
  · rename_i hnil
    have hm : ({ m with context := [], entries := [] } : WireMsg) = { m with entries := [] } := by
      rw [← hnil]
    rw [hm]
    exact h
  · exact MsgReads.context hctx h

lemma msgReads_encodeWire (h : m.Sendable)
    (hlen : ∀ e ∈ m.entries, (entryFields e).length < 2 ^ 32) : MsgReads {} (encodeWire m) m := by
  unfold encodeWire headFields
  simp only [append_assoc]
  refine MsgReads.numbers (MsgReads.snapshot (MsgReads.context_field h.context ?_))
  exact @MsgReads.entries { m with entries := [] } m.entries hlen (by simpa using h.count)

lemma msgDecode_msgEncode (raw : Bytes) :
    msgDecode (msgEncode raw) = some (raw.take (raw.length % 2 ^ 32)) := by
  have hle : raw.length % 2 ^ 32 ≤ raw.length := Nat.mod_le _ _
  have hread : readLe ((msgEncode raw).take 4).reverse = raw.length % 2 ^ 32 := by
    have htake : (msgEncode raw).take 4 = (leBytes 4 (raw.length % 2 ^ 32)).reverse := by
      unfold msgEncode
      rw [take_left' (by simp)]
    rw [htake, reverse_reverse]
    exact readLe_leBytes ((Nat.mod_lt _ (by decide)).trans_le (by norm_num))
  have hlen : (msgEncode raw).length = 4 + raw.length := by simp [msgEncode]
  have hdrop : (msgEncode raw).drop 4 = raw := by
    unfold msgEncode
    rw [drop_left' (by simp)]
  unfold msgDecode
  rw [if_neg (by omega)]
  dsimp only
  rw [hread, hdrop, if_neg (by omega)]

lemma entryFields_lt_of_wireSize (h : wireSize m < 2 ^ 32) {e : WireEntry} (he : e ∈ m.entries) :
    (entryFields e).length < 2 ^ 32 := by
  have hsum := single_le_sum (fun _ _ => zero_le) _
    (mem_map_of_mem (f := fun e => 1 + (writeVarint (entryFields e).length).length +
      (entryFields e).length) he)
  unfold wireSize at h
  omega

lemma length_encodeEntry_of_lt (h : (entryFields e).length < 2 ^ 32) : (encodeEntry e).length =
      1 + (writeVarint (entryFields e).length).length + (entryFields e).length := by
  rw [encodeEntry, Nat.mod_eq_of_lt h, take_length]
  simp only [length_cons, length_append]
  omega

lemma length_encodeWire_of_lt (h : ∀ e ∈ m.entries, (entryFields e).length < 2 ^ 32) :
    (encodeWire m).length = wireSize m := by
  unfold encodeWire wireSize
  rw [length_append, length_flatMap]
  congr 2
  exact map_congr_left fun e he => length_encodeEntry_of_lt (h e he)

lemma transmit_of_lt (h : m.Sendable) (hsize : wireSize m < 2 ^ 32) : transmit m = some m := by
  have hlen : ∀ e ∈ m.entries, (entryFields e).length < 2 ^ 32 :=
    fun e he => entryFields_lt_of_wireSize hsize he
  have hsame := length_encodeWire_of_lt hlen
  have hne : encodeWire m ≠ [] := by
    intro hnil
    have hhead := (length_headFields m).2.2
    have hzero : (encodeWire m).length = 0 := by simp [hnil]
    unfold encodeWire at hzero
    rw [length_append] at hzero
    omega
  unfold transmit
  rw [msgDecode_msgEncode, hsame, Nat.mod_eq_of_lt hsize, ← hsame, take_length]
  simp only [bind_some, decodeWire, if_neg hne]
  exact congrArg some (msgReads_encodeWire h hlen _ le_rfl)

end

/-! ## What is too large is not -/

section

variable {m : WireMsg} {e : WireEntry}

/-- The bytes of a message that are not the codec's own. -/
def content (m : WireMsg) : Nat := m.context.length + (m.entries.map fun e => e.data.length).sum

lemma content_setNat (field v : Nat) (m : WireMsg) : content (setNat field v m) = content m := by
  unfold setNat
  split_ifs <;> rfl

lemma entryLoop_data (fuel : Nat) (e : WireEntry) (bs : Bytes) :
    (entryLoop fuel e bs).data.length ≤ max e.data.length bs.length := by
  induction fuel generalizing e bs with
  | zero => exact le_max_left _ _
  | succ fuel ih =>
    cases bs with
    | nil => exact le_max_left _ _
    | cons tag bs =>
      have h64 := readLax_length 64 bs
      have h32 := readLax_length 32 bs
      have hnext : ∀ (e' : WireEntry) (rest : Bytes), e'.data = e.data →
          rest.length ≤ bs.length →
          (entryLoop fuel e' rest).data.length ≤ max e.data.length (tag :: bs).length := by
        intro e' rest hdata hrest
        refine (ih e' rest).trans ?_
        rw [hdata, length_cons]
        omega
      have hdrop : ((readLax 32 bs).2.drop (readLax 32 bs).1).length ≤ bs.length := by
        rw [length_drop]
        omega
      rw [entryLoop]
      dsimp only
      split_ifs
      · exact hnext _ _ rfl h64
      · exact hnext _ _ rfl h64
      · exact hnext _ _ rfl h32
      · exact hnext _ _ rfl h64
      · refine (ih _ _).trans ?_
        simp only [length_take, length_cons]
        omega
      · exact hnext _ _ rfl hdrop
      · exact le_max_left _ _

lemma msgLoop_content (fuel : Nat) (m : WireMsg) (bs : Bytes) :
    content (msgLoop fuel m bs) ≤ content m + bs.length := by
  induction fuel generalizing m bs with
  | zero => exact Nat.le_add_right _ _
  | succ fuel ih =>
    cases bs with
    | nil => exact Nat.le_add_right _ _
    | cons tag bs =>
      have h64 := readLax_length 64 bs
      have h32 := readLax_length 32 bs
      rw [msgLoop]
      dsimp only
      -- every round drops at least as many bytes as it adds to the message
      split_ifs with hnat htype hbytes hshort hctx hentry
      · refine (ih _ _).trans ?_
        change content m + _ ≤ _
        rw [length_cons]
        omega
      · refine (ih _ _).trans ?_
        rw [content_setNat, length_cons]
        omega
      · exact Nat.le_add_right _ _
      · refine (ih _ _).trans ?_
        simp only [content, length_take, length_drop, length_cons]
        omega
      · have hdata := entryLoop_data (readLax 32 bs).1 {} ((readLax 32 bs).2.take (readLax 32 bs).1)
        rw [length_take] at hdata
        refine (ih _ _).trans ?_
        simp only [content, map_append, sum_append, map_cons, map_nil,
          sum_singleton, length_drop, length_cons]
        simp only [length_nil] at hdata
        omega
      · refine (ih _ _).trans ?_
        rw [length_drop, length_cons]
        omega
      · exact Nat.le_add_right _ _

lemma length_encodeEntry_le (e : WireEntry) :
    (encodeEntry e).length + (if 2 ^ 32 ≤ (entryFields e).length then 2 ^ 32 else 0) ≤
      1 + (writeVarint (entryFields e).length).length + (entryFields e).length := by
  have hmod := Nat.mod_le (entryFields e).length (2 ^ 32)
  have hvar := length_writeVarint_mono hmod
  have htake := length_take_le ((entryFields e).length % 2 ^ 32) (entryFields e)
  simp only [encodeEntry, length_cons, length_append]
  split
  · rename_i hge
    have hcut : (entryFields e).length % 2 ^ 32 + 2 ^ 32 ≤ (entryFields e).length := by omega
    omega
  · omega

lemma length_entries_le (es : List WireEntry) : (es.flatMap encodeEntry).length +
        (if ∃ e ∈ es, 2 ^ 32 ≤ (entryFields e).length then 2 ^ 32 else 0) ≤
      (es.map fun e => 1 + (writeVarint (entryFields e).length).length +
        (entryFields e).length).sum := by
  induction es with
  | nil => simp
  | cons e es ih =>
    have he := length_encodeEntry_le e
    rw [flatMap_cons, length_append, map_cons, sum_cons]
    by_cases hbig : 2 ^ 32 ≤ (entryFields e).length
    · rw [if_pos hbig] at he
      rw [if_pos ⟨e, by simp, hbig⟩]
      omega
    rw [if_neg hbig] at he
    simp only [mem_cons, exists_eq_or_imp, hbig, false_or]
    omega

lemma length_payload_le (hsize : 2 ^ 32 ≤ wireSize m) :
    (encodeWire m).length % 2 ^ 32 + 2 ^ 32 ≤ wireSize m := by
  by_cases hbig : ∃ e ∈ m.entries, 2 ^ 32 ≤ (entryFields e).length
  · have h := length_entries_le m.entries
    rw [if_pos hbig] at h
    have hmod := Nat.mod_le (encodeWire m).length (2 ^ 32)
    unfold wireSize
    unfold encodeWire at hmod ⊢
    rw [length_append] at hmod ⊢
    omega
  have hlen : ∀ e ∈ m.entries, (entryFields e).length < 2 ^ 32 := by
    intro e he
    by_contra hge
    exact hbig ⟨e, he, Nat.not_lt.1 hge⟩
  rw [length_encodeWire_of_lt hlen]
  omega

lemma sum_entries_le (es : List WireEntry) :
    (es.map fun e => 1 + (writeVarint (entryFields e).length).length + (entryFields e).length).sum ≤
      (es.map fun e => e.data.length).sum + 45 * es.length := by
  induction es with
  | nil => simp
  | cons e es ih =>
    have hvar := length_writeVarint_le (entryFields e).length
    have hfields := (length_entryFields e).2
    simp only [map_cons, sum_cons, length_cons]
    omega

lemma wireSize_lt (h : m.Sendable) : wireSize m < content m + 2 ^ 32 := by
  have hhead := (length_headFields m).2.1
  have hentries := sum_entries_le m.entries
  have hcount := h.count
  unfold wireSize content
  split_ifs at hhead <;> omega

lemma transmit_ne_of_le (h : m.Sendable) (hsize : 2 ^ 32 ≤ wireSize m) : transmit m ≠ some m := by
  have hpayload := length_payload_le hsize
  have hlt := wireSize_lt h
  unfold transmit
  rw [msgDecode_msgEncode, bind_some, decodeWire]
  split
  · simp
  intro heq
  -- the content read is at most what was transmitted, which is less than the content sent
  have hcontent := msgLoop_content ((encodeWire m).take ((encodeWire m).length % 2 ^ 32)).length {}
    ((encodeWire m).take ((encodeWire m).length % 2 ^ 32))
  rw [some.inj heq] at hcontent
  have htake := length_take_le ((encodeWire m).length % 2 ^ 32) (encodeWire m)
  have hzero : content {} = 0 := rfl
  omega

lemma transmit_iff (h : m.Sendable) : transmit m = some m ↔ wireSize m < 2 ^ 32 := by
  constructor
  · intro heq
    by_contra hge
    exact transmit_ne_of_le h (Nat.not_lt.1 hge) heq
  · exact transmit_of_lt h

end

/-- The buffers suffice, and a message arrives exactly if it has less than four gigabytes. -/
theorem wire_codec {m : WireMsg} (h : m.Sendable) : (encodeWire m).length ≤ need m ∧
      (∀ e ∈ m.entries, (entryFields e).length ≤ entryNeed e) ∧
      (transmit m = some m ↔ wireSize m < 2 ^ 32) :=
  ⟨encodeWire_le_need m, fun e _ => entryFields_le_need e, transmit_iff h⟩

def smallMsg : WireMsg :=
  { type := 3, dest := 2, sender := 1, term := 5, entries := [{ term := 5, index := 9, data := [7, 8] }] }

theorem wire_codec_small : smallMsg.Sendable ∧ (encodeWire smallMsg).length ≤ need smallMsg ∧
      (∀ e ∈ smallMsg.entries, (entryFields e).length ≤ entryNeed e) ∧
      (transmit smallMsg = some smallMsg ↔ wireSize smallMsg < 2 ^ 32) := by
  have h : smallMsg.Sendable := ⟨by decide, by decide, by decide⟩
  exact ⟨h, wire_codec h⟩

def largeMsg (data : List UInt8) : WireMsg :=
  { smallMsg with entries := [{ term := 5, index := 9, data := data }] }

lemma largeMsg_cut {data : Bytes} (hdata : data.length = 2 ^ 32 - 1) :
    (largeMsg data).Sendable ∧ transmit (largeMsg data) ≠ some (largeMsg data) := by
  have h : (largeMsg data).Sendable := by
    refine ⟨(by decide : 0 < 2 ^ 32), (by decide : 1 ≤ 256), fun e he => ?_⟩
    rw [mem_singleton.1 he]
    change data.length < 2 ^ 32
    omega
  refine ⟨h, transmit_ne_of_le h ?_⟩
  have hfields := (length_entryFields { term := 5, index := 9, data := data }).1
  have hhead := (length_headFields (largeMsg data)).2.2
  unfold wireSize
  simp only [largeMsg, map_cons, map_nil, sum_singleton] at hfields hhead ⊢
  omega

/-- The data of the entry is one byte short of four gigabytes. -/
theorem largeMsg_not_transmitted : ∃ data : List UInt8, data.length = 2 ^ 32 - 1 ∧
    (largeMsg data).Sendable ∧ transmit (largeMsg data) ≠ some (largeMsg data) :=
  ⟨List.replicate (2 ^ 32 - 1) 7, length_replicate, largeMsg_cut length_replicate⟩

end Cetcd.Peer
