import Cetcd.Lib.Bytes

/-!
# WAL records and frames

`cetcd_wal_encode` and `cetcd_wal_decode`. A record is a message of three fields; a frame is its
length in eight bytes, the message, and zeros up to a multiple of eight. The decoder skips fields it
does not know and checks the CRC of the data. Writing a record appends its frame to the bytes that
are there (mode `ab`).
-/

namespace Cetcd.Wal

open Lib List

def crcBit (crc : UInt32) : UInt32 :=
  if crc &&& 1 ≠ 0 then (crc >>> 1) ^^^ 0x82F63B78 else crc >>> 1

def crcByte (crc : UInt32) (b : UInt8) : UInt32 := crcBit^[8] (crc ^^^ b.toUInt32)

/-- `crc32c`, the same bitwise routine in the encoder and the decoder. -/
def crc32c (crc : UInt32) (buf : List UInt8) : UInt32 := ~~~(buf.foldl crcByte (~~~crc))

/-- `cetcd_wal_rec_type`; the decoder stores any other number it reads as it is. -/
inductive RecType
  | metadata
  | entry
  | state
  | crc
  | snapshot
  | other (code : Nat)
  deriving DecidableEq

namespace RecType

def code : RecType → Nat
  | metadata => 1
  | entry => 2
  | state => 3
  | crc => 4
  | snapshot => 5
  | other code => code

/-- The cast of the number read to the 32-bit enumeration. -/
def ofCode (v : Nat) : RecType :=
  match v % 2 ^ 32 with
  | 1 => metadata
  | 2 => entry
  | 3 => state
  | 4 => crc
  | 5 => snapshot
  | n => other n

end RecType

/-- `cetcd_wal_record`; the defaults are those of `cetcd_wal_record_init`. -/
structure WalRecord where
  type : RecType := .metadata
  crc : UInt32 := 0
  data : List UInt8 := []
  deriving DecidableEq

/-- The checksum `cetcd_wal_encode` fills in when the caller left it zero. -/
def WalRecord.seal (rec : WalRecord) : WalRecord :=
  if rec.data ≠ [] ∧ rec.crc = 0 then { rec with crc := crc32c 0 rec.data } else rec

def fields (type : RecType) (crc : UInt32) (len : Nat) : List UInt8 :=
  0x08 :: writeVarint type.code ++ 0x10 :: writeVarint crc.toNat ++ 0x1a :: writeVarint len

def WalRecord.payload (rec : WalRecord) : List UInt8 :=
  fields rec.type rec.crc rec.data.length ++ rec.data

def padding (len : Nat) : Nat := (8 - len % 8) % 8

/-- 56 bits of length and, if there is padding, its size with the top bit set. -/
def header (len : Nat) : Nat :=
  len % 2 ^ 56 + if 0 < padding len then (0x80 + padding len) * 2 ^ 56 else 0

def writeFrame (buf : List UInt8) : List UInt8 :=
  leBytes 8 (header buf.length) ++ buf ++ List.replicate (padding buf.length) 0

/-- `cetcd_wal_encode`: the bytes it appends. -/
def encode (rec : WalRecord) : List UInt8 := writeFrame rec.seal.payload

/-- One round of the field loop: the record so far and the bytes behind the field. -/
def parseField (tmp : WalRecord) (bs : List UInt8) : Option (WalRecord × List UInt8) :=
  match readVarint bs with
  | none => none
  | some (tag, bs) =>
    let field := tag / 8
    let wire := tag % 8
    if wire = 0 then
      match readVarint bs with
      | none => none
      | some (val, bs) =>
        if field = 1 then some ({ tmp with type := .ofCode val }, bs)
        else if field = 2 then some ({ tmp with crc := UInt32.ofNat val }, bs)
        else some (tmp, bs)
    else if wire = 2 then
      match readVarint bs with
      | none => none
      | some (len, bs) =>
        if bs.length < len then none
        else if field = 3 then some ({ tmp with data := bs.take len }, bs.drop len)
        else some (tmp, bs.drop len)
    else if wire = 1 then if bs.length < 8 then none else some (tmp, bs.drop 8)
    else if wire = 5 then if bs.length < 4 then none else some (tmp, bs.drop 4)
    else none

/-- The field loop. The length of the message is fuel enough. -/
def parseLoop : Nat → WalRecord → List UInt8 → Option WalRecord
  | _, tmp, [] => some tmp
  | 0, _, _ :: _ => none
  | fuel + 1, tmp, b :: bs =>
    match parseField tmp (b :: bs) with
    | none => none
    | some (tmp', rest) => parseLoop fuel tmp' rest

def parse (bs : List UInt8) : Option WalRecord := parseLoop bs.length {} bs

def frameLength (header : Nat) : Nat := header % 2 ^ 56

def framePadding (header : Nat) : Nat :=
  if header / 2 ^ 63 % 2 = 1 then header / 2 ^ 56 % 2 ^ 7 else 0

/-- `cetcd_wal_decode` on the unread bytes: the record and what is unread after it, or the return
code. -/
def decode (file : List UInt8) : Except Int (WalRecord × List UInt8) :=
  if file.length < 8 then .error (-1)
  else
    let h := readLe (file.take 8)
    let body := file.drop 8
    if frameLength h = 0 then .error (-1)
    else if body.length < frameLength h then .error (-1)
    else
      match parse (body.take (frameLength h)) with
      | none => .error (-3)
      | some rec =>
        if rec.data ≠ [] ∧ crc32c 0 rec.data ≠ rec.crc then .error (-2)
        else .ok (rec, body.drop (frameLength h + framePadding h))

/-- The loop of `replay_wal_`: every record up to the first that cannot be decoded. -/
def decodeLoop : Nat → List UInt8 → List WalRecord
  | 0, _ => []
  | fuel + 1, file =>
    match decode file with
    | .error _ => []
    | .ok (rec, rest) => rec :: decodeLoop fuel rest

/-- Every frame takes eight bytes, so the length of the file is fuel enough. -/
def decodeAll (file : List UInt8) : List WalRecord := decodeLoop file.length file

/-- The checksum is right or left to the encoder, the type is read back, and 56 bits hold the
length. -/
structure WalRecord.Sound (rec : WalRecord) : Prop where
  crc : rec.data ≠ [] → rec.crc = 0 ∨ rec.crc = crc32c 0 rec.data
  type : RecType.ofCode rec.type.code = rec.type
  code : rec.type.code < 2 ^ 64
  fits : rec.seal.payload.length < 2 ^ 56

/-- A record `cetcd_wal_encode` may be given. -/
abbrev Sealable := { rec : WalRecord // rec.Sound }

def encodeAll (recs : List Sealable) : List UInt8 := recs.flatMap (fun rec => encode rec.1)

/-- The records as the decoder returns them. -/
def sealAll (recs : List Sealable) : List WalRecord := recs.map (fun rec => rec.1.seal)

section

variable {rec : WalRecord} {data : Bytes}

lemma seal_data (rec : WalRecord) : rec.seal.data = rec.data := by
  unfold WalRecord.seal
  split <;> rfl

lemma seal_type (rec : WalRecord) : rec.seal.type = rec.type := by
  unfold WalRecord.seal
  split <;> rfl

lemma WalRecord.Sound.seal_crc (h : rec.Sound) (hdata : rec.data ≠ []) :
    rec.seal.crc = crc32c 0 rec.seal.data := by
  rw [seal_data]
  unfold WalRecord.seal
  by_cases hzero : rec.crc = 0
  · rw [if_pos ⟨hdata, hzero⟩]
  rw [if_neg (fun hc => hzero hc.2)]
  exact (h.crc hdata).resolve_left hzero

lemma parseLoop_step {tmp tmp' : WalRecord} {bs rest : Bytes} {fuel : Nat}
    (h : parseField tmp bs = some (tmp', rest)) (hne : bs ≠ []) :
    parseLoop (fuel + 1) tmp bs = parseLoop fuel tmp' rest := by
  cases bs with
  | nil => exact absurd rfl hne
  | cons b bs =>
    rw [parseLoop, h]

lemma parseField_type (tmp : WalRecord) {v : Nat} (hv : v < 2 ^ 64) (rest : Bytes) :
    parseField tmp (0x08 :: (writeVarint v ++ rest)) = some ({ tmp with type := .ofCode v }, rest) := by
  unfold parseField
  rw [readVarint_byte (by decide)]
  dsimp only
  rw [if_pos (by decide), readVarint_writeVarint rest hv]
  dsimp only
  rw [if_pos (by decide)]

lemma parseField_crc (tmp : WalRecord) (crc : UInt32) (rest : Bytes) :
    parseField tmp (0x10 :: (writeVarint crc.toNat ++ rest)) = some ({ tmp with crc := crc }, rest) := by
  have hlt : crc.toNat < 2 ^ 64 := crc.toNat_lt.trans (by decide)
  unfold parseField
  rw [readVarint_byte (by decide)]
  dsimp only
  rw [if_pos (by decide), readVarint_writeVarint rest hlt]
  dsimp only
  rw [if_neg (by decide), if_pos (by decide), UInt32.ofNat_toNat]

lemma parseField_data (tmp : WalRecord) (hlen : data.length < 2 ^ 64) :
    parseField tmp (0x1a :: (writeVarint data.length ++ data)) = some ({ tmp with data := data }, []) := by
  unfold parseField
  rw [readVarint_byte (by decide)]
  dsimp only
  rw [if_neg (by decide), if_pos (by decide), readVarint_writeVarint data hlen]
  dsimp only
  rw [if_neg (lt_irrefl _), if_pos (by decide), take_length, drop_length]

lemma parse_payload (type : RecType) (crc : UInt32) (hcode : type.code < 2 ^ 64)
    (hlen : data.length < 2 ^ 64) :
    parse (fields type crc data.length ++ data) = some ⟨.ofCode type.code, crc, data⟩ := by
  have hbytes : fields type crc data.length ++ data =
      0x08 :: (writeVarint type.code ++ (0x10 :: (writeVarint crc.toNat ++
        (0x1a :: (writeVarint data.length ++ data))))) := by
    simp [fields]
  have hfuel : ∃ n, (fields type crc data.length ++ data).length = n + 1 + 1 + 1 := by
    refine ⟨(fields type crc data.length ++ data).length - 3, ?_⟩
    rw [hbytes]
    simp only [length_cons, length_append]
    omega
  obtain ⟨n, hn⟩ := hfuel
  unfold parse
  rw [hn, hbytes, parseLoop_step (parseField_type _ hcode _) (by simp),
    parseLoop_step (parseField_crc _ crc _) (by simp),
    parseLoop_step (parseField_data _ hlen) (by simp)]
  cases n <;> rfl

lemma length_fields (type : RecType) (crc : UInt32) (len : Nat) :
    6 ≤ (fields type crc len).length ∧ (fields type crc len).length ≤ 33 := by
  have h1 := length_writeVarint_pos type.code
  have h2 := length_writeVarint_pos crc.toNat
  have h3 := length_writeVarint_pos len
  have h1' := length_writeVarint_le type.code
  have h2' := length_writeVarint_le crc.toNat
  have h3' := length_writeVarint_le len
  simp only [fields, length_append, length_cons]
  omega

lemma padding_lt (len : Nat) : padding len < 8 := Nat.mod_lt _ (by decide)

lemma header_lt (len : Nat) : header len < 256 ^ 8 := by
  have hpad := padding_lt len
  unfold header
  split <;> omega

lemma frameLength_header {len : Nat} (h : len < 2 ^ 56) : frameLength (header len) = len := by
  unfold frameLength header
  split <;> omega

lemma framePadding_header (len : Nat) : framePadding (header len) = padding len := by
  have hpad := padding_lt len
  unfold framePadding header
  generalize padding len = p at hpad
  split <;> split <;> omega

lemma decode_message (h : rec.Sound) (tail : Bytes) :
    decode (leBytes 8 (header rec.seal.payload.length) ++ rec.seal.payload ++ tail) =
      .ok (rec.seal, tail.drop (padding rec.seal.payload.length)) := by
  have hlen := h.fits
  have hpos : 6 ≤ rec.seal.payload.length := by
    have := (length_fields rec.seal.type rec.seal.crc rec.seal.data.length).1
    unfold WalRecord.payload
    rw [length_append]
    omega
  have hparse : parse rec.seal.payload = some rec.seal := by
    have hdata : rec.seal.data.length < 2 ^ 64 := by
      have hle : rec.seal.data.length ≤ rec.seal.payload.length := by
        unfold WalRecord.payload
        rw [length_append]
        omega
      omega
    have hcode : rec.seal.type.code < 2 ^ 64 := by
      rw [seal_type]
      exact h.code
    unfold WalRecord.payload
    rw [parse_payload _ _ hcode hdata, seal_type, h.type, ← seal_type rec]
  generalize hpay : rec.seal.payload = pay at hlen hpos hparse
  have htake : (leBytes 8 (header pay.length) ++ pay ++ tail).take 8 =
      leBytes 8 (header pay.length) := by
    rw [append_assoc, take_append_of_le_length (by simp), take_of_length_le (by simp)]
  have hdrop : (leBytes 8 (header pay.length) ++ pay ++ tail).drop 8 = pay ++ tail := by
    rw [append_assoc, drop_append_of_le_length (by simp), drop_of_length_le (by simp), nil_append]
  unfold decode
  rw [if_neg (by simp only [length_append, length_leBytes]; omega)]
  dsimp only
  rw [htake, hdrop, readLe_leBytes (header_lt _), frameLength_header hlen, framePadding_header,
    if_neg (by omega), if_neg (by rw [length_append]; omega),
    take_append_of_le_length le_rfl, take_length, hparse]
  dsimp only
  rw [if_neg, drop_append]
  · rw [drop_of_length_le (by omega), nil_append, Nat.add_sub_cancel_left]
  rintro ⟨hne, hcrc⟩
  rw [seal_data] at hne
  exact hcrc (h.seal_crc hne).symm

lemma decode_encode (h : rec.Sound) (rest : Bytes) :
    decode (encode rec ++ rest) = .ok (rec.seal, rest) := by
  unfold encode writeFrame
  rw [append_assoc _ _ rest, decode_message h, drop_append_of_le_length (by simp),
    drop_of_length_le (by simp), nil_append]

lemma length_encode (rec : WalRecord) : (encode rec).length =
      8 + rec.seal.payload.length + padding rec.seal.payload.length := by
  unfold encode writeFrame
  simp [Nat.add_assoc]

end

variable {file rest : Bytes} {rec : WalRecord}

lemma decode_eq_ok (h : decode file = .ok (rec, rest)) :
    8 ≤ file.length ∧ frameLength (readLe (file.take 8)) ≤ (file.drop 8).length ∧
      parse ((file.drop 8).take (frameLength (readLe (file.take 8)))) = some rec ∧
      rest.length ≤ (file.drop 8).length := by
  unfold decode at h
  split at h
  · cases h
  rename_i hlen
  dsimp only at h
  split at h
  · cases h
  split at h
  · cases h
  rename_i hbody
  split at h
  · cases h
  rename_i hparse
  split at h
  · cases h
  cases h
  refine ⟨by omega, by omega, hparse, ?_⟩
  rw [length_drop]
  omega

lemma decode_length (h : decode file = .ok (rec, rest)) : rest.length < file.length := by
  obtain ⟨h8, _, _, hrest⟩ := decode_eq_ok h
  rw [length_drop] at hrest
  omega

lemma decodeLoop_congr {n n' : Nat} (h : file.length ≤ n) (h' : file.length ≤ n') :
    decodeLoop n file = decodeLoop n' file := by
  induction n generalizing n' file with
  | zero =>
    have hnil := length_eq_zero_iff.1 (Nat.le_zero.1 h)
    subst hnil
    cases n' <;> rfl
  | succ n ih =>
    cases n' with
    | zero =>
      have hnil := length_eq_zero_iff.1 (Nat.le_zero.1 h')
      subst hnil
      rfl
    | succ n' =>
      rw [decodeLoop, decodeLoop]
      cases hdec : decode file with
      | error code => rfl
      | ok p =>
        obtain ⟨rec, rest⟩ := p
        have hrest := decode_length hdec
        dsimp only
        rw [@ih rest n' (by omega) (by omega)]

lemma decodeAll_of_ok (h : decode file = .ok (rec, rest)) :
    decodeAll file = rec :: decodeAll rest := by
  have hrest := decode_length h
  unfold decodeAll
  cases hlen : file.length with
  | zero => omega
  | succ n =>
    rw [decodeLoop, h]
    dsimp only
    have hfuel : rest.length ≤ n := by omega
    rw [decodeLoop_congr hfuel le_rfl]

lemma decodeAll_of_error {code : Int} (h : decode file = .error code) : decodeAll file = [] := by
  unfold decodeAll
  cases file.length with
  | zero => rfl
  | succ n => rw [decodeLoop, h]

lemma decodeAll_encodeAll (recs : List Sealable) (tail : Bytes) :
    decodeAll (encodeAll recs ++ tail) = sealAll recs ++ decodeAll tail := by
  induction recs with
  | nil => rfl
  | cons rec recs ih =>
    have hbytes : encodeAll (rec :: recs) ++ tail = encode rec.1 ++ (encodeAll recs ++ tail) := by
      simp [encodeAll]
    rw [hbytes, decodeAll_of_ok (decode_encode rec.2 _), ih]
    rfl

end Cetcd.Wal
