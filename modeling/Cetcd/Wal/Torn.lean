import Cetcd.Wal.Record

/-!
# Torn tails

A crash leaves some prefix of the file, and `cetcd_wal_encoder_create` appends behind whatever is
there. Reading alone copes with a torn tail; writing behind it does not.
-/

namespace Cetcd.Wal

open Lib List

/-! ## What a crash leaves -/

/-- The records whose header and message are within the first `k` bytes of the file. -/
def complete : List Sealable → Nat → List Sealable
  | [], _ => []
  | rec :: recs, k =>
    if 8 + rec.1.seal.payload.length ≤ k then rec :: complete recs (k - (encode rec.1).length)
    else []

/-- The crash fell between two frames. -/
def Boundary (recs : List Sealable) (k : Nat) : Prop :=
  ∃ j, (encodeAll recs).take k = encodeAll (recs.take j)

/-- Nothing, or a beginning of the frame of `rec`. -/
structure TornFrame (rec : Sealable) (torn : List UInt8) : Prop where
  bytes : torn = (encode rec.1).take torn.length
  pos : 1 ≤ torn.length
  lt : torn.length < (encode rec.1).length

section

variable {recs : List Sealable} {rec : Sealable} {torn : Bytes} {k : Nat}

lemma encodeAll_cons (rec : Sealable) (recs : List Sealable) :
    encodeAll (rec :: recs) = encode rec.1 ++ encodeAll recs := by
  simp [encodeAll]

lemma complete_zero (recs : List Sealable) : complete recs 0 = [] := by
  cases recs with
  | nil => rfl
  | cons rec recs =>
    rw [complete, if_neg (by omega)]

lemma take_encodeAll (recs : List Sealable) (k : Nat) :
    (∃ j, (encodeAll recs).take k = encodeAll (recs.take j) ∧ complete recs k = recs.take j) ∨
      ∃ j rec torn, TornFrame rec torn ∧ (encodeAll recs).take k = encodeAll (recs.take j) ++ torn ∧
        complete recs k =
          recs.take j ++ if 8 + rec.1.seal.payload.length ≤ torn.length then [rec] else [] := by
  induction recs generalizing k with
  | nil => exact .inl ⟨0, by simp [encodeAll], rfl⟩
  | cons rec recs ih =>
    have hlen := length_encode rec.1
    rw [encodeAll_cons]
    obtain hlt | hge := Nat.lt_or_ge k (encode rec.1).length
    · rw [take_append_of_le_length hlt.le]
      obtain rfl | hpos := Nat.eq_zero_or_pos k
      · exact .inl ⟨0, by simp [encodeAll], complete_zero _⟩
      have htorn : ((encode rec.1).take k).length = k := by
        rw [length_take]
        omega
      refine .inr ⟨0, rec, (encode rec.1).take k, ⟨by rw [htorn], by omega, by omega⟩,
        by simp [encodeAll], ?_⟩
      rw [complete, htorn, show k - (encode rec.1).length = 0 by omega, complete_zero]
      rfl
    have htake : (encode rec.1 ++ encodeAll recs).take k =
        encode rec.1 ++ (encodeAll recs).take (k - (encode rec.1).length) := by
      rw [take_append, take_of_length_le hge]
    have hcomplete : complete (rec :: recs) k =
        rec :: complete recs (k - (encode rec.1).length) := by
      rw [complete, if_pos (by omega)]
    rw [htake, hcomplete]
    obtain ⟨j, hbytes, hdone⟩ | ⟨j, r, torn, ht, hbytes, hdone⟩ := ih (k - (encode rec.1).length)
    · exact .inl ⟨j + 1, by rw [hbytes, take_succ_cons, encodeAll_cons],
        by rw [hdone, take_succ_cons]⟩
    refine .inr ⟨j + 1, r, torn, ht, ?_, ?_⟩
    · rw [hbytes, take_succ_cons, encodeAll_cons, append_assoc]
    · rw [hdone, take_succ_cons, cons_append]

end

/-! ## Reading a torn tail -/

section

variable {rec : Sealable} {torn : Bytes} {file : Bytes}

lemma decode_short (h : file.length < 8) : decode file = .error (-1) := by
  unfold decode
  rw [if_pos h]

lemma decode_short_body (h8 : 8 ≤ file.length)
    (h : file.length < 8 + frameLength (readLe (file.take 8))) : decode file = .error (-1) := by
  unfold decode
  rw [if_neg (by omega)]
  dsimp only
  split
  · rfl
  · rw [if_pos (by rw [length_drop]; omega)]

lemma frameLength_of_take {len : Nat} (hlen : len < 2 ^ 56) {bs : Bytes}
    (h : bs.take 7 = (leBytes 8 (header len)).take 7) (hbs : bs.length = 8) :
    frameLength (readLe bs) = len := by
  have hsplit : ∀ cs : Bytes, cs.length = 8 →
      frameLength (readLe cs) = frameLength (readLe (cs.take 7)) := by
    intro cs hcs
    have h7 : (cs.take 7).length = 7 := by
      rw [length_take]
      omega
    have hread := readLe_append (cs.take 7) (cs.drop 7)
    rw [take_append_drop, h7] at hread
    unfold frameLength
    rw [hread, show (256 : Nat) ^ 7 = 2 ^ 56 by norm_num, Nat.add_mul_mod_self_left]
  rw [hsplit bs hbs, h, ← hsplit _ (by simp), readLe_leBytes (header_lt len),
    frameLength_header hlen]

variable (h : TornFrame rec torn)

include h

lemma TornFrame.frameLength (h7 : 7 ≤ torn.length) (tail : Bytes)
    (h8 : 8 ≤ (torn ++ tail).length) :
    Wal.frameLength (readLe ((torn ++ tail).take 8)) = rec.1.seal.payload.length := by
  have htake : torn.take 7 = (leBytes 8 (header rec.1.seal.payload.length)).take 7 := by
    rw [h.bytes, take_take, min_eq_left h7]
    unfold encode writeFrame
    rw [append_assoc, take_append_of_le_length (by simp)]
  refine frameLength_of_take rec.2.fits ?_ (by rw [length_take]; omega)
  rw [take_take, show min 7 8 = 7 by rfl, take_append_of_le_length h7, htake]

lemma TornFrame.decode_of_lt
    (hlt : torn.length < 8 + rec.1.seal.payload.length) : decode torn = .error (-1) := by
  obtain h8 | h8 := Nat.lt_or_ge torn.length 8
  · exact decode_short h8
  refine decode_short_body h8 ?_
  have hlen := h.frameLength (by omega) [] (by simpa using h8)
  rw [append_nil] at hlen
  rw [hlen]
  exact hlt

lemma TornFrame.eq_message
    (hge : 8 + rec.1.seal.payload.length ≤ torn.length) :
    torn = leBytes 8 (header rec.1.seal.payload.length) ++ rec.1.seal.payload ++
      List.replicate (torn.length - (8 + rec.1.seal.payload.length)) 0 := by
  have hlt := h.lt
  rw [length_encode] at hlt
  conv_lhs => rw [h.bytes]
  unfold encode writeFrame
  have hlen : (leBytes 8 (header rec.1.seal.payload.length) ++ rec.1.seal.payload).length =
      8 + rec.1.seal.payload.length := by simp
  rw [take_append, take_of_length_le (by omega), hlen, take_replicate, min_eq_left (by omega)]

/-- The seek over the padding goes behind the end of the file. -/
lemma TornFrame.decode_of_ge (hge : 8 + rec.1.seal.payload.length ≤ torn.length) :
    decode torn = .ok (rec.1.seal, []) := by
  have hdec := decode_message rec.2
    (List.replicate (torn.length - (8 + rec.1.seal.payload.length)) 0)
  have hlt := h.lt
  rw [length_encode] at hlt
  rwa [← h.eq_message hge, drop_of_length_le (by rw [length_replicate]; omega)] at hdec

lemma TornFrame.decodeAll : Wal.decodeAll torn =
      if 8 + rec.1.seal.payload.length ≤ torn.length then [rec.1.seal] else [] := by
  split
  · rename_i hge
    rw [decodeAll_of_ok (h.decode_of_ge hge)]
    rfl
  rename_i hlt
  exact decodeAll_of_error (h.decode_of_lt (by omega))

end

lemma decodeAll_take (recs : List Sealable) (k : Nat) :
    Wal.decodeAll ((encodeAll recs).take k) = sealAll (complete recs k) := by
  obtain ⟨j, hbytes, hdone⟩ | ⟨j, rec, torn, ht, hbytes, hdone⟩ := take_encodeAll recs k
  · have h := decodeAll_encodeAll (recs.take j) []
    rw [append_nil] at h
    rw [hbytes, hdone, h]
    exact append_nil _
  rw [hbytes, hdone, decodeAll_encodeAll, ht.decodeAll]
  unfold sealAll
  rw [map_append]
  split <;> rfl

/-! ## Writing behind a torn tail -/

section

variable {rec : Sealable} {torn : Bytes} {bs rest : Bytes}

lemma parseField_data_le {tmp tmp' : WalRecord} (h : parseField tmp bs = some (tmp', rest)) :
    rest.length < bs.length ∧ (tmp'.data.length ≤ tmp.data.length ∨ tmp'.data.length < bs.length) := by
  unfold parseField at h
  split at h
  · cases h
  rename_i tag bs1 htag
  have h1 := readVarint_length htag
  dsimp only at h
  split at h
  · split at h
    · cases h
    rename_i val bs2 hval
    have h2 := readVarint_length hval
    split_ifs at h <;> cases h <;> exact ⟨by omega, .inl le_rfl⟩
  split at h
  · split at h
    · cases h
    rename_i len bs2 hlen
    have h2 := readVarint_length hlen
    split_ifs at h
    · cases h
      refine ⟨by rw [length_drop]; omega, .inr ?_⟩
      dsimp only
      rw [length_take]
      omega
    cases h
    exact ⟨by rw [length_drop]; omega, .inl le_rfl⟩
  split_ifs at h
  · cases h
    exact ⟨by rw [length_drop]; omega, .inl le_rfl⟩
  cases h
  exact ⟨by rw [length_drop]; omega, .inl le_rfl⟩

lemma parseLoop_data_le {fuel : Nat} {tmp rec : WalRecord} (h : parseLoop fuel tmp bs = some rec) :
    rec.data.length ≤ tmp.data.length ∨ rec.data.length < bs.length := by
  induction fuel generalizing tmp bs with
  | zero =>
    cases bs with
    | nil =>
      rw [parseLoop] at h
      cases h
      exact .inl le_rfl
    | cons b bs => cases h
  | succ fuel ih =>
    cases bs with
    | nil =>
      rw [parseLoop] at h
      cases h
      exact .inl le_rfl
    | cons b bs =>
      rw [parseLoop] at h
      split at h
      · cases h
      rename_i tmp' rest hfield
      obtain ⟨hrest, hdata⟩ := parseField_data_le hfield
      obtain hle | hlt := ih h
      all_goals omega

lemma decode_data_le {file : Bytes} {rec : WalRecord} (h : decode file = .ok (rec, rest)) :
    rec.data.length ≤ frameLength (readLe (file.take 8)) := by
  obtain ⟨_, _, hparse, _⟩ := decode_eq_ok h
  obtain hle | hlt := parseLoop_data_le hparse
  · exact hle.trans zero_le
  rw [length_take] at hlt
  omega

def smallRecord : Sealable :=
  ⟨{}, ⟨fun h => absurd rfl h, rfl, by decide, by decide⟩⟩

lemma encode_smallRecord :
    encode smallRecord.1 = [6, 0, 0, 0, 0, 0, 0, 0x82, 8, 1, 16, 0, 26, 0, 0, 0] := by decide

def bigRecord (n : Nat) (hn : n < 2 ^ 55) : Sealable :=
  ⟨{ data := List.replicate n 0 }, by
    refine ⟨fun _ => .inl rfl, rfl, by norm_num [RecType.code], ?_⟩
    have h := (length_fields (WalRecord.seal { data := List.replicate n 0 }).type
      (WalRecord.seal { data := List.replicate n 0 }).crc
      (WalRecord.seal { data := List.replicate n 0 }).data.length).2
    unfold WalRecord.payload
    rw [length_append, seal_data] at *
    simp only [length_replicate] at *
    omega⟩

/-- Six bytes of a header and a small frame make the decoder look for far more bytes. -/
lemma decode_torn_header (h6 : torn.length ≤ 6) (hpos : 1 ≤ torn.length) :
    decode (torn ++ encode smallRecord.1) = .error (-1) := by
  have hlen : (torn ++ encode smallRecord.1).length = torn.length + 16 := by
    rw [length_append, encode_smallRecord]
    rfl
  refine decode_short_body (by omega) ?_
  have htail : readLe ((encode smallRecord.1).take (8 - torn.length)) = 6 := by
    rw [encode_smallRecord]
    have hcases : torn.length = 1 ∨ torn.length = 2 ∨ torn.length = 3 ∨ torn.length = 4 ∨
        torn.length = 5 ∨ torn.length = 6 := by omega
    rcases hcases with h | h | h | h | h | h <;> rw [h] <;> decide
  have hread : readLe ((torn ++ encode smallRecord.1).take 8) =
      readLe torn + 256 ^ torn.length * 6 := by
    rw [take_append, take_of_length_le (by omega), readLe_append, htail]
  have hlow := readLe_lt torn
  have hpow : 256 ^ torn.length ≤ 256 ^ 6 := Nat.pow_le_pow_right (by decide) h6
  have hpow1 : 256 ^ 1 ≤ 256 ^ torn.length := Nat.pow_le_pow_right (by decide) hpos
  have hlength : frameLength (readLe ((torn ++ encode smallRecord.1).take 8)) =
      readLe torn + 256 ^ torn.length * 6 := by
    rw [hread]
    unfold frameLength
    refine Nat.mod_eq_of_lt ?_
    omega
  rw [hlength, hlen]
  omega

lemma decode_drop_smallRecord {d : Nat} (hpos : 1 ≤ d) (hlt : d < 8) :
    decode ((encode smallRecord.1).drop d) = .error (-1) := by
  rw [encode_smallRecord]
  interval_cases d <;> decide

lemma parse_replaced {rec : WalRecord} (hcode : rec.type.code < 2 ^ 64)
    (hlen : rec.data.length < 2 ^ 64) {p : Nat} (hp : 33 ≤ p) {new : Bytes}
    (hnew : p + new.length = rec.payload.length) :
    ∃ r, parse (rec.payload.take p ++ new) = some r ∧ r.data.length = rec.data.length := by
  have hfields := (length_fields rec.type rec.crc rec.data.length).2
  have htake : rec.payload.take p = fields rec.type rec.crc rec.data.length ++
      rec.data.take (p - (fields rec.type rec.crc rec.data.length).length) := by
    unfold WalRecord.payload
    rw [take_append, take_of_length_le (by omega)]
  have htotal : rec.payload.length =
      (fields rec.type rec.crc rec.data.length).length + rec.data.length := by
    unfold WalRecord.payload
    rw [length_append]
  have hdata : (rec.data.take (p - (fields rec.type rec.crc rec.data.length).length) ++ new).length =
      rec.data.length := by
    rw [length_append, length_take]
    omega
  refine ⟨⟨.ofCode rec.type.code, rec.crc, _⟩, ?_, hdata⟩
  rw [htake, append_assoc]
  have hshort : (rec.data.take (p - (fields rec.type rec.crc rec.data.length).length) ++ new).length
      < 2 ^ 64 := by omega
  have h := parse_payload rec.type rec.crc hcode hshort
  rw [hdata] at h
  exact h

lemma decode_of_decodeAll {bytes : Bytes} {r : WalRecord} (h : Wal.decodeAll bytes = [r]) :
    ∃ rest, decode bytes = .ok (r, rest) := by
  cases hdec : decode bytes with
  | error code =>
    rw [decodeAll_of_error hdec] at h
    cases h
  | ok p =>
    obtain ⟨r', rest⟩ := p
    rw [decodeAll_of_ok hdec] at h
    exact ⟨rest, by rw [← (List.cons.inj h).1]⟩

variable (h : TornFrame rec torn)

include h

lemma TornFrame.frameLength_append (h7 : 7 ≤ torn.length)
    (new : Sealable) :
    Wal.frameLength (readLe ((torn ++ encode new.1).take 8)) = rec.1.seal.payload.length := by
  refine h.frameLength h7 _ ?_
  rw [length_append, length_encode]
  omega

lemma TornFrame.body (h8 : 8 ≤ torn.length)
    (hlt : torn.length < 8 + rec.1.seal.payload.length) (new : Bytes) :
    ((torn ++ new).drop 8).take rec.1.seal.payload.length =
      rec.1.seal.payload.take (torn.length - 8) ++
        new.take (rec.1.seal.payload.length - (torn.length - 8)) := by
  have hdrop : (torn ++ new).drop 8 = rec.1.seal.payload.take (torn.length - 8) ++ new := by
    rw [drop_append_of_le_length h8]
    congr 1
    conv_lhs => rw [h.bytes]
    unfold encode writeFrame
    rw [drop_take, append_assoc, drop_append_of_le_length (by simp),
      drop_of_length_le (by simp), nil_append,
      take_append_of_le_length (by omega)]
  rw [hdrop, take_append, take_of_length_le (by rw [length_take]; omega),
    length_take, min_eq_left (by omega)]

lemma TornFrame.exists_unread (h7 : 7 ≤ torn.length)
    (hlt : torn.length < 8 + rec.1.seal.payload.length) :
    ∃ new : Sealable, Wal.decodeAll (torn ++ encode new.1) ≠ [new.1.seal] := by
  by_cases hbig : rec.1.seal.payload.length + 1 < 2 ^ 55
  · -- more data than the old frame has room for
    refine ⟨bigRecord (rec.1.seal.payload.length + 1) hbig, fun hall => ?_⟩
    obtain ⟨rest, hdec⟩ := decode_of_decodeAll hall
    have hle := decode_data_le hdec
    rw [h.frameLength_append h7, seal_data] at hle
    have hdata : (bigRecord (rec.1.seal.payload.length + 1) hbig).1.data.length =
        rec.1.seal.payload.length + 1 := by simp [bigRecord]
    omega
  -- so much data was announced that only data can be missing
  refine ⟨smallRecord, fun hall => ?_⟩
  obtain ⟨rest, hdec⟩ := decode_of_decodeAll hall
  obtain ⟨_, hbody, hparse, _⟩ := decode_eq_ok hdec
  rw [h.frameLength_append h7] at hbody hparse
  have hsmall : (encode smallRecord.1).length = 16 := by
    rw [encode_smallRecord]
    rfl
  rw [length_drop, length_append, hsmall] at hbody
  have hcode : rec.1.seal.type.code < 2 ^ 64 := by
    rw [seal_type]
    exact rec.2.code
  have hfits := rec.2.fits
  have hfields := (length_fields rec.1.seal.type rec.1.seal.crc rec.1.seal.data.length).2
  have htotal : rec.1.seal.payload.length =
      (fields rec.1.seal.type rec.1.seal.crc rec.1.seal.data.length).length +
        rec.1.seal.data.length := by
    rw [WalRecord.payload, length_append]
  have hfill : torn.length - 8 + ((encode smallRecord.1).take
      (rec.1.seal.payload.length - (torn.length - 8))).length = rec.1.seal.payload.length := by
    rw [length_take, hsmall]
    omega
  obtain ⟨r, hr, hlen⟩ := parse_replaced hcode (by omega) (by omega) hfill
  rw [h.body (by omega) hlt, hr] at hparse
  have hempty : smallRecord.1.seal.data.length = 0 := by rw [seal_data]; rfl
  rw [← Option.some.inj hparse] at hempty
  omega

lemma TornFrame.exists_lost :
    ∃ new : Sealable, Wal.decodeAll (torn ++ encode new.1) ≠
      (if 8 + rec.1.seal.payload.length ≤ torn.length then [rec.1.seal] else []) ++
        [new.1.seal] := by
  by_cases hge : 8 + rec.1.seal.payload.length ≤ torn.length
  · -- the padding: its missing bytes are skipped in the next frame
    refine ⟨smallRecord, ?_⟩
    have hlt := h.lt
    rw [length_encode] at hlt
    have hpad := padding_lt rec.1.seal.payload.length
    have hdec := decode_message rec.2
      (List.replicate (torn.length - (8 + rec.1.seal.payload.length)) 0 ++ encode smallRecord.1)
    rw [← append_assoc, ← h.eq_message hge, drop_append,
      drop_of_length_le (by rw [length_replicate]; omega), nil_append,
      length_replicate] at hdec
    rw [if_pos hge, decodeAll_of_ok hdec,
      decodeAll_of_error (decode_drop_smallRecord (by omega) (by omega))]
    simp
  simp only [if_neg hge, nil_append]
  obtain h6 | h7 := Nat.lt_or_ge torn.length 7
  · refine ⟨smallRecord, ?_⟩
    rw [decodeAll_of_error (decode_torn_header (by omega) h.pos)]
    simp
  · exact h.exists_unread h7 (by omega)

end

/-! ## Recovery -/

/-- Decoding the file a crash left returns the records completely written. Records appended after it
was opened again come back behind them if and only if the crash fell between two frames. -/
theorem recovery_iff_boundary (recs : List Sealable) (k : Nat) :
    decodeAll ((encodeAll recs).take k) = sealAll (complete recs k) ∧
      ((∀ recs' : List Sealable, decodeAll ((encodeAll recs).take k ++ encodeAll recs') =
        sealAll (complete recs k ++ recs')) ↔ Boundary recs k) := by
  refine ⟨decodeAll_take recs k, fun hall => ?_, ?_⟩
  · obtain ⟨j, hbytes, _⟩ | ⟨j, rec, torn, ht, hbytes, hdone⟩ := take_encodeAll recs k
    · exact ⟨j, hbytes⟩
    exfalso
    obtain ⟨new, hnew⟩ := ht.exists_lost
    have hfile := hall [new]
    rw [hbytes, append_assoc, decodeAll_encodeAll, hdone] at hfile
    refine hnew ?_
    have hone : encodeAll [new] = encode new.1 := by simp [encodeAll]
    rw [hone] at hfile
    simp only [sealAll, map_append, append_assoc] at hfile
    have htail := append_cancel_left hfile
    rw [htail]
    split <;> rfl
  rintro ⟨j, hbytes⟩ recs'
  have hdone : sealAll (complete recs k) = sealAll (recs.take j) := by
    have h := decodeAll_encodeAll (recs.take j) []
    rw [append_nil] at h
    rw [← decodeAll_take, hbytes, h]
    exact append_nil _
  have hnew := decodeAll_encodeAll recs' []
  rw [append_nil] at hnew
  rw [hbytes, decodeAll_encodeAll, hnew]
  simp only [sealAll, map_append] at hdone ⊢
  rw [hdone]
  exact congrArg _ (append_nil _)

/-- A hard state as `cetcd_wal_encode_hard_state` writes it: term 1, vote 1, commit 0. -/
def stateRecord : Sealable :=
  ⟨{ type := .state, data := [0x08, 1, 0x10, 1, 0x18, 0] },
    ⟨fun _ => .inl rfl, rfl, by decide, by decide +kernel⟩⟩

/-- The crash left the header and two bytes of the message; the hard state written after it is
swallowed, and nothing is read back. -/
theorem torn_tail_swallows :
    decodeAll ((encodeAll [stateRecord]).take 10 ++ encodeAll [stateRecord]) = [] ∧
      sealAll (complete [stateRecord] 10 ++ [stateRecord]) = [stateRecord.1.seal] := by
  refine ⟨by decide +kernel, by decide +kernel⟩

end Cetcd.Wal
