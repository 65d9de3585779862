import Cetcd.Server.File

/-!
# What is written is read

The encoders of the log file and the decoder. Whatever was written comes back, and wherever the file
is cut, the decoder returns the records whose header and message are there and then reports the end:
never another record.
-/

namespace Cetcd.Server

open Lib Raft Wal List

/-! ## The encoders -/

/-- What the encoders are called with. -/
inductive Content
  | metadata (data : List UInt8)
  | disk (rec : DiskRecord)
  deriving DecidableEq

namespace Content

/-- The record given to `cetcd_wal_encode`. -/
def record : Content → WalRecord
  | .metadata data => { type := .metadata, crc := 0, data := data }
  | .disk rec => rec.encoded

/-- What the encoders accept: 64-bit numbers, a mark with an index, and bytes that fit twice. -/
def Fits : Content → Prop
  | .metadata data => data.length < 2 ^ 55
  | .disk rec => rec.Fits ∧ ∀ term, rec ≠ .snapshot 0 term

/-- The typed decoder for the type of the record. -/
def ofRecord (rec : WalRecord) : Option Content :=
  match rec.type with
  | .metadata => some (.metadata rec.data)
  | .entry => (decodeEntry rec.data).map fun e => .disk (.entry e)
  | .state =>
    match decodeHardState rec.data with
    | (hs, true) => some (.disk (.state hs))
    | (_, false) => none
  | .snapshot =>
    match decodeSnapshot rec.data with
    | ((index, term), true) => some (.disk (.snapshot index term))
    | (_, false) => none
  | _ => none

variable {c : Content}

lemma Fits.sound (h : c.Fits) : c.record.Sound := by
  cases c with
  | metadata data =>
    refine ⟨fun _ => .inl rfl, rfl, (by decide : RecType.metadata.code < 2 ^ 64), ?_⟩
    have hdata : data.length < 2 ^ 55 := h
    have hfields := (length_fields .metadata (record (.metadata data)).seal.crc data.length).2
    have htype := seal_type (record (.metadata data))
    unfold WalRecord.payload
    rw [seal_data, htype, length_append]
    change (fields .metadata _ data.length).length + data.length < 2 ^ 56
    omega
  | disk rec => exact h.1.sound

lemma Fits.ofRecord_seal (h : c.Fits) : ofRecord c.record.seal = some c := by
  cases c with
  | metadata data =>
    have htype : (record (.metadata data)).seal.type = .metadata := seal_type _
    have hdata : (record (.metadata data)).seal.data = data := seal_data _
    simp [ofRecord, htype, hdata]
  | disk rec =>
    change ofRecord rec.encoded.seal = _
    rw [seal_encoded]
    cases rec with
    | entry e =>
      change (decodeEntry (entryBytes e)).map _ = _
      simp [decodeEntry_entryBytes h.1]
    | state hs =>
      change (match decodeHardState (stateBytes hs) with
        | (hs, true) => some (Content.disk (.state hs))
        | (_, false) => none) = _
      simp [decodeHardState_stateBytes h.1]
    | snapshot index term =>
      change (match decodeSnapshot (markBytes index term) with
        | ((index, term), true) => some (Content.disk (.snapshot index term))
        | (_, false) => none) = _
      simp [decodeSnapshot_markBytes h.1.1 h.1.2]

end Content

abbrev Appended := { c : Content // c.Fits }

def Appended.sealable (w : Appended) : Sealable := ⟨w.1.record, w.2.sound⟩

def fileOf (ws : List Appended) : List UInt8 := encodeAll (ws.map Appended.sealable)

/-- Where the message of record `i` ends, with the frames before it and its header. -/
def endOf (ws : List Appended) (i : Fin ws.length) : Nat :=
  (fileOf (ws.take i)).length + 8 + (ws.get i).1.record.seal.payload.length

/-! ## The decoder -/

/-- `cetcd_wal_decode` again and again: the records it returned before it returned `code`. -/
inductive Reads : List UInt8 → List WalRecord → Int → Prop
  | stop {file : List UInt8} {code : Int} (h : decode file = .error code) : Reads file [] code
  | next {file rest : List UInt8} {rec : WalRecord} {recs : List WalRecord} {code : Int}
      (h : decode file = .ok (rec, rest)) (hrest : Reads rest recs code) :
      Reads file (rec :: recs) code

section

variable {recs : List Sealable} {rec : Sealable} {tail torn : Bytes} {rs : List WalRecord}
  {code : Int}

lemma Reads.unique {file : Bytes} {rs' : List WalRecord} {code' : Int}
    (h : Reads file rs code) (h' : Reads file rs' code') : rs = rs' ∧ code = code' := by
  induction h generalizing rs' code' with
  | stop hstop =>
    cases h' with
    | stop hstop' =>
      rw [hstop] at hstop'
      cases hstop'
      exact ⟨rfl, rfl⟩
    | next hnext _ =>
      rw [hstop] at hnext
      cases hnext
  | next hnext _ ih =>
    cases h' with
    | stop hstop =>
      rw [hnext] at hstop
      cases hstop
    | next hnext' hrest' =>
      rw [hnext] at hnext'
      cases hnext'
      obtain ⟨rfl, rfl⟩ := ih hrest'
      exact ⟨rfl, rfl⟩

lemma Reads.iff {file : Bytes} (h : Reads file rs code) (rs' : List WalRecord) (code' : Int) :
    Reads file rs' code' ↔ rs' = rs ∧ code' = code := by
  constructor
  · intro h'
    exact h'.unique h
  rintro ⟨rfl, rfl⟩
  exact h

lemma Reads.encodeAll (h : Reads tail rs code) (recs : List Sealable) :
    Reads (encodeAll recs ++ tail) (sealAll recs ++ rs) code := by
  induction recs with
  | nil => exact h
  | cons rec recs ih =>
    have hbytes : Wal.encodeAll (rec :: recs) ++ tail =
        encode rec.1 ++ (Wal.encodeAll recs ++ tail) := by
      simp [encodeAll_cons]
    rw [hbytes]
    exact .next (decode_encode rec.2 _) ih

lemma reads_nil : Reads [] [] (-1) := .stop (decode_short (by simp))

lemma reads_torn (h : TornFrame rec torn) :
    Reads torn (sealAll (if 8 + rec.1.seal.payload.length ≤ torn.length then [rec] else [])) (-1) := by
  split
  · exact .next (h.decode_of_ge ‹_›) reads_nil
  rename_i hlt
  exact .stop (h.decode_of_lt (by omega))

lemma reads_take (recs : List Sealable) (k : Nat) :
    Reads ((encodeAll recs).take k) (sealAll (complete recs k)) (-1) := by
  obtain ⟨j, hbytes, hdone⟩ | ⟨j, rec, torn, ht, hbytes, hdone⟩ := take_encodeAll recs k
  · rw [hbytes, hdone]
    simpa using reads_nil.encodeAll (recs.take j)
  rw [hbytes, hdone]
  have h := (reads_torn ht).encodeAll (recs.take j)
  simpa [sealAll] using h

end

/-! ## There and back -/

lemma sealAll_written (ws : List Appended) :
    (sealAll (ws.map Appended.sealable)).map Content.ofRecord = ws.map fun w => some w.1 := by
  unfold sealAll
  rw [map_map, map_map]
  exact map_congr_left fun w _ => w.2.ofRecord_seal

/-- The file is read as written, and a beginning of it as the records it holds. -/
theorem written_read_back (ws : List Appended) :
    (∃ recs, (∀ rs code, Reads (fileOf ws) rs code ↔ rs = recs ∧ code = -1) ∧
      recs.map Content.ofRecord = ws.map fun w => some w.1) ∧
    ∀ k, ∃ j recs, (∀ rs code, Reads ((fileOf ws).take k) rs code ↔ rs = recs ∧ code = -1) ∧
      recs.map Content.ofRecord = (ws.take j).map (fun w => some w.1) ∧
      ∀ i : Fin ws.length, (i : Nat) < j ↔ endOf ws i ≤ k := by
  constructor
  · have h := reads_nil.encodeAll (ws.map Appended.sealable)
    simp only [append_nil] at h
    exact ⟨_, h.iff, sealAll_written ws⟩
  intro k
  obtain ⟨j, hj, hiff⟩ := complete_eq_take_iff (ws.map Appended.sealable) k
  have h := reads_take (ws.map Appended.sealable) k
  rw [hj, ← map_take] at h
  refine ⟨j, _, h.iff, sealAll_written _, fun i => ?_⟩
  have hi := hiff (i.cast (by simp))
  simpa [endOf, fileOf, Appended.sealable, map_take] using hi

end Cetcd.Server
