import Cetcd.Server.Model
import Cetcd.Wal.Payload
import Cetcd.Wal.Torn

/-!
# The bytes of the file

`replay_wal_` over the bytes that the encoders wrote. A file is the list of its records, and
wherever a crash cuts it, what is read is a beginning of that list.
-/

namespace Cetcd.Server

open Lib Raft Wal List

/-- What the loop of `replay_wal_` has so far, with `last_hs` and `have_hs`. -/
structure Loaded where
  raft : Raft
  lastHs : HardState
  haveHs : Bool
  lastSnapIndex : Nat

/-- One round of the loop.  A hard state that cannot be decoded still overwrites `last_hs`. -/
def loadRecord (p : Loaded) (rec : WalRecord) : Loaded :=
  if rec.data = [] then p
  else
    match rec.type with
    | .entry =>
      match decodeEntry rec.data with
      | none => p
      | some e => { p with raft := cetcdRaftRestoreEntry p.raft e }
    | .state =>
      { p with
        lastHs := (decodeHardState rec.data).1
        haveHs := p.haveHs || (decodeHardState rec.data).2 }
    | .snapshot =>
      match decodeSnapshot rec.data with
      | ((index, term), true) =>
        if index = 0 then p
        else
          match logCompact p.raft.rlog index term with
          | none => p
          | some l => { p with raft := { p.raft with rlog := l }, lastSnapIndex := index }
      | (_, false) => p
    | _ => p

/-- `replay_wal_` on the bytes of the file: the node and `last_snap_index`. -/
def loadWal (r : Raft) (file : List UInt8) : Raft × Nat :=
  let p := (decodeAll file).foldl loadRecord ⟨r, {}, false, 0⟩
  if p.haveHs then (cetcdRaftRestoreHardState p.raft p.lastHs, p.lastSnapIndex)
  else (p.raft, p.lastSnapIndex)

def DiskRecord.encoded : DiskRecord → WalRecord
  | .entry e => encodeEntry e
  | .state hs => encodeHardState hs
  | .snapshot index term => encodeSnapshot index term

/-- The numbers are 64-bit numbers, and the data of an entry leaves room for a frame header. -/
def DiskRecord.Fits : DiskRecord → Prop
  | .entry e => EntryFits e
  | .state hs => StateFits hs
  | .snapshot index term => index < 2 ^ 64 ∧ term < 2 ^ 64

abbrev Storable := { rec : DiskRecord // rec.Fits }

section

variable {rec : DiskRecord} {r : Raft} {p : Loaded} {q : Replayed}

lemma sound_checked {type : RecType} {data : Bytes} (htype : RecType.ofCode type.code = type)
    (hcode : type.code < 2 ^ 64) (hlen : data.length + 33 < 2 ^ 56) : (checked type data).Sound := by
  refine ⟨fun _ => .inr rfl, htype, hcode, ?_⟩
  rw [seal_checked]
  unfold WalRecord.payload
  rw [length_append]
  have hfields := (length_fields type (crc32c 0 data) data.length).2
  change (fields type (crc32c 0 data) data.length).length + data.length < 2 ^ 56
  omega

lemma DiskRecord.Fits.sound (h : rec.Fits) : rec.encoded.Sound := by
  cases rec with
  | entry e =>
    have hdata := h.data
    have h1 := length_writeVarint_le e.term
    have h2 := length_writeVarint_le e.index
    have h3 := length_writeVarint_le (entryCode e.type)
    have h4 := length_writeVarint_le e.data.length
    refine sound_checked rfl (by decide) ?_
    unfold entryBytes
    simp only [length_cons, length_append]
    omega
  | state hs =>
    have h1 := length_writeVarint_le hs.term
    have h2 := length_writeVarint_le hs.vote
    have h3 := length_writeVarint_le hs.commit
    refine sound_checked rfl (by decide) ?_
    unfold stateBytes
    simp only [length_cons, length_append]
    omega
  | snapshot index term =>
    have h1 := length_writeVarint_le index
    have h2 := length_writeVarint_le term
    refine sound_checked rfl (by decide) ?_
    unfold markBytes
    simp only [length_cons, length_append]
    omega

def Storable.sealable (rec : Storable) : Sealable := ⟨rec.1.encoded, rec.2.sound⟩

def bytesOf (wal : List Storable) : List UInt8 := encodeAll (wal.map Storable.sealable)

lemma seal_encoded (rec : DiskRecord) : rec.encoded.seal = rec.encoded := by
  cases rec with
  | entry e | state hs | snapshot index term => exact seal_checked _ _

/-- The two loops have read the same. -/
structure Agree (p : Loaded) (q : Replayed) : Prop where
  raft : p.raft = q.raft
  hs : q.hs = if p.haveHs then some p.lastHs else none
  lastSnapIndex : p.lastSnapIndex = q.lastSnapIndex

lemma Agree.load (h : Agree p q) (hfits : rec.Fits) :
    Agree (loadRecord p rec.encoded) (replayRecord q rec) := by
  obtain ⟨hraft, hhs, hsnap⟩ := h
  cases rec with
  | entry e =>
    change Agree (match decodeEntry (entryBytes e) with
      | none => p
      | some e => { p with raft := cetcdRaftRestoreEntry p.raft e }) _
    rw [decodeEntry_entryBytes hfits]
    exact ⟨congrArg (cetcdRaftRestoreEntry · e) hraft, hhs, hsnap⟩
  | state hs =>
    change Agree { p with
      lastHs := (decodeHardState (stateBytes hs)).1
      haveHs := p.haveHs || (decodeHardState (stateBytes hs)).2 } _
    rw [decodeHardState_stateBytes hfits, Bool.or_true]
    exact ⟨hraft, rfl, hsnap⟩
  | snapshot index term =>
    change Agree (match decodeSnapshot (markBytes index term) with
      | ((index, term), true) =>
        if index = 0 then p
        else
          match logCompact p.raft.rlog index term with
          | none => p
          | some l => { p with raft := { p.raft with rlog := l }, lastSnapIndex := index }
      | (_, false) => p) (replayRecord q (.snapshot index term))
    rw [decodeSnapshot_markBytes hfits.1 hfits.2]
    unfold replayRecord
    dsimp only
    rw [← hraft]
    by_cases hzero : index = 0
    · rw [if_pos hzero, if_pos hzero]
      exact ⟨hraft, hhs, hsnap⟩
    rw [if_neg hzero, if_neg hzero]
    cases logCompact p.raft.rlog index term with
    | none => exact ⟨hraft, hhs, hsnap⟩
    | some l => exact ⟨rfl, hhs, rfl⟩

lemma Agree.loads (h : Agree p q) (wal : List Storable) :
    Agree ((wal.map fun rec => rec.1.encoded).foldl loadRecord p)
      ((wal.map Subtype.val).foldl replayRecord q) := by
  induction wal generalizing p q with
  | nil => exact h
  | cons rec wal ih => exact ih (h.load rec.2)

lemma loadWal_of_decodeAll {file : Bytes} {wal : List Storable}
    (h : decodeAll file = sealAll (wal.map Storable.sealable)) (r : Raft) :
    loadWal r file = replayWal r (wal.map Subtype.val) := by
  have hdecoded : decodeAll file = wal.map fun rec => rec.1.encoded := by
    rw [h]
    unfold sealAll
    rw [map_map]
    exact map_congr_left fun rec _ => seal_encoded rec.1
  have hstart : Agree ⟨r, {}, false, 0⟩ ⟨r, none, 0⟩ := ⟨rfl, rfl, rfl⟩
  obtain ⟨hraft, hhs, hsnap⟩ := hstart.loads wal
  unfold loadWal replayWal
  rw [hdecoded]
  dsimp only
  rw [hhs, ← hraft, ← hsnap]
  split_ifs <;> rfl

lemma complete_eq_take_iff (recs : List Sealable) (k : Nat) :
    ∃ j, complete recs k = recs.take j ∧ ∀ i : Fin recs.length, (i : Nat) < j ↔
        (encodeAll (recs.take i)).length + 8 + (recs.get i).1.seal.payload.length ≤ k := by
  induction recs generalizing k with
  | nil => exact ⟨0, rfl, fun i => i.elim0⟩
  | cons rec recs ih =>
    have hlen := length_encode rec.1
    by_cases hrec : 8 + rec.1.seal.payload.length ≤ k
    · obtain ⟨j, hj, hiff⟩ := ih (k - (encode rec.1).length)
      refine ⟨j + 1, by rw [complete, if_pos hrec, hj, take_succ_cons], fun i => ?_⟩
      refine Fin.cases ?_ (fun i => ?_) i
      · simpa [Wal.encodeAll] using hrec
      have h := hiff i
      simp only [Fin.val_succ, take_succ_cons, encodeAll_cons, length_append,
        get_eq_getElem, getElem_cons_succ] at h ⊢
      omega
    refine ⟨0, by rw [complete, if_neg hrec, take_zero], fun i => ?_⟩
    refine Fin.cases ?_ (fun i => ?_) i
    · simpa [Wal.encodeAll] using hrec
    simp only [Fin.val_succ, take_succ_cons, encodeAll_cons, length_append,
      get_eq_getElem, getElem_cons_succ]
    omega

/-- Wherever the file is cut, the node is the one of the records that are left: those whose frames
are whole, apart from the padding at the end. -/
theorem loadWal_take (r : Raft) (wal : List Storable) (k : Nat) :
    ∃ j, loadWal r ((bytesOf wal).take k) = replayWal r ((wal.map Subtype.val).take j) ∧
      ∀ i : Fin wal.length, (i : Nat) < j ↔
        (bytesOf (wal.take i)).length + 8 + (wal.get i).1.encoded.payload.length ≤ k := by
  obtain ⟨j, hj, hiff⟩ := complete_eq_take_iff (wal.map Storable.sealable) k
  refine ⟨j, ?_, fun i => ?_⟩
  · have hread := decodeAll_take (wal.map Storable.sealable) k
    rw [hj, ← map_take] at hread
    rw [← map_take]
    exact loadWal_of_decodeAll hread r
  simpa [bytesOf, map_take, Storable.sealable, seal_encoded] using hiff (i.cast (by simp))

end

end Cetcd.Server
