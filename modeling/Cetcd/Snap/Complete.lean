import Cetcd.Snap.Transfer

/-!
# Which keys a snapshot carries

`cetcd_server_snapshot`, `maint_handle_snapshot` and `fill_snap_context_` pack the range from the
empty key up to the byte `0xff`. That key and every key that begins with this byte are past its end.
-/

namespace Cetcd.Snap

open Lib Mvcc Raft List

/-- `cetcd_server_snapshot`: the rows with the revision of each. -/
def serverSnapshot (s : Store) : List (SnapEntry × Nat) :=
  match mvccRangeAt s 0 [] [255] with
  | .error _ => []
  | .ok kvs => kvs.map fun kv => (⟨kv.key, kv.value⟩, kv.modRev.main)

/-- The blob of `maint_handle_snapshot`: length and key, length and value. -/
def maintSnapshotBlob (s : Store) : List UInt8 :=
  match mvccRangeAt s 0 [] [255] with
  | .error _ => []
  | .ok kvs =>
    kvs.foldl
      (fun blob kv =>
        blob ++ (writeVarint kv.key.length ++ kv.key ++
          (writeVarint kv.value.length ++ kv.value))) []

def storedKeys (s : Store) : Set Key := { k | ∃ kg, s.index.find k = some kg }

def keysOf (es : List SnapEntry) : Set Key := { k | ∃ e ∈ es, e.key = k }

/-- The bytes are those of rows with these keys. -/
def Carries (bytes : List UInt8) (keys : Set Key) : Prop :=
  ∃ es, bytes = encodeKv es ∧ keysOf es = keys

section

variable {s : Store} {k : Key}

lemma inRange_byte_255 : inRange [] (openEnd [255]) k ↔ k.head? ≠ some 255 := by
  cases k with
  | nil => decide
  | cons b bs =>
    have hcons : (b :: bs : Key) < [255] ↔ b < 255 := by
      constructor
      · intro h
        cases h with
        | rel hb => exact hb
        | cons hnil => exact absurd hnil (not_lt_nil bs)
      · exact List.Lex.rel
    have hbyte : b < 255 ↔ b ≠ 255 := by
      have hle := UInt8.le_iff_toNat_le.2 (show b.toNat ≤ (255 : UInt8).toNat from by
        have := b.toNat_lt
        simp
        omega)
      exact ⟨fun h heq => absurd h (heq ▸ lt_irrefl (255 : UInt8)), lt_of_le_of_ne hle⟩
    have hopen : openEnd [255] = [255] := by decide
    have hnil : ([] : Key) ≤ b :: bs := not_lt.1 (not_lt_nil (b :: bs))
    simp [inRange, hopen, hcons, hbyte, hnil]

lemma serverSnapshot_fst (s : Store) : (serverSnapshot s).map Prod.fst = snapEntries s := by
  unfold serverSnapshot snapEntries
  cases mvccRangeAt s 0 [] [255] with
  | error e => rfl
  | ok kvs => simp

lemma maintSnapshotBlob_eq (s : Store) : maintSnapshotBlob s = encodeKv (snapEntries s) := by
  unfold maintSnapshotBlob snapEntries
  cases mvccRangeAt s 0 [] [255] with
  | error e => rfl
  | ok kvs =>
    -- the rows that are left go behind the bytes that are there
    have hfold : ∀ blob : Bytes, kvs.foldl (fun blob kv =>
          blob ++ (writeVarint kv.key.length ++ kv.key ++
            (writeVarint kv.value.length ++ kv.value))) blob =
          blob ++ encodeKv (kvs.map fun kv => ⟨kv.key, kv.value⟩) := by
      induction kvs with
      | nil => simp [encodeKv]
      | cons kv kvs ih =>
        intro blob
        rw [foldl_cons, ih, map_cons, encodeKv_cons]
        simp only [encodeField, append_assoc]
    exact hfold []

lemma keysOf_snapEntries (s : Store) :
    keysOf (snapEntries s) = { k ∈ storedKeys s | k.head? ≠ some 255 } := by
  have hrows : snapEntries s = (mvccRange s [] [255]).map fun e => ⟨e.1, e.2.value⟩ := by
    unfold snapEntries mvccRangeAt
    have hrev : ¬ compactedAway s 0 := by simp [compactedAway]
    simp [hrev, KeyGeneration.kv]
  ext k
  simp only [keysOf, storedKeys, hrows, Set.mem_ofPred_eq, mem_map, mvccRange, mem_filter]
  constructor
  · rintro ⟨_, ⟨e, ⟨hmem, hin⟩, rfl⟩, rfl⟩
    exact ⟨⟨e.2, OrdMap.find_eq_some.2 hmem⟩, inRange_byte_255.1 hin⟩
  rintro ⟨⟨kg, hkg⟩, hbyte⟩
  exact ⟨_, ⟨(k, kg), ⟨OrdMap.find_eq_some.1 hkg, inRange_byte_255.2 hbyte⟩, rfl⟩, rfl⟩

lemma keysOf_snapEntries_iff :
    keysOf (snapEntries s) = storedKeys s ↔ ∀ k ∈ storedKeys s, k.head? ≠ some 255 := by
  rw [keysOf_snapEntries]
  exact Set.sep_eq_self_iff_mem_true

end

/-- File, blob and context carry the live keys, just if no live key begins with the byte `0xff`. -/
theorem snapshots_complete_iff (s : Store) (msg : Msg) (htype : msg.type = .snap)
    (hempty : msg.context = []) :
    keysOf ((serverSnapshot s).map Prod.fst) = storedKeys s ∧
        Carries (maintSnapshotBlob s) (storedKeys s) ∧
        Carries (fillSnapContext s msg).context (storedKeys s) ↔
      ∀ k ∈ storedKeys s, k.head? ≠ some 255 := by
  rw [serverSnapshot_fst, maintSnapshotBlob_eq, fillSnapContext_eq htype hempty]
  constructor
  · intro h
    exact keysOf_snapEntries_iff.1 h.1
  intro h
  have hkeys := keysOf_snapEntries_iff.2 h
  exact ⟨hkeys, ⟨_, rfl, hkeys⟩, ⟨_, rfl, hkeys⟩⟩

def oneKey (key : Key) : Store := (mvccPut Store.new { be := Backend.empty } key [1] 0).2.1

theorem snapshots_complete_a :
    Carries (maintSnapshotBlob (oneKey [97])) (storedKeys (oneKey [97])) := by
  refine ((snapshots_complete_iff (oneKey [97]) { type := .snap } rfl rfl).2 ?_).2.1
  rintro k ⟨kg, hk⟩
  have hmem := OrdMap.find_eq_some.1 hk
  have hentries : (oneKey [97]).index.entries.map Prod.fst = [[97]] := by decide +kernel
  have hkey : k ∈ ([[97]] : List Key) := hentries ▸ mem_map_of_mem hmem
  rw [mem_singleton.1 hkey]
  decide

/-- A key of the byte `0xff` is live and is in none of the three. -/
theorem snapshots_miss_byte_255 :
    [255] ∈ storedKeys (oneKey [255]) ∧ serverSnapshot (oneKey [255]) = [] ∧
      maintSnapshotBlob (oneKey [255]) = [] ∧
      (fillSnapContext (oneKey [255]) { type := .snap }).context = [] := by
  refine ⟨⟨_, rfl⟩, ?_⟩
  decide +kernel

end Cetcd.Snap
