import Cetcd.Lib.Bytes
import Cetcd.Mvcc.Backed

/-!
# Restarts

A crash falls between two calls; the store is then loaded from its backend. The current state comes
back, but of the history only the newest entry of each live key, and that changes what is read at
older revisions.
-/

namespace Cetcd.Mvcc

open Lib List OrdMap

/-! ## The bytes of a generation -/

/-- `(uint64_t)v` and back. -/
def word (v : Int) : Nat := (v % 2 ^ 64).toNat

def int64 (n : Nat) : Int := if n < 2 ^ 63 then n else (n : Int) - 2 ^ 64

/-- Numbers as words of eight bytes, little-endian. -/
def words (vs : List Int) : List UInt8 := vs.flatMap fun v => leBytes 8 (word v)

def encodeKg (kg : KeyGeneration) : List UInt8 :=
  words [kg.createRev.main, kg.createRev.sub, kg.modRev.main, kg.modRev.sub, kg.version, kg.leaseId] ++
    kg.value

/-- `decode_kg_`; the counters of a store are not negative. -/
def decodeKg (data : List UInt8) : Option KeyGeneration :=
  if data.length < 48 then none
  else
    let field (i : Nat) : Int := int64 (readLe ((data.drop (8 * i)).take 8))
    some
      { createRev := ⟨(field 0).toNat, (field 1).toNat⟩
        modRev := ⟨(field 2).toNat, (field 3).toNat⟩
        version := (field 4).toNat
        leaseId := field 5
        value := data.drop 48 }

/-- The numbers of a generation are `int64_t`. -/
structure KeyGeneration.Fits (kg : KeyGeneration) : Prop where
  createMain : kg.createRev.main < 2 ^ 63
  createSub : kg.createRev.sub < 2 ^ 63
  modMain : kg.modRev.main < 2 ^ 63
  modSub : kg.modRev.sub < 2 ^ 63
  version : kg.version < 2 ^ 63
  leaseId : -2 ^ 63 ≤ kg.leaseId ∧ kg.leaseId < 2 ^ 63

lemma int64_word {v : Int} (h : -2 ^ 63 ≤ v ∧ v < 2 ^ 63) : int64 (word v) = v := by
  unfold int64 word
  split <;> omega

lemma word_lt (v : Int) : word v < 256 ^ 8 := by
  unfold word
  omega

lemma readLe_words {vs : List Int} {i : Nat} {v : Int} (h : vs[i]? = some v)
    (rest : Bytes) : readLe (((words vs ++ rest).drop (8 * i)).take 8) = word v := by
  induction vs generalizing i with
  | nil => cases h
  | cons w vs ih =>
    have hwords : words (w :: vs) ++ rest = leBytes 8 (word w) ++ (words vs ++ rest) :=
      append_assoc _ _ _
    rw [hwords]
    cases i with
    | zero =>
      obtain rfl : w = v := Option.some.inj h
      rw [Nat.mul_zero, drop_zero, take_left' (length_leBytes 8 _), readLe_leBytes (word_lt w)]
    | succ i =>
      rw [Nat.mul_succ, add_comm, ← drop_drop, drop_left' (length_leBytes 8 _)]
      exact ih h

lemma length_words (vs : List Int) : (words vs).length = 8 * vs.length := by
  unfold words
  rw [length_flatMap]
  simp [mul_comm]

lemma decodeKg_encodeKg {kg : KeyGeneration} (h : kg.Fits) : decodeKg (encodeKg kg) = some kg := by
  have hnat : ∀ n : Nat, n < 2 ^ 63 → (int64 (word n)).toNat = n := by
    intro n hn
    rw [int64_word (by omega)]
    rfl
  have hlen : ¬ (encodeKg kg).length < 48 := by
    unfold encodeKg
    rw [length_append, length_words]
    simp
  have hdrop : (encodeKg kg).drop 48 = kg.value := drop_left' (length_words _)
  unfold decodeKg
  rw [if_neg hlen, hdrop]
  dsimp only
  unfold encodeKg
  rw [readLe_words rfl, readLe_words rfl, readLe_words rfl, readLe_words rfl, readLe_words rfl,
    readLe_words rfl, hnat _ h.createMain, hnat _ h.createSub, hnat _ h.modMain, hnat _ h.modSub,
    hnat _ h.version, int64_word h.leaseId]

/-! ## The mirror -/

structure Mirrored (s : Store) (be : Backend) : Prop where
  keys : be.keys = s.index
  revision : be.revision.getD 0 = s.mainRev
  compacted : be.compacted.getD 0 = s.compactedRev

section

variable {s : Store} {be : Backend}

lemma mirrored_new : Mirrored Store.new Backend.empty := ⟨rfl, rfl, rfl⟩

lemma Mirrored.effect (h : Mirrored s be) {c : Call} {s' : Store} {f : Backend → Backend}
    (hc : c.effect s = some (s', f)) : Mirrored s' (f be) := by
  unfold Call.effect at hc
  cases c with
  | put key value leaseId =>
    cases Option.some.inj hc
    rw [push_putEntry]
    exact ⟨congrArg (OrdMap.insert · _ _) h.keys, rfl, h.compacted⟩
  | delete key =>
    obtain ⟨kg, _, heq⟩ := Option.map_eq_some_iff.1 hc
    cases heq
    refine ⟨congrArg (OrdMap.erase · _) h.keys, ?_, h.compacted⟩
    exact (max_eq_right (Nat.le_succ _)).symm
  | deleteKeys keys =>
    dsimp only at hc
    by_cases hnone : liveKeys s keys = []
    · rw [if_pos hnone] at hc
      cases hc
    rw [if_neg hnone] at hc
    cases Option.some.inj hc
    refine ⟨?_, ?_, h.compacted.trans (push_history _ _).2.symm⟩
    · rw [index_deleteEntries]
      exact congrArg (fun m => List.foldl _ m _) h.keys
    refine (pushAll_mainRev (Nat.le_succ _) ?_ fun e he => (mem_deleteEntries he).1).symm
    exact deleteEntries_ne_nil hnone fun k hk => (mem_liveKeys.1 hk).2.2
  | advance rev =>
    dsimp only at hc
    split at hc
    · cases Option.some.inj hc
      exact ⟨h.keys, rfl, h.compacted⟩
    · cases hc
  | compact rev =>
    dsimp only at hc
    split at hc
    · cases Option.some.inj hc
      exact ⟨h.keys, h.revision, rfl⟩
    · cases hc

lemma Mirrored.load (h : Mirrored s be) (hs : Chronicle s) :
    (mvccLoad be).index = s.index ∧ (mvccLoad be).mainRev = s.mainRev ∧
      (mvccLoad be).compactedRev = s.compactedRev := by
  refine ⟨h.keys, ?_, h.compacted⟩
  unfold mvccLoad
  dsimp only
  rw [h.revision]
  refine foldl_max_eq fun e he => (hs.modRev e.1 e.2 ?_).2
  rw [← h.keys]
  exact find_eq_some.2 he

/-! ## The seeds of the history -/

lemma mem_load_history {e : RevisionEntry} :
    e ∈ (mvccLoad be).history ↔ ∃ kg, be.keys.find e.key = some kg ∧ e = seedEntry (e.key, kg) := by
  unfold mvccLoad
  rw [mem_mergeSort, mem_map]
  constructor
  · rintro ⟨p, hp, rfl⟩
    exact ⟨p.2, find_eq_some.2 hp, rfl⟩
  rintro ⟨kg, hkg, heq⟩
  exact ⟨(e.key, kg), find_eq_some.1 hkg, heq.symm⟩

lemma nodup_load_history : ((mvccLoad be).history.map RevisionEntry.key).Nodup := by
  refine ((mergeSort_perm _ _).map _).nodup_iff.2 ?_
  rw [map_map]
  exact be.keys.nodup_keys

lemma sorted_load_history : (mvccLoad be).history.Pairwise fun a b => a.rev.main ≤ b.rev.main := by
  have hsort := @pairwise_mergeSort _ revLe (fun a b c hab hbc => by
      unfold revLe at *
      simp only [Bool.or_eq_true, Bool.and_eq_true, decide_eq_true_eq] at *
      omega)
    (fun a b => by
      unfold revLe
      simp only [Bool.or_eq_true, Bool.and_eq_true, decide_eq_true_eq]
      omega)
    (be.keys.entries.map seedEntry)
  refine hsort.imp fun hab => ?_
  unfold revLe at hab
  simp only [Bool.or_eq_true, Bool.and_eq_true, decide_eq_true_eq] at hab
  omega

lemma newest_load {k : Key} : newest RevisionEntry.key (mvccLoad be).history k =
      (be.keys.find k).map fun kg => seedEntry (k, kg) := by
  cases hfind : be.keys.find k with
  | none =>
    refine newest_eq_none.2 fun e he heq => ?_
    obtain ⟨kg, hkg, _⟩ := mem_load_history.1 he
    rw [heq, hfind] at hkg
    cases hkg
  | some kg =>
    have hmem : seedEntry (k, kg) ∈ (mvccLoad be).history := mem_load_history.2 ⟨kg, hfind, rfl⟩
    exact newest_of_nodup nodup_load_history hmem

lemma entryAt_load (rev : Nat) (k : Key) : entryAt (mvccLoad be) rev k =
      ((be.keys.find k).filter fun kg => kg.modRev.main ≤ rev).map fun kg => seedEntry (k, kg) := by
  cases hfind : be.keys.find k with
  | none =>
    refine latest_eq_none.2 fun e he heq => ?_
    obtain ⟨kg, hkg, _⟩ := mem_load_history.1 he
    rw [heq, hfind] at hkg
    cases hkg
  | some kg =>
    have hmem : seedEntry (k, kg) ∈ (mvccLoad be).history := mem_load_history.2 ⟨kg, hfind, rfl⟩
    have hlatest := @latest_of_nodup _ _ _ _ _ RevisionEntry.key (fun e => e.rev.main) _ rev _
      nodup_load_history hmem
    refine hlatest.trans ?_
    rw [Option.filter_some]
    change (if kg.modRev.main ≤ rev then _ else _) = _
    by_cases hle : kg.modRev.main ≤ rev
    · rw [if_pos hle, if_pos (decide_eq_true hle)]
      rfl
    rw [if_neg hle, if_neg (by simpa using hle)]
    rfl

lemma Chronicle.load (hs : Chronicle s) (h : Mirrored s be) : Chronicle (mvccLoad be) := by
  obtain ⟨hindex, hmain, hcompacted⟩ := h.load hs
  have hseed : ∀ e ∈ (mvccLoad be).history, ∃ kg, s.index.find e.key = some kg ∧
      e.rev = kg.modRev := by
    intro e he
    obtain ⟨kg, hkg, heq⟩ := mem_load_history.1 he
    refine ⟨kg, h.keys ▸ hkg, ?_⟩
    rw [heq]
    rfl
  refine ⟨sorted_load_history, fun e he => ?_, fun e he => ?_, fun k e he => ?_,
    fun k kg he hkg => ?_, ?_, ?_⟩
  · obtain ⟨kg, hkg, heq⟩ := hseed e he
    rw [heq]
    exact (hs.modRev _ kg hkg).1
  · obtain ⟨kg, hkg, heq⟩ := hseed e he
    rw [heq, hmain]
    exact (hs.modRev _ kg hkg).2
  · rw [newest_load] at he
    obtain ⟨kg, hkg, rfl⟩ := Option.map_eq_some_iff.1 he
    exact hkg
  · rw [newest_load, Option.map_eq_none_iff] at he
    rw [hindex, ← h.keys, he] at hkg
    cases hkg
  · rw [hindex, hmain]
    exact hs.modRev
  rw [hcompacted, hmain]
  exact hs.compacted

end

/-! ## Runs -/

inductive Act
  | call (c : Call)
  | restart
  deriving DecidableEq

def Durable.next (x : Durable) : Act → Durable
  | .call c => c.run x
  | .restart => ⟨mvccLoad x.disk.be, x.disk⟩

/-- An empty store; `outcomes` says what becomes of its transactions. -/
def Durable.fresh (outcomes : List Bool) : Durable :=
  ⟨Store.new, { be := Backend.empty, outcomes := outcomes }⟩

/-- `y` is reached from `x` by acts that are `ok`. -/
def Reaches (ok : Act → Prop) (x y : Durable) : Prop :=
  Relation.ReflTransGen (fun x y => ∃ a, ok a ∧ y = x.next a) x y

def AnyAct (_ : Act) : Prop := True

def IsWrite : Act → Prop
  | .call (.compact _) => False
  | .call _ => True
  | .restart => False

def Durable.play (x : Durable) (as : List Act) : Durable := as.foldl Durable.next x

lemma reaches_play {ok : Act → Prop} {x : Durable} {as : List Act} (h : ∀ a ∈ as, ok a) :
    Reaches ok x (x.play as) := by
  induction as generalizing x with
  | nil => exact .refl
  | cons a as ih =>
    rw [forall_mem_cons] at h
    exact .head ⟨a, h.1, rfl⟩ (ih h.2)

/-- What holds of every reached store. -/
structure Sound (x : Durable) : Prop where
  chronicle : Chronicle x.store
  mirrored : Mirrored x.store x.disk.be

section

variable {x y : Durable} {outcomes : List Bool} {ok : Act → Prop}

lemma Disk.write_cases (d : Disk) (f : Backend → Backend) :
    ((d.write f).1 = false ∧ (d.write f).2.be = d.be) ∨
      ((d.write f).1 ∧ (d.write f).2.be = f d.be) := by
  unfold Disk.write
  obtain _ | ⟨_ | _, rest⟩ := d.outcomes
  · exact Or.inr ⟨rfl, rfl⟩
  · exact Or.inl ⟨rfl, rfl⟩
  · exact Or.inr ⟨rfl, rfl⟩

lemma Call.run_cases (x : Durable) (c : Call) :
    ((c.run x).store = x.store ∧ (c.run x).disk.be = x.disk.be) ∨
      ∃ f, c.effect x.store = some ((c.run x).store, f) ∧ (c.run x).disk.be = f x.disk.be := by
  rw [Call.run_eq]
  cases heffect : c.effect x.store with
  | none => exact Or.inl ⟨rfl, rfl⟩
  | some p =>
    dsimp only [Option.elim_some]
    unfold Durable.commit
    rcases hw : x.disk.write p.2 with ⟨ok, d⟩
    have hcases := x.disk.write_cases p.2
    rw [hw] at hcases
    obtain ⟨hok, hbe⟩ | ⟨hok, hbe⟩ := hcases
    · obtain rfl : ok = false := hok
      exact Or.inl ⟨rfl, hbe⟩
    obtain rfl : ok = true := hok
    exact Or.inr ⟨p.2, rfl, hbe⟩

lemma sound_fresh (outcomes : List Bool) : Sound (Durable.fresh outcomes) :=
  ⟨chronicle_new, mirrored_new⟩

lemma Sound.next (h : Sound x) (a : Act) : Sound (x.next a) := by
  cases a with
  | call c =>
    obtain ⟨hstore, hbe⟩ | ⟨f, heffect, hbe⟩ := c.run_cases x
    · refine ⟨?_, ?_⟩
      · change Chronicle (c.run x).store
        rw [hstore]
        exact h.chronicle
      change Mirrored (c.run x).store (c.run x).disk.be
      rw [hstore, hbe]
      exact h.mirrored
    refine ⟨h.chronicle.effect heffect, ?_⟩
    change Mirrored (c.run x).store (c.run x).disk.be
    rw [hbe]
    exact h.mirrored.effect heffect
  | restart =>
    have hload := h.mirrored.load h.chronicle
    refine ⟨h.chronicle.load h.mirrored, rfl, ?_, rfl⟩
    exact h.mirrored.revision.trans hload.2.1.symm

lemma Sound.reaches (h : Sound x) (hrun : Reaches ok x y) : Sound y := by
  induction hrun with
  | refl => exact h
  | tail _ hstep ih =>
    obtain ⟨a, _, rfl⟩ := hstep
    exact ih.next a

/-- After a crash at any moment the loaded store has the current state of the lost one. -/
theorem load_keeps_current (h : Reaches AnyAct (Durable.fresh outcomes) x) :
    (mvccLoad x.disk.be).index = x.store.index ∧ (mvccLoad x.disk.be).mainRev = x.store.mainRev ∧
      (mvccLoad x.disk.be).compactedRev = x.store.compactedRev ∧
      (∀ k, mvccGet (mvccLoad x.disk.be) 0 k = mvccGet x.store 0 k) ∧
      (∀ lo hi, mvccRangeAt (mvccLoad x.disk.be) 0 lo hi = mvccRangeAt x.store 0 lo hi) ∧
      ∀ k kg, x.store.index.find k = some kg → kg.Fits → decodeKg (encodeKg kg) = some kg := by
  have hs := (sound_fresh outcomes).reaches h
  obtain ⟨hindex, hmain, hcompacted⟩ := hs.mirrored.load hs.chronicle
  refine ⟨hindex, hmain, hcompacted, fun k => ?_, fun lo hi => ?_, fun k kg _ hfits => ?_⟩
  · rw [mvccGet_eq_iff (not_compactedAway_zero _) (not_compactedAway_zero _), versionAt_zero,
      versionAt_zero, hindex]
  · rw [mvccRangeAt_eq_iff (not_compactedAway_zero _) (not_compactedAway_zero _)]
    intro k _
    rw [versionAt_zero, versionAt_zero, hindex]
  · exact decodeKg_encodeKg hfits

/-- The second put fails, the deletion does not. -/
def crashed : Durable :=
  (Durable.fresh [true, false]).play
    [.call (.put [97] [1] 0), .call (.put [98] [2] 7), .call (.put [99] [3] 7),
      .call (.delete [97]), .call (.compact 2)]

theorem load_keeps_current_crashed :
    (mvccLoad crashed.disk.be).index.find [99] = some ⟨⟨2, 0⟩, 1, ⟨2, 0⟩, [3], 7⟩ ∧
      (mvccLoad crashed.disk.be).mainRev = 3 ∧ (mvccLoad crashed.disk.be).compactedRev = 2 := by
  have hreach : Reaches AnyAct (Durable.fresh [true, false]) crashed :=
    reaches_play fun _ _ => trivial
  obtain ⟨hindex, hmain, hcompacted, _⟩ := load_keeps_current hreach
  rw [hindex, hmain, hcompacted]
  decide +kernel

/-! ## Reads of the past after a restart -/

/-- The put of `k` seen at `r` is its last change, and still in the history. -/
def Untouched (s : Store) (r : Nat) (k : Key) : Prop :=
  r = 0 ∨
    ((∀ e, entryAt s r k = some e → e.type = .put → newest RevisionEntry.key s.history k = some e) ∧
      (newest RevisionEntry.key s.history k = none → s.index.find k = none))

lemma versionAt_load_iff (hs : Sound x) {r : Nat} (hc : x.store.compactedRev ≤ r) (k : Key) :
    versionAt (mvccLoad x.disk.be) r k = versionAt x.store r k ↔ Untouched x.store r k := by
  have hindex : x.disk.be.keys = x.store.index := hs.mirrored.keys
  obtain rfl | hr := Nat.eq_zero_or_pos r
  · refine iff_of_true ?_ (Or.inl rfl)
    rw [versionAt_zero, versionAt_zero]
    exact congrArg (fun m => (OrdMap.find m k).map _) hindex
  rw [versionAt_pos hr, versionAt_pos hr, entryAt_load, hindex]
  unfold Untouched
  rw [or_iff_right hr.ne']
  cases hnewest : newest RevisionEntry.key x.store.history k with
  | none =>
    -- no entry at all: nothing was seen, and what is live was dropped by a compaction
    have hentry : entryAt x.store r k = none :=
      latest_eq_none.2 fun e he hk => absurd hk (newest_eq_none.1 hnewest e he)
    rw [hentry]
    cases hfind : x.store.index.find k with
    | none => simp
    | some kg =>
      have hle : kg.modRev.main ≤ r := (hs.chronicle.lost k kg hnewest hfind).le.trans hc
      simp [Option.filter_some, hle, RevisionEntry.version?, seedEntry]
  | some a =>
    have hlive := hs.chronicle.indexed k a hnewest
    have hkey : a.key = k := (mem_of_newest hnewest).2
    by_cases ha : a.rev.main ≤ r
    · -- the last change is seen, by the store as by the loaded one
      have hentry : entryAt x.store r k = some a := latest_of_newest hnewest ha
      refine iff_of_true ?_ ⟨fun e he _ => he.symm.trans hentry ▸ rfl, fun h => nomatch h⟩
      rw [hentry, hlive]
      cases htype : a.type with
      | delete => simp [RevisionEntry.generation?, RevisionEntry.version?, htype]
      | put =>
        have hgen : a.generation?.filter (fun kg => kg.modRev.main ≤ r) = a.generation? := by
          simp [RevisionEntry.generation?, htype, Option.filter_some, ha]
        rw [hgen, Option.bind_some, version?_eq, hkey, Option.bind_map]
        unfold RevisionEntry.generation?
        rw [htype]
        rfl
    -- the last change is later: the loaded store has nothing at this revision
    have hload : (x.store.index.find k).filter (fun kg => kg.modRev.main ≤ r) = none := by
      rw [hlive]
      refine Option.filter_eq_none_iff.2 fun kg hkg => ?_
      rw [generation?_modRev hkg]
      simpa using ha
    rw [hload]
    cases hentry : entryAt x.store r k with
    | none => simp
    | some e =>
      have hne : a ≠ e := fun heq => ha (heq ▸ (mem_of_latest hentry).2.2)
      cases htype : e.type <;> simp [RevisionEntry.version?, htype, hne]

/-- A read of the past after a restart: what it was, or an error, exactly for untouched keys. -/
theorem past_after_restart_iff (h : Reaches AnyAct (Durable.fresh outcomes) x) {r : Nat}
    (hc : x.store.compactedRev ≤ r) :
    (∀ k, (mvccGet (mvccLoad x.disk.be) r k = mvccGet x.store r k ∨
        mvccGet (mvccLoad x.disk.be) r k = .error .range) ↔ Untouched x.store r k) ∧
      ∀ lo hi, (mvccRangeAt (mvccLoad x.disk.be) r lo hi = mvccRangeAt x.store r lo hi ∨
        mvccRangeAt (mvccLoad x.disk.be) r lo hi = .error .range) ↔
          ∀ k, inRange lo (openEnd hi) k → Untouched x.store r k := by
  have hs := (sound_fresh outcomes).reaches h
  have hload : ¬ compactedAway (mvccLoad x.disk.be) r :=
    not_compactedAway ((hs.mirrored.load hs.chronicle).2.2.trans_le hc)
  refine ⟨fun k => ?_, fun lo hi => ?_⟩
  · rw [mvccGet_eq_iff hload (not_compactedAway hc), versionAt_load_iff hs hc, or_iff_left]
    rw [mvccGet_eq hload]
    cases versionAt (mvccLoad x.disk.be) r k <;> simp
  rw [mvccRangeAt_eq_iff hload (not_compactedAway hc), or_iff_left]
  · exact forall₂_congr fun k _ => versionAt_load_iff hs hc k
  obtain ⟨rows, hrows, _⟩ := mvccRangeAt_eq hload lo hi
  rw [hrows]
  exact fun h => nomatch h

def putOnce : Durable := (Durable.fresh []).play [.call (.put [97] [1] 0)]

theorem past_after_restart_put_once : putOnce.store.compactedRev ≤ 1 ∧
      (mvccGet (mvccLoad putOnce.disk.be) 1 [97] = mvccGet putOnce.store 1 [97] ∨
        mvccGet (mvccLoad putOnce.disk.be) 1 [97] = .error .range) := by
  have hreach : Reaches AnyAct (Durable.fresh []) putOnce := reaches_play fun _ _ => trivial
  have hsame : entryAt putOnce.store 1 [97] = newest RevisionEntry.key putOnce.store.history [97] := by
    decide +kernel
  refine ⟨by decide +kernel, ((past_after_restart_iff hreach (by decide +kernel)).1 [97]).2 ?_⟩
  refine Or.inr ⟨fun e he _ => hsame ▸ he, fun hnone => ?_⟩
  exact absurd hnone (by decide +kernel)

/-- A key that was put twice is missing at its first revision after a restart. -/
theorem restart_loses_version : Reaches AnyAct (Durable.fresh [])
        ((Durable.fresh []).play [.call (.put [97] [1] 0), .call (.put [97] [2] 0)]) ∧
      mvccGet ((Durable.fresh []).play [.call (.put [97] [1] 0), .call (.put [97] [2] 0)]).store 1
          [97] = .ok ⟨[97], [1], ⟨1, 0⟩, ⟨1, 0⟩, 1, 0⟩ ∧
      mvccGet (mvccLoad ((Durable.fresh []).play
          [.call (.put [97] [1] 0), .call (.put [97] [2] 0)]).disk.be) 1 [97] = .error .notFound :=
  ⟨reaches_play fun _ _ => trivial, by decide +kernel, by decide +kernel⟩

end

end Cetcd.Mvcc
