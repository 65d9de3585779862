import Cetcd.Lib.VersionLog
import Cetcd.Mvcc.Store

/-!
# Reads

`cetcd_mvcc_get` and `cetcd_mvcc_range` at any revision: zero is read from the index, every other
one from the history, newest entry first. Both show the version of each key at the revision. A
history is taken to have fewer than 2^31 entries (its loops count with an `int`); a negative
revision is not modelled.
-/

namespace Cetcd.Mvcc

open Lib List

/-- `cetcd_kv`. -/
structure KeyValue where
  key : Key
  value : List UInt8
  createRev : Revision
  modRev : Revision
  version : Nat
  leaseId : Int
  deriving DecidableEq

def KeyGeneration.kv (kg : KeyGeneration) (key : Key) : KeyValue :=
  { key := key, value := kg.value, createRev := kg.createRev, modRev := kg.modRev
    version := kg.version, leaseId := kg.leaseId }

def RevisionEntry.kv (e : RevisionEntry) : KeyValue :=
  { key := e.key, value := e.value, createRev := e.createRev, modRev := e.rev
    version := e.version, leaseId := e.leaseId }

inductive ReadError
  | range
  | notFound
  deriving DecidableEq

def compactedAway (s : Store) (rev : Nat) : Prop :=
  0 < rev ∧ 0 < s.compactedRev ∧ rev < s.compactedRev
  deriving Decidable

lemma not_compactedAway_zero (s : Store) : ¬ compactedAway s 0 := fun h => absurd h.1 (lt_irrefl 0)

lemma not_compactedAway {s : Store} {rev : Nat} (h : s.compactedRev ≤ rev) :
    ¬ compactedAway s rev := fun hc => absurd hc.2.2 (not_lt.2 h)

def mvccGet (s : Store) (rev : Nat) (key : Key) : Except ReadError KeyValue :=
  if compactedAway s rev then .error .range
  else if rev = 0 then
    match s.index.find key with
    | none => .error .notFound
    | some kg => .ok (kg.kv key)
  else
    match s.history.reverse.find? fun e => e.rev.main ≤ rev && e.key = key with
    | none => .error .notFound
    | some e =>
      match e.type with
      | .delete => .error .notFound
      | .put => .ok e.kv

/-- The loop of `cetcd_mvcc_range` over the history, newest entry first. -/
def historyRows (rev : Nat) (lo hi : Key) : List RevisionEntry → List Key → List KeyValue
  | [], _ => []
  | e :: es, seen =>
    if rev < e.rev.main then historyRows rev lo hi es seen
    else if !inRange lo hi e.key then historyRows rev lo hi es seen
    else if seen.contains e.key then historyRows rev lo hi es seen
    else
      match e.type with
      | .delete => historyRows rev lo hi es (e.key :: seen)
      | .put => e.kv :: historyRows rev lo hi es (e.key :: seen)

def mvccRangeAt (s : Store) (rev : Nat) (lo hi : Key) : Except ReadError (List KeyValue) :=
  if compactedAway s rev then .error .range
  else if rev = 0 then .ok ((mvccRange s lo hi).map fun e => e.2.kv e.1)
  else
    .ok ((historyRows rev lo (openEnd hi) s.history.reverse []).mergeSort fun a b => a.key ≤ b.key)

/-! ## Versions -/

/-- What an entry says its key is. -/
def RevisionEntry.version? (e : RevisionEntry) : Option KeyValue :=
  match e.type with
  | .delete => none
  | .put => some e.kv

def entryAt (s : Store) (rev : Nat) (k : Key) : Option RevisionEntry :=
  latest RevisionEntry.key (fun e => e.rev.main) s.history k rev

def versionAt (s : Store) (rev : Nat) (k : Key) : Option KeyValue :=
  if rev = 0 then (s.index.find k).map fun kg => kg.kv k
  else (entryAt s rev k).bind RevisionEntry.version?

section

variable {s s' : Store} {rev rev' : Nat} {k lo hi : Key} {kv : KeyValue}

lemma versionAt_zero (s : Store) (k : Key) :
    versionAt s 0 k = (s.index.find k).map fun kg => kg.kv k := rfl

lemma versionAt_pos (h : 0 < rev) (s : Store) (k : Key) :
    versionAt s rev k = (entryAt s rev k).bind RevisionEntry.version? := if_neg h.ne'

lemma version?_key {e : RevisionEntry} (h : e.version? = some kv) : kv.key = e.key := by
  unfold RevisionEntry.version? at h
  cases htype : e.type with
  | delete =>
    rw [htype] at h
    cases h
  | put =>
    rw [htype] at h
    rw [← Option.some.inj h]
    rfl

lemma versionAt_key (h : versionAt s rev k = some kv) : kv.key = k := by
  unfold versionAt at h
  split at h
  · obtain ⟨kg, _, rfl⟩ := Option.map_eq_some_iff.1 h
    rfl
  obtain ⟨e, he, hkv⟩ := Option.bind_eq_some_iff.1 h
  rw [version?_key hkv]
  exact (mem_of_latest he).2.1

lemma mvccGet_eq (h : ¬ compactedAway s rev) :
    mvccGet s rev k = (versionAt s rev k).elim (.error .notFound) .ok := by
  unfold mvccGet versionAt
  rw [if_neg h]
  by_cases hrev : rev = 0
  · rw [if_pos hrev, if_pos hrev]
    cases s.index.find k <;> rfl
  rw [if_neg hrev, if_neg hrev]
  have hfind : s.history.reverse.find? (fun e => e.rev.main ≤ rev && e.key = k) =
      entryAt s rev k := rfl
  rw [hfind]
  cases entryAt s rev k with
  | none => rfl
  | some e =>
    unfold RevisionEntry.version?
    dsimp only [Option.bind_some]
    cases e.type <;> rfl

lemma elim_injective : Function.Injective fun v : Option KeyValue =>
      (v.elim (.error .notFound) .ok : Except ReadError KeyValue) := by
  intro v v' h
  cases v <;> cases v' <;> simp_all

lemma mvccGet_eq_iff (h : ¬ compactedAway s rev) (h' : ¬ compactedAway s' rev') :
    mvccGet s rev k = mvccGet s' rev' k ↔ versionAt s rev k = versionAt s' rev' k := by
  rw [mvccGet_eq h, mvccGet_eq h']
  exact elim_injective.eq_iff

/-! ## Rows -/

lemma historyRows_eq (es : List RevisionEntry) (seen : List Key) : historyRows rev lo hi es seen =
      (walk RevisionEntry.key (fun e => e.rev.main ≤ rev && inRange lo hi e.key) es seen).filterMap
        RevisionEntry.version? := by
  induction es generalizing seen with
  | nil => rfl
  | cons e es ih =>
    unfold historyRows walk
    by_cases hrev : rev < e.rev.main
    · rw [if_pos hrev, ih, if_neg (by simp [hrev])]
    rw [if_neg hrev]
    by_cases hin : inRange lo hi e.key = true
    · rw [if_neg (by simp [hin])]
      by_cases hseen : seen.contains e.key = true
      · rw [if_pos hseen, ih, if_neg (by simpa using fun _ _ => hseen)]
      rw [if_neg hseen, if_pos (by simpa [hin, not_lt.1 hrev] using hseen), filterMap_cons]
      unfold RevisionEntry.version?
      cases e.type with
      | delete => exact ih _
      | put => exact congrArg _ (ih _)
    · rw [if_pos (by simpa using hin), ih, if_neg (by simp [hin])]

lemma mem_historyRows : kv ∈ historyRows rev lo hi s.history.reverse [] ↔
      inRange lo hi kv.key ∧ (entryAt s rev kv.key).bind RevisionEntry.version? = some kv := by
  have hfind : ∀ k, inRange lo hi k →
      s.history.reverse.find? (fun e => (e.rev.main ≤ rev && inRange lo hi e.key) && e.key = k) =
        entryAt s rev k := by
    intro k hk
    refine List.find?_congr fun e _ => ?_
    by_cases heq : e.key = k
    · simp [heq, hk]
    · simp [heq]
  rw [historyRows_eq, mem_filterMap]
  constructor
  · rintro ⟨e, he, hkv⟩
    obtain ⟨_, he⟩ := mem_walk.1 he
    have hin : inRange lo hi e.key := by
      have hp := List.find?_some he
      simp only [Bool.and_eq_true] at hp
      exact hp.1.2
    rw [version?_key hkv, ← hfind _ hin, he]
    exact ⟨hin, hkv⟩
  rintro ⟨hin, hbind⟩
  obtain ⟨e, he, hkv⟩ := Option.bind_eq_some_iff.1 hbind
  refine ⟨e, mem_walk.2 ⟨not_mem_nil, ?_⟩, hkv⟩
  rw [← version?_key hkv, hfind _ hin]
  exact he

lemma nodup_historyRows :
    ((historyRows rev lo hi s.history.reverse []).map KeyValue.key).Nodup := by
  have hwalk := @nodup_walk _ _ _ RevisionEntry.key
    (fun e => e.rev.main ≤ rev && inRange lo hi e.key) s.history.reverse []
  rw [historyRows_eq]
  refine pairwise_map.2 (pairwise_filterMap.2 ((pairwise_map.1 hwalk).imp ?_))
  intro a b hab kv hkv kv' hkv'
  rw [version?_key hkv, version?_key hkv']
  exact hab

lemma mvccRangeAt_eq (h : ¬ compactedAway s rev) (lo hi : Key) :
    ∃ rows, mvccRangeAt s rev lo hi = .ok rows ∧ rows.Pairwise (fun a b => a.key < b.key) ∧
      ∀ kv, kv ∈ rows ↔ inRange lo (openEnd hi) kv.key ∧ versionAt s rev kv.key = some kv := by
  unfold mvccRangeAt versionAt
  rw [if_neg h]
  by_cases hrev : rev = 0
  · rw [if_pos hrev]
    refine ⟨_, rfl, pairwise_map.2 (s.index.sorted.filter _), fun kv => ?_⟩
    rw [if_pos hrev, mem_map]
    constructor
    · rintro ⟨e, he, rfl⟩
      obtain ⟨hmem, hin⟩ := mem_filter.1 he
      refine ⟨hin, ?_⟩
      change (s.index.find e.1).map _ = _
      rw [OrdMap.find_eq_some.2 hmem]
      rfl
    rintro ⟨hin, hkv⟩
    obtain ⟨kg, hkg, heq⟩ := Option.map_eq_some_iff.1 hkv
    exact ⟨(kv.key, kg), mem_filter.2 ⟨OrdMap.find_eq_some.1 hkg, hin⟩, heq⟩
  rw [if_neg hrev]
  refine ⟨_, rfl, pairwise_mergeSort nodup_historyRows, fun kv => ?_⟩
  rw [if_neg hrev, mem_mergeSort]
  exact mem_historyRows

lemma mvccRangeAt_eq_iff (h : ¬ compactedAway s rev) (h' : ¬ compactedAway s' rev') :
    mvccRangeAt s rev lo hi = mvccRangeAt s' rev' lo hi ↔
      ∀ k, inRange lo (openEnd hi) k → versionAt s rev k = versionAt s' rev' k := by
  obtain ⟨rows, hrows, hsorted, hmem⟩ := mvccRangeAt_eq h lo hi
  obtain ⟨rows', hrows', hsorted', hmem'⟩ := mvccRangeAt_eq h' lo hi
  rw [hrows, hrows']
  constructor
  · intro heq k hk
    obtain rfl : rows = rows' := Except.ok.inj heq
    have hiff : ∀ kv : KeyValue, kv.key = k → (versionAt s rev k = some kv ↔
        versionAt s' rev' k = some kv) := by
      rintro kv rfl
      have hsame := (hmem kv).symm.trans (hmem' kv)
      rwa [and_congr_right_iff, imp_iff_right hk] at hsame
    refine Option.ext fun kv => ⟨fun hkv => ?_, fun hkv => ?_⟩
    · exact (hiff kv (versionAt_key hkv)).1 hkv
    · exact (hiff kv (versionAt_key hkv)).2 hkv
  intro hall
  refine congrArg _ (eq_of_pairwise_lt hsorted hsorted' fun kv => ?_)
  rw [hmem, hmem']
  exact and_congr_right fun hk => by rw [hall _ hk]

/-! ## The range of one key -/

lemma eq_of_lt_append_zero {k j : Key} (hle : ¬ j < k) (hlt : j < k ++ [0]) : j = k := by
  induction k generalizing j with
  | nil =>
    cases j with
    | nil => rfl
    | cons b j =>
      rw [nil_append, cons_lt_cons_iff] at hlt
      obtain hlt | ⟨_, hlt⟩ := hlt
      · exact absurd hlt (UInt8.not_lt.2 UInt8.zero_le)
      · exact absurd hlt (not_lt_nil _)
  | cons a k ih =>
    cases j with
    | nil => exact absurd (nil_lt_cons a k) hle
    | cons b j =>
      rw [cons_append, cons_lt_cons_iff] at hlt
      rw [cons_lt_cons_iff, not_or, not_and] at hle
      obtain hlt | ⟨rfl, hlt⟩ := hlt
      · exact absurd hlt hle.1
      · rw [ih (hle.2 rfl) hlt]

lemma lt_append_zero (k : Key) : k < k ++ [0] := by
  induction k with
  | nil => exact nil_lt_cons _ _
  | cons a k ih => exact cons_lt_cons_iff.2 (Or.inr ⟨rfl, ih⟩)

lemma inRange_succ (hk : k ≠ []) (j : Key) : inRange k (openEnd (k ++ [0])) j ↔ j = k := by
  have hopen : openEnd (k ++ [0]) = k ++ [0] := by
    unfold openEnd
    refine if_neg fun heq => hk ?_
    exact (append_left_eq_self.1 heq)
  unfold inRange
  rw [hopen, Bool.and_eq_true, Bool.or_eq_true, decide_eq_true_eq, decide_eq_true_eq,
    decide_eq_true_eq, or_iff_right (append_ne_nil_of_right_ne_nil _ (cons_ne_nil _ _))]
  constructor
  · exact fun h => eq_of_lt_append_zero h.1.not_gt h.2
  rintro rfl
  exact ⟨le_rfl, lt_append_zero _⟩

lemma mvccRangeAt_succ (h : ¬ compactedAway s rev) (hk : k ≠ []) :
    mvccRangeAt s rev k (k ++ [0]) = .ok (versionAt s rev k).toList := by
  obtain ⟨rows, hrows, hsorted, hmem⟩ := mvccRangeAt_eq h k (k ++ [0])
  rw [hrows]
  refine congrArg _ (eq_of_pairwise_lt hsorted ?_ fun kv => ?_)
  · cases versionAt s rev k <;> simp
  rw [hmem, inRange_succ hk, Option.mem_toList]
  constructor
  · rintro ⟨rfl, hkv⟩
    exact hkv
  intro hkv
  have heq := versionAt_key hkv
  subst heq
  exact ⟨rfl, hkv⟩

end

end Cetcd.Mvcc
