import Cetcd.Mvcc.History

/-!
# A store and its backend

As long as no write fails, the backend holds exactly the index and the revision of the store, and
`cetcd_mvcc_load` brings them back.
-/

namespace Cetcd.Mvcc

open Lib List OrdMap

structure Backed (s : Store) (d : Disk) : Prop where
  reliable : d.Reliable
  keys : d.be.keys = s.index
  revision : d.be.revision.getD 0 = s.mainRev
  bound : ∀ k kg, s.index.find k = some kg → kg.modRev.main ≤ s.mainRev

/-- The part of the backend that the store does not write. -/
def SameMeta (d d' : Disk) : Prop :=
  d'.be.applied = d.be.applied ∧ d'.be.leases = d.be.leases ∧ d'.be.haveBucket = d.be.haveBucket

section

variable {s : Store} {d : Disk} {value : List UInt8} {leaseId : Int}

lemma nextGeneration_modRev (existing : Option KeyGeneration) (rev : Revision) :
    (nextGeneration existing rev value leaseId).modRev = rev := by
  cases existing <;> rfl

lemma nextGeneration_leaseId (existing : Option KeyGeneration) (rev : Revision) :
    (nextGeneration existing rev value leaseId).leaseId = leaseId := by
  cases existing <;> rfl

lemma mvccPut_spec (h : Backed s d) (key : Key) (value : List UInt8) (leaseId : Int) :
    ∃ s' d', mvccPut s d key value leaseId = (⟨s.mainRev + 1, 0⟩, s', d') ∧
      s'.index = s.index.insert key
        (nextGeneration (s.index.find key) ⟨s.mainRev + 1, 0⟩ value leaseId) ∧
      s'.mainRev = s.mainRev + 1 ∧ Backed s' d' ∧ SameMeta d d' := by
  unfold mvccPut
  dsimp only
  rw [h.reliable.write]
  refine ⟨_, _, rfl, rfl, rfl, ⟨h.reliable, ?_, rfl, fun k kg hk => ?_⟩, rfl, rfl, rfl⟩
  · exact congrArg (OrdMap.insert · _ _) h.keys
  dsimp only at hk ⊢
  rw [find_insert] at hk
  split at hk
  · rw [← Option.some.inj hk, nextGeneration_modRev]
  · exact (h.bound k kg hk).trans (Nat.le_succ _)

end

/-! ## Deletions -/

/-- `r` is what comes of deleting the keys in `p`: one new revision if any of them was there. -/
structure Deleted (p : Key → Prop) (s : Store) (d : Disk) (r : Revision × Store × Disk) : Prop where
  index : ∀ k kg, r.2.1.index.find k = some kg ↔ s.index.find k = some kg ∧ ¬ p k
  hit : (∃ k kg, p k ∧ s.index.find k = some kg) → r.2.1.mainRev = s.mainRev + 1 ∧ r.1.main ≠ 0
  miss : (¬ ∃ k kg, p k ∧ s.index.find k = some kg) → r.2.1.mainRev = s.mainRev ∧ r.1.main = 0
  backed : Backed r.2.1 r.2.2
  same : SameMeta d r.2.2

section

variable {s : Store} {d : Disk} {p : Key → Prop} {key k : Key} {kg : KeyGeneration}
  {m : OrdMap Key KeyGeneration} {del : List Key}

lemma deleted_nothing (h : Backed s d) (hmiss : ¬ ∃ k kg, p k ∧ s.index.find k = some kg) :
    Deleted p s d (.zero, s, d) where
  index k kg := (and_iff_left_of_imp fun hk hp => hmiss ⟨k, kg, hp, hk⟩).symm
  hit hhit := absurd hhit hmiss
  miss _ := ⟨rfl, rfl⟩
  backed := h
  same := ⟨rfl, rfl, rfl⟩

lemma Deleted.congr {q : Key → Prop} {r : Revision × Store × Disk} (h : Deleted p s d r)
    (hpq : ∀ k kg, s.index.find k = some kg → (p k ↔ q k)) : Deleted q s d r := by
  have hiff : (∃ k kg, q k ∧ s.index.find k = some kg) ↔ ∃ k kg, p k ∧ s.index.find k = some kg :=
    exists_congr fun k => exists_congr fun kg => and_congr_left fun hk => (hpq k kg hk).symm
  refine ⟨fun k kg => ?_, fun hhit => h.hit (hiff.1 hhit), fun hmiss => h.miss (hmiss ∘ hiff.2),
    h.backed, h.same⟩
  rw [h.index]
  exact and_congr_right fun hk => not_congr (hpq k kg hk)

lemma find_erase_eq_some : (m.erase key).find k = some kg ↔ m.find k = some kg ∧ k ≠ key := by
  rw [find_erase]
  by_cases h : k = key <;> simp [h]

lemma Backed.deleted {s' : Store} {rev : Revision} {be : Backend} (h : Backed s d)
    (hmain : s'.mainRev = s.mainRev + 1) (hrev : rev.main = s.mainRev + 1)
    (hindex : ∀ k kg, s'.index.find k = some kg ↔ s.index.find k = some kg ∧ ¬ p k)
    (hhit : ∃ k kg, p k ∧ s.index.find k = some kg) (hkeys : be.keys = s'.index)
    (hbeRev : be.revision = some (s.mainRev + 1)) (hsame : SameMeta d { d with be := be }) :
    Deleted p s d (rev, s', { d with be := be }) where
  index := hindex
  hit _ := ⟨hmain, by rw [hrev]; exact Nat.succ_ne_zero _⟩
  miss hmiss := absurd hhit hmiss
  backed :=
    { reliable := h.reliable
      keys := hkeys
      revision := by rw [hmain, hbeRev]; rfl
      bound := fun k kg hk => by
        rw [hmain]
        exact (h.bound k kg ((hindex k kg).1 hk).1).trans (Nat.le_succ _) }
  same := hsame

lemma mvccDelete_deleted (h : Backed s d) (key : Key) :
    Deleted (· = key) s d (mvccDelete s d key) := by
  unfold mvccDelete
  cases hfind : s.index.find key with
  | none =>
    refine deleted_nothing h ?_
    rintro ⟨k, kg, rfl, hk⟩
    rw [hfind] at hk
    cases hk
  | some kg =>
    dsimp only
    rw [h.reliable.write]
    have hmain : (dropKey s key kg ⟨s.mainRev + 1, 0⟩).mainRev = s.mainRev + 1 :=
      if_pos (Nat.lt_succ_self _)
    exact h.deleted hmain rfl (fun _ _ => find_erase_eq_some) ⟨key, kg, rfl, hfind⟩
      (congrArg (OrdMap.erase · key) h.keys) rfl ⟨rfl, rfl, rfl⟩

lemma find_foldl_erase : (del.foldl (fun m k => m.erase k) m).find k =
    if k ∈ del then none else m.find k := by
  induction del generalizing m with
  | nil => simp
  | cons key del ih =>
    rw [foldl_cons, ih, find_erase]
    by_cases hk : k = key <;> simp [hk]

lemma find_deleteEach (main sub : Nat) (p : Revision × Store) :
    (deleteEach main del sub p).2.index.find k = if k ∈ del then none else p.2.index.find k := by
  rw [deleteEach_eq, index_deleteEntries, find_foldl_erase]

lemma deleteEach_rev {main sub : Nat} {q : Revision × Store} (hnodup : del.Nodup)
    (hlive : ∀ k ∈ del, ∃ kg, q.2.index.find k = some kg) :
    (deleteEach main del sub q).1 =
      (deleteEntries main del sub q.2).getLast?.elim q.1 RevisionEntry.rev := by
  induction del generalizing sub q with
  | nil => rfl
  | cons key del ih =>
    rw [nodup_cons] at hnodup
    rw [forall_mem_cons] at hlive
    obtain ⟨kg, hkg⟩ := hlive.1
    unfold deleteEach deleteEntries deleteAt
    rw [hkg]
    dsimp only
    rw [push_dropKey, ih hnodup.2, getLast?_cons]
    · cases (deleteEntries main del (sub + 1) (q.2.push (deleteEntry key kg ⟨main, sub⟩))).getLast? <;>
        rfl
    intro k hk
    have hne : k ≠ key := fun heq => hnodup.1 (heq ▸ hk)
    rw [find_push_of_ne (e := deleteEntry key kg ⟨main, sub⟩) hne]
    exact hlive.2 k hk

lemma mvccDeleteKeys_deleted {keys : List Key} (h : Backed s d) (hnodup : keys.Nodup) :
    Deleted (fun k => k ≠ [] ∧ k ∈ keys) s d (mvccDeleteKeys s d keys) := by
  unfold mvccDeleteKeys
  change Deleted _ s d (if liveKeys s keys = [] then _ else _)
  dsimp only
  by_cases hempty : liveKeys s keys = []
  · rw [if_pos hempty]
    refine deleted_nothing h ?_
    rintro ⟨k, kg, hk, hkg⟩
    have hk' := mem_liveKeys.2 ⟨hk.2, hk.1, kg, hkg⟩
    rw [hempty] at hk'
    cases hk'
  rw [if_neg hempty, h.reliable.write]
  have hlive : ∀ k ∈ liveKeys s keys, ∃ kg, s.index.find k = some kg := fun k hk =>
    (mem_liveKeys.1 hk).2.2
  have hne : deleteEntries (s.mainRev + 1) (liveKeys s keys) 0 s ≠ [] :=
    deleteEntries_ne_nil hempty hlive
  obtain ⟨key, hkey⟩ := exists_mem_of_ne_nil _ hempty
  obtain ⟨hin, hnil, kg, hkg⟩ := mem_liveKeys.1 hkey
  refine h.deleted ?_ ?_ (fun k kg => ?_) ⟨key, kg, ⟨hnil, hin⟩, hkg⟩ ?_ rfl ⟨rfl, rfl, rfl⟩
  · exact (congrArg Store.mainRev (deleteEach_eq ..)).trans
      (pushAll_mainRev (Nat.le_succ _) hne fun e he => (mem_deleteEntries he).1)
  · have hkeys : (liveKeys s keys).Nodup := hnodup.filter _
    refine (congrArg Revision.main (deleteEach_rev hkeys hlive)).trans ?_
    rw [getLast?_eq_some_getLast hne]
    exact (mem_deleteEntries (getLast_mem hne)).1
  · rw [find_deleteEach, ite_eq_iff]
    simp only [reduceCtorEq, and_false, false_or]
    rw [and_comm]
    refine and_congr_right fun hk => not_congr ?_
    exact mem_liveKeys.trans ⟨fun hm => ⟨hm.2.1, hm.1⟩, fun hm => ⟨hm.2, hm.1, kg, hk⟩⟩
  · rw [deleteEach_eq, index_deleteEntries, ← h.keys]

lemma mem_of_deleted {keys : List Key} (hlive : (s.index.find key).isSome)
    (h : (mvccDeleteKeys s d keys).2.1.index.find key = none) : key ∈ keys ∧ key ≠ [] := by
  have hkept : s.index.find key ≠ none := Option.isSome_iff_ne_none.1 hlive
  unfold mvccDeleteKeys at h
  dsimp only at h
  split at h
  · exact absurd h hkept
  split at h
  · exact absurd h hkept
  rw [find_deleteEach] at h
  split_ifs at h with hdel
  · simp only [mem_filter, Bool.and_eq_true, decide_eq_true_eq] at hdel
    exact ⟨hdel.1, hdel.2.1⟩
  · exact absurd h hkept

end

/-! ## Batches -/

/-- The entries of the keys that are there, in the order of the list. -/
def deletedEntries (s : Store) (keys : List Key) : List RevisionEntry :=
  (keys.filter fun k => (s.index.find k).isSome).zipIdx.filterMap fun p =>
    (s.index.find p.1).map fun kg => deleteEntry p.1 kg ⟨s.mainRev + 1, p.2⟩

/-- What `cetcd_mvcc_delete_keys` is to return and to leave in memory. -/
structure BatchDeleted (s : Store) (keys : List Key) (r : Revision × Store × Disk) : Prop where
  index : ∀ k, r.2.1.index.find k = if k ∈ keys then none else s.index.find k
  mainRev : r.2.1.mainRev =
    if ∃ k ∈ keys, (s.index.find k).isSome then s.mainRev + 1 else s.mainRev
  history : r.2.1.history = s.history ++ deletedEntries s keys
  last : r.1 = (deletedEntries s keys).getLast?.elim .zero RevisionEntry.rev

lemma deleteEntries_eq {main sub : Nat} {keys : List Key} {s : Store} (hnodup : keys.Nodup) :
    deleteEntries main keys sub s = (keys.zipIdx sub).filterMap fun p =>
      (s.index.find p.1).map fun kg => deleteEntry p.1 kg ⟨main, p.2⟩ := by
  induction keys generalizing sub s with
  | nil => rfl
  | cons key keys ih =>
    rw [nodup_cons] at hnodup
    unfold deleteEntries
    rw [zipIdx_cons, filterMap_cons]
    cases hfind : s.index.find key with
    | none => exact ih hnodup.2
    | some kg =>
      dsimp only [Option.map_some]
      rw [ih hnodup.2]
      refine congrArg _ (filterMap_congr fun p hp => ?_)
      have hne : p.1 ≠ key := fun heq => hnodup.1 (heq ▸ fst_mem_of_mem_zipIdx hp)
      rw [find_push_of_ne hne]

section

variable {s : Store} {d : Disk} {keys : List Key}

lemma mvccDeleteKeys_eq (hnodup : keys.Nodup) (hd : ∀ f, (d.write f).1) :
    (mvccDeleteKeys s d keys).1 = (deleteEntries (s.mainRev + 1)
      (liveKeys s keys) 0 s).getLast?.elim .zero RevisionEntry.rev ∧
    (mvccDeleteKeys s d keys).2.1 =
      s.pushAll (deleteEntries (s.mainRev + 1) (liveKeys s keys) 0 s) := by
  have hlive : ∀ k ∈ liveKeys s keys, ∃ kg, s.index.find k = some kg := fun k hk =>
    (mem_liveKeys.1 hk).2.2
  have hkeys : (liveKeys s keys).Nodup := hnodup.filter _
  have hdef : mvccDeleteKeys s d keys = if liveKeys s keys = [] then (.zero, s, d) else _ := rfl
  rw [hdef]
  by_cases hnone : liveKeys s keys = []
  · rw [if_pos hnone, hnone]
    exact ⟨rfl, rfl⟩
  have hwrite : ∀ f, d.write f = (true, (d.write f).2) := fun f => Prod.ext (hd f) rfl
  rw [if_neg hnone, hwrite]
  exact ⟨deleteEach_rev hkeys hlive, deleteEach_eq ..⟩

lemma batchDeleted_of_named (hnodup : keys.Nodup) (hd : ∀ f, (d.write f).1)
    (h : ¬ ([] ∈ keys ∧ (s.index.find []).isSome)) :
    BatchDeleted s keys (mvccDeleteKeys s d keys) := by
  have hkeys : liveKeys s keys = keys.filter fun k => (s.index.find k).isSome := by
    refine filter_congr fun k hk => ?_
    by_cases hnil : k = []
    · subst hnil
      simpa using fun hsome => h ⟨hk, hsome⟩
    · simp [hnil]
  have hentries : deleteEntries (s.mainRev + 1) (liveKeys s keys) 0 s = deletedEntries s keys := by
    rw [hkeys, deleteEntries_eq (hnodup.filter _)]
    rfl
  have heq := mvccDeleteKeys_eq (s := s) hnodup hd
  refine ⟨fun k => ?_, ?_, ?_, ?_⟩
  · rw [heq.2, index_deleteEntries, find_foldl_erase, hkeys]
    by_cases hk : k ∈ keys <;> simp [hk]
  · rw [heq.2]
    by_cases hnone : liveKeys s keys = []
    · rw [hnone, if_neg]
      · rfl
      rintro ⟨k, hk, hsome⟩
      rw [hkeys, filter_eq_nil_iff] at hnone
      exact hnone k hk hsome
    obtain ⟨k, hk⟩ := exists_mem_of_ne_nil _ hnone
    rw [if_pos ⟨k, (mem_liveKeys.1 hk).1, Option.isSome_iff_exists.2 (mem_liveKeys.1 hk).2.2⟩]
    exact pushAll_mainRev (Nat.le_succ _)
      (deleteEntries_ne_nil hnone fun k hk => (mem_liveKeys.1 hk).2.2)
      fun e he => (mem_deleteEntries he).1
  · rw [heq.2, (push_history _ _).1, hentries]
  · rw [heq.1, hentries]

theorem mvcc_delete_keys_batch (hnodup : keys.Nodup) (hd : ∀ f, (d.write f).1) :
    BatchDeleted s keys (mvccDeleteKeys s d keys) ↔ ¬ ([] ∈ keys ∧ (s.index.find []).isSome) := by
  refine ⟨?_, batchDeleted_of_named hnodup hd⟩
  rintro h ⟨hin, hsome⟩
  exact (mem_of_deleted hsome ((h.index []).trans (if_pos hin))).2 rfl

/-- A store that holds the empty key and one more. -/
def withEmptyKey : Store :=
  (mvccPut (mvccPut .new ⟨.empty, []⟩ [] [1] 0).2.1 ⟨.empty, []⟩ [97] [2] 0).2.1

theorem mvcc_delete_keys_batch_two : withEmptyKey.index.find [97] ≠ none ∧
    BatchDeleted withEmptyKey [[98], [97]] (mvccDeleteKeys withEmptyKey ⟨.empty, []⟩ [[98], [97]]) :=
  ⟨by decide +kernel, (mvcc_delete_keys_batch (by decide) fun _ => rfl).2 (by decide)⟩

theorem mvcc_delete_keys_empty_key :
    (mvccDeleteKeys withEmptyKey ⟨.empty, []⟩ [[], [97]]).2.1.index.find [] ≠ none ∧
      ¬ BatchDeleted withEmptyKey [[], [97]] (mvccDeleteKeys withEmptyKey ⟨.empty, []⟩ [[], [97]]) := by
  have hkept : (mvccDeleteKeys withEmptyKey ⟨.empty, []⟩ [[], [97]]).2.1.index.find [] ≠ none := by
    decide +kernel
  exact ⟨hkept, fun h => hkept (h.index [])⟩

end

/-! ## Start -/

lemma foldl_max_eq {α : Type} {f : α → Nat} {m : Nat} {l : List α} (h : ∀ x ∈ l, f x ≤ m) :
    l.foldl (fun m x => max m (f x)) m = m := by
  induction l with
  | nil => rfl
  | cons x l ih =>
    rw [forall_mem_cons] at h
    rw [foldl_cons, max_eq_left h.1]
    exact ih h.2

lemma Backed.load {s : Store} {d : Disk} (h : Backed s d) :
    (mvccLoad d.be).index = s.index ∧ (mvccLoad d.be).mainRev = s.mainRev ∧
      Backed (mvccLoad d.be) d := by
  have hmain : (mvccLoad d.be).mainRev = s.mainRev := by
    unfold mvccLoad
    dsimp only
    rw [h.revision]
    refine foldl_max_eq fun e he => h.bound e.1 e.2 ?_
    rw [← h.keys, find_eq_some]
    exact he
  refine ⟨h.keys, hmain, h.reliable, rfl, h.revision.trans hmain.symm, fun k kg hk => ?_⟩
  rw [hmain]
  exact h.bound k kg (h.keys ▸ hk)

end Cetcd.Mvcc
