import Cetcd.Mvcc.Read

/-!
# The history of a store

Every write pushes entries, onto the history and onto the index. A call pushes what it has worked
out from the store before it, all at one new revision, or nothing if its transaction fails. So the
index is what the newest entries say.
-/

namespace Cetcd.Mvcc

open Lib List Option

/-! ## Entries -/

/-- The generation that an entry leaves its key in. -/
def RevisionEntry.generation? (e : RevisionEntry) : Option KeyGeneration :=
  match e.type with
  | .delete => none
  | .put =>
    some { createRev := e.createRev, version := e.version, modRev := e.rev, value := e.value
           leaseId := e.leaseId }

def Store.push (s : Store) (e : RevisionEntry) : Store :=
  { s with
    index := e.generation?.elim (s.index.erase e.key) (s.index.insert e.key)
    mainRev := max s.mainRev e.rev.main
    history := s.history ++ [e] }

def Store.pushAll (s : Store) (es : List RevisionEntry) : Store := es.foldl Store.push s

def putEntry (s : Store) (key : Key) (value : List UInt8) (leaseId : Int) : RevisionEntry :=
  let rev : Revision := ⟨s.mainRev + 1, 0⟩
  let kg := nextGeneration (s.index.find key) rev value leaseId
  { key := key, value := value, rev := rev, type := .put, version := kg.version
    createRev := kg.createRev, leaseId := leaseId }

def deleteEntry (key : Key) (kg : KeyGeneration) (rev : Revision) : RevisionEntry :=
  { key := key, value := [], rev := rev, type := .delete, version := 0, createRev := kg.createRev
    leaseId := kg.leaseId }

def deleteEntries (main : Nat) : List Key → Nat → Store → List RevisionEntry
  | [], _, _ => []
  | k :: ks, sub, s =>
    match s.index.find k with
    | none => deleteEntries main ks (sub + 1) s
    | some kg =>
      deleteEntry k kg ⟨main, sub⟩ ::
        deleteEntries main ks (sub + 1) (s.push (deleteEntry k kg ⟨main, sub⟩))

/-- The keys that `cetcd_mvcc_delete_keys` collects. -/
def liveKeys (s : Store) (keys : List Key) : List Key :=
  keys.filter fun k => k ≠ [] && (s.index.find k).isSome

section

variable {s : Store} {k : Key} {e : RevisionEntry} {es : List RevisionEntry}

lemma find_push : (s.push e).index.find k =
    if k = e.key then e.generation? else s.index.find k := by
  unfold Store.push
  dsimp only
  cases e.generation? with
  | none =>
    dsimp only [elim_none]
    rw [OrdMap.find_erase]
    split <;> rfl
  | some kg =>
    dsimp only [elim_some]
    rw [OrdMap.find_insert]
    split <;> rfl

lemma find_push_of_ne (h : k ≠ e.key) : (s.push e).index.find k = s.index.find k :=
  find_push.trans (if_neg h)

lemma generation?_putEntry (key : Key) (value : List UInt8) (leaseId : Int) :
    (putEntry s key value leaseId).generation? =
      some (nextGeneration (s.index.find key) ⟨s.mainRev + 1, 0⟩ value leaseId) := by
  unfold putEntry RevisionEntry.generation?
  cases s.index.find key <;> rfl

lemma version?_eq (e : RevisionEntry) : e.version? = e.generation?.map fun kg => kg.kv e.key := by
  unfold RevisionEntry.version? RevisionEntry.generation?
  cases e.type <;> rfl

lemma push_history (s : Store) (es : List RevisionEntry) :
    (s.pushAll es).history = s.history ++ es ∧ (s.pushAll es).compactedRev = s.compactedRev := by
  unfold Store.pushAll
  induction es generalizing s with
  | nil => exact ⟨(append_nil _).symm, rfl⟩
  | cons e es ih =>
    rw [foldl_cons, (ih _).1, (ih _).2]
    exact ⟨append_assoc _ _ _, rfl⟩

lemma pushAll_mainRev {m : Nat} (hle : s.mainRev ≤ m) (hes : es ≠ [])
    (hm : ∀ e ∈ es, e.rev.main = m) : (s.pushAll es).mainRev = m := by
  induction es generalizing s with
  | nil => exact absurd rfl hes
  | cons e es ih =>
    have hpush : (s.push e).mainRev = m := by
      change max s.mainRev e.rev.main = m
      rw [hm e mem_cons_self]
      exact max_eq_right hle
    cases es with
    | nil => exact hpush
    | cons e' es =>
      exact ih hpush.le (cons_ne_nil _ _) fun a ha => hm a (mem_cons_of_mem _ ha)

end

/-! ## Calls -/

structure Durable where
  store : Store
  disk : Disk
  deriving DecidableEq

def mvccAdvanceRevision (s : Store) (d : Disk) (rev : Nat) : CompactResult × Store × Disk :=
  if rev < 1 then (.inval, s, d)
  else if rev < s.mainRev then (.inval, s, d)
  else if rev = s.mainRev then (.ok, s, d)
  else
    match d.write fun be => { be with revision := some rev } with
    | (false, d') => (.io, s, d')
    | (true, d') => (.ok, { s with mainRev := rev }, d')

inductive Call
  | put (key : Key) (value : List UInt8) (leaseId : Int)
  | delete (key : Key)
  | deleteKeys (keys : List Key)
  | advance (rev : Nat)
  | compact (rev : Nat)
  deriving DecidableEq

def Call.run (x : Durable) : Call → Durable
  | .put key value leaseId =>
    match mvccPut x.store x.disk key value leaseId with
    | (_, s, d) => ⟨s, d⟩
  | .delete key =>
    match mvccDelete x.store x.disk key with
    | (_, s, d) => ⟨s, d⟩
  | .deleteKeys keys =>
    match mvccDeleteKeys x.store x.disk keys with
    | (_, s, d) => ⟨s, d⟩
  | .advance rev =>
    match mvccAdvanceRevision x.store x.disk rev with
    | (_, s, d) => ⟨s, d⟩
  | .compact rev =>
    match mvccCompact x.store x.disk rev with
    | (_, s, d) => ⟨s, d⟩

/-- What a call does to store and backend if its transaction succeeds; `none` if there is none. -/
def Call.effect (s : Store) : Call → Option (Store × (Backend → Backend))
  | .put key value leaseId =>
    let e := putEntry s key value leaseId
    let kg := nextGeneration (s.index.find key) e.rev value leaseId
    some (s.push e, fun be =>
      { be with keys := be.keys.insert key kg, revision := some e.rev.main })
  | .delete key =>
    (s.index.find key).map fun kg =>
      (s.push (deleteEntry key kg ⟨s.mainRev + 1, 0⟩), fun be =>
        { be with keys := be.keys.erase key, revision := some (s.mainRev + 1) })
  | .deleteKeys keys =>
    if liveKeys s keys = [] then none
    else
      some (s.pushAll (deleteEntries (s.mainRev + 1) (liveKeys s keys) 0 s), fun be =>
        { be with
          keys := (liveKeys s keys).foldl (fun m k => m.erase k) be.keys
          revision := some (s.mainRev + 1) })
  | .advance rev =>
    if s.mainRev < rev then
      some ({ s with mainRev := rev }, fun be => { be with revision := some rev })
    else none
  | .compact rev =>
    if 0 < rev ∧ rev ≤ s.mainRev ∧ s.compactedRev < rev then
      some ({ s with
          history := s.history.filter fun e => rev ≤ e.rev.main
          compactedRev := rev },
        fun be => { be with compacted := some rev })
    else none

/-- A transaction and what is made in memory if it succeeds. -/
def Durable.commit (x : Durable) (s : Store) (f : Backend → Backend) : Durable :=
  match x.disk.write f with
  | (false, d) => ⟨x.store, d⟩
  | (true, d) => ⟨s, d⟩

section

variable {x : Durable} {s : Store} {main sub : Nat} {keys : List Key} {s' : Store}
  {f : Backend → Backend}

lemma push_dropKey (key : Key) (kg : KeyGeneration) (rev : Revision) :
    dropKey s key kg rev = s.push (deleteEntry key kg rev) := by
  have hmax : (if s.mainRev < rev.main then rev.main else s.mainRev) = max s.mainRev rev.main := by
    rw [max_def]
    split_ifs <;> omega
  unfold dropKey
  rw [hmax]
  rfl

lemma deleteEach_eq (main : Nat) (keys : List Key) (sub : Nat) (p : Revision × Store) :
    (deleteEach main keys sub p).2 = p.2.pushAll (deleteEntries main keys sub p.2) := by
  induction keys generalizing sub p with
  | nil => rfl
  | cons k ks ih =>
    unfold deleteEach deleteEntries
    rw [ih]
    unfold deleteAt
    cases p.2.index.find k with
    | none => rfl
    | some kg =>
      dsimp only
      rw [push_dropKey]
      rfl

lemma push_putEntry (s : Store) (key : Key) (value : List UInt8) (leaseId : Int) :
    s.push (putEntry s key value leaseId) = { s with
      index := s.index.insert key
        (nextGeneration (s.index.find key) ⟨s.mainRev + 1, 0⟩ value leaseId)
      mainRev := s.mainRev + 1
      history := s.history ++ [putEntry s key value leaseId] } := by
  have hmax : max s.mainRev (putEntry s key value leaseId).rev.main = s.mainRev + 1 :=
    max_eq_right (Nat.le_succ _)
  unfold Store.push
  rw [generation?_putEntry, hmax]
  rfl

lemma Call.run_eq (x : Durable) (c : Call) :
    c.run x = (c.effect x.store).elim x fun p => x.commit p.1 p.2 := by
  obtain ⟨s, be, outcomes⟩ := x
  unfold Call.run Call.effect Durable.commit
  cases c with
  | put key value leaseId =>
    dsimp only [elim_some]
    rw [push_putEntry]
    unfold mvccPut Disk.write
    rcases outcomes with _ | ⟨_ | _, rest⟩ <;> rfl
  | delete key =>
    unfold mvccDelete
    dsimp only
    cases s.index.find key with
    | none => rfl
    | some kg =>
      dsimp only [map_some, elim_some]
      rw [push_dropKey]
      unfold Disk.write
      rcases outcomes with _ | ⟨_ | _, rest⟩ <;> rfl
  | deleteKeys keys =>
    unfold mvccDeleteKeys
    change (match (if liveKeys s keys = [] then _ else _ : Revision × Store × Disk) with
      | (_, s, d) => (⟨s, d⟩ : Durable)) = _
    dsimp only
    by_cases hnone : liveKeys s keys = []
    · rw [if_pos hnone, if_pos hnone]
      rfl
    rw [if_neg hnone, if_neg hnone]
    dsimp only [elim_some]
    rw [← deleteEach_eq (s.mainRev + 1) (liveKeys s keys) 0 (.zero, s)]
    unfold Disk.write
    rcases outcomes with _ | ⟨_ | _, rest⟩ <;> rfl
  | advance rev =>
    unfold mvccAdvanceRevision
    dsimp only
    by_cases hlt : s.mainRev < rev
    · rw [if_pos hlt, if_neg (by omega), if_neg (by omega), if_neg (by omega)]
      unfold Disk.write
      rcases outcomes with _ | ⟨_ | _, rest⟩ <;> rfl
    rw [if_neg hlt]
    split_ifs <;> first | rfl | omega
  | compact rev =>
    unfold mvccCompact
    dsimp only
    by_cases hok : 0 < rev ∧ rev ≤ s.mainRev ∧ s.compactedRev < rev
    · rw [if_pos hok, if_neg (by omega), if_neg (by omega), if_neg (by omega)]
      unfold Disk.write
      rcases outcomes with _ | ⟨_ | _, rest⟩ <;> rfl
    rw [if_neg hok]
    split_ifs <;> first | rfl | omega

lemma mem_deleteEntries {e : RevisionEntry} (h : e ∈ deleteEntries main keys sub s) :
    e.rev.main = main ∧ e.type = .delete ∧ e.value = [] := by
  induction keys generalizing sub s with
  | nil => cases h
  | cons k ks ih =>
    unfold deleteEntries at h
    cases hfind : s.index.find k with
    | none =>
      rw [hfind] at h
      exact ih h
    | some kg =>
      rw [hfind] at h
      obtain rfl | h := mem_cons.1 h
      · exact ⟨rfl, rfl, rfl⟩
      · exact ih h

lemma index_deleteEntries :
    (s.pushAll (deleteEntries main keys sub s)).index = keys.foldl (fun m k => m.erase k) s.index := by
  induction keys generalizing sub s with
  | nil => rfl
  | cons k ks ih =>
    unfold deleteEntries
    rw [foldl_cons]
    cases hfind : s.index.find k with
    | none =>
      have herase : s.index.erase k = s.index := by
        refine OrdMap.ext_find fun j => ?_
        rw [OrdMap.find_erase]
        split
        · rename_i heq
          rw [heq, hfind]
        · rfl
      rw [herase]
      exact ih
    | some kg => exact ih

lemma deleteEntries_ne_nil (hne : keys ≠ []) (h : ∀ k ∈ keys, ∃ kg, s.index.find k = some kg) :
    deleteEntries main keys sub s ≠ [] := by
  cases keys with
  | nil => exact absurd rfl hne
  | cons k ks =>
    obtain ⟨kg, hkg⟩ := h k mem_cons_self
    unfold deleteEntries
    rw [hkg]
    exact cons_ne_nil _ _

lemma mem_liveKeys {k : Key} :
    k ∈ liveKeys s keys ↔ k ∈ keys ∧ k ≠ [] ∧ ∃ kg, s.index.find k = some kg := by
  unfold liveKeys
  rw [mem_filter, Bool.and_eq_true, decide_eq_true_eq, isSome_iff_exists]

lemma Call.effect_compact {rev : Nat} (h : (Call.compact rev).effect s = some (s', f)) :
    0 < rev ∧ rev ≤ s.mainRev ∧ s.compactedRev < rev ∧ s' = { s with
        history := s.history.filter fun e => rev ≤ e.rev.main
        compactedRev := rev } := by
  unfold Call.effect at h
  dsimp only at h
  by_cases hok : 0 < rev ∧ rev ≤ s.mainRev ∧ s.compactedRev < rev
  · rw [if_pos hok] at h
    exact ⟨hok.1, hok.2.1, hok.2.2, (congrArg Prod.fst (some.inj h)).symm⟩
  rw [if_neg hok] at h
  cases h

lemma Call.effect_cases {c : Call} (h : c.effect s = some (s', f)) :
    (∃ es, es ≠ [] ∧ (∀ e ∈ es, e.rev.main = s.mainRev + 1) ∧ s' = s.pushAll es) ∨
      (∃ rev, c = .advance rev ∧ s.mainRev < rev ∧ s' = { s with mainRev := rev }) ∨
      ∃ rev, c = .compact rev ∧ 0 < rev ∧ rev ≤ s.mainRev ∧ s.compactedRev < rev ∧ s' = { s with
          history := s.history.filter fun e => rev ≤ e.rev.main
          compactedRev := rev } := by
  cases c with
  | put key value leaseId =>
    refine Or.inl ⟨[putEntry s key value leaseId], cons_ne_nil _ _, ?_, ?_⟩
    · rintro e he
      rw [mem_singleton.1 he]
      rfl
    · exact (congrArg Prod.fst (some.inj h)).symm
  | delete key =>
    obtain ⟨kg, _, heq⟩ := map_eq_some_iff.1 h
    refine Or.inl ⟨[deleteEntry key kg ⟨s.mainRev + 1, 0⟩], cons_ne_nil _ _, ?_, ?_⟩
    · rintro e he
      rw [mem_singleton.1 he]
      rfl
    · exact (congrArg Prod.fst heq).symm
  | deleteKeys keys =>
    unfold Call.effect at h
    dsimp only at h
    by_cases hnone : liveKeys s keys = []
    · rw [if_pos hnone] at h
      cases h
    rw [if_neg hnone] at h
    refine Or.inl ⟨deleteEntries (s.mainRev + 1) (liveKeys s keys) 0 s, ?_,
      fun e he => (mem_deleteEntries he).1, ?_⟩
    · exact deleteEntries_ne_nil hnone fun k hk => (mem_liveKeys.1 hk).2.2
    · exact (congrArg Prod.fst (some.inj h)).symm
  | advance rev =>
    unfold Call.effect at h
    dsimp only at h
    by_cases hlt : s.mainRev < rev
    · rw [if_pos hlt] at h
      exact Or.inr (Or.inl ⟨rev, rfl, hlt, (congrArg Prod.fst (some.inj h)).symm⟩)
    rw [if_neg hlt] at h
    cases h
  | compact rev => exact Or.inr (Or.inr ⟨rev, rfl, Call.effect_compact h⟩)

end

/-! ## What the index is -/

/-- The history is in the order of the revisions, and its newest entries say what the index is; a
live key without an entry was last changed before the compaction. -/
structure Chronicle (s : Store) : Prop where
  sorted : s.history.Pairwise fun a b => a.rev.main ≤ b.rev.main
  pos : ∀ e ∈ s.history, 0 < e.rev.main
  bound : ∀ e ∈ s.history, e.rev.main ≤ s.mainRev
  indexed : ∀ k e, newest RevisionEntry.key s.history k = some e → s.index.find k = e.generation?
  lost : ∀ k kg, newest RevisionEntry.key s.history k = none → s.index.find k = some kg →
    kg.modRev.main < s.compactedRev
  modRev : ∀ k kg, s.index.find k = some kg → 0 < kg.modRev.main ∧ kg.modRev.main ≤ s.mainRev
  compacted : s.compactedRev ≤ s.mainRev

section

variable {s : Store} {e : RevisionEntry} {es : List RevisionEntry}

lemma generation?_modRev {kg : KeyGeneration} (h : e.generation? = some kg) : kg.modRev = e.rev := by
  unfold RevisionEntry.generation? at h
  cases htype : e.type with
  | delete =>
    rw [htype] at h
    cases h
  | put =>
    rw [htype] at h
    rw [← some.inj h]

lemma chronicle_new : Chronicle Store.new where
  sorted := List.Pairwise.nil
  pos _ h := nomatch h
  bound _ h := nomatch h
  indexed _ _ h := nomatch h
  lost _ _ _ h := nomatch h
  modRev _ _ h := nomatch h
  compacted := le_rfl

lemma Chronicle.push (h : Chronicle s) (hle : s.mainRev ≤ e.rev.main) (hpos : 0 < e.rev.main) :
    Chronicle (s.push e) where
  sorted := by
    refine pairwise_append.2 ⟨h.sorted, pairwise_singleton _ _, fun a ha b hb => ?_⟩
    rw [mem_singleton.1 hb]
    exact (h.bound a ha).trans hle
  pos := by
    refine forall_mem_append.2 ⟨h.pos, fun a ha => ?_⟩
    rw [mem_singleton.1 ha]
    exact hpos
  bound := by
    refine forall_mem_append.2 ⟨fun a ha => (h.bound a ha).trans (le_max_left _ _), ?_⟩
    intro a ha
    rw [mem_singleton.1 ha]
    exact le_max_right _ _
  indexed k a ha := by
    change newest _ (s.history ++ [e]) k = _ at ha
    rw [newest_append_singleton] at ha
    rw [find_push]
    by_cases hk : k = e.key
    · rw [if_pos hk.symm] at ha
      rw [if_pos hk, some.inj ha]
    rw [if_neg (Ne.symm hk)] at ha
    rw [if_neg hk]
    exact h.indexed k a ha
  lost k kg ha hkg := by
    change newest _ (s.history ++ [e]) k = _ at ha
    rw [newest_append_singleton] at ha
    rw [find_push] at hkg
    by_cases hk : k = e.key
    · rw [if_pos hk.symm] at ha
      cases ha
    rw [if_neg (Ne.symm hk)] at ha
    rw [if_neg hk] at hkg
    exact h.lost k kg ha hkg
  modRev k kg hkg := by
    change _ ∧ _ ≤ max s.mainRev e.rev.main
    rw [find_push] at hkg
    by_cases hk : k = e.key
    · rw [if_pos hk] at hkg
      rw [generation?_modRev hkg]
      exact ⟨hpos, le_max_right _ _⟩
    rw [if_neg hk] at hkg
    exact ⟨(h.modRev k kg hkg).1, (h.modRev k kg hkg).2.trans (le_max_left _ _)⟩
  compacted := h.compacted.trans (le_max_left _ _)

lemma Chronicle.pushAll {m : Nat} (h : Chronicle s) (hle : s.mainRev ≤ m) (hpos : 0 < m)
    (hm : ∀ e ∈ es, e.rev.main = m) : Chronicle (s.pushAll es) := by
  induction es generalizing s with
  | nil => exact h
  | cons e es ih =>
    rw [forall_mem_cons] at hm
    refine ih (h.push (hle.trans_eq hm.1.symm) (hm.1.symm ▸ hpos)) ?_ hm.2
    exact max_le hle hm.1.le

lemma Chronicle.newest_filter (h : Chronicle s) (c : Nat) (k : Key) :
    newest RevisionEntry.key (s.history.filter fun e => c ≤ e.rev.main) k =
      (newest RevisionEntry.key s.history k).filter fun e => c ≤ e.rev.main := by
  have hbound : ∀ e ∈ s.history.filter (fun e => c ≤ e.rev.main), e.rev.main ≤ s.mainRev :=
    fun e he => h.bound e (mem_filter.1 he).1
  rw [← latest_eq_newest h.bound, ← latest_eq_newest hbound, latest_filter_le h.sorted c]

lemma Chronicle.compact (h : Chronicle s) {c : Nat} (hc : s.compactedRev < c)
    (hle : c ≤ s.mainRev) :
    Chronicle { s with
      history := s.history.filter fun e => c ≤ e.rev.main
      compactedRev := c } where
  sorted := h.sorted.filter _
  pos e he := h.pos e (mem_filter.1 he).1
  bound e he := h.bound e (mem_filter.1 he).1
  indexed k e he := by
    dsimp only at he
    rw [h.newest_filter, filter_eq_some_iff] at he
    exact h.indexed k e he.1
  lost k kg he hkg := by
    dsimp only at he hkg ⊢
    rw [h.newest_filter] at he
    cases hn : newest RevisionEntry.key s.history k with
    | none => exact (h.lost k kg hn hkg).trans hc
    | some e =>
      rw [hn, filter_eq_none_iff] at he
      rw [h.indexed k e hn] at hkg
      rw [generation?_modRev hkg]
      simpa using he e rfl
  modRev := h.modRev
  compacted := hle

lemma Chronicle.effect (h : Chronicle s) {c : Call} {s' : Store} {f : Backend → Backend}
    (hc : c.effect s = some (s', f)) : Chronicle s' := by
  rcases Call.effect_cases hc with ⟨es, _, hes, rfl⟩ | ⟨rev, _, hlt, rfl⟩ |
    ⟨rev, _, _, hle, hlt, rfl⟩
  · exact h.pushAll (Nat.le_succ _) (Nat.succ_pos _) hes
  · exact ⟨h.sorted, h.pos, fun e he => (h.bound e he).trans hlt.le, h.indexed, h.lost,
      fun k kg hk => ⟨(h.modRev k kg hk).1, (h.modRev k kg hk).2.trans hlt.le⟩,
      h.compacted.trans hlt.le⟩
  · exact h.compact hlt hle

end

end Cetcd.Mvcc
