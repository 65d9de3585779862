import Cetcd.Mvcc.Restart

/-!
# Watchers

The watchers of `mvcc.c`, with a callback or a queue. Each entry that a write pushes is shown to all
of them, after the transaction, so a write that fails is not seen. Memory for events and queues is
taken to be there.
-/

namespace Cetcd.Mvcc

open Lib List

structure WatchEvent where
  type : EventType
  kv : KeyValue
  rev : Revision
  prevKv : Option KeyValue
  deriving DecidableEq

/-- `cetcd_watcher`, with the events that its callback was given. -/
structure Watcher where
  pattern : Key
  isPrefix : Bool
  startRev : Nat
  received : List WatchEvent
  deriving DecidableEq

/-- `cetcd_stream_watcher`, with the events in its channel. -/
structure StreamWatcher where
  pattern : Key
  isPrefix : Bool
  isRange : Bool
  rangeEnd : Key
  startRev : Nat
  watchId : Int
  wantPrevKv : Bool
  queue : List WatchEvent
  deriving DecidableEq

def watchMatch (w : Watcher) (key : Key) : Bool :=
  if w.isPrefix then w.pattern.isPrefixOf key else key = w.pattern

def streamWatchMatch (w : StreamWatcher) (key : Key) : Bool :=
  if w.isRange then inRange w.pattern w.rangeEnd key
  else if w.isPrefix then w.pattern.isPrefixOf key
  else key = w.pattern

/-- The event as a watcher is given it, if it is. -/
def Watcher.takes (w : Watcher) (ev : WatchEvent) : Option WatchEvent :=
  if 0 < w.startRev ∧ ev.rev.main < w.startRev then none
  else if watchMatch w ev.kv.key then some ev
  else none

def StreamWatcher.takes (w : StreamWatcher) (ev : WatchEvent) : Option WatchEvent :=
  if 0 < w.startRev ∧ ev.rev.main < w.startRev then none
  else if streamWatchMatch w ev.kv.key then
    some (if w.wantPrevKv then ev else { ev with prevKv := none })
  else none

/-- `notify_push`, for the events that come in `evs`. -/
def StreamWatcher.notify (w : StreamWatcher) (evs : List WatchEvent) : StreamWatcher :=
  { w with queue := w.queue ++ evs }

structure Hub where
  watchers : List Watcher
  streams : List StreamWatcher
  deriving DecidableEq

def Hub.notifyWatchers (h : Hub) (ev : WatchEvent) : Hub where
  watchers := h.watchers.map fun w => { w with received := w.received ++ (w.takes ev).toList }
  streams := h.streams.map fun w => w.notify (w.takes ev).toList

/-! ## Calls -/

/-- A store with its backend and its watchers. -/
structure Watched extends Durable where
  hub : Hub

def putEvent (s : Store) (key : Key) (value : List UInt8) (leaseId : Int) : WatchEvent :=
  let existing := s.index.find key
  let newRev : Revision := ⟨s.mainRev + 1, 0⟩
  let kg := nextGeneration existing newRev value leaseId
  { type := .put, kv := kg.kv key, rev := newRev, prevKv := existing.map fun kg => kg.kv key }

def deleteEvent (key : Key) (kg : KeyGeneration) (newRev : Revision) : WatchEvent where
  type := .delete
  kv :=
    { key := key, value := [], createRev := kg.createRev, modRev := newRev, version := 0
      leaseId := kg.leaseId }
  rev := newRev
  prevKv := some (kg.kv key)

def watchedPut (x : Watched) (key : Key) (value : List UInt8) (leaseId : Int) : Watched :=
  match mvccPut x.store x.disk key value leaseId with
  | (rev, s, d) =>
    if rev = .zero then { x with disk := d }
    else
      { store := s, disk := d
        hub := x.hub.notifyWatchers (putEvent x.store key value leaseId) }

def watchedDelete (x : Watched) (key : Key) : Watched :=
  match x.store.index.find key with
  | none => x
  | some kg =>
    match mvccDelete x.store x.disk key with
    | (rev, s, d) =>
      if rev = .zero then { x with disk := d }
      else { store := s, disk := d, hub := x.hub.notifyWatchers (deleteEvent key kg rev) }

/-- The last loop of `cetcd_mvcc_delete_keys` with the watchers. -/
def watchedDeleteEach (main : Nat) : List Key → Nat → Store × Hub → Store × Hub
  | [], _, p => p
  | k :: ks, sub, p =>
    match p.1.index.find k with
    | none => watchedDeleteEach main ks (sub + 1) p
    | some kg =>
      watchedDeleteEach main ks (sub + 1)
        (dropKey p.1 k kg ⟨main, sub⟩, p.2.notifyWatchers (deleteEvent k kg ⟨main, sub⟩))

def watchedDeleteKeys (x : Watched) (keys : List Key) : Watched :=
  let del := liveKeys x.store keys
  if del = [] then x
  else
    let newMain := x.store.mainRev + 1
    match x.disk.write fun be =>
        { be with keys := del.foldl (fun m k => m.erase k) be.keys, revision := some newMain } with
    | (false, d) => { x with disk := d }
    | (true, d) =>
      match watchedDeleteEach newMain del 0 (x.store, x.hub) with
      | (s, h) => { store := s, disk := d, hub := h }

/-- A call on a store with watchers; advancing and compacting show them nothing. -/
def Call.watched (x : Watched) : Call → Watched
  | .put key value leaseId => watchedPut x key value leaseId
  | .delete key => watchedDelete x key
  | .deleteKeys keys => watchedDeleteKeys x keys
  | .advance rev => { x with toDurable := Call.run x.toDurable (.advance rev) }
  | .compact rev => { x with toDurable := Call.run x.toDurable (.compact rev) }

/-! ## The events of entries -/

def pushIndex (m : OrdMap Key KeyGeneration) (e : RevisionEntry) : OrdMap Key KeyGeneration :=
  e.generation?.elim (m.erase e.key) (m.insert e.key)

lemma find_pushIndex (m : OrdMap Key KeyGeneration) (e : RevisionEntry) (k : Key) :
    (pushIndex m e).find k = if k = e.key then e.generation? else m.find k :=
  @find_push ⟨m, 0, [], 0⟩ k e

/-- The event of an entry, `m` being the index before it. -/
def eventOf (m : OrdMap Key KeyGeneration) (e : RevisionEntry) : WatchEvent where
  type := e.type
  kv := e.kv
  rev := e.rev
  prevKv := (m.find e.key).map fun kg => kg.kv e.key

def eventsOf : OrdMap Key KeyGeneration → List RevisionEntry → List WatchEvent
  | _, [] => []
  | m, e :: es => eventOf m e :: eventsOf (pushIndex m e) es

def Hub.notifyAll (h : Hub) (evs : List WatchEvent) : Hub := evs.foldl Hub.notifyWatchers h

def Call.entries (s : Store) : Call → List RevisionEntry
  | .put key value leaseId => [putEntry s key value leaseId]
  | .delete key =>
    ((s.index.find key).map fun kg => deleteEntry key kg ⟨s.mainRev + 1, 0⟩).toList
  | .deleteKeys keys => deleteEntries (s.mainRev + 1) (liveKeys s keys) 0 s
  | .advance _ | .compact _ => []

section

variable {x : Watched} {s : Store} {c : Call}

lemma eventOf_putEntry (key : Key) (value : Bytes) (leaseId : Int) :
    eventOf s.index (putEntry s key value leaseId) = putEvent s key value leaseId := by
  unfold eventOf putEntry putEvent RevisionEntry.kv KeyGeneration.kv
  cases s.index.find key <;> rfl

lemma eventOf_deleteEntry {key : Key} {kg : KeyGeneration} (hkg : s.index.find key = some kg)
    (rev : Revision) : eventOf s.index (deleteEntry key kg rev) = deleteEvent key kg rev := by
  unfold eventOf deleteEntry deleteEvent
  dsimp only
  rw [hkg]
  rfl

lemma watchedDeleteEach_eq (main : Nat) (keys : List Key) (sub : Nat) (p : Store × Hub) :
    watchedDeleteEach main keys sub p = (p.1.pushAll (deleteEntries main keys sub p.1),
        p.2.notifyAll (eventsOf p.1.index (deleteEntries main keys sub p.1))) := by
  induction keys generalizing sub p with
  | nil => rfl
  | cons k ks ih =>
    unfold watchedDeleteEach deleteEntries
    cases hfind : p.1.index.find k with
    | none => exact ih _ _
    | some kg =>
      dsimp only
      rw [ih, push_dropKey, ← eventOf_deleteEntry hfind]
      rfl

/-- A transaction with what is made in memory and shown if it succeeds. -/
def Watched.commit (x : Watched) (s : Store) (f : Backend → Backend) (evs : List WatchEvent) :
    Watched :=
  match x.disk.write f with
  | (false, d) => { x with disk := d }
  | (true, d) => { store := s, disk := d, hub := x.hub.notifyAll evs }

lemma Call.watched_eq (x : Watched) (c : Call) : c.watched x = (c.effect x.store).elim x fun p =>
      x.commit p.1 p.2 (eventsOf x.store.index (c.entries x.store)) := by
  obtain ⟨⟨s, be, outcomes⟩, hub⟩ := x
  unfold Call.watched Watched.commit
  cases c with
  | put key value leaseId =>
    unfold watchedPut mvccPut Call.entries eventsOf Call.effect
    dsimp only [Option.elim_some]
    rw [eventOf_putEntry, push_putEntry]
    unfold Disk.write
    rcases outcomes with _ | ⟨_ | _, rest⟩ <;> rfl
  | delete key =>
    unfold watchedDelete Call.entries Call.effect
    dsimp only
    cases hfind : s.index.find key with
    | none => rfl
    | some kg =>
      dsimp only [Option.map_some, Option.toList_some, Option.elim_some]
      unfold eventsOf mvccDelete
      rw [eventOf_deleteEntry hfind, hfind, ← push_dropKey]
      unfold Disk.write
      rcases outcomes with _ | ⟨_ | _, rest⟩ <;> rfl
  | deleteKeys keys =>
    unfold watchedDeleteKeys Call.entries Call.effect
    dsimp only
    by_cases hnone : liveKeys s keys = []
    · rw [if_pos hnone, if_pos hnone]
      rfl
    rw [if_neg hnone, if_neg hnone, watchedDeleteEach_eq]
    unfold Disk.write
    rcases outcomes with _ | ⟨_ | _, rest⟩ <;> rfl
  | advance | compact =>
    dsimp only
    rw [Call.run_eq]
    generalize Call.effect s _ = e
    cases e with
    | none => rfl
    | some p =>
      unfold Durable.commit Disk.write
      rcases outcomes with _ | ⟨_ | _, rest⟩ <;> rfl

lemma toList_append_filterMap {α β : Type} (f : α → Option β) (a : α) (as : List α) :
    (f a).toList ++ as.filterMap f = (a :: as).filterMap f := by
  rw [filterMap_cons]
  cases f a <;> rfl

lemma notifyAll_eq (h : Hub) (evs : List WatchEvent) : (h.notifyAll evs).watchers =
        h.watchers.map (fun w => { w with received := w.received ++ evs.filterMap w.takes }) ∧
      (h.notifyAll evs).streams = h.streams.map fun w => w.notify (evs.filterMap w.takes) := by
  unfold Hub.notifyAll
  induction evs generalizing h with
  | nil =>
    unfold StreamWatcher.notify
    simp
  | cons ev evs ih =>
    rw [foldl_cons, (ih _).1, (ih _).2]
    unfold Hub.notifyWatchers
    rw [map_map, map_map]
    refine ⟨map_congr_left fun w _ => ?_, map_congr_left fun w _ => ?_⟩
    · rw [← toList_append_filterMap, ← append_assoc]
      rfl
    unfold StreamWatcher.notify
    rw [← toList_append_filterMap, ← append_assoc]
    rfl

/-! ## All or nothing -/

/-- The entries of the history that a call keeps. -/
def Call.keeps : Call → RevisionEntry → Bool
  | .compact rev, e => rev ≤ e.rev.main
  | _, _ => true

def Call.mainRev (s : Store) : Call → Nat
  | .put _ _ _ | .delete _ | .deleteKeys _ => s.mainRev + 1
  | .advance rev => rev
  | .compact _ => s.mainRev

def Call.compactedRev (s : Store) : Call → Nat
  | .compact rev => rev
  | _ => s.compactedRev

lemma filter_keeps (hc : IsWrite (.call c)) (l : List RevisionEntry) : l.filter c.keeps = l := by
  cases c with
  | compact rev => exact hc.elim
  | _ => exact filter_true _

lemma compactedRev_of_isWrite (hc : IsWrite (.call c)) (s : Store) :
    c.compactedRev s = s.compactedRev := by
  cases c with
  | compact rev => exact hc.elim
  | _ => rfl

lemma index_pushAll (s : Store) (es : List RevisionEntry) :
    (s.pushAll es).index = es.foldl pushIndex s.index := by
  unfold Store.pushAll
  induction es generalizing s with
  | nil => rfl
  | cons e es ih => exact ih _

lemma Call.effect_fields {s' : Store} {f : Backend → Backend} (h : c.effect s = some (s', f)) :
    s'.index = (c.entries s).foldl pushIndex s.index ∧
      s'.history = s.history.filter c.keeps ++ c.entries s ∧ s'.mainRev = c.mainRev s ∧
      s'.compactedRev = c.compactedRev s := by
  have hall : s.history.filter (fun _ => true) = s.history := filter_true s.history
  have hpush : ∀ es : List RevisionEntry, es ≠ [] → (∀ e ∈ es, e.rev.main = s.mainRev + 1) →
      (s.pushAll es).index = es.foldl pushIndex s.index ∧
        (s.pushAll es).history = s.history.filter (fun _ => true) ++ es ∧
        (s.pushAll es).mainRev = s.mainRev + 1 ∧ (s.pushAll es).compactedRev = s.compactedRev := by
    intro es hne hmain
    rw [hall]
    exact ⟨index_pushAll s es, (push_history s es).1, pushAll_mainRev (Nat.le_succ _) hne hmain,
      (push_history s es).2⟩
  unfold Call.effect at h
  cases c with
  | put key value leaseId =>
    cases Option.some.inj h
    exact hpush [putEntry s key value leaseId] (cons_ne_nil _ _) (forall_mem_singleton.2 rfl)
  | delete key =>
    obtain ⟨kg, hkg, heq⟩ := Option.map_eq_some_iff.1 h
    cases heq
    unfold Call.entries
    dsimp only
    rw [hkg]
    exact hpush [deleteEntry key kg ⟨s.mainRev + 1, 0⟩] (cons_ne_nil _ _)
      (forall_mem_singleton.2 rfl)
  | deleteKeys keys =>
    dsimp only at h
    by_cases hnone : liveKeys s keys = []
    · rw [if_pos hnone] at h
      cases h
    rw [if_neg hnone] at h
    cases Option.some.inj h
    refine hpush _ (deleteEntries_ne_nil hnone fun k hk => (mem_liveKeys.1 hk).2.2) ?_
    exact fun e he => (mem_deleteEntries he).1
  | advance rev =>
    dsimp only at h
    split at h
    · cases Option.some.inj h
      exact ⟨rfl, (hall.symm.trans (append_nil _).symm), rfl, rfl⟩
    · cases h
  | compact rev =>
    dsimp only at h
    split at h
    · cases Option.some.inj h
      exact ⟨rfl, (append_nil _).symm, rfl, rfl⟩
    · cases h

end

end Cetcd.Mvcc
