import Cetcd.Mvcc.Watch
import Cetcd.Mvcc.Views

/-!
# Replay

A watcher from an older revision on is first given the events of the history. The replay finds the
previous value of a key by searching backwards; without compaction or restart that is what live
events carry, so it does not matter when a watcher subscribes.
-/

namespace Cetcd.Mvcc

open Lib List Option

/-- The arguments of `cetcd_mvcc_watch_subscribe`; an empty range end stands for none. -/
structure Subscription where
  watchId : Int
  key : Key
  rangeEnd : Key
  startRev : Nat
  wantPrevKv : Bool
  deriving DecidableEq

def watchSubscribe (sub : Subscription) : StreamWatcher where
  pattern := sub.key
  isPrefix := false
  isRange := sub.rangeEnd ≠ []
  rangeEnd := if sub.rangeEnd = [0] then [] else sub.rangeEnd
  startRev := sub.startRev
  watchId := sub.watchId
  wantPrevKv := sub.wantPrevKv
  queue := []

/-- The inner loop of `cetcd_mvcc_watch_replay`, over the entries before `e`. -/
def replayPrev (before : List RevisionEntry) (e : RevisionEntry) : Option KeyValue :=
  match before.reverse.find? fun p => p.key = e.key with
  | none => none
  | some p =>
    match p.type with
    | .delete => none
    | .put => some p.kv

def replayEvent (w : StreamWatcher) (before : List RevisionEntry) (e : RevisionEntry) :
    WatchEvent where
  type := e.type
  kv :=
    { e.kv with
      value := match e.type with
        | .put => e.value
        | .delete => [] }
  rev := e.rev
  prevKv := if w.wantPrevKv then replayPrev before e else none

/-- The outer loop; `before` has the entries that were passed. -/
def replayLoop (w : StreamWatcher) : List RevisionEntry → List RevisionEntry → List WatchEvent
  | _, [] => []
  | before, e :: rest =>
    if e.rev.main < w.startRev then replayLoop w (before ++ [e]) rest
    else if !streamWatchMatch w e.key then replayLoop w (before ++ [e]) rest
    else replayEvent w before e :: replayLoop w (before ++ [e]) rest

def watchReplay (s : Store) (w : StreamWatcher) : StreamWatcher :=
  if w.startRev = 0 then w else w.notify (replayLoop w [] s.history)

/-! ## Runs -/

inductive WatchAct
  | call (c : Call)
  | watch (sub : Subscription)
  deriving DecidableEq

def Watched.next (x : Watched) : WatchAct → Watched
  | .call c => c.watched x
  | .watch sub =>
    { x with
      hub := { x.hub with
        streams := x.hub.streams ++ [watchReplay x.store (watchSubscribe sub)] } }

/-- Subscriptions and writes. -/
def WatchAct.IsWrite : WatchAct → Prop
  | .call c => Mvcc.IsWrite (.call c)
  | .watch _ => True

def WatchReaches (x y : Watched) : Prop :=
  Relation.ReflTransGen (fun x y => ∃ a : WatchAct, a.IsWrite ∧ y = x.next a) x y

/-! ## The events of a whole history -/

section

variable {m : OrdMap Key KeyGeneration} {es es' : List RevisionEntry} {w : StreamWatcher}

lemma find_foldl_pushIndex (es : List RevisionEntry) (k : Key) :
    (es.foldl pushIndex .empty).find k =
      (newest RevisionEntry.key es k).bind RevisionEntry.generation? := by
  induction es using List.reverseRecOn with
  | nil => rfl
  | append_singleton es e ih =>
    rw [foldl_append, foldl_cons, foldl_nil, find_pushIndex, ih, newest_append_singleton]
    by_cases h : k = e.key
    · rw [if_pos h, if_pos h.symm]
      rfl
    · rw [if_neg h, if_neg (Ne.symm h)]

lemma eventsOf_append :
    eventsOf m (es ++ es') = eventsOf m es ++ eventsOf (es.foldl pushIndex m) es' := by
  induction es generalizing m with
  | nil => rfl
  | cons e es ih => exact congrArg _ ih

lemma replayPrev_eq (before : List RevisionEntry) (e : RevisionEntry) : replayPrev before e =
      ((before.foldl pushIndex .empty).find e.key).map fun kg => kg.kv e.key := by
  rw [find_foldl_pushIndex]
  unfold replayPrev
  change (match newest RevisionEntry.key before e.key with
    | none => none
    | some p => match p.type with
      | .delete => none
      | .put => some p.kv) = _
  cases hnewest : newest RevisionEntry.key before e.key with
  | none => rfl
  | some p =>
    rw [bind_some, ← (mem_of_newest hnewest).2, ← version?_eq]
    rfl

def NoDeletedValue (es : List RevisionEntry) : Prop := ∀ e ∈ es, e.type = .delete → e.value = []

lemma takes_eventOf (hw : 0 < w.startRev) (before : List RevisionEntry) {e : RevisionEntry}
    (he : e.type = .delete → e.value = []) :
    w.takes (eventOf (before.foldl pushIndex .empty) e) = if e.rev.main < w.startRev then none
      else if streamWatchMatch w e.key then some (replayEvent w before e)
      else none := by
  have hkv : ({ e.kv with
      value := match e.type with
        | .put => e.value
        | .delete => [] } : KeyValue) = e.kv := by
    unfold RevisionEntry.kv
    cases htype : e.type with
    | put => rfl
    | delete => simp [he htype]
  unfold StreamWatcher.takes eventOf replayEvent
  rw [hkv, replayPrev_eq]
  change (if 0 < w.startRev ∧ e.rev.main < w.startRev then none
    else if streamWatchMatch w e.key then _ else none) = _
  by_cases hrev : e.rev.main < w.startRev
  · rw [if_pos ⟨hw, hrev⟩, if_pos hrev]
  rw [if_neg fun h => hrev h.2, if_neg hrev]
  cases w.wantPrevKv <;> rfl

lemma replayLoop_eq (hw : 0 < w.startRev) (before rest : List RevisionEntry)
    (hrest : NoDeletedValue rest) :
    replayLoop w before rest =
      (eventsOf (before.foldl pushIndex .empty) rest).filterMap w.takes := by
  induction rest generalizing before with
  | nil => rfl
  | cons e rest ih =>
    have hih := ih (before ++ [e]) fun a ha => hrest a (mem_cons_of_mem _ ha)
    rw [foldl_append, foldl_cons, foldl_nil] at hih
    unfold replayLoop eventsOf
    rw [filterMap_cons, hih, takes_eventOf hw before (hrest e mem_cons_self)]
    by_cases hrev : e.rev.main < w.startRev
    · rw [if_pos hrev, if_pos hrev]
    rw [if_neg hrev, if_neg hrev]
    cases streamWatchMatch w e.key <;> rfl

end

/-! ## What a watcher has been given -/

/-- The index is built from the history. -/
structure Told (x : Watched) : Prop where
  index : x.store.index = x.store.history.foldl pushIndex .empty
  values : NoDeletedValue x.store.history

/-- The watcher at position `i` has been given all events of the history that it takes. -/
def HasAll (w : StreamWatcher) (i : Nat) (x : Watched) : Prop :=
  x.hub.streams[i]? = some (w.notify ((eventsOf .empty x.store.history).filterMap w.takes))

section

variable {x y : Watched} {w : StreamWatcher} {i : Nat} {a : WatchAct}

lemma noDeletedValue_entries (s : Store) (c : Call) : NoDeletedValue (c.entries s) := by
  intro e he htype
  unfold Call.entries at he
  cases c with
  | put key value leaseId =>
    rw [mem_singleton.1 he] at htype
    cases htype
  | delete key =>
    rw [mem_toList, map_eq_some_iff] at he
    obtain ⟨kg, _, rfl⟩ := he
    rfl
  | deleteKeys keys => exact (mem_deleteEntries he).2.2
  | advance rev | compact rev => cases he

lemma watched_write {c : Call} (hc : IsWrite (.call c)) (x : Watched) :
    ((c.watched x).store = x.store ∧ (c.watched x).hub = x.hub) ∨
      ((c.watched x).store.index = (c.entries x.store).foldl pushIndex x.store.index ∧
        (c.watched x).store.history = x.store.history ++ c.entries x.store ∧
        (c.watched x).hub = x.hub.notifyAll (eventsOf x.store.index (c.entries x.store))) := by
  rw [Call.watched_eq]
  cases heffect : c.effect x.store with
  | none => exact Or.inl ⟨rfl, rfl⟩
  | some p =>
    obtain ⟨hindex, hhistory, _, _⟩ := Call.effect_fields heffect
    rw [filter_keeps hc] at hhistory
    dsimp only [elim_some]
    unfold Watched.commit
    obtain ⟨_ | _, d⟩ := x.disk.write p.2
    · exact Or.inl ⟨rfl, rfl⟩
    · exact Or.inr ⟨hindex, hhistory, rfl⟩

lemma Told.next (h : Told x) (ha : a.IsWrite) : Told (x.next a) := by
  cases a with
  | watch sub => exact ⟨h.index, h.values⟩
  | call c =>
    change Told (c.watched x)
    obtain ⟨hstore, _⟩ | ⟨hindex, hhistory, _⟩ := watched_write ha x
    · exact ⟨by rw [hstore]; exact h.index, by rw [hstore]; exact h.values⟩
    refine ⟨?_, ?_⟩
    · rw [hindex, hhistory, foldl_append, ← h.index]
    rw [hhistory]
    exact forall_mem_append.2 ⟨h.values, noDeletedValue_entries _ _⟩

lemma HasAll.next (h : HasAll w i x) (hx : Told x) (ha : a.IsWrite) : HasAll w i (x.next a) := by
  unfold HasAll at h ⊢
  cases a with
  | watch sub =>
    change (x.hub.streams ++ _)[i]? = _
    rw [List.getElem?_append_left (List.getElem?_eq_some_iff.1 h).1]
    exact h
  | call c =>
    change (c.watched x).hub.streams[i]? = some (w.notify
      ((eventsOf .empty (c.watched x).store.history).filterMap w.takes))
    obtain ⟨hstore, hhub⟩ | ⟨_, hhistory, hhub⟩ := watched_write ha x
    · rw [hstore, hhub]
      exact h
    rw [hhub, (notifyAll_eq _ _).2, getElem?_map, h, hhistory, eventsOf_append,
      filterMap_append, ← hx.index]
    unfold StreamWatcher.notify
    rw [← append_assoc]
    rfl

lemma WatchReaches.induct {P : Watched → Prop} (hrun : WatchReaches x y) (h : P x)
    (hstep : ∀ x a, a.IsWrite → P x → P (x.next a)) : P y := by
  induction hrun with
  | refl => exact h
  | tail _ hnext ih =>
    obtain ⟨a, ha, rfl⟩ := hnext
    exact hstep _ a ha ih

lemma Told.reaches (h : Told x) (hrun : WatchReaches x y) : Told y :=
  hrun.induct h fun _ _ ha h => h.next ha

lemma HasAll.reaches (h : HasAll w i x) (hx : Told x) (hrun : WatchReaches x y) : HasAll w i y :=
  (hrun.induct (P := fun x => Told x ∧ HasAll w i x) ⟨hx, h⟩ fun _ _ ha h =>
    ⟨h.1.next ha, h.2.next h.1 ha⟩).2

lemma hasAll_watch (hx : Told x) (sub : Subscription)
    (h : 0 < sub.startRev ∨ x.store.history = []) :
    HasAll (watchSubscribe sub) x.hub.streams.length (x.next (.watch sub)) := by
  unfold HasAll
  change (x.hub.streams ++ [watchReplay x.store (watchSubscribe sub)])[x.hub.streams.length]? = _
  rw [getElem?_concat_length]
  refine congrArg some ?_
  unfold watchReplay
  by_cases hstart : 0 < sub.startRev
  · have hw : 0 < (watchSubscribe sub).startRev := hstart
    rw [if_neg hw.ne', replayLoop_eq hw _ _ hx.values]
    rfl
  have hnil : x.store.history = [] := h.resolve_left hstart
  refine (if_pos (Nat.eq_zero_of_not_pos hstart)).trans ?_
  change _ = (watchSubscribe sub).notify ((eventsOf .empty x.store.history).filterMap _)
  rw [hnil]
  rfl

lemma filterMap_takes (sub : Subscription) (hstart : 0 < sub.startRev) (evs : List WatchEvent) :
    evs.filterMap (watchSubscribe sub).takes =
      (evs.filterMap (watchSubscribe { sub with startRev := 0 }).takes).filter
        fun ev => sub.startRev ≤ ev.rev.main := by
  have htakes : ∀ ev, (watchSubscribe sub).takes ev =
      ((watchSubscribe { sub with startRev := 0 }).takes ev).filter
        fun ev => sub.startRev ≤ ev.rev.main := by
    intro ev
    have hearly : (watchSubscribe { sub with startRev := 0 }).takes ev =
        if streamWatchMatch (watchSubscribe sub) ev.kv.key then
          some (if sub.wantPrevKv then ev else { ev with prevKv := none })
        else none := if_neg fun h => lt_irrefl 0 h.1
    by_cases hrev : ev.rev.main < sub.startRev
    · have hlate : (watchSubscribe sub).takes ev = none := if_pos ⟨hstart, hrev⟩
      rw [hlate, hearly]
      cases streamWatchMatch (watchSubscribe sub) ev.kv.key <;> cases sub.wantPrevKv <;>
        simp [filter_some, hrev]
    have hlate : (watchSubscribe sub).takes ev =
        if streamWatchMatch (watchSubscribe sub) ev.kv.key then
          some (if sub.wantPrevKv then ev else { ev with prevKv := none })
        else none := if_neg fun h => hrev h.2
    rw [hlate, hearly]
    cases streamWatchMatch (watchSubscribe sub) ev.kv.key <;> cases sub.wantPrevKv <;>
      simp [filter_some, not_lt.1 hrev]
  rw [filter_filterMap]
  exact congrArg (List.filterMap · evs) (funext htakes)

/-- Whenever a watcher subscribes: what it is given is what a watcher of the same keys from the
start is given, from its start revision on. -/
theorem replay_equals_live {x0 : Watched} {outcomes : List Bool} {sub : Subscription}
    (h0 : x0.toDurable = Durable.fresh outcomes) (hstart : 0 < sub.startRev)
    (hx : WatchReaches (x0.next (.watch { sub with startRev := 0 })) x)
    (hy : WatchReaches (x.next (.watch sub)) y) :
    ∃ early late, y.hub.streams[x0.hub.streams.length]? = some early ∧
      y.hub.streams[x.hub.streams.length]? = some late ∧
      early.queue = (eventsOf .empty y.store.history).filterMap early.takes ∧
      late.queue = early.queue.filter fun ev => sub.startRev ≤ ev.rev.main := by
  have hnew : x0.store = Store.new := congrArg Durable.store h0
  have htold0 : Told (x0.next (.watch { sub with startRev := 0 })) := by
    refine ⟨?_, ?_⟩
    · change x0.store.index = x0.store.history.foldl pushIndex .empty
      rw [hnew]
      rfl
    change NoDeletedValue x0.store.history
    rw [hnew]
    exact fun e he => nomatch he
  have htold : Told x := htold0.reaches hx
  have htold' : Told (x.next (.watch sub)) := ⟨htold.index, htold.values⟩
  have hearly := (@hasAll_watch x0 ⟨htold0.index, htold0.values⟩ { sub with startRev := 0 }
    (Or.inr (congrArg Store.history hnew))).reaches htold0 hx
  have hlate := (hasAll_watch htold sub (Or.inl hstart)).reaches htold' hy
  have hearly' := (@HasAll.next _ _ _ (.watch sub) hearly htold trivial).reaches htold' hy
  refine ⟨_, _, hearly', hlate, ?_, ?_⟩
  · exact nil_append _
  change [] ++ _ = ([] ++ _ : List WatchEvent).filter _
  rw [nil_append, nil_append, filterMap_takes sub hstart]

/-- A watcher of everything from revision 2 on, subscribed after two writes. -/
def lateSubscription : Subscription := ⟨7, [97], [0], 2, true⟩

def beforeWatch : Watched := { toDurable := Durable.fresh [], hub := ⟨[], []⟩ }

def atWatch : Watched :=
  (Call.put [97] [2] 0).watched
    ((Call.put [97] [1] 0).watched (beforeWatch.next (.watch { lateSubscription with startRev := 0 })))

def afterWatch : Watched := (Call.delete [97]).watched (atWatch.next (.watch lateSubscription))

theorem replay_equals_live_late : ∃ early late, afterWatch.hub.streams[0]? = some early ∧
      afterWatch.hub.streams[1]? = some late ∧ early.queue.length = 3 ∧
      late.queue = early.queue.filter fun ev => 2 ≤ ev.rev.main := by
  have hx : WatchReaches (beforeWatch.next (.watch { lateSubscription with startRev := 0 })) atWatch :=
    .tail (.tail .refl ⟨.call (.put [97] [1] 0), trivial, rfl⟩)
      ⟨.call (.put [97] [2] 0), trivial, rfl⟩
  have hy : WatchReaches (atWatch.next (.watch lateSubscription)) afterWatch :=
    .tail .refl ⟨.call (.delete [97]), trivial, rfl⟩
  have hlength : afterWatch.hub.streams[0]?.map (fun w => w.queue.length) = some 3 := by
    decide +kernel
  rcases @replay_equals_live _ _ beforeWatch [] lateSubscription rfl (by decide) hx hy with
    ⟨early, late, hearly, hlate, _, hqueue⟩
  change afterWatch.hub.streams[0]? = some early at hearly
  rw [hearly] at hlength
  exact ⟨early, late, hearly, hlate, Option.some.inj hlength, hqueue⟩

/-! ## Compaction -/

/-- It looks at the revision that the client asked for, not at what was given since. -/
def cancelCompacted (h : Hub) (rev : Nat) : Hub :=
  { h with streams := h.streams.filter fun w => ¬ (0 < w.startRev ∧ w.startRev < rev) }

def Watched.compact (x : Watched) (rev : Nat) : Watched :=
  match mvccCompact x.store x.disk rev with
  | (.ok, s, d) => { store := s, disk := d, hub := cancelCompacted x.hub rev }
  | (_, s, d) => { x with store := s, disk := d }

/-- From `x` on `w` has been given every event that it takes. -/
def Follows (w : StreamWatcher) (x y : Watched) : Prop :=
  ∃ es, y.store.history = x.store.history ++ es ∧ y.store.index = es.foldl pushIndex x.store.index ∧
    w.notify ((eventsOf x.store.index es).filterMap w.takes) ∈ y.hub.streams

lemma Follows.next (h : Follows w x y) (ha : a.IsWrite) : Follows w x (y.next a) := by
  obtain ⟨es, hhistory, hindex, hmem⟩ := h
  cases a with
  | watch sub => exact ⟨es, hhistory, hindex, mem_append_left _ hmem⟩
  | call c =>
    change Follows w x (c.watched y)
    unfold Follows
    obtain ⟨hstore, hhub⟩ | ⟨hindex', hhistory', hhub⟩ := watched_write ha y
    · rw [hstore, hhub]
      exact ⟨es, hhistory, hindex, hmem⟩
    refine ⟨es ++ c.entries y.store, ?_, ?_, ?_⟩
    · rw [hhistory', hhistory, append_assoc]
    · rw [hindex', hindex, foldl_append]
    rw [hhub, (notifyAll_eq _ _).2, eventsOf_append, filterMap_append, ← hindex]
    refine mem_map.2 ⟨_, hmem, ?_⟩
    unfold StreamWatcher.notify
    rw [← append_assoc]
    rfl

lemma Follows.reaches (h : Follows w x y) {z : Watched} (hrun : WatchReaches y z) : Follows w x z :=
  hrun.induct h fun _ _ ha h => h.next ha

lemma notify_nil : w.notify [] = w := by
  unfold StreamWatcher.notify
  rw [append_nil]

lemma mem_compact (hw : w ∈ x.hub.streams) (rev : Nat) : w ∈ (x.compact rev).hub.streams ↔
    ((mvccCompact x.store x.disk rev).1 = .ok → ¬ (0 < w.startRev ∧ w.startRev < rev)) := by
  unfold Watched.compact
  obtain ⟨_ | _ | _ | _, s, d⟩ := mvccCompact x.store x.disk rev
  · simp only [cancelCompacted, mem_filter, hw, true_and, decide_eq_true_eq]
    exact ⟨fun h _ => h, fun h => h trivial⟩
  all_goals exact ⟨fun _ => nofun, fun _ => hw⟩

/-- A compaction leaves a watcher with all later events, unless it once asked for events from a
revision below the compacted one on. -/
theorem watcher_survives_compaction (hw : w ∈ x.hub.streams) (rev : Nat) :
    (∀ y, WatchReaches (x.compact rev) y → Follows w (x.compact rev) y) ↔
      ((mvccCompact x.store x.disk rev).1 = .ok → ¬ (0 < w.startRev ∧ w.startRev < rev)) := by
  rw [← mem_compact hw]
  refine ⟨fun h => ?_, fun hmem y hrun => ?_⟩
  · obtain ⟨es, hhistory, _, hmem⟩ := h _ .refl
    rw [self_eq_append_right.1 hhistory] at hmem
    change w.notify [] ∈ _ at hmem
    rwa [notify_nil] at hmem
  · refine Follows.reaches ⟨[], (append_nil _).symm, rfl, ?_⟩ hrun
    exact notify_nil.symm ▸ hmem

theorem watcher_survives_compaction_early : ∃ w ∈ afterWatch.hub.streams, w.watchId = 7 ∧
      ∀ y, WatchReaches (afterWatch.compact 3) y → Follows w (afterWatch.compact 3) y := by
  obtain ⟨w, hw, hstart, hid⟩ :
      ∃ w, w ∈ afterWatch.hub.streams ∧ w.startRev = 0 ∧ w.watchId = 7 := by
    refine ⟨afterWatch.hub.streams[0], getElem_mem _, ?_, ?_⟩ <;> decide +kernel
  refine ⟨w, hw, hid, (watcher_survives_compaction hw 3).2 fun _ h => ?_⟩
  exact absurd h.1 (by rw [hstart]; decide)

/-- The later of the two watchers has all events that it asked for and is cancelled all the same. -/
theorem compaction_cancels_watcher : ∃ w ∈ afterWatch.hub.streams, afterWatch.store.mainRev = 3 ∧
      w.queue.map (fun ev => ev.rev.main) = [2, 3] ∧
      w ∉ (afterWatch.compact 3).hub.streams := by
  refine ⟨afterWatch.hub.streams[1], getElem_mem _, ?_, ?_, ?_⟩ <;> decide +kernel

end

end Cetcd.Mvcc
