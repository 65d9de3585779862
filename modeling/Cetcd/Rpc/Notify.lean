import Cetcd.Mvcc.Watch

/-!
# Delivery to a streaming watcher

`streaming_watch_notify_cb` moves the events that pass the filters to the front of the array, writes
these, and then frees the buffers of the array as it is by then.
-/

namespace Cetcd.Rpc

open Mvcc List

/-- An event with the buffers that `notify_push` has copied. -/
structure Queued where
  event : WatchEvent
  buffers : List Nat
  deriving DecidableEq

def passes (filterNoput filterNodelete : Bool) (q : Queued) : Bool :=
  !(filterNoput && q.event.type = .put) && !(filterNodelete && q.event.type = .delete)

/-- One round of the loop over the array: the array and `send_count`. -/
def compactStep (p : Queued → Bool) (x : List Queued × Nat) (i : Nat) : List Queued × Nat :=
  match x.1[i]? with
  | none => x
  | some q => if p q then (x.1.set x.2 q, x.2 + 1) else x

def compactLoop (p : Queued → Bool) (events : List Queued) (n : Nat) : List Queued × Nat :=
  (range n).foldl (compactStep p) (events, 0)

/-- `streaming_watch_notify_cb`: the events that are written, and the buffers that are freed. -/
def notifyCb (filterNoput filterNodelete : Bool) (queue : List Queued) :
    List WatchEvent × List Nat :=
  match compactLoop (passes filterNoput filterNodelete) queue queue.length with
  | (events, sendCount) => ((events.take sendCount).map Queued.event, events.flatMap Queued.buffers)

section

variable {p : Queued → Bool} {queue : List Queued}

lemma compactLoop_eq {n : Nat} (hn : n ≤ queue.length) :
    compactLoop p queue n = ((queue.take n).filter p ++ queue.drop ((queue.take n).filter p).length,
      ((queue.take n).filter p).length) := by
  induction n with
  | zero => simp [compactLoop]
  | succ n ih =>
    have hlt : n < queue.length := hn
    generalize hkept : (queue.take n).filter p = kept at ih
    have hle : kept.length ≤ n := by
      rw [← hkept]
      exact (length_filter_le _ _).trans (length_take_le _ _)
    -- the entry at `n` has not been written yet
    have hget : (kept ++ queue.drop kept.length)[n]? = some queue[n] := by
      rw [getElem?_append_right hle, getElem?_drop, Nat.add_sub_cancel' hle,
        getElem?_eq_getElem hlt]
    unfold compactLoop at ih ⊢
    rw [range_succ, foldl_append, ih (Nat.le_of_lt hlt), foldl_cons, foldl_nil, take_add_one,
      getElem?_eq_getElem hlt, Option.toList_some, filter_append, hkept, filter_singleton]
    unfold compactStep
    dsimp only
    rw [hget]
    dsimp only
    cases p queue[n] with
    | false => simp
    | true =>
      have hpos : kept.length < queue.length := hle.trans_lt hlt
      refine Prod.ext ?_ (by simp)
      simp only [if_true, cond_true]
      rw [set_append_right _ _ le_rfl, Nat.sub_self, drop_eq_getElem_cons hpos, set_cons_zero,
        length_append, append_assoc]
      rfl

lemma buffers_filter (h : ∀ q ∈ queue, q.buffers ≠ [] → p q) :
    (queue.filter p).flatMap Queued.buffers = queue.flatMap Queued.buffers := by
  induction queue with
  | nil => rfl
  | cons q queue ih =>
    rw [forall_mem_cons] at h
    rw [filter_cons, flatMap_cons, ← ih h.2]
    split_ifs with hp
    · rfl
    · rw [not_not.1 fun hne => hp (h.1 hne), nil_append]

/-- The buffers stay exactly if no event with one is overwritten, nor one with a buffer copied from
behind. -/
lemma freed_perm_iff (hnodup : (queue.flatMap Queued.buffers).Nodup) (k : Nat) :
    (queue.filter p ++ queue.drop k).flatMap Queued.buffers ~ queue.flatMap Queued.buffers ↔
      (∀ q ∈ queue.take k, q.buffers ≠ [] → p q) ∧ ∀ q ∈ queue.drop k, q.buffers ≠ [] → ¬ p q := by
  have hsplit := take_append_drop k queue
  generalize queue.take k = front at hsplit ⊢
  generalize queue.drop k = back at hsplit ⊢
  subst hsplit
  rw [flatMap_append, nodup_append'] at hnodup
  rw [flatMap_append, flatMap_append, perm_append_right_iff, filter_append, flatMap_append]
  refine ⟨fun h => ⟨fun q hq hne => ?_, fun q hq hne hp => ?_⟩, fun ⟨hfront, hback⟩ => ?_⟩
  · obtain ⟨b, hb⟩ := exists_mem_of_ne_nil _ hne
    obtain hin | hin := mem_append.1 (h.mem_iff.2 (mem_flatMap_of_mem hq hb))
    · obtain ⟨q', hq', hb'⟩ := mem_flatMap.1 hin
      rw [mem_filter] at hq'
      by_contra hp
      have hne' : q ≠ q' := fun heq => hp (heq ▸ hq'.2)
      have : Std.Symm (Function.onFun Disjoint Queued.buffers) := ⟨fun _ _ h => h.symm⟩
      exact (nodup_flatMap.1 hnodup.1).2.forall hq hq'.1 hne' hb hb'
    · obtain ⟨q', hq', hb'⟩ := mem_flatMap.1 hin
      exact (hnodup.2.2 (mem_flatMap_of_mem hq hb) (mem_flatMap_of_mem (mem_filter.1 hq').1 hb')).elim
  · obtain ⟨b, hb⟩ := exists_mem_of_ne_nil _ hne
    have hin := h.mem_iff.1 (mem_append_right _ (mem_flatMap_of_mem (mem_filter.2 ⟨hq, hp⟩) hb))
    exact hnodup.2.2 hin (mem_flatMap_of_mem hq hb)
  · rw [buffers_filter hfront]
    have hnone : (back.filter p).flatMap Queued.buffers = [] := by
      refine flatMap_eq_nil_iff.2 fun q hq => ?_
      rw [mem_filter] at hq
      exact not_not.1 fun hne => hback q hq.1 hne hq.2
    rw [hnone, append_nil]

end

/-- The events that pass are written, in order; and each buffer is freed exactly once if and only
if, `k` being their number, among the events with a buffer the first `k` of the queue pass and no
other does. -/
theorem notify_delivers_and_frees (filterNoput filterNodelete : Bool) {queue : List Queued}
    (hnodup : (queue.flatMap Queued.buffers).Nodup) :
    (notifyCb filterNoput filterNodelete queue).1 =
      (queue.filter (passes filterNoput filterNodelete)).map Queued.event ∧
    ((notifyCb filterNoput filterNodelete queue).2 ~ queue.flatMap Queued.buffers ↔
      let k := (queue.filter (passes filterNoput filterNodelete)).length
      (∀ q ∈ queue.take k, q.buffers ≠ [] → passes filterNoput filterNodelete q) ∧
        ∀ q ∈ queue.drop k, q.buffers ≠ [] → ¬ passes filterNoput filterNodelete q) := by
  unfold notifyCb
  rw [compactLoop_eq le_rfl, take_length]
  dsimp only
  rw [take_left' rfl]
  exact ⟨rfl, freed_perm_iff hnodup _⟩

def putThenDelete : List Queued :=
  [⟨⟨.put, ⟨[97], [1], ⟨1, 0⟩, ⟨1, 0⟩, 1, 0⟩, ⟨1, 0⟩, none⟩, [1, 2]⟩,
    ⟨⟨.delete, ⟨[97], [], ⟨1, 0⟩, ⟨2, 0⟩, 0, 0⟩, ⟨2, 0⟩, none⟩, [3]⟩]

theorem notify_frees_in_order :
    (notifyCb false true putThenDelete).2 ~ putThenDelete.flatMap Queued.buffers :=
  (notify_delivers_and_frees false true (by decide)).2.2 (by decide)

/-- Without the put its buffers are never freed, and that of the deletion is freed twice. -/
theorem notify_frees_twice : (notifyCb true false putThenDelete).2 = [3, 3] ∧
    ¬ (notifyCb true false putThenDelete).2 ~ putThenDelete.flatMap Queued.buffers := by
  decide

end Cetcd.Rpc
