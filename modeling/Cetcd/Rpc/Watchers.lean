import Cetcd.Rpc.Writers

/-!
# Watch requests and the watchers of others

The watchers of all connections are in one list, and a cancel request takes the newest with its id.
Ids come from clients or a counter, and nothing keeps them apart.
-/

namespace Cetcd.Writers

open List

/-- A cancel finds no watcher of another connection, and the id of a new watcher is free on its own.
-/
def Considerate (s : State) : Event → Prop
  | .watch source (.cancel id) =>
    ∀ w, s.watchers.find? (fun w => w.id = id) = some w → w.origin = source.conn
  | .watch source (.create clientId _ _ false true _) =>
    ∀ w ∈ s.watchers, w.origin = source.conn → w.id ≠ if 0 < clientId then clientId else s.counter
  | _ => True

/-- A request changes no watcher of another connection, and all that it sends is for its own. -/
def KeepsToStream (s : State) : Event → Prop
  | .watch source req =>
    (step s (.watch source req)).watchers.filter (fun w => w.origin ≠ source.conn) =
        s.watchers.filter (fun w => w.origin ≠ source.conn) ∧
      ∃ sent, (step s (.watch source req)).writes = s.writes ++ sent ∧
        ∀ w ∈ sent, w.origin = source.conn
  | _ => True

def DistinctIds (ws : List Watcher) : Prop := ws.Pairwise fun v w => v.origin = w.origin → v.id ≠ w.id

/-- No replay waits from one event to the next. -/
def Flushed (ws : List Watcher) : Prop := ∀ w ∈ ws, w.replayPending = false

section

variable {s : State} {e : Event} {source : Writer} {req : WatchReq}

lemma DistinctIds.map {ws : List Watcher} (h : DistinctIds ws) {f : Watcher → Watcher}
    (hf : ∀ w, (f w).id = w.id ∧ (f w).origin = w.origin) : DistinctIds (ws.map f) := by
  refine pairwise_map.2 (h.imp fun {v w} hvw => ?_)
  rwa [(hf v).1, (hf v).2, (hf w).1, (hf w).2]

lemma filter_eraseP_of_find? {α : Type} {p q : α → Bool} {l : List α}
    (h : ∀ a, l.find? p = some a → q a = false) : (l.eraseP p).filter q = l.filter q := by
  induction l with
  | nil => rfl
  | cons a l ih =>
    rw [find?_cons] at h
    cases hp : p a with
    | true =>
      rw [hp] at h
      rw [eraseP_cons_of_pos hp, filter_cons_of_neg (by simp [h a rfl])]
    | false =>
      rw [hp] at h
      rw [eraseP_cons_of_neg (by simp [hp]), filter_cons, filter_cons, ih h]

/-- What a request does to the list before the replay is flushed. -/
structure Handled (s s' : State) (source : Writer) : Prop where
  others : s'.watchers.filter (fun w => w.origin ≠ source.conn) =
    s.watchers.filter (fun w => w.origin ≠ source.conn)
  sent : ∃ sent, s'.writes = s.writes ++ sent ∧ ∀ w ∈ sent, w.origin = source.conn
  replay : ∀ w ∈ s'.watchers, w.replayPending = true → w.origin = source.conn
  distinct : DistinctIds s'.watchers

lemma handled_handleWatch (hown : Own s.watchers) (hflushed : Flushed s.watchers)
    (hids : DistinctIds s.watchers) (hc : Considerate s (.watch source req)) :
    Handled s (handleWatch s source.conn source req) source := by
  have hnone : ∀ w ∈ s.watchers, w.replayPending = true → w.origin = source.conn :=
    fun w hw hpending => absurd (hflushed w hw) (by simp [hpending])
  cases req with
  | refused | other => exact ⟨rfl, ⟨[], by simp [handleWatch], nofun⟩, hnone, hids⟩
  | progress =>
    have hset : ∀ w : Watcher, (if w.writer = source then { w with ticks := 0 } else w).id = w.id ∧
        (if w.writer = source then { w with ticks := 0 } else w).origin = w.origin := by
      intro w
      split <;> exact ⟨rfl, rfl⟩
    refine ⟨?_, ⟨_, rfl, fun w hw => ?_⟩, fun w hw hpending => ?_, hids.map hset⟩
    · simp only [handleWatch, filter_map, Function.comp_def, (hset _).2]
      refine (map_congr_left fun w hw => if_neg fun heq => ?_).trans (map_id' _)
      obtain ⟨hw, hother⟩ := mem_filter.1 hw
      exact of_decide_eq_true hother ((hown w hw).symm.trans (congrArg Writer.conn heq))
    · obtain ⟨v, hv, rfl⟩ := mem_map.1 hw
      obtain ⟨hv, hwriter⟩ := mem_filter.1 hv
      exact (hown v hv).symm.trans (congrArg Writer.conn (of_decide_eq_true hwriter))
    · obtain ⟨v, hv, rfl⟩ := mem_map.1 hw
      split at hpending <;> exact absurd (hflushed v hv) (by simp_all)
  | cancel id =>
    refine ⟨filter_eraseP_of_find? fun w hw => ?_, ⟨[], by simp [handleWatch], nofun⟩,
      fun w hw => hnone w (mem_of_mem_eraseP hw), hids.sublist (eraseP_sublist)⟩
    simpa using hc w hw
  | create clientId startRev wantProgress compacted subscribed replay =>
    by_cases hid : 0 < clientId
    all_goals
      simp only [handleWatch, hid, if_true, if_false]
      split
      · exact ⟨rfl, ⟨[], by simp, nofun⟩, hnone, hids⟩
      rename_i hmade
      obtain ⟨rfl, rfl⟩ : compacted = false ∧ subscribed = true := by simpa using hmade
      refine ⟨filter_cons_of_neg (by simp), ⟨[], by simp, nofun⟩, fun w hw hpending => ?_,
        pairwise_cons.2 ⟨fun w hw heq => ?_, hids⟩⟩
      · obtain rfl | hw := mem_cons.1 hw
        · rfl
        · exact hnone w hw hpending
      · have hfree : w.id ≠ if 0 < clientId then clientId else s.counter := hc w hw heq.symm
        exact fun hsame => hfree (by simpa [hid] using hsame.symm)

lemma Handled.flush {s' : State} (h : Handled s s' source) (hflushed : Flushed s.watchers) :
    Handled s (flushReplay (reply s' source)) source := by
  obtain ⟨sent, hwrites, hsent⟩ := h.sent
  refine ⟨?_, ⟨sent ++ ⟨source, source.conn⟩ ::
    (s'.watchers.filter fun w => w.replayPending).map Watcher.write, ?_, fun w hw => ?_⟩,
    fun w hw hpending => ?_, h.distinct.map fun w => ⟨rfl, rfl⟩⟩
  · simp only [flushReplay, reply, filter_map, Function.comp_def]
    rw [h.others]
    refine (map_congr_left fun w hw => ?_).trans (map_id' _)
    have hno := hflushed w (mem_of_mem_filter hw)
    cases w
    cases hno
    rfl
  · simp [flushReplay, reply, hwrites]
  · obtain hw | hw := mem_append.1 hw
    · exact hsent w hw
    obtain rfl | hw := mem_cons.1 hw
    · rfl
    obtain ⟨v, hv, rfl⟩ := mem_map.1 hw
    exact h.replay v (mem_of_mem_filter hv) (mem_filter.1 hv).2
  · obtain ⟨v, _, rfl⟩ := mem_map.1 hw
    cases hpending

lemma handled_watch (hown : Own s.watchers) (hflushed : Flushed s.watchers)
    (hids : DistinctIds s.watchers) (hc : Considerate s (.watch source req)) :
    Handled s (step s (.watch source req)) source := by
  have h := @handled_handleWatch { s with writer := some source } source req hown hflushed hids hc
  exact Handled.flush ⟨h.others, h.sent, h.replay, h.distinct⟩ hflushed

lemma Flushed.step (h : Flushed s.watchers) (e : Event) : Flushed (step s e).watchers := by
  intro w hw
  cases e with
  | watch source req =>
    obtain ⟨v, _, rfl⟩ := mem_map.1 hw
    rfl
  | stream source found => exact h w (stream_watchers s source found ▸ hw)
  | unary source | chunk conn | store hits => exact h w hw
  | tick need =>
    obtain ⟨v, hv, rfl⟩ := mem_map.1 hw
    unfold Watcher.tick
    split <;> exact h v hv
  | compact rev | close conn => exact h w (mem_of_mem_filter hw)

lemma DistinctIds.step (h : DistinctIds s.watchers) (hown : Own s.watchers)
    (hflushed : Flushed s.watchers) (hc : Considerate s e) : DistinctIds (step s e).watchers := by
  cases e with
  | watch source req => exact (handled_watch hown hflushed h hc).distinct
  | stream source found => exact (stream_watchers s source found).symm ▸ h
  | unary source | chunk conn | store hits => exact h
  | tick need =>
    refine h.map fun w => ?_
    unfold Watcher.tick
    split <;> exact ⟨rfl, rfl⟩
  | compact rev | close conn => exact h.sublist filter_sublist

end

/-- If cancels find watchers of their own connection and new ids are free there: no watch request
touches the watchers of another connection or sends anything for them, and the watchers of a
connection have different ids. -/
theorem requests_keep_to_stream {steps : List (State × Event)} {s : State} (h : Run steps s)
    (hc : ∀ p ∈ steps, Considerate p.1 p.2) :
    (∀ p ∈ steps, KeepsToStream p.1 p.2) ∧ DistinctIds s.watchers := by
  have hall : (∀ p ∈ steps, KeepsToStream p.1 p.2) ∧ DistinctIds s.watchers ∧ Flushed s.watchers := by
    induction h with
    | start => exact ⟨nofun, .nil, nofun⟩
    | @next steps s e hrun _ ih =>
      obtain ⟨hkeeps, hids, hflushed⟩ := ih fun p hp => hc p (mem_append_left _ hp)
      have hce : Considerate s e := hc (s, e) (by simp)
      refine ⟨fun p hp => ?_, hids.step hrun.own hflushed hce, hflushed.step e⟩
      obtain hp | hp := mem_append.1 hp
      · exact hkeeps p hp
      rw [mem_singleton.1 hp]
      cases e with
      | watch source req =>
        have h := handled_watch hrun.own hflushed hids hce
        exact ⟨h.others, h.sent⟩
      | _ => trivial
  exact ⟨hall.1, hall.2.1⟩

/-- Two clients watch, and the second cancels its own watch. -/
def watchAndCancel : List Event := [watchOn 1, watchOn 2, .watch (.tcp 2) (.cancel 2)]

theorem requests_keep_to_stream_two :
    (∀ p ∈ trace {} watchAndCancel, KeepsToStream p.1 p.2) ∧
      (watchAndCancel.foldl step {}).watchers.map Watcher.origin = [1] := by
  have hrun : Run ([] ++ trace {} watchAndCancel) _ := Run.start.trace (by decide)
  refine ⟨(requests_keep_to_stream hrun fun p hp => ?_).1, by decide⟩
  simp only [nil_append, watchAndCancel, trace, mem_cons, not_mem_nil, or_false] at hp
  obtain rfl | rfl | rfl := hp
  · exact fun w hw => absurd hw not_mem_nil
  · exact (by decide : ∀ w ∈ (step {} (watchOn 1)).watchers, w.origin = 2 → w.id ≠ 2)
  · exact fun w hw => by cases hw; rfl

/-- A client cancels the watch of another by its id. -/
theorem cancel_takes_others_watch :
    ¬ KeepsToStream (step {} (watchOn 1)) (.watch (.tcp 2) (.cancel 1)) := by
  rintro ⟨hothers, _⟩
  exact absurd hothers (by decide)

end Cetcd.Writers
