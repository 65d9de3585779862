import Mathlib.Data.List.Basic

/-!
# Who is written to

Stream messages go through a writer: a function and the context it writes to. There is one global
writer, set before a Watch request and taken over by whatever handler asks next, and every watcher
keeps the one it was created with. Framed TCP sets it for Watch only and never takes it back; HTTP/2
sets it for Watch, RangeStream and Snapshot and takes it back after the last two.
-/

namespace Cetcd.Writers

open List

/-- The context of a writer: a framed connection, or a stream over HTTP/2. -/
inductive Writer
  | tcp (conn : Nat)
  | h2 (conn : Nat) (sid : Nat)
  deriving DecidableEq

def Writer.conn : Writer → Nat
  | .tcp conn => conn
  | .h2 conn _ => conn

/-- `cetcd_stream_watcher_ctx`; `origin` is the connection the create request came from. -/
structure Watcher where
  id : Int
  startRev : Int
  wantProgress : Bool
  ticks : Nat
  replayPending : Bool
  writer : Writer
  origin : Nat
  deriving DecidableEq

/-- A message to a connection, and the connection whose request it belongs to. -/
structure Write where
  via : Writer
  origin : Nat
  deriving DecidableEq

/-- The globals of the watchers, the closed connections and all that was written. -/
structure State where
  writer : Option Writer := none
  watchers : List Watcher := []
  counter : Int := 1
  closed : List Nat := []
  writes : List Write := []
  deriving DecidableEq

/-! ## Handlers -/

/-- A Watch request with the outcomes of its calls: refused at once, or one of the four kinds. -/
inductive WatchReq
  | refused
  | progress
  | cancel (id : Int)
  | create (clientId startRev : Int) (wantProgress compacted subscribed replay : Bool)
  | other
  deriving DecidableEq

def Watcher.write (w : Watcher) : Write := ⟨w.writer, w.origin⟩

/-- `handle_streaming_watch` for `conn` with the writer it captured. -/
def handleWatch (s : State) (conn : Nat) (writer : Writer) : WatchReq → State
  | .refused => s
  | .progress =>
    { s with
      writes := s.writes ++ (s.watchers.filter fun w => w.writer = writer).map Watcher.write
      watchers := s.watchers.map fun w => if w.writer = writer then { w with ticks := 0 } else w }
  | .cancel id => { s with watchers := s.watchers.eraseP fun w => w.id = id }
  | .create clientId startRev wantProgress compacted subscribed replay =>
    let id := if 0 < clientId then clientId else s.counter
    let s := if 0 < clientId then s else { s with counter := s.counter + 1 }
    if compacted ∨ subscribed = false then s
    else { s with watchers := ⟨id, startRev, wantProgress, 0, replay, writer, conn⟩ :: s.watchers }
  | .other => s

def flushReplay (s : State) : State :=
  { s with
    writes := s.writes ++ (s.watchers.filter fun w => w.replayPending).map Watcher.write
    watchers := s.watchers.map fun w => { w with replayPending := false } }

def reply (s : State) (writer : Writer) : State :=
  { s with writes := s.writes ++ [⟨writer, writer.conn⟩] }

/-- The first message goes through the writer that is set. -/
def streamFirst (s : State) (conn : Nat) (found : Bool) : State :=
  match s.writer with
  | none => s
  | some w => if found then { s with writes := s.writes ++ [⟨w, conn⟩] } else s

/-! ## Events -/

/-- A request comes with the writer that it was received on. -/
inductive Event
  | watch (source : Writer) (req : WatchReq)
  | stream (source : Writer) (found : Bool)
  | unary (source : Writer)
  /-- A DATA chunk of a RangeStream or Snapshot over HTTP/2 that ends no message. -/
  | chunk (conn : Nat)
  | store (hits : List Bool)
  | tick (need : Nat)
  | compact (rev : Int)
  | close (conn : Nat)
  deriving DecidableEq

/-- The watchers that are hit by a change of the store. -/
def hit : List Watcher → List Bool → List Watcher
  | w :: ws, b :: bs => if b then w :: hit ws bs else hit ws bs
  | _, _ => []

/-- One turn of `cetcd_v3rpc_watch_tick` over a watcher. -/
def Watcher.tick (need : Nat) (w : Watcher) : Watcher :=
  if w.wantProgress then { w with ticks := if need ≤ w.ticks + 1 then 0 else w.ticks + 1 } else w

/-- The watchers that a compaction cancels. -/
def Watcher.outdated (rev : Int) (w : Watcher) : Bool :=
  decide (0 < rev ∧ 0 < w.startRev ∧ w.startRev < rev)

/-- The watchers `client_close_cb_` detaches: those of the HTTP/2 contexts of the connection. -/
def Watcher.detached (conn : Nat) (w : Watcher) : Bool :=
  match w.writer with
  | .tcp _ => false
  | .h2 c _ => decide (c = conn)

def step (s : State) : Event → State
  | .watch source req =>
    let s := { s with writer := some source }
    flushReplay (reply (handleWatch s source.conn source req) source)
  | .stream (.tcp conn) found => reply (streamFirst s conn found) (.tcp conn)
  | .stream (.h2 conn sid) found =>
    let s := streamFirst { s with writer := some (.h2 conn sid) } conn found
    { reply s (.h2 conn sid) with writer := none }
  | .unary source => reply s source
  | .chunk _ => { s with writer := none }
  | .store hits => { s with writes := s.writes ++ (hit s.watchers hits).map Watcher.write }
  | .tick need =>
    { s with
      writes := s.writes ++
        (s.watchers.filter fun w => w.wantProgress ∧ need ≤ w.ticks + 1).map Watcher.write
      watchers := s.watchers.map (Watcher.tick need) }
  | .compact rev =>
    { s with
      writes := s.writes ++ (s.watchers.filter fun w => w.outdated rev).map Watcher.write
      watchers := s.watchers.filter fun w => !w.outdated rev }
  | .close conn =>
    { s with
      watchers := s.watchers.filter fun w => !w.detached conn
      closed := conn :: s.closed }

/-- Requests come from connections that are open, and a connection is closed once. -/
def Enabled (s : State) : Event → Prop
  | .watch source _ => source.conn ∉ s.closed
  | .stream source _ => source.conn ∉ s.closed
  | .unary source => source.conn ∉ s.closed
  | .chunk conn => conn ∉ s.closed
  | .close conn => conn ∉ s.closed
  | _ => True

instance (s : State) (e : Event) : Decidable (Enabled s e) := by
  cases e <;> unfold Enabled <;> infer_instance

inductive Run : List (State × Event) → State → Prop
  | start : Run [] {}
  | next {steps : List (State × Event)} {s : State} {e : Event} (h : Run steps s) (he : Enabled s e) :
      Run (steps ++ [(s, e)]) (step s e)

/-- The steps that events make from a state. -/
def trace (s : State) : List Event → List (State × Event)
  | [] => []
  | e :: es => (s, e) :: trace (step s e) es

lemma Run.trace {steps : List (State × Event)} {s : State} (h : Run steps s) {es : List Event}
    (he : ∀ p ∈ trace s es, Enabled p.1 p.2) : Run (steps ++ trace s es) (es.foldl step s) := by
  induction es generalizing steps s with
  | nil => simpa [Writers.trace] using h
  | cons e es ih =>
    rw [Writers.trace, forall_mem_cons] at he
    simpa [Writers.trace] using ih (h.next he.1) he.2

/-! ## Isolation -/

/-- Everything written belongs to a request of the connection it is written to. -/
def Isolated (s : State) : Prop := ∀ w ∈ s.writes, w.via.conn = w.origin

/-- A stream over framed TCP with something to send, while the writer is another connection's. -/
def Misdirects (s : State) : Event → Prop
  | .stream (.tcp conn) true => ∃ w, s.writer = some w ∧ w.conn ≠ conn
  | _ => False

def Event.source : Event → Option Writer
  | .watch source _ | .stream source _ | .unary source => some source
  | _ => none

/-- What a step may write: to a watcher, to the client that asks, or through the global writer. -/
inductive Sends (s : State) (e : Event) : Write → Prop
  | watcher {v : Watcher} (hv : v ∈ s.watchers) : Sends s e v.write
  | source {w : Writer} (h : e.source = some w) : Sends s e ⟨w, w.conn⟩
  | first {w : Writer} {conn : Nat} (he : e = .stream (.tcp conn) true) (hw : s.writer = some w) :
      Sends s e ⟨w, conn⟩

/-- Watchers write to the connection they were made on. -/
def Own (ws : List Watcher) : Prop := ∀ w ∈ ws, w.writer.conn = w.origin

section

variable {s : State} {e : Event} {steps : List (State × Event)} {ws : List Watcher} {w : Watcher}
  {source : Writer} {req : WatchReq}

lemma mem_hit {hits : List Bool} (h : w ∈ hit ws hits) : w ∈ ws := by
  induction ws generalizing hits with
  | nil => simp [hit] at h
  | cons v ws ih =>
    cases hits with
    | nil => simp [hit] at h
    | cons b bs =>
      rw [hit] at h
      split at h
      · obtain rfl | h := mem_cons.1 h
        · exact mem_cons_self
        · exact mem_cons_of_mem _ (ih h)
      · exact mem_cons_of_mem _ (ih h)

lemma mem_handleWatch (hw : w ∈ (handleWatch s source.conn source req).watchers) :
    (∃ v ∈ s.watchers, v.write = w.write) ∨ w.write = ⟨source, source.conn⟩ := by
  cases req with
  | refused | other => exact .inl ⟨w, hw, rfl⟩
  | progress =>
    obtain ⟨v, hv, rfl⟩ := mem_map.1 hw
    exact .inl ⟨v, hv, by split <;> rfl⟩
  | cancel id => exact .inl ⟨w, mem_of_mem_eraseP hw, rfl⟩
  | create clientId startRev wantProgress compacted subscribed replay =>
    simp only [handleWatch] at hw
    split_ifs at hw
    iterate 2 exact .inl ⟨w, hw, rfl⟩
    all_goals
      obtain rfl | hw := mem_cons.1 hw
      · exact .inr rfl
      · exact .inl ⟨w, hw, rfl⟩

lemma handleWatch_writes (s : State) (conn : Nat) (writer : Writer) (req : WatchReq) :
    ∃ ws : List Watcher, (∀ w ∈ ws, w ∈ s.watchers) ∧
      (handleWatch s conn writer req).writes = s.writes ++ ws.map Watcher.write := by
  cases req with
  | refused | cancel id | other => exact ⟨[], by simp, by simp [handleWatch]⟩
  | progress => exact ⟨_, fun w hw => mem_of_mem_filter hw, rfl⟩
  | create clientId startRev wantProgress compacted subscribed replay =>
    refine ⟨[], by simp, ?_⟩
    simp only [handleWatch, map_nil, append_nil]
    split_ifs <;> rfl

lemma streamFirst_same (s : State) (conn : Nat) (found : Bool) :
    (streamFirst s conn found).watchers = s.watchers ∧
      (streamFirst s conn found).closed = s.closed ∧
      (streamFirst s conn found).writer = s.writer := by
  unfold streamFirst
  split
  · exact ⟨rfl, rfl, rfl⟩
  · split <;> exact ⟨rfl, rfl, rfl⟩

lemma streamFirst_writes (s : State) (conn : Nat) (found : Bool) :
    ∃ out : List Write, (∀ w ∈ out, found = true ∧ s.writer = some w.via ∧ w.origin = conn) ∧
      (streamFirst s conn found).writes = s.writes ++ out := by
  unfold streamFirst
  cases hwriter : s.writer with
  | none => exact ⟨[], by simp, by simp⟩
  | some w =>
    cases found with
    | false => exact ⟨[], by simp, by simp⟩
    | true => exact ⟨[⟨w, conn⟩], by simp, rfl⟩

lemma stream_watchers (s : State) (source : Writer) (found : Bool) :
    (step s (.stream source found)).watchers = s.watchers := by
  cases source with
  | tcp conn => exact (streamFirst_same s conn found).1
  | h2 conn sid => exact (streamFirst_same { s with writer := some (.h2 conn sid) } conn found).1

/-- A watcher was there before, or a request has made it for the connection it came from. -/
lemma mem_step (hw : w ∈ (step s e).watchers) : (∃ v ∈ s.watchers, v.write = w.write) ∨
    ∃ source, e.source = some source ∧ w.write = ⟨source, source.conn⟩ := by
  cases e with
  | watch source req =>
    obtain ⟨v, hv, rfl⟩ := mem_map.1 hw
    exact (mem_handleWatch hv).imp_right fun h => ⟨source, rfl, h⟩
  | stream source found => exact .inl ⟨w, stream_watchers s source found ▸ hw, rfl⟩
  | unary source | chunk conn | store hits => exact .inl ⟨w, hw, rfl⟩
  | tick need =>
    obtain ⟨v, hv, rfl⟩ := mem_map.1 hw
    refine .inl ⟨v, hv, ?_⟩
    unfold Watcher.tick
    split <;> rfl
  | compact rev | close conn => exact .inl ⟨w, mem_of_mem_filter hw, rfl⟩

lemma sends_watchers (h : ∀ v ∈ ws, v ∈ s.watchers) : ∀ w ∈ ws.map Watcher.write, Sends s e w := by
  intro w hw
  obtain ⟨v, hv, rfl⟩ := mem_map.1 hw
  exact .watcher (h v hv)

lemma step_writes (s : State) (e : Event) :
    ∃ out, (step s e).writes = s.writes ++ out ∧ ∀ w ∈ out, Sends s e w := by
  cases e with
  | watch source req =>
    obtain ⟨ws, hws, hwrites⟩ :=
      handleWatch_writes { s with writer := some source } source.conn source req
    refine ⟨_, by simp only [step, flushReplay, reply, hwrites, append_assoc]; rfl, fun w hw => ?_⟩
    have hreply : Sends s (.watch source req) ⟨source, source.conn⟩ := .source rfl
    obtain hw | hw := mem_append.1 hw
    · exact @sends_watchers s _ ws hws w hw
    obtain hw | hw := mem_append.1 hw
    · exact mem_singleton.1 hw ▸ hreply
    obtain ⟨v, hv, rfl⟩ := mem_map.1 hw
    obtain ⟨u, hu, heq⟩ | heq := mem_handleWatch (mem_of_mem_filter hv)
    · exact heq ▸ .watcher hu
    · exact heq ▸ hreply
  | stream source found =>
    cases source with
    | tcp conn =>
      obtain ⟨out, hout, hwrites⟩ := streamFirst_writes s conn found
      refine ⟨_, by simp only [step, reply, hwrites, append_assoc]; rfl, fun w hw => ?_⟩
      obtain hw | hw := mem_append.1 hw
      · obtain ⟨rfl, hvia, rfl⟩ := hout w hw
        exact .first rfl hvia
      · exact mem_singleton.1 hw ▸ .source rfl
    | h2 conn sid =>
      obtain ⟨out, hout, hwrites⟩ :=
        streamFirst_writes { s with writer := some (.h2 conn sid) } conn found
      refine ⟨_, by simp only [step, reply, hwrites, append_assoc]; rfl, fun w hw => ?_⟩
      obtain hw | hw := mem_append.1 hw
      · -- the writer was set to the stream itself
        obtain ⟨_, hvia, horigin⟩ := hout w hw
        obtain ⟨via, origin⟩ := w
        cases hvia
        obtain rfl : origin = conn := horigin
        exact .source rfl
      · exact mem_singleton.1 hw ▸ .source rfl
  | unary source => exact ⟨_, rfl, fun w hw => mem_singleton.1 hw ▸ .source rfl⟩
  | store hits => exact ⟨_, rfl, sends_watchers fun v hv => mem_hit hv⟩
  | tick need | compact rev => exact ⟨_, rfl, sends_watchers fun v hv => mem_of_mem_filter hv⟩
  | chunk conn | close conn => exact ⟨[], (append_nil _).symm, nofun⟩

lemma Own.step (h : Own s.watchers) (e : Event) : Own (step s e).watchers := by
  intro w hw
  change w.write.via.conn = w.write.origin
  obtain ⟨v, hv, heq⟩ | ⟨source, _, heq⟩ := mem_step hw
  · exact heq ▸ h v hv
  · rw [heq]

lemma Isolated.step_iff (h : Isolated s) (hown : Own s.watchers) (e : Event) :
    Isolated (step s e) ↔ ¬ Misdirects s e := by
  constructor
  · intro hiso hmis
    unfold Misdirects at hmis
    split at hmis
    · rename_i conn
      obtain ⟨w, hw, hne⟩ := hmis
      exact hne (hiso ⟨w, conn⟩ (by simp [step, streamFirst, hw, reply]))
    · exact hmis
  intro hno w hw
  obtain ⟨out, hwrites, hout⟩ := step_writes s e
  rw [hwrites] at hw
  obtain hw | hw := mem_append.1 hw
  · exact h w hw
  cases hout w hw with
  | watcher hv => exact hown _ hv
  | source => rfl
  | first he hwriter =>
    subst he
    by_contra hne
    exact hno ⟨_, hwriter, hne⟩

lemma writes_subset (s : State) (e : Event) : ∀ w ∈ s.writes, w ∈ (step s e).writes := by
  obtain ⟨out, hwrites, _⟩ := step_writes s e
  exact fun w hw => hwrites ▸ mem_append_left _ hw

lemma Run.own (h : Run steps s) : Own s.watchers := by
  induction h with
  | start => exact fun w hw => by simp at hw
  | next _ _ ih => exact ih.step _

lemma Run.isolated_or_misdirected (h : Run steps s) :
    (Isolated s ∧ ∀ p ∈ steps, ¬ Misdirects p.1 p.2) ∨
      (¬ Isolated s ∧ ∃ p ∈ steps, Misdirects p.1 p.2) := by
  induction h with
  | start => exact .inl ⟨fun w hw => by simp at hw, by simp⟩
  | @next steps s e hrun _ ih =>
    obtain ⟨hiso, hno⟩ | ⟨hnot, p, hp, hmis⟩ := ih
    · by_cases hmis : Misdirects s e
      · refine .inr ⟨fun hnext => ?_, (s, e), by simp, hmis⟩
        exact (hiso.step_iff hrun.own e).1 hnext hmis
      refine .inl ⟨(hiso.step_iff hrun.own e).2 hmis, fun p hp => ?_⟩
      obtain hp | hp := mem_append.1 hp
      · exact hno p hp
      rw [mem_singleton.1 hp]
      exact hmis
    refine .inr ⟨fun hnext => hnot fun w hw => hnext w (writes_subset s e w hw), p, ?_, hmis⟩
    exact mem_append_left _ hp

end

/-- Everything that is written belongs to the connection it is written to exactly if no RangeStream
or Snapshot over framed TCP found the writer of another connection. -/
theorem isolated_iff_not_misdirected {steps : List (State × Event)} {s : State} (h : Run steps s) :
    Isolated s ↔ ∀ p ∈ steps, ¬ Misdirects p.1 p.2 := by
  obtain ⟨hiso, hno⟩ | ⟨hnot, p, hp, hmis⟩ := h.isolated_or_misdirected
  · exact iff_of_true hiso hno
  · exact iff_of_false hnot fun hno => hno p hp hmis

def watchOn (conn : Nat) : Event := .watch (.tcp conn) (.create 0 0 false false true false)

lemma run_watch : Run [({}, watchOn 1)] (step {} (watchOn 1)) :=
  .next (.start : Run [] {}) (by simp [Enabled, watchOn])

/-- A client over HTTP/2 watches and goes, and one over framed TCP watches, reads a stream and hears
of a change. -/
def twoClients : List Event :=
  [.watch (.h2 2 1) (.create 0 0 false false true false), watchOn 1, .stream (.tcp 1) true, .close 2,
    .store [true]]

lemma run_twoClients : Run (trace {} twoClients) (twoClients.foldl step {}) :=
  (Run.start.trace (by decide) : Run ([] ++ trace {} twoClients) _)

theorem isolated_two_clients : Isolated (twoClients.foldl step {}) := by
  refine (isolated_iff_not_misdirected run_twoClients).2 fun p hp => ?_
  simp only [twoClients, trace, mem_cons, not_mem_nil, or_false] at hp
  obtain rfl | rfl | rfl | rfl | rfl := hp
  case inr.inr.inl =>
    -- the writer is that of the client's own watch
    rintro ⟨w, hw, hne⟩
    cases hw
    exact hne rfl
  all_goals exact id

/-- A range as a stream: its first message goes to another client, the one that watches. -/
theorem rangeStream_misdirected :
    Run [({}, watchOn 1), (step {} (watchOn 1), .stream (.tcp 2) true)]
        (step (step {} (watchOn 1)) (.stream (.tcp 2) true)) ∧
      ⟨.tcp 1, 2⟩ ∈ (step (step {} (watchOn 1)) (.stream (.tcp 2) true)).writes ∧
      ¬ Isolated (step (step {} (watchOn 1)) (.stream (.tcp 2) true)) := by
  have hmem : (⟨.tcp 1, 2⟩ : Write) ∈
      (step (step {} (watchOn 1)) (.stream (.tcp 2) true)).writes := by decide
  refine ⟨.next run_watch (by decide), hmem, fun hiso => ?_⟩
  have hsame := hiso _ hmem
  simp [Writer.conn] at hsame

/-! ## Closed connections -/

/-- No watcher and no global writer refers to a connection that was closed. -/
structure Clean (s : State) : Prop where
  watchers : ∀ w ∈ s.watchers, w.writer.conn ∉ s.closed
  writer : ∀ w, s.writer = some w → w.conn ∉ s.closed

/-- The connection has a watcher over framed TCP, or the global writer is its own. -/
def Referred (s : State) (conn : Nat) : Prop :=
  (∃ w ∈ s.watchers, w.writer = .tcp conn) ∨ ∃ w, s.writer = some w ∧ w.conn = conn

/-- The event closes a connection that is still referred to and stays so. -/
def LeavesBehind (s : State) : Event → Prop
  | .close conn => Referred s conn
  | _ => False

/-- The step writes to open connections only. -/
def WritesOpen (s : State) (e : Event) : Prop :=
  ∀ w ∈ (step s e).writes.drop s.writes.length, w.via.conn ∉ s.closed

section

variable {s : State} {e : Event} {steps : List (State × Event)}

lemma Enabled.of_source (he : Enabled s e) {source : Writer} (h : e.source = some source) :
    source.conn ∉ s.closed := by
  cases e <;> cases h <;> exact he

lemma handleWatch_closed (s : State) (conn : Nat) (writer : Writer) (req : WatchReq) :
    (handleWatch s conn writer req).closed = s.closed ∧
      (handleWatch s conn writer req).writer = s.writer := by
  cases req with
  | create clientId startRev wantProgress compacted subscribed replay =>
    simp only [handleWatch]
    split_ifs <;> exact ⟨rfl, rfl⟩
  | _ => exact ⟨rfl, rfl⟩

lemma step_refers (s : State) (hnot : ∀ conn, e ≠ .close conn) : (step s e).closed = s.closed ∧
    ∀ w, (step s e).writer = some w → s.writer = some w ∨ e.source = some w := by
  cases e with
  | watch source req =>
    have hsame := handleWatch_closed { s with writer := some source } source.conn source req
    exact ⟨hsame.1, fun w hw => .inr (hsame.2.symm.trans hw)⟩
  | stream source found =>
    cases source with
    | tcp conn =>
      have hsame := (streamFirst_same s conn found).2
      exact ⟨hsame.1, fun w hw => .inl (hsame.2.symm.trans hw)⟩
    | h2 conn sid =>
      exact ⟨(streamFirst_same { s with writer := some (.h2 conn sid) } conn found).2.1, nofun⟩
  | chunk conn => exact ⟨rfl, nofun⟩
  | close conn => exact absurd rfl (hnot conn)
  | _ => exact ⟨rfl, fun w hw => .inl hw⟩

lemma Clean.step (h : Clean s) (he : Enabled s e) (hno : ¬ LeavesBehind s e) : Clean (step s e) := by
  by_cases hnot : ∀ conn, e ≠ .close conn
  · obtain ⟨hclosed, hwriter⟩ := step_refers s hnot
    refine ⟨fun w hw => ?_, fun w hw => ?_⟩ <;> rw [hclosed]
    · change w.write.via.conn ∉ s.closed
      obtain ⟨v, hv, heq⟩ | ⟨source, hsource, heq⟩ := mem_step hw
      · exact heq ▸ h.watchers v hv
      · exact heq ▸ he.of_source hsource
    · exact (hwriter w hw).elim (h.writer w) he.of_source
  obtain ⟨conn, rfl⟩ := not_forall_not.1 hnot
  simp only [LeavesBehind, Referred, not_or, not_exists, not_and] at hno
  refine ⟨fun w hw => ?_, fun w hw => ?_⟩
  · obtain ⟨hw, hkept⟩ := mem_filter.1 hw
    refine fun hin => ?_
    obtain heq | hin := mem_cons.1 hin
    · -- a watcher over HTTP/2 was detached, one over framed TCP would be left behind
      cases hwriter : w.writer with
      | tcp c =>
        rw [hwriter] at heq
        exact hno.1 w hw (by rw [hwriter, ← heq]; rfl)
      | h2 c sid =>
        rw [hwriter] at heq
        simp [Watcher.detached, hwriter, ← heq, Writer.conn] at hkept
    · exact h.watchers w hw hin
  intro hin
  obtain heq | hin := mem_cons.1 hin
  · exact hno.2 w hw heq
  · exact h.writer w hw hin

lemma not_clean_of_leavesBehind (hleft : LeavesBehind s e) : ¬ Clean (step s e) := by
  intro hclean
  cases e with
  | close conn =>
    obtain ⟨w, hw, hwriter⟩ | ⟨w, hw, hconn⟩ := hleft
    · refine hclean.watchers w (mem_filter.2 ⟨hw, by simp [Watcher.detached, hwriter]⟩) ?_
      rw [hwriter]
      exact mem_cons_self
    refine hclean.writer w hw ?_
    rw [hconn]
    exact mem_cons_self
  | _ => exact hleft

lemma Clean.writesOpen (h : Clean s) (he : Enabled s e) : WritesOpen s e := by
  obtain ⟨out, hwrites, hout⟩ := step_writes s e
  unfold WritesOpen
  rw [hwrites, drop_left]
  intro w hw
  cases hout w hw with
  | watcher hv => exact h.watchers _ hv
  | source hsource => exact he.of_source hsource
  | first _ hwriter => exact h.writer _ hwriter

/-- In every state of the run nothing refers to a closed connection, and no step writes to one. -/
def NothingLeft (steps : List (State × Event)) (s : State) : Prop :=
  (∀ p ∈ steps, Clean p.1 ∧ WritesOpen p.1 p.2) ∧ Clean s

lemma Run.nothingLeft (h : Run steps s) (hno : ∀ p ∈ steps, ¬ LeavesBehind p.1 p.2) :
    NothingLeft steps s := by
  induction h with
  | start => exact ⟨by simp, ⟨by simp, by simp⟩⟩
  | @next steps s e _ he ih =>
    obtain ⟨hsteps, hclean⟩ := ih fun p hp => hno p (mem_append_left _ hp)
    refine ⟨fun p hp => ?_, hclean.step he (hno (s, e) (by simp))⟩
    obtain hp | hp := mem_append.1 hp
    · exact hsteps p hp
    rw [mem_singleton.1 hp]
    exact ⟨hclean, hclean.writesOpen he⟩

lemma Run.clean_after (h : Run steps s) (hall : NothingLeft steps s) :
    ∀ p ∈ steps, Clean (Writers.step p.1 p.2) := by
  induction h with
  | start => simp
  | @next steps s e _ _ ih =>
    intro p hp
    obtain hp | hp := mem_append.1 hp
    · refine ih ⟨fun q hq => hall.1 q (mem_append_left _ hq), ?_⟩ p hp
      exact (hall.1 (s, e) (by simp)).1
    rw [mem_singleton.1 hp]
    exact hall.2

end

/-- A closed connection leaves no writer behind exactly if, when closed, it had no watcher over
framed TCP and the global writer was not its own. -/
theorem nothingLeft_iff {steps : List (State × Event)} {s : State} (h : Run steps s) :
    NothingLeft steps s ↔ ∀ p ∈ steps, ¬ LeavesBehind p.1 p.2 := by
  constructor
  · intro hall p hp hleft
    exact not_clean_of_leavesBehind hleft (h.clean_after hall p hp)
  · exact h.nothingLeft

theorem nothingLeft_two_clients :
    NothingLeft (trace {} twoClients) (twoClients.foldl step {}) := by
  refine (nothingLeft_iff run_twoClients).2 fun p hp => ?_
  simp only [twoClients, trace, mem_cons, not_mem_nil, or_false] at hp
  obtain rfl | rfl | rfl | rfl | rfl := hp
  case inr.inr.inr.inl =>
    -- its watcher is over HTTP/2, and the writer is the other client's
    rintro (⟨w, hw, hwriter⟩ | ⟨w, hw, hconn⟩)
    · revert w
      decide
    · cases hw
      exact absurd hconn (by decide)
  all_goals exact id

/-- A client watches over framed TCP and disconnects: watcher and global writer still refer to its
stream, and the next change is written there. -/
theorem watch_left_behind :
    Run [({}, watchOn 1), (step {} (watchOn 1), .close 1)] (step (step {} (watchOn 1)) (.close 1)) ∧
      (step (step {} (watchOn 1)) (.close 1)).writer = some (.tcp 1) ∧
      (step (step {} (watchOn 1)) (.close 1)).watchers.map Watcher.writer = [.tcp 1] ∧
      ¬ WritesOpen (step (step {} (watchOn 1)) (.close 1)) (.store [true]) := by
  refine ⟨.next run_watch (by decide), by decide, by decide, fun hopen => ?_⟩
  exact hopen ⟨.tcp 1, 1⟩ (by decide) (by decide)

end Cetcd.Writers
