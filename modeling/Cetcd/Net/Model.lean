import Cetcd.Cluster.Model

/-!
# A network that delivers every message

Nodes with the messages under way between them. A delivery removes the message; which one comes next
is open. In one `Round` every node ticks once and then messages are delivered, in any order, until
none is under way.
-/

namespace Cetcd

open Lib Raft List Function

namespace Raft

/-- Take the Ready of a node that has returned from a call. -/
def flush (r : Raft) : List Msg × Raft :=
  let rd := (cetcdRaftReady r).1
  (rd.messages, cetcdRaftAdvance (cetcdRaftReady r).2 rd)

def hear (r : Raft) (m : Msg) : List Msg × Raft := flush (cetcdRaftStep r m).2

end Raft

structure Net where
  node : Nat → Raft
  flight : List Msg

namespace Net

def put (c : Net) (i : Nat) (r : Raft) : Net :=
  { node := Function.update c.node i (flush r).2
    flight := c.flight ++ (flush r).1 }

def tick (c : Net) (i : Nat) : Net := c.put i (cetcdRaftTick (c.node i))

def deliver (c : Net) (m : Msg) : Net :=
  { c with flight := c.flight.erase m }.put m.dest (cetcdRaftStep (c.node m.dest) m).2

def tickAll (V : Voters) (c : Net) : Net := V.ids.foldl tick c

def Delivers (c c' : Net) : Prop := ∃ m ∈ c.flight, c' = c.deliver m

/-- All nodes tick, then every message is delivered. -/
def Round (V : Voters) (c c' : Net) : Prop :=
  Relation.ReflTransGen Delivers (c.tickAll V) c' ∧ c'.flight = []

section

variable {c : Net} {m m' : Msg} {i j : Nat}

lemma tick_node_self : (c.tick i).node i = (flush (cetcdRaftTick (c.node i))).2 :=
  update_self i _ c.node

lemma tick_node_of_ne (h : j ≠ i) : (c.tick i).node j = c.node j :=
  update_of_ne h _ _

lemma tick_flight : (c.tick i).flight = c.flight ++ (flush (cetcdRaftTick (c.node i))).1 := rfl

lemma deliver_node_dest : (c.deliver m).node m.dest = (hear (c.node m.dest) m).2 :=
  update_self m.dest _ c.node

lemma deliver_node_of_ne (h : j ≠ m.dest) : (c.deliver m).node j = c.node j :=
  update_of_ne h _ _

lemma deliver_cases {P : Nat → Raft → Prop} (hnew : P m.dest (hear (c.node m.dest) m).2)
    (hold : ∀ j, j ≠ m.dest → P j (c.node j)) (j : Nat) : P j ((c.deliver m).node j) := by
  by_cases hj : j = m.dest
  · rw [hj, deliver_node_dest]
    exact hnew
  rw [deliver_node_of_ne hj]
  exact hold j hj

lemma deliver_flight : (c.deliver m).flight = c.flight.erase m ++ (hear (c.node m.dest) m).1 := rfl

lemma mem_deliver_flight (h : m' ∈ (c.deliver m).flight) :
    m' ∈ c.flight ∨ m' ∈ (hear (c.node m.dest) m).1 := by
  obtain h | h := mem_append.1 h
  · exact .inl (mem_of_mem_erase h)
  · exact .inr h

lemma exists_flight_deliver {P : Msg → Prop} (h : ∃ m' ∈ c.flight, P m') (m : Msg) :
    P m ∨ ∃ m' ∈ (c.deliver m).flight, P m' := by
  obtain ⟨m', hm', hP⟩ := h
  by_cases heq : m' = m
  · exact .inl (heq ▸ hP)
  · exact .inr ⟨m', mem_append_left _ ((mem_erase_of_ne heq).2 hm'), hP⟩

lemma answer_mem_deliver_flight (h : m' ∈ (hear (c.node m.dest) m).1) : m' ∈ (c.deliver m).flight :=
  mem_append_right _ h

end

lemma foldl_tick_node (is : List Nat) (h : is.Nodup) (c : Net) (i : Nat) :
    (is.foldl tick c).node i =
      if i ∈ is then (flush (cetcdRaftTick (c.node i))).2 else c.node i := by
  induction is generalizing c with
  | nil => rfl
  | cons j is ih =>
    rw [foldl_cons, ih (nodup_cons.1 h).2]
    by_cases hij : i = j
    · subst hij
      rw [if_neg (nodup_cons.1 h).1, if_pos mem_cons_self]
      exact tick_node_self
    rw [tick_node_of_ne hij]
    simp [hij]

variable {V : Voters} {c : Net} {P : Net → Prop}

lemma tickAll_node {i : Nat} (hi : i ∈ V.ids) (c : Net) :
    (c.tickAll V).node i = (flush (cetcdRaftTick (c.node i))).2 := by
  unfold tickAll
  rw [foldl_tick_node V.ids V.nodup, if_pos hi]

lemma mem_foldl_tick_flight (is : List Nat) (h : is.Nodup) (c : Net) (m : Msg) :
    m ∈ (is.foldl tick c).flight ↔
      m ∈ c.flight ∨ ∃ i ∈ is, m ∈ (flush (cetcdRaftTick (c.node i))).1 := by
  induction is generalizing c with
  | nil => simp
  | cons j is ih =>
    rw [foldl_cons, ih (nodup_cons.1 h).2, tick_flight, mem_append]
    -- the later nodes have not ticked yet
    have hrest : (∃ i ∈ is, m ∈ (flush (cetcdRaftTick ((c.tick j).node i))).1) ↔
        ∃ i ∈ is, m ∈ (flush (cetcdRaftTick (c.node i))).1 := by
      refine exists_congr fun i => and_congr_right fun hi => ?_
      have hij : i ≠ j := by
        rintro rfl
        exact (nodup_cons.1 h).1 hi
      rw [tick_node_of_ne hij]
    rw [hrest, or_assoc, exists_mem_cons_iff]

lemma mem_tickAll_flight {m : Msg} : m ∈ (c.tickAll V).flight ↔
      m ∈ c.flight ∨ ∃ i ∈ V.ids, m ∈ (flush (cetcdRaftTick (c.node i))).1 :=
  mem_foldl_tick_flight V.ids V.nodup c m

lemma Round.induct {c' : Net} (h : Round V c c') (hstart : P (c.tickAll V))
    (hstep : ∀ d m, P d → m ∈ d.flight → P (d.deliver m)) : P c' := by
  have hrun := h.1
  clear h
  induction hrun with
  | refl => exact hstart
  | tail _ hdel ih =>
    obtain ⟨m, hm, rfl⟩ := hdel
    exact hstep _ m ih hm

/-- Deliver the oldest message, at most `n` times. -/
def drain : Nat → Net → Net
  | 0, c => c
  | n + 1, c =>
    match c.flight with
    | [] => c
    | m :: _ => drain n (c.deliver m)

/-- A request outweighs the answer to it. -/
def weight (m : Msg) : Nat :=
  match m.type with
  | .vote => 2
  | .preVote => 2
  | .heartbeat => 2
  | _ => 1

def load (c : Net) : Nat := (c.flight.map weight).sum

lemma drain_delivers (n : Nat) (c : Net) : Relation.ReflTransGen Delivers c (drain n c) := by
  induction n generalizing c with
  | zero => exact .refl
  | succ n ih =>
    unfold drain
    split
    · exact .refl
    rename_i m rest hflight
    refine .head ⟨m, ?_, rfl⟩ (ih (c.deliver m))
    rw [hflight]
    exact mem_cons_self

lemma round_drain {n : Nat} (h : (drain n (c.tickAll V)).flight = []) :
    Round V c (drain n (c.tickAll V)) :=
  ⟨drain_delivers n _, h⟩

lemma load_deliver {m : Msg} (hm : m ∈ c.flight)
    (h : ((hear (c.node m.dest) m).1.map weight).sum < weight m) : load (c.deliver m) < load c := by
  have herase := sum_map_erase weight hm
  unfold load
  rw [deliver_flight, map_append, sum_append, ← herase]
  omega

lemma exists_drain
    (hstep : ∀ c m, P c → m ∈ c.flight → P (c.deliver m) ∧ load (c.deliver m) < load c) (h : P c) :
    ∃ n, (drain n c).flight = [] ∧ P (drain n c) := by
  have hall : ∀ k c, load c ≤ k → P c → (drain k c).flight = [] ∧ P (drain k c) := by
    intro k
    induction k with
    | zero =>
      intro c hk hc
      have hempty : c.flight = [] := by
        refine eq_nil_iff_forall_not_mem.2 fun m hm => ?_
        have := (hstep c m hc hm).2
        omega
      exact ⟨hempty, hc⟩
    | succ k ih =>
      intro c hk hc
      unfold drain
      split
      · rename_i hempty
        exact ⟨hempty, hc⟩
      rename_i m rest hflight
      have hm : m ∈ c.flight := by
        rw [hflight]
        exact mem_cons_self
      obtain ⟨hP, hlt⟩ := hstep c m hc hm
      exact ih _ (by omega) hP
  exact ⟨load c, hall (load c) c le_rfl h⟩

end Net
end Cetcd
