import Cetcd.Net.Elect

/-!
# A new leader and the work it inherits

A node has just been elected and stays leader; nobody proposes anything and every message is
delivered. The new leader takes every peer to have its whole log, so its beats are heartbeats only:
no log is changed and its commit index never moves. The followers take over the commit index it had.
-/

namespace Cetcd.Net

open Lib Raft Protocol List

/-! ## Runs under one leader -/

inductive Act
  | tick (i : Nat)
  | deliver (m : Msg)

def next (c : Net) : Act → Net
  | .tick i => c.tick i
  | .deliver m => c.deliver m

/-- `x` stays leader and ticks forever, nobody proposes, all is delivered, no other timer expires.
-/
structure Reign (V : Voters) (x : Nat) (run : ℕ → Net) (act : ℕ → Act) : Prop where
  step : ∀ k, run (k + 1) = (run k).next (act k)
  ticking : ∀ k i, act k = .tick i → i ∈ V.ids ∧ ¬ Expires ((run k).node i)
  underWay : ∀ k m, act k = .deliver m → m ∈ (run k).flight
  stays : ∀ k, ((run k).node x).role = .leader
  ticks : ∀ k, ∃ n, k ≤ n ∧ act n = .tick x
  delivered : ∀ k, ∀ m ∈ (run k).flight, ∃ n, k ≤ n ∧ act n = .deliver m

/-- A message of the campaigns and beats of `x`, or an answer to one. -/
inductive Courier (V : Voters) (x t : Nat) (m : Msg) : Prop
  | down (type : m.type = .vote ∨ m.type = .preVote ∨ m.type = .heartbeat) (sender : m.sender = x)
      (dest : m.dest ∈ V.ids) (ne : m.dest ≠ x) (term : m.type ≠ .preVote → m.term ≤ t)
  | up (type : m.type = .voteResp ∨ m.type = .preVoteResp ∨ m.type = .heartbeatResp)
      (dest : m.dest = x)

/-- `x` leads a cluster in which it has nothing to send but heartbeats. -/
structure Leads (V : Voters) (x : Nat) (c : Net) : Prop where
  voter : x ∈ V.ids
  member : ∀ i ∈ V.ids, Member V i (c.node i).conf (c.node i).mem
  out : ∀ i ∈ V.ids, (c.node i).pending.msgs = []
  role : (c.node x).role = .leader
  caughtUp : CaughtUp (c.node x)
  others : ∀ i ∈ V.ids, i ≠ x → (c.node i).role ≠ .leader
  letters : ∀ m ∈ c.flight, Courier V x (c.node x).term m

/-- `x` is what `become_leader_` made of some candidate. -/
structure Elected (V : Voters) (x : Nat) (c : Net) : Prop where
  voter : x ∈ V.ids
  member : ∀ i ∈ V.ids, Member V i (c.node i).conf (c.node i).mem
  out : ∀ i ∈ V.ids, (c.node i).pending.msgs = []
  new : ∃ r, bare (c.node x) = becomeLeader r
  compacted : (c.node x).rlog.compacted ≤ (c.node x).rlog.lastIndex
  others : ∀ i ∈ V.ids, i ≠ x → (c.node i).role ≠ .leader
  letters : ∀ m ∈ c.flight, Courier V x (c.node x).term m

/-- What every step of a reign keeps, from an earlier state `c` to a later one `c'`. -/
structure Keeps (V : Voters) (x : Nat) (c c' : Net) : Prop where
  base : ∀ i ∈ V.ids, SameBase (c.node i) (c'.node i)
  term : (c'.node x).term = (c.node x).term
  commit : (c'.node x).commit = (c.node x).commit
  ahead : ∀ i ∈ V.ids, (c.node x).term < (c.node i).term →
    (c'.node i).term = (c.node i).term ∧ (c'.node i).commit = (c.node i).commit
  behind : ∀ i ∈ V.ids, (c.node i).term ≤ (c.node x).term → (c'.node i).term ≤ (c.node x).term
  grows : ∀ i ∈ V.ids, (c.node i).commit ≤ (c'.node i).commit

section

variable {V : Voters} {x : Nat} {c c' c'' : Net}

lemma Elected.leads (h : Elected V x c) : Leads V x c := by
  obtain ⟨r, hr⟩ := h.new
  have hmem : (c.node x).mem = r.mem := (congrArg Raft.mem hr :)
  have hlog : (c.node x).rlog = r.rlog := (congrArg Raft.rlog hr :)
  have hlen : r.mem.peers.length ≤ maxPeers := hmem ▸ Member.length_le (h.member x h.voter)
  have hup : CaughtUp (becomeLeader r) := caughtUp_becomeLeader hlen (hlog ▸ h.compacted)
  have hbare : bare (c.node x) = bare (becomeLeader r) := by
    rw [← hr]
    rfl
  exact
    { voter := h.voter
      member := h.member
      out := h.out
      role := (congrArg Raft.role hr :)
      caughtUp := hup.of_bare hbare
      others := h.others
      letters := h.letters }

lemma Keeps.refl (V : Voters) (x : Nat) (c : Net) : Keeps V x c c where
  base := fun _ _ => ⟨rfl, rfl, rfl⟩
  term := rfl
  commit := rfl
  ahead := fun _ _ _ => ⟨rfl, rfl⟩
  behind := fun _ _ h => h
  grows := fun _ _ => le_rfl

lemma Keeps.trans (h : Keeps V x c c') (h' : Keeps V x c' c'') : Keeps V x c c'' := by
  refine ⟨fun i hi => ?_, h'.term.trans h.term, h'.commit.trans h.commit, fun i hi hlt => ?_,
    fun i hi hle => ?_, fun i hi => (h.grows i hi).trans (h'.grows i hi)⟩
  · obtain ⟨h1, h2, h3⟩ := h.base i hi
    obtain ⟨h1', h2', h3'⟩ := h'.base i hi
    exact ⟨h1'.trans h1, h2'.trans h2, h3'.trans h3⟩
  · obtain ⟨ht, hc⟩ := h.ahead i hi hlt
    rcases h'.ahead i hi (by rw [h.term, ht]; exact hlt) with ⟨ht', hc'⟩
    exact ⟨ht'.trans ht, hc'.trans hc⟩
  have hb := h'.behind i hi (by rw [h.term]; exact h.behind i hi hle)
  rwa [h.term] at hb

/-! ## One step -/

/-- What a step may do to node `i` under a leader of term `t`. -/
structure KeptUnder (t : Nat) (r r' : Raft) : Prop where
  base : SameBase r r'
  ahead : t < r.term → r'.term = r.term ∧ r'.commit = r.commit
  behind : r.term ≤ t → r'.term ≤ t
  grows : r.commit ≤ r'.commit

lemma Leads.put (h : Leads V x c) {l : List Msg} {i : Nat} {r : Raft} (hl : l ⊆ c.flight)
    (hkept : KeptUnder (c.node x).term (c.node i) (flush r).2)
    (hself : i = x → (flush r).2.role = .leader ∧ (flush r).2.term = (c.node x).term ∧
      (flush r).2.commit = (c.node x).commit ∧ CaughtUp (flush r).2)
    (hrole : i ≠ x → (flush r).2.role ≠ .leader)
    (hsent : ∀ m ∈ (flush r).1, Courier V x (c.node x).term m) :
    Leads V x ({ c with flight := l }.put i r) ∧ Keeps V x c ({ c with flight := l }.put i r) := by
  have hletters : ∀ m ∈ ({ c with flight := l }.put i r).flight, Courier V x (c.node x).term m := by
    intro m hm
    obtain hm | hm := mem_append.1 hm
    · exact h.letters m (hl hm)
    · exact hsent m hm
  have hnode : ({ c with flight := l }.put i r).node i = (flush r).2 := Function.update_self ..
  have hother : ∀ j, j ≠ i → ({ c with flight := l }.put i r).node j = c.node j := fun j hj =>
    Function.update_of_ne hj ..
  generalize ({ c with flight := l } : Net).put i r = c' at hletters hnode hother ⊢
  -- the leader itself, whether it is the node that stepped or not
  have hlead : (c'.node x).role = .leader ∧ (c'.node x).term = (c.node x).term ∧
      (c'.node x).commit = (c.node x).commit ∧ CaughtUp (c'.node x) := by
    by_cases hix : i = x
    · rw [← hix, hnode, hix]
      exact hself hix
    rw [hother x (Ne.symm hix)]
    exact ⟨h.role, rfl, rfl, h.caughtUp⟩
  have hall : ∀ j ∈ V.ids, KeptUnder (c.node x).term (c.node j) (c'.node j) ∧
      (c'.node j).pending.msgs = [] ∧ (j ≠ x → (c'.node j).role ≠ .leader) := by
    intro j hj
    by_cases hji : j = i
    · subst hji
      rw [hnode]
      exact ⟨hkept, flush_pending r, hrole⟩
    rw [hother j hji]
    exact ⟨⟨⟨rfl, rfl, rfl⟩, fun _ => ⟨rfl, rfl⟩, id, le_rfl⟩, h.out j hj, h.others j hj⟩
  refine ⟨⟨h.voter, fun j hj => ?_, fun j hj => (hall j hj).2.1, hlead.1, hlead.2.2.2,
    fun j hj => (hall j hj).2.2, ?_⟩, ⟨fun j hj => (hall j hj).1.base, hlead.2.1, hlead.2.2.1,
      fun j hj => (hall j hj).1.ahead, fun j hj => (hall j hj).1.behind,
      fun j hj => (hall j hj).1.grows⟩⟩
  · obtain ⟨hconf, hmem, _⟩ := (hall j hj).1.base
    rw [hconf, hmem]
    exact h.member j hj
  rw [hlead.2.1]
  exact hletters

section

variable {r r' : Raft} {t : Nat} {m : Msg}

lemma KeptUnder.of_same (hbase : SameBase r r') (hterm : r'.term = r.term)
    (hcommit : r'.commit = r.commit) : KeptUnder t r r' :=
  ⟨hbase, fun _ => ⟨hterm, hcommit⟩, fun hle => hterm.trans_le hle, hcommit.ge⟩

lemma KeptUnder.of_bare (hbare : bare r' = bare r) (hcommit : r'.commit = r.commit) :
    KeptUnder t r r' ∧ r'.role = r.role :=
  ⟨KeptUnder.of_same (SameBase.of_bare hbare ⟨rfl, rfl, rfl⟩) (congrArg Raft.term hbare :) hcommit,
    (congrArg Raft.role hbare :)⟩

lemma KeptUnder.of_term (hbase : SameBase r r') (hge : r.term ≤ m.term) (hle : m.term ≤ t)
    (hterm : r'.term = max r.term m.term) (hcommit : r.commit ≤ r'.commit) : KeptUnder t r r' := by
  refine ⟨hbase, fun hlt => ?_, fun _ => ?_, hcommit⟩
  · omega
  rw [hterm]
  omega

section

variable (hrole : r.role ≠ .leader) (hout : r.pending.msgs = [])

include hrole hout

omit hout in
lemma stepped_role_term : (stepped (bare r) m.term).role ≠ .leader ∧
      (stepped (bare r) m.term).term = max r.term m.term := by
  unfold stepped
  change (if r.term < m.term then _ else _ : Raft).role ≠ _ ∧
    (if r.term < m.term then _ else _ : Raft).term = _
  split
  · exact ⟨Role.noConfusion, by change m.term = _; omega⟩
  · exact ⟨hrole, by change r.term = _; omega⟩

lemma kept_vote (htype : m.type = .vote) (hle : m.term ≤ t) :
    KeptUnder t r (hear r m).2 ∧ (hear r m).2.role ≠ .leader ∧
      ∀ a ∈ (hear r m).1, a.dest = m.sender ∧ a.type = .voteResp := by
  have hcommit := hear_request_commit (f := r) (.inl htype)
  have hstep := stepped_role_term (m := m) hrole
  obtain ⟨a, hsent, hatype, hdest, _, hcase⟩ := hear_vote hout htype
  have hans : ∀ b ∈ (hear r m).1, b.dest = m.sender ∧ b.type = .voteResp := by
    rw [hsent]
    exact forall_mem_singleton.2 ⟨hdest, hatype⟩
  obtain ⟨_, _, _, hbare⟩ | ⟨hge, _, _, _, _, hbare⟩ | ⟨hge, _, _, _, hbare⟩ := hcase
  · obtain ⟨hkept, hr⟩ := KeptUnder.of_bare (t := t) hbare hcommit
    exact ⟨hkept, hr ▸ hrole, hans⟩
  all_goals
    have ht : (hear r m).2.term = (stepped (bare r) m.term).term := (congrArg Raft.term hbare :)
    have hr : (hear r m).2.role = (stepped (bare r) m.term).role := (congrArg Raft.role hbare :)
    exact ⟨KeptUnder.of_term (SameBase.of_bare hbare (sameBase_stepped m.term)) hge hle
      (ht.trans hstep.2) hcommit.ge, hr ▸ hstep.1, hans⟩

lemma kept_preVote (htype : m.type = .preVote) :
    KeptUnder t r (hear r m).2 ∧ (hear r m).2.role ≠ .leader ∧
      ∀ a ∈ (hear r m).1, a.dest = m.sender ∧ a.type = .preVoteResp := by
  obtain ⟨a, hsent, hatype, hdest, _, hbare, _⟩ := hear_preVote hout htype
  obtain ⟨hkept, hr⟩ := KeptUnder.of_bare (t := t) hbare (hear_request_commit (f := r) (.inr htype))
  refine ⟨hkept, hr ▸ hrole, ?_⟩
  rw [hsent]
  exact forall_mem_singleton.2 ⟨hdest, hatype⟩

lemma kept_heartbeat (htype : m.type = .heartbeat) (hle : m.term ≤ t) :
    KeptUnder t r (hear r m).2 ∧ (hear r m).2.role ≠ .leader ∧
      ∀ a ∈ (hear r m).1, a.dest = m.sender ∧ a.type = .heartbeatResp := by
  obtain hlt | hge := lt_or_ge m.term r.term
  · obtain ⟨hsent, hbare, hcommit⟩ := hear_heartbeat_stale hout htype hlt
    obtain ⟨hkept, hr⟩ := KeptUnder.of_bare (t := t) hbare hcommit
    refine ⟨hkept, hr ▸ hrole, ?_⟩
    rw [hsent]
    exact forall_mem_nil _
  obtain ⟨a, hsent, hatype, hdest, _, _, _, hbare, hcommit⟩ := hear_heartbeat hout htype hge
  have ht : (hear r m).2.term = m.term := (congrArg Raft.term hbare :)
  have hr : (hear r m).2.role = .follower := (congrArg Raft.role hbare :)
  refine ⟨KeptUnder.of_term (SameBase.of_bare hbare ⟨rfl, rfl, rfl⟩) hge hle
    (ht.trans (max_eq_right hge).symm) ?_, ?_, ?_⟩
  · rw [hcommit]
    exact le_max_left _ _
  · rw [hr]
    decide
  rw [hsent]
  exact forall_mem_singleton.2 ⟨hdest, hatype⟩

lemma kept_hear (htype : m.type = .vote ∨ m.type = .preVote ∨ m.type = .heartbeat)
    (hterm : m.type ≠ .preVote → m.term ≤ t) :
    KeptUnder t r (hear r m).2 ∧ (hear r m).2.role ≠ .leader ∧ ∀ a ∈ (hear r m).1, a.dest = m.sender ∧
        (a.type = .voteResp ∨ a.type = .preVoteResp ∨ a.type = .heartbeatResp) := by
  obtain htype | htype | htype := htype
  · have hle := hterm (by rw [htype]; decide)
    obtain ⟨hkept, hr, hans⟩ := kept_vote hrole hout htype hle
    exact ⟨hkept, hr, fun a ha => ⟨(hans a ha).1, .inl (hans a ha).2⟩⟩
  · obtain ⟨hkept, hr, hans⟩ := kept_preVote hrole hout htype
    exact ⟨hkept, hr, fun a ha => ⟨(hans a ha).1, .inr (.inl (hans a ha).2)⟩⟩
  have hle := hterm (by rw [htype]; decide)
  obtain ⟨hkept, hr, hans⟩ := kept_heartbeat hrole hout htype hle
  exact ⟨hkept, hr, fun a ha => ⟨(hans a ha).1, .inr (.inr (hans a ha).2)⟩⟩

end

end

lemma step_reply_of_leader {r : Raft} {m : Msg} (hrole : r.role = .leader)
    (htype : m.type = .voteResp ∨ m.type = .preVoteResp ∨ m.type = .heartbeatResp) :
    (cetcdRaftStep r m).2 = r ∨ (cetcdRaftStep r m).2.role ≠ .leader := by
  have hdown : ∀ t, (becomeFollower r t 0).role = .follower := by
    intro t
    unfold becomeFollower
    split <;> rfl
  obtain htype | htype | htype := htype
  · rw [step_voteResp htype]
    unfold handleVoteResp
    split
    · right
      change (becomeFollower r m.term 0).role ≠ _
      rw [hdown]
      decide
    left
    rw [if_pos (by rw [hrole]; decide)]
  · rw [step_preVoteResp htype]
    unfold handlePreVoteResp stepDown
    split
    · split
      · right
        change (becomeFollower r m.term 0).role ≠ _
        rw [hdown]
        decide
      · exact .inl rfl
    left
    rw [if_pos (by rw [hrole]; decide)]
  left
  unfold cetcdRaftStep
  rw [htype]

lemma Leads.deliver (h : Leads V x c) {m : Msg} (hm : m ∈ c.flight)
    (hstays : ((c.deliver m).node x).role = .leader) :
    Leads V x (c.deliver m) ∧ Keeps V x c (c.deliver m) := by
  cases h.letters m hm with
  | down type sender dest ne term =>
    rcases kept_hear (h.others m.dest dest ne) (h.out m.dest dest) type term with
      ⟨hkept, hrole, hsent⟩
    refine h.put erase_subset hkept (fun hx => absurd hx ne) (fun _ => hrole) fun a ha => ?_
    obtain ⟨hdest, htype⟩ := hsent a ha
    exact .up htype (hdest.trans sender)
  | up type dest =>
    subst dest
    rw [deliver_node_dest] at hstays
    have hsame : (cetcdRaftStep (c.node m.dest) m).2 = c.node m.dest := by
      refine (step_reply_of_leader h.role type).resolve_right fun hno => hno ?_
      exact (congrArg Raft.role (bare_flush (cetcdRaftStep (c.node m.dest) m).2) :).symm.trans hstays
    obtain ⟨hsent, hbare⟩ := hear_eq hsame
    have hcommit : (hear (c.node m.dest) m).2.commit = (c.node m.dest).commit := by
      unfold hear
      rw [hsame, flush_commit]
    refine h.put erase_subset (KeptUnder.of_bare hbare hcommit).1 (fun _ => ⟨hstays,
      (congrArg Raft.term hbare :), hcommit, h.caughtUp.of_bare hbare⟩) (fun hne => absurd rfl hne) ?_
    change ∀ a ∈ (hear (c.node m.dest) m).1, _
    rw [hsent, h.out m.dest h.voter]
    exact forall_mem_nil _

lemma Leads.length_le (h : Leads V x c) : (c.node x).mem.peers.length ≤ maxPeers :=
  Member.length_le (h.member x h.voter)

lemma Leads.tick (h : Leads V x c) {i : Nat} (hi : i ∈ V.ids) (hexp : ¬ Expires (c.node i)) :
    Leads V x (c.tick i) ∧ Keeps V x c (c.tick i) := by
  by_cases hbeat : Beats (c.node i)
  · -- only the leader beats
    have hix : i = x := by
      by_contra hne
      exact h.others i hi hne hbeat.1
    subst hix
    obtain ⟨hsent, hcommit, hup, p, hbare⟩ := tick_beat (h.out i hi) hbeat h.caughtUp h.length_le
    have ht : (flush (cetcdRaftTick (c.node i))).2.term = (c.node i).term :=
      (congrArg Raft.term hbare :)
    refine h.put (List.Subset.refl _)
      (KeptUnder.of_same (SameBase.of_bare hbare ⟨rfl, rfl, rfl⟩) ht hcommit)
      (fun _ => ⟨(congrArg Raft.role hbare :).trans h.role, ht, hcommit, hup⟩)
      (fun hne => absurd rfl hne) ?_
    rw [hsent]
    intro a ha
    obtain ⟨j, hj, rfl⟩ := mem_map.1 ha
    have hid := (h.member i hi).id
    unfold Net.others at hj
    rw [mem_filter, (h.member i hi).peers.mem_iff, decide_eq_true_iff, hid] at hj
    exact .down (.inr (.inr rfl)) hid hj.1 hj.2 (fun _ => le_rfl)
  obtain ⟨hsent, hbare, hcommit⟩ := tick_quiet (h.out i hi) hexp hbeat
  have ht : (flush (cetcdRaftTick (c.node i))).2.term = (c.node i).term :=
    (congrArg Raft.term hbare :)
  have hr : (flush (cetcdRaftTick (c.node i))).2.role = (c.node i).role :=
    (congrArg Raft.role hbare :)
  refine h.put (List.Subset.refl _)
    (KeptUnder.of_same (SameBase.of_bare hbare ⟨rfl, rfl, rfl⟩) ht hcommit) (fun hix => ?_)
    (fun hne => ?_) ?_
  · subst hix
    have hup : CaughtUp (aged (c.node i)) := ⟨h.caughtUp.compacted, h.caughtUp.next,
      h.caughtUp.noSnap⟩
    exact ⟨hr.trans h.role, ht, hcommit, hup.of_bare hbare⟩
  · rw [hr]
    exact h.others i hi hne
  rw [hsent]
  exact forall_mem_nil _

end

/-! ## Whole runs -/

section

variable {V : Voters} {x : Nat} {run : ℕ → Net} {act : ℕ → Act}

section

variable (h : Reign V x run act) (h0 : Leads V x (run 0))

include h h0

omit h0 in
lemma Reign.next {k : ℕ} (hlead : Leads V x (run k)) :
    Leads V x (run (k + 1)) ∧ Keeps V x (run k) (run (k + 1)) := by
  have hstep := h.step k
  have hstays := h.stays (k + 1)
  cases hact : act k with
  | tick i =>
    obtain ⟨hi, hexp⟩ := h.ticking k i hact
    rw [hstep, hact]
    exact hlead.tick hi hexp
  | deliver m =>
    rw [hstep, hact] at hstays ⊢
    exact hlead.deliver (h.underWay k m hact) hstays

lemma Reign.leads (k : ℕ) : Leads V x (run k) := by
  induction k with
  | zero => exact h0
  | succ k ih => exact (h.next ih).1

lemma Reign.keeps {j k : ℕ} (hjk : j ≤ k) :
    Keeps V x (run j) (run k) := by
  induction k, hjk using Nat.le_induction with
  | base => exact .refl V x (run j)
  | succ k _ ih => exact ih.trans (h.next (h.leads h0 k)).2

omit h h0 in
lemma Leads.heartbeatElapsed {c : Net} (h : Leads V x c) {a : Act} (hne : a ≠ .tick x)
    (hm : ∀ m, a = .deliver m → m ∈ c.flight) (hstays : ((c.next a).node x).role = .leader) :
    ((c.next a).node x).heartbeatElapsed = (c.node x).heartbeatElapsed := by
  cases a with
  | tick i =>
    have hix : x ≠ i := fun hxi => hne (hxi ▸ rfl)
    exact congrArg Raft.heartbeatElapsed (tick_node_of_ne hix)
  | deliver m =>
    by_cases hdest : m.dest = x
    · have hnode : (c.deliver m).node x = (hear (c.node x) m).2 := hdest ▸ deliver_node_dest
      cases h.letters m (hm m rfl) with
      | down _ _ _ ne => exact absurd hdest ne
      | up type _ =>
        have hbare := bare_flush (cetcdRaftStep (c.node x) m).2
        obtain hsame | hno := step_reply_of_leader h.role type
        · rw [hsame] at hbare
          change ((c.deliver m).node x).heartbeatElapsed = _
          rw [hnode]
          unfold hear
          rw [hsame]
          exact (congrArg Raft.heartbeatElapsed hbare :)
        refine absurd ?_ hno
        change ((c.deliver m).node x).role = _ at hstays
        rw [hnode] at hstays
        exact (congrArg Raft.role hbare :).symm.trans hstays
    · exact congrArg Raft.heartbeatElapsed (deliver_node_of_ne (Ne.symm hdest))

lemma Reign.exists_beat :
    ∃ n, act n = .tick x ∧ Beats ((run n).node x) := by
  have hconf : ∀ k, ((run k).node x).conf = ((run 0).node x).conf := fun k =>
    ((h.keeps h0 (Nat.zero_le k)).base x h0.voter).1
  have htick : ∀ k, act k = .tick x → ¬ Beats ((run k).node x) →
      ((run (k + 1)).node x).heartbeatElapsed = ((run k).node x).heartbeatElapsed + 1 := by
    intro k hact hno
    have hexp : ¬ Expires ((run k).node x) := fun he => he.1 (h.stays k)
    obtain ⟨_, hbare, _⟩ := tick_quiet ((h.leads h0 k).out x h0.voter) hexp hno
    rw [h.step k, hact]
    change (((run k).tick x).node x).heartbeatElapsed = _
    rw [tick_node_self]
    exact (congrArg Raft.heartbeatElapsed hbare :)
  have hsame : ∀ k, act k ≠ .tick x →
      ((run (k + 1)).node x).heartbeatElapsed = ((run k).node x).heartbeatElapsed := by
    intro k hact
    rw [h.step k]
    exact (h.leads h0 k).heartbeatElapsed hact (h.underWay k) (h.step k ▸ h.stays (k + 1))
  obtain ⟨n, _, hbeat⟩ := Net.exists_beat h.ticks h.stays hconf htick hsame 0
  exact ⟨n, hbeat⟩

lemma Reign.follower_commits {i : Nat} (hi : i ∈ V.ids) (hne : i ≠ x)
    (hterm : ((run 0).node i).term ≤ ((run 0).node x).term) :
    ∃ n, ∀ k, n ≤ k →
      min ((run 0).node x).commit ((run 0).node i).rlog.lastIndex ≤ ((run k).node i).commit := by
  obtain ⟨b, hact, hbeat⟩ := h.exists_beat h0
  have hlead := h.leads h0 b
  obtain ⟨hsent, _⟩ := tick_beat (hlead.out x h0.voter) hbeat hlead.caughtUp hlead.length_le
  -- the heartbeat of this beat to `i`
  have hpeer : i ∈ Net.others ((run b).node x) := by
    have hmem := hlead.member x h0.voter
    unfold Net.others
    rw [mem_filter, hmem.peers.mem_iff, decide_eq_true_iff, hmem.id]
    exact ⟨hi, hne⟩
  have hflight : heartbeatTo ((run b).node x) i ∈ (run (b + 1)).flight := by
    rw [h.step b, hact]
    change _ ∈ ((run b).tick x).flight
    rw [tick_flight, hsent]
    exact mem_append_right _ (mem_map.2 ⟨i, hpeer, rfl⟩)
  obtain ⟨n, _, hdel⟩ := h.delivered (b + 1) _ hflight
  have hkn := h.keeps h0 (Nat.zero_le n)
  have hkb := h.keeps h0 (Nat.zero_le b)
  have hle : ((run n).node i).term ≤ ((run b).node x).term := by
    rw [hkb.term]
    exact hkn.behind i hi hterm
  rcases hear_heartbeat ((h.leads h0 n).out i hi) (m := heartbeatTo ((run b).node x) i) rfl hle with
    ⟨_, _, _, _, _, _, _, _, hcommit⟩
  have hreached : ((run (n + 1)).node i).commit =
      max ((run n).node i).commit (min ((run 0).node x).commit ((run 0).node i).rlog.lastIndex) := by
    rw [h.step n, hdel]
    change (((run n).deliver _).node i).commit = _
    have hnode : ((run n).deliver (heartbeatTo ((run b).node x) i)).node i =
        (hear ((run n).node i) (heartbeatTo ((run b).node x) i)).2 := deliver_node_dest
    rw [hnode, hcommit, (hkn.base i hi).2.2, ← hkb.commit]
    rfl
  refine ⟨n + 1, fun k hk => ?_⟩
  have hgrows := (h.keeps h0 hk).grows i hi
  rw [hreached] at hgrows
  exact (le_max_right _ _).trans hgrows

end

end

/-! ## Inherited work -/

/-- Both logs end at the same index and have the same entries above their compacted parts. -/
def SameLog (l l' : RaftLog) : Prop :=
  l'.lastIndex = l.lastIndex ∧ AgreeOn l l' (max l.compacted l'.compacted + 1) l.lastIndex
  deriving Decidable

/-- Every voter has the leader's log and has committed all of it. -/
def Finished (V : Voters) (x : Nat) (c : Net) : Prop :=
  ∀ i ∈ V.ids, SameLog (c.node x).rlog (c.node i).rlog ∧
    (c.node x).rlog.lastIndex ≤ (c.node i).commit
  deriving Decidable

/-- Every log is the leader's and committed there, and no follower that lags is of a later term. -/
def NothingInherited (V : Voters) (x : Nat) (c : Net) : Prop :=
  (∀ i ∈ V.ids, SameLog (c.node x).rlog (c.node i).rlog) ∧
    (c.node x).rlog.lastIndex ≤ (c.node x).commit ∧
    ∀ i ∈ V.ids, (c.node x).rlog.lastIndex ≤ (c.node i).commit ∨ (c.node i).term ≤ (c.node x).term
  deriving Decidable

section

variable {V : Voters} {x : Nat} {run : ℕ → Net} {act : ℕ → Act}

lemma Keeps.sameLog_iff {c c' : Net} (h : Keeps V x c c') (hx : x ∈ V.ids) {i : Nat}
    (hi : i ∈ V.ids) :
    SameLog (c'.node x).rlog (c'.node i).rlog ↔ SameLog (c.node x).rlog (c.node i).rlog := by
  rw [(h.base x hx).2.2, (h.base i hi).2.2]

/-- A new leader finishes what it inherited exactly if there was nothing to finish. -/
theorem inherited_work_finishes (hrun : Reign V x run act) (h0 : Elected V x (run 0)) :
    (∃ n, ∀ k, n ≤ k → Finished V x (run k)) ↔ NothingInherited V x (run 0) := by
  have hlead := h0.leads
  have hx := h0.voter
  constructor
  · rintro ⟨n, hn⟩
    have hfin := hn n le_rfl
    have hkeep := hrun.keeps hlead (Nat.zero_le n)
    have hlast : ((run n).node x).rlog = ((run 0).node x).rlog := (hkeep.base x hx).2.2
    refine ⟨fun i hi => (hkeep.sameLog_iff hx hi).1 (hfin i hi).1, ?_, fun i hi => ?_⟩
    · have := (hfin x hx).2
      rwa [hlast, hkeep.commit] at this
    have hcommit := (hfin i hi).2
    obtain hlt | hge := lt_or_ge ((run 0).node x).term ((run 0).node i).term
    · rw [hlast, (hkeep.ahead i hi hlt).2] at hcommit
      exact .inl hcommit
    · exact .inr hge
  rintro ⟨hsame, hcommit, hfollow⟩
  have hone : ∀ i ∈ V.ids, ∃ n, ∀ k, n ≤ k →
      ((run 0).node x).rlog.lastIndex ≤ ((run k).node i).commit := by
    intro i hi
    by_cases hix : i = x
    · refine ⟨0, fun k hk => ?_⟩
      rw [hix, (hrun.keeps hlead hk).commit]
      exact hcommit
    obtain hdone | hterm := hfollow i hi
    · exact ⟨0, fun k hk => hdone.trans ((hrun.keeps hlead hk).grows i hi)⟩
    obtain ⟨n, hn⟩ := hrun.follower_commits hlead hi hix hterm
    refine ⟨n, fun k hk => le_trans ?_ (hn k hk)⟩
    rw [(hsame i hi).1]
    exact le_min hcommit le_rfl
  -- the last voter to get there
  choose! reached hreached using hone
  refine ⟨V.ids.toFinset.sup reached, fun k hk i hi => ?_⟩
  have hkeep := hrun.keeps hlead (Nat.zero_le k)
  refine ⟨(hkeep.sameLog_iff hx hi).2 (hsame i hi), ?_⟩
  rw [(hkeep.base x hx).2.2]
  exact hreached i hi k ((Finset.le_sup (mem_toFinset.2 hi)).trans hk)

end

/-! ## Two voters with one inherited entry -/

/-- The schedule that delivers the oldest message, or lets `x` tick if there is none. -/
def oldest (x : Nat) (c : Net) : Act :=
  match c.flight with
  | [] => .tick x
  | m :: _ => .deliver m

def follow (x : Nat) (c : Net) : ℕ → Net
  | 0 => c
  | k + 1 => (follow x c k).next (oldest x (follow x c k))

lemma oldest_delivers (x : Nat) (c : Net) {k : ℕ} {m : Msg} (hm : m ∈ (follow x c k).flight) :
    ∃ n, k ≤ n ∧ oldest x (follow x c n) = .deliver m := by
  have hstep : ∀ k, ∃ new, (follow x c (k + 1)).flight = (follow x c k).flight.tail ++ new := by
    intro k
    cases hflight : (follow x c k).flight with
    | nil => exact ⟨_, (nil_append _).symm⟩
    | cons a rest =>
      refine ⟨(hear ((follow x c k).node a.dest) a).1, ?_⟩
      have hact : oldest x (follow x c k) = .deliver a := by
        unfold oldest
        rw [hflight]
      change ((follow x c k).next (oldest x (follow x c k))).flight = _
      rw [hact]
      change ((follow x c k).deliver a).flight = _
      rw [deliver_flight, hflight, erase_cons_head]
      rfl
  rcases exists_taken (fun k => (follow x c k).flight) (fun _ => true) hstep
    (fun k => ⟨k, le_rfl, rfl⟩) hm with ⟨n, hn, _, hhead⟩
  refine ⟨n, hn, ?_⟩
  obtain ⟨rest, hflight⟩ := head?_eq_some_iff.1 hhead
  unfold oldest
  rw [hflight]

def oneEntry : RaftLog :=
  logAppend { log := ZeroArray.empty, lastIndex := 0, lastTerm := 0, compacted := 0 }
    { term := 1, index := 1 }

/-- Node 1, leader of term 2 since `e` ticks. -/
def heir (commit e : Nat) : Raft :=
  { becomeLeader
      { freshVoter 1 with term := 2, vote := 1, votesGranted := [1, 2], rlog := oneEntry } with
    commit := commit
    applied := commit
    elapsedTicks := e }

def heirFollower (commit : Nat) : Raft :=
  { freshVoter 2 with
    term := 2
    vote := 1
    leaderId := 1
    commit := commit
    applied := commit
    rlog := oneEntry }

def heirNet (k₁ k₂ e : Nat) (flight : List Msg) : Net :=
  { node := fun i => if i = 1 then heir k₁ e else if i = 2 then heirFollower k₂ else freshVoter i
    flight := flight }

def heirBeat (k₁ : Nat) : Msg := heartbeatTo (heir k₁ 0) 2

def heirAnswer : Msg := { type := .heartbeatResp, dest := 1, sender := 2, term := 2 }

/-- At rest, with the heartbeat under way, with its answer under way. -/
inductive HeirState (k₁ : Nat) : Net → Prop
  | rest (k₂ e : Nat) : k₂ ≤ k₁ → HeirState k₁ (heirNet k₁ k₂ e [])
  | beat (k₂ e : Nat) : k₂ ≤ k₁ → HeirState k₁ (heirNet k₁ k₂ e [heirBeat k₁])
  | answer (k₂ e : Nat) : k₂ ≤ k₁ → HeirState k₁ (heirNet k₁ k₂ e [heirAnswer])

lemma update_heirNet_one (k₁ k₂ e e' : Nat) (fl fl' : List Msg) :
    (⟨Function.update (heirNet k₁ k₂ e fl).node 1 (heir k₁ e'), fl'⟩ : Net) =
      heirNet k₁ k₂ e' fl' := by
  unfold heirNet
  congr 1
  funext i
  by_cases hi : i = 1
  · subst hi
    simp
  · simp [hi]

lemma update_heirNet_two (k₁ k₂ k₂' e : Nat) (fl fl' : List Msg) :
    (⟨Function.update (heirNet k₁ k₂ e fl).node 2 (heirFollower k₂'), fl'⟩ : Net) =
      heirNet k₁ k₂' e fl' := by
  unfold heirNet
  congr 1
  funext i
  by_cases hi : i = 2
  · subst hi
    simp
  · simp [hi]

section

variable {k₁ : Nat} (hk₁ : k₁ ≤ 1) {c : Net}

include hk₁

lemma heirNet_tick (k₂ e : Nat) :
    (heirNet k₁ k₂ e []).tick 1 = heirNet k₁ k₂ (e + 1) [heirBeat k₁] := by
  have htick : flush (cetcdRaftTick ((heirNet k₁ k₂ e []).node 1)) =
      ([heirBeat k₁], heir k₁ (e + 1)) := by
    interval_cases k₁ <;> rfl
  unfold Net.tick Net.put
  rw [htick]
  exact update_heirNet_one k₁ k₂ e (e + 1) [] [heirBeat k₁]

lemma heirNet_beat {k₂ : Nat} (hk : k₂ ≤ k₁) (e : Nat) :
    (heirNet k₁ k₂ e [heirBeat k₁]).deliver (heirBeat k₁) = heirNet k₁ k₁ e [heirAnswer] := by
  have hhear : flush (cetcdRaftStep ((heirNet k₁ k₂ e [heirBeat k₁]).node (heirBeat k₁).dest)
      (heirBeat k₁)).2 = ([heirAnswer], heirFollower k₁) := by
    interval_cases k₁ <;> interval_cases k₂ <;> rfl
  unfold Net.deliver Net.put
  rw [hhear]
  dsimp only [heirNet]
  rw [erase_cons_head]
  exact update_heirNet_two k₁ k₂ k₁ e [heirBeat k₁] [heirAnswer]

lemma heirNet_answer (k₂ e : Nat) :
    (heirNet k₁ k₂ e [heirAnswer]).deliver heirAnswer = heirNet k₁ k₂ e [] := by
  have hhear : flush (cetcdRaftStep ((heirNet k₁ k₂ e [heirAnswer]).node heirAnswer.dest)
      heirAnswer).2 = ([], heir k₁ e) := by
    interval_cases k₁ <;> rfl
  unfold Net.deliver Net.put
  rw [hhear]
  dsimp only [heirNet]
  rw [erase_cons_head]
  exact update_heirNet_one k₁ k₂ e e [heirAnswer] []

lemma HeirState.next (h : HeirState k₁ c) : HeirState k₁ (c.next (oldest 1 c)) := by
  cases h with
  | rest k₂ e hk =>
    change HeirState k₁ ((heirNet k₁ k₂ e []).tick 1)
    rw [heirNet_tick hk₁]
    exact .beat k₂ (e + 1) hk
  | beat k₂ e hk =>
    change HeirState k₁ ((heirNet k₁ k₂ e [heirBeat k₁]).deliver (heirBeat k₁))
    rw [heirNet_beat hk₁ hk]
    exact .answer k₁ e le_rfl
  | answer k₂ e hk =>
    change HeirState k₁ ((heirNet k₁ k₂ e [heirAnswer]).deliver heirAnswer)
    rw [heirNet_answer hk₁]
    exact .rest k₂ e hk

lemma heirState_follow (h : HeirState k₁ c) (k : ℕ) : HeirState k₁ (follow 1 c k) := by
  induction k with
  | zero => exact h
  | succ k ih => exact ih.next hk₁

omit hk₁ in
lemma HeirState.leader (h : HeirState k₁ c) : ∃ e, c.node 1 = heir k₁ e := by
  cases h with
  | rest _ e | beat _ e | answer _ e => exact ⟨e, rfl⟩

lemma reign_follow (h : HeirState k₁ c) :
    Reign two 1 (follow 1 c) (fun k => oldest 1 (follow 1 c k)) := by
  have hall := heirState_follow hk₁ h
  have hstays : ∀ k, ((follow 1 c k).node 1).role = .leader := by
    intro k
    obtain ⟨e, he⟩ := (hall k).leader
    rw [he]
    rfl
  refine ⟨fun _ => rfl, ?_, ?_, hstays, ?_, ?_⟩
  · intro k i hact
    unfold oldest at hact
    split at hact
    · cases hact
      exact ⟨by decide, fun he => he.1 (hstays k)⟩
    · cases hact
  · intro k m hact
    unfold oldest at hact
    split at hact
    · cases hact
    rename_i hflight
    cases hact
    rw [hflight]
    exact mem_cons_self
  · -- at most two deliveries lie before the next tick
    intro k
    have hrest : ∀ n k₂ e, follow 1 c n = heirNet k₁ k₂ e [] → oldest 1 (follow 1 c n) = .tick 1 := by
      intro n k₂ e heq
      rw [heq]
      rfl
    have hlast : ∀ n k₂ e, follow 1 c n = heirNet k₁ k₂ e [heirAnswer] →
        oldest 1 (follow 1 c (n + 1)) = .tick 1 := by
      intro n k₂ e heq
      have hempty : (follow 1 c (n + 1)).flight = [] := by
        change ((follow 1 c n).next (oldest 1 (follow 1 c n))).flight = []
        rw [heq]
        exact congrArg Net.flight (heirNet_answer hk₁ k₂ e)
      unfold oldest
      rw [hempty]
    have hk := hall k
    generalize hc : follow 1 c k = d at hk
    cases hk with
    | rest k₂ e _ => exact ⟨k, le_rfl, hrest k k₂ e hc⟩
    | answer k₂ e _ => exact ⟨k + 1, by omega, hlast k k₂ e hc⟩
    | beat k₂ e hk =>
      have hone : follow 1 c (k + 1) = heirNet k₁ k₁ e [heirAnswer] := by
        change (follow 1 c k).next (oldest 1 (follow 1 c k)) = _
        rw [hc]
        exact heirNet_beat hk₁ hk e
      exact ⟨k + 2, by omega, hlast (k + 1) k₁ e hone⟩
  intro k m hm
  exact oldest_delivers 1 c hm

end

lemma elected_heirNet (k₁ k₂ : Nat) : Elected two 1 (heirNet k₁ k₂ 0 []) where
  voter := by decide
  member := by
    intro i hi
    have hfit := (fit_freshVoter hi).member
    obtain rfl | rfl := mem_twoSetting hi
    all_goals exact hfit
  out := by
    intro i hi
    rcases mem_twoSetting hi with rfl | rfl <;> rfl
  new := ⟨{ freshVoter 1 with term := 2, vote := 1, votesGranted := [1, 2], rlog := oneEntry }, rfl⟩
  compacted := zero_le
  others := by
    intro i hi hne
    obtain rfl | rfl := mem_twoSetting hi
    · exact absurd rfl hne
    · exact Role.noConfusion
  letters := forall_mem_nil _

/-- The follower has the leader's entry but does not know that it is committed: it learns it. -/
theorem inherited_work_finishes_two :
    ∃ run act, run 0 = heirNet 1 0 0 [] ∧ Reign two 1 run act ∧ Elected two 1 (run 0) ∧
      ∃ n, ∀ k, n ≤ k → Finished two 1 (run k) := by
  have hstate : HeirState 1 (heirNet 1 0 0 []) := .rest 0 0 (Nat.zero_le 1)
  have hrun := reign_follow le_rfl hstate
  have h0 : Elected two 1 (follow 1 (heirNet 1 0 0 []) 0) := elected_heirNet 1 0
  exact ⟨_, _, rfl, hrun, h0, (inherited_work_finishes hrun h0).2 (by decide)⟩

/-- Both voters have the entry of the earlier term, uncommitted: it stays uncommitted forever. -/
theorem inherited_work_never_finishes :
    ∃ run act, run 0 = heirNet 0 0 0 [] ∧ Reign two 1 run act ∧ Elected two 1 (run 0) ∧
      ∀ k, ¬ Finished two 1 (run k) := by
  have hstart : HeirState 0 (heirNet 0 0 0 []) := .rest 0 0 le_rfl
  refine ⟨_, _, rfl, reign_follow (Nat.zero_le 1) hstart, elected_heirNet 0 0, fun k hfin => ?_⟩
  obtain ⟨e, he⟩ := (heirState_follow (Nat.zero_le 1) hstart k).leader
  have hcommit := (hfin 1 (by decide)).2
  rw [he] at hcommit
  exact absurd hcommit (by change ¬ (1 ≤ 0); decide)

end Cetcd.Net
