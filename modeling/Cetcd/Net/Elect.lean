import Cetcd.Cluster.Replay
import Cetcd.Lib.Progress
import Cetcd.Net.Race

/-!
# Elections that succeed

All voters are up, tick at the same rate and have every message before the next tick. If no two
election timers expire in one round, a campaign makes a leader that everyone follows for good
(`Led`), or raises the term of a node that was behind, or was held back by a lease about to run out;
so some campaign succeeds.
-/

namespace Cetcd.Net

open Lib Raft Protocol List

/-! ## The states between rounds -/

/-- Nobody leads and nothing is under way. -/
structure Idle (S : Setting) (c : Net) : Prop where
  fit : ∀ i ∈ S.voters.ids, Fit S i (c.node i)
  role : ∀ i ∈ S.voters.ids, (c.node i).role ≠ .leader
  quiet : c.flight = []

/-- Everyone follows `x`, and no follower has waited longer than `x` since its last heartbeat. -/
structure Led (S : Setting) (x : Nat) (c : Net) : Prop where
  fit : ∀ i ∈ S.voters.ids, Fit S i (c.node i)
  quiet : c.flight = []
  voter : x ∈ S.voters.ids
  role : (c.node x).role = .leader
  caughtUp : CaughtUp (c.node x)
  waited : (c.node x).heartbeatElapsed < (c.node x).conf.heartbeatTimeout
  others : ∀ y ∈ S.voters.ids, y ≠ x → (c.node y).role = .follower ∧
    (c.node y).term = (c.node x).term ∧ (c.node y).elapsedTicks ≤ (c.node x).heartbeatElapsed

/-- No two election timers expire at the next tick. -/
def OneExpires (V : Voters) (c : Net) : Prop :=
  ∀ i ∈ V.ids, ∀ j ∈ V.ids, Expires (c.node i) → Expires (c.node j) → i = j
  deriving Decidable

/-- A leader that ticks again and again comes to a beat: each tick before brings it nearer. -/
lemma exists_beat {f : ℕ → Raft} {P : ℕ → Prop} (hticks : ∀ k, ∃ n, k ≤ n ∧ P n)
    (hrole : ∀ k, (f k).role = .leader) (hconf : ∀ k, (f k).conf = (f 0).conf)
    (hage : ∀ k, P k → ¬ Beats (f k) → (f (k + 1)).heartbeatElapsed = (f k).heartbeatElapsed + 1)
    (hsame : ∀ k, ¬ P k → (f (k + 1)).heartbeatElapsed = (f k).heartbeatElapsed) (k₀ : ℕ) :
    ∃ n, k₀ ≤ n ∧ P n ∧ Beats (f n) := by
  have hgoal : ∃ n, P (k₀ + n) ∧ Beats (f (k₀ + n)) := by
    refine exists_of_recurring_drop
      (fun k => (f 0).conf.heartbeatTimeout - (f (k₀ + k)).heartbeatElapsed)
      (fun k => P (k₀ + k) ∧ Beats (f (k₀ + k))) (fun k hno => ?_) (fun k => ?_)
    · rw [← add_assoc]
      by_cases hact : P (k₀ + k)
      · have := hage _ hact fun hb => hno ⟨hact, hb⟩
        omega
      · rw [hsame _ hact]
    obtain ⟨n, hkn, hact⟩ := hticks (k₀ + k)
    obtain ⟨j, rfl⟩ := Nat.exists_eq_add_of_le (show k₀ ≤ n by omega)
    refine ⟨j, by omega, ?_⟩
    by_cases hb : Beats (f (k₀ + j))
    · exact .inl ⟨hact, hb⟩
    have hstep := hage _ hact hb
    have hwait : ¬ (f (k₀ + j)).conf.heartbeatTimeout ≤ (f (k₀ + j)).heartbeatElapsed + 1 :=
      fun hle => hb ⟨hrole _, hle⟩
    rw [hconf] at hwait
    rw [← add_assoc]
    exact .inr (by omega)
  obtain ⟨n, hbeat⟩ := hgoal
  exact ⟨k₀ + n, by omega, hbeat⟩

section

variable {S : Setting} {x : Nat} {c c' : Net} {m : Msg} {t y : Nat} {c₀ : Net}

lemma Setting.exists_other (S : Setting) (x : Nat) : ∃ y ∈ S.voters.ids, y ≠ x := by
  by_contra hno
  have hall : ∀ y ∈ S.voters.ids, y = x := by
    intro y hy
    by_contra hyx
    exact hno ⟨y, hy, hyx⟩
  have hcount : S.voters.ids.count x = S.voters.ids.length :=
    count_eq_length.2 fun y hy => (hall y hy).symm
  have hone := nodup_iff_count_le_one.1 S.voters.nodup x
  have := S.two
  omega

lemma Round.eq_tickAll (h : Round S.voters c c') (hempty : (S.tick c).flight = []) :
    c' = c.tickAll S.voters := by
  obtain heq | ⟨d, ⟨m, hm, _⟩, _⟩ := Relation.ReflTransGen.cases_head h.1
  · exact heq.symm
  rw [hempty] at hm
  cases hm

lemma tickAll_quiet {i : Nat} (hi : i ∈ S.ids) (h : Fit S i (c.node i))
    (hexp : ¬ Expires (c.node i)) (hbeat : ¬ Beats (c.node i)) :
    (flush (cetcdRaftTick (c.node i))).1 = [] ∧
      bare ((S.tick c).node i) = aged (bare (c.node i)) ∧
      Fit S i ((S.tick c).node i) := by
  obtain ⟨hout, hbare, _⟩ := tick_quiet h.out hexp hbeat
  rw [tickAll_node hi]
  exact ⟨hout, hbare, h.tick hbare ⟨rfl, rfl, rfl⟩⟩

lemma mem_tickAll_of_quiet (hx : x ∈ S.ids) (hquiet : c.flight = [])
    (hout : ∀ y ∈ S.ids, y ≠ x → (flush (cetcdRaftTick (c.node y))).1 = []) :
    m ∈ (S.tick c).flight ↔ m ∈ (flush (cetcdRaftTick (c.node x))).1 := by
  rw [mem_tickAll_flight, hquiet]
  constructor
  · rintro (hm | ⟨i, hi, hm⟩)
    · cases hm
    by_cases hix : i = x
    · exact hix ▸ hm
    rw [hout i hi hix] at hm
    cases hm
  intro hm
  exact .inr ⟨x, hx, hm⟩

/-! ## Rounds under a leader -/

lemma Race.stays_leader (h : Race S x t t c₀ c) (hx : x ∈ S.ids) (hm : m ∈ c.flight)
    (hrole : (c.node x).role = .leader) : ((c.deliver m).node x).role = .leader := by
  by_cases hdest : m.dest = x
  · have hterm := (h.lead hrole).term
    rw [deliver_node_x hdest]
    have hnocount : ¬ Counts (c.node x) m := by
      rintro ⟨_, ⟨_, hr⟩ | ⟨_, hr⟩⟩ <;> rw [hrole] at hr <;> cases hr
    cases (h.letters m hm).reaction hdest (h.fit x hx) with
    | same _ _ node => exact (congrArg Raft.role node :).trans hrole
    | demoted _ later =>
      have := ((h.letters m hm).reply_of_dest hdest).2.2.2
      omega
    | counted why | runs why | leads why => exact absurd why hnocount
  rw [deliver_node_of_ne (Ne.symm hdest)]
  exact hrole

lemma Led.others_quiet (h : Led S x c) (hy : y ∈ S.ids) (hyx : y ≠ x) :
    ¬ Expires (c.node y) ∧ ¬ Beats (c.node y) := by
  obtain ⟨hrole, _, hle⟩ := h.others y hy hyx
  have hx := h.fit x h.voter
  have hyf := h.fit y hy
  refine ⟨?_, ?_⟩
  · rintro ⟨_, hexp⟩
    have h1 := h.waited
    have h2 := hx.slack
    have h3 := hyf.timeout
    omega
  rintro ⟨hlead, _⟩
  rw [hrole] at hlead
  cases hlead

lemma Led.oneExpires (h : Led S x c) : OneExpires S.voters c := by
  intro i hi j hj hexp _
  by_cases hix : i = x
  · exact absurd (hix ▸ h.role) hexp.1
  · exact absurd hexp (h.others_quiet hi hix).1

lemma Led.others_tick (h : Led S x c) (y : Nat) (hy : y ∈ S.ids) (hyx : y ≠ x) :
    (flush (cetcdRaftTick (c.node y))).1 = [] ∧
      bare ((S.tick c).node y) = aged (bare (c.node y)) ∧
      Fit S y ((S.tick c).node y) :=
  tickAll_quiet hy (h.fit y hy) (h.others_quiet hy hyx).1 (h.others_quiet hy hyx).2

/-- What the heartbeats of the leader of `c` can lead to. -/
def Beating (S : Setting) (x : Nat) (c d : Net) : Prop :=
  Race S x (c.node x).term (c.node x).term (c.tickAll S.voters) d ∧ (d.node x).role = .leader

lemma Led.race (h : Led S x c) (hbeat : Beats (c.node x)) :
    Beating S x c (S.tick c) := by
  have hfx := h.fit x h.voter
  obtain ⟨hout, _, hup, p, hbare⟩ := tick_beat hfx.out hbeat h.caughtUp hfx.peers_length
  have hoth := h.others_tick
  have hnode := tickAll_node h.voter c
  have hmem : ∀ m, m ∈ (S.tick c).flight ↔ _ := fun m =>
    mem_tickAll_of_quiet (m := m) h.voter h.quiet fun y hy hyx => (hoth y hy hyx).1
  have hrole : ((S.tick c).node x).role = .leader := by
    rw [hnode]
    exact (congrArg Raft.role hbare :).trans h.role
  have hterm : ((S.tick c).node x).term = (c.node x).term := by
    rw [hnode]
    exact (congrArg Raft.term hbare :)
  have hyterm : ∀ y ∈ S.ids, y ≠ x →
      ((S.tick c).node y).term = (c.node x).term := fun y hy hyx =>
    (congrArg Raft.term (hoth y hy hyx).2.1 :).trans (h.others y hy hyx).2.1
  refine ⟨?_, hrole⟩
  exact
    { fit := by
        intro i hi
        by_cases hix : i = x
        · subst hix
          rw [hnode]
          exact hfx.tick hbare ⟨rfl, rfl, rfl⟩
        · exact (hoth i hi hix).2.2
      letters := by
        intro m hm
        rw [hmem, hout] at hm
        obtain ⟨y, hy, rfl⟩ := mem_map.1 hm
        obtain ⟨hyV, hyx⟩ := hfx.mem_others.1 hy
        exact .beat rfl hfx.member.id hyV hyx rfl
      role := by
        intro y hy hyx
        have hr : ((S.tick c).node y).role = (c.node y).role :=
          (congrArg Raft.role (hoth y hy hyx).2.1 :)
        rw [hr, (h.others y hy hyx).1]
        decide
      term := fun y _ _ => .inl rfl
      bounded := hterm.le
      pre := other_role hrole (by decide)
      cand := other_role hrole (by decide)
      lead := fun _ =>
        { term := hterm
          fresh := by
            rw [hnode]
            exact (congrArg Raft.heartbeatElapsed hbare :)
          caughtUp := by
            rw [hnode]
            exact hup
          told := by
            intro y hy hyx _
            refine .inl ⟨heartbeatTo (c.node x) y, ?_, rfl, rfl⟩
            rw [hmem, hout]
            exact mem_map_of_mem (hfx.mem_others.2 ⟨hy, hyx⟩) }
      lost := other_role hrole (by decide)
      high := by
        intro y hy hyx hlt
        rw [hyterm y hy hyx] at hlt
        exact absurd hlt (lt_irrefl _)
      sure := by
        intro hall
        obtain ⟨y, hy, hyx⟩ := S.exists_other x
        have hlt := hall y hy hyx
        rw [hyterm y hy hyx] at hlt
        exact absurd hlt (lt_irrefl _) }

lemma Race.led {bound : Nat} (h : Race S x t bound c₀ c) (hx : x ∈ S.ids)
    (hempty : c.flight = []) (hrole : (c.node x).role = .leader) (hlead : LeadStage S x t c₀ c)
    (hset : ∀ y ∈ S.ids, y ≠ x → Settled t (c.node y)) : Led S x c where
  fit := h.fit
  quiet := hempty
  voter := hx
  role := hrole
  caughtUp := hlead.caughtUp
  waited := by
    rw [hlead.fresh]
    exact (h.fit x hx).beat
  others := by
    intro y hy hyx
    obtain ⟨h1, h2, h3⟩ := hset y hy hyx
    refine ⟨h1, h2.trans hlead.term.symm, ?_⟩
    rw [h3]
    exact zero_le

lemma aged_fields {r r' : Raft} (h : bare r' = aged (bare r)) :
    r'.term = r.term ∧ r'.leaderId = r.leaderId ∧ r'.elapsedTicks = r.elapsedTicks + 1 :=
  ⟨(congrArg Raft.term h :), (congrArg Raft.leaderId h :), (congrArg Raft.elapsedTicks h :)⟩

lemma Beating.deliver {d : Net} (hd : Beating S x c d) (h : Led S x c) (hm : m ∈ d.flight) :
    Beating S x c (d.deliver m) := by
  refine ⟨hd.1.deliver h.voter ⟨le_rfl, fun y hy hyx => ?_⟩ hm, hd.1.stays_leader h.voter hm hd.2⟩
  exact ((aged_fields (h.others_tick y hy hyx).2.1).1.trans (h.others y hy hyx).2.1).le

lemma Led.flight_tickAll (h : Led S x c) (hbeat : ¬ Beats (c.node x)) :
    (S.tick c).flight = [] := by
  have hx := h.voter
  have hout := (tickAll_quiet hx (h.fit x hx) (fun he => he.1 h.role) hbeat).1
  refine eq_nil_iff_forall_not_mem.2 fun m hm => ?_
  rw [mem_tickAll_of_quiet hx h.quiet fun y hy hyx => (h.others_tick y hy hyx).1, hout] at hm
  cases hm

lemma Led.round (h : Led S x c) (hround : Round S.voters c c') : Led S x c' := by
  have hx := h.voter
  have hoth := h.others_tick
  by_cases hbeat : Beats (c.node x)
  · -- the race goes on until nothing is under way, and the leader is never demoted
    have hend : Beating S x c c' := hround.induct (h.race hbeat) fun _ _ hd => hd.deliver h
    obtain ⟨_, hlead, hset⟩ | ⟨hno, _⟩ | ⟨hno, _⟩ := hend.1.outcome hx hround.2
    · exact hend.1.led hx hround.2 hend.2 hlead hset
    all_goals exact absurd hend.2 hno
  obtain ⟨_, hbare, hfit⟩ := tickAll_quiet hx (h.fit x hx) (fun he => he.1 h.role) hbeat
  have hempty := h.flight_tickAll hbeat
  rw [hround.eq_tickAll hempty]
  have hbeatx : ((c.tickAll S.voters).node x).heartbeatElapsed =
      (c.node x).heartbeatElapsed + 1 := (congrArg Raft.heartbeatElapsed hbare :)
  have hconf : ((c.tickAll S.voters).node x).conf = (c.node x).conf :=
    (congrArg Raft.conf hbare :)
  have hlt : (c.node x).heartbeatElapsed + 1 < (c.node x).conf.heartbeatTimeout := by
    by_contra hge
    exact hbeat ⟨h.role, by omega⟩
  refine ⟨?_, hempty, hx, (congrArg Raft.role hbare :).trans h.role, ?_, ?_, ?_⟩
  · intro i hi
    by_cases hix : i = x
    · exact hix ▸ hfit
    · exact (hoth i hi hix).2.2
  · exact CaughtUp.of_bare (r := aged (c.node x))
      ⟨h.caughtUp.compacted, h.caughtUp.next, h.caughtUp.noSnap⟩ hbare
  · rw [hbeatx, hconf]
    exact hlt
  intro y hy hyx
  obtain ⟨h1, h2, h3⟩ := h.others y hy hyx
  have hb : bare ((c.tickAll S.voters).node y) = _ := (hoth y hy hyx).2.1
  obtain ⟨hty, _, helapsed⟩ := aged_fields hb
  exact ⟨(congrArg Raft.role hb :).trans h1, by rw [hty, (aged_fields hbare).1]; exact h2, by omega⟩

/-- Under a leader every delivery lowers the load: requests are answered once, answers not at
all. -/
lemma Race.load_lt (h : Race S x t t c₀ c) (hx : x ∈ S.ids) (hm : m ∈ c.flight)
    (hrole : (c.node x).role = .leader) : load (c.deliver m) < load c := by
  have hl := h.letters m hm
  have hpos : 0 < weight m := by
    unfold weight
    split <;> decide
  refine load_deliver hm ?_
  by_cases hdest : m.dest = x
  · have hterm := (h.lead hrole).term
    have hnocount : ¬ Counts (c.node x) m := by
      rintro ⟨_, ⟨_, hr⟩ | ⟨_, hr⟩⟩ <;> rw [hrole] at hr <;> cases hr
    rw [hdest]
    cases hl.reaction hdest (h.fit x hx) with
    | same _ sent | demoted _ _ sent | counted _ _ sent =>
      rw [sent]
      exact hpos
    | runs why | leads why => exact absurd why hnocount
  have hV : m.dest ∈ S.ids := hl.dest_mem hdest
  have hans := hl.answer hdest (h.fit m.dest hV)
  have htwo : weight m = 2 := by
    unfold weight
    cases hl with
    | ask type => rcases type with htype | htype <;> rw [htype]
    | beat type => rw [type]
    | reply _ dest => exact absurd dest hdest
  have hlen := hans.sent
  have hreplies := hans.replies
  generalize (hear (c.node m.dest) m).1 = out at hlen hreplies
  rw [htwo]
  match out with
  | [] => exact Nat.zero_lt_two
  | [a] =>
    have hone : weight a = 1 := by
      unfold weight
      rcases (hreplies a mem_cons_self).1 with htype | htype | htype <;> rw [htype]
    simp [hone]
  | _ :: _ :: _ => simp at hlen

lemma Led.exists_round (h : Led S x c) : ∃ c', Round S.voters c c' := by
  by_cases hbeat : Beats (c.node x)
  · obtain ⟨n, hempty, _⟩ := exists_drain (P := Beating S x c)
      (fun d m hd hm => ⟨hd.deliver h hm, hd.1.load_lt h.voter hm hd.2⟩) (h.race hbeat)
    exact ⟨_, round_drain hempty⟩
  · exact ⟨c.tickAll S.voters, .refl, h.flight_tickAll hbeat⟩

/-! ## Rounds without a leader -/

lemma Idle.tickAll_other (h : Idle S c) (hy : y ∈ S.ids) (hexp : ¬ Expires (c.node y)) :
    (flush (cetcdRaftTick (c.node y))).1 = [] ∧
      bare ((S.tick c).node y) = aged (bare (c.node y)) ∧
      Fit S y ((S.tick c).node y) :=
  tickAll_quiet hy (h.fit y hy) hexp fun hb => h.role y hy hb.1

lemma Fit.own_ballot {r b : Raft} (h : Fit S x r) (hx : x ∈ S.ids) (hbase : SameBase r b)
    (hvotes : b.votesGranted = [r.conf.id]) :
    voteQuorumOk b = false ∧ Ballot S x b.votesGranted := by
  rw [h.member.id] at hvotes
  refine ⟨h.not_quorum_self hbase hvotes, ?_⟩
  rw [hvotes]
  exact Ballot.own_vote hx

/-- Every other voter has been asked for a vote of type `typ`, and nothing else is under way. -/
structure Opened (S : Setting) (x t bound : Nat) (typ : MsgType) (c : Net) : Prop where
  fit : ∀ i ∈ S.voters.ids, Fit S i (c.node i)
  role : ∀ y ∈ S.voters.ids, y ≠ x → (c.node y).role ≠ .leader
  letters : ∀ m ∈ c.flight, Letter S x t bound m ∧ m.type = typ ∧ m.term = t ∧ m.reject = 0
  asked : ∀ y ∈ S.voters.ids, y ≠ x → Asked c typ y
  few : voteQuorumOk (c.node x) = false
  ballot : Ballot S x (c.node x).votesGranted

/-- A campaign that has just been opened is a race, for votes or for pre-votes. -/
lemma Opened.race {bound : Nat} {typ : MsgType} (h : Opened S x t bound typ c)
    (hstage : (c.node x).role = .candidate ∧ typ = .vote ∧ (c.node x).term = t ∨
      (c.node x).role = .preCandidate ∧ typ = .preVote ∧ PreStage S x t c c)
    (hbound : (c.node x).term ≤ bound) : Race S x t bound c c := by
  have hrole : (c.node x).role ≠ .follower ∧ (c.node x).role ≠ .leader := by
    obtain ⟨hr, _⟩ | ⟨hr, _⟩ := hstage <;> rw [hr] <;> decide
  refine
    { fit := h.fit
      letters := fun m hm => (h.letters m hm).1
      role := h.role
      term := fun _ _ _ => .inl rfl
      bounded := hbound
      pre := fun hr => ?_
      cand := fun hr => ?_
      lead := fun hr => absurd hr hrole.2
      lost := fun hr => absurd hr hrole.1
      high := fun y hy hyx _ => ?_
      sure := fun hall => ⟨hrole.1, fun y hy hyx => .inl (hall y hy hyx), fun hr y hy hyx => ?_,
        fun m hm => (h.letters m hm).2.2.1.le,
        fun _ m hm hrej => absurd (h.letters m hm).2.2.2 hrej⟩ } <;>
    obtain ⟨hr', rfl, hst⟩ | ⟨hr', rfl, hst⟩ := hstage
  · exact other_role hr' (by decide) hr
  · exact hst
  · exact ⟨hst, h.few, h.ballot⟩
  · exact other_role hr' (by decide) hr
  · exact .inl (h.asked y hy hyx)
  · exact .inr (.inl (h.asked y hy hyx))
  · exact .inl (h.asked y hy hyx)
  · exact other_role hr' (by decide) hr

section

variable (h : Idle S c) (hx : x ∈ S.ids) (hexp : Expires (c.node x))
  (hone : ∀ y ∈ S.ids, y ≠ x → ¬ Expires (c.node y)) {bound : Nat}

include h hx hone in
lemma Idle.opened {typ : MsgType} {b : Raft} (htyp : typ = .vote ∨ typ = .preVote)
    (hout : (flush (cetcdRaftTick (c.node x))).1 =
      (Net.others (c.node x)).map (requestTo (c.node x) typ ((c.node x).term + 1)))
    (hbare : bare (flush (cetcdRaftTick (c.node x))).2 = b) (hbase : SameBase (c.node x) b)
    (hvotes : b.votesGranted = [(c.node x).conf.id]) :
    Opened S x ((c.node x).term + 1) bound typ (S.tick c) := by
  have hfx := h.fit x hx
  have hoth : ∀ y ∈ S.ids, y ≠ x → _ := fun y hy hyx => h.tickAll_other hy (hone y hy hyx)
  have hnode := tickAll_node hx c
  have hmem : ∀ m, m ∈ (S.tick c).flight ↔ _ := fun m =>
    mem_tickAll_of_quiet (m := m) hx h.quiet fun y hy hyx => (hoth y hy hyx).1
  have hown : voteQuorumOk ((S.tick c).node x) = false ∧
      Ballot S x ((S.tick c).node x).votesGranted := by
    rw [hnode]
    refine hfx.own_ballot hx (SameBase.of_bare hbare hbase) (Eq.trans ?_ hvotes)
    exact (congrArg Raft.votesGranted hbare :)
  refine ⟨fun i hi => ?_, fun y hy hyx => ?_, fun m hm => ?_, fun y hy hyx => ?_, hown.1, hown.2⟩
  · by_cases hix : i = x
    · subst hix
      rw [hnode]
      exact hfx.tick hbare hbase
    · exact (hoth i hi hix).2.2
  · have hr : ((S.tick c).node y).role = (c.node y).role :=
      (congrArg Raft.role (hoth y hy hyx).2.1 :)
    rw [hr]
    exact h.role y hy
  · rw [hmem, hout] at hm
    obtain ⟨y, hy, rfl⟩ := mem_map.1 hm
    obtain ⟨hyV, hyx⟩ := hfx.mem_others.1 hy
    exact ⟨.ask htyp hfx.member.id hyV hyx rfl hfx.last hfx.lastTerm, rfl, rfl, rfl⟩
  refine ⟨requestTo (c.node x) typ ((c.node x).term + 1) y, ?_, rfl, rfl⟩
  rw [hmem, hout]
  exact mem_map_of_mem (hfx.mem_others.2 ⟨hy, hyx⟩)

include h hx hexp hone

lemma Idle.race_votes (hpre : (c.node x).conf.preVote = false)
    (hbound : (c.node x).term + 1 ≤ bound) :
    Race S x ((c.node x).term + 1) bound (S.tick c) (S.tick c) := by
  have hfx := h.fit x hx
  rcases tick_campaign hfx.out hexp hpre
    (hfx.own_ballot hx (b := running (aged (c.node x))) ⟨rfl, rfl, rfl⟩ rfl).1 with ⟨hout, hbare⟩
  have ho : Opened S x _ bound _ _ :=
    h.opened hx hone (.inl rfl) hout hbare ⟨rfl, rfl, rfl⟩ rfl
  have hnode := tickAll_node hx c
  have hr : ((S.tick c).node x).role = .candidate := by
    rw [hnode]
    exact (congrArg Raft.role hbare :)
  have ht : ((S.tick c).node x).term = (c.node x).term + 1 := by
    rw [hnode]
    exact (congrArg Raft.term hbare :)
  exact ho.race (.inl ⟨hr, rfl, ht⟩) (by omega)

lemma Idle.race_preVotes (hpre : (c.node x).conf.preVote) (hbound : (c.node x).term + 1 ≤ bound) :
    Race S x ((c.node x).term + 1) bound (S.tick c) (S.tick c) := by
  have hfx := h.fit x hx
  rcases tick_preCampaign hfx.out hexp hpre
    (hfx.own_ballot hx (b := preRunning (aged (c.node x))) ⟨rfl, rfl, rfl⟩ rfl).1 with
    ⟨hout, hbare⟩
  have ho : Opened S x _ bound _ _ :=
    h.opened hx hone (.inr rfl) hout hbare ⟨rfl, rfl, rfl⟩ rfl
  have hnode := tickAll_node hx c
  have hr : ((S.tick c).node x).role = .preCandidate := by
    rw [hnode]
    exact (congrArg Raft.role hbare :)
  have ht : ((S.tick c).node x).term = (c.node x).term := by
    rw [hnode]
    exact (congrArg Raft.term hbare :)
  refine ho.race (.inr ⟨hr, rfl, ?_⟩) (by omega)
  exact
    { term := by rw [ht]
      leaderId := by
        rw [hnode]
        exact (congrArg Raft.leaderId hbare :)
      elapsed := by
        rw [hnode]
        exact (congrArg Raft.elapsedTicks hbare :)
      few := ho.few
      ballot := ho.ballot
      others := fun _ _ _ => rfl
      early := fun m hm => .inl (ho.letters m hm).2.1
      coming := fun _ y hy hyx => .inl (ho.asked y hy hyx) }

lemma Idle.race (hbound : (c.node x).term + 1 ≤ bound) :
    Race S x ((c.node x).term + 1) bound (S.tick c) (S.tick c) := by
  cases hpre : (c.node x).conf.preVote with
  | false => exact h.race_votes hx hexp hone hpre hbound
  | true => exact h.race_preVotes hx hexp hone hpre hbound

end

/-- A campaign has raised the term of `x` to one that somebody knew already. -/
structure Raised (S : Setting) (x : Nat) (c c' : Net) : Prop where
  known : ∃ y ∈ S.voters.ids, y ≠ x ∧ (c.node x).term < (c.node y).term
  rises : (c.node x).term < (c'.node x).term
  mono : ∀ i ∈ S.voters.ids, (c.node i).term ≤ (c'.node i).term
  bounded : ∀ k, (∀ i ∈ S.voters.ids, (c.node i).term ≤ k) →
    ∀ i ∈ S.voters.ids, (c'.node i).term ≤ k

/-- The pre-votes of `x` were held back by a lease; otherwise a tick has passed. -/
structure HeldBack (S : Setting) (x : Nat) (c c' : Net) : Prop where
  lease : ∃ y ∈ S.voters.ids, y ≠ x ∧ (c.node y).leaderId ≠ 0 ∧
    (c.node y).elapsedTicks + 1 < S.electionTick
  term : (c'.node x).term = (c.node x).term
  leaderId : (c'.node x).leaderId = 0
  others : ∀ y ∈ S.voters.ids, y ≠ x → bare (c'.node y) = aged (bare (c.node y))

lemma exists_top (S : Setting) (c : Net) : ∃ top, ∀ i ∈ S.ids, (c.node i).term ≤ top :=
  ⟨S.ids.toFinset.sup fun i => (c.node i).term,
    fun _ hi => Finset.le_sup (f := fun i => (c.node i).term) (mem_toFinset.2 hi)⟩

lemma Idle.campaign (h : Idle S c) (hx : x ∈ S.ids) (hexp : Expires (c.node x))
    (hone : ∀ y ∈ S.ids, y ≠ x → ¬ Expires (c.node y)) (hround : Round S.voters c c') :
    Led S x c' ∨ Idle S c' ∧ (Raised S x c c' ∨ HeldBack S x c c') := by
  have hoth : ∀ y ∈ S.ids, y ≠ x →
      bare ((S.tick c).node y) = aged (bare (c.node y)) := fun y hy hyx =>
    (h.tickAll_other hy (hone y hy hyx)).2.1
  have hyterm : ∀ y ∈ S.ids, y ≠ x →
      ((S.tick c).node y).term = (c.node y).term := fun y hy hyx =>
    (aged_fields (hoth y hy hyx)).1
  -- the race holds to the end of the round, with any bound on the terms
  have hend : ∀ k, (∀ i ∈ S.ids, (c.node i).term ≤ k) →
      Race S x ((c.node x).term + 1) (max k ((c.node x).term + 1)) (S.tick c) c' := by
    intro k hk
    refine hround.induct (h.race hx hexp hone (by omega)) fun d m hd hm =>
      hd.deliver hx ⟨by omega, fun y hy hyx => ?_⟩ hm
    have := hk y hy
    have := hyterm y hy hyx
    omega
  rcases exists_top S c with ⟨top, htop⟩
  have hrace := hend top htop
  have hidle : (c'.node x).role ≠ .leader → Idle S c' := by
    refine fun hno => ⟨hrace.fit, fun i hi => ?_, hround.2⟩
    by_cases hix : i = x
    · exact hix ▸ hno
    · exact hrace.role i hi hix
  rcases hrace.outcome hx hround.2 with ⟨hr, hlead, hset⟩ | ⟨hno, hge, y, hy, hyx, hle⟩ |
    ⟨hno, hpre, y, hy, hyx, hlease⟩
  · exact .inl (hrace.led hx hround.2 hr hlead hset)
  · refine .inr ⟨hidle hno, .inl ⟨⟨y, hy, hyx, ?_⟩, by omega, ?_, ?_⟩⟩
    · have := hyterm y hy hyx
      omega
    · intro i hi
      by_cases hix : i = x
      · subst hix
        omega
      have h1 := hrace.term i hi hix
      have h2 := hyterm i hi hix
      omega
    intro k hk i hi
    have hknown := hk y hy
    have hyt := hyterm y hy hyx
    by_cases hix : i = x
    · subst hix
      have := (hend k hk).bounded
      omega
    have h1 := hrace.term i hi hix
    have h2 := hyterm i hi hix
    have h3 := hk i hi
    omega
  refine .inr ⟨hidle hno, .inr ⟨⟨y, hy, hyx, ?_⟩, ?_, hpre.leaderId, ?_⟩⟩
  · have hb := hoth y hy hyx
    obtain ⟨_, h1, h2⟩ := aged_fields hb
    have h3 : ((S.tick c).node y).conf = (c.node y).conf := (congrArg Raft.conf hb :)
    have h4 := (h.fit y hy).timeout
    rcases hlease with ⟨_, hl, he⟩
    rw [h1] at hl
    rw [h2, h3, h4] at he
    exact ⟨hl, he⟩
  · have := hpre.term
    omega
  intro z hz hzx
  rw [hpre.others z hz hzx]
  exact hoth z hz hzx

lemma Idle.flight_tickAll (h : Idle S c) (hone : ∀ y ∈ S.ids, ¬ Expires (c.node y)) :
    (S.tick c).flight = [] := by
  refine eq_nil_iff_forall_not_mem.2 fun m hm => ?_
  rw [mem_tickAll_flight, h.quiet] at hm
  obtain hm | ⟨i, hi, hm⟩ := hm
  · cases hm
  rw [(h.tickAll_other hi (hone i hi)).1] at hm
  cases hm

lemma Idle.pass (h : Idle S c) (hone : ∀ y ∈ S.ids, ¬ Expires (c.node y))
    (hround : Round S.voters c c') :
    Idle S c' ∧ ∀ i ∈ S.ids, bare (c'.node i) = aged (bare (c.node i)) := by
  have hoth : ∀ y ∈ S.ids, _ := fun y hy => h.tickAll_other hy (hone y hy)
  have hempty := h.flight_tickAll hone
  rw [hround.eq_tickAll hempty]
  refine ⟨⟨fun i hi => (hoth i hi).2.2, fun i hi => ?_, hempty⟩, fun i hi => (hoth i hi).2.1⟩
  have hr : ((S.tick c).node i).role = (c.node i).role :=
    (congrArg Raft.role (hoth i hi).2.1 :)
  rw [hr]
  exact h.role i hi

end

/-! ## The rank -/

def total (S : Setting) (f : Raft → Nat) (c : Net) : Nat :=
  (S.voters.ids.map fun i => f (c.node i)).sum

def behind (top : Nat) (r : Raft) : Nat := top - r.term

def lease (S : Setting) (r : Raft) : Nat :=
  if r.leaderId = 0 then 0 else S.electionTick - r.elapsedTicks

def patience (S : Setting) (r : Raft) : Nat := S.electionTick - r.elapsedTicks

/-- Terms come first, then leases, then timers. -/
def rank (S : Setting) (top : Nat) (c : Net) : ℕ ×ₗ ℕ ×ₗ ℕ :=
  toLex (total S (behind top) c, toLex (total S (lease S) c, total S (patience S) c))

section

variable {S : Setting} {x top : Nat} {c c' : Net} {f : Raft → Nat} {r r' : Raft}

lemma total_le (h : ∀ i ∈ S.ids, f (c'.node i) ≤ f (c.node i)) :
    total S f c' ≤ total S f c :=
  sum_le_sum h

lemma total_lt (h : ∀ i ∈ S.ids, f (c'.node i) ≤ f (c.node i))
    (hx : x ∈ S.ids) (hlt : f (c'.node x) < f (c.node x)) :
    total S f c' < total S f c :=
  sum_lt_sum _ _ h ⟨x, hx, hlt⟩

lemma total_congr (h : ∀ i ∈ S.ids, f (c'.node i) = f (c.node i)) :
    total S f c' = total S f c :=
  le_antisymm (total_le fun i hi => (h i hi).le) (total_le fun i hi => (h i hi).ge)

lemma rank_lt_of_behind (h : total S (behind top) c' < total S (behind top) c) :
    rank S top c' < rank S top c :=
  Prod.Lex.toLex_lt_toLex.2 (.inl h)

lemma rank_lt_of_lease (h : total S (behind top) c' = total S (behind top) c)
    (hl : total S (lease S) c' < total S (lease S) c) : rank S top c' < rank S top c :=
  Prod.Lex.toLex_lt_toLex.2 (.inr ⟨h, Prod.Lex.toLex_lt_toLex.2 (.inl hl)⟩)

lemma rank_lt_of_patience (h : total S (behind top) c' = total S (behind top) c)
    (hl : total S (lease S) c' ≤ total S (lease S) c)
    (hp : total S (patience S) c' < total S (patience S) c) : rank S top c' < rank S top c := by
  obtain hlt | heq := Nat.lt_or_eq_of_le hl
  · exact rank_lt_of_lease h hlt
  · exact Prod.Lex.toLex_lt_toLex.2 (.inr ⟨h, Prod.Lex.toLex_lt_toLex.2 (.inr ⟨heq, hp⟩)⟩)

lemma lease_aged (h : bare r' = aged (bare r)) : lease S r' ≤ lease S r := by
  obtain ⟨_, h2, h3⟩ := aged_fields h
  unfold lease
  rw [h2, h3]
  split <;> omega

lemma Idle.round (h : Idle S c) (htop : ∀ i ∈ S.ids, (c.node i).term ≤ top)
    (hone : OneExpires S.voters c) (hround : Round S.voters c c') :
    (∃ x, Led S x c') ∨
      (Idle S c' ∧ ∀ i ∈ S.ids, (c'.node i).term ≤ top) ∧ rank S top c' < rank S top c := by
  by_cases hany : ∃ x ∈ S.ids, Expires (c.node x)
  · obtain ⟨x, hx, hexp⟩ := hany
    have hothers : ∀ y ∈ S.ids, y ≠ x → ¬ Expires (c.node y) := fun y hy hyx he =>
      hyx (hone y hy x hx he hexp)
    obtain hled | ⟨hidle, hraised | hheld⟩ := h.campaign hx hexp hothers hround
    · exact .inl ⟨x, hled⟩
    · have hle := hraised.bounded top htop
      refine .inr ⟨⟨hidle, hle⟩, rank_lt_of_behind (total_lt (fun i hi => ?_) hx ?_)⟩
      · exact Nat.sub_le_sub_left (hraised.mono i hi) top
      have h1 := hraised.rises
      have h2 := hle x hx
      unfold behind
      omega
    have hterm : ∀ i ∈ S.ids, (c'.node i).term = (c.node i).term := by
      intro i hi
      by_cases hix : i = x
      · rw [hix]
        exact hheld.term
      · exact (aged_fields (hheld.others i hi hix)).1
    obtain ⟨y, hy, hyx, hl, he⟩ := hheld.lease
    obtain ⟨_, h2, h3⟩ := aged_fields (hheld.others y hy hyx)
    refine .inr ⟨⟨hidle, fun i hi => (hterm i hi).trans_le (htop i hi)⟩,
      rank_lt_of_lease (total_congr fun i hi => congrArg (fun k => top - k) (hterm i hi))
        (total_lt (fun i hi => ?_) hy ?_)⟩
    · by_cases hix : i = x
      · subst hix
        unfold lease
        rw [if_pos hheld.leaderId]
        exact zero_le
      · exact lease_aged (hheld.others i hi hix)
    unfold lease
    rw [h2, h3, if_neg hl, if_neg hl]
    omega
  have hnone : ∀ y ∈ S.ids, ¬ Expires (c.node y) := fun y hy he => hany ⟨y, hy, he⟩
  obtain ⟨hidle, haged⟩ := h.pass hnone hround
  have hterm : ∀ i ∈ S.ids, (c'.node i).term = (c.node i).term := fun i hi =>
    (aged_fields (haged i hi)).1
  have hpat : ∀ i ∈ S.ids, patience S (c'.node i) < patience S (c.node i) := by
    intro i hi
    have h1 := (aged_fields (haged i hi)).2.2
    have h2 := (h.fit i hi).timeout
    have h3 : ¬ (c.node i).conf.electionTimeout ≤ (c.node i).elapsedTicks + 1 := fun he =>
      hnone i hi ⟨h.role i hi, he⟩
    unfold patience
    omega
  obtain ⟨x, hx, _⟩ := S.exists_other 0
  refine .inr ⟨⟨hidle, fun i hi => (hterm i hi).trans_le (htop i hi)⟩,
    rank_lt_of_patience (total_congr fun i hi => congrArg (fun k => top - k) (hterm i hi))
      (total_le fun i hi => lease_aged (haged i hi))
      (total_lt (fun i hi => (hpat i hi).le) hx (hpat x hx))⟩

/-- If no two timers ever expire in one round, some node becomes leader and stays it. -/
theorem election_succeeds (run : ℕ → Net) (hstart : Idle S (run 0))
    (hrun : ∀ k, Round S.voters (run k) (run (k + 1)))
    (hone : ∀ k, OneExpires S.voters (run k)) :
    ∃ n, ∃ x ∈ S.voters.ids, ∀ k, n ≤ k → ((run k).node x).role = .leader := by
  obtain ⟨top, htop⟩ := exists_top S (run 0)
  obtain ⟨n, x, hled⟩ : ∃ n, ∃ x, Led S x (run n) :=
    exists_of_rank run (fun c => ∃ x, Led S x c)
      (fun c => Idle S c ∧ ∀ i ∈ S.voters.ids, (c.node i).term ≤ top) (rank S top)
      (fun k hinv => hinv.1.round hinv.2 (hone k) (hrun k)) ⟨hstart, htop⟩
  refine ⟨n, x, hled.voter, fun k hk => ?_⟩
  have hall : Led S x (run k) := by
    induction k, hk using Nat.le_induction with
    | base => exact hled
    | succ k _ ih => exact ih.round (hrun k)
  exact hall.role

end

/-! ## Two voters -/

def two : Voters := ⟨[1, 2], by decide, by decide, by decide⟩

def twoSetting : Setting :=
  { voters := two, two := by decide, electionTick := 3, last := 0, lastTerm := 0 }

def freshVoter (i : Nat) : Raft :=
  (Cluster.boot two { id := i, electionTick := 3, heartbeatTick := 1 }).node i

/-- Two fresh voters whose election timers have run for `e` and for `f` ticks. -/
def twoNodes (e f : Nat) : Net :=
  { node := fun i => { freshVoter i with elapsedTicks := if i = 1 then e else f }
    flight := [] }

lemma mem_twoSetting {i : Nat} (hi : i ∈ twoSetting.voters.ids) : i = 1 ∨ i = 2 := by
  simpa [twoSetting, two] using hi

lemma fit_freshVoter {i : Nat} (hi : i ∈ twoSetting.voters.ids) :
    Fit twoSetting i (freshVoter i) := by
  obtain rfl | rfl := mem_twoSetting hi
  all_goals
    exact ⟨⟨rfl, by decide, by decide, rfl⟩, by decide, rfl, by decide, by decide, rfl, rfl,
      by decide, rfl⟩

lemma idle_twoNodes (e f : Nat) : Idle twoSetting (twoNodes e f) where
  fit := fun i hi => (fit_freshVoter hi).of_base ⟨rfl, rfl, rfl⟩ (fit_freshVoter hi).out
  role := by
    intro i hi
    rcases mem_twoSetting hi with rfl | rfl <;> exact Role.noConfusion
  quiet := rfl

/-- Node 1 is two ticks ahead: it is elected in the first round and leads from then on. -/
theorem election_succeeds_two : ∃ run : ℕ → Net, run 0 = twoNodes 2 0 ∧ Idle twoSetting (run 0) ∧
      (∀ k, Round two (run k) (run (k + 1))) ∧ (∀ k, OneExpires two (run k)) ∧
      ∃ n, ∃ x ∈ two.ids, ∀ k, n ≤ k → ((run k).node x).role = .leader := by
  -- the first round, and then the rounds of a leader
  have hnext : ∀ c, (c = twoNodes 2 0 ∨ ∃ x, Led twoSetting x c) →
      ∃ c', Round two c c' ∧ (c' = twoNodes 2 0 ∨ ∃ x, Led twoSetting x c') := by
    rintro c (rfl | ⟨x, hled⟩)
    · have hround : Round two (twoNodes 2 0) (drain 4 ((twoNodes 2 0).tickAll two)) :=
        round_drain (by decide +kernel)
      refine ⟨_, hround, .inr ⟨1, ?_⟩⟩
      rcases (idle_twoNodes 2 0).campaign (x := 1) (by decide) (by decide) (by decide) hround with
        hled | ⟨_, hraised | hheld⟩
      · exact hled
      · exact absurd hraised.known (by decide)
      · exact absurd hheld.lease (by decide)
    obtain ⟨c', hround⟩ := hled.exists_round
    exact ⟨c', hround, .inr ⟨x, hled.round hround⟩⟩
  obtain ⟨run, h0, hrun⟩ := exists_run hnext (.inl rfl)
  have hstart : Idle twoSetting (run 0) := by
    rw [h0]
    exact idle_twoNodes 2 0
  have hone : ∀ k, OneExpires two (run k) := by
    intro k
    obtain heq | ⟨x, hled⟩ := (hrun k).1
    · rw [heq]
      decide
    · exact hled.oneExpires
  exact ⟨run, h0, hstart, fun k => (hrun k).2, hone,
    election_succeeds (S := twoSetting) run hstart (fun k => (hrun k).2) hone⟩

/-! ## Aligned timers -/

/-- All voters are in one term with timers that have run alike; none asks for pre-votes. -/
structure Aligned (S : Setting) (c : Net) : Prop extends Idle S c where
  term : ∀ i ∈ S.voters.ids, ∀ j ∈ S.voters.ids, (c.node i).term = (c.node j).term
  elapsed : ∀ i ∈ S.voters.ids, ∀ j ∈ S.voters.ids,
    (c.node i).elapsedTicks = (c.node j).elapsedTicks
  noPreVote : ∀ i ∈ S.voters.ids, (c.node i).conf.preVote = false

/-- Everybody runs for term `t` and has voted for itself. -/
structure SplitVote (S : Setting) (t : Nat) (c : Net) : Prop where
  fit : ∀ i ∈ S.voters.ids, Fit S i (c.node i)
  role : ∀ i ∈ S.voters.ids, (c.node i).role = .candidate
  term : ∀ i ∈ S.voters.ids, (c.node i).term = t
  vote : ∀ i ∈ S.voters.ids, (c.node i).vote = i
  elapsed : ∀ i ∈ S.voters.ids, (c.node i).elapsedTicks = 0
  noPreVote : ∀ i ∈ S.voters.ids, (c.node i).conf.preVote = false
  flight : ∀ m ∈ c.flight, m.dest ∈ S.voters.ids ∧ m.sender ∈ S.voters.ids ∧ m.term = t ∧
    m.sender ≠ m.dest ∧ (m.type = .vote ∨ m.type = .voteResp ∧ m.reject ≠ 0)

section

variable {S : Setting} {t : Nat} {c : Net} {m : Msg}

lemma SplitVote.not_free (h : SplitVote S t c) (hdest : m.dest ∈ S.ids) (hterm : m.term = t)
    (hne : m.sender ≠ m.dest) : ¬ FreeFor (c.node m.dest) m := by
  have hmine := h.vote m.dest hdest
  have h0 : m.dest ≠ 0 := fun h0 => S.voters.nonzero (h0 ▸ hdest)
  rintro (hlt | hv | hv)
  · have := h.term m.dest hdest
    omega
  · exact h0 (hmine.symm.trans hv)
  · exact hne (hv.symm.trans hmine)

lemma SplitVote.hear (h : SplitVote S t c) (hm : m ∈ c.flight) :
    bare (hear (c.node m.dest) m).2 = bare (c.node m.dest) ∧
      ((hear (c.node m.dest) m).1.map weight).sum < weight m ∧
      ∀ a ∈ (hear (c.node m.dest) m).1, a.dest = m.sender ∧ a.sender = m.dest ∧ a.term = t ∧
        a.type = .voteResp ∧ a.reject ≠ 0 := by
  obtain ⟨hdest, hsender, hterm, hne, htype⟩ := h.flight m hm
  have hfit := h.fit m.dest hdest
  obtain htype | ⟨htype, hrej⟩ := htype
  · obtain ⟨a, hout, hatype, hto, hfrom, hcase⟩ := hear_vote hfit.out htype
    have hnotfree := h.not_free hdest hterm hne
    rw [h.term m.dest hdest, hterm] at hcase
    obtain ⟨hlt, _⟩ | ⟨_, hfree, _⟩ | ⟨_, _, hrej, hat, hbare⟩ := hcase
    · exact absurd hlt (lt_irrefl _)
    · exact absurd hfree hnotfree
    have hstep : stepped (bare (c.node m.dest)) t = bare (c.node m.dest) :=
      if_neg (Nat.not_lt.2 (h.term m.dest hdest).ge)
    refine ⟨hbare.trans hstep, ?_, ?_⟩
    · have h1 : weight a = 1 := by
        unfold weight
        rw [hatype]
      have h2 : weight m = 2 := by
        unfold weight
        rw [htype]
      rw [hout, h2]
      simp [h1]
    rw [hout]
    exact forall_mem_singleton.2 ⟨hto, hfrom.trans hfit.member.id, hat, hatype, by omega⟩
  rcases hear_voteResp_ignored hfit.out htype (by rw [h.term m.dest hdest, hterm])
    (.inr hrej) with ⟨hout, hbare⟩
  refine ⟨hbare, ?_, ?_⟩
  · rw [hout]
    unfold weight
    rw [htype]
    exact Nat.one_pos
  rw [hout]
  exact forall_mem_nil _

lemma SplitVote.deliver (h : SplitVote S t c) (hm : m ∈ c.flight) :
    SplitVote S t (c.deliver m) ∧ load (c.deliver m) < load c := by
  obtain ⟨hdest, hsender, _, hne, _⟩ := h.flight m hm
  obtain ⟨hbare, hload, hsent⟩ := h.hear hm
  have hsame : ∀ i, bare ((c.deliver m).node i) = bare (c.node i) := by
    intro i
    by_cases hi : i = m.dest
    · rw [hi, deliver_node_dest]
      exact hbare
    · rw [deliver_node_of_ne hi]
  refine ⟨⟨?_, ?_, ?_, ?_, ?_, ?_, ?_⟩, load_deliver hm hload⟩
  · intro i hi
    by_cases hid' : i = m.dest
    · subst hid'
      rw [deliver_node_dest]
      exact (h.fit m.dest hdest).hear hbare ⟨rfl, rfl, rfl⟩
    rw [deliver_node_of_ne hid']
    exact h.fit i hi
  · intro i hi
    exact (congrArg Raft.role (hsame i) :).trans (h.role i hi)
  · intro i hi
    exact (congrArg Raft.term (hsame i) :).trans (h.term i hi)
  · intro i hi
    exact (congrArg Raft.vote (hsame i) :).trans (h.vote i hi)
  · intro i hi
    exact (congrArg Raft.elapsedTicks (hsame i) :).trans (h.elapsed i hi)
  · intro i hi
    exact (congrArg (fun r : Raft => r.conf.preVote) (hsame i) :).trans (h.noPreVote i hi)
  intro a ha
  obtain ha | ha := mem_deliver_flight ha
  · exact h.flight a ha
  obtain ⟨h1, h2, h3, h4, h5⟩ := hsent a ha
  rw [h1, h2]
  exact ⟨hsender, hdest, h3, Ne.symm hne, .inr ⟨h4, h5⟩⟩

lemma Aligned.splitVote (h : Aligned S c) {x : Nat} (hx : x ∈ S.ids)
    (hexp : Expires (c.node x)) : SplitVote S ((c.node x).term + 1) (S.tick c) := by
  -- the timers agree, so all of them run out in this tick
  have hall : ∀ i ∈ S.ids, Expires (c.node i) := by
    intro i hi
    refine ⟨h.role i hi, ?_⟩
    rw [(h.fit i hi).timeout, h.elapsed i hi x hx, ← (h.fit x hx).timeout]
    exact hexp.2
  have htick : ∀ i ∈ S.ids, (flush (cetcdRaftTick (c.node i))).1 =
          (others (c.node i)).map (requestTo (c.node i) .vote ((c.node i).term + 1)) ∧
        bare ((S.tick c).node i) = running (aged (bare (c.node i))) ∧
        Fit S i ((S.tick c).node i) := by
    intro i hi
    have hfit := h.fit i hi
    have halone : voteQuorumOk (running (aged (c.node i))) = false :=
      hfit.not_quorum_self ⟨rfl, rfl, rfl⟩ (congrArg (fun j => [j]) hfit.member.id)
    obtain ⟨hout, hbare⟩ := tick_campaign hfit.out (hall i hi) (h.noPreVote i hi) halone
    rw [tickAll_node hi]
    exact ⟨hout, hbare, hfit.tick hbare ⟨rfl, rfl, rfl⟩⟩
  refine ⟨fun i hi => (htick i hi).2.2, ?_, ?_, ?_, ?_, ?_, ?_⟩
  · intro i hi
    exact (congrArg Raft.role (htick i hi).2.1 :)
  · intro i hi
    have ht : ((S.tick c).node i).term = (c.node i).term + 1 :=
      (congrArg Raft.term (htick i hi).2.1 :)
    rw [ht, h.term i hi x hx]
  · intro i hi
    have hv : ((S.tick c).node i).vote = (c.node i).conf.id :=
      (congrArg Raft.vote (htick i hi).2.1 :)
    rw [hv, (h.fit i hi).member.id]
  · intro i hi
    exact (congrArg Raft.elapsedTicks (htick i hi).2.1 :)
  · intro i hi
    exact (congrArg (fun r : Raft => r.conf.preVote) (htick i hi).2.1 :).trans (h.noPreVote i hi)
  intro m hm
  rw [mem_tickAll_flight, h.quiet] at hm
  obtain hm | ⟨i, hi, hm⟩ := hm
  · cases hm
  rw [(htick i hi).1] at hm
  obtain ⟨j, hj, rfl⟩ := mem_map.1 hm
  obtain ⟨hjV, hji⟩ := (h.fit i hi).mem_others.1 hj
  have hid := (h.fit i hi).member.id
  refine ⟨hjV, ?_, ?_, ?_, .inl rfl⟩
  · change (c.node i).conf.id ∈ _
    rw [hid]
    exact hi
  · change (c.node i).term + 1 = _
    rw [h.term i hi x hx]
  change (c.node i).conf.id ≠ j
  rw [hid]
  exact Ne.symm hji

lemma Aligned.exists_round (h : Aligned S c) : ∃ c', Round S.voters c c' ∧ Aligned S c' := by
  by_cases hany : ∃ x ∈ S.ids, Expires (c.node x)
  · obtain ⟨x, hx, hexp⟩ := hany
    rcases exists_drain (P := SplitVote S ((c.node x).term + 1))
      (fun d m hd hm => hd.deliver hm) (h.splitVote hx hexp) with ⟨n, hempty, hsplit⟩
    refine ⟨_, round_drain hempty, ⟨hsplit.fit, fun i hi => ?_, hempty⟩, ?_, ?_, hsplit.noPreVote⟩
    · rw [hsplit.role i hi]
      decide
    · intro i hi j hj
      rw [hsplit.term i hi, hsplit.term j hj]
    intro i hi j hj
    rw [hsplit.elapsed i hi, hsplit.elapsed j hj]
  have hnone : ∀ y ∈ S.ids, ¬ Expires (c.node y) := fun y hy he => hany ⟨y, hy, he⟩
  have hround : Round S.voters c (S.tick c) := ⟨.refl, h.flight_tickAll hnone⟩
  obtain ⟨hidle, haged⟩ := h.pass hnone hround
  refine ⟨_, hround, hidle, ?_, ?_, ?_⟩
  · intro i hi j hj
    rw [(aged_fields (haged i hi)).1, (aged_fields (haged j hj)).1]
    exact h.term i hi j hj
  · intro i hi j hj
    rw [(aged_fields (haged i hi)).2.2, (aged_fields (haged j hj)).2.2, h.elapsed i hi j hj]
  intro i hi
  exact (congrArg (fun r : Raft => r.conf.preVote) (haged i hi) :).trans (h.noPreVote i hi)

end

/-- Two fresh voters started together: in every third round both run and both lose, forever. -/
theorem election_never_succeeds : ∃ run : ℕ → Net, run 0 = twoNodes 0 0 ∧ Idle twoSetting (run 0) ∧
      (∀ k, Round two (run k) (run (k + 1))) ∧
      ∀ k, ∀ i ∈ two.ids, ((run k).node i).role ≠ .leader := by
  have hstart : Aligned twoSetting (twoNodes 0 0) := by
    refine ⟨idle_twoNodes 0 0, ?_, ?_, ?_⟩
    all_goals decide
  rcases exists_run (fun c hc => Aligned.exists_round (S := twoSetting) (c := c) hc) hstart with
    ⟨run, h0, hrun⟩
  exact ⟨run, h0, (hrun 0).1.toIdle, fun k => (hrun k).2, fun k => (hrun k).1.role⟩

end Cetcd.Net
