import Cetcd.Net.Letters

/-!
# One campaign on a network that delivers everything

Node `x` runs for term `t` and nobody else does. `Race` describes every state of the round, whatever
the order of deliveries. Once nothing is under way, `x` leads everyone, or some node knew of term
`t` or a later one, or a lease kept the pre-votes back (`Race.outcome`).
-/

namespace Cetcd.Net

open Lib Raft Protocol List

/-! ## The race -/

/-- `x` is asking for pre-votes; nobody else has changed since the round began in `c₀`. -/
structure PreStage (S : Setting) (x t : Nat) (c₀ c : Net) : Prop where
  term : (c.node x).term + 1 = t
  leaderId : (c.node x).leaderId = 0
  elapsed : (c.node x).elapsedTicks = 0
  few : voteQuorumOk (c.node x) = false
  ballot : Ballot S x (c.node x).votesGranted
  others : ∀ y ∈ S.voters.ids, y ≠ x → bare (c.node y) = bare (c₀.node y)
  early : ∀ m ∈ c.flight, m.type = .preVote ∨ m.type = .preVoteResp
  /-- Without leases and later terms every pre-vote is on its way. -/
  coming : (∀ y ∈ S.voters.ids, y ≠ x → (c₀.node y).term ≤ t ∧ ¬ Leased (c₀.node y)) →
    ∀ y ∈ S.voters.ids, y ≠ x →
      Asked c .preVote y ∨ Granted c .preVoteResp y ∨ y ∈ (c.node x).votesGranted

/-- `x` is asking for votes. -/
structure CandStage (S : Setting) (x t : Nat) (c : Net) : Prop where
  term : (c.node x).term = t
  few : voteQuorumOk (c.node x) = false
  ballot : Ballot S x (c.node x).votesGranted

/-- `x` leads term `t` and everyone who can follow has been told or is about to be. -/
structure LeadStage (S : Setting) (x t : Nat) (c₀ c : Net) : Prop where
  term : (c.node x).term = t
  fresh : (c.node x).heartbeatElapsed = 0
  caughtUp : CaughtUp (c.node x)
  told : ∀ y ∈ S.voters.ids, y ≠ x → (c₀.node y).term ≤ t →
    Asked c .heartbeat y ∨ Settled t (c.node y)

/-- Nobody knew term `t` when the round began: `x` cannot lose. -/
structure SureStage (S : Setting) (x t : Nat) (c : Net) : Prop where
  role : (c.node x).role ≠ .follower
  free : ∀ y ∈ S.voters.ids, y ≠ x → Free x t (c.node y)
  coming : (c.node x).role = .candidate → ∀ y ∈ S.voters.ids, y ≠ x →
    Asked c .vote y ∨ Granted c .voteResp y ∨ y ∈ (c.node x).votesGranted
  terms : ∀ m ∈ c.flight, m.term ≤ t
  preTerms : (c.node x).role = .preCandidate → ∀ m ∈ c.flight, m.reject ≠ 0 → m.term < t

/-- A state `c` of the round in which `x` alone runs; the deliveries began in `c₀`. -/
structure Race (S : Setting) (x t bound : Nat) (c₀ c : Net) : Prop where
  fit : ∀ i ∈ S.voters.ids, Fit S i (c.node i)
  letters : ∀ m ∈ c.flight, Letter S x t bound m
  role : ∀ y ∈ S.voters.ids, y ≠ x → (c.node y).role ≠ .leader
  term : ∀ y ∈ S.voters.ids, y ≠ x →
    (c.node y).term = (c₀.node y).term ∨ (c₀.node y).term < t ∧ (c.node y).term = t
  bounded : (c.node x).term ≤ bound
  pre : (c.node x).role = .preCandidate → PreStage S x t c₀ c
  cand : (c.node x).role = .candidate → CandStage S x t c
  lead : (c.node x).role = .leader → LeadStage S x t c₀ c
  lost : (c.node x).role = .follower → t ≤ (c.node x).term
  /-- A node with a later term lets `x` know. -/
  high : ∀ y ∈ S.voters.ids, y ≠ x → t < (c₀.node y).term →
    Asked c .vote y ∨ Asked c .preVote y ∨ Refused c t ∨ t < (c.node x).term
  sure : (∀ y ∈ S.voters.ids, y ≠ x → (c₀.node y).term < t) → SureStage S x t c

lemma other_role {q : Prop} {a b s : Role} (h : s = a) (hne : b ≠ a) (h' : s = b) : q :=
  absurd (h'.symm.trans h) hne

section

variable {S : Setting} {x t bound : Nat} {c₀ c : Net} {m : Msg}

lemma Race.term_ge (h : Race S x t bound c₀ c) : t ≤ (c.node x).term + 1 := by
  cases hrole : (c.node x).role with
  | follower =>
    have := h.lost hrole
    omega
  | candidate =>
    have := (h.cand hrole).term
    omega
  | leader =>
    have := (h.lead hrole).term
    omega
  | preCandidate =>
    have := (h.pre hrole).term
    omega

/-! ### A delivery to another voter -/

section

variable (h : Race S x t bound c₀ c) (hm : m ∈ c.flight) (hdest : m.dest ∈ S.ids)
  (hne : m.dest ≠ x)

include h hm hdest hne

lemma Race.answer :
    Answer S x t m.dest (c.node m.dest) m (hear (c.node m.dest) m).1 (hear (c.node m.dest) m).2 :=
  (h.letters m hm).answer hne (h.fit m.dest hdest)

omit h hm hdest in
lemma answered_node : (c.deliver m).node x = c.node x := deliver_node_of_ne (Ne.symm hne)

omit hdest in
lemma Race.request : m.type = .vote ∨ m.type = .preVote ∨ m.type = .heartbeat := by
  cases h.letters m hm with
  | ask type => exact type.elim .inl (fun h => .inr (.inl h))
  | beat type => exact .inr (.inr type)
  | reply _ dest => exact absurd dest hne

omit hdest in
lemma Race.preVote (hrole : (c.node x).role = .preCandidate) : m.type = .preVote := by
  obtain htype | htype := (h.pre hrole).early m hm
  · exact htype
  · rcases h.request hm hne with hk | hk | hk <;> rw [htype] at hk <;> cases hk

omit hdest in
lemma Granted.keep_request {typ : MsgType} {y : Nat} (hgrant : Granted c typ y)
    (htyp : typ = .voteResp ∨ typ = .preVoteResp) : Granted (c.deliver m) typ y := by
  obtain ⟨hk, _⟩ | hgrant := hgrant.keep m
  · rcases h.request hm hne with h1 | h1 | h1 <;> rcases htyp with h2 | h2 <;>
      rw [h1, h2] at hk <;> cases hk
  · exact hgrant

lemma Race.answered_pre (hrole : (c.node x).role = .preCandidate) :
    PreStage S x t c₀ (c.deliver m) := by
  have hans := h.answer hm hdest hne
  have hnx := answered_node (c := c) hne
  have hp := h.pre hrole
  have htype := h.preVote hm hne hrole
  obtain ⟨hbare, hout⟩ := hans.pre htype
  refine ⟨by rw [hnx]; exact hp.term, by rw [hnx]; exact hp.leaderId,
    by rw [hnx]; exact hp.elapsed, by rw [hnx]; exact hp.few, by rw [hnx]; exact hp.ballot,
    fun y => ?_, fun a ha => ?_, fun hopen y hy hyx => ?_⟩
  · -- a pre-vote changes nobody
    exact deliver_cases (P := fun y r => y ∈ S.ids → y ≠ x → bare r = bare (c₀.node y))
      (fun hy hyx => hbare.trans (hp.others _ hy hyx)) (fun y _ => hp.others y) y
  · obtain ha | ha := mem_deliver_flight ha
    · exact hp.early a ha
    · exact .inr (hout a ha).1
  rw [hnx]
  obtain hask | hgrant | hvote := hp.coming hopen y hy hyx
  · obtain ⟨_, rfl⟩ | hask := hask.keep m
    · have hbase := hp.others _ hdest hne
      have hte : (c.node m.dest).term = (c₀.node m.dest).term := (congrArg Raft.term hbase :)
      have hlease : ¬ Leased (c.node m.dest) := by
        have hcf : (c.node m.dest).conf = (c₀.node m.dest).conf := (congrArg Raft.conf hbase :)
        have hld : (c.node m.dest).leaderId = (c₀.node m.dest).leaderId :=
          (congrArg Raft.leaderId hbase :)
        have hel : (c.node m.dest).elapsedTicks = (c₀.node m.dest).elapsedTicks :=
          (congrArg Raft.elapsedTicks hbase :)
        unfold Leased
        rw [hcf, hld, hel]
        exact (hopen _ hdest hne).2
      have hto := (hopen _ hdest hne).1
      obtain ⟨a, ha, hP⟩ := hans.preGrants htype (by omega) hlease
      exact .inr (.inl ⟨a, answer_mem_deliver_flight ha, hP⟩)
    · exact .inl hask
  · exact .inr (.inl (Granted.keep_request h hm hne hgrant (.inr rfl)))
  · exact .inr (.inr hvote)

lemma Race.answered_lead (hrole : (c.node x).role = .leader) :
    LeadStage S x t c₀ (c.deliver m) := by
  have hans := h.answer hm hdest hne
  have hnx := answered_node (c := c) hne
  have hp := h.lead hrole
  refine ⟨by rw [hnx]; exact hp.term, by rw [hnx]; exact hp.fresh,
    by rw [hnx]; exact hp.caughtUp, fun y hy hyx hle => ?_⟩
  obtain hask | hset := hp.told y hy hyx hle
  · obtain ⟨hk, rfl⟩ | hask := hask.keep m
    · have hterm := h.term m.dest hdest hne
      rw [deliver_node_dest]
      exact .inr (hans.settles hk (by omega))
    · exact .inl hask
  exact .inr (deliver_cases (P := fun i r => i = y → Settled t r)
    (fun hid => hans.settled (hid ▸ hset)) (fun i _ hid => hid ▸ hset) y rfl)

lemma Race.answered_high {y : Nat} (hy : y ∈ S.ids) (hyx : y ≠ x)
    (hlt : t < (c₀.node y).term) :
    Asked (c.deliver m) .vote y ∨ Asked (c.deliver m) .preVote y ∨ Refused (c.deliver m) t ∨
      t < ((c.deliver m).node x).term := by
  have hans := h.answer hm hdest hne
  have hnx := answered_node (c := c) hne
  have hterm := h.term m.dest hdest hne
  rw [hnx]
  have hrefuse : m.dest = y → m.type = .vote ∨ m.type = .preVote → Refused (c.deliver m) t := by
    rintro rfl hk
    obtain ⟨a, ha, hP⟩ := hans.refuses hk (by omega)
    exact ⟨a, answer_mem_deliver_flight ha, hP⟩
  obtain hask | hask | href | hgt := h.high y hy hyx hlt
  · obtain ⟨hk, hd⟩ | hask := hask.keep m
    · exact .inr (.inr (.inl (hrefuse hd (.inl hk))))
    · exact .inl hask
  · obtain ⟨hk, hd⟩ | hask := hask.keep m
    · exact .inr (.inr (.inl (hrefuse hd (.inr hk))))
    · exact .inr (.inl hask)
  · obtain ⟨hk, _⟩ | href := href.keep m
    · rcases h.request hm hne with h1 | h1 | h1 <;> rcases hk with h2 | h2 <;> rw [h1] at h2 <;>
        cases h2
    · exact .inr (.inr (.inl href))
  · exact .inr (.inr (.inr hgt))

lemma Race.answered_sure (hall : ∀ y ∈ S.ids, y ≠ x → (c₀.node y).term < t) :
    SureStage S x t (c.deliver m) := by
  have hans := h.answer hm hdest hne
  have hnx := answered_node (c := c) hne
  have hterm := h.term m.dest hdest hne
  have hlow := hall m.dest hdest hne
  have hs := h.sure hall
  refine ⟨by rw [hnx]; exact hs.role, fun y => ?_, ?_, fun a ha => ?_, ?_⟩
  · exact deliver_cases (P := fun y r => y ∈ S.ids → y ≠ x → Free x t r)
      (fun hy hyx => hans.free (hs.free _ hy hyx)) (fun y _ => hs.free y) y
  · rw [hnx]
    intro hrole y hy hyx
    obtain hask | hgrant | hvote := hs.coming hrole y hy hyx
    · obtain ⟨hk, rfl⟩ | hask := hask.keep m
      · obtain ⟨a, ha, hP⟩ := hans.grants hk (by omega) (hs.free _ hdest hne)
        exact .inr (.inl ⟨a, answer_mem_deliver_flight ha, hP⟩)
      · exact .inl hask
    · exact .inr (.inl (Granted.keep_request h hm hne hgrant (.inl rfl)))
    · exact .inr (.inr hvote)
  · obtain ha | ha := mem_deliver_flight ha
    · exact hs.terms a ha
    have := (hans.replies a ha).2.2.2
    omega
  rw [hnx]
  intro hrole a ha hrej
  obtain ha | ha := mem_deliver_flight ha
  · exact hs.preTerms hrole a ha hrej
  have hbase : (c.node m.dest).term = (c₀.node m.dest).term :=
    (congrArg Raft.term ((h.pre hrole).others _ hdest hne) :)
  have := ((hans.pre (h.preVote hm hne hrole)).2 a ha).2 hrej
  omega

lemma Race.answered (hbound : t ≤ bound ∧ ∀ y ∈ S.ids, y ≠ x → (c₀.node y).term ≤ bound) :
    Race S x t bound c₀ (c.deliver m) := by
  have hans := h.answer hm hdest hne
  have hnx := answered_node (c := c) hne
  have hterm := h.term m.dest hdest hne
  refine
    { fit := fun i => ?_
      letters := fun a ha => ?_
      role := fun y => ?_
      term := fun y => ?_
      bounded := by rw [hnx]; exact h.bounded
      pre := fun hrole => h.answered_pre hm hdest hne (hnx ▸ hrole)
      cand := fun hrole => ?_
      lead := fun hrole => h.answered_lead hm hdest hne (hnx ▸ hrole)
      lost := by rw [hnx]; exact h.lost
      high := fun y hy hyx hlt => h.answered_high hm hdest hne hy hyx hlt
      sure := h.answered_sure hm hdest hne }
  · exact deliver_cases (P := fun i r => i ∈ S.ids → Fit S i r) (fun _ => hans.fit)
      (fun i _ => h.fit i) i
  · obtain ha | ha := mem_deliver_flight ha
    · exact h.letters a ha
    obtain ⟨htype, hto, hfrom, hle⟩ := hans.replies a ha
    have hb := hbound.1
    have hb' := hbound.2 m.dest hdest hne
    exact .reply htype hto (hfrom ▸ hdest) (hfrom ▸ hne) (by omega)
  · exact deliver_cases (P := fun y r => y ∈ S.ids → y ≠ x → r.role ≠ .leader)
      (fun hy hyx => hans.role (h.role _ hy hyx)) (fun y _ => h.role y) y
  · refine deliver_cases (P := fun y r => y ∈ S.ids → y ≠ x →
      r.term = (c₀.node y).term ∨ (c₀.node y).term < t ∧ r.term = t) (fun _ _ => ?_)
      (fun y _ => h.term y) y
    have hnew := hans.term
    omega
  rw [hnx] at hrole
  have hp := h.cand hrole
  exact ⟨by rw [hnx]; exact hp.term, by rw [hnx]; exact hp.few, by rw [hnx]; exact hp.ballot⟩

end

/-! ### A delivery to `x` -/

lemma Letter.reply_of_dest (h : Letter S x t bound m) (hdest : m.dest = x) :
    (m.type = .voteResp ∨ m.type = .preVoteResp ∨ m.type = .heartbeatResp) ∧
      m.sender ∈ S.ids ∧ m.sender ≠ x ∧ m.term ≤ bound := by
  cases h with
  | ask _ _ _ ne | beat _ _ _ ne => exact absurd hdest ne
  | reply type _ sender ne term => exact ⟨type, sender, ne, term⟩

lemma Asked.keep_reply {typ : MsgType} {y : Nat} (h : Asked c typ y)
    (hm : Letter S x t bound m) (hdest : m.dest = x)
    (htyp : typ = .vote ∨ typ = .preVote ∨ typ = .heartbeat) : Asked (c.deliver m) typ y := by
  obtain ⟨hk, _⟩ | hask := h.keep m
  · rcases (hm.reply_of_dest hdest).1 with h1 | h1 | h1 <;>
      rcases htyp with h2 | h2 | h2 <;> rw [h1, h2] at hk <;> cases hk
  · exact hask

section

variable (h : Race S x t bound c₀ c) (hm : m ∈ c.flight) (hdest : m.dest = x)
  (hx : x ∈ S.ids)

include hdest in
lemma deliver_node_x : (c.deliver m).node x = (c.heard x m).2 := by
  have hnode : (c.deliver m).node m.dest = (hear (c.node m.dest) m).2 := deliver_node_dest
  rwa [hdest] at hnode

include hdest in
lemma deliver_node_other {y : Nat} (hy : y ≠ x) : (c.deliver m).node y = c.node y :=
  deliver_node_of_ne (hdest ▸ hy)

include hdest in
lemma mem_deliver_flight_x {a : Msg} (ha : a ∈ (c.deliver m).flight) :
    a ∈ c.flight ∨ a ∈ (c.heard x m).1 := by
  obtain ha | ha := mem_deliver_flight ha
  · exact .inl ha
  rw [hdest] at ha
  exact .inr ha

include hdest in
lemma sent_mem_flight {a : Msg} (ha : a ∈ (c.heard x m).1) : a ∈ (c.deliver m).flight := by
  rw [← hdest] at ha
  exact answer_mem_deliver_flight ha

include h hm hdest in
lemma Race.of_reaction (hfit : Fit S x (c.heard x m).2)
    (hsent : ∀ a ∈ (c.heard x m).1, Letter S x t bound a)
    (hbounded : (c.heard x m).2.term ≤ bound)
    (hpre : (c.heard x m).2.role = .preCandidate → PreStage S x t c₀ (c.deliver m))
    (hcand : (c.heard x m).2.role = .candidate → CandStage S x t (c.deliver m))
    (hlead : (c.heard x m).2.role = .leader → LeadStage S x t c₀ (c.deliver m))
    (hlost : (c.heard x m).2.role = .follower → t ≤ (c.heard x m).2.term)
    (hterm : (c.node x).term ≤ (c.heard x m).2.term)
    (hrefuse : Refusal t m → t < (c.heard x m).2.term)
    (hsure : (∀ y ∈ S.ids, y ≠ x → (c₀.node y).term < t) →
      SureStage S x t (c.deliver m)) : Race S x t bound c₀ (c.deliver m) := by
  have hnode := deliver_node_x (c := c) hdest
  have hl := h.letters m hm
  refine
    { fit := ?_
      letters := ?_
      role := ?_
      term := ?_
      bounded := by rw [hnode]; exact hbounded
      pre := by rw [hnode]; exact hpre
      cand := by rw [hnode]; exact hcand
      lead := by rw [hnode]; exact hlead
      lost := by rw [hnode]; exact hlost
      high := ?_
      sure := hsure }
  · intro i hi
    by_cases hix : i = x
    · subst hix
      rw [hnode]
      exact hfit
    rw [deliver_node_other hdest hix]
    exact h.fit i hi
  · intro a ha
    obtain ha | ha := mem_deliver_flight_x hdest ha
    · exact h.letters a ha
    · exact hsent a ha
  · intro y hy hyx
    rw [deliver_node_other hdest hyx]
    exact h.role y hy hyx
  · intro y hy hyx
    rw [deliver_node_other hdest hyx]
    exact h.term y hy hyx
  intro y hy hyx hlt
  rw [hnode]
  obtain hask | hask | href | hgt := h.high y hy hyx hlt
  · exact .inl (hask.keep_reply hl hdest (.inl rfl))
  · exact .inr (.inl (hask.keep_reply hl hdest (.inr (.inl rfl))))
  · obtain hk | href := href.keep m
    · exact .inr (.inr (.inr (hrefuse hk)))
    · exact .inr (.inr (.inl href))
  · exact .inr (.inr (.inr (by omega)))

/-- `x` hears `m` and stays: at most its count grows, and a delivered grant is counted. -/
structure Unmoved (S : Setting) (x : Nat) (c : Net) (m : Msg) : Prop where
  out : (hear (c.node x) m).1 = []
  role : (hear (c.node x) m).2.role = (c.node x).role
  term : (hear (c.node x) m).2.term = (c.node x).term
  leaderId : (hear (c.node x) m).2.leaderId = (c.node x).leaderId
  elapsed : (hear (c.node x) m).2.elapsedTicks = (c.node x).elapsedTicks
  few : voteQuorumOk (c.node x) = false → voteQuorumOk (hear (c.node x) m).2 = false
  ballot : Ballot S x (c.node x).votesGranted → Ballot S x (hear (c.node x) m).2.votesGranted
  more : ∀ y ∈ (c.node x).votesGranted, y ∈ (hear (c.node x) m).2.votesGranted
  preVotes : (c.node x).role = .preCandidate → ∀ y, Granted c .preVoteResp y →
    Granted (c.deliver m) .preVoteResp y ∨ y ∈ (hear (c.node x) m).2.votesGranted
  votes : (c.node x).role = .candidate → ∀ y, Granted c .voteResp y →
    Granted (c.deliver m) .voteResp y ∨ y ∈ (hear (c.node x) m).2.votesGranted

include hdest in
lemma Unmoved.flight (hu : Unmoved S x c m) {a : Msg} (ha : a ∈ (c.deliver m).flight) :
    a ∈ c.flight := by
  obtain ha | ha := mem_deliver_flight_x hdest ha
  · exact ha
  rw [hu.out] at ha
  cases ha

include h hm hdest in
lemma Race.unmoved_pre (hu : Unmoved S x c m) (hr : (c.node x).role = .preCandidate) :
    PreStage S x t c₀ (c.deliver m) := by
  have hnode := deliver_node_x (c := c) hdest
  have hp := h.pre hr
  refine ⟨?_, ?_, ?_, ?_, ?_, ?_, fun a ha => hp.early a (hu.flight hdest ha), ?_⟩
  · rw [hnode, hu.term]
    exact hp.term
  · rw [hnode, hu.leaderId]
    exact hp.leaderId
  · rw [hnode, hu.elapsed]
    exact hp.elapsed
  · rw [hnode]
    exact hu.few hp.few
  · rw [hnode]
    exact hu.ballot hp.ballot
  · intro y hy hyx
    rw [deliver_node_other hdest hyx]
    exact hp.others y hy hyx
  intro hopen y hy hyx
  rw [hnode]
  obtain hask | hgrant | hvote := hp.coming hopen y hy hyx
  · exact .inl (hask.keep_reply (h.letters m hm) hdest (.inr (.inl rfl)))
  · exact .inr (hu.preVotes hr y hgrant)
  · exact .inr (.inr (hu.more y hvote))

include h hdest in
lemma Race.unmoved_cand (hu : Unmoved S x c m) (hr : (c.node x).role = .candidate) :
    CandStage S x t (c.deliver m) := by
  have hnode := deliver_node_x (c := c) hdest
  have hp := h.cand hr
  refine ⟨?_, ?_, ?_⟩
  · rw [hnode, hu.term]
    exact hp.term
  · rw [hnode]
    exact hu.few hp.few
  rw [hnode]
  exact hu.ballot hp.ballot

include h hm hdest in
lemma Race.unmoved_sure (hu : Unmoved S x c m)
    (hall : ∀ y ∈ S.ids, y ≠ x → (c₀.node y).term < t) :
    SureStage S x t (c.deliver m) := by
  have hnode := deliver_node_x (c := c) hdest
  have hs := h.sure hall
  refine ⟨?_, ?_, ?_, fun a ha => hs.terms a (hu.flight hdest ha), ?_⟩
  · rw [hnode, hu.role]
    exact hs.role
  · intro y hy hyx
    rw [deliver_node_other hdest hyx]
    exact hs.free y hy hyx
  · rw [hnode, hu.role]
    intro hr y hy hyx
    obtain hask | hgrant | hvote := hs.coming hr y hy hyx
    · exact .inl (hask.keep_reply (h.letters m hm) hdest (.inl rfl))
    · exact .inr (hu.votes hr y hgrant)
    · exact .inr (.inr (hu.more y hvote))
  rw [hnode, hu.role]
  exact fun hr a ha => hs.preTerms hr a (hu.flight hdest ha)

include h hm hdest in
lemma Race.of_unmoved (hu : Unmoved S x c m) (hfit : Fit S x (c.heard x m).2)
    (hlead : (c.node x).role = .leader → LeadStage S x t c₀ (c.deliver m))
    (hrefuse : Refusal t m → t < (c.node x).term) : Race S x t bound c₀ (c.deliver m) := by
  refine h.of_reaction hm hdest hfit ?_ ?_ ?_ ?_ ?_ ?_ hu.term.ge ?_ (h.unmoved_sure hm hdest hu)
  · rw [hu.out]
    exact forall_mem_nil _
  · rw [hu.term]
    exact h.bounded
  · rw [hu.role]
    exact h.unmoved_pre hm hdest hu
  · rw [hu.role]
    exact h.unmoved_cand hdest hu
  · rw [hu.role]
    exact hlead
  · rw [hu.role, hu.term]
    exact h.lost
  rw [hu.term]
  exact hrefuse

lemma Ignored.unmoved (hwhy : Ignored (c.node x) m) (hout : (c.heard x m).1 = [])
    (hbare : bare (c.heard x m).2 = bare (c.node x)) : Unmoved S x c m := by
  have hvotes : (c.heard x m).2.votesGranted = (c.node x).votesGranted :=
    (congrArg Raft.votesGranted hbare :)
  have hquorum : voteQuorumOk (c.heard x m).2 = voteQuorumOk (c.node x) :=
    (congrArg voteQuorumOk hbare :)
  refine ⟨hout, (congrArg Raft.role hbare :), (congrArg Raft.term hbare :),
    (congrArg Raft.leaderId hbare :), (congrArg Raft.elapsedTicks hbare :), hquorum.trans,
    fun hb => by rwa [hvotes], fun y hy => by rwa [hvotes], fun hr y hgrant => ?_,
    fun hr y hgrant => ?_⟩
  · obtain ⟨hk, _, hrej⟩ | hgrant := hgrant.keep m
    · exfalso
      obtain h1 | ⟨h1, _⟩ | ⟨_, ⟨h1, _⟩ | ⟨_, h1⟩⟩ := hwhy
      · rw [hk] at h1
        cases h1
      · rw [hk] at h1
        cases h1
      · exact h1 hrej
      · exact h1 hr
    · exact .inl hgrant
  obtain ⟨hk, _, hrej⟩ | hgrant := hgrant.keep m
  · exfalso
    obtain h1 | ⟨_, _, h1 | h1⟩ | ⟨h1, _⟩ := hwhy
    · rw [hk] at h1
      cases h1
    · exact h1 hr
    · exact h1 hrej
    rw [hk] at h1
    cases h1
  · exact .inl hgrant

include h hm hdest in
lemma Race.ignore (hwhy : Ignored (c.node x) m) (hout : (c.heard x m).1 = [])
    (hbare : bare (c.heard x m).2 = bare (c.node x)) (hx : x ∈ S.ids) :
    Race S x t bound c₀ (c.deliver m) := by
  have hnode := deliver_node_x (c := c) hdest
  have hu : Unmoved S x c m := hwhy.unmoved hout hbare
  refine h.of_unmoved hm hdest hu ((h.fit x hx).hear hbare ⟨rfl, rfl, rfl⟩) (fun hr => ?_) ?_
  · have hp := h.lead hr
    refine ⟨?_, ?_, ?_, ?_⟩
    · rw [hnode, hu.term]
      exact hp.term
    · rw [hnode]
      exact (congrArg Raft.heartbeatElapsed hbare :).trans hp.fresh
    · rw [hnode]
      exact hp.caughtUp.of_bare hbare
    intro y hy hyx hle
    rw [deliver_node_other hdest hyx]
    obtain hask | hset := hp.told y hy hyx hle
    · exact .inl (hask.keep_reply (h.letters m hm) hdest (.inr (.inr rfl)))
    · exact .inr hset
  -- a refusal of a later term is not ignored
  rintro ⟨htype, hrej, hlt⟩
  obtain h1 | ⟨_, h1, _⟩ | ⟨_, ⟨_, h1⟩ | ⟨h1, _⟩⟩ := hwhy
  · rcases htype with h2 | h2 <;> rw [h1] at h2 <;> cases h2
  · omega
  · omega
  · exact absurd h1 hrej

include h hm hdest in
lemma Race.demote (hwhy : m.type = .voteResp ∨ m.type = .preVoteResp ∧ m.reject ≠ 0)
    (hlater : (c.node x).term < m.term) (hout : (c.heard x m).1 = [])
    (hbare : bare (c.heard x m).2 = demoted (bare (c.node x)) m.term 0)
    (hx : x ∈ S.ids) : Race S x t bound c₀ (c.deliver m) := by
  have hrole : (c.heard x m).2.role = .follower := (congrArg Raft.role hbare :)
  have hterm : (c.heard x m).2.term = m.term := (congrArg Raft.term hbare :)
  have hge := h.term_ge
  refine h.of_reaction hm hdest ((h.fit x hx).hear hbare ⟨rfl, rfl, rfl⟩)
    (by rw [hout]; exact forall_mem_nil _)
    (by rw [hterm]; exact ((h.letters m hm).reply_of_dest hdest).2.2.2)
    (other_role hrole (by decide)) (other_role hrole (by decide)) (other_role hrole (by decide))
    (fun _ => by omega) (by omega) (fun hk => by rw [hterm]; exact hk.2.2) (fun hall => ?_)
  -- nobody can have answered with a later term
  exfalso
  have hs := h.sure hall
  have hle := hs.terms m hm
  cases hr : (c.node x).role with
  | follower => exact hs.role hr
  | candidate =>
    have := (h.cand hr).term
    omega
  | leader =>
    have := (h.lead hr).term
    omega
  | preCandidate =>
    have hp := h.pre hr
    have hpt := hp.term
    obtain htype | ⟨_, hrej⟩ := hwhy
    · rcases hp.early m hm with h1 | h1 <;> rw [htype] at h1 <;> cases h1
    have := hs.preTerms hr m hm hrej
    omega

include h hdest in
lemma Race.unmoved_count (hletter : Letter S x t bound m) (hwhy : Counts (c.node x) m)
    (hfew : voteQuorumOk (recordVote (c.node x) m.sender) = false)
    (hout : (c.heard x m).1 = [])
    (hbare : bare (c.heard x m).2 = bare (recordVote (c.node x) m.sender))
    (hx : x ∈ S.ids) : Unmoved S x c m := by
  have hsender := (hletter.reply_of_dest hdest).2.1
  have hframe : (recordVote (c.node x) m.sender).role = (c.node x).role ∧
      (recordVote (c.node x) m.sender).term = (c.node x).term ∧
      (recordVote (c.node x) m.sender).leaderId = (c.node x).leaderId ∧
      (recordVote (c.node x) m.sender).elapsedTicks = (c.node x).elapsedTicks := by
    unfold recordVote
    split <;> exact ⟨rfl, rfl, rfl, rfl⟩
  have hvotes : (c.heard x m).2.votesGranted =
      (recordVote (c.node x) m.sender).votesGranted := (congrArg Raft.votesGranted hbare :)
  have hballot : Ballot S x (c.node x).votesGranted := by
    obtain ⟨_, hr⟩ | ⟨_, hr⟩ := hwhy.2
    · exact (h.cand hr).ballot
    · exact (h.pre hr).ballot
  obtain ⟨hballot', hin, hmore⟩ := Ballot.recordVote (h.fit x hx) hballot hsender
  rw [← hvotes] at hballot' hin hmore
  have hgranted : ∀ {typ y}, Granted c typ y →
      Granted (c.deliver m) typ y ∨ y ∈ (c.heard x m).2.votesGranted := by
    intro typ y hg
    obtain ⟨_, rfl, _⟩ | hg := hg.keep m
    · exact .inr hin
    · exact .inl hg
  exact
    { out := hout
      role := (congrArg Raft.role hbare :).trans hframe.1
      term := (congrArg Raft.term hbare :).trans hframe.2.1
      leaderId := (congrArg Raft.leaderId hbare :).trans hframe.2.2.1
      elapsed := (congrArg Raft.elapsedTicks hbare :).trans hframe.2.2.2
      few := fun _ => (congrArg voteQuorumOk hbare :).trans hfew
      ballot := fun _ => hballot'
      more := hmore
      preVotes := fun _ _ => hgranted
      votes := fun _ _ => hgranted }

include h hm hdest in
lemma Race.count (hwhy : Counts (c.node x) m)
    (hfew : voteQuorumOk (recordVote (c.node x) m.sender) = false)
    (hout : (c.heard x m).1 = [])
    (hbare : bare (c.heard x m).2 = recordVote (bare (c.node x)) m.sender)
    (hx : x ∈ S.ids) : Race S x t bound c₀ (c.deliver m) := by
  have hu : Unmoved S x c m := h.unmoved_count hdest (h.letters m hm) hwhy hfew hout
    (hbare.trans (bare_recordVote _ _).symm) hx
  refine h.of_unmoved hm hdest hu ((h.fit x hx).hear hbare (sameBase_recordVote _)) (fun hr => ?_)
    (fun hk => absurd hwhy.1 hk.2.1)
  -- a leader does not count votes
  rcases hwhy.2 with ⟨_, hr'⟩ | ⟨_, hr'⟩ <;> rw [hr'] at hr <;> cases hr

section

variable {f : Nat → Msg} (hout : (c.heard x m).1 = (others (c.node x)).map f)

include hout

include hdest in
lemma Fit.asked_all {typ : MsgType} (hfit : Fit S x (c.node x))
    (hf : ∀ y, (f y).type = typ ∧ (f y).dest = y) :
    ∀ y ∈ S.ids, y ≠ x → Asked (c.deliver m) typ y := by
  intro y hy hyx
  refine ⟨f y, sent_mem_flight hdest ?_, hf y⟩
  rw [hout]
  exact mem_map_of_mem (hfit.mem_others.2 ⟨hy, hyx⟩)

lemma Fit.letters_all (hfit : Fit S x (c.node x))
    (hl : ∀ y ∈ S.ids, y ≠ x → Letter S x t bound (f y)) :
    ∀ a ∈ (c.heard x m).1, Letter S x t bound a := by
  intro a ha
  rw [hout] at ha
  obtain ⟨y, hy, rfl⟩ := mem_map.1 ha
  obtain ⟨hyV, hyx⟩ := hfit.mem_others.1 hy
  exact hl y hyV hyx

include h hdest in
lemma Race.sure_all {role : Role} (hrole : (c.heard x m).2.role = role)
    (hwon : role = .candidate ∨ role = .leader) (hterm : ∀ y, (f y).term = t)
    (hcoming : role = .candidate → ∀ y ∈ S.ids, y ≠ x → Asked (c.deliver m) .vote y)
    (hall : ∀ y ∈ S.ids, y ≠ x → (c₀.node y).term < t) : SureStage S x t (c.deliver m) := by
  have hs := h.sure hall
  have hnode : ((c.deliver m).node x).role = role := by rw [deliver_node_x hdest, hrole]
  refine ⟨?_, ?_, fun hr y hy hyx => .inl (hcoming (hnode.symm.trans hr) y hy hyx), ?_, ?_⟩
  · rw [hnode]
    rcases hwon with rfl | rfl <;> decide
  · intro y hy hyx
    rw [deliver_node_other hdest hyx]
    exact hs.free y hy hyx
  · intro a ha
    obtain ha | ha := mem_deliver_flight_x hdest ha
    · exact hs.terms a ha
    rw [hout] at ha
    obtain ⟨y, _, rfl⟩ := mem_map.1 ha
    exact (hterm y).le
  rw [hnode]
  intro hr
  rcases hwon with rfl | rfl <;> cases hr

end

include h hm hdest in
lemma Race.run (hwhy : Counts (c.node x) m) (hpre : (c.node x).role = .preCandidate)
    (hout : (c.heard x m).1 =
      (others (c.node x)).map (requestTo (c.node x) .vote ((c.node x).term + 1)))
    (hbare : bare (c.heard x m).2 = running (bare (c.node x)))
    (hx : x ∈ S.ids) (hbound : t ≤ bound) : Race S x t bound c₀ (c.deliver m) := by
  have hnode := deliver_node_x (c := c) hdest
  have hfit := h.fit x hx
  have hpt := (h.pre hpre).term
  have hrole : (c.heard x m).2.role = .candidate := (congrArg Raft.role hbare :)
  have hterm : (c.heard x m).2.term = (c.node x).term + 1 := (congrArg Raft.term hbare :)
  have hvotes : (c.heard x m).2.votesGranted = [x] := by
    have hv : (c.heard x m).2.votesGranted = [(c.node x).conf.id] :=
      (congrArg Raft.votesGranted hbare :)
    rw [hv, hfit.member.id]
  have hfit' := hfit.hear hbare ⟨rfl, rfl, rfl⟩
  have hasked := hfit.asked_all hdest hout fun _ => ⟨rfl, rfl⟩
  refine h.of_reaction hm hdest hfit' (hfit.letters_all hout fun y hy hyx => ?_) (by omega)
    (other_role hrole (by decide)) (fun _ => ?_) (other_role hrole (by decide))
    (other_role hrole (by decide)) (by omega) (fun hk => absurd hwhy.1 hk.2.1)
    (h.sure_all hdest hout hrole (.inl rfl) (fun _ => hpt) fun _ => hasked)
  · exact .ask (.inl rfl) hfit.member.id hy hyx hpt hfit.last hfit.lastTerm
  refine ⟨by rw [hnode]; omega, ?_, ?_⟩
  · rw [hnode]
    exact hfit'.not_quorum_self ⟨rfl, rfl, rfl⟩ hvotes
  rw [hnode, hvotes]
  exact Ballot.own_vote hx

include h hm hdest in
lemma Race.win (hwhy : Counts (c.node x) m) (hcand : (c.node x).role = .candidate)
    (hout : (c.heard x m).1 = (others (c.node x)).map (heartbeatTo (c.node x)))
    (hbare : bare (c.heard x m).2 = becomeLeader (recordVote (bare (c.node x)) m.sender))
    (hx : x ∈ S.ids) : Race S x t bound c₀ (c.deliver m) := by
  have hnode := deliver_node_x (c := c) hdest
  have hfit := h.fit x hx
  have hpt := (h.cand hcand).term
  have hbase : SameBase (c.node x) (becomeLeader (recordVote (bare (c.node x)) m.sender)) :=
    sameBase_recordVote m.sender
  have hrole : (c.heard x m).2.role = .leader := (congrArg Raft.role hbare :)
  have hterm : (c.heard x m).2.term = (c.node x).term := by
    have ht : (c.heard x m).2.term = (recordVote (bare (c.node x)) m.sender).term :=
      (congrArg Raft.term hbare :)
    rw [ht]
    unfold recordVote
    split <;> rfl
  have hasked := hfit.asked_all hdest hout fun _ => ⟨rfl, rfl⟩
  refine h.of_reaction hm hdest (hfit.hear hbare hbase)
    (hfit.letters_all hout fun y hy hyx => .beat rfl hfit.member.id hy hyx hpt)
    (by rw [hterm]; exact h.bounded) (other_role hrole (by decide))
    (other_role hrole (by decide)) (fun _ => ?_) (other_role hrole (by decide)) hterm.ge
    (fun hk => absurd hwhy.1 hk.2.1)
    (h.sure_all hdest hout hrole (.inr rfl) (fun _ => hpt) (other_role rfl (by decide)))
  refine ⟨by rw [hnode, hterm]; exact hpt, ?_, ?_, fun y hy hyx _ => .inl (hasked y hy hyx)⟩
  · rw [hnode]
    exact (congrArg Raft.heartbeatElapsed hbare :)
  rw [hnode]
  rcases SameBase.of_bare (bare_recordVote (c.node x) m.sender)
    (sameBase_recordVote m.sender) with ⟨_, hmem, hlog⟩
  refine CaughtUp.of_bare (caughtUp_becomeLeader (r := recordVote (c.node x) m.sender) ?_ ?_)
    (hbare.trans (congrArg becomeLeader (bare_recordVote (c.node x) m.sender).symm))
  · rw [hmem]
    exact hfit.peers_length
  rw [hlog]
  exact hfit.compacted

end

lemma Race.deliver (h : Race S x t bound c₀ c) (hx : x ∈ S.ids)
    (hbound : t ≤ bound ∧ ∀ y ∈ S.ids, y ≠ x → (c₀.node y).term ≤ bound)
    (hm : m ∈ c.flight) : Race S x t bound c₀ (c.deliver m) := by
  have hl := h.letters m hm
  by_cases hdest : m.dest = x
  · cases hl.reaction hdest (h.fit x hx) with
    | same why sent node => exact h.ignore hm hdest why sent node hx
    | demoted why later sent node => exact h.demote hm hdest why later sent node hx
    | counted why few sent node => exact h.count hm hdest why few sent node hx
    | runs why role sent node => exact h.run hm hdest why role sent node hx hbound.1
    | leads why role sent node => exact h.win hm hdest why role sent node hx
  · exact h.answered hm (hl.dest_mem hdest) hdest hbound

/-- `x` leads everyone, or somebody knew of term `t` or a later one, or somebody's lease kept `x`
from running. -/
lemma Race.outcome (h : Race S x t bound c₀ c) (hx : x ∈ S.ids) (hempty : c.flight = []) :
    ((c.node x).role = .leader ∧ LeadStage S x t c₀ c ∧
        ∀ y ∈ S.ids, y ≠ x → Settled t (c.node y)) ∨
      ((c.node x).role ≠ .leader ∧ t ≤ (c.node x).term ∧
        ∃ y ∈ S.ids, y ≠ x ∧ t ≤ (c₀.node y).term) ∨
      ((c.node x).role ≠ .leader ∧ PreStage S x t c₀ c ∧
        ∃ y ∈ S.ids, y ≠ x ∧ Leased (c₀.node y)) := by
  have hnone : ∀ {P : Msg → Prop}, ¬ ∃ m ∈ c.flight, P m := by
    rintro P ⟨m, hm, _⟩
    rw [hempty] at hm
    cases hm
  have hhigh : ∀ y ∈ S.ids, y ≠ x → t < (c₀.node y).term → t < (c.node x).term := by
    intro y hy hyx hlt
    obtain hask | hask | href | hgt := h.high y hy hyx hlt
    · exact absurd hask hnone
    · exact absurd hask hnone
    · exact absurd href hnone
    · exact hgt
  -- with a vote of everyone the count would have ended the stage
  have hall : Ballot S x (c.node x).votesGranted →
      (∀ y ∈ S.ids, y ≠ x → y ∈ (c.node x).votesGranted) →
      voteQuorumOk (c.node x) = true := by
    intro hb hv
    refine (h.fit x hx).quorum_all fun j hj => ?_
    by_cases hjx : j = x
    · rw [hjx]
      exact hb.own
    · exact hv j hj hjx
  cases hrole : (c.node x).role with
  | leader =>
    have hl := h.lead hrole
    have hlt := hl.term
    refine .inl ⟨rfl, hl, fun y hy hyx => ?_⟩
    have hle : (c₀.node y).term ≤ t := by
      by_contra hgt
      have := hhigh y hy hyx (by omega)
      omega
    exact (hl.told y hy hyx hle).resolve_left hnone
  | candidate =>
    have hp := h.cand hrole
    refine .inr (.inl ⟨by decide, hp.term.ge, ?_⟩)
    by_contra hno
    have hlow : ∀ y ∈ S.ids, y ≠ x → (c₀.node y).term < t := by
      intro y hy hyx
      by_contra hge
      exact hno ⟨y, hy, hyx, by omega⟩
    have hq := hall hp.ballot fun y hy hyx =>
      (((h.sure hlow).coming hrole y hy hyx).resolve_left hnone).resolve_left hnone
    rw [hp.few] at hq
    cases hq
  | follower =>
    refine .inr (.inl ⟨by decide, h.lost hrole, ?_⟩)
    by_contra hno
    refine (h.sure fun y hy hyx => ?_).role hrole
    by_contra hge
    exact hno ⟨y, hy, hyx, by omega⟩
  | preCandidate =>
    have hp := h.pre hrole
    have hpt := hp.term
    refine .inr (.inr ⟨by decide, hp, ?_⟩)
    by_contra hno
    have hopen : ∀ y ∈ S.ids, y ≠ x → (c₀.node y).term ≤ t ∧ ¬ Leased (c₀.node y) := by
      refine fun y hy hyx => ⟨?_, fun hl => hno ⟨y, hy, hyx, hl⟩⟩
      by_contra hgt
      have := hhigh y hy hyx (by omega)
      omega
    have hq := hall hp.ballot fun y hy hyx =>
      ((hp.coming hopen y hy hyx).resolve_left hnone).resolve_left hnone
    rw [hp.few] at hq
    cases hq

end

end Cetcd.Net
