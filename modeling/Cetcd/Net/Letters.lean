import Cetcd.Net.Replies

/-!
# The messages of one campaign

Node `x` runs for term `t`. Every message of its campaign is a `Letter`; what another voter does
with one is an `Answer`, what `x` does with one a `Reaction`.
-/

namespace Cetcd.Net

open Lib Raft Protocol List

/-! ## The nodes -/

/-- What the nodes of an election have in common. -/
structure Setting where
  voters : Voters
  two : 2 ≤ voters.ids.length
  electionTick : Nat
  last : Nat
  lastTerm : Nat

abbrev Setting.ids (S : Setting) : List Nat := S.voters.ids

abbrev Setting.tick (S : Setting) (c : Net) : Net := c.tickAll S.voters

/-- What node `x` makes of a message. -/
abbrev heard (c : Net) (x : Nat) (m : Msg) : List Msg × Raft := hear (c.node x) m

/-- The part of a node that no election changes. -/
structure Fit (S : Setting) (i : Nat) (r : Raft) : Prop where
  member : Member S.voters i r.conf r.mem
  cap : S.voters.ids.length ≤ r.mem.peersCap
  timeout : r.conf.electionTimeout = S.electionTick
  beat : 0 < r.conf.heartbeatTimeout
  slack : r.conf.heartbeatTimeout < S.electionTick
  last : r.rlog.lastIndex = S.last
  lastTerm : r.rlog.lastTerm = S.lastTerm
  compacted : r.rlog.compacted ≤ r.rlog.lastIndex
  out : r.pending.msgs = []

/-- Configuration, membership and log are those of `r`. -/
def SameBase (r r' : Raft) : Prop := r'.conf = r.conf ∧ r'.mem = r.mem ∧ r'.rlog = r.rlog

section

variable {S : Setting} {i x y : Nat} {r r' b : Raft}

lemma SameBase.of_bare (h : bare r' = b) (hb : SameBase r b) : SameBase r r' := by
  subst h
  exact hb

lemma Fit.of_base (h : Fit S i r) (hb : SameBase r r') (hout : r'.pending.msgs = []) :
    Fit S i r' := by
  obtain ⟨hconf, hmem, hlog⟩ := hb
  refine ⟨?_, ?_, ?_, ?_, ?_, ?_, ?_, ?_, hout⟩
  · rw [hconf, hmem]
    exact h.member
  · rw [hmem]
    exact h.cap
  · rw [hconf]
    exact h.timeout
  · rw [hconf]
    exact h.beat
  · rw [hconf]
    exact h.slack
  · rw [hlog]
    exact h.last
  · rw [hlog]
    exact h.lastTerm
  rw [hlog]
  exact h.compacted

lemma Fit.hear (h : Fit S i r) {m : Msg} (hb : bare (hear r m).2 = b) (hbase : SameBase r b) :
    Fit S i (hear r m).2 :=
  h.of_base (SameBase.of_bare hb hbase) (flush_pending _)

lemma Fit.tick (h : Fit S i r) (hb : bare (flush (cetcdRaftTick r)).2 = b)
    (hbase : SameBase r b) : Fit S i (flush (cetcdRaftTick r)).2 :=
  h.of_base (SameBase.of_bare hb hbase) (flush_pending _)

lemma sameBase_stepped (t : Nat) : SameBase r (stepped (bare r) t) := by
  unfold stepped
  split <;> exact ⟨rfl, rfl, rfl⟩

lemma sameBase_recordVote (y : Nat) : SameBase r (recordVote (bare r) y) := by
  unfold recordVote
  split <;> exact ⟨rfl, rfl, rfl⟩

lemma Fit.peers_length (h : Fit S i r) : r.mem.peers.length ≤ maxPeers := by
  have hlen := h.member.peers.length_eq
  rw [length_map] at hlen
  rw [hlen]
  exact S.voters.card_le

lemma Fit.mem_others (h : Fit S i r) {j : Nat} : j ∈ others r ↔ j ∈ S.voters.ids ∧ j ≠ i := by
  unfold others
  rw [mem_filter, h.member.peers.mem_iff, h.member.id, decide_eq_true_iff]

lemma Fit.fromLearner (h : Fit S i r) (j : Nat) : fromLearner r j = false :=
  fromLearner_eq_false h.member.voters j

lemma Fit.not_quorum_self (h : Fit S i r) (hbase : SameBase r r') (hv : r'.votesGranted = [i]) :
    voteQuorumOk r' = false := by
  rw [Bool.eq_false_iff]
  intro hq
  obtain ⟨_, hmem, _⟩ := hbase
  have hmaj := majority_of_voteQuorumOk (hmem ▸ h.member.voters) (hmem ▸ h.peers_length) hq
  rw [hmem] at hmaj
  obtain ⟨f, hf, hmemb⟩ := hmaj.perm h.member.peers
  have hcount : S.voters.ids.countP f ≤ S.voters.ids.count i := by
    rw [List.count]
    refine countP_mono_left fun v hv' hfv => ?_
    have := hmemb v hv' hfv
    rw [hv, mem_singleton] at this
    simp [this]
  have hone := nodup_iff_count_le_one.1 S.voters.nodup i
  have := S.two
  omega

lemma Fit.quorum_all (h : Fit S i r) (hv : ∀ j ∈ S.voters.ids, j ∈ r.votesGranted) :
    voteQuorumOk r := by
  have hlen := h.member.peers.length_eq
  have htwo := S.two
  have hall : (incoming r).filter (voteFrom r) = incoming r := by
    rw [filter_eq_self]
    intro j hj
    rw [incoming_eq h.member.voters h.peers_length, h.member.peers.mem_iff] at hj
    simpa [voteFrom] using hv j hj
  have hcard : (incoming r).length = S.voters.ids.length := by
    rw [incoming_eq h.member.voters h.peers_length, hlen]
  unfold voteQuorumOk
  dsimp only
  rw [hall, hcard, h.member.outgoing, if_neg, if_pos rfl]
  unfold quorum
  omega

/-- The votes `x` has counted so far: distinct voters, and its own among them. -/
structure Ballot (S : Setting) (x : Nat) (votes : List Nat) : Prop where
  nodup : votes.Nodup
  voters : ∀ j ∈ votes, j ∈ S.voters.ids
  own : x ∈ votes

lemma Ballot.own_vote (hx : x ∈ S.voters.ids) : Ballot S x [x] where
  nodup := nodup_singleton x
  voters := fun _ hj => mem_singleton.1 hj ▸ hx
  own := mem_singleton.2 rfl

lemma Ballot.recordVote (h : Fit S i r) (hb : Ballot S i r.votesGranted) (hy : y ∈ S.voters.ids) :
    Ballot S i (recordVote r y).votesGranted ∧ y ∈ (recordVote r y).votesGranted ∧
      ∀ j ∈ r.votesGranted, j ∈ (recordVote r y).votesGranted := by
  unfold Raft.recordVote
  by_cases hin : y ∈ r.votesGranted
  · rw [if_neg (by simp [voteFrom, hin])]
    exact ⟨hb, hin, fun j hj => hj⟩
  have hlt : r.votesGranted.length < r.mem.peersCap := by
    have hsub : (y :: r.votesGranted).Subperm S.voters.ids := by
      refine subperm_of_subset (nodup_cons.2 ⟨hin, hb.nodup⟩) ?_
      intro j hj
      obtain rfl | hj := mem_cons.1 hj
      · exact hy
      · exact hb.voters j hj
    have hlen := hsub.length_le
    have hcap := h.cap
    rw [length_cons] at hlen
    omega
  rw [if_pos ⟨by simp [voteFrom, hin], hlt⟩]
  refine ⟨⟨?_, ?_, mem_append_left _ hb.own⟩, ?_, ?_⟩
  · rw [nodup_append]
    refine ⟨hb.nodup, nodup_singleton y, ?_⟩
    intro j hj k hk hjk
    rw [mem_singleton.1 hk] at hjk
    exact hin (hjk ▸ hj)
  · intro j hj
    obtain hj | hj := mem_append.1 hj
    · exact hb.voters j hj
    rw [mem_singleton.1 hj]
    exact hy
  · exact mem_append_right _ (mem_singleton.2 rfl)
  intro j hj
  exact mem_append_left _ hj

end

/-! ## The messages -/

/-- A message between `x`, which runs for term `t`, and another voter. -/
inductive Letter (S : Setting) (x t bound : Nat) (m : Msg) : Prop
  | ask (type : m.type = .vote ∨ m.type = .preVote) (sender : m.sender = x)
      (dest : m.dest ∈ S.voters.ids) (ne : m.dest ≠ x) (term : m.term = t)
      (index : m.index = S.last) (logTerm : m.logTerm = S.lastTerm)
  | beat (type : m.type = .heartbeat) (sender : m.sender = x) (dest : m.dest ∈ S.voters.ids)
      (ne : m.dest ≠ x) (term : m.term = t)
  | reply (type : m.type = .voteResp ∨ m.type = .preVoteResp ∨ m.type = .heartbeatResp)
      (dest : m.dest = x) (sender : m.sender ∈ S.voters.ids) (ne : m.sender ≠ x)
      (term : m.term ≤ bound)

lemma Letter.dest_mem {S : Setting} {x t bound : Nat} {m : Msg} (h : Letter S x t bound m)
    (hne : m.dest ≠ x) : m.dest ∈ S.voters.ids := by
  cases h with
  | ask _ _ dest | beat _ _ dest => exact dest
  | reply _ dest => exact absurd dest hne

/-- A message of this type is on its way to `y`. -/
def Asked (c : Net) (typ : MsgType) (y : Nat) : Prop :=
  ∃ m ∈ c.flight, m.type = typ ∧ m.dest = y

/-- A granting answer of this type is on its way from `y`. -/
def Granted (c : Net) (typ : MsgType) (y : Nat) : Prop :=
  ∃ m ∈ c.flight, m.type = typ ∧ m.sender = y ∧ m.reject = 0

def Refusal (t : Nat) (m : Msg) : Prop :=
  (m.type = .voteResp ∨ m.type = .preVoteResp) ∧ m.reject ≠ 0 ∧ t < m.term

/-- A refusal that names a term later than `t` is under way. -/
def Refused (c : Net) (t : Nat) : Prop := ∃ m ∈ c.flight, Refusal t m

section

variable {c : Net} {typ : MsgType} {y t : Nat}

lemma Asked.keep (h : Asked c typ y) (m : Msg) :
    (m.type = typ ∧ m.dest = y) ∨ Asked (c.deliver m) typ y :=
  exists_flight_deliver h m

lemma Granted.keep (h : Granted c typ y) (m : Msg) :
    (m.type = typ ∧ m.sender = y ∧ m.reject = 0) ∨ Granted (c.deliver m) typ y :=
  exists_flight_deliver h m

lemma Refused.keep (h : Refused c t) (m : Msg) : Refusal t m ∨ Refused (c.deliver m) t :=
  exists_flight_deliver h m

end

/-! ## What another voter does with a message of `x` -/

/-- The node follows in term `t` and has just heard of it. -/
def Settled (t : Nat) (r : Raft) : Prop := r.role = .follower ∧ r.term = t ∧ r.elapsedTicks = 0

/-- The node's vote of term `t` can go to `x`. -/
def Free (x t : Nat) (r : Raft) : Prop := r.term < t ∨ r.vote = 0 ∨ r.vote = x

/-- Voter `y` as it was, the message of `x` it got, what it answered and what it became. -/
structure Answer (S : Setting) (x t y : Nat) (r : Raft) (m : Msg) (out : List Msg) (r' : Raft) :
    Prop where
  fit : Fit S y r'
  role : r.role ≠ .leader → r'.role ≠ .leader
  term : r'.term = r.term ∨ r.term < t ∧ r'.term = t
  sent : out.length ≤ 1
  replies : ∀ a ∈ out, (a.type = .voteResp ∨ a.type = .preVoteResp ∨ a.type = .heartbeatResp) ∧
    a.dest = x ∧ a.sender = y ∧ a.term ≤ max r.term t
  pre : m.type = .preVote → bare r' = bare r ∧
    ∀ a ∈ out, a.type = .preVoteResp ∧ (a.reject ≠ 0 → a.term = r.term)
  refuses : m.type = .vote ∨ m.type = .preVote → t < r.term → ∃ a ∈ out, Refusal t a
  preGrants : m.type = .preVote → r.term ≤ t → ¬ Leased r →
    ∃ a ∈ out, a.type = .preVoteResp ∧ a.sender = y ∧ a.reject = 0
  grants : m.type = .vote → r.term ≤ t → Free x t r →
    ∃ a ∈ out, a.type = .voteResp ∧ a.sender = y ∧ a.reject = 0
  settles : m.type = .heartbeat → r.term ≤ t → Settled t r'
  settled : Settled t r → Settled t r'
  free : Free x t r → Free x t r'

section

variable {S : Setting} {x t y bound : Nat} {r : Raft} {m : Msg}

lemma Fit.logOk (h : Fit S y r) (hindex : m.index = S.last) (hterm : m.logTerm = S.lastTerm) :
    logOkForVote r m := by
  unfold logOkForVote
  rw [decide_eq_true_iff]
  exact .inr ⟨hterm.trans h.lastTerm.symm, (h.last.trans hindex.symm).le⟩

lemma no_type {a b : MsgType} (htype : m.type = a) {p : Prop} (hb : m.type = b) (hab : a ≠ b) : p :=
  absurd (htype.symm.trans hb) hab

lemma unmoved_bare (h : Fit S y r) (hbare : bare (hear r m).2 = bare r) (x t : Nat) :
    Fit S y (hear r m).2 ∧ (r.role ≠ .leader → (hear r m).2.role ≠ .leader) ∧
      (hear r m).2.term = r.term ∧ (Settled t r → Settled t (hear r m).2) ∧
      (Free x t r → Free x t (hear r m).2) := by
  have hrole : (hear r m).2.role = r.role := (congrArg Raft.role hbare :)
  have hterm : (hear r m).2.term = r.term := (congrArg Raft.term hbare :)
  have hvote : (hear r m).2.vote = r.vote := (congrArg Raft.vote hbare :)
  have helapsed : (hear r m).2.elapsedTicks = r.elapsedTicks :=
    (congrArg Raft.elapsedTicks hbare :)
  unfold Settled Free
  rw [hrole, hterm, hvote, helapsed]
  exact ⟨h.hear hbare ⟨rfl, rfl, rfl⟩, id, rfl, id, id⟩

lemma answer_preVote (h : Fit S y r) (htype : m.type = .preVote) (hsender : m.sender = x)
    (hterm : m.term = t) (hindex : m.index = S.last) (hlog : m.logTerm = S.lastTerm) :
    Answer S x t y r m (hear r m).1 (hear r m).2 := by
  obtain ⟨a, hout, hatype, hdest, hfrom, hbare, hcase⟩ := hear_preVote h.out htype
  rw [hterm] at hcase
  have hid : a.sender = y := hfrom.trans h.member.id
  obtain ⟨hfit, hrole, hterm', hsettled, hfree⟩ := unmoved_bare h hbare x t
  have hle : a.term ≤ max r.term t ∧ (a.reject ≠ 0 → a.term = r.term) := by
    obtain ⟨_, hat, _⟩ | ⟨hrej, hat, _⟩ := hcase
    · exact ⟨by omega, fun _ => hat⟩
    · exact ⟨by omega, fun hne => absurd hrej hne⟩
  rw [hout]
  refine
    { fit := hfit
      role := hrole
      term := .inl hterm'
      sent := le_rfl
      replies := ?_
      pre := fun _ => ⟨hbare, ?_⟩
      refuses := fun _ hlt => ⟨a, mem_singleton.2 rfl, .inr hatype, ?_⟩
      preGrants := fun _ hle hlease => ⟨a, mem_singleton.2 rfl, hatype, hid, ?_⟩
      grants := fun hp => no_type htype hp nofun
      settles := fun hp => no_type htype hp nofun
      settled := hsettled
      free := hfree }
  · intro b hb
    rw [mem_singleton.1 hb]
    exact ⟨.inr (.inl hatype), hdest.trans hsender, hid, hle.1⟩
  · intro b hb
    rw [mem_singleton.1 hb]
    exact ⟨hatype, hle.2⟩
  · obtain ⟨hrej, hat, _⟩ | ⟨_, _, hge, _⟩ := hcase
    · exact ⟨by omega, by omega⟩
    · omega
  · obtain ⟨_, _, hlt | hl | hl⟩ | ⟨hrej, _⟩ := hcase
    · omega
    · exact absurd hl hlease
    · rw [h.logOk hindex hlog] at hl
      cases hl
    · exact hrej

lemma stepped_bare (r : Raft) (t : Nat) :
    (stepped (bare r) t).role = (if r.term < t then .follower else r.role) ∧
      (stepped (bare r) t).term = (if r.term < t then t else r.term) := by
  unfold stepped
  change (if r.term < t then _ else _ : Raft).role = _ ∧ (if r.term < t then _ else _ : Raft).term = _
  split <;> exact ⟨rfl, rfl⟩

section

variable {a : Msg}

section

variable (h : Fit S y r) (htype : m.type = .vote) (hatype : a.type = .voteResp) (hdest : a.dest = x)
  (hid : a.sender = y)

include h htype hatype hdest hid

omit h htype in
lemma voteResp_replies (hle : a.term ≤ max r.term t) :
    ∀ b ∈ [a], (b.type = .voteResp ∨ b.type = .preVoteResp ∨ b.type = .heartbeatResp) ∧
      b.dest = x ∧ b.sender = y ∧ b.term ≤ max r.term t := by
  intro b hb
  rw [mem_singleton.1 hb]
  exact ⟨.inl hatype, hdest, hid, hle⟩

lemma answer_vote_unmoved (hrej : t < r.term → a.reject = 1) (hnofree : r.term ≤ t → ¬ Free x t r)
    (hat : a.term = max r.term t) (hbare : bare (hear r m).2 = bare r) :
    Answer S x t y r m [a] (hear r m).2 := by
  obtain ⟨hfit, hrole, hterm', hsettled, hfree⟩ := unmoved_bare h hbare x t
  exact
    { fit := hfit
      role := hrole
      term := .inl hterm'
      sent := le_rfl
      replies := voteResp_replies hatype hdest hid hat.le
      pre := fun hp => no_type htype hp nofun
      refuses := fun _ hlt => ⟨a, mem_singleton.2 rfl, .inl hatype, by omega, by omega⟩
      preGrants := fun hp => no_type htype hp nofun
      grants := fun _ hge hfr => absurd hfr (hnofree hge)
      settles := fun hp => no_type htype hp nofun
      settled := hsettled
      free := hfree }

lemma answer_vote_granted (hsender : m.sender = x) (hle : r.term ≤ t) (hrej : a.reject = 0)
    (hat : a.term = t)
    (hbare : bare (hear r m).2 = { stepped (bare r) t with vote := m.sender, elapsedTicks := 0 }) :
    Answer S x t y r m [a] (hear r m).2 := by
  have hrole : (hear r m).2.role = (stepped (bare r) t).role := (congrArg Raft.role hbare :)
  have hterm' : (hear r m).2.term = (stepped (bare r) t).term := (congrArg Raft.term hbare :)
  have hvote : (hear r m).2.vote = m.sender := (congrArg Raft.vote hbare :)
  have helapsed : (hear r m).2.elapsedTicks = 0 := (congrArg Raft.elapsedTicks hbare :)
  rw [(stepped_bare r t).1] at hrole
  rw [(stepped_bare r t).2] at hterm'
  refine
    { fit := h.hear hbare (sameBase_stepped t)
      role := fun hne => ?_
      term := ?_
      sent := le_rfl
      replies := voteResp_replies hatype hdest hid (by omega)
      pre := fun hp => no_type htype hp nofun
      refuses := fun _ hlt => absurd hlt (by omega)
      preGrants := fun hp => no_type htype hp nofun
      grants := fun _ _ _ => ⟨a, mem_singleton.2 rfl, hatype, hid, hrej⟩
      settles := fun hp => no_type htype hp nofun
      settled := fun hs => ⟨?_, ?_, helapsed⟩
      free := fun _ => .inr (.inr (hvote.trans hsender)) }
  · rw [hrole]
    split
    · decide
    · exact hne
  · rw [hterm']
    split
    · exact .inr ⟨by assumption, rfl⟩
    · exact .inl rfl
  · rw [hrole, if_neg (by have := hs.2.1; omega)]
    exact hs.1
  rw [hterm', if_neg (by have := hs.2.1; omega)]
  exact hs.2.1

end

end

lemma answer_vote (h : Fit S y r) (htype : m.type = .vote) (hsender : m.sender = x)
    (hterm : m.term = t) (hindex : m.index = S.last) (hlog : m.logTerm = S.lastTerm) :
    Answer S x t y r m (hear r m).1 (hear r m).2 := by
  rcases hear_vote h.out htype with ⟨a, hout, hatype, hdest, hfrom, hcase⟩
  have hdest' : a.dest = x := hdest.trans hsender
  have hid : a.sender = y := hfrom.trans h.member.id
  rw [hterm] at hcase
  rw [hout]
  rcases hcase with ⟨hlt, hrej, hat, hbare⟩ | ⟨hle, _, _, hrej, hat, hbare⟩ |
    ⟨hle, hno, _, hat, hbare⟩
  · exact answer_vote_unmoved h htype hatype hdest' hid (fun _ => hrej) (fun hle => absurd hle (by omega))
      (by omega) hbare
  · exact answer_vote_granted h htype hatype hdest' hid hsender hle hrej hat hbare
  -- the log is good enough, so it was the vote that was missing
  have hfree : FreeFor r m ↔ Free x t r := by
    unfold FreeFor Free
    rw [hterm, hsender]
  have hnofree : ¬ Free x t r := fun hfr => hno ⟨hfree.2 hfr, h.logOk hindex hlog⟩
  have hsame : stepped (bare r) t = bare r := if_neg fun hlt => hnofree (.inl hlt)
  exact answer_vote_unmoved h htype hatype hdest' hid (fun hlt => absurd hle (by omega))
    (fun _ => hnofree) (by omega) (hbare.trans hsame)

lemma answer_heartbeat (h : Fit S y r) (htype : m.type = .heartbeat) (hsender : m.sender = x)
    (hterm : m.term = t) : Answer S x t y r m (hear r m).1 (hear r m).2 := by
  have hnotpre : ∀ {p : Prop}, m.type = .preVote → p := fun hp => no_type htype hp nofun
  have hnotvote : ∀ {p : Prop}, m.type = .vote → p := fun hp => no_type htype hp nofun
  obtain hlt | hge := lt_or_ge t r.term
  · -- a heartbeat of an earlier term is dropped
    obtain ⟨hout, hbare, _⟩ := hear_heartbeat_stale h.out htype (by omega)
    obtain ⟨hfit, hrole, hterm', _, hfree⟩ := unmoved_bare h hbare x t
    rw [hout]
    exact
      { fit := hfit
        role := hrole
        term := .inl hterm'
        sent := Nat.zero_le 1
        replies := fun a ha => absurd ha (not_mem_nil)
        pre := hnotpre
        refuses := fun hp => hp.elim hnotvote hnotpre
        preGrants := hnotpre
        grants := hnotvote
        settles := fun _ hle => absurd hle (by omega)
        settled := fun hs => absurd hs.2.1 (by omega)
        free := hfree }
  rcases hear_heartbeat h.out htype (by omega) with
    ⟨a, hout, hatype, hdest, hfrom, hat, _, hbare, _⟩
  have hrole : (hear r m).2.role = .follower := (congrArg Raft.role hbare :)
  have hterm' : (hear r m).2.term = m.term := (congrArg Raft.term hbare :)
  have hvote : (hear r m).2.vote = if r.term < m.term then 0 else r.vote :=
    (congrArg Raft.vote hbare :)
  have helapsed : (hear r m).2.elapsedTicks = 0 := (congrArg Raft.elapsedTicks hbare :)
  rw [hout]
  refine
    { fit := h.hear hbare ⟨rfl, rfl, rfl⟩
      role := fun _ => by rw [hrole]; decide
      term := ?_
      sent := le_rfl
      replies := ?_
      pre := hnotpre
      refuses := fun hp => hp.elim hnotvote hnotpre
      preGrants := hnotpre
      grants := hnotvote
      settles := fun _ _ => ⟨hrole, hterm'.trans hterm, helapsed⟩
      settled := fun _ => ⟨hrole, hterm'.trans hterm, helapsed⟩
      free := fun hfr => .inr ?_ }
  · rw [hterm', hterm]
    obtain hlt | hge' := lt_or_ge r.term t
    · exact .inr ⟨hlt, rfl⟩
    · exact .inl (by omega)
  · intro b hb
    rw [mem_singleton.1 hb]
    exact ⟨.inr (.inr hatype), hdest.trans hsender, hfrom.trans h.member.id, by omega⟩
  rw [hvote, hterm]
  split
  · exact .inl rfl
  rename_i hnlt
  exact hfr.resolve_left hnlt

lemma Letter.answer (hm : Letter S x t bound m) (hne : m.dest ≠ x) (h : Fit S m.dest r) :
    Answer S x t m.dest r m (hear r m).1 (hear r m).2 := by
  cases hm with
  | ask type sender _ _ term index logTerm =>
    obtain htype | htype := type
    · exact answer_vote h htype sender term index logTerm
    · exact answer_preVote h htype sender term index logTerm
  | beat type sender _ _ term => exact answer_heartbeat h type sender term
  | reply _ dest => exact absurd dest hne

end

/-! ## What `x` does with an answer -/

/-- The answer makes no difference to the node. -/
def Ignored (r : Raft) (m : Msg) : Prop :=
  m.type = .heartbeatResp ∨
    (m.type = .voteResp ∧ m.term ≤ r.term ∧ (r.role ≠ .candidate ∨ m.reject ≠ 0)) ∨
    (m.type = .preVoteResp ∧
      (m.reject ≠ 0 ∧ m.term ≤ r.term ∨ m.reject = 0 ∧ r.role ≠ .preCandidate))

/-- The answer is a vote in the count the node is holding. -/
def Counts (r : Raft) (m : Msg) : Prop :=
  m.reject = 0 ∧
    (m.type = .voteResp ∧ r.role = .candidate ∨ m.type = .preVoteResp ∧ r.role = .preCandidate)

/-- Node `r`, the answer it got, what it sent and what it became. -/
inductive Reaction (r : Raft) (m : Msg) (out : List Msg) (r' : Raft) : Prop
  | same (why : Ignored r m) (sent : out = []) (node : bare r' = bare r)
  | demoted (why : m.type = .voteResp ∨ m.type = .preVoteResp ∧ m.reject ≠ 0)
      (later : r.term < m.term) (sent : out = []) (node : bare r' = demoted (bare r) m.term 0)
  | counted (why : Counts r m) (few : voteQuorumOk (recordVote r m.sender) = false)
      (sent : out = []) (node : bare r' = recordVote (bare r) m.sender)
  | runs (why : Counts r m) (role : r.role = .preCandidate)
      (sent : out = (others r).map (requestTo r .vote (r.term + 1)))
      (node : bare r' = running (bare r))
  | leads (why : Counts r m) (role : r.role = .candidate)
      (sent : out = (others r).map (heartbeatTo r))
      (node : bare r' = becomeLeader (recordVote (bare r) m.sender))

section

variable {S : Setting} {x : Nat} {r : Raft} {m : Msg}

lemma reaction_voteResp (h : Fit S x r) (htype : m.type = .voteResp) :
    Reaction r m (hear r m).1 (hear r m).2 := by
  obtain hlt | hge := lt_or_ge r.term m.term
  · obtain ⟨hout, hbare⟩ := hear_voteResp_later h.out htype hlt
    exact .demoted (.inl htype) hlt hout hbare
  by_cases hno : r.role ≠ .candidate ∨ m.reject ≠ 0
  · obtain ⟨hout, hbare⟩ := hear_voteResp_ignored h.out htype hge hno
    exact .same (.inr (.inl ⟨htype, hge, hno⟩)) hout hbare
  obtain ⟨hrole, hrej⟩ := not_or.1 hno
  have hrole := not_not.1 hrole
  have hrej := not_not.1 hrej
  have hwhy : Counts r m := ⟨hrej, .inl ⟨htype, hrole⟩⟩
  rcases hear_voteResp_granted h.out htype hge hrole hrej (h.fromLearner _) with
    ⟨hq, hout, hbare⟩ | ⟨_, hout, hbare⟩
  · exact .counted hwhy hq hout hbare
  · exact .leads hwhy hrole hout hbare

lemma reaction_preVoteResp (h : Fit S x r) (htype : m.type = .preVoteResp) :
    Reaction r m (hear r m).1 (hear r m).2 := by
  by_cases hrej : m.reject = 0
  · by_cases hrole : r.role = .preCandidate
    · have halone : voteQuorumOk (running r) = false :=
        h.not_quorum_self ⟨rfl, rfl, rfl⟩ (congrArg (fun i => [i]) h.member.id)
      have hwhy : Counts r m := ⟨hrej, .inr ⟨htype, hrole⟩⟩
      rcases hear_preVoteResp_granted h.out htype hrej hrole (h.fromLearner _) halone with
        ⟨hq, hout, hbare⟩ | ⟨_, hout, hbare⟩
      · exact .counted hwhy hq hout hbare
      · exact .runs hwhy hrole hout hbare
    obtain ⟨hout, hbare⟩ := hear_preVoteResp_ignored h.out htype hrej hrole
    exact .same (.inr (.inr ⟨htype, .inr ⟨hrej, hrole⟩⟩)) hout hbare
  obtain ⟨hout, hbare⟩ := hear_preVoteResp_rejected h.out htype hrej
  obtain hlt | hge := lt_or_ge r.term m.term
  · have hstep : stepped (bare r) m.term = Net.demoted (bare r) m.term 0 := if_pos hlt
    exact .demoted (.inr ⟨htype, hrej⟩) hlt hout (hbare.trans hstep)
  have hstep : stepped (bare r) m.term = bare r := if_neg (not_lt.2 hge)
  exact .same (.inr (.inr ⟨htype, .inl ⟨hrej, hge⟩⟩)) hout (hbare.trans hstep)

lemma Letter.reaction {t bound : Nat} (hm : Letter S x t bound m) (hdest : m.dest = x)
    (h : Fit S x r) : Reaction r m (hear r m).1 (hear r m).2 := by
  cases hm with
  | ask _ _ _ ne | beat _ _ _ ne => exact absurd hdest ne
  | reply type =>
    obtain htype | htype | htype := type
    · exact reaction_voteResp h htype
    · exact reaction_preVoteResp h htype
    obtain ⟨hout, hbare, _⟩ := hear_heartbeatResp h.out htype
    exact .same (.inl htype) hout hbare

end

end Cetcd.Net
