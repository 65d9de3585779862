import Cetcd.Net.Model
import Cetcd.Protocol.Refine

/-!
# What a node does with a tick and with each message of an election

One lemma for each call: the messages it puts out and the node it leaves, up to `bare`, which
forgets the commit and applied indices and the pending Ready.
-/

namespace Cetcd.Net

open Lib Raft Protocol List ZeroArray

/-! ## Bare nodes -/

/-- A node without commit index, applied index and pending Ready. -/
def bare (r : Raft) : Raft :=
  { r with
    commit := 0
    applied := 0
    pending := { hs := none, entries := [], msgs := [], hasPending := false } }

@[simp] lemma bare_flush (r : Raft) : bare (flush r).2 = bare r := by
  unfold flush cetcdRaftAdvance
  dsimp only
  split <;> rfl

lemma flush_pending (r : Raft) : (flush r).2.pending.msgs = [] := by
  unfold flush cetcdRaftAdvance
  dsimp only
  split <;> rfl

lemma flush_commit (r : Raft) : (flush r).2.commit = r.commit := by
  unfold flush cetcdRaftAdvance
  dsimp only
  split <;> rfl

@[simp] lemma bare_followCommit (r : Raft) (k : Nat) : bare (followCommit r k) = bare r := by
  unfold followCommit
  split <;> rfl

lemma followCommit_msgs (r : Raft) (k : Nat) :
    (followCommit r k).pending.msgs = r.pending.msgs := by
  unfold followCommit
  split <;> rfl

/-- The node after it has learnt of a later term. -/
def demoted (r : Raft) (t leader : Nat) : Raft :=
  { r with role := .follower, leaderId := leader, term := t, vote := 0, elapsedTicks := 0 }

/-- `stepDown` up to `bare`. -/
def stepped (r : Raft) (t : Nat) : Raft := if r.term < t then demoted r t 0 else r

lemma bare_stepDown (r : Raft) (t : Nat) : bare (stepDown r t 0) = stepped (bare r) t := by
  unfold stepDown stepped becomeFollower
  change _ = if r.term < t then demoted (bare r) t 0 else bare r
  split <;> rfl

lemma stepDown_msgs (r : Raft) (t leader : Nat) :
    (stepDown r t leader).pending.msgs = r.pending.msgs := by
  unfold stepDown becomeFollower
  split <;> rfl

variable {r : Raft}

/-! ## Requests of a candidate -/

section

variable {f : Raft} {m : Msg} (hout : f.pending.msgs = [])

lemma hear_eq {r1 : Raft} (h : (cetcdRaftStep f m).2 = r1) :
    (hear f m).1 = r1.pending.msgs ∧ bare (hear f m).2 = bare r1 := by
  unfold hear
  rw [h]
  exact ⟨rfl, bare_flush r1⟩

include hout in
lemma hear_queueMsg {r1 : Raft} {a : Msg} (h : (cetcdRaftStep f m).2 = queueMsg r1 a)
    (hmsgs : r1.pending.msgs = f.pending.msgs) :
    (hear f m).1 = [a] ∧ bare (hear f m).2 = bare r1 := by
  obtain ⟨h1, h2⟩ := hear_eq h
  refine ⟨?_, h2⟩
  rw [h1]
  change r1.pending.msgs ++ [a] = [a]
  rw [hmsgs, hout]
  rfl

lemma step_vote (htype : m.type = .vote) : (cetcdRaftStep f m).2 = handleVote f m := by
  unfold cetcdRaftStep
  rw [htype]

/-- The vote is free: none was given in the message's term, or it was given to the sender. -/
def FreeFor (f : Raft) (m : Msg) : Prop := f.term < m.term ∨ f.vote = 0 ∨ f.vote = m.sender

include hout in
/-- A Vote is refused by a node of a later term, and otherwise granted if the vote is free and the
log not ahead. -/
lemma hear_vote (htype : m.type = .vote) :
    ∃ a, (hear f m).1 = [a] ∧ a.type = .voteResp ∧ a.dest = m.sender ∧ a.sender = f.conf.id ∧
      ((m.term < f.term ∧ a.reject = 1 ∧ a.term = f.term ∧ bare (hear f m).2 = bare f) ∨
        (f.term ≤ m.term ∧ FreeFor f m ∧ logOkForVote f m ∧ a.reject = 0 ∧ a.term = m.term ∧
          bare (hear f m).2 = { stepped (bare f) m.term with vote := m.sender, elapsedTicks := 0 }) ∨
        (f.term ≤ m.term ∧ ¬ (FreeFor f m ∧ logOkForVote f m = true) ∧ a.reject = 1 ∧
          a.term = m.term ∧ bare (hear f m).2 = stepped (bare f) m.term)) := by
  have hstep := step_vote (f := f) htype
  unfold handleVote at hstep
  by_cases hstale : m.term < f.term
  · rw [if_pos hstale] at hstep
    obtain ⟨h1, h2⟩ := hear_queueMsg hout hstep rfl
    exact ⟨_, h1, rfl, rfl, rfl, .inl ⟨hstale, rfl, rfl, h2⟩⟩
  rw [if_neg hstale] at hstep
  dsimp only at hstep
  obtain ⟨hterm, hlog, _, hmsgs, hconf, _⟩ := stepDown_spec (r := f) 0 (Nat.le_of_not_lt hstale)
  have hbare := bare_stepDown f m.term
  have hfree : FreeFor f m ↔
      (stepDown f m.term 0).vote = 0 ∨ (stepDown f m.term 0).vote = m.sender := by
    unfold FreeFor stepDown becomeFollower queueHardState
    split
    · rename_i hlt
      exact ⟨fun _ => .inl rfl, fun _ => .inl hlt⟩
    rename_i hlt
    exact ⟨fun h => h.resolve_left hlt, .inr⟩
  have hok : logOkForVote (stepDown f m.term 0) m = logOkForVote f m := by
    unfold logOkForVote
    rw [hlog]
  generalize stepDown f m.term 0 = r1 at hstep hterm hmsgs hbare hconf hfree hok
  by_cases hgrant : FreeFor f m ∧ logOkForVote f m = true
  · rw [if_pos ⟨hfree.1 hgrant.1, hok.trans hgrant.2⟩] at hstep
    obtain ⟨h1, h2⟩ := hear_queueMsg hout hstep hmsgs
    refine ⟨_, h1, rfl, rfl, congrArg Conf.id hconf, .inr (.inl ⟨by omega, hgrant.1, hgrant.2, rfl,
      hterm, ?_⟩)⟩
    rw [h2, ← hbare]
    rfl
  rw [if_neg (fun h => hgrant ⟨hfree.2 h.1, hok.symm.trans h.2⟩)] at hstep
  obtain ⟨h1, h2⟩ := hear_queueMsg hout hstep hmsgs
  exact ⟨_, h1, rfl, rfl, congrArg Conf.id hconf,
    .inr (.inr ⟨by omega, hgrant, rfl, hterm, h2.trans hbare⟩)⟩

/-- The node trusts a leader it heard of less than an election timeout ago. -/
def Leased (f : Raft) : Prop :=
  f.conf.checkQuorum = true ∧ f.leaderId ≠ 0 ∧ f.elapsedTicks < f.conf.electionTimeout

lemma step_preVote (htype : m.type = .preVote) : (cetcdRaftStep f m).2 = handlePreVote f m := by
  unfold cetcdRaftStep
  rw [htype]

include hout in
lemma hear_preVote (htype : m.type = .preVote) :
    ∃ a, (hear f m).1 = [a] ∧ a.type = .preVoteResp ∧ a.dest = m.sender ∧ a.sender = f.conf.id ∧
      bare (hear f m).2 = bare f ∧
      ((a.reject = 1 ∧ a.term = f.term ∧ (m.term < f.term ∨ Leased f ∨ logOkForVote f m = false)) ∨
        (a.reject = 0 ∧ a.term = m.term ∧ f.term ≤ m.term ∧ ¬ Leased f)) := by
  have hstep := step_preVote (f := f) htype
  unfold handlePreVote at hstep
  obtain ⟨h1, h2⟩ := hear_queueMsg hout hstep rfl
  refine ⟨_, h1, rfl, rfl, rfl, h2, ?_⟩
  dsimp only
  by_cases hrej : (decide (m.term < f.term) || (f.conf.checkQuorum && decide (f.leaderId ≠ 0) &&
        decide (f.elapsedTicks < f.conf.electionTimeout)) || !logOkForVote f m) = true
  · rw [if_pos hrej, if_pos hrej]
    refine .inl ⟨rfl, rfl, ?_⟩
    simp only [Bool.or_eq_true, Bool.and_eq_true, decide_eq_true_eq, Bool.not_eq_true'] at hrej
    obtain (hlt | hlease) | hlog := hrej
    · exact .inl hlt
    · exact .inr (.inl ⟨hlease.1.1, hlease.1.2, hlease.2⟩)
    · exact .inr (.inr hlog)
  rw [if_neg hrej, if_neg hrej]
  simp only [Bool.or_eq_true, Bool.and_eq_true, decide_eq_true_eq, Bool.not_eq_true',
    not_or, not_lt] at hrej
  exact .inr ⟨rfl, rfl, hrej.1.1, fun h => hrej.1.2 ⟨⟨h.1, h.2.1⟩, h.2.2⟩⟩

lemma hear_request_commit (htype : m.type = .vote ∨ m.type = .preVote) :
    (hear f m).2.commit = f.commit := by
  unfold hear
  rw [flush_commit]
  obtain htype | htype := htype
  · rw [step_vote htype]
    unfold handleVote stepDown becomeFollower
    split
    · rfl
    dsimp only
    split_ifs <;> rfl
  rw [step_preVote htype]
  rfl

/-! ## Heartbeats -/

/-- The node after it has heard from the leader of term `t`. -/
def following (r : Raft) (t leader : Nat) : Raft :=
  { r with
    role := .follower
    term := t
    vote := if r.term < t then 0 else r.vote
    leaderId := leader
    elapsedTicks := 0 }

lemma bare_acceptLeader (h : f.term ≤ m.term) :
    bare (acceptLeader f m) = following (bare f) m.term m.sender ∧
      (acceptLeader f m).pending.msgs = f.pending.msgs ∧
      (acceptLeader f m).commit = f.commit := by
  by_cases hlt : f.term < m.term
  · have hdown : stepDown f m.term m.sender = queueHardState (demoted f m.term m.sender) := by
      unfold stepDown becomeFollower
      rw [if_pos hlt, if_pos hlt]
      rfl
    have hfollow : following (bare f) m.term m.sender = demoted (bare f) m.term m.sender := by
      have hvote : (if (bare f).term < m.term then 0 else (bare f).vote) = 0 := if_pos hlt
      unfold following
      rw [hvote]
      rfl
    unfold acceptLeader
    rw [hdown, hfollow]
    exact ⟨rfl, rfl, rfl⟩
  have heq : f.term = m.term := by omega
  have hdown : stepDown f m.term m.sender = f := if_neg hlt
  have hvote : (if (bare f).term < m.term then 0 else (bare f).vote) = f.vote := if_neg hlt
  unfold acceptLeader following
  rw [hdown, hvote, ← heq]
  dsimp only
  split
  · unfold becomeFollower
    rw [if_neg (lt_irrefl _)]
    exact ⟨rfl, rfl, rfl⟩
  rename_i hrole
  rw [← not_not.1 hrole]
  exact ⟨rfl, rfl, rfl⟩

lemma step_heartbeat (htype : m.type = .heartbeat) :
    (cetcdRaftStep f m).2 = handleHeartbeat f m := by
  unfold cetcdRaftStep
  rw [htype]

include hout in
lemma hear_heartbeat (htype : m.type = .heartbeat) (h : f.term ≤ m.term) :
    ∃ a, (hear f m).1 = [a] ∧ a.type = .heartbeatResp ∧ a.dest = m.sender ∧
      a.sender = f.conf.id ∧ a.term = m.term ∧ a.reject = 0 ∧
      bare (hear f m).2 = following (bare f) m.term m.sender ∧
      (hear f m).2.commit = max f.commit (min m.commit f.rlog.lastIndex) := by
  obtain ⟨hbare, hmsgs, hcommit⟩ := bare_acceptLeader h
  have hstep := step_heartbeat (f := f) htype
  unfold handleHeartbeat at hstep
  rw [if_neg (by omega)] at hstep
  dsimp only at hstep
  have hb := bare_followCommit (acceptLeader f m) m.commit
  obtain ⟨h1, h2⟩ := hear_queueMsg hout hstep (by rw [followCommit_msgs, hmsgs])
  have hconf : (followCommit (acceptLeader f m) m.commit).conf = f.conf := by
    exact (congrArg Raft.conf (hb.trans hbare) :)
  have hterm : (followCommit (acceptLeader f m) m.commit).term = m.term := by
    exact (congrArg Raft.term (hb.trans hbare) :)
  refine ⟨_, h1, rfl, rfl, congrArg Conf.id hconf, hterm, rfl, h2.trans (hb.trans hbare), ?_⟩
  have hlog : (acceptLeader f m).rlog = f.rlog := (congrArg Raft.rlog hbare :)
  unfold hear
  rw [hstep, flush_commit]
  change (followCommit (acceptLeader f m) m.commit).commit = _
  have hview := congrArg View.commit (view_followCommit (acceptLeader f m) m.commit)
  rw [← hcommit, ← hlog]
  exact hview

include hout in
lemma hear_heartbeat_stale (htype : m.type = .heartbeat) (h : m.term < f.term) :
    (hear f m).1 = [] ∧ bare (hear f m).2 = bare f ∧ (hear f m).2.commit = f.commit := by
  have hstep := step_heartbeat (f := f) htype
  unfold handleHeartbeat at hstep
  rw [if_pos h] at hstep
  obtain ⟨h1, h2⟩ := hear_eq hstep
  refine ⟨h1.trans hout, h2, ?_⟩
  unfold hear
  rw [hstep, flush_commit]

include hout in
lemma hear_heartbeatResp (htype : m.type = .heartbeatResp) :
    (hear f m).1 = [] ∧ bare (hear f m).2 = bare f ∧ (hear f m).2.commit = f.commit := by
  have hstep : (cetcdRaftStep f m).2 = f := by
    unfold cetcdRaftStep
    rw [htype]
  obtain ⟨h1, h2⟩ := hear_eq hstep
  refine ⟨h1.trans hout, h2, ?_⟩
  unfold hear
  rw [hstep, flush_commit]

end

/-! ## Broadcasts -/

/-- The peers a node sends its broadcasts to. -/
def others (r : Raft) : List Nat := (r.mem.peers.map Peer.id).filter (fun j => j ≠ r.conf.id)

/-- What a (pre-)candidate asks one peer. -/
def requestTo (r : Raft) (typ : MsgType) (t y : Nat) : Msg :=
  { type := typ
    dest := y
    sender := r.conf.id
    term := t
    logTerm := r.rlog.lastTerm
    index := r.rlog.lastIndex }

lemma foldl_queueMsg (i : Nat) (f : Nat → Msg) (ps : List Peer) (acc : Raft) :
    let res := ps.foldl (fun a p => if p.id = i then a else queueMsg a (f p.id)) acc
    res.pending.msgs = acc.pending.msgs ++ ((ps.map Peer.id).filter (fun j => j ≠ i)).map f ∧
      bare res = bare acc ∧ res.commit = acc.commit := by
  induction ps generalizing acc with
  | nil => exact ⟨(append_nil _).symm, rfl, rfl⟩
  | cons p ps ih =>
    dsimp only
    rw [foldl_cons, map_cons]
    by_cases hp : p.id = i
    · rw [if_pos hp, filter_cons_of_neg (by simp [hp])]
      exact ih acc
    rw [if_neg hp, filter_cons_of_pos (by simp [hp])]
    obtain ⟨h1, h2, h3⟩ := ih (queueMsg acc (f p.id))
    refine ⟨?_, h2, h3⟩
    rw [h1]
    change (acc.pending.msgs ++ [f p.id]) ++ _ = _
    rw [append_assoc]
    rfl

lemma sendVoteRequests_spec (r : Raft) (typ : MsgType) (t : Nat) :
    (sendVoteRequests r typ t).pending.msgs = r.pending.msgs ++ (others r).map (requestTo r typ t) ∧
      bare (sendVoteRequests r typ t) = bare r := by
  obtain ⟨h1, h2, _⟩ := foldl_queueMsg r.conf.id (requestTo r typ t) r.mem.peers r
  exact ⟨h1, h2⟩

lemma sendVoteRequests_alone {r : Raft} (hout : r.pending.msgs = []) (typ : MsgType) (t : Nat) :
    (sendVoteRequests r typ t).pending.msgs = (others r).map (requestTo r typ t) ∧
      bare (sendVoteRequests r typ t) = bare r := by
  obtain ⟨h1, h2⟩ := sendVoteRequests_spec r typ t
  exact ⟨by rw [h1, hout, nil_append], h2⟩

lemma leaderBroadcastHeartbeat_spec (h : r.role = .leader) :
    (leaderBroadcastHeartbeat r).pending.msgs = r.pending.msgs ++ (others r).map (heartbeatTo r) ∧
      bare (leaderBroadcastHeartbeat r) = bare r := by
  unfold leaderBroadcastHeartbeat
  rw [if_neg (not_not.2 h)]
  obtain ⟨h1, h2, _⟩ := foldl_queueMsg r.conf.id (heartbeatTo r) r.mem.peers r
  exact ⟨h1, h2⟩

/-! ## Campaigns -/

/-- `become_candidate_` before the votes are counted. -/
def running (r : Raft) : Raft :=
  { r with
    role := .candidate
    leaderId := 0
    term := r.term + 1
    vote := r.conf.id
    elapsedTicks := 0
    votesGranted := [r.conf.id] }

/-- `become_pre_candidate_` before the votes are counted. -/
def preRunning (r : Raft) : Raft :=
  { r with role := .preCandidate, leaderId := 0, elapsedTicks := 0, votesGranted := [r.conf.id] }

lemma becomeCandidate_eq (h : voteQuorumOk (running r) = false) :
    becomeCandidate r = sendVoteRequests (running r) .vote (r.term + 1) := by
  unfold becomeCandidate
  change (if voteQuorumOk (running r) = true then _ else _) = _
  rw [h]
  rfl

lemma becomePreCandidate_eq (h : voteQuorumOk (preRunning r) = false) :
    becomePreCandidate r = sendVoteRequests (preRunning r) .preVote (r.term + 1) := by
  unfold becomePreCandidate
  change (if voteQuorumOk (preRunning r) = true then _ else _) = _
  rw [h]
  rfl

lemma bare_recordVote (r : Raft) (y : Nat) : bare (recordVote r y) = recordVote (bare r) y := by
  unfold recordVote
  change _ = if (!voteFrom r y) = true ∧ r.votesGranted.length < r.mem.peersCap then _ else _
  split <;> rfl

lemma recordVote_msgs (r : Raft) (y : Nat) : (recordVote r y).pending.msgs = r.pending.msgs := by
  unfold recordVote
  split <;> rfl

section

variable {f : Raft} {m : Msg} (hout : f.pending.msgs = [])

lemma step_voteResp (htype : m.type = .voteResp) : (cetcdRaftStep f m).2 = handleVoteResp f m := by
  unfold cetcdRaftStep
  rw [htype]

include hout in
lemma hear_voteResp_later (htype : m.type = .voteResp) (h : f.term < m.term) :
    (hear f m).1 = [] ∧ bare (hear f m).2 = demoted (bare f) m.term 0 := by
  have hstep := step_voteResp (f := f) htype
  unfold handleVoteResp becomeFollower at hstep
  rw [if_pos h, if_pos h] at hstep
  obtain ⟨h1, h2⟩ := hear_eq hstep
  exact ⟨h1.trans hout, h2⟩

include hout in
lemma hear_voteResp_ignored (htype : m.type = .voteResp) (h : m.term ≤ f.term)
    (hno : f.role ≠ .candidate ∨ m.reject ≠ 0) :
    (hear f m).1 = [] ∧ bare (hear f m).2 = bare f := by
  have hstep : (cetcdRaftStep f m).2 = f := by
    rw [step_voteResp htype]
    unfold handleVoteResp
    rw [if_neg (by omega)]
    obtain hrole | hrej := hno
    · rw [if_pos hrole]
    by_cases hrole : f.role ≠ .candidate
    · rw [if_pos hrole]
    · rw [if_neg hrole, if_pos hrej]
  obtain ⟨h1, h2⟩ := hear_eq hstep
  exact ⟨h1.trans hout, h2⟩

include hout in
/-- A granted vote is counted; with the last one that was missing the candidate leads and says so
to everyone. -/
lemma hear_voteResp_granted (htype : m.type = .voteResp) (h : m.term ≤ f.term)
    (hrole : f.role = .candidate) (hgrant : m.reject = 0)
    (hlearn : fromLearner f m.sender = false) :
    (voteQuorumOk (recordVote f m.sender) = false ∧ (hear f m).1 = [] ∧
        bare (hear f m).2 = recordVote (bare f) m.sender) ∨
      (voteQuorumOk (recordVote f m.sender) ∧ (hear f m).1 = (others f).map (heartbeatTo f) ∧
        bare (hear f m).2 = becomeLeader (recordVote (bare f) m.sender)) := by
  have hstep := step_voteResp (f := f) htype
  unfold handleVoteResp at hstep
  rw [if_neg (by omega), if_neg (not_not.2 hrole), if_neg (not_not.2 hgrant), hlearn,
    if_neg Bool.false_ne_true] at hstep
  dsimp only at hstep
  have hmsgs := (recordVote_msgs f m.sender).trans hout
  have hbare := bare_recordVote f m.sender
  by_cases hq : voteQuorumOk (recordVote f m.sender) = true
  · rw [if_pos hq] at hstep
    obtain ⟨h1, h2⟩ := hear_eq hstep
    have hrest : others (queueHardState (becomeLeader (recordVote f m.sender))) = others f ∧
        heartbeatTo (queueHardState (becomeLeader (recordVote f m.sender))) = heartbeatTo f := by
      unfold recordVote
      split <;> exact ⟨rfl, rfl⟩
    rcases leaderBroadcastHeartbeat_spec
      (r := queueHardState (becomeLeader (recordVote f m.sender))) rfl with ⟨h3, h4⟩
    refine .inr ⟨hq, ?_, ?_⟩
    · rw [h1, h3, hrest.1, hrest.2]
      change (recordVote f m.sender).pending.msgs ++ _ = _
      rw [hmsgs]
      rfl
    rw [h2, h4, ← hbare]
    rfl
  rw [if_neg hq] at hstep
  obtain ⟨h1, h2⟩ := hear_eq hstep
  exact .inl ⟨Bool.eq_false_iff.2 hq, h1.trans hmsgs, h2.trans hbare⟩

lemma step_preVoteResp (htype : m.type = .preVoteResp) :
    (cetcdRaftStep f m).2 = handlePreVoteResp f m := by
  unfold cetcdRaftStep
  rw [htype]

include hout in
lemma hear_preVoteResp_rejected (htype : m.type = .preVoteResp) (h : m.reject ≠ 0) :
    (hear f m).1 = [] ∧ bare (hear f m).2 = stepped (bare f) m.term := by
  have hstep := step_preVoteResp (f := f) htype
  unfold handlePreVoteResp at hstep
  rw [if_pos h] at hstep
  obtain ⟨h1, h2⟩ := hear_eq hstep
  exact ⟨h1.trans ((stepDown_msgs f m.term 0).trans hout), h2.trans (bare_stepDown f m.term)⟩

include hout in
lemma hear_preVoteResp_ignored (htype : m.type = .preVoteResp) (h : m.reject = 0)
    (hrole : f.role ≠ .preCandidate) : (hear f m).1 = [] ∧ bare (hear f m).2 = bare f := by
  have hstep := step_preVoteResp (f := f) htype
  unfold handlePreVoteResp at hstep
  rw [if_neg (not_not.2 h), if_pos hrole] at hstep
  obtain ⟨h1, h2⟩ := hear_eq hstep
  exact ⟨h1.trans hout, h2⟩

include hout in
lemma hear_preVoteResp_granted (htype : m.type = .preVoteResp) (h : m.reject = 0)
    (hrole : f.role = .preCandidate) (hlearn : fromLearner f m.sender = false)
    (halone : voteQuorumOk (running f) = false) :
    (voteQuorumOk (recordVote f m.sender) = false ∧ (hear f m).1 = [] ∧
        bare (hear f m).2 = recordVote (bare f) m.sender) ∨
      (voteQuorumOk (recordVote f m.sender) ∧
        (hear f m).1 = (others f).map (requestTo f .vote (f.term + 1)) ∧
        bare (hear f m).2 = running (bare f)) := by
  have hstep := step_preVoteResp (f := f) htype
  unfold handlePreVoteResp at hstep
  rw [if_neg (not_not.2 h), if_neg (not_not.2 hrole), hlearn, if_neg Bool.false_ne_true] at hstep
  dsimp only at hstep
  have hmsgs := (recordVote_msgs f m.sender).trans hout
  have hbare := bare_recordVote f m.sender
  by_cases hq : voteQuorumOk (recordVote f m.sender) = true
  · rw [if_pos hq] at hstep
    -- the votes are counted afresh in the new term
    have hfresh : running (recordVote f m.sender) = running f := by
      unfold recordVote
      split <;> rfl
    have hterm : (recordVote f m.sender).term = f.term := by
      unfold recordVote
      split <;> rfl
    rw [becomeCandidate_eq (hfresh.symm ▸ halone), hfresh, hterm] at hstep
    obtain ⟨h3, h4⟩ := sendVoteRequests_alone (r := running f) hout .vote (f.term + 1)
    have hrole1 : (queueHardState (sendVoteRequests (running f) .vote (f.term + 1))).role ≠
        .leader := by
      have hr : (sendVoteRequests (running f) .vote (f.term + 1)).role = .candidate :=
        (congrArg Raft.role h4 :)
      change (sendVoteRequests (running f) .vote (f.term + 1)).role ≠ _
      rw [hr]
      decide
    unfold leaderBroadcastHeartbeat at hstep
    rw [if_pos hrole1] at hstep
    obtain ⟨h1, h2⟩ := hear_eq hstep
    exact .inr ⟨hq, h1.trans h3, h2.trans h4⟩
  rw [if_neg hq] at hstep
  obtain ⟨h1, h2⟩ := hear_eq hstep
  exact .inl ⟨Bool.eq_false_iff.2 hq, h1.trans hmsgs, h2.trans hbare⟩

end

/-! ## Ticks -/

/-- A node one tick later, before its timers are looked at. -/
def aged (r : Raft) : Raft :=
  { r with elapsedTicks := r.elapsedTicks + 1, heartbeatElapsed := r.heartbeatElapsed + 1 }

/-- The next tick starts a campaign. -/
def Expires (r : Raft) : Prop := r.role ≠ .leader ∧ r.conf.electionTimeout ≤ r.elapsedTicks + 1
  deriving Decidable

/-- The next tick makes a leader send heartbeats. -/
def Beats (r : Raft) : Prop := r.role = .leader ∧ r.conf.heartbeatTimeout ≤ r.heartbeatElapsed + 1

section

variable {r : Raft} (hout : r.pending.msgs = [])

include hout in
lemma tick_quiet (hexp : ¬ Expires r) (hbeat : ¬ Beats r) :
    (flush (cetcdRaftTick r)).1 = [] ∧ bare (flush (cetcdRaftTick r)).2 = aged (bare r) ∧
      (flush (cetcdRaftTick r)).2.commit = r.commit := by
  have htick : cetcdRaftTick r = aged r := by
    unfold cetcdRaftTick
    dsimp only
    by_cases hrole : r.role = .leader
    · rw [if_pos hrole, if_neg (fun h => hbeat ⟨hrole, h⟩)]
      rfl
    rw [if_neg hrole, if_neg (fun h => hexp ⟨hrole, h⟩)]
    rfl
  rw [htick, bare_flush, flush_commit]
  exact ⟨hout, rfl, rfl⟩

lemma tick_of_expires (hexp : Expires r) : cetcdRaftTick r = stepHup (aged r) := by
  unfold cetcdRaftTick
  dsimp only
  rw [if_neg hexp.1, if_pos hexp.2]
  rfl

include hout in
lemma tick_campaign (hexp : Expires r) (hpre : r.conf.preVote = false)
    (halone : voteQuorumOk (running (aged r)) = false) :
    (flush (cetcdRaftTick r)).1 = (others r).map (requestTo r .vote (r.term + 1)) ∧
      bare (flush (cetcdRaftTick r)).2 = running (aged (bare r)) := by
  have hrole : (aged r).role ≠ .leader := hexp.1
  have hpre' : (aged r).conf.preVote ≠ true := by
    change r.conf.preVote ≠ true
    rw [hpre]
    decide
  rw [tick_of_expires hexp, bare_flush]
  unfold stepHup
  rw [if_neg hrole, if_neg hpre', becomeCandidate_eq halone]
  exact sendVoteRequests_alone (r := running (aged r)) hout .vote (r.term + 1)

include hout in
lemma tick_preCampaign (hexp : Expires r) (hpre : r.conf.preVote)
    (halone : voteQuorumOk (preRunning (aged r)) = false) :
    (flush (cetcdRaftTick r)).1 = (others r).map (requestTo r .preVote (r.term + 1)) ∧
      bare (flush (cetcdRaftTick r)).2 = preRunning (aged (bare r)) := by
  have hrole : (aged r).role ≠ .leader := hexp.1
  have hpre' : (aged r).conf.preVote := hpre
  rw [tick_of_expires hexp, bare_flush]
  unfold stepHup
  rw [if_neg hrole, if_pos hpre', becomePreCandidate_eq halone]
  exact sendVoteRequests_alone (r := preRunning (aged r)) hout .preVote (r.term + 1)

end

/-! ## The leader's beat -/

/-- The leader believes that every peer has its whole log. -/
structure CaughtUp (r : Raft) : Prop where
  compacted : r.rlog.compacted ≤ r.rlog.lastIndex
  next : ∀ i < r.mem.peers.length, (r.progress.read i).nextIdx = r.rlog.lastIndex + 1
  noSnap : ∀ i < r.mem.peers.length, (r.progress.read i).pendingSnap = false

lemma CaughtUp.of_bare {r' : Raft} (h : CaughtUp r) (hb : bare r' = bare r) : CaughtUp r' := by
  have hlog : r'.rlog = r.rlog := (congrArg Raft.rlog hb :)
  have hmem : r'.mem = r.mem := (congrArg Raft.mem hb :)
  have hprog : r'.progress = r.progress := (congrArg Raft.progress hb :)
  refine ⟨?_, ?_, ?_⟩
  · rw [hlog]
    exact h.compacted
  · rw [hlog, hmem, hprog]
    exact h.next
  rw [hmem, hprog]
  exact h.noSnap

lemma caughtUp_becomeLeader (hlen : r.mem.peers.length ≤ maxPeers)
    (hc : r.rlog.compacted ≤ r.rlog.lastIndex) : CaughtUp (becomeLeader r) := by
  have hread : ∀ i < r.mem.peers.length,
      (becomeLeader r).progress.read i = { nextIdx := r.rlog.lastIndex + 1 } := by
    intro i hi
    unfold becomeLeader
    dsimp only
    rw [read_update, if_pos (by omega)]
  refine ⟨hc, fun i hi => ?_, fun i hi => ?_⟩
  · rw [hread i hi]
    rfl
  · rw [hread i hi]

section

variable {r : Raft} {i : Nat} {peer : Peer}

lemma beatPeer_eq (h : CaughtUp r) (hpeer : r.mem.peers[i]? = some peer) :
    beatPeer r i = if peer.id = r.conf.id then r else
        { queueMsg r (heartbeatTo r peer.id) with
          progress := r.progress.write i { r.progress.read i with pendingApp := false } } := by
  have hi : i < r.mem.peers.length := (List.getElem?_eq_some_iff.1 hpeer).1
  have hnext := h.next i hi
  have hsnap := h.noSnap i hi
  have hc := h.compacted
  unfold beatPeer
  rw [hpeer]
  dsimp only
  split
  · rfl
  rename_i hne
  generalize hr1 : ({ queueMsg r (heartbeatTo r peer.id) with
    progress := (queueMsg r (heartbeatTo r peer.id)).progress.write i
      { (queueMsg r (heartbeatTo r peer.id)).progress.read i with pendingApp := false } } : Raft) =
    r1
  have hread : r1.progress.read i = { r.progress.read i with pendingApp := false } := by
    rw [← hr1]
    exact read_write_self _ _ _
  have hlog : r1.rlog = r.rlog := by
    rw [← hr1]
    rfl
  have hnext1 : (r1.progress.read i).nextIdx = r.rlog.lastIndex + 1 := by
    rw [hread]
    exact hnext
  -- the next index lies past both the compacted part and the log
  have hsnap1 : maybeSendSnap r1 i = r1 := by
    unfold maybeSendSnap
    split
    · rfl
    dsimp only
    rw [hnext1, hlog]
    split_ifs
    all_goals try rfl
    omega
  have happ : maybeSendApp r1 i = r1 := by
    unfold maybeSendApp
    split
    · rfl
    dsimp only
    rw [hnext1, hlog, if_neg (Nat.succ_ne_zero r.rlog.lastIndex)]
    split_ifs
    all_goals try rfl
    all_goals omega
  rw [hsnap1, happ, ← hr1]
  rfl

lemma foldl_beatPeer (h : CaughtUp r) (k : Nat) (hk : k ≤ r.mem.peers.length) :
    let res := (List.range k).foldl beatPeer r
    CaughtUp res ∧ bare res = { bare r with progress := res.progress } ∧ res.commit = r.commit ∧
      res.pending.msgs = r.pending.msgs ++
        (((r.mem.peers.take k).map Peer.id).filter (fun j => j ≠ r.conf.id)).map
          (heartbeatTo r) := by
  induction k with
  | zero => exact ⟨h, rfl, rfl, by simp⟩
  | succ k ih =>
    obtain ⟨hup, hbare, hcommit, hmsgs⟩ := ih (by omega)
    dsimp only
    rw [range_succ, foldl_append, foldl_cons, foldl_nil]
    generalize (List.range k).foldl beatPeer r = acc at hup hbare hcommit hmsgs
    have hmem : acc.mem = r.mem := (congrArg Raft.mem hbare :)
    have hconf : acc.conf = r.conf := (congrArg Raft.conf hbare :)
    have hrlog : acc.rlog = r.rlog := (congrArg Raft.rlog hbare :)
    have hterm : acc.term = r.term := (congrArg Raft.term hbare :)
    have hpeer : acc.mem.peers[k]? = some (r.mem.peers[k]) := by
      rw [hmem]
      exact getElem?_eq_getElem (by omega)
    have hbeat : heartbeatTo acc = heartbeatTo r := by
      funext j
      unfold heartbeatTo
      rw [hconf, hterm, hcommit]
    rw [beatPeer_eq hup hpeer, hconf, take_succ_eq_append_getElem (by omega),
      map_append, filter_append, map_append, ← append_assoc, ← hmsgs]
    generalize r.mem.peers[k] = peer
    -- the node sends itself no heartbeat
    by_cases hself : peer.id = r.conf.id
    · rw [if_pos hself]
      refine ⟨hup, hbare, hcommit, ?_⟩
      simp [hself]
    rw [if_neg hself]
    refine ⟨⟨hup.compacted, ?_, ?_⟩, ?_, hcommit, ?_⟩
    · intro j hj
      dsimp only
      rw [read_write]
      split
      · rename_i hjk
        subst hjk
        exact hup.next j hj
      · exact hup.next j hj
    · intro j hj
      dsimp only
      rw [read_write]
      split
      · rename_i hjk
        subst hjk
        exact hup.noSnap j hj
      · exact hup.noSnap j hj
    · exact (congrArg (fun b : Raft => { b with
        progress := acc.progress.write k { acc.progress.read k with pendingApp := false } })
        hbare :)
    change acc.pending.msgs ++ [heartbeatTo acc peer.id] = _
    rw [hbeat]
    simp [hself]

lemma tick_beat (hout : r.pending.msgs = []) (hbeat : Beats r) (h : CaughtUp r)
    (hlen : r.mem.peers.length ≤ maxPeers) :
    (flush (cetcdRaftTick r)).1 = (others r).map (heartbeatTo r) ∧
      (flush (cetcdRaftTick r)).2.commit = r.commit ∧
      CaughtUp (flush (cetcdRaftTick r)).2 ∧
      ∃ p, bare (flush (cetcdRaftTick r)).2 =
        { aged (bare r) with heartbeatElapsed := 0, progress := p } := by
  have htick : cetcdRaftTick r = stepBeat { aged r with heartbeatElapsed := 0 } := by
    unfold cetcdRaftTick
    dsimp only
    rw [if_pos hbeat.1, if_pos hbeat.2]
    rfl
  generalize hr1 : ({ aged r with heartbeatElapsed := 0 } : Raft) = r1 at htick
  have hrole : r1.role = .leader := by
    rw [← hr1]
    exact hbeat.1
  have hup : CaughtUp r1 := by
    rw [← hr1]
    exact ⟨h.compacted, h.next, h.noSnap⟩
  have hlen1 : r1.mem.peers.length ≤ maxPeers := by
    rw [← hr1]
    exact hlen
  obtain ⟨hup', hbare, hcommit, hmsgs⟩ := foldl_beatPeer hup r1.mem.peers.length le_rfl
  unfold stepBeat at htick
  rw [if_neg (not_not.2 hrole), min_eq_left hlen1] at htick
  rw [htick]
  generalize (List.range r1.mem.peers.length).foldl beatPeer r1 = res at hup' hbare hcommit hmsgs
  rw [take_length] at hmsgs
  have hfl := bare_flush res
  refine ⟨?_, ?_, ?_, res.progress, ?_⟩
  · change res.pending.msgs = _
    rw [hmsgs, ← hr1]
    change r.pending.msgs ++ _ = _
    rw [hout]
    rfl
  · rw [flush_commit, hcommit, ← hr1]
    rfl
  · exact hup'.of_bare hfl
  rw [hfl, hbare, ← hr1]
  rfl

end

end Cetcd.Net
