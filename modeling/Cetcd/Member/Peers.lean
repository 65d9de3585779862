import Cetcd.Member.Rounds

/-!
# The peers of the leader

What a node that is no leader does with a message of the leader: one answer of the leader's term,
and a voter accepts every Append it is offered (`Under.hear_app`).
-/

namespace Cetcd.Member

open Lib Raft Protocol Apply Server Repair

/-! ## One message, one answer -/

/-- `f'` is `f` after the message `m`, which it has answered with `a`. -/
structure Replies (f : Raft) (m : Msg) (f' : Raft) (a : Msg) : Prop where
  conf : f'.conf = f.conf
  role : f'.role ≠ .leader
  term : f'.term = m.term
  commit : f.commit ≤ f'.commit
  applied : f.applied ≤ f'.applied
  msgs : f'.pending.msgs = [a]
  dest : a.dest = m.sender
  sender : a.sender = f.conf.id
  answered : a.term = m.term

section

variable {f : Raft} {m : Msg}

lemma replies_queueMsg {r1 : Raft} {a : Msg} (hconf : r1.conf = f.conf) (hrole : r1.role ≠ .leader)
    (hterm : r1.term = m.term) (hcommit : f.commit ≤ r1.commit) (happlied : f.applied ≤ r1.applied)
    (hmsgs : r1.pending.msgs = []) (hdest : a.dest = m.sender) (hsender : a.sender = f.conf.id)
    (hanswered : a.term = m.term) :
    Replies f m (queueMsg r1 a) a := by
  refine ⟨hconf, hrole, hterm, hcommit, happlied, ?_, hdest, hsender, hanswered⟩
  change r1.pending.msgs ++ [a] = [a]
  rw [hmsgs]
  rfl

section

variable (hterm : f.term ≤ m.term) (hout : f.pending.msgs = [])

include hterm hout

lemma replies_heartbeat (htype : m.type = .heartbeat) :
    ∃ a, Replies f m (cetcdRaftStep f m).2 a ∧ a.type = .heartbeatResp ∧
      (cetcdRaftStep f m).2.rlog = f.rlog ∧
      min m.commit f.rlog.lastIndex ≤ (cetcdRaftStep f m).2.commit := by
  obtain ⟨_, ht, hrole, hconf, hlog, hcommit, hmsgs, happlied⟩ := (acts_acceptLeader hterm).2
  replace ht := ht.symm
  have hview := view_followCommit (acceptLeader f m) m.commit
  have hstep := Net.step_heartbeat (f := f) htype
  unfold handleHeartbeat at hstep
  rw [if_neg (by omega)] at hstep
  dsimp only at hstep
  rw [hstep]
  generalize acceptLeader f m = r1 at hconf ht hlog hmsgs hrole hcommit happlied hview
  generalize followCommit r1 m.commit = r2 at hview
  have h1 : r2.conf = r1.conf := congrArg View.conf hview
  have h2 : r2.role = r1.role := congrArg View.role hview
  have h3 : r2.term = r1.term := congrArg View.term hview
  have h4 : r2.commit = max r1.commit (min m.commit r1.rlog.lastIndex) := congrArg View.commit hview
  have h5 : r2.pending.msgs = r1.pending.msgs := congrArg View.out hview
  have h6 : r2.rlog = r1.rlog := congrArg View.rlog hview
  have h7 : r2.applied = r1.applied := congrArg View.applied hview
  rw [hlog, hcommit] at h4
  refine ⟨_, replies_queueMsg (h1.trans hconf) ?_ (h3.trans ht)
    ((le_max_left _ _).trans_eq h4.symm) (h7.trans happlied).ge (h5.trans (hmsgs.trans hout)) rfl
    (congrArg Conf.id (h1.trans hconf)) (h3.trans ht), rfl, h6.trans hlog,
    (le_max_right _ _).trans_eq h4.symm⟩
  rw [h2, hrole]
  decide

omit hout in
lemma step_app_follows (htype : m.type = .app) :
    (cetcdRaftStep f m).2.role = .follower ∧ f.commit ≤ (cetcdRaftStep f m).2.commit ∧
      (cetcdRaftStep f m).2.applied = f.applied := by
  obtain ⟨_, _, hrole, _, _, hcommit, _, happlied⟩ := (acts_acceptLeader hterm).2
  have hstep : (cetcdRaftStep f m).2 = handleApp f m := by
    unfold cetcdRaftStep
    rw [htype]
  unfold handleApp at hstep
  rw [if_neg (by omega)] at hstep
  dsimp only at hstep
  rw [hstep]
  generalize acceptLeader f m = r1 at hrole hcommit happlied
  split_ifs
  · exact ⟨hrole, hcommit.ge, happlied⟩
  · exact ⟨hrole, hcommit.ge, happlied⟩
  have hview := view_followCommit (appendEntries r1 (m.index + 1) m.entries) m.commit
  have happ := appendEntries_spec m.entries r1 (m.index + 1)
  have h1 : (appendEntries r1 (m.index + 1) m.entries).role = r1.role := congrArg View.role happ
  have h2 : (appendEntries r1 (m.index + 1) m.entries).commit = r1.commit :=
    congrArg View.commit happ
  have h3 := (congrArg View.role hview).trans h1
  have h4 := congrArg View.commit hview
  have h5 : (appendEntries r1 (m.index + 1) m.entries).applied = r1.applied :=
    congrArg View.applied happ
  refine ⟨h3.trans hrole, ?_, ((congrArg View.applied hview).trans h5).trans happlied⟩
  change f.commit ≤ (followCommit (appendEntries r1 (m.index + 1) m.entries) m.commit).commit
  refine (hcommit.symm.trans h2.symm).trans_le ((le_max_left _ _).trans_eq h4.symm)

lemma replies_app (htype : m.type = .app) :
    ∃ a, Replies f m (cetcdRaftStep f m).2 a ∧ a.type = .appResp ∧
      (m.index ≤ f.rlog.lastIndex → logTermAt f.rlog m.index = m.logTerm →
        a.reject = 0 ∧ a.index = (cetcdRaftStep f m).2.rlog.lastIndex ∧
        (cetcdRaftStep f m).2.rlog = storeEntries f.rlog (m.index + 1) m.entries) := by
  obtain ⟨hrole, hcommit, happlied⟩ := step_app_follows hterm htype
  rcases hear_app htype hterm hout with
    ⟨a, hsent, hatype, hdest, hsender, haterm, hconf, ht, _, hcases⟩
  unfold hear at hsent hconf ht hcases
  obtain ⟨hfc, hft, _, _, _, hfl, _⟩ := flush_frame (cetcdRaftStep f m).2
  rw [hfc] at hconf
  rw [hft] at ht
  rw [hfl] at hcases
  refine ⟨a, ⟨hconf, by rw [hrole]; decide, ht, hcommit, happlied.ge, hsent, hdest, hsender, haterm⟩,
    hatype, fun hle hlogTerm => ?_⟩
  obtain ⟨_, hlt, _⟩ | ⟨_, _, hne, _⟩ | ⟨_, hrest⟩ := hcases
  · omega
  · exact absurd hlogTerm hne
  · exact hrest

lemma replies_snap (htype : m.type = .snap) (hrole : f.role ≠ .leader) :
    ∃ a, Replies f m (cetcdRaftStep f m).2 a ∧ a.type = .snapStatus := by
  have hstep : (cetcdRaftStep f m).2 = handleSnap f m := by
    unfold cetcdRaftStep
    rw [htype]
  -- the node of the message's term
  obtain ⟨h3, hlog, h4, hmsgs, h1, h6⟩ := stepDown_spec (r := f) m.sender hterm
  have h2 : (stepDown f m.term m.sender).role ≠ .leader := by
    unfold stepDown becomeFollower queueHardState
    split_ifs
    · exact Role.noConfusion
    · exact hrole
  unfold handleSnap at hstep
  rw [if_neg (by omega)] at hstep
  dsimp only at hstep
  generalize stepDown f m.term m.sender = r1 at hstep h1 h2 h3 h4 h6 hlog hmsgs
  rw [hstep]
  by_cases hzero : m.snapshot = 0
  · rw [if_pos hzero]
    exact ⟨_, replies_queueMsg h1 h2 h3 h4.ge h6.ge (hmsgs.trans hout) rfl (congrArg Conf.id h1) h3,
      rfl⟩
  rw [if_neg hzero, h3]
  obtain ⟨_, g3, g2, g1, _, g4, g5, g6⟩ := (acts_heed hterm h3 h1 hlog h4 hmsgs h6 rfl).2
  generalize (if r1.role ≠ .follower then becomeFollower r1 m.term m.sender else r1) = r2
    at g1 g2 g3 g4 g5 g6
  split
  · exact ⟨_, @replies_queueMsg f m { r2 with leaderId := m.sender, elapsedTicks := 0 } _ g1
      (g2.trans_ne (by decide)) g3.symm g4.ge g6.ge (g5.trans hout) rfl (congrArg Conf.id h1) rfl,
      rfl⟩
  rename_i l _
  have hview := view_coverSnapshot { r2 with leaderId := m.sender, elapsedTicks := 0, rlog := l }
    m.snapshot
  have k1 := congrArg View.conf hview
  have k2 := congrArg View.role hview
  have k3 := congrArg View.term hview
  have k4 := congrArg View.commit hview
  have k5 := congrArg View.out hview
  have k6 := congrArg View.applied hview
  refine ⟨_, replies_queueMsg (k1.trans g1) ((k2.trans g2).trans_ne (by decide))
    (k3.trans g3.symm) ?_ ?_ (k5.trans (g5.trans hout)) rfl (congrArg Conf.id h1) rfl, rfl⟩
  · exact g4.ge.trans ((le_max_left _ _).trans_eq k4.symm)
  · exact g6.ge.trans ((le_max_left _ _).trans_eq k6.symm)

end

end

/-! ## Peers under the leader -/

structure Under (T : Tenure) (v : Nat) (f : Raft) : Prop where
  id : f.conf.id = v
  role : f.role ≠ .leader
  term : f.term ≤ T.term
  out : f.pending.msgs = []

section

variable {T : Tenure} {logs : Nat → RaftLog} {lead : RaftLog} {v : Nat} {f : Raft} {m : Msg}

lemma readyRound_frame (r : Raft) :
    (readyRound r).1 = r.pending.msgs ∧ (readyRound r).2.conf = r.conf ∧
      (readyRound r).2.role = r.role ∧ (readyRound r).2.term = r.term ∧
      (readyRound r).2.rlog = r.rlog ∧ (readyRound r).2.commit = r.commit ∧
      (readyRound r).2.pending.msgs = [] ∧
      (readyRound r).2.applied = max r.applied r.commit := by
  obtain ⟨mem, progress, heq⟩ := applyTable_eq (cetcdRaftReady r).2
  unfold readyRound cetcdRaftAdvance
  dsimp only
  rw [heq]
  split
  · rename_i hlt
    refine ⟨rfl, rfl, rfl, rfl, rfl, rfl, rfl, ?_⟩
    change r.applied < r.commit at hlt
    exact (max_eq_right hlt.le).symm
  rename_i hge
  refine ⟨rfl, rfl, rfl, rfl, rfl, rfl, rfl, ?_⟩
  change ¬ r.applied < r.commit at hge
  exact (max_eq_left (not_lt.1 hge)).symm

lemma settle_of_not_leader (h : f.role ≠ .leader) : settle f = readyRound f := by
  have hrole : (readyRound f).2.role ≠ .leader := by
    rw [(readyRound_frame f).2.2.1]
    exact h
  unfold settle
  rw [maybeProposeLeaveJoint_eq, if_neg fun hcond => hrole hcond.1]

lemma Under.readyRound (hid : f.conf.id = v) (hrole : f.role ≠ .leader) (hterm : f.term ≤ T.term) :
    Under T v (settle f).2 := by
  obtain ⟨_, h1, h2, h3, _, _, h4, _⟩ := readyRound_frame f
  rw [settle_of_not_leader hrole]
  exact ⟨by rw [h1]; exact hid, by rw [h2]; exact hrole, by rw [h3]; exact hterm, h4⟩

lemma Under.hear_learner (h : Under T v f) (hm : Mail T logs lead m) :
    ∃ a, Replies f m (cetcdRaftStep f m).2 a ∧
      (a.type = .heartbeatResp ∨ a.type = .appResp ∨ a.type = .snapStatus) := by
  have hterm : f.term ≤ m.term := h.term.trans_eq hm.term.symm
  obtain htype | htype | ⟨htype, _⟩ := hm.type
  · obtain ⟨a, ha, hatype, _⟩ := replies_heartbeat hterm h.out htype
    exact ⟨a, ha, .inl hatype⟩
  · obtain ⟨a, ha, hatype, _⟩ := replies_app hterm h.out htype
    exact ⟨a, ha, .inr (.inl hatype)⟩
  obtain ⟨a, ha, hatype⟩ := replies_snap hterm h.out htype h.role
  exact ⟨a, ha, .inr (.inr hatype)⟩

/-- What a voter makes of a message of the leader. -/
structure VoterHears (T : Tenure) (lead : RaftLog) (f : Raft) (m : Msg) (f' : Raft) (a : Msg) :
    Prop where
  replies : Replies f m f' a
  follows : Follows T.base lead f'.rlog
  last : f.rlog.lastIndex ≤ f'.rlog.lastIndex
  type : m.type = .heartbeat ∨ m.type = .app
  beat : m.type = .heartbeat → a.type = .heartbeatResp ∧ min m.commit f.rlog.lastIndex ≤ f'.commit
  app : m.type = .app → a.type = .appResp ∧ a.reject = 0 ∧ a.index = f'.rlog.lastIndex ∧
    m.index + m.entries.length ≤ f'.rlog.lastIndex

lemma Under.hear_voter (h : Under T v f) (hm : Mail T logs lead m) (hv : T.Voter m.dest)
    (hlog : logs m.dest = f.rlog) (hfollows : Follows T.base lead f.rlog)
    (hlead : lead.compacted ≤ T.base) :
    ∃ a, VoterHears T lead f m (cetcdRaftStep f m).2 a := by
  have hterm : f.term ≤ m.term := h.term.trans_eq hm.term.symm
  obtain htype | htype | ⟨_, hlearn⟩ := hm.type
  · obtain ⟨a, ha, hatype, hrlog, hcommit⟩ := replies_heartbeat hterm h.out htype
    refine ⟨a, ha, by rw [hrlog]; exact hfollows, by rw [hrlog], .inl htype,
      fun _ => ⟨hatype, hcommit⟩, fun happ => ?_⟩
    rw [htype] at happ
    cases happ
  · obtain ⟨a, ha, hatype, haccept⟩ := replies_app hterm h.out htype
    have hoffer := hm.offer htype hv
    rw [hlog] at hoffer
    have hlogTerm : logTermAt f.rlog m.index = m.logTerm := by
      rw [hoffer.logTerm]
      exact hfollows.termAt hlead hoffer.base_le hoffer.index_le
    obtain ⟨hreject, hindex, hrlog⟩ := haccept hoffer.index_le hlogTerm
    obtain ⟨hlast, hstored⟩ := hfollows.store hoffer.slice hoffer.base_le hoffer.index_le
    rw [← hrlog] at hlast hstored
    refine ⟨a, ha, hstored, hlast.symm ▸ le_max_left _ _, .inr htype, fun hbeat => ?_,
      fun _ => ⟨hatype, hreject, hindex, hlast.symm ▸ le_max_right _ _⟩⟩
    rw [htype] at hbeat
    cases hbeat
  · exact absurd hv (T.not_voter_of_learner hlearn)

end

end Cetcd.Member
