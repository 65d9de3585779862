import Cetcd.Protocol.Moves
import Cetcd.Raft.Sends

/-!
# A call, act by act

`Act m o b r r'` is one thing that happens to a node while it handles `m`; `o` is the node as the
call began, and `b` says whether a leader does it. Every call of the core API is a sequence of acts,
those of a leader last. The handlers are followed here and nowhere else: what is to hold of every
call is shown for each act.
-/

namespace Cetcd.Protocol

open Lib Raft List

/-! ## Acts -/

/-- A message that the node can queue as it stands. -/
def Speaks (r : Raft) (a : Msg) : Prop :=
  Sayable (view r) a ∧
    match a.type with
    | .voteResp | .appResp => a.term = r.term
    | _ => True

/-- The node `r` has recognised the sender of `m` as its leader, and has done nothing else. -/
structure Heeds (m : Msg) (o r : Raft) : Prop where
  le : o.term ≤ m.term
  term : m.term = r.term
  role : r.role = .follower
  conf : r.conf = o.conf
  rlog : r.rlog = o.rlog
  commit : r.commit = o.commit
  msgs : r.pending.msgs = o.pending.msgs
  applied : r.applied = o.applied

/-- What a leader writes down as the match index of the sender of `m`. -/
def Credits (r : Raft) (m : Msg) (slot k : Nat) : Prop :=
  k ≤ (r.progress.read slot).matchIdx ∨
    (m.reject = 0 ∧ ((m.type = .appResp ∧ m.term ≤ r.term ∧ k = m.index) ∨
      (m.type = .snapStatus ∧ k = m.snapshot)))

inductive Act (m : Msg) (o r : Raft) : Bool → Raft → Prop
  | pace (b : Bool) (leaderId elapsed beat : Nat) :
      Act m o r b
        { r with leaderId := leaderId, elapsedTicks := elapsed, heartbeatElapsed := beat }
  | note (b : Bool) : Act m o r b (queueHardState r)
  | say (b : Bool) {a : Msg} : Speaks r a → Act m o r b (queueMsg r a)
  | demote : Act m o r false { r with role := .follower }
  | stepDown {t : Nat} : r.term < t → r.pending.msgs = o.pending.msgs →
      Act m o r false (queueHardState { r with role := .follower, term := t, vote := 0 })
  | preCampaign : r.role ≠ .leader →
      Act m o r false { r with role := .preCandidate, votesGranted := [r.conf.id] }
  | campaign : r.role ≠ .leader → r.pending.msgs = o.pending.msgs →
      Act m o r false
        (queueHardState
          { r with
            role := .candidate, term := r.term + 1, vote := r.conf.id
            votesGranted := [r.conf.id] })
  | count :
      (r.role = .candidate ∧ m.type = .voteResp ∧ m.term ≤ r.term) ∨
        (r.role = .preCandidate ∧ m.type = .preVoteResp) →
      r = o → m.reject = 0 → fromLearner r m.sender = false →
      Act m o r false { r with votesGranted := r.votesGranted ++ [m.sender] }
  | grant : m.type = .vote → m.term = r.term → (r.vote = 0 ∨ r.vote = m.sender) →
      logOkForVote r m → r.pending.msgs = o.pending.msgs →
      Act m o r false
        (queueMsg (queueHardState { r with vote := m.sender })
          { type := .voteResp, dest := m.sender, sender := r.conf.id, term := r.term })
  | accept : m.type = .app → Heeds m o r → PrevMatches r.rlog m →
      Act m o r false
        (queueMsg (followCommit (appendEntries r (m.index + 1) m.entries) m.commit)
          { type := .appResp, dest := m.sender, sender := r.conf.id, term := r.term
            index := (followCommit (appendEntries r (m.index + 1) m.entries)
              m.commit).rlog.lastIndex })
  | follow : m.type = .heartbeat → Heeds m o r → Act m o r false (followCommit r m.commit)
  | install {l : RaftLog} : m.type = .snap → Heeds m o r → m.snapshot ≠ 0 → Installed r.rlog m l →
      Act m o r false
        (queueMsg (coverSnapshot { r with rlog := l } m.snapshot)
          { type := .snapStatus, dest := m.sender, sender := r.conf.id, term := r.term
            snapshot := m.snapshot, index := m.snapshot })
  | lead : r.role = .candidate → voteQuorumOk r → Act m o r true (becomeLeader r)
  | propose (type : EntryType) (data : List UInt8) : r.role = .leader →
      r.pending.msgs = o.pending.msgs →
      Act m o r true (queueHardState
        (queueStored { r with rlog := proposedLog r type data } (r.rlog.lastIndex + 1)))
  | credit {slot : Nat} {pr : PeerProgress} : r = o → r.role = .leader →
      peerSlot r m.sender = some slot → Credits r m slot pr.matchIdx →
      Act m o r true { r with progress := r.progress.write slot pr }
  | track {i : Nat} {pr : PeerProgress} : r.role = .leader →
      pr.matchIdx = (r.progress.read i).matchIdx →
      Act m o r true { r with progress := r.progress.write i pr }
  | advance : Act m o r true (maybeAdvanceCommit r)

def Acts (m : Msg) (o : Raft) (b : Bool) : Raft → Raft → Prop :=
  Relation.ReflTransGen fun r r' => Act m o r b r'

def Course (m : Msg) (o r r' : Raft) : Prop := ∃ r1, Acts m o false r r1 ∧ Acts m o true r1 r'

section

variable {m : Msg} {o r r' r'' : Raft} {b : Bool}

lemma Acts.refl (r : Raft) : Acts m o b r r := Relation.ReflTransGen.refl

lemma Acts.trans (h : Acts m o b r r') (h' : Acts m o b r' r'') : Acts m o b r r'' :=
  Relation.ReflTransGen.trans h h'

lemma Act.acts (h : Act m o r b r') : Acts m o b r r' := Relation.ReflTransGen.single h

lemma Acts.foldl {α : Type} {P : Raft → Prop} {f : Raft → α → Raft}
    (hround : ∀ acc x, P acc → P (f acc x) ∧ Acts m o b acc (f acc x)) (xs : List α) {r : Raft}
    (hr : P r) : Acts m o b r (xs.foldl f r) := by
  induction xs generalizing r with
  | nil => exact Acts.refl r
  | cons x xs ih =>
    obtain ⟨hr', hone⟩ := hround r x hr
    exact hone.trans (ih hr')

lemma Acts.course (h : Acts m o b r r') : Course m o r r' := by
  cases b with
  | false => exact ⟨r', h, Acts.refl r'⟩
  | true => exact ⟨r, Acts.refl r, h⟩

lemma Course.refl (r : Raft) : Course m o r r := (Acts.refl (b := true) r).course

lemma Acts.then (h : Acts m o false r r') (h' : Course m o r' r'') : Course m o r r'' := by
  obtain ⟨r1, hlocal, hleads⟩ := h'
  exact ⟨r1, h.trans hlocal, hleads⟩

lemma Course.then (h : Course m o r r') (h' : Acts m o true r' r'') : Course m o r r'' := by
  obtain ⟨r1, hlocal, hleads⟩ := h
  exact ⟨r1, hlocal, hleads.trans h'⟩

end

/-! ## Sending -/

section

variable {m : Msg} {o r : Raft} {l : RaftLog} {es : List Entry} {next n : Nat}

lemma acts_sendVoteRequests {typ : MsgType} {t : Nat}
    (h : typ = .preVote ∨ (typ = .vote ∧ r.role = .candidate ∧ t = r.term)) :
    Acts m o false r (sendVoteRequests r typ t) := by
  refine Acts.foldl (P := fun acc => ∃ pd, acc = { r with pending := pd }) ?_ _ ⟨r.pending, rfl⟩
  rintro acc peer ⟨pd, rfl⟩
  split
  · exact ⟨⟨pd, rfl⟩, Acts.refl _⟩
  refine ⟨⟨_, rfl⟩, (Act.say false ?_).acts⟩
  obtain rfl | ⟨rfl, hrole, rfl⟩ := h
  · exact ⟨⟨rfl, trivial⟩, trivial⟩
  · exact ⟨⟨rfl, hrole, rfl, rfl, rfl⟩, trivial⟩

lemma acts_leaderBroadcastHeartbeat : Acts m o true r (leaderBroadcastHeartbeat r) := by
  unfold leaderBroadcastHeartbeat
  split
  · exact Acts.refl r
  rename_i hrole
  refine Acts.foldl (P := fun acc => ∃ pd, acc = { r with pending := pd }) ?_ _ ⟨r.pending, rfl⟩
  rintro acc peer ⟨pd, rfl⟩
  split
  · exact ⟨⟨pd, rfl⟩, Acts.refl _⟩
  refine ⟨⟨_, rfl⟩, (Act.say true ?_).acts⟩
  exact ⟨⟨rfl, not_not.1 hrole, rfl, rfl⟩, trivial⟩

lemma acts_send {a : Msg} {i : Nat} (pr : PeerProgress) (hlead : r.role = .leader)
    (ha : Speaks r a) (hpr : pr.matchIdx = (r.progress.read i).matchIdx) :
    Acts m o true r { queueMsg r a with progress := r.progress.write i pr } :=
  (Act.say true ha).acts.trans (Act.track (r := queueMsg r a) hlead hpr).acts

lemma acts_maybeSendSnap (i : Nat) (hlead : r.role = .leader) :
    Acts m o true r (maybeSendSnap r i) := by
  unfold maybeSendSnap
  split
  · exact Acts.refl r
  dsimp only
  split_ifs with _ _ hcomp
  any_goals exact Acts.refl r
  exact acts_send _ hlead ⟨⟨rfl, hlead, rfl, rfl, hcomp, rfl, rfl⟩, trivial⟩ rfl

lemma copyEntries_eq_some (h : copyEntries l next n = some es) :
    es.length = n ∧ ∀ k (hk : k < es.length), logAt l (next + k) = some es[k] := by
  induction n generalizing next es with
  | zero =>
    cases h
    exact ⟨rfl, fun k hk => absurd hk (by simp)⟩
  | succ n ih =>
    rw [copyEntries] at h
    split at h
    · cases h
    rename_i e he
    split at h
    · cases h
    rename_i rest hrest
    cases h
    obtain ⟨hlen, hget⟩ := ih hrest
    refine ⟨by simp [hlen], ?_⟩
    intro k hk
    cases k with
    | zero => simpa using he
    | succ k =>
      have := hget k (by simpa using hk)
      rw [getElem_cons_succ, ← this]
      congr 1
      omega

lemma appFrom_of_copyEntries (h : copyEntries l next n = some es) (hn : n ≠ 0) (hpos : 1 ≤ next)
    (hcomp : l.compacted < next) {a : Msg} (hidx : a.index = next - 1)
    (hterm : a.logTerm = logTermAt l (next - 1)) (hes : a.entries = es) : AppFrom l a := by
  obtain ⟨hlen, hget⟩ := copyEntries_eq_some h
  have hne : es ≠ [] := by
    rintro rfl
    exact hn hlen.symm
  have hlenpos := length_pos_iff.2 hne
  -- the last copied entry exists, so the batch ends inside the log
  have hin := (logAt_eq_some.1 (hget (es.length - 1) (by omega))).2.1
  subst hes
  refine ⟨hne, by omega, by omega, by rw [hterm, hidx], fun k hk => ?_⟩
  rw [hidx, show next - 1 + 1 + k = next + k by omega]
  exact hget k hk

lemma acts_maybeSendApp (i : Nat) (hlead : r.role = .leader) :
    Acts m o true r (maybeSendApp r i) := by
  unfold maybeSendApp
  split
  · exact Acts.refl r
  dsimp only
  generalize hnext : (if (r.progress.read i).nextIdx = 0 then 1
    else (r.progress.read i).nextIdx) = next
  have hpos : 1 ≤ next := by
    rw [← hnext]
    split <;> omega
  split_ifs with _ _ _ _ hcomp hlast _ hn
  any_goals exact Acts.refl r
  · exact acts_maybeSendSnap i hlead
  split
  · exact Acts.refl r
  rename_i ecopy hcopy
  refine acts_send _ hlead ⟨⟨rfl, hlead, rfl, rfl, ?_⟩, trivial⟩ rfl
  exact appFrom_of_copyEntries hcopy hn hpos (by omega) rfl rfl rfl

lemma acts_sendSnapApp (i : Nat) (hlead : r.role = .leader) :
    Acts m o true r (maybeSendApp (maybeSendSnap r i) i) :=
  (acts_maybeSendSnap i hlead).trans
    (acts_maybeSendApp i ((sends_maybeSendSnap r i).role.trans hlead))

lemma acts_offerToPeers (hlead : r.role = .leader) : Acts m o true r (offerToPeers r) := by
  refine Acts.foldl (P := fun acc => acc.role = .leader) ?_ _ hlead
  intro acc i hacc
  split
  · exact ⟨hacc, Acts.refl acc⟩
  split_ifs
  · exact ⟨hacc, Acts.refl acc⟩
  · exact ⟨hacc, Acts.refl acc⟩
  · exact ⟨(sends_maybeSendApp acc i).role.trans hacc, acts_maybeSendApp i hacc⟩

lemma acts_proposeEntry (type : EntryType) (data : List UInt8) (hlead : r.role = .leader)
    (hmsgs : r.pending.msgs = o.pending.msgs) : Acts m o true r (proposeEntry r type data) := by
  have hrole : (queueHardState (queueStored { r with rlog := proposedLog r type data }
      (r.rlog.lastIndex + 1))).role = .leader := (sends_queueStored _ _).role.trans hlead
  exact ((Act.propose type data hlead hmsgs).acts.trans (acts_offerToPeers hrole)).trans
    Act.advance.acts

lemma acts_beatPeer (i : Nat) (hlead : r.role = .leader) : Acts m o true r (beatPeer r i) := by
  unfold beatPeer
  split
  · exact Acts.refl r
  split
  · exact Acts.refl r
  rename_i peer _ _
  have hsay : Speaks r (heartbeatTo r peer.id) := ⟨⟨rfl, hlead, rfl, rfl⟩, trivial⟩
  have hbeat := acts_send (m := m) (o := o) (i := i)
    { r.progress.read i with pendingApp := false } hlead hsay rfl
  exact hbeat.trans (acts_sendSnapApp i hlead)

lemma acts_stepBeat : Acts m o true r (stepBeat r) := by
  unfold stepBeat
  split
  · exact Acts.refl r
  rename_i hrole
  refine Acts.foldl (P := fun acc => acc.role = .leader) ?_ _ (not_not.1 hrole)
  exact fun acc i hacc => ⟨(sends_beatPeer acc i).role.trans hacc, acts_beatPeer i hacc⟩

end

/-! ## Elections -/

section

variable {m : Msg} {o r : Raft} (hmsgs : r.pending.msgs = o.pending.msgs)

def campaigning (r : Raft) : Raft :=
  { r with
    role := .candidate
    leaderId := 0
    term := r.term + 1
    vote := r.conf.id
    elapsedTicks := 0
    votesGranted := [r.conf.id] }

lemma sendVoteRequests_queueHardState (typ : MsgType) (t : Nat) :
    sendVoteRequests (queueHardState r) typ t = queueHardState (sendVoteRequests r typ t) := by
  refine foldl_hom queueHardState fun acc peer => ?_
  change (if peer.id = r.conf.id then _ else _) = queueHardState (if _ then _ else _)
  split <;> rfl

include hmsgs

lemma course_becomeCandidate (hrole : r.role ≠ .leader) :
    Course m o r (queueHardState (becomeCandidate r)) := by
  have hrun : Acts m o false r (queueHardState (campaigning r)) :=
    (Act.pace false 0 0 r.heartbeatElapsed).acts.trans
      (Act.campaign (r := { r with leaderId := 0, elapsedTicks := 0 }) hrole hmsgs).acts
  refine hrun.then ?_
  change Course m o _ (queueHardState (if voteQuorumOk (campaigning r) then
    becomeLeader (campaigning r) else
    sendVoteRequests (campaigning r) .vote (r.term + 1)))
  split
  · rename_i hquorum
    exact (Act.lead (r := queueHardState (campaigning r)) rfl hquorum).acts.course
  rw [← sendVoteRequests_queueHardState]
  exact (acts_sendVoteRequests (.inr ⟨rfl, rfl, rfl⟩)).course

lemma course_becomePreCandidate (hrole : r.role ≠ .leader) :
    Course m o r (queueHardState (becomePreCandidate r)) := by
  have hrun := (Act.pace (m := m) (o := o) (r := r) false 0 0 r.heartbeatElapsed).acts.trans
    (Act.preCampaign (r := { r with leaderId := 0, elapsedTicks := 0 }) hrole).acts
  refine hrun.then ?_
  unfold becomePreCandidate
  dsimp only
  split
  · exact course_becomeCandidate hmsgs (by simp)
  · exact ((acts_sendVoteRequests (.inl rfl)).trans (Act.note false).acts).course

lemma course_stepHup : Course m o r (stepHup r) := by
  unfold stepHup
  split_ifs with hrole
  · exact Course.refl r
  · exact course_becomePreCandidate hmsgs hrole
  · exact course_becomeCandidate hmsgs hrole

lemma acts_becomeFollower {t : Nat} (leader : Nat) (ht : r.term < t) :
    Acts m o false r (queueHardState (becomeFollower r t leader)) := by
  unfold becomeFollower
  rw [if_pos ht]
  exact (Act.stepDown ht hmsgs).acts.trans (Act.pace false leader 0 r.heartbeatElapsed).acts

lemma acts_stepDown (t leader : Nat) : Acts m o false r (stepDown r t leader) := by
  unfold stepDown
  split
  · rename_i ht
    exact acts_becomeFollower hmsgs leader ht
  · exact Acts.refl r

omit hmsgs in
lemma stepDown_spec {t : Nat} (leader : Nat) (ht : r.term ≤ t) :
    (stepDown r t leader).term = t ∧ (stepDown r t leader).rlog = r.rlog ∧
      (stepDown r t leader).commit = r.commit ∧
      (stepDown r t leader).pending.msgs = r.pending.msgs ∧
      (stepDown r t leader).conf = r.conf ∧ (stepDown r t leader).applied = r.applied := by
  unfold stepDown becomeFollower queueHardState
  split
  · exact ⟨rfl, rfl, rfl, rfl, rfl, rfl⟩
  · exact ⟨by omega, rfl, rfl, rfl, rfl, rfl⟩

end

section

variable {m : Msg} {r : Raft}

lemma acts_handleVote (htype : m.type = .vote) : Acts m r false r (handleVote r m) := by
  unfold handleVote
  split
  · exact (Act.say false ⟨⟨rfl, Nat.one_ne_zero⟩, rfl⟩).acts
  rename_i hge
  obtain ⟨hterm, _, _, hmsgs, _⟩ := stepDown_spec (r := r) 0 (not_lt.1 hge)
  refine (acts_stepDown rfl m.term 0).trans ?_
  dsimp only
  generalize stepDown r m.term 0 = r1 at hterm hmsgs
  split
  · rename_i hfree
    refine (Act.pace false r1.leaderId 0 r1.heartbeatElapsed).acts.trans ?_
    exact (Act.grant (r := { r1 with elapsedTicks := 0 }) htype hterm.symm hfree.1 hfree.2 hmsgs).acts
  · exact (Act.say false ⟨⟨rfl, Nat.one_ne_zero⟩, rfl⟩).acts

lemma acts_recordVote (hwhy : (r.role = .candidate ∧ m.type = .voteResp ∧ m.term ≤ r.term) ∨
      (r.role = .preCandidate ∧ m.type = .preVoteResp))
    (hgrant : m.reject = 0) (hlearner : fromLearner r m.sender = false) :
    Acts m r false r (recordVote r m.sender) ∧ (recordVote r m.sender).role = r.role ∧
      (recordVote r m.sender).pending.msgs = r.pending.msgs := by
  unfold recordVote
  split
  · exact ⟨(Act.count hwhy rfl hgrant hlearner).acts, rfl, rfl⟩
  · exact ⟨Acts.refl r, rfl, rfl⟩

lemma course_handleVoteResp (htype : m.type = .voteResp) : Course m r r (handleVoteResp r m) := by
  unfold handleVoteResp
  split_ifs with hlate hrole hrej hlearner
  · exact (acts_becomeFollower rfl 0 hlate).course
  · exact Course.refl r
  · exact Course.refl r
  · exact Course.refl r
  have hcand := not_not.1 hrole
  rcases acts_recordVote (m := m) (.inl ⟨hcand, htype, not_lt.1 hlate⟩) (not_not.1 hrej)
    (by simpa using hlearner) with ⟨hrec, hrole1, _⟩
  refine hrec.then ?_
  dsimp only
  generalize recordVote r m.sender = r1 at hrole1
  split
  · rename_i hquorum
    exact (((Act.lead (hrole1.trans hcand) hquorum).acts.trans (Act.note true).acts).trans
      acts_leaderBroadcastHeartbeat).course
  · exact Course.refl r1

lemma course_handlePreVoteResp (htype : m.type = .preVoteResp) :
    Course m r r (handlePreVoteResp r m) := by
  unfold handlePreVoteResp
  split_ifs with hrej hrole hlearner
  · exact (acts_stepDown rfl m.term 0).course
  · exact Course.refl r
  · exact Course.refl r
  have hpre := not_not.1 hrole
  rcases acts_recordVote (m := m) (.inr ⟨hpre, htype⟩) (not_not.1 hrej)
    (by simpa using hlearner) with ⟨hrec, hrole1, hmsgs1⟩
  refine hrec.then ?_
  dsimp only
  generalize recordVote r m.sender = r1 at hrole1 hmsgs1
  split
  · exact (course_becomeCandidate hmsgs1 (by rw [hrole1, hpre]; decide)).then
      acts_leaderBroadcastHeartbeat
  · exact Course.refl r1

/-! ## Replication -/

lemma acts_heed {o : Raft} (hle : o.term ≤ m.term) (hterm : r.term = m.term) (hconf : r.conf = o.conf)
    (hlog : r.rlog = o.rlog) (hcommit : r.commit = o.commit)
    (hmsgs : r.pending.msgs = o.pending.msgs) (happlied : r.applied = o.applied) {r2 : Raft}
    (hr2 : (if r.role ≠ .follower then becomeFollower r m.term m.sender else r) = r2) :
    Acts m o false r { r2 with leaderId := m.sender, elapsedTicks := 0 } ∧
      Heeds m o { r2 with leaderId := m.sender, elapsedTicks := 0 } := by
  have hpace := (Act.pace (m := m) (o := o) (r := r2) false m.sender 0 r2.heartbeatElapsed).acts
  split at hr2
  · unfold becomeFollower at hr2
    rw [if_neg (by omega)] at hr2
    subst hr2
    exact ⟨Act.demote.acts.trans (Act.pace false m.sender 0 r.heartbeatElapsed).acts,
      hle, hterm.symm, rfl, hconf, hlog, hcommit, hmsgs, happlied⟩
  rename_i hrole
  subst hr2
  exact ⟨hpace, hle, hterm.symm, not_not.1 hrole, hconf, hlog, hcommit, hmsgs, happlied⟩

lemma acts_acceptLeader (hle : r.term ≤ m.term) :
    Acts m r false r (acceptLeader r m) ∧ Heeds m r (acceptLeader r m) := by
  obtain ⟨hterm, hlog, hcommit, hmsgs, hconf, happlied⟩ := stepDown_spec (r := r) m.sender hle
  obtain ⟨hacts, hheeds⟩ := acts_heed hle hterm hconf hlog hcommit hmsgs happlied rfl
  exact ⟨(acts_stepDown rfl m.term m.sender).trans hacts, hheeds⟩

lemma acts_handleApp (htype : m.type = .app) : Acts m r false r (handleApp r m) := by
  unfold handleApp
  split
  · exact (Act.say false ⟨⟨rfl, Nat.one_ne_zero⟩, rfl⟩).acts
  rename_i hge
  obtain ⟨hfollow, hheeds⟩ := acts_acceptLeader (not_lt.1 hge)
  refine hfollow.trans ?_
  dsimp only
  generalize acceptLeader r m = r1 at hheeds
  split_ifs with hshort hconflict
  · exact (Act.say false ⟨⟨rfl, Nat.one_ne_zero⟩, rfl⟩).acts
  · exact (Act.say false ⟨⟨rfl, Nat.one_ne_zero⟩, rfl⟩).acts
  refine (Act.accept htype hheeds ?_).acts
  obtain h0 | hpos := Nat.eq_zero_or_pos m.index
  · exact .inl h0
  exact .inr ⟨not_lt.1 fun hlt => hshort ⟨hpos, hlt⟩,
    not_not.1 fun hne => hconflict ⟨hpos, hne⟩⟩

lemma acts_credit {slot : Nat} {pr : PeerProgress} (hlead : r.role = .leader)
    (hslot : peerSlot r m.sender = some slot) (hcredits : Credits r m slot pr.matchIdx) :
    Acts m r true r
      (maybeSendApp (maybeAdvanceCommit { r with progress := r.progress.write slot pr }) slot) := by
  obtain ⟨_, _, hadv⟩ := sends_maybeAdvanceCommit { r with progress := r.progress.write slot pr }
  exact ((Act.credit rfl hlead hslot hcredits).acts.trans Act.advance.acts).trans
    (acts_maybeSendApp slot (hadv.role.trans hlead))

lemma course_handleAppResp (htype : m.type = .appResp) : Course m r r (handleAppResp r m) := by
  unfold handleAppResp
  split
  · exact Course.refl r
  rename_i hrole
  have hlead := not_not.1 hrole
  split
  · rename_i hlate
    exact (acts_becomeFollower rfl 0 hlate).course
  rename_i hge
  split
  · exact Course.refl r
  rename_i slot hslot
  refine Acts.course (b := true) ?_
  dsimp only
  split
  · rename_i hacc
    exact acts_credit hlead hslot (.inr ⟨hacc, .inl ⟨htype, not_lt.1 hge, rfl⟩⟩)
  refine (Act.credit rfl hlead hslot (.inl ?_)).acts.trans (acts_sendSnapApp slot hlead)
  unfold rejectProgress
  dsimp only
  split <;> omega

lemma acts_handleHeartbeat (htype : m.type = .heartbeat) :
    Acts m r false r (handleHeartbeat r m) := by
  unfold handleHeartbeat
  split
  · exact Acts.refl r
  rename_i hge
  obtain ⟨hfollow, hheeds⟩ := acts_acceptLeader (not_lt.1 hge)
  refine (hfollow.trans (Act.follow htype hheeds).acts).trans (Act.say false ?_).acts
  exact ⟨⟨rfl, trivial⟩, trivial⟩

lemma acts_handleSnap (htype : m.type = .snap) : Acts m r false r (handleSnap r m) := by
  unfold handleSnap
  split
  · exact Acts.refl r
  rename_i hge
  have hle := not_lt.1 hge
  obtain ⟨hterm, hlog, hcommit, hmsgs, hconf, happlied⟩ := stepDown_spec (r := r) m.sender hle
  refine (acts_stepDown rfl m.term m.sender).trans ?_
  dsimp only
  generalize stepDown r m.term m.sender = r1 at hterm hlog hcommit hmsgs hconf happlied
  split
  · exact (Act.say false ⟨⟨rfl, Nat.one_ne_zero⟩, trivial⟩).acts
  rename_i h0
  rw [hterm, hconf]
  generalize hr2 : (if r1.role ≠ .follower then becomeFollower r1 m.term m.sender else r1) = r2
  obtain ⟨hacts, hheeds⟩ := acts_heed hle hterm hconf hlog hcommit hmsgs happlied hr2
  refine hacts.trans ?_
  rw [show m.term = r2.term from hheeds.term, ← show r2.conf = r.conf from hheeds.conf]
  by_cases hnew : r2.rlog.compacted < m.snapshot
  · rw [if_pos hnew]
    split
    · exact (Act.say false ⟨⟨rfl, Nat.one_ne_zero⟩, trivial⟩).acts
    rename_i l hl
    exact (Act.install htype hheeds h0 (.inr ⟨hnew, hl⟩)).acts
  rw [if_neg hnew]
  exact (Act.install htype hheeds h0 (.inl ⟨not_lt.1 hnew, rfl⟩)).acts

lemma acts_handleSnapStatus (htype : m.type = .snapStatus) :
    Acts m r true r (handleSnapStatus r m) := by
  unfold handleSnapStatus
  split
  · exact Acts.refl r
  rename_i hrole
  have hlead := not_not.1 hrole
  split
  · exact Acts.refl r
  rename_i slot hslot
  dsimp only
  split
  · rename_i hacc
    exact acts_credit hlead hslot (.inr ⟨hacc.1, .inr ⟨htype, rfl⟩⟩)
  · refine (Act.track hlead ?_).acts
    rfl

end

/-! ## The API -/

section

variable {m : Msg} {o r : Raft}

lemma course_cetcdRaftStep : Course m r r (cetcdRaftStep r m).2 := by
  unfold cetcdRaftStep
  split
  case h_1 => exact course_stepHup rfl
  case h_2 h => exact (acts_handleVote h).course
  case h_3 h => exact course_handleVoteResp h
  case h_4 => exact (Act.say false ⟨⟨rfl, trivial⟩, trivial⟩).acts.course
  case h_5 h => exact course_handlePreVoteResp h
  case h_6 h => exact (acts_handleApp h).course
  case h_7 h => exact course_handleAppResp h
  case h_8 h => exact (acts_handleHeartbeat h).course
  case h_9 =>
    split
    · exact Course.refl r
    rename_i hrole
    exact (acts_proposeEntry _ _ (not_not.1 hrole) rfl).course
  case h_10 => exact acts_stepBeat.course
  case h_11 h => exact (acts_handleSnap h).course
  case h_12 h => exact (acts_handleSnapStatus h).course
  case h_13 =>
    unfold stepTransferLeader
    split
    · exact Course.refl r
    · exact (Act.say false ⟨⟨rfl, trivial⟩, trivial⟩).acts.course
  case h_14 =>
    unfold stepTimeoutNow
    split
    · exact Course.refl r
    rename_i hrole
    exact course_becomeCandidate rfl hrole
  case h_15 => exact Course.refl r

lemma course_cetcdRaftTick : Course m r r (cetcdRaftTick r) := by
  have haged := (Act.pace (m := m) (o := r) (r := r) false r.leaderId (r.elapsedTicks + 1)
    (r.heartbeatElapsed + 1)).acts
  unfold cetcdRaftTick
  dsimp only
  split_ifs
  · refine ((Act.pace true r.leaderId (r.elapsedTicks + 1) 0).acts.trans ?_).course
    exact acts_stepBeat
  · exact haged.course
  · exact haged.then (course_stepHup rfl)
  · exact haged.course

lemma course_cetcdRaftProposeConfChange (data : List UInt8)
    (hmsgs : r.pending.msgs = o.pending.msgs) :
    Course m o r (cetcdRaftProposeConfChange r data) := by
  unfold cetcdRaftProposeConfChange
  split_ifs with hrole
  · exact Course.refl r
  · exact Course.refl r
  · exact (acts_proposeEntry _ _ (not_not.1 hrole) hmsgs).course

end

end Cetcd.Protocol
