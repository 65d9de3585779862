import Cetcd.Calls.Strokes
import Cetcd.Cluster.Replay
import Cetcd.Member.Quorums

/-!
# A learner among voters

Every other node lists `L` as a learner, but `cetcd_raft_new` made `L` a voter of its own table. So
a vote by `L` is dropped wherever it arrives, while the votes of the others count at `L` like for
any candidate.
-/

namespace Cetcd.Member

open Lib Raft Calls

/-! ## What a call does to an election -/

/-- The role and the recorded votes after one stroke. -/
inductive Ballot (m : Msg) (o r r' : Raft) : Prop
  | same : r'.role = r.role → r'.votesGranted = r.votesGranted → Ballot m o r r'
  | down : r'.role = .follower → r'.votesGranted = r.votesGranted → Ballot m o r r'
  | run : r'.role = .preCandidate ∨ r'.role = .candidate → r'.votesGranted = [r.conf.id] →
      Ballot m o r r'
  | count : (r.role = .candidate ∧ m.type = .voteResp ∧ m.term ≤ r.term) ∨
        (r.role = .preCandidate ∧ m.type = .preVoteResp) →
      r = o → m.reject = 0 → fromLearner r m.sender = false → r'.role = r.role →
      r'.votesGranted = r.votesGranted ++ [m.sender] → Ballot m o r r'
  | lead : r.role = .candidate → voteQuorumOk r = true → r'.votesGranted = r.votesGranted →
      Ballot m o r r'

variable {r r' : Raft}

lemma ballot_of_stroke {m : Msg} {o : Raft} (h : Stroke m o r r') :
    r'.conf = r.conf ∧ r'.mem = r.mem ∧ Ballot m o r r' := by
  cases h with
  | pace | track | note | say | grant | commit => exact ⟨rfl, rfl, .same rfl rfl⟩
  | demote | stepDown => exact ⟨rfl, rfl, .down rfl rfl⟩
  | preCampaign => exact ⟨rfl, rfl, .run (.inl rfl) rfl⟩
  | campaign => exact ⟨rfl, rfl, .run (.inr rfl) rfl⟩
  | count hwhy hstart hgrant hlearner =>
    exact ⟨rfl, rfl, .count hwhy hstart hgrant hlearner rfl rfl⟩
  | lead _ hrole hquorum => exact ⟨rfl, rfl, .lead hrole hquorum rfl⟩
  | accept =>
    have hseat := sameSeat_appendEntries m.entries r (m.index + 1)
    exact ⟨hseat.conf, hseat.mem, .same hseat.role hseat.votes⟩
  | propose type data =>
    have hseat := sameSeat_proposed r type data
    exact ⟨hseat.conf, hseat.mem, .same hseat.role hseat.votes⟩
  | cover =>
    have hseat := sameSeat_coverSnapshot r m.snapshot
    exact ⟨hseat.conf, hseat.mem, .same hseat.role hseat.votes⟩
  | @install l =>
    have hseat := sameSeat_coverSnapshot { r with rlog := l } m.snapshot
    exact ⟨hseat.conf, hseat.mem, .same hseat.role hseat.votes⟩

lemma voteQuorumOk_congr (hmem : r'.mem = r.mem) (hvotes : r'.votesGranted = r.votesGranted) :
    voteQuorumOk r' = voteQuorumOk r := by
  unfold voteQuorumOk incoming voteFrom
  rw [hmem, hvotes]

lemma fromLearner_congr (hmem : r'.mem = r.mem) (x : Nat) : fromLearner r' x = fromLearner r x := by
  unfold fromLearner
  rw [hmem]

/-! ## A node that lists `L` as a learner -/

/-- The votes a node would hold without that of `L`. -/
def withoutVote (L : Nat) (r : Raft) : Raft :=
  { r with votesGranted := r.votesGranted.filter (fun v => v ≠ L) }

/-- `L` is a learner here, its vote is not on record, and a leader was elected by others. -/
structure Heedless (L : Nat) (r : Raft) : Prop where
  id : r.conf.id ≠ L
  learner : fromLearner r L = true
  votes : L ∉ r.votesGranted
  elected : r.role = .leader → voteQuorumOk r = true

section

variable {L : Nat} {m : Msg} {o r r' : Raft}

lemma Heedless.withoutVote (h : Heedless L r) (hlead : r.role = .leader) :
    voteQuorumOk (withoutVote L r) := by
  have hall : r.votesGranted.filter (fun v => v ≠ L) = r.votesGranted :=
    List.filter_eq_self.2 fun v hv => decide_eq_true fun hL : v = L => h.votes (hL ▸ hv)
  rw [← h.elected hlead]
  exact voteQuorumOk_congr rfl hall

lemma Heedless.stroke (h : Heedless L r) (hs : Stroke m o r r') : Heedless L r' := by
  obtain ⟨hconf, hmem, hballot⟩ := ballot_of_stroke hs
  have hid : r'.conf.id ≠ L := by
    rw [hconf]
    exact h.id
  have hlearner : fromLearner r' L := (fromLearner_congr hmem L).trans h.learner
  cases hballot with
  | same hrole hvotes =>
    refine ⟨hid, hlearner, by rw [hvotes]; exact h.votes, fun hlead => ?_⟩
    rw [voteQuorumOk_congr hmem hvotes]
    exact h.elected (hrole.symm.trans hlead)
  | down hrole hvotes =>
    refine ⟨hid, hlearner, by rw [hvotes]; exact h.votes, fun hlead => ?_⟩
    rw [hrole] at hlead
    cases hlead
  | run hrole hvotes =>
    refine ⟨hid, hlearner, ?_, fun hlead => ?_⟩
    · rw [hvotes, List.mem_singleton]
      exact h.id.symm
    obtain hrole | hrole := hrole
    all_goals
      rw [hrole] at hlead
      cases hlead
  | count hwhy _ _ hsender hrole hvotes =>
    refine ⟨hid, hlearner, ?_, fun hlead => ?_⟩
    · -- a vote by `L` itself is dropped before it is counted
      rw [hvotes, List.mem_append, List.mem_singleton]
      rintro (hmem' | rfl)
      · exact h.votes hmem'
      rw [h.learner] at hsender
      cases hsender
    rw [hrole] at hlead
    obtain ⟨hcand, _⟩ | ⟨hpre, _⟩ := hwhy
    · rw [hcand] at hlead
      cases hlead
    rw [hpre] at hlead
    cases hlead
  | lead _ hquorum hvotes =>
    refine ⟨hid, hlearner, by rw [hvotes]; exact h.votes, fun _ => ?_⟩
    rw [voteQuorumOk_congr hmem hvotes]
    exact hquorum

end

/-! ## The learner itself -/

/-- One vote is not enough at this node. -/
def NeedsVotes (r : Raft) : Prop :=
  voteQuorumOk { r with votesGranted := [r.conf.id] } = false

/-- The node has not won, and as a candidate it has only its own vote. -/
structure Unelected (r : Raft) : Prop where
  needs : NeedsVotes r
  role : r.role ≠ .leader
  alone : r.role = .candidate → r.votesGranted = [r.conf.id]

section

variable {L : Nat} {m : Msg} {o r r' : Raft}

lemma NeedsVotes.congr (h : NeedsVotes r) (hconf : r'.conf = r.conf) (hmem : r'.mem = r.mem) :
    NeedsVotes r' := by
  unfold NeedsVotes at h ⊢
  rw [hconf, ← h]
  exact voteQuorumOk_congr hmem rfl

/-- No vote is given to the node while it is a candidate. -/
def NoVoteFor (L : Nat) (r : Raft) (m : Msg) : Prop :=
  r.conf.id = L → r.role = .candidate → m.type = .voteResp → m.term ≤ r.term → m.reject ≠ 0
  deriving Decidable

lemma Unelected.stroke (h : Unelected r) (hno : NoVoteFor o.conf.id o m)
    (hs : Stroke m o r r') : Unelected r' := by
  obtain ⟨hconf, hmem, hballot⟩ := ballot_of_stroke hs
  have hneeds := h.needs.congr hconf hmem
  cases hballot with
  | same hrole hvotes =>
    refine ⟨hneeds, by rw [hrole]; exact h.role, fun hcand => ?_⟩
    rw [hvotes, hconf]
    exact h.alone (hrole.symm.trans hcand)
  | down hrole hvotes =>
    refine ⟨hneeds, by rw [hrole]; decide, fun hcand => ?_⟩
    rw [hrole] at hcand
    cases hcand
  | run hrole hvotes =>
    refine ⟨hneeds, ?_, fun _ => by rw [hvotes, hconf]⟩
    obtain hrole | hrole := hrole
    all_goals
      rw [hrole]
      decide
  | count hwhy hstart hgrant _ hrole hvotes =>
    obtain ⟨hcand, htype, hterm⟩ | ⟨hpre, _⟩ := hwhy
    · subst hstart
      exact absurd hgrant (hno rfl hcand htype hterm)
    refine ⟨hneeds, by rw [hrole]; exact h.role, fun hcand => ?_⟩
    rw [hrole, hpre] at hcand
    cases hcand
  | lead hcand hquorum _ =>
    -- its own vote would have to be a quorum
    have hown : voteQuorumOk r = false := by
      rw [← h.needs]
      exact voteQuorumOk_congr rfl (h.alone hcand)
    rw [hown] at hquorum
    cases hquorum

end

/-! ## The cluster -/

/-- The learner and the other nodes. -/
structure Roster where
  learner : Nat
  others : List Nat
  nodup : (learner :: others).Nodup
  nonzero : 0 ∉ learner :: others

/-- Node `i` as it starts: told about the peers `ps`, with whatever its files hold. -/
def Created (i : Nat) (ps : List Peer) (r : Raft) : Prop :=
  ∃ cfg r0 hs l applied, cfg.id = i ∧ cetcdRaftNew cfg = some r0 ∧
    r = { cetcdRaftRestoreHardState (addPeers r0 ps) hs with rlog := l, applied := applied }

/-- Every other node lists the learner as one; it lists all others as voters. -/
structure Starts (S : Roster) (c : Cluster) : Prop where
  sent : c.sent = []
  others : ∀ i ∈ S.others, ∃ ps, Created i ps (c.node i) ∧ ⟨S.learner, true⟩ ∈ ps ∧
    (i :: ps.map Peer.id).Nodup ∧ 0 ∉ ps.map Peer.id
  learner : ∃ ps, Created S.learner ps (c.node S.learner) ∧
    ps.Perm (S.others.map (fun j => ⟨j, false⟩))

/-- What can happen: the actions of `Cluster`, at these nodes. -/
def Happens (S : Roster) (c : Cluster) : Action → Prop
  | .tick i => i ∈ S.learner :: S.others
  | .input i m => i ∈ S.learner :: S.others ∧ m.type.isLocal = true
  | .confChange i _ => i ∈ S.learner :: S.others
  | .deliver p => p ∈ c.sent ∧ p.msg.dest ∈ S.learner :: S.others
  | .compact i _ => i ∈ S.learner :: S.others

instance (S : Roster) (c : Cluster) : (a : Action) → Decidable (Happens S c a)
  | .tick _ | .confChange _ _ | .compact _ _ => inferInstanceAs (Decidable (_ ∈ _))
  | .input _ _ | .deliver _ => inferInstanceAs (Decidable (_ ∧ _))

def LearnerRun (S : Roster) (ok : Cluster → Action → Prop) : List Cluster → Prop :=
  RunOf (Starts S) (fun c a c' => Happens S c a ∧ ok c a ∧ c' = c.next a)

section

variable {i L : Nat} {ps : List Peer} {r : Raft}

lemma Created.id (h : Created i ps r) : r.conf.id = i := by
  obtain ⟨cfg, r0, hs, l, applied, rfl, hnew, rfl⟩ := h
  change (addPeers r0 ps).conf.id = cfg.id
  rw [(addPeers_frame r0 ps).1]
  exact (cetcdRaftNew_spec hnew).2.1

lemma Created.msgs (h : Created i ps r) : r.pending.msgs = [] := by
  obtain ⟨cfg, r0, hs, l, applied, rfl, hnew, rfl⟩ := h
  change (addPeers r0 ps).pending.msgs = []
  rw [(addPeers_frame r0 ps).2]
  exact (cetcdRaftNew_spec hnew).2.2.2.2.2.2

lemma Created.spec (h : Created i ps r) (hnodup : (i :: ps.map Peer.id).Nodup)
    (hzero : 0 ∉ ps.map Peer.id) :
    r.mem.peers = ⟨i, false⟩ :: ps ∧ r.role = .follower ∧ r.votesGranted = [] := by
  obtain ⟨cfg, r0, hs, l, applied, rfl, hnew, rfl⟩ := h
  obtain ⟨_, _, hpeers, _, hrole, hvotes, _⟩ := cetcdRaftNew_spec hnew
  have hpos : ∀ p ∈ ps, p.id ≠ 0 := fun p hp h0 => hzero (h0 ▸ List.mem_map.2 ⟨p, hp, rfl⟩)
  have htable : ((r0.mem.peers ++ ps).map Peer.id).Nodup := by
    rw [hpeers]
    exact hnodup
  obtain ⟨h1, _, _, h4, h5⟩ := addPeers_spec hpos htable
  refine ⟨?_, h4.trans hrole, h5.trans hvotes⟩
  change (addPeers r0 ps).mem.peers = _
  rw [h1, hpeers]
  rfl

lemma Created.heedless (h : Created i ps r) (hnodup : (i :: ps.map Peer.id).Nodup)
    (hzero : 0 ∉ ps.map Peer.id) (hL : ⟨L, true⟩ ∈ ps) : Heedless L r := by
  obtain ⟨hpeers, hrole, hvotes⟩ := h.spec hnodup hzero
  obtain ⟨hi, hps⟩ := List.nodup_cons.1 hnodup
  have hne : i ≠ L := fun heq => hi (heq ▸ List.mem_map.2 ⟨_, hL, rfl⟩)
  refine ⟨by rw [h.id]; exact hne, ?_, by rw [hvotes]; simp, fun hlead => ?_⟩
  · -- the entry for `L` is the only one with its id
    unfold fromLearner
    rw [hpeers, List.find?_cons_of_neg (by simpa using hne)]
    cases hfind : ps.find? (fun p => p.id == L) with
    | none =>
      have hnot := List.find?_eq_none.1 hfind _ hL
      simp at hnot
    | some p =>
      have hp := List.mem_of_find?_eq_some hfind
      have hpid : p.id = L := by simpa using List.find?_some hfind
      have heq : p = ⟨L, true⟩ := List.inj_on_of_nodup_map hps hp hL hpid
      rw [heq]
  rw [hrole] at hlead
  cases hlead

lemma needsVotes_of_two (hpeers : (r.mem.peers.map Peer.id).Nodup)
    (htwo : 2 ≤ (incoming r).length) : NeedsVotes r := by
  unfold NeedsVotes
  rw [Bool.eq_false_iff]
  intro hquorum
  obtain ⟨_, hcount, _⟩ := voteQuorumOk_iff.1 hquorum
  have hnodup : (incoming r).Nodup :=
    (hpeers.sublist (List.filter_sublist.map Peer.id)).sublist (List.take_sublist _ _)
  have hone : (incoming r).countP (voteFrom { r with votesGranted := [r.conf.id] }) ≤ 1 := by
    have hfun : voteFrom { r with votesGranted := [r.conf.id] } = fun v => v == r.conf.id := by
      funext v
      simp [voteFrom, beq_eq_decide]
    rw [hfun]
    exact List.nodup_iff_count_le_one.1 hnodup r.conf.id
  have htwo' : 2 ≤ quorum (incoming r).length := by
    unfold quorum
    omega
  exact absurd (htwo'.trans (hcount.trans hone)) (by omega)

lemma Created.unelected (h : Created L ps r) {others : List Nat}
    (hperm : ps.Perm (others.map (fun j => ⟨j, false⟩))) (hnodup : (L :: others).Nodup)
    (hzero : 0 ∉ L :: others) (hne : others ≠ []) : Unelected r := by
  have hids : (ps.map Peer.id).Perm others := by
    simpa [List.map_map, Function.comp_def] using hperm.map Peer.id
  have hnodup' : (L :: ps.map Peer.id).Nodup := (hids.cons L).nodup_iff.2 hnodup
  rcases h.spec hnodup' (fun h0 => hzero (List.mem_cons_of_mem _ (hids.mem_iff.1 h0))) with
    ⟨hpeers, hrole, _⟩
  have hvoters : r.mem.peers.filter (fun p => !p.learner) = r.mem.peers := by
    refine List.filter_eq_self.2 fun p hp => ?_
    rw [hpeers] at hp
    obtain rfl | hp := List.mem_cons.1 hp
    · rfl
    obtain ⟨j, _, rfl⟩ := List.mem_map.1 (hperm.mem_iff.1 hp)
    rfl
  have htwo : 2 ≤ (incoming r).length := by
    unfold incoming
    rw [hvoters, List.length_take, List.length_map, hpeers, List.length_cons]
    have hlen := hids.length_eq
    rw [List.length_map] at hlen
    have := List.length_pos_iff.2 hne
    unfold maxPeers
    omega
  refine ⟨needsVotes_of_two (by rw [hpeers]; exact hnodup') htwo, by rw [hrole]; decide, ?_⟩
  intro hcand
  rw [hrole] at hcand
  cases hcand

end

/-! ## Runs -/

/-- What holds of a node between two calls. -/
structure Waits (P : Raft → Prop) (r : Raft) : Prop where
  holds : P r
  msgs : r.pending.msgs = []

section

variable {S : Roster} {ok : Cluster → Action → Prop} {P : Raft → Prop} {c : Cluster} {i : Nat}
  {r : Raft} {hist : List Cluster}

/-- A property of role, votes and table. -/
def Electoral (P : Raft → Prop) : Prop :=
  ∀ r r' : Raft, r'.conf = r.conf → r'.mem = r.mem → r'.role = r.role →
    r'.votesGranted = r.votesGranted → P r → P r'

lemma electoral_heedless (L : Nat) : Electoral (Heedless L) := by
  intro r r' hconf hmem hrole hvotes h
  refine ⟨by rw [hconf]; exact h.id, (fromLearner_congr hmem L).trans h.learner,
    by rw [hvotes]; exact h.votes, fun hlead => ?_⟩
  rw [voteQuorumOk_congr hmem hvotes]
  exact h.elected (hrole.symm.trans hlead)

lemma electoral_unelected : Electoral Unelected := by
  intro r r' hconf hmem hrole hvotes h
  refine ⟨h.needs.congr hconf hmem, by rw [hrole]; exact h.role, fun hcand => ?_⟩
  rw [hvotes, hconf]
  exact h.alone (hrole.symm.trans hcand)

lemma Electoral.waits_perform (hP : Electoral P) (hr : P r) (c : Cluster) :
    Waits P ((c.perform i r).node i) := by
  unfold Cluster.perform
  dsimp only
  rw [Function.update_self]
  unfold cetcdRaftAdvance cetcdRaftReady
  dsimp only
  split
  all_goals exact ⟨hP r _ rfl rfl rfl rfl hr, rfl⟩

lemma waits_perform_of_ne {j : Nat} (hi : Waits P (c.node i)) (hne : i ≠ j) :
    Waits P ((c.perform j r).node i) := by
  unfold Cluster.perform
  dsimp only
  rw [Function.update_of_ne hne]
  exact hi

lemma Electoral.waits_compact (hP : Electoral P) (hr : Waits P r) (target : Nat) :
    Waits P (Cluster.snapshotTruncate r target) := by
  unfold Cluster.snapshotTruncate
  split_ifs
  · split
    · unfold cetcdRaftCompact
      split
      · exact hr
      · exact ⟨hP r _ rfl rfl rfl rfl hr.holds, hr.msgs⟩
    · exact hr
  · exact hr

lemma Electoral.next (hP : Electoral P) (hi : Waits P (c.node i)) (a : Action)
    (htick : a = .tick i → P (cetcdRaftTick (c.node i)))
    (hinput : ∀ m, a = .input i m → P (cetcdRaftStep (c.node i) m).2)
    (hconf : ∀ data, a = .confChange i data → P (cetcdRaftProposeConfChange (c.node i) data))
    (hdeliver : ∀ p : Packet, a = .deliver p → p.msg.dest = i → P (cetcdRaftStep (c.node i) p.msg).2) :
    Waits P ((c.next a).node i) := by
  cases a with
  | tick j =>
    by_cases hj : j = i
    · subst hj
      exact hP.waits_perform (htick rfl) c
    · exact waits_perform_of_ne hi (Ne.symm hj)
  | input j m =>
    by_cases hj : j = i
    · subst hj
      exact hP.waits_perform (hinput m rfl) c
    · exact waits_perform_of_ne hi (Ne.symm hj)
  | confChange j data =>
    by_cases hj : j = i
    · subst hj
      exact hP.waits_perform (hconf data rfl) c
    · exact waits_perform_of_ne hi (Ne.symm hj)
  | deliver p =>
    by_cases hj : p.msg.dest = i
    · subst hj
      exact hP.waits_perform (hdeliver p rfl rfl) c
    · exact waits_perform_of_ne hi (Ne.symm hj)
  | compact j target =>
    change Waits P (Function.update c.node j _ i)
    by_cases hj : j = i
    · subst hj
      rw [Function.update_self]
      exact hP.waits_compact hi target
    rw [Function.update_of_ne (Ne.symm hj)]
    exact hi

lemma heedless_of_run (hrun : LearnerRun S ok hist) :
    ∀ c ∈ hist, ∀ i ∈ S.others, Waits (Heedless S.learner) (c.node i) := by
  refine hrun.forall_mem ?_ ?_
  · intro c hstart i hi
    obtain ⟨ps, hcreated, hL, hnodup, hzero⟩ := hstart.others i hi
    exact ⟨hcreated.heedless hnodup hzero hL, hcreated.msgs⟩
  rintro c a c' ih ⟨_, _, rfl⟩ i hi
  have hw := ih i hi
  refine (electoral_heedless S.learner).next hw a ?_ ?_ ?_ ?_
  · intro _
    exact strokes_cetcdRaftTick.induct hw.holds fun _ _ hs hp => hp.stroke hs
  · intro m _
    exact strokes_cetcdRaftStep.induct hw.holds fun _ _ hs hp => hp.stroke hs
  · intro data _
    exact (strokes_cetcdRaftProposeConfChange (m := default) data rfl).induct hw.holds
      fun _ _ hs hp => hp.stroke hs
  intro p _ _
  exact strokes_cetcdRaftStep.induct hw.holds fun _ _ hs hp => hp.stroke hs

lemma unelected_of_run (hne : S.others ≠ [])
    (hrun : LearnerRun S (Cluster.onDelivery (NoVoteFor S.learner)) hist) :
    ∀ c ∈ hist, Waits (fun r => Unelected r ∧ r.conf.id = S.learner) (c.node S.learner) := by
  let P : Raft → Prop := fun r => Unelected r ∧ r.conf.id = S.learner
  have hP : Electoral P :=
    fun r r' hconf hmem hrole hvotes h =>
      ⟨electoral_unelected r r' hconf hmem hrole hvotes h.1, by rw [hconf]; exact h.2⟩
  have hcall : ∀ {m : Msg} {r r' : Raft}, NoVoteFor S.learner r m → Strokes m r r r' → P r →
      P r' := by
    intro m r r' hno hs h
    rw [← h.2] at hno
    exact hs.induct (P := P) h fun _ _ hs hp =>
      ⟨hp.1.stroke hno hs, by rw [(ballot_of_stroke hs).1]; exact hp.2⟩
  refine hrun.forall_mem (P := fun c => Waits P (c.node S.learner)) ?_ ?_
  · intro c hstart
    obtain ⟨ps, hcreated, hperm⟩ := hstart.learner
    exact ⟨⟨hcreated.unelected hperm S.nodup S.nonzero hne, hcreated.id⟩, hcreated.msgs⟩
  rintro c a c' hw ⟨hhappens, hok, rfl⟩
  refine hP.next hw a ?_ ?_ ?_ ?_
  · exact fun _ => hcall (by simp [NoVoteFor, timerMsg]) strokes_cetcdRaftTick hw.holds
  · -- a local message is no vote
    rintro m rfl
    refine hcall (fun _ _ htype => ?_) strokes_cetcdRaftStep hw.holds
    have hlocal := hhappens.2
    rw [htype] at hlocal
    cases hlocal
  · exact fun data _ => hcall (m := { type := .prop }) (by simp [NoVoteFor])
      (strokes_cetcdRaftProposeConfChange data rfl) hw.holds
  rintro p rfl hdest
  have hno : NoVoteFor S.learner (c.node p.msg.dest) p.msg := hok
  rw [hdest] at hno
  exact hcall hno strokes_cetcdRaftStep hw.holds

/-- If no vote is delivered to the learner while it is a candidate, it does not lead. -/
theorem learner_does_not_lead (hne : S.others ≠ []) {hist : List Cluster}
    (hrun : LearnerRun S (Cluster.onDelivery (NoVoteFor S.learner)) hist) :
    ∀ c ∈ hist, (c.node S.learner).role ≠ .leader ∧ ∀ i ∈ S.others, (c.node i).role = .leader →
        voteQuorumOk (withoutVote S.learner (c.node i)) = true := by
  intro c hc
  refine ⟨(unelected_of_run hne hrun c hc).holds.1.role, fun i hi hlead => ?_⟩
  exact (heedless_of_run hrun c hc i hi).holds.withoutVote hlead

end

/-! ## Two voters and a learner -/

def twoAndLearner : Roster := ⟨3, [1, 2], by decide, by decide⟩

def startNode (i : Nat) (ps : List Peer) : Raft :=
  addPeers ((cetcdRaftNew { id := i, electionTick := 3, heartbeatTick := 1 }).getD default) ps

def startTwoAndLearner : Cluster :=
  { node := fun i =>
      if i = 1 then startNode 1 [⟨2, false⟩, ⟨3, true⟩]
      else if i = 2 then startNode 2 [⟨1, false⟩, ⟨3, true⟩]
      else startNode 3 [⟨1, false⟩, ⟨2, false⟩]
    sent := [] }

lemma starts_twoAndLearner : Starts twoAndLearner startTwoAndLearner := by
  refine ⟨rfl, ?_, ?_⟩
  · intro i hi
    obtain rfl | rfl := List.mem_pair.1 hi
    · exact ⟨[⟨2, false⟩, ⟨3, true⟩], ⟨⟨1, 3, 1, 0, 0, false, false⟩, _, {}, _, _, rfl, rfl, rfl⟩,
        by decide, by decide, by decide⟩
    exact ⟨[⟨1, false⟩, ⟨3, true⟩], ⟨⟨2, 3, 1, 0, 0, false, false⟩, _, {}, _, _, rfl, rfl, rfl⟩,
      by decide, by decide, by decide⟩
  exact ⟨[⟨1, false⟩, ⟨2, false⟩], ⟨⟨3, 3, 1, 0, 0, false, false⟩, _, {}, _, _, rfl, rfl, rfl⟩,
    by decide⟩

lemma learnerRun_replay {ok : Cluster → Action → Prop} {fs : List (Cluster → Action)}
    (hplay : Lib.Playable Cluster.next (fun c a => Happens twoAndLearner c a ∧ ok c a)
      startTwoAndLearner fs) :
    LearnerRun twoAndLearner ok (Cluster.replay [] startTwoAndLearner fs) :=
  run_of_playable (fun _ _ h => ⟨h.1, h.2, rfl⟩) starts_twoAndLearner hplay

/-- The learner's timer runs out and node 1 votes for it. -/
def learnerScript : List (Cluster → Action) :=
  [fun _ => .tick 3, fun _ => .tick 3, fun _ => .tick 3, Cluster.nth 0, Cluster.nth 2]

theorem learner_leads : LearnerRun twoAndLearner Cluster.anyStep
        (Cluster.replay [] startTwoAndLearner learnerScript) ∧
      ∃ c ∈ Cluster.replay [] startTwoAndLearner learnerScript, (c.node 3).role = .leader :=
  ⟨learnerRun_replay (by decide +kernel),
    Cluster.finish startTwoAndLearner learnerScript, Cluster.finish_mem_replay _ _ _,
    by decide +kernel⟩

/-- Node 1 is elected with the vote of node 2; the learner campaigns too, and in vain. -/
def votersScript : List (Cluster → Action) :=
  [Cluster.call 1 .hup, Cluster.nth 0, Cluster.nth 2, Cluster.call 3 .hup]

theorem learner_does_not_lead_two : (∃ c ∈ Cluster.replay [] startTwoAndLearner votersScript,
      (c.node 1).role = .leader ∧ (c.node 3).role = .candidate) ∧
    ∀ c ∈ Cluster.replay [] startTwoAndLearner votersScript,
      (c.node twoAndLearner.learner).role ≠ .leader ∧
        ∀ i ∈ twoAndLearner.others, (c.node i).role = .leader →
          voteQuorumOk (withoutVote twoAndLearner.learner (c.node i)) = true :=
  ⟨⟨Cluster.finish startTwoAndLearner votersScript, Cluster.finish_mem_replay _ _ _,
      by decide +kernel⟩,
    learner_does_not_lead (by decide) (learnerRun_replay (by decide +kernel))⟩

end Cetcd.Member
