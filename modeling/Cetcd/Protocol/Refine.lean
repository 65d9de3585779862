import Cetcd.Protocol.Acts
import Cetcd.Raft.Quorum

/-!
# Every call is a turn

Each act of a call, seen through `view`, is one move or none. The lemmas use only the shape of the
code and, for the two quorums, that the node is a member of the voter set.
-/

namespace Cetcd.Protocol

open Lib Raft List Function

variable {K : Checks} {V : Voters} {N : Msg → Prop} {S : Move → Bool} {v v' v1 v2 : View} {r : Raft}
  {x slot : Nat}

lemma Moves.refl (v : View) : Moves K V N S v v := Relation.ReflTransGen.refl

lemma Moves.of_eq (h : v' = v) : Moves K V N S v v' := by
  rw [h]
  exact Moves.refl v

lemma Moves.trans (h : Moves K V N S v v1) (h' : Moves K V N S v1 v2) : Moves K V N S v v2 :=
  Relation.ReflTransGen.trans h h'

lemma Moves.one (mv : Move) (hS : S mv) (h : MoveStep K V N v mv v') : Moves K V N S v v' :=
  Relation.ReflTransGen.single ⟨mv, hS, h⟩

lemma Moves.induct {P : View → Prop} (h : Moves K V N S v v')
    (hstep : ∀ v v' mv, S mv → MoveStep K V N v mv v' → P v → P v') (hv : P v) : P v' := by
  induction h with
  | refl => exact hv
  | tail _ hlast ih =>
    obtain ⟨mv, hS, hmv⟩ := hlast
    exact hstep _ _ mv hS hmv ih

lemma MoveStep.config {mv : Move} (h : MoveStep K V N v mv v') :
    v'.conf = v.conf ∧ v'.mem = v.mem := by
  cases h <;> exact ⟨rfl, rfl⟩

lemma Moves.config (h : Moves K V N S v v') : v'.conf = v.conf ∧ v'.mem = v.mem := by
  refine Moves.induct (P := fun w => w.conf = v.conf ∧ w.mem = v.mem) h ?_ ⟨rfl, rfl⟩
  intro w w' mv _ hmv hw
  exact ⟨hmv.config.1.trans hw.1, hmv.config.2.trans hw.2⟩

lemma MoveStep.keeps_leader {mv : Move} (hmv : mv.leads) (h : MoveStep K V N v mv v')
    (hv : v.role = .leader) : v'.role = .leader ∧ v'.term = v.term := by
  cases h <;> first | exact ⟨hv, rfl⟩ | exact ⟨rfl, rfl⟩ | cases hmv

@[simp] lemma view_queueHardState (r : Raft) : view (queueHardState r) = view r := rfl

@[simp] lemma view_queueMsg (r : Raft) (m : Msg) : view (queueMsg r m) = (view r).emit m := rfl

@[simp] lemma view_queueStored (r : Raft) (idx : Nat) : view (queueStored r idx) = view r := by
  unfold queueStored
  split <;> rfl

lemma peerSlot_eq_some (h : peerSlot r x = some slot) :
    slot < min r.mem.peers.length maxPeers ∧ ∃ p, r.mem.peers[slot]? = some p ∧ p.id = x := by
  rw [peerSlot, findIdx?_eq_some_iff_getElem] at h
  obtain ⟨hlt, hx, _⟩ := h
  rw [length_take] at hlt
  refine ⟨by omega, r.mem.peers[slot], getElem?_eq_getElem (by omega), ?_⟩
  simpa using hx

lemma progressOf_write_of_eq {pr : PeerProgress}
    (h : pr.matchIdx = (r.progress.read slot).matchIdx) :
    progressOf { r with progress := r.progress.write slot pr } = progressOf r := by
  funext x
  have hslot : peerSlot { r with progress := r.progress.write slot pr } x = peerSlot r x := rfl
  unfold progressOf
  rw [hslot]
  cases peerSlot r x with
  | none => rfl
  | some s =>
    dsimp only
    rw [ZeroArray.read_write]
    split
    · rename_i hs
      rw [hs, h]
    · rfl

lemma view_write_of_eq (slot : Nat) (pr : PeerProgress)
    (h : pr.matchIdx = (r.progress.read slot).matchIdx) :
    view { r with progress := r.progress.write slot pr } = view r := by
  unfold view
  rw [progressOf_write_of_eq h]

lemma view_write (pr : PeerProgress) (h : peerSlot r x = some slot) :
    view { r with progress := r.progress.write slot pr } =
      { view r with matchIdx := update (view r).matchIdx x pr.matchIdx } := by
  have hfun : progressOf { r with progress := r.progress.write slot pr } =
      update (progressOf r) x pr.matchIdx := by
    funext y
    have hslot : peerSlot { r with progress := r.progress.write slot pr } y = peerSlot r y := rfl
    unfold progressOf
    rw [hslot]
    by_cases hyx : y = x
    · subst hyx
      rw [h]
      simp
    rw [update_of_ne hyx]
    cases hy : peerSlot r y with
    | none => rfl
    | some s =>
      have hne : s ≠ slot := by
        rintro rfl
        obtain ⟨_, p, hp, hpx⟩ := peerSlot_eq_some h
        obtain ⟨_, q, hq, hqy⟩ := peerSlot_eq_some hy
        rw [hp] at hq
        cases hq
        exact hyx (hqy.symm.trans hpx)
      dsimp only
      rw [ZeroArray.read_write_of_ne _ _ hne]
  unfold view
  rw [hfun]

lemma view_becomeLeader (r : Raft) :
    view (becomeLeader r) = { view r with role := .leader, matchIdx := fun _ => 0 } := by
  have hfun : progressOf (becomeLeader r) = fun _ => 0 := by
    funext x
    have hslot : peerSlot (becomeLeader r) x = peerSlot r x := rfl
    unfold progressOf
    rw [hslot]
    cases hx : peerSlot r x with
    | none => rfl
    | some s =>
      have hs := (peerSlot_eq_some hx).1
      simp only [becomeLeader]
      rw [ZeroArray.read_update, if_pos (by omega)]
  unfold view
  rw [hfun]
  rfl

lemma appendEntries_spec (es : List Entry) (r : Raft) (idx : Nat) :
    view (appendEntries r idx es) = { view r with rlog := storeEntries r.rlog idx es } := by
  induction es generalizing r idx with
  | nil => rfl
  | cons e es ih =>
    rw [appendEntries, ih, view_queueStored]
    have hlog : (queueStored { r with rlog := storeEntry r.rlog idx e } idx).rlog =
        storeEntry r.rlog idx e := congrArg View.rlog (view_queueStored _ idx)
    rw [hlog]
    rfl

lemma view_followCommit (r : Raft) (c : Nat) :
    view (followCommit r c) = { view r with commit := max r.commit (min c r.rlog.lastIndex) } := by
  unfold followCommit
  split
  · rename_i hlt
    rw [view_queueHardState, max_eq_right hlt.le]
    rfl
  rename_i hge
  rw [max_eq_left (by omega)]
  rfl

lemma view_coverSnapshot (r : Raft) (s : Nat) : view (coverSnapshot r s) =
      { view r with commit := max r.commit s, applied := max r.applied s } := by
  have happlied : ∀ r : Raft, view (if r.applied < s then { r with applied := s } else r) =
      { view r with applied := max r.applied s } := by
    intro r
    split
    · rename_i h
      rw [max_eq_right h.le]
      rfl
    rename_i h
    rw [max_eq_left (by omega)]
    rfl
  unfold coverSnapshot
  dsimp only
  rw [happlied]
  split
  · rename_i h
    rw [max_eq_right h.le]
    rfl
  rename_i h
  rw [max_eq_left (b := s) (by omega : s ≤ r.commit)]
  rfl

/-- The moves of a leader, or of a node that is not leading. -/
def Move.sort : Bool → Move → Bool
  | true => Move.leads
  | false => Move.isLocal

lemma moves_stepDown {r' : Raft} {t : Nat} (h : r.term ≤ t)
    (hview : view r' = { view r with
      term := t, vote := if (view r).term < t then 0 else (view r).vote, role := .follower }) :
    Moves K V N Move.isLocal (view r) (view r') := by
  refine Moves.one (.stepDown t) rfl ?_
  rw [hview]
  exact .stepDown h

section

variable {i : Nat} {r : Raft} (hmem : Member V i r.conf r.mem)

include hmem

lemma Member.length_le : r.mem.peers.length ≤ maxPeers := by
  have := hmem.peers.length_eq
  rw [length_map] at this
  rw [this]
  exact V.card_le

lemma Member.majority (h : voteQuorumOk r) : Majority V.ids (fun x => x ∈ r.votesGranted) :=
  (majority_of_voteQuorumOk hmem.voters hmem.length_le h).perm hmem.peers

lemma moves_maybeAdvanceCommit : Moves K V N Move.leads (view r) (view (maybeAdvanceCommit r)) := by
  unfold maybeAdvanceCommit
  rw [incoming_eq hmem.voters hmem.length_le, hmem.outgoing]
  simp only [ne_eq, not_true_eq_false, if_false]
  split_ifs with hrole hlen hadv
  any_goals exact Moves.refl _
  · refine Moves.one (.advance (majorityMatchIds r (r.mem.peers.map Peer.id))) rfl ?_
    refine .advance hrole hadv.1 hadv.2 ?_
    refine (majority_majorityMatchIds r ?_ ?_).perm hmem.peers
    · intro hnil
      rw [hnil] at hlen
      exact hlen rfl
    rw [length_map]
    exact hmem.length_le

end

section

variable {i : Nat} {m : Msg} {o r r' : Raft} {b : Bool}
  (hm : m.type.isLocal = false → N m ∧ m.dest = i ∧ K.Met o m) (hout : o.pending.msgs = [])

include hm hout

lemma moves_accept (htype : m.type = .app) (hheeds : Heeds m o r) (hprev : PrevMatches r.rlog m) :
    Moves K V N Move.isLocal (view r)
      (view (queueMsg (followCommit (appendEntries r (m.index + 1) m.entries) m.commit)
        { type := .appResp, dest := m.sender, sender := r.conf.id, term := r.term
          index := (followCommit (appendEntries r (m.index + 1) m.entries)
            m.commit).rlog.lastIndex })) := by
  obtain ⟨hN, _, hok⟩ := hm (by rw [htype]; rfl)
  have hstep : MoveStep K V N (view r) (.accept m) _ :=
    .accept hN htype hheeds.term hheeds.role (hheeds.msgs.trans hout) hprev (fun hK htail => by
        change r.rlog.lastTerm = m.term
        change LeavesTail r.rlog m at htail
        rw [hheeds.rlog] at htail hprev ⊢
        exact hok.tail hK htype hheeds.le hprev htail)
      (fun hK h0 => by
        change r.rlog.compacted ≤ 1
        rw [hheeds.rlog]
        exact hok.start hK htype hheeds.le h0)
  have hrlog : (appendEntries r (m.index + 1) m.entries).rlog =
      storeEntries r.rlog (m.index + 1) m.entries :=
    congrArg View.rlog (appendEntries_spec m.entries r (m.index + 1))
  have hcommit : (appendEntries r (m.index + 1) m.entries).commit = r.commit :=
    congrArg View.commit (appendEntries_spec m.entries r (m.index + 1))
  have hlast : (followCommit (appendEntries r (m.index + 1) m.entries) m.commit).rlog =
      storeEntries r.rlog (m.index + 1) m.entries :=
    (congrArg View.rlog (view_followCommit _ m.commit)).trans hrlog
  refine Moves.one (.accept m) rfl ?_
  rw [view_queueMsg, view_followCommit, appendEntries_spec, hlast, hcommit, hrlog]
  exact hstep

lemma moves_install {l : RaftLog} (htype : m.type = .snap) (hheeds : Heeds m o r)
    (h0 : m.snapshot ≠ 0) (hinst : Installed r.rlog m l) :
    Moves K V N Move.isLocal (view r)
      (view (queueMsg (coverSnapshot { r with rlog := l } m.snapshot)
        { type := .snapStatus, dest := m.sender, sender := r.conf.id, term := r.term
          snapshot := m.snapshot, index := m.snapshot })) := by
  obtain ⟨hN, _, hok⟩ := hm (by rw [htype]; rfl)
  refine Moves.one (.install m) rfl ?_
  have hstep : MoveStep K V N (view r) (.install m) _ :=
    .install hN htype hheeds.term hheeds.role (hheeds.msgs.trans hout) h0 hinst (fun hK hlt hin => by
      change logTermAt r.rlog m.snapshot = m.logTerm
      change r.rlog.compacted < m.snapshot at hlt
      change m.snapshot ≤ r.rlog.lastIndex at hin
      rw [hheeds.rlog] at hlt hin ⊢
      exact hok.snaps hK htype hheeds.le hlt hin)
  rw [view_queueMsg, view_coverSnapshot]
  exact hstep

omit hout in
lemma moves_credit {slot : Nat} {pr : PeerProgress} (hlead : o.role = .leader)
    (hslot : peerSlot o m.sender = some slot) (h : Credits o m slot pr.matchIdx) :
    Moves K V N Move.leads (view o) (view { o with progress := o.progress.write slot pr }) := by
  rw [view_write pr hslot]
  refine Moves.one (.setMatch m.sender pr.matchIdx) rfl (.setMatch hlead ?_)
  obtain hle | ⟨hacc, hack⟩ := h
  · left
    change pr.matchIdx ≤ progressOf o m.sender
    unfold progressOf
    rw [hslot]
    exact hle
  right
  obtain ⟨htype, hterm, hidx⟩ | ⟨htype, hidx⟩ := hack
  · obtain ⟨hN, _, hok⟩ := hm (by rw [htype]; rfl)
    refine ⟨m, hN, rfl, hacc, fun hK => ?_, .inl ⟨htype, hidx.symm⟩⟩
    exact le_antisymm hterm (hok.ack hK htype hacc hlead)
  · obtain ⟨hN, _, hok⟩ := hm (by rw [htype]; rfl)
    exact ⟨m, hN, rfl, hacc, fun hK => hok.status hK htype hacc hlead, .inr ⟨htype, hidx.symm⟩⟩

lemma Act.moves (hmem : Member V i r.conf r.mem) (h : Act m o r b r') :
    Moves K V N (Move.sort b) (view r) (view r') := by
  cases h with
  | pace | note => exact Moves.refl _
  | say b h =>
    refine Moves.one _ ?_ (.say h.1)
    cases b <;> rfl
  | demote =>
    refine moves_stepDown le_rfl ?_
    rw [if_neg (show ¬ (view r).term < r.term from lt_irrefl _)]
    rfl
  | stepDown ht =>
    refine moves_stepDown ht.le ?_
    rw [if_pos (by exact ht)]
    rfl
  | preCampaign hrole => exact Moves.one .preCampaign rfl (.preCampaign hrole)
  | campaign hrole => exact Moves.one .campaign rfl (.campaign hrole)
  | count hwhy heq hacc =>
    subst heq
    obtain ⟨hrole, htype, hterm⟩ | ⟨hrole, _⟩ := hwhy
    · obtain ⟨hN, hdest, hok⟩ := hm (by rw [htype]; rfl)
      exact Moves.one (.record m) rfl (.record hN (hdest.trans hmem.id.symm) htype hacc hrole hterm
        fun hK => hok.votes hK htype hacc hrole)
    · exact Moves.one .preRecord rfl (.preRecord hrole)
  | grant htype hterm hfree hlog =>
    exact Moves.one (.grant m) rfl
      (.grant (hm (by rw [htype]; rfl)).1 htype hterm hfree (of_decide_eq_true hlog))
  | accept htype hheeds hprev => exact moves_accept hm hout htype hheeds hprev
  | follow htype hheeds =>
    obtain ⟨hN, _, hok⟩ := hm (by rw [htype]; rfl)
    rw [view_followCommit]
    refine Moves.one (.follow m) rfl (.follow hN htype hheeds.term hheeds.role fun hK hraise => ?_)
    change r.rlog.lastTerm = m.term
    change r.commit < min m.commit r.rlog.lastIndex at hraise
    rw [hheeds.rlog, hheeds.commit] at hraise
    rw [hheeds.rlog]
    exact hok.beats hK htype hheeds.le hraise
  | install htype hheeds h0 hinst => exact moves_install hm hout htype hheeds h0 hinst
  | lead hrole hquorum =>
    rw [view_becomeLeader]
    exact Moves.one .win rfl (.win hrole (hmem.majority hquorum))
  | propose type data hrole =>
    have hlog : proposedLog r type data = logAppend r.rlog
        { term := r.term, index := r.rlog.lastIndex + 1, type := type, data := data } := by
      unfold proposedLog logAppend
      dsimp only
      rw [if_neg (lt_irrefl _), if_pos (Nat.lt_succ_self _)]
    rw [view_queueHardState, view_queueStored, hlog]
    exact Moves.one (.propose _) rfl (.propose hrole rfl rfl)
  | credit heq hrole hslot h =>
    subst heq
    exact moves_credit hm hrole hslot h
  | track hrole hpr => exact Moves.of_eq (view_write_of_eq _ _ hpr)
  | advance => exact moves_maybeAdvanceCommit hmem

lemma Acts.moves (hmem : Member V i r.conf r.mem) (h : Acts m o b r r') :
    Moves K V N (Move.sort b) (view r) (view r') := by
  induction h with
  | refl => exact Moves.refl _
  | @tail r1 r2 _ hlast ih =>
    -- no move touches the configuration
    have hmem1 : Member V i r1.conf r1.mem := by
      rw [show r1.conf = r.conf from ih.config.1, show r1.mem = r.mem from ih.config.2]
      exact hmem
    exact ih.trans (hlast.moves hm hout hmem1)

lemma Course.turn (hmem : Member V i r.conf r.mem) (h : Course m o r r') :
    Turn K V N (view r) (view r') := by
  obtain ⟨r1, hlocal, hleads⟩ := h
  have hfirst := hlocal.moves hm hout hmem
  refine ⟨view r1, hfirst, hleads.moves hm hout ?_⟩
  rw [show r1.conf = r.conf from hfirst.config.1, show r1.mem = r.mem from hfirst.config.2]
  exact hmem

end

section

variable {i : Nat} {m : Msg} (hmem : Member V i r.conf r.mem) (hout : r.pending.msgs = [])

include hmem hout

lemma turn_cetcdRaftStep (hm : m.type.isLocal = false → N m ∧ m.dest = i ∧ K.Met r m) :
    Turn K V N (view r) (view (cetcdRaftStep r m).2) :=
  course_cetcdRaftStep.turn hm hout hmem

lemma turn_cetcdRaftTick : Turn K V N (view r) (view (cetcdRaftTick r)) :=
  (course_cetcdRaftTick (m := { type := .hup })).turn (absurd · (by decide)) hout hmem

lemma turn_cetcdRaftProposeConfChange (data : List UInt8) :
    Turn K V N (view r) (view (cetcdRaftProposeConfChange r data)) :=
  (course_cetcdRaftProposeConfChange (m := { type := .prop }) data rfl).turn (absurd · (by decide)) hout hmem

end

end Cetcd.Protocol
