import Cetcd.Protocol.Refine

/-!
# A call, stroke by stroke

`Stroke m o r r'` is one thing that happens to a node while it handles `m`; `o` is the node as the
call began. Every call of the core API is a sequence of strokes. Those that touch term, vote or log
come before the first message is queued, so what a pending message says of its sender still holds
when the Ready is taken.
-/

namespace Cetcd.Calls

open Lib Raft Protocol List

/-! ## Strokes -/

/-- What a queued message says about its node, but for a granted vote. -/
def Utters (r : Raft) (a : Msg) : Prop :=
  match a.type with
  | .voteResp => a.reject ≠ 0 ∧ a.term = r.term
  | .appResp => a.term = r.term ∧ (a.reject = 0 → a.index = r.rlog.lastIndex)
  | .app => a.term = r.term ∧ r.role = .leader ∧ AppFrom r.rlog a
  | _ => True

def proposed (r : Raft) (type : EntryType) (data : List UInt8) : Raft :=
  let idx := r.rlog.lastIndex + 1
  queueStored
    { r with
      rlog := logAppend { r.rlog with lastIndex := idx, lastTerm := r.term }
        { term := r.term, index := idx, type := type, data := data } }
    idx

inductive Stroke (m : Msg) (o r : Raft) : Raft → Prop
  | pace (leaderId elapsed beat : Nat) :
      Stroke m o r
        { r with leaderId := leaderId, elapsedTicks := elapsed, heartbeatElapsed := beat }
  | track (progress : ZeroArray PeerProgress) : r.role = .leader →
      Stroke m o r { r with progress := progress }
  | note : Stroke m o r (queueHardState r)
  | demote : Stroke m o r { r with role := .follower }
  | stepDown {t : Nat} : r.term < t → r.pending.msgs = o.pending.msgs →
      Stroke m o r (queueHardState { r with role := .follower, term := t, vote := 0 })
  | preCampaign : r.role ≠ .leader →
      Stroke m o r { r with role := .preCandidate, votesGranted := [r.conf.id] }
  | campaign : r.role ≠ .leader → r.pending.msgs = o.pending.msgs →
      Stroke m o r
        (queueHardState
          { r with
            role := .candidate, term := r.term + 1, vote := r.conf.id
            votesGranted := [r.conf.id] })
  | count :
      (r.role = .candidate ∧ m.type = .voteResp ∧ m.term ≤ r.term) ∨
        (r.role = .preCandidate ∧ m.type = .preVoteResp) →
      r = o → m.reject = 0 → fromLearner r m.sender = false →
      Stroke m o r { r with votesGranted := r.votesGranted ++ [m.sender] }
  | lead (progress : ZeroArray PeerProgress) : r.role = .candidate → voteQuorumOk r = true →
      Stroke m o r { r with role := .leader, progress := progress }
  | say {a : Msg} : Utters r a → Stroke m o r (queueMsg r a)
  | grant : m.type = .vote → m.term = r.term → (r.vote = 0 ∨ r.vote = m.sender) →
      r.pending.msgs = o.pending.msgs →
      Stroke m o r
        (queueMsg (queueHardState { r with vote := m.sender })
          { type := .voteResp, dest := m.sender, sender := r.conf.id, term := r.term })
  | accept : m.type = .app → m.term = r.term → r.role = .follower → r.pending.msgs = o.pending.msgs →
      o.term ≤ m.term → r.rlog = o.rlog → PrevMatches r.rlog m →
      Stroke m o r (appendEntries r (m.index + 1) m.entries)
  | propose (type : EntryType) (data : List UInt8) : r.role = .leader →
      r.pending.msgs = o.pending.msgs →
      Stroke m o r (queueHardState (proposed r type data))
  | commit {c : Nat} : r.commit < c →
      (c ≤ r.rlog.lastIndex ∨ (r.role = .leader ∧ logTermAt r.rlog c = r.term)) →
      Stroke m o r (queueHardState { r with commit := c })
  | cover : m.type = .snap → m.snapshot ≤ r.rlog.compacted →
      Stroke m o r (coverSnapshot r m.snapshot)
  | install {l : RaftLog} : m.type = .snap → r.role = .follower → r.pending.msgs = o.pending.msgs →
      o.term ≤ m.term → r.rlog = o.rlog → r.rlog.compacted < m.snapshot →
      logCompact r.rlog m.snapshot m.logTerm = some l →
      Stroke m o r (coverSnapshot { r with rlog := l } m.snapshot)

def Strokes (m : Msg) (o : Raft) : Raft → Raft → Prop := Relation.ReflTransGen (Stroke m o)

section

variable {m : Msg} {o r r' r'' : Raft}

lemma Strokes.refl (r : Raft) : Strokes m o r r := Relation.ReflTransGen.refl

lemma Strokes.trans (h : Strokes m o r r') (h' : Strokes m o r' r'') : Strokes m o r r'' :=
  Relation.ReflTransGen.trans h h'

lemma Stroke.strokes (h : Stroke m o r r') : Strokes m o r r' := Relation.ReflTransGen.single h

lemma Strokes.induct {P : Raft → Prop} (h : Strokes m o r r') (h0 : P r)
    (hstroke : ∀ s s', Stroke m o s s' → P s → P s') : P r' := by
  induction h with
  | refl => exact h0
  | tail _ hlast ih => exact hstroke _ _ hlast ih

end

/-! ## Frames -/

/-- What storing entries and covering a snapshot leave alone. -/
structure SameSeat (r r' : Raft) : Prop where
  conf : r'.conf = r.conf
  mem : r'.mem = r.mem
  term : r'.term = r.term
  vote : r'.vote = r.vote
  role : r'.role = r.role
  votes : r'.votesGranted = r.votesGranted
  msgs : r'.pending.msgs = r.pending.msgs

section

variable {m : Msg} {o r r' : Raft}

lemma SameSeat.of_view {l : RaftLog} {c a : Nat}
    (h : view r' = { view r with rlog := l, commit := c, applied := a }) : SameSeat r r' where
  conf := (congrArg View.conf h :)
  mem := (congrArg View.mem h :)
  term := (congrArg View.term h :)
  vote := (congrArg View.vote h :)
  role := (congrArg View.role h :)
  votes := (congrArg View.votes h :)
  msgs := (congrArg View.out h :)

lemma sameSeat_appendEntries (es : List Entry) (r : Raft) (idx : Nat) :
    SameSeat r (appendEntries r idx es) := .of_view (appendEntries_spec es r idx)

lemma sameSeat_coverSnapshot (r : Raft) (s : Nat) : SameSeat r (coverSnapshot r s) :=
  .of_view (view_coverSnapshot r s)

lemma sameSeat_proposed (r : Raft) (type : EntryType) (data : List UInt8) :
    SameSeat r (proposed r type data) := .of_view (view_queueStored _ _)

lemma hs_queueStored (r : Raft) (idx : Nat) : (queueStored r idx).pending.hs = r.pending.hs := by
  unfold queueStored
  split <;> rfl

lemma hs_appendEntries (es : List Entry) (r : Raft) (idx : Nat) :
    (appendEntries r idx es).pending.hs = r.pending.hs := by
  induction es generalizing r idx with
  | nil => rfl
  | cons e es ih => exact (ih _ _).trans (hs_queueStored _ idx)

lemma hs_coverSnapshot (r : Raft) (s : Nat) :
    ((coverSnapshot r s).pending.hs = r.pending.hs ∧ (coverSnapshot r s).commit = r.commit) ∨
      (coverSnapshot r s).pending.hs = some ⟨r.term, r.vote, (coverSnapshot r s).commit⟩ := by
  unfold coverSnapshot
  dsimp only
  split
  · right
    split <;> rfl
  · left
    split <;> exact ⟨rfl, rfl⟩

/-- The hard state that is pending is the node's own, after every stroke that changes it. -/
lemma Stroke.hs (h : Stroke m o r r') :
    (r'.pending.hs = r.pending.hs ∧ r'.term = r.term ∧ r'.vote = r.vote ∧ r'.commit = r.commit) ∨
      r'.pending.hs = some ⟨r'.term, r'.vote, r'.commit⟩ := by
  have hcover : ∀ r s, ((coverSnapshot r s).pending.hs = r.pending.hs ∧
        (coverSnapshot r s).term = r.term ∧ (coverSnapshot r s).vote = r.vote ∧
        (coverSnapshot r s).commit = r.commit) ∨ (coverSnapshot r s).pending.hs =
      some ⟨(coverSnapshot r s).term, (coverSnapshot r s).vote, (coverSnapshot r s).commit⟩ := by
    intro r s
    have hseat := sameSeat_coverSnapshot r s
    rw [hseat.term, hseat.vote]
    exact (hs_coverSnapshot r s).imp_left fun h => ⟨h.1, rfl, rfl, h.2⟩
  cases h with
  | note | stepDown | campaign | grant | propose | commit => exact .inr rfl
  | accept =>
    have hspec := appendEntries_spec m.entries r (m.index + 1)
    have hseat := sameSeat_appendEntries m.entries r (m.index + 1)
    exact .inl ⟨hs_appendEntries _ _ _, hseat.term, hseat.vote, (congrArg View.commit hspec :)⟩
  | cover => exact hcover _ _
  | @install l => exact hcover { r with rlog := l } _
  | _ => exact .inl ⟨rfl, rfl, rfl, rfl⟩

end

/-! ## Acts and strokes -/

section

variable {m : Msg} {o r r' : Raft} {b : Bool}

lemma utters_of_speaks {a : Msg} (h : Speaks r a) : Utters r a := by
  obtain ⟨⟨_, hsay⟩, hterm⟩ := h
  unfold Utters
  cases htype : a.type with
  | voteResp =>
    rw [htype] at hsay hterm
    exact ⟨hsay, hterm⟩
  | appResp =>
    rw [htype] at hsay hterm
    exact ⟨hterm, fun hacc => absurd hacc hsay⟩
  | app =>
    rw [htype] at hsay
    exact ⟨hsay.2.1, hsay.1, hsay.2.2.2⟩
  | _ => trivial

lemma strokes_maybeAdvanceCommit : Strokes m o r (maybeAdvanceCommit r) := by
  unfold maybeAdvanceCommit
  split
  · exact Strokes.refl r
  rename_i hlead
  dsimp only
  split
  · exact Strokes.refl r
  generalize (if r.mem.outgoing ≠ [] then _ else _ : Nat) = c
  split
  · rename_i hadv
    exact (Stroke.commit hadv.1 (.inr ⟨not_not.1 hlead, hadv.2⟩)).strokes
  · exact Strokes.refl r

lemma strokes_followCommit (c : Nat) :
    Strokes m o r (followCommit r c) ∧ (followCommit r c).term = r.term := by
  unfold followCommit
  split
  · rename_i hlt
    exact ⟨(Stroke.commit hlt (.inl (min_le_right _ _))).strokes, rfl⟩
  · exact ⟨Strokes.refl r, rfl⟩

lemma strokes_of_act (h : Act m o r b r') : Strokes m o r r' := by
  cases h with
  | pace _ leaderId elapsed beat => exact (Stroke.pace leaderId elapsed beat).strokes
  | note => exact Stroke.note.strokes
  | say _ h => exact (Stroke.say (utters_of_speaks h)).strokes
  | demote => exact Stroke.demote.strokes
  | stepDown ht hmsgs => exact (Stroke.stepDown ht hmsgs).strokes
  | preCampaign hrole => exact (Stroke.preCampaign hrole).strokes
  | campaign hrole hmsgs => exact (Stroke.campaign hrole hmsgs).strokes
  | count hwhy heq hacc hlearner => exact (Stroke.count hwhy heq hacc hlearner).strokes
  | grant htype hterm hfree _ hmsgs => exact (Stroke.grant htype hterm hfree hmsgs).strokes
  | accept htype hheeds hprev =>
    have happend := (Stroke.accept htype hheeds.term hheeds.role hheeds.msgs hheeds.le hheeds.rlog
      hprev).strokes
    obtain ⟨hcommit, hterm⟩ := strokes_followCommit (m := m) (o := o)
      (r := appendEntries r (m.index + 1) m.entries) m.commit
    refine (happend.trans hcommit).trans (Stroke.say ?_).strokes
    exact ⟨(hterm.trans (sameSeat_appendEntries _ _ _).term).symm, fun _ => rfl⟩
  | follow => exact (strokes_followCommit m.commit).1
  | install htype hheeds _ hinst =>
    have hsay : ∀ s, Utters s { type := .snapStatus, dest := m.sender, sender := r.conf.id
                                term := r.term, snapshot := m.snapshot, index := m.snapshot } :=
      fun _ => trivial
    obtain ⟨hle, rfl⟩ | ⟨hnew, hl⟩ := hinst
    · exact (Stroke.cover htype hle).strokes.trans (Stroke.say (hsay _)).strokes
    · exact (Stroke.install htype hheeds.role hheeds.msgs hheeds.le hheeds.rlog hnew hl).strokes.trans
        (Stroke.say (hsay _)).strokes
  | lead hrole hquorum =>
    exact (Stroke.lead _ hrole hquorum).strokes.trans (Stroke.pace r.conf.id 0 0).strokes
  | propose type data hrole hmsgs => exact (Stroke.propose type data hrole hmsgs).strokes
  | credit _ hrole | track hrole => exact (Stroke.track _ hrole).strokes
  | advance => exact strokes_maybeAdvanceCommit

lemma strokes_of_acts (h : Acts m o b r r') : Strokes m o r r' := by
  induction h with
  | refl => exact Strokes.refl r
  | tail _ hlast ih => exact ih.trans (strokes_of_act hlast)

lemma strokes_of_course (h : Course m o r r') : Strokes m o r r' := by
  obtain ⟨r1, hlocal, hleads⟩ := h
  exact (strokes_of_acts hlocal).trans (strokes_of_acts hleads)

lemma strokes_cetcdRaftStep : Strokes m r r (cetcdRaftStep r m).2 :=
  strokes_of_course course_cetcdRaftStep

/-- The message the timer steps into its own node. -/
def timerMsg (r : Raft) : Msg := { type := .hup, sender := r.conf.id }

lemma strokes_cetcdRaftTick : Strokes (timerMsg r) r r (cetcdRaftTick r) :=
  strokes_of_course course_cetcdRaftTick

lemma strokes_cetcdRaftProposeConfChange (data : List UInt8)
    (hmsgs : r.pending.msgs = o.pending.msgs) :
    Strokes m o r (cetcdRaftProposeConfChange r data) :=
  strokes_of_course (course_cetcdRaftProposeConfChange data hmsgs)

end

end Cetcd.Calls
