import Cetcd.Member.Steady

/-!
# What the server makes of a leader

After every call the server takes the Ready, applies what is committed and leaves a joint
configuration as soon as all voters have the entry that began it. `Chief.settle` says that this
keeps a leader that its voters follow, and that nothing is left undone.
-/

namespace Cetcd.Member

open Lib Raft Protocol Apply Server Repair List

section

variable {T : Tenure} {logs : Nat → RaftLog} {r r' : Raft} {i : Nat}

/-! ## Taking the Ready -/

/-- What applied entries do to the table of a leader: they may end the joint configuration. -/
structure Loosened (r r' : Raft) : Prop where
  eq : r' = { r with mem := r'.mem }
  peers : r'.mem.peers = r.mem.peers
  joint : r'.mem.outgoing = [] ∨ r'.mem.outgoing = r.mem.outgoing ∧
    r'.mem.jointIndex = r.mem.jointIndex ∧ r'.mem.leavePending = r.mem.leavePending

lemma Loosened.trans {r'' : Raft} (h : Loosened r r') (h' : Loosened r' r'') : Loosened r r'' where
  eq := by
    rw [h'.eq, h.eq]
  peers := h'.peers.trans h.peers
  joint := by
    obtain hnil | ⟨h1, h2, h3⟩ := h'.joint
    · exact .inl hnil
    rw [h1, h2, h3]
    exact h.joint

lemma loosened_applyTableAt (htame : ∀ e, logAt r.rlog i = some e → Plain e.data) :
    Loosened r (applyTableAt r i) ∧ (IsLeave r.rlog i → (applyTableAt r i).mem.outgoing = []) ∧
      (r.mem.outgoing ≠ [] → (applyTableAt r i).mem.outgoing = [] → IsLeave r.rlog i) := by
  unfold applyTableAt
  cases hat : logAt r.rlog i with
  | none =>
    refine ⟨⟨rfl, rfl, .inr ⟨rfl, rfl, rfl⟩⟩, ?_, fun hjoint hnil => absurd hnil hjoint⟩
    rintro ⟨e, he, _⟩
    rw [hat] at he
    cases he
  | some e =>
    dsimp only
    by_cases htype : e.type ≠ .normal
    · rw [if_pos htype]
      refine ⟨⟨rfl, rfl, .inr ⟨rfl, rfl, rfl⟩⟩, ?_, fun hjoint hnil => absurd hnil hjoint⟩
      rintro ⟨e', he', hnormal, _⟩
      rw [hat] at he'
      cases he'
      exact absurd hnormal htype
    rw [if_neg htype]
    unfold applyMember
    split
    · rename_i rest hdata
      exact absurd (by rw [hdata]; rfl) (htame e hat).2.1
    · rename_i rest hdata
      have hleave : IsLeave r.rlog i := ⟨e, hat, not_not.1 htype, by rw [hdata]; rfl⟩
      unfold cetcdRaftLeaveJoint
      split
      · rename_i hnil
        exact ⟨⟨rfl, rfl, .inl hnil⟩, fun _ => hnil, fun _ _ => hleave⟩
      · exact ⟨⟨rfl, rfl, .inl rfl⟩, fun _ => rfl, fun _ _ => hleave⟩
    rename_i hnine
    refine ⟨⟨rfl, rfl, .inr ⟨rfl, rfl, rfl⟩⟩, ?_, fun hjoint hnil => absurd hnil hjoint⟩
    rintro ⟨e', he', _, hdata⟩
    rw [hat] at he'
    cases he'
    obtain ⟨rest, hrest⟩ := head?_eq_some_iff.1 hdata
    exact absurd hrest (hnine rest)

lemma loosened_foldl (is : List Nat)
    (htame : ∀ i ∈ is, ∀ e, logAt r.rlog i = some e → Plain e.data) :
    Loosened r (is.foldl applyTableAt r) ∧
      (∀ q ∈ is, IsLeave r.rlog q → (is.foldl applyTableAt r).mem.outgoing = []) ∧
      (r.mem.outgoing ≠ [] → (is.foldl applyTableAt r).mem.outgoing = [] →
        ∃ q ∈ is, IsLeave r.rlog q) := by
  induction is generalizing r with
  | nil =>
    exact ⟨⟨rfl, rfl, .inr ⟨rfl, rfl, rfl⟩⟩, forall_mem_nil _,
      fun hjoint hnil => absurd hnil hjoint⟩
  | cons i is ih =>
    rcases loosened_applyTableAt (htame i mem_cons_self) with ⟨hone, hleave, honly⟩
    have hlog : (applyTableAt r i).rlog = r.rlog := by rw [hone.eq]
    rcases @ih (applyTableAt r i) (by
      rw [hlog]
      exact fun j hj => htame j (mem_cons_of_mem i hj)) with ⟨hrest, hleaves, honlys⟩
    rw [foldl_cons]
    refine ⟨hone.trans hrest, fun q hq hqleave => ?_, fun hjoint hleft => ?_⟩
    · rcases mem_cons.1 hq with rfl | hq
      · -- once left, the joint configuration does not come back
        rcases hrest.joint with hnil | ⟨hsame, _⟩
        · exact hnil
        · exact hsame.trans (hleave hqleave)
      · exact hleaves q hq (hlog.symm ▸ hqleave)
    by_cases hmid : (applyTableAt r i).mem.outgoing = []
    · exact ⟨i, mem_cons_self, honly hjoint hmid⟩
    rcases honlys hmid hleft with ⟨q, hq, hqleave⟩
    exact ⟨q, mem_cons_of_mem i hq, hlog ▸ hqleave⟩

/-- The leader after a round of `process_ready_`. -/
structure Rounded (T : Tenure) (logs : Nat → RaftLog) (r r' : Raft) : Prop where
  chief : Chief T logs r'
  settled : Settled T r'
  kept : Retained r r'
  still : Still r r'
  out : r'.pending.msgs = []
  applied : r'.commit ≤ r'.applied
  pending : r'.mem.outgoing = [] ∨ r'.mem.leavePending = r.mem.leavePending

/-- Messages go out, committed entries are applied, and with its entry a joint configuration ends.
-/
structure Turned (r r' : Raft) : Prop where
  node : r' = { (cetcdRaftReady r).2 with mem := r'.mem, applied := max r.applied r.commit }
  peers : r'.mem.peers = r.mem.peers
  joint : r'.mem.outgoing = [] ∨ r'.mem.outgoing = r.mem.outgoing ∧
    r'.mem.jointIndex = r.mem.jointIndex ∧ r'.mem.leavePending = r.mem.leavePending
  done : ∀ q, IsLeave r.rlog q → r.applied < q → q ≤ max r.applied r.commit → r'.mem.outgoing = []
  left : r.mem.outgoing ≠ [] → r'.mem.outgoing = [] →
    ∃ q, r.applied < q ∧ q ≤ max r.applied r.commit ∧ IsLeave r.rlog q

lemma readyRound_eq (hloose : Loosened (cetcdRaftReady r).2 (applyTable (cetcdRaftReady r).2)) :
    (Member.readyRound r).2 = { (cetcdRaftReady r).2 with
      mem := (applyTable (cetcdRaftReady r).2).mem
      applied := max r.applied r.commit } := by
  unfold Member.readyRound cetcdRaftAdvance
  dsimp only
  rw [hloose.eq]
  split
  · rename_i hlt
    change r.applied < r.commit at hlt
    change _ = ({ (cetcdRaftReady r).2 with mem := _, applied := max r.applied r.commit } : Raft)
    rw [max_eq_right hlt.le]
    rfl
  rename_i hge
  change ¬ r.applied < r.commit at hge
  rw [max_eq_left (not_lt.1 hge)]
  rfl

lemma turned_readyRound (htame : ∀ i e, r.applied < i → logAt r.rlog i = some e →
    Plain e.data) : Turned r (Member.readyRound r).2 := by
  -- the entries of the round are those above what was applied
  have hround : ∀ i, i ∈ roundRange r.applied r.commit ↔
      r.applied < i ∧ i ≤ max r.applied r.commit := by
    intro i
    unfold roundRange
    rw [mem_range'_1]
    omega
  rcases loosened_foldl (r := (cetcdRaftReady r).2) (roundRange r.applied r.commit)
    (fun i hi e he => htame i e ((hround i).1 hi).1 he) with ⟨hloose, hleaves, honly⟩
  have hnode := readyRound_eq hloose
  have hmem : (Member.readyRound r).2.mem = (applyTable (cetcdRaftReady r).2).mem := by rw [hnode]
  constructor
  · rw [hmem]
    exact hnode
  · rw [hmem]
    exact hloose.peers
  · rw [hmem]
    exact hloose.joint
  · intro q hq hlt hle
    rw [hmem]
    exact hleaves q ((hround q).2 ⟨hlt, hle⟩) hq
  intro hjoint hnil
  rw [hmem] at hnil
  obtain ⟨q, hq, hqleave⟩ := honly hjoint hnil
  exact ⟨q, ((hround q).1 hq).1, ((hround q).1 hq).2, hqleave⟩

namespace Turned

variable {r' : Raft} (h : Turned r r')

include h

lemma rlog : r'.rlog = r.rlog := by rw [h.node]; rfl

lemma progress : r'.progress = r.progress := by rw [h.node]; rfl

lemma commit : r'.commit = r.commit := by rw [h.node]; rfl

lemma applied : r'.applied = max r.applied r.commit := by rw [h.node]

lemma conf : r'.conf = r.conf := by rw [h.node]; rfl

lemma msgs : r'.pending.msgs = [] := by rw [h.node]; rfl

lemma still : Still r r' := ⟨fun i => by rw [h.progress], by rw [h.node]; rfl⟩

lemma kept : Retained r r' := by
  refine ⟨h.conf, ?_, h.commit.ge, ?_, ?_, ?_, ?_⟩
  · rw [h.rlog]
    exact Extends.refl _
  · rw [h.applied]
    exact le_max_left _ _
  · exact h.joint.imp_right fun hsame => ⟨hsame.1, hsame.2.1⟩
  · rw [h.applied]
    exact h.done
  rw [h.applied, h.rlog]
  exact h.left

lemma leave (hchief : Chief T logs r) (hne : r'.mem.outgoing ≠ [])
    (hpending : r'.mem.leavePending) :
    ∃ q, T.own ≤ q ∧ r'.applied < q ∧ IsLeave r'.rlog q := by
  obtain hnil | ⟨hout, -, hleave⟩ := h.joint
  · exact absurd hnil hne
  rw [hout] at hne
  rw [hleave] at hpending
  obtain ⟨q, hq, hlt, hqleave⟩ := hchief.leave hne hpending
  refine ⟨q, hq, ?_, ?_⟩
  · rw [h.applied]
    by_contra hle
    rw [← hout] at hne
    exact hne (h.done q hqleave hlt (not_lt.1 hle))
  rw [h.rlog]
  exact hqleave

lemma chief (hchief : Chief T logs r) : Chief T logs r' := by
  refine ⟨⟨?_, ?_, ?_, ?_, ?_, ?_, ?_, ?_, ?_, ?_, ?_, ?_, ?_, ?_, h.leave hchief⟩, ?_⟩
  · rw [h.conf]; exact hchief.id
  · rw [h.node]; exact hchief.role
  · rw [h.node]; exact hchief.term
  · rw [h.peers]; exact hchief.peers
  · rw [h.rlog]; exact hchief.base
  · rw [h.rlog]; exact hchief.own_le
  · rw [h.rlog]; exact hchief.own
  · rw [h.rlog, h.commit]; exact hchief.commit_le
  · rw [h.commit, h.applied]; exact max_le hchief.applied_le le_rfl
  · rw [h.applied]; exact hchief.base_le.trans (le_max_left _ _)
  · rw [h.rlog, h.applied]
    exact fun i e hi he => hchief.tame i e ((le_max_left _ _).trans_lt hi) he
  · rw [h.rlog, h.progress]; exact hchief.notes
  · rw [h.rlog]; exact hchief.follows
  · rw [h.msgs]; exact forall_mem_nil _
  obtain hnil | ⟨hsame, _⟩ := h.joint
  · exact .inl hnil
  · rw [hsame]; exact hchief.quorate

end Turned

lemma Chief.readyRound (h : Chief T logs r) (hset : Settled T r) :
    Rounded T logs r (Member.readyRound r).2 := by
  have hturn := turned_readyRound h.tame
  refine ⟨hturn.chief h, ?_, hturn.kept, hturn.still, hturn.msgs, ?_, ?_⟩
  · exact hset.of_same hturn.rlog hturn.commit fun i => by rw [hturn.progress]
  · rw [hturn.commit, hturn.applied]
    exact le_max_right _ _
  · exact hturn.joint.imp_right fun hsame => hsame.2.2

/-! ## Leaving the joint configuration -/

lemma maybeProposeLeaveJoint_eq (r : Raft) : maybeProposeLeaveJoint r =
      if r.role = .leader ∧ cetcdRaftJointCaughtUp r ∧ r.mem.leavePending = false then
        some (cetcdRaftSetLeavePending (proposeEntry r .normal [9]) true)
      else none := by
  unfold maybeProposeLeaveJoint
  by_cases hrole : r.role = .leader
  · have hjoint : cetcdRaftJointCaughtUp r → cetcdRaftInJoint r := by
      intro h
      unfold cetcdRaftJointCaughtUp at h
      exact (Bool.and_eq_true _ _ ▸ h).1
    rw [if_neg (not_not.2 hrole), step_proposal hrole]
    dsimp only
    rw [if_neg (not_not.2 rfl)]
    by_cases hin : cetcdRaftInJoint r = true
    · rw [if_neg (by simp [hin])]
      by_cases hpend : r.mem.leavePending = true
      · rw [if_pos hpend, if_neg (by simp [hpend])]
      rw [if_neg hpend]
      by_cases hup : cetcdRaftJointCaughtUp r = true
      · rw [if_neg (by simp [hup]), if_pos ⟨hrole, hup, Bool.not_eq_true _ ▸ hpend⟩]
      · rw [if_pos (by simp [hup]), if_neg fun h => hup h.2.1]
    · rw [if_pos (by simp [hin]), if_neg fun h => hin (hjoint h.2.1)]
  · rw [if_pos hrole, if_neg fun h => hrole h.1]

lemma kept_proposeEntry (r : Raft) (data : Bytes) :
    Retained r (proposeEntry r .normal data) ∧ Still r (proposeEntry r .normal data) ∧
      (proposeEntry r .normal data).rlog = proposedLog r .normal data ∧
      (proposeEntry r .normal data).applied = r.applied := by
  obtain ⟨commit, hle, hs⟩ := sends_proposeEntry r .normal data
  refine ⟨Retained.trans ?_ (kept_of_sends hs), ⟨hs.acked, hs.timer⟩, hs.rlog, hs.applied⟩
  exact kept_of_same rfl (extends_proposedLog r data) hle rfl rfl rfl

lemma plain_leaveJoint : Plain [9] := by decide

lemma Chief.setLeavePending (h : Chief T logs r) {q : Nat} (hown : T.own ≤ q)
    (happlied : r.applied < q) (hleave : IsLeave r.rlog q) :
    Chief T logs (cetcdRaftSetLeavePending r true) :=
  ⟨⟨h.id, h.role, h.term, h.peers, h.base, h.own_le, h.own, h.commit_le, h.applied_le,
    h.base_le, h.tame,
    h.notes, h.follows, h.mail, fun _ _ => ⟨q, hown, happlied, hleave⟩⟩, h.quorate⟩

/-- The leader that has proposed to leave. -/
structure Leaves (T : Tenure) (logs : Nat → RaftLog) (r r' : Raft) : Prop where
  chief : Chief T logs r'
  settled : Settled T r'
  kept : Retained r r'
  still : Still r r'
  pending : r'.mem.leavePending = true

lemma Chief.proposeLeave (h : Chief T logs r) :
    Leaves T logs r (cetcdRaftSetLeavePending (Raft.proposeEntry r .normal [9]) true) := by
  obtain ⟨hchief, hset⟩ := h.proposeEntry plain_leaveJoint
  obtain ⟨hkept, hstill, hlog, happlied⟩ := kept_proposeEntry r [9]
  have hbase := h.base
  have hlt := T.base_lt
  have hown := h.own_le
  have hle := h.applied_le.trans h.commit_le
  have hleave : IsLeave (proposedLog r .normal [9]) (r.rlog.lastIndex + 1) :=
    ⟨_, logAt_proposedLog_new (by omega), rfl, rfl⟩
  generalize Raft.proposeEntry r .normal [9] = r1 at hchief hset hkept hstill hlog happlied
  have hpend : Retained r1 (cetcdRaftSetLeavePending r1 true) :=
    kept_of_same rfl (Extends.refl _) le_rfl rfl rfl rfl
  exact ⟨hchief.setLeavePending hown (by omega) (hlog ▸ hleave), hset, hkept.trans hpend,
    ⟨hstill.acked, hstill.timer⟩, rfl⟩

/-! ## The whole of `process_ready_` -/

/-- What `process_ready_` sends and leaves. -/
structure Settles (T : Tenure) (logs : Nat → RaftLog) (r : Raft) (res : List Msg × Raft) : Prop where
  chief : Chief T logs res.2
  settled : Settled T res.2
  kept : Retained r res.2
  still : Still r res.2
  out : res.2.pending.msgs = []
  applied : res.2.commit ≤ res.2.applied
  mail : ∀ m ∈ res.1, Mail T logs res.2.rlog m
  sent : ∀ m ∈ r.pending.msgs, m ∈ res.1
  /-- A leader that could propose to leave has done so. -/
  urged : cetcdRaftJointCaughtUp res.2 = true → res.2.mem.leavePending = true

lemma jointCaughtUp_joint (h : cetcdRaftJointCaughtUp r) : r.mem.outgoing ≠ [] := by
  unfold cetcdRaftJointCaughtUp cetcdRaftInJoint at h
  intro hnil
  rw [hnil] at h
  exact absurd h Bool.false_ne_true

variable (h : Chief T logs r)

include h

lemma Chief.settle (hset : Settled T r) :
    Settles T logs r (Member.settle r) := by
  have h1 := h.readyRound hset
  unfold Member.settle
  rw [maybeProposeLeaveJoint_eq]
  by_cases hcond : (Member.readyRound r).2.role = .leader ∧
      cetcdRaftJointCaughtUp (Member.readyRound r).2 = true ∧
      (Member.readyRound r).2.mem.leavePending = false
  · rw [if_pos hcond]
    dsimp only
    have h2 := h1.chief.proposeLeave
    generalize cetcdRaftSetLeavePending
      (Raft.proposeEntry (Member.readyRound r).2 .normal [9]) true = r2 at h2
    have h3 := h2.chief.readyRound h2.settled
    have hkept3 := h2.kept.trans h3.kept
    refine ⟨h3.chief, h3.settled, h1.kept.trans hkept3, h1.still.trans (h2.still.trans h3.still),
      h3.out, h3.applied, ?_, ?_, ?_⟩
    · intro m hm
      obtain hm | hm := mem_append.1 hm
      · exact (h.mail m hm).grow (fun _ _ _ => le_rfl) h.follows (h1.kept.log.trans hkept3.log)
      · exact (h2.chief.mail m hm).grow (fun _ _ _ => le_rfl) h2.chief.follows h3.kept.log
    · exact fun m hm => mem_append_left _ hm
    intro hup
    obtain hnil | hsame := h3.pending
    · exact absurd hnil (jointCaughtUp_joint hup)
    · exact hsame.trans h2.pending
  rw [if_neg hcond]
  refine ⟨h1.chief, h1.settled, h1.kept, h1.still, h1.out, h1.applied, ?_, fun m hm => hm, ?_⟩
  · intro m hm
    exact (h.mail m hm).grow (fun _ _ _ => le_rfl) h.follows h1.kept.log
  intro hup
  by_contra hpend
  exact hcond ⟨h1.chief.role, hup, Bool.not_eq_true _ ▸ hpend⟩

/-! ## Calls -/

lemma Chief.tick (hset : Settled T r) :
    Chief T logs (cetcdRaftTick r) ∧ Settled T (cetcdRaftTick r) ∧ Retained r (cetcdRaftTick r) ∧
      (∀ i, ((cetcdRaftTick r).progress.read i).matchIdx = (r.progress.read i).matchIdx) ∧
      (¬ Net.Beats r → (cetcdRaftTick r).heartbeatElapsed = r.heartbeatElapsed + 1) ∧
      (Net.Beats r → ∀ i v, T.peers[i]? = some ⟨v, false⟩ → v ≠ T.lead →
        Beaten r i v (cetcdRaftTick r).pending.msgs) := by
  have hkept : ∀ e b, Retained r { r with elapsedTicks := e, heartbeatElapsed := b } := fun e b =>
    kept_of_same rfl (Extends.refl _) le_rfl rfl rfl rfl
  unfold cetcdRaftTick
  dsimp only
  rw [if_pos h.role]
  by_cases hbeat : r.conf.heartbeatTimeout ≤ r.heartbeatElapsed + 1
  · rw [if_pos hbeat]
    have h0 := h.timers (r.elapsedTicks + 1) 0
    have hkept0 := hkept (r.elapsedTicks + 1) 0
    have hstep : ∀ r0 : Raft, (cetcdRaftStep r0 { type := .beat, sender := r.conf.id }).2 =
        Raft.stepBeat r0 := fun _ => rfl
    rw [hstep]
    obtain ⟨h1, hs, hsent⟩ := h0.stepBeat
    generalize hr1 : Raft.stepBeat
      { r with elapsedTicks := r.elapsedTicks + 1, heartbeatElapsed := 0 } = r1 at h1 hs hsent
    exact ⟨h1, hset.of_same hs.rlog hs.commit hs.acked, hkept0.trans (kept_of_sends hs), hs.acked,
      fun hno => absurd ⟨h.role, hbeat⟩ hno,
      fun _ i v hi hv => ⟨(hsent i v hi hv).beat, (hsent i v hi hv).app⟩⟩
  rw [if_neg hbeat]
  exact ⟨h.timers _ _, hset, hkept _ _, fun _ => rfl, fun _ => rfl, fun hb => absurd hb.2 hbeat⟩

lemma Chief.propose {data : Bytes} (hdata : Plain data) :
    Tended T logs r (cetcdRaftStep r (proposal data)).2 ∧
      ∀ i, ((cetcdRaftStep r (proposal data)).2.progress.read i).matchIdx =
        (r.progress.read i).matchIdx := by
  obtain ⟨hkept, hstill, _, _⟩ := kept_proposeEntry r data
  rw [step_proposal h.role]
  exact ⟨⟨(h.proposeEntry hdata).1, (h.proposeEntry hdata).2, hkept, hstill.timer⟩, hstill.acked⟩

lemma Chief.hear (hset : Settled T r) {m : Msg} (hm : Answer T logs m) :
    Tended T logs r (cetcdRaftStep r m).2 ∧ ∀ i v, T.peers[i]? = some ⟨v, false⟩ → v ≠ T.lead →
        ((cetcdRaftStep r m).2.progress.read i).matchIdx =
          if m.type = .appResp ∧ m.sender = v then m.index else (r.progress.read i).matchIdx := by
  obtain htype | hack | ⟨htype, hlearn⟩ := hm.kind
  · have hstep : (cetcdRaftStep r m).2 = r := by
      unfold cetcdRaftStep
      rw [htype]
    rw [hstep]
    refine ⟨⟨h, hset, Retained.refl r, rfl⟩, fun i v _ _ => ?_⟩
    rw [if_neg fun hno => by rw [htype] at hno; exact absurd hno.1 (by decide)]
  · obtain ⟨j, hj⟩ := mem_iff_getElem?.1 hack.voter
    obtain ⟨htended, hacked⟩ := h.hear_ack hack hm.term hj
    refine ⟨htended, fun i v hi _ => ?_⟩
    rw [hacked i]
    by_cases hij : i = j
    · subst hij
      rw [hi] at hj
      cases hj
      rw [if_pos rfl, if_pos ⟨hack.type, rfl⟩]
    rw [if_neg hij, if_neg]
    rintro ⟨_, rfl⟩
    exact hij (T.slot_unique hi hj rfl)
  obtain ⟨htended, hacked⟩ := h.hear_learner hset htype hlearn hm.term
  refine ⟨htended, fun i v hi _ => ?_⟩
  rw [hacked i v hi, if_neg]
  rintro ⟨_, rfl⟩
  exact T.not_voter_of_learner hlearn (mem_of_getElem? hi)

end

end Cetcd.Member
