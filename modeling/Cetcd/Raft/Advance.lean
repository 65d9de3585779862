import Cetcd.Raft.Sends

/-!
# What a leader notes of its peers

`handle_app_resp_` and `handle_snap_status_` note what a response reports, whether it is the newest or
not. A response that was overtaken therefore takes the match index back.
-/

namespace Cetcd.Raft

open Lib

/-! ## Calls that note nothing -/

/-- The match index and the next index of every slot, and whose they are. -/
def marks (r : Raft) : Role × Nat × Membership × (Nat → Nat × Nat) :=
  (r.role, r.term, r.mem, fun i => ((r.progress.read i).matchIdx, (r.progress.read i).nextIdx))

section

variable {r r' : Raft} {m : Msg} {i slot : Nat} {pr : PeerProgress}

lemma marks_at (h : marks r' = marks r) (i : Nat) :
    (r'.progress.read i).matchIdx = (r.progress.read i).matchIdx ∧
      (r'.progress.read i).nextIdx = (r.progress.read i).nextIdx :=
  Prod.mk.inj (congrFun (congrArg (fun x => x.2.2.2) h) i)

lemma marks_write (hrole : r'.role = r.role) (hterm : r'.term = r.term) (hmem : r'.mem = r.mem)
    (hwrite : r'.progress = r.progress.write i pr)
    (hm : pr.matchIdx = (r.progress.read i).matchIdx)
    (hn : pr.nextIdx = (r.progress.read i).nextIdx) : marks r' = marks r := by
  unfold marks
  rw [hrole, hterm, hmem, hwrite]
  refine congrArg (fun f => (_, _, _, f)) (funext fun j => ?_)
  by_cases hj : j = i
  · rw [hj, ZeroArray.read_write_self, hm, hn]
  · rw [ZeroArray.read_write_of_ne _ _ hj]

lemma marks_foldl {α : Type} {f : Raft → α → Raft} (hround : ∀ acc x, marks (f acc x) = marks acc)
    (xs : List α) (r : Raft) : marks (xs.foldl f r) = marks r := by
  induction xs generalizing r with
  | nil => rfl
  | cons x xs ih => exact (ih (f r x)).trans (hround r x)

lemma marks_maybeSendSnap (r : Raft) (i : Nat) : marks (maybeSendSnap r i) = marks r := by
  unfold maybeSendSnap
  split
  · rfl
  dsimp only
  split_ifs
  all_goals first
    | rfl
    | exact marks_write rfl rfl rfl rfl rfl rfl

lemma marks_maybeSendApp (r : Raft) (i : Nat) : marks (maybeSendApp r i) = marks r := by
  unfold maybeSendApp
  split
  · rfl
  dsimp only
  generalize (if (r.progress.read i).nextIdx = 0 then 1 else (r.progress.read i).nextIdx) = next
  split_ifs
  all_goals first
    | rfl
    | exact marks_maybeSendSnap r i
    | skip
  split
  · rfl
  · exact marks_write rfl rfl rfl rfl rfl rfl

lemma marks_maybeAdvanceCommit (r : Raft) : marks (maybeAdvanceCommit r) = marks r := by
  unfold maybeAdvanceCommit
  dsimp only
  split_ifs <;> rfl

lemma marks_proposeEntry (r : Raft) (type : EntryType) (data : List UInt8) :
    marks (proposeEntry r type data) = marks r := by
  refine (marks_maybeAdvanceCommit _).trans ((marks_foldl (fun acc i => ?_) _ _).trans ?_)
  · split
    · rfl
    split_ifs
    · rfl
    · rfl
    · exact marks_maybeSendApp acc i
  · unfold queueStored
    dsimp only
    split <;> rfl

lemma marks_stepBeat (r : Raft) : marks (stepBeat r) = marks r := by
  unfold stepBeat
  split
  · rfl
  refine marks_foldl (fun acc i => ?_) _ r
  unfold beatPeer
  split
  · rfl
  split
  · rfl
  refine (marks_maybeSendApp _ i).trans ((marks_maybeSendSnap _ i).trans ?_)
  exact marks_write rfl rfl rfl rfl rfl rfl

/-! ## Responses -/

/-- The match index that is noted for a peer, zero for one without a slot. -/
def notedFor (r : Raft) (id : Nat) : Nat :=
  (peerSlot r id).elim 0 fun slot => (r.progress.read slot).matchIdx

/-- The response reports less than what is noted. -/
def Behind (r : Raft) (m : Msg) : Prop :=
  (m.type = .appResp ∧ m.index < notedFor r m.sender) ∨
    (m.type = .snapStatus ∧ m.reject = 0 ∧ 0 < m.snapshot ∧ m.snapshot < notedFor r m.sender)
  deriving Decidable

/-- What leaves a leader of term `t` the leader: responses, proposals and beats. -/
def LeaderInput (t : Nat) (m : Msg) : Prop :=
  (m.type = .appResp ∧ m.term ≤ t) ∨ m.type = .snapStatus ∨ m.type = .prop ∨ m.type = .beat
  deriving Decidable

/-- The next index of every peer with a slot is past its match index. -/
def NextPast (r : Raft) : Prop :=
  ∀ i < min r.mem.peers.length maxPeers, (r.progress.read i).matchIdx < (r.progress.read i).nextIdx

/-- With each message no match index goes back, and every next index stays past it. -/
def AllAdvance (r : Raft) : List Msg → Prop
  | [] => True
  | m :: ms =>
    ((∀ i, (r.progress.read i).matchIdx ≤ ((cetcdRaftStep r m).2.progress.read i).matchIdx) ∧
      NextPast (cetcdRaftStep r m).2) ∧ AllAdvance (cetcdRaftStep r m).2 ms

def NoneBehind (r : Raft) : List Msg → Prop
  | [] => True
  | m :: ms => ¬ Behind r m ∧ NoneBehind (cetcdRaftStep r m).2 ms

/-- One slot is noted anew from `m`, if any. -/
def NotesFrom (r : Raft) (m : Msg) (r' : Raft) : Prop :=
  ∃ slot pr, marks r' = marks { r with progress := r.progress.write slot pr } ∧
    (Behind r m ↔ pr.matchIdx < (r.progress.read slot).matchIdx) ∧
    ((r.progress.read slot).matchIdx < (r.progress.read slot).nextIdx → pr.matchIdx < pr.nextIdx)

lemma notesFrom_same (h : marks r' = marks r) (hb : ¬ Behind r m) : NotesFrom r m r' := by
  refine ⟨0, r.progress.read 0, h.trans (Eq.symm ?_), iff_of_false hb (lt_irrefl _), id⟩
  exact marks_write rfl rfl rfl rfl rfl rfl

lemma notesFrom_handleAppResp (hlead : r.role = .leader) (htype : m.type = .appResp)
    (hterm : m.term ≤ r.term) : NotesFrom r m (handleAppResp r m) := by
  unfold handleAppResp
  rw [if_neg (not_not.2 hlead), if_neg hterm.not_gt]
  cases hslot : peerSlot r m.sender with
  | none => exact notesFrom_same rfl (by simp [Behind, notedFor, htype, hslot])
  | some slot =>
    have hbehind : Behind r m ↔ m.index < (r.progress.read slot).matchIdx := by
      simp [Behind, notedFor, htype, hslot]
    dsimp only
    split
    · exact ⟨slot, _, (marks_maybeSendApp _ slot).trans (marks_maybeAdvanceCommit _), hbehind,
        fun _ => Nat.lt_succ_self _⟩
    refine ⟨slot, _, (marks_maybeSendApp _ slot).trans (marks_maybeSendSnap _ slot), ?_, fun h => ?_⟩
    · rw [hbehind]
      unfold rejectProgress
      dsimp only
      split <;> omega
    · unfold rejectProgress
      dsimp only
      split_ifs <;> omega

lemma notesFrom_handleSnapStatus (hlead : r.role = .leader) (htype : m.type = .snapStatus) :
    NotesFrom r m (handleSnapStatus r m) := by
  unfold handleSnapStatus
  rw [if_neg (not_not.2 hlead)]
  cases hslot : peerSlot r m.sender with
  | none => exact notesFrom_same rfl (by simp [Behind, notedFor, htype, hslot])
  | some slot =>
    dsimp only
    split
    · next hok =>
      exact ⟨slot, _, (marks_maybeSendApp _ slot).trans (marks_maybeAdvanceCommit _),
        by simp [Behind, notedFor, htype, hslot, hok, ackProgress], fun _ => Nat.lt_succ_self _⟩
    · next hok =>
      refine notesFrom_same (marks_write rfl rfl rfl rfl rfl rfl) ?_
      simp only [Behind, htype, reduceCtorEq, false_and, false_or, true_and]
      exact fun h => hok ⟨h.1, h.2.1⟩

lemma notesFrom_step (hlead : r.role = .leader) (hin : LeaderInput r.term m) :
    NotesFrom r m (cetcdRaftStep r m).2 := by
  unfold cetcdRaftStep
  rcases hin with ⟨htype, hterm⟩ | htype | htype | htype <;> simp only [htype]
  · exact notesFrom_handleAppResp hlead htype hterm
  · exact notesFrom_handleSnapStatus hlead htype
  · rw [if_neg (not_not.2 hlead)]
    exact notesFrom_same (marks_proposeEntry _ _ _) (by simp [Behind, htype])
  · exact notesFrom_same (marks_stepBeat r) (by simp [Behind, htype])

lemma NotesFrom.nextPast (h : NotesFrom r m r') (hnext : NextPast r) : NextPast r' := by
  obtain ⟨slot, pr, hn, _, hpast⟩ := h
  intro i hi
  rw [show r'.mem = r.mem from congrArg (fun x => x.2.2.1) hn] at hi
  rw [(marks_at hn i).1, (marks_at hn i).2]
  by_cases heq : i = slot
  · subst heq
    rw [ZeroArray.read_write_self]
    exact hpast (hnext i hi)
  · rw [ZeroArray.read_write_of_ne _ _ heq]
    exact hnext i hi

lemma NotesFrom.grows_iff (h : NotesFrom r m r') :
    (∀ i, (r.progress.read i).matchIdx ≤ (r'.progress.read i).matchIdx) ↔ ¬ Behind r m := by
  obtain ⟨slot, pr, hn, hbehind, _⟩ := h
  rw [hbehind, not_lt]
  constructor
  · intro h
    have := h slot
    rwa [(marks_at hn slot).1, ZeroArray.read_write_self] at this
  · intro h i
    rw [(marks_at hn i).1]
    by_cases heq : i = slot
    · rw [heq, ZeroArray.read_write_self]
      exact h
    · rw [ZeroArray.read_write_of_ne _ _ heq]

lemma allAdvance_iff {ms : List Msg} (hlead : r.role = .leader) (hnext : NextPast r)
    (hin : ∀ m ∈ ms, LeaderInput r.term m) : AllAdvance r ms ↔ NoneBehind r ms := by
  induction ms generalizing r with
  | nil => exact Iff.rfl
  | cons m ms ih =>
    rw [List.forall_mem_cons] at hin
    have hnotes := notesFrom_step hlead hin.1
    have hnext' := hnotes.nextPast hnext
    have hrole : (cetcdRaftStep r m).2.role = r.role := congrArg Prod.fst hnotes.choose_spec.choose_spec.1
    have hterm : (cetcdRaftStep r m).2.term = r.term :=
      congrArg (fun x => x.2.1) hnotes.choose_spec.choose_spec.1
    exact and_congr ((and_iff_left hnext').trans hnotes.grows_iff)
      (ih (hrole.trans hlead) hnext' (hterm ▸ hin.2))

end

/-- From its election on, over any responses in any order and its own proposals and beats: no match
index of a leader goes back and every next index stays past it, if and only if no response is behind
what is noted when it arrives. -/
theorem progress_advances_iff (r : Raft) {ms : List Msg} (hin : ∀ m ∈ ms, LeaderInput r.term m) :
    AllAdvance (becomeLeader r) ms ↔ NoneBehind (becomeLeader r) ms := by
  refine allAdvance_iff rfl (fun i hi => ?_) hin
  change i < min r.mem.peers.length maxPeers at hi
  unfold becomeLeader
  dsimp only
  rw [ZeroArray.read_update, if_pos (by omega)]
  exact Nat.succ_pos _

/-- An acknowledgement by node 2. -/
def ackFrom (index : Nat) : Msg := { type := .appResp, sender := 2, index := index }

/-- Node 1, which knows node 2. -/
def twoPeers : Raft :=
  addPeer ((cetcdRaftNew { id := 1, electionTick := 3, heartbeatTick := 1 }).getD default) 2 false

theorem progress_advances_in_order : AllAdvance (becomeLeader twoPeers) [ackFrom 1, ackFrom 2] :=
  (progress_advances_iff twoPeers (by decide)).2 ⟨by decide, by decide, trivial⟩

/-- The same acknowledgements, the first one late. -/
theorem progress_goes_back : notedFor (cetcdRaftStep (becomeLeader twoPeers) (ackFrom 2)).2 2 = 2 ∧
      notedFor (cetcdRaftStep (cetcdRaftStep (becomeLeader twoPeers) (ackFrom 2)).2 (ackFrom 1)).2 2
        = 1 ∧ ¬ AllAdvance (becomeLeader twoPeers) [ackFrom 2, ackFrom 1] :=
  ⟨by decide +kernel, by decide +kernel, fun h => absurd (h.2.1.1 1) (by decide +kernel)⟩

end Cetcd.Raft
