import Cetcd.Raft.Step

/-!
# Sending

What a leader sends changes the pending Ready and the notes on what is in flight. A proposal is an
entry at the end of the log, and perhaps a higher commit index.
-/

namespace Cetcd.Raft

open Lib

/-- `r'` is `r` but for pending messages, the pending hard state and what is in flight. -/
structure Sends (r r' : Raft) : Prop where
  conf : r'.conf = r.conf
  term : r'.term = r.term
  vote : r'.vote = r.vote
  commit : r'.commit = r.commit
  applied : r'.applied = r.applied
  role : r'.role = r.role
  mem : r'.mem = r.mem
  rlog : r'.rlog = r.rlog
  acked : ∀ i, (r'.progress.read i).matchIdx = (r.progress.read i).matchIdx
  timer : r'.heartbeatElapsed = r.heartbeatElapsed
  out : ∀ m ∈ r.pending.msgs, m ∈ r'.pending.msgs

namespace Sends

variable {r r' r'' : Raft}

lemma refl (r : Raft) : Sends r r :=
  ⟨rfl, rfl, rfl, rfl, rfl, rfl, rfl, rfl, fun _ => rfl, rfl, fun _ hm => hm⟩

lemma trans (h : Sends r r') (h' : Sends r' r'') : Sends r r'' where
  conf := h'.conf.trans h.conf
  term := h'.term.trans h.term
  vote := h'.vote.trans h.vote
  commit := h'.commit.trans h.commit
  applied := h'.applied.trans h.applied
  role := h'.role.trans h.role
  mem := h'.mem.trans h.mem
  rlog := h'.rlog.trans h.rlog
  acked i := (h'.acked i).trans (h.acked i)
  timer := h'.timer.trans h.timer
  out m hm := h'.out m (h.out m hm)

lemma foldl {α : Type} {f : Raft → α → Raft} (hround : ∀ acc x, Sends acc (f acc x)) (xs : List α)
    (r : Raft) : Sends r (xs.foldl f r) := by
  induction xs generalizing r with
  | nil => exact refl r
  | cons x xs ih => exact (hround r x).trans (ih (f r x))

end Sends

section

variable (r : Raft)

lemma sends_queueHardState : Sends r (queueHardState r) :=
  ⟨rfl, rfl, rfl, rfl, rfl, rfl, rfl, rfl, fun _ => rfl, rfl, fun _ hm => hm⟩

lemma sends_queueMsg (m : Msg) : Sends r (queueMsg r m) :=
  ⟨rfl, rfl, rfl, rfl, rfl, rfl, rfl, rfl, fun _ => rfl, rfl, fun _ hm => List.mem_append_left _ hm⟩

lemma sends_note {i : Nat} {pr : PeerProgress} (hpr : pr.matchIdx = (r.progress.read i).matchIdx) :
    Sends r { r with progress := r.progress.write i pr } := by
  refine ⟨rfl, rfl, rfl, rfl, rfl, rfl, rfl, rfl, fun j => ?_, rfl, fun _ hm => hm⟩
  dsimp only
  by_cases hj : j = i
  · rw [hj, ZeroArray.read_write_self, hpr]
  · rw [ZeroArray.read_write_of_ne _ _ hj]

/-- What the functions that send the log to slot `i` can do: nothing, or one message with a note of
it. -/
inductive Posts (r : Raft) (i : Nat) : Raft → Prop
  | nothing : Posts r i r
  | one (peer : Peer) (m : Msg) (pr : PeerProgress) (hpeer : r.mem.peers[i]? = some peer)
      (ne : peer.id ≠ r.conf.id) (type : m.type = .app ∨ m.type = .snap) (dest : m.dest = peer.id)
      (sender : m.sender = r.conf.id) (term : m.term = r.term)
      (acked : pr.matchIdx = (r.progress.read i).matchIdx) :
      Posts r i { queueMsg r m with progress := r.progress.write i pr }

lemma Posts.sends {r r' : Raft} {i : Nat} (h : Posts r i r') : Sends r r' := by
  cases h with
  | nothing => exact Sends.refl r
  | one peer m pr _ _ _ _ _ _ acked =>
    exact (sends_queueMsg r m).trans (sends_note (queueMsg r m) acked)

lemma posts_maybeSendSnap (i : Nat) : Posts r i (maybeSendSnap r i) := by
  unfold maybeSendSnap
  split
  · exact .nothing
  rename_i peer hpeer
  dsimp only
  split_ifs
  all_goals first
    | exact .nothing
    | exact .one peer _ _ hpeer (by assumption) (.inr rfl) rfl rfl rfl rfl

lemma posts_maybeSendApp (i : Nat) : Posts r i (maybeSendApp r i) := by
  unfold maybeSendApp
  split
  · exact .nothing
  rename_i peer hpeer
  dsimp only
  generalize (if (r.progress.read i).nextIdx = 0 then 1 else (r.progress.read i).nextIdx) = next
  split_ifs
  all_goals first
    | exact .nothing
    | exact posts_maybeSendSnap r i
    | skip
  split
  · exact .nothing
  · exact .one peer _ _ hpeer (by assumption) (.inl rfl) rfl rfl rfl rfl

lemma sends_maybeSendSnap (i : Nat) : Sends r (maybeSendSnap r i) := (posts_maybeSendSnap r i).sends

lemma sends_maybeSendApp (i : Nat) : Sends r (maybeSendApp r i) := (posts_maybeSendApp r i).sends

lemma sends_offerToPeers : Sends r (offerToPeers r) := by
  unfold offerToPeers
  refine Sends.foldl (fun acc i => ?_) _ r
  split
  · exact Sends.refl acc
  split_ifs
  · exact Sends.refl acc
  · exact Sends.refl acc
  · exact sends_maybeSendApp acc i

lemma sends_beatPeer (i : Nat) : Sends r (beatPeer r i) := by
  unfold beatPeer
  split
  · exact Sends.refl r
  split
  · exact Sends.refl r
  dsimp only
  refine Sends.trans (Sends.trans ?_ (sends_maybeSendSnap _ i)) (sends_maybeSendApp _ i)
  exact (sends_queueMsg r _).trans (sends_note (queueMsg r _) rfl)

end

/-! ## Commit and proposals -/

lemma sends_maybeAdvanceCommit (r : Raft) :
    ∃ commit, r.commit ≤ commit ∧ Sends { r with commit := commit } (maybeAdvanceCommit r) := by
  unfold maybeAdvanceCommit
  dsimp only
  generalize (if r.mem.outgoing ≠ [] then
      if majorityMatchIds r r.mem.outgoing < majorityMatchIds r (incoming r) then
        majorityMatchIds r r.mem.outgoing
      else majorityMatchIds r (incoming r)
    else majorityMatchIds r (incoming r)) = commit
  split_ifs with _ _ hnew
  · exact ⟨r.commit, le_rfl, Sends.refl r⟩
  · exact ⟨r.commit, le_rfl, Sends.refl r⟩
  · exact ⟨commit, hnew.1.le, sends_queueHardState _⟩
  · exact ⟨r.commit, le_rfl, Sends.refl r⟩

def proposedLog (r : Raft) (type : EntryType) (data : List UInt8) : RaftLog :=
  logAppend { r.rlog with lastIndex := r.rlog.lastIndex + 1, lastTerm := r.term }
    { term := r.term, index := r.rlog.lastIndex + 1, type := type, data := data }

section

variable {r : Raft} {type : EntryType} {data : List UInt8} {i : Nat}

lemma proposedLog_lastIndex : (proposedLog r type data).lastIndex = r.rlog.lastIndex + 1 := by
  unfold proposedLog
  rw [logAppend_lastIndex]
  exact max_self _

lemma proposedLog_compacted : (proposedLog r type data).compacted = r.rlog.compacted :=
  logAppend_compacted _ _

lemma logAt_proposedLog_of_le (h : i ≤ r.rlog.lastIndex) :
    logAt (proposedLog r type data) i = logAt r.rlog i := by
  have hread : (proposedLog r type data).log.read i = r.rlog.log.read i := by
    unfold proposedLog
    rw [logAppend_log]
    exact ZeroArray.read_write_of_ne _ _ (by dsimp only; omega)
  unfold logAt
  rw [proposedLog_lastIndex, proposedLog_compacted, hread]
  have hrange : (i = 0 ∨ r.rlog.lastIndex + 1 < i) ↔ (i = 0 ∨ r.rlog.lastIndex < i) := by omega
  simp only [hrange]

lemma logAt_proposedLog_new (h : r.rlog.compacted ≤ r.rlog.lastIndex + 1) :
    logAt (proposedLog r type data) (r.rlog.lastIndex + 1) =
      some { term := r.term, index := r.rlog.lastIndex + 1, type := type, data := data } := by
  rw [logAt_eq_some]
  refine ⟨Nat.succ_ne_zero _, proposedLog_lastIndex.ge, proposedLog_compacted.trans_le h, ?_⟩
  unfold proposedLog
  rw [logAppend_log]
  exact ZeroArray.read_write_self _ _ _

lemma sends_queueStored (r : Raft) (idx : Nat) : Sends r (queueStored r idx) := by
  unfold queueStored
  split
  · exact ⟨rfl, rfl, rfl, rfl, rfl, rfl, rfl, rfl, fun _ => rfl, rfl, fun _ hm => hm⟩
  · exact Sends.refl r

lemma proposeEntry_eq (r : Raft) (type : EntryType) (data : List UInt8) :
    ∃ r', Sends { r with rlog := proposedLog r type data } r' ∧
      proposeEntry r type data = maybeAdvanceCommit r' :=
  ⟨_, ((sends_queueStored _ _).trans (sends_queueHardState _)).trans (sends_offerToPeers _), rfl⟩

lemma sends_proposeEntry (r : Raft) (type : EntryType) (data : List UInt8) :
    ∃ commit, r.commit ≤ commit ∧ Sends { r with rlog := proposedLog r type data, commit := commit }
        (proposeEntry r type data) := by
  obtain ⟨r', hoffer, heq⟩ := proposeEntry_eq r type data
  obtain ⟨commit, hle, hadv⟩ := sends_maybeAdvanceCommit r'
  rw [heq]
  refine ⟨commit, hoffer.commit.ge.trans hle, ?_⟩
  exact ⟨hadv.conf.trans hoffer.conf, hadv.term.trans hoffer.term, hadv.vote.trans hoffer.vote,
    hadv.commit, hadv.applied.trans hoffer.applied, hadv.role.trans hoffer.role,
    hadv.mem.trans hoffer.mem, hadv.rlog.trans hoffer.rlog,
    fun i => (hadv.acked i).trans (hoffer.acked i), hadv.timer.trans hoffer.timer,
    fun m hm => hadv.out m (hoffer.out m hm)⟩

end

end Cetcd.Raft
