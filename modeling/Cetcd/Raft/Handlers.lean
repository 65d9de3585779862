import Cetcd.Raft.Node

/-!
# Role transitions and message handlers

The functions `become_*_` and `handle_*_` of `raft.c`, in the order of the source. Every handler
returns `0`, so the model returns the new node only.
-/

namespace Cetcd.Raft

open Lib

/-! ## Role transitions -/

/-- `become_leader_`: every peer starts at the index after the leader's last one. -/
def becomeLeader (r : Raft) : Raft :=
  { r with
    role := .leader
    leaderId := r.conf.id
    elapsedTicks := 0
    heartbeatElapsed := 0
    progress :=
      ZeroArray.update (fun _ => { nextIdx := r.rlog.lastIndex + 1 }) r.progress 0
        (min r.mem.peers.length maxPeers) }

def sendVoteRequests (r : Raft) (typ : MsgType) (term : Nat) : Raft :=
  r.mem.peers.foldl
    (fun acc peer =>
      if peer.id = r.conf.id then acc
      else
        queueMsg acc
          { type := typ
            dest := peer.id
            sender := r.conf.id
            term := term
            logTerm := r.rlog.lastTerm
            index := r.rlog.lastIndex })
    r

def logOkForVote (r : Raft) (m : Msg) : Bool :=
  decide (r.rlog.lastTerm < m.logTerm ∨ (m.logTerm = r.rlog.lastTerm ∧ r.rlog.lastIndex ≤ m.index))

def becomeCandidate (r : Raft) : Raft :=
  let r1 :=
    { r with
      role := .candidate
      leaderId := 0
      term := r.term + 1
      vote := r.conf.id
      elapsedTicks := 0
      votesGranted := [r.conf.id] }
  if voteQuorumOk r1 then becomeLeader r1
  else sendVoteRequests r1 .vote r1.term

def becomePreCandidate (r : Raft) : Raft :=
  let r1 :=
    { r with
      role := .preCandidate
      leaderId := 0
      elapsedTicks := 0
      votesGranted := [r.conf.id] }
  if voteQuorumOk r1 then becomeCandidate r1
  else sendVoteRequests r1 .preVote (r1.term + 1)

/-- `become_follower_`: the vote is forgotten exactly when the term rises. -/
def becomeFollower (r : Raft) (term leader : Nat) : Raft :=
  if r.term < term then
    { r with role := .follower, leaderId := leader, term := term, vote := 0, elapsedTicks := 0 }
  else
    { r with role := .follower, leaderId := leader, elapsedTicks := 0 }

/-! ## Elections -/

/-- The step down to a higher term that most handlers begin with. -/
def stepDown (r : Raft) (term leader : Nat) : Raft :=
  if r.term < term then queueHardState (becomeFollower r term leader) else r

def handleVote (r : Raft) (m : Msg) : Raft :=
  if m.term < r.term then
    queueMsg r
      { type := .voteResp, dest := m.sender, sender := r.conf.id, term := r.term, reject := 1 }
  else
    let r1 := stepDown r m.term 0
    let resp : Msg :=
      { type := .voteResp, dest := m.sender, sender := r1.conf.id, term := r1.term }
    if (r1.vote = 0 ∨ r1.vote = m.sender) ∧ logOkForVote r1 m then
      queueMsg (queueHardState { r1 with vote := m.sender, elapsedTicks := 0 }) resp
    else
      queueMsg r1 { resp with reject := 1 }

/-- The bookkeeping both vote counters share: a learner's vote is dropped before this. -/
def recordVote (r : Raft) (id : Nat) : Raft :=
  if !voteFrom r id ∧ r.votesGranted.length < r.mem.peersCap then
    { r with votesGranted := r.votesGranted ++ [id] }
  else r

def heartbeatTo (r : Raft) (id : Nat) : Msg :=
  { type := .heartbeat, dest := id, sender := r.conf.id, term := r.term, commit := r.commit }

def leaderBroadcastHeartbeat (r : Raft) : Raft :=
  if r.role ≠ .leader then r
  else
    r.mem.peers.foldl
      (fun acc peer =>
        if peer.id = r.conf.id then acc else queueMsg acc (heartbeatTo r peer.id))
      r

/-- `handle_vote_resp_`.  A response of an earlier term is not told apart. -/
def handleVoteResp (r : Raft) (m : Msg) : Raft :=
  if r.term < m.term then queueHardState (becomeFollower r m.term 0)
  else if r.role ≠ .candidate then r
  else if m.reject ≠ 0 then r
  else if fromLearner r m.sender then r
  else
    let r1 := recordVote r m.sender
    if voteQuorumOk r1 then leaderBroadcastHeartbeat (queueHardState (becomeLeader r1))
    else r1

/-- `handle_pre_vote_`: answered without touching term, vote or role. -/
def handlePreVote (r : Raft) (m : Msg) : Raft :=
  let rejected : Bool :=
    decide (m.term < r.term) ||
      (r.conf.checkQuorum && decide (r.leaderId ≠ 0) &&
        decide (r.elapsedTicks < r.conf.electionTimeout)) ||
      !logOkForVote r m
  queueMsg r
    { type := .preVoteResp
      dest := m.sender
      sender := r.conf.id
      reject := if rejected then 1 else 0
      term := if rejected then r.term else m.term }

def handlePreVoteResp (r : Raft) (m : Msg) : Raft :=
  if m.reject ≠ 0 then stepDown r m.term 0
  else if r.role ≠ .preCandidate then r
  else if fromLearner r m.sender then r
  else
    let r1 := recordVote r m.sender
    if voteQuorumOk r1 then leaderBroadcastHeartbeat (queueHardState (becomeCandidate r1))
    else r1

/-! ## Replication -/

/-- One round of the loop in `handle_app_`: truncate at a conflict, then store the entry. -/
def storeEntry (l : RaftLog) (idx : Nat) (e : Entry) : RaftLog :=
  let l1 :=
    if idx ≤ l.lastIndex ∧ logTermAt l idx ≠ e.term then logTruncateAfter l (idx - 1) else l
  logAppend l1 { e with index := idx }

/-- Queue an entry that was just stored, as the log answers it. -/
def queueStored (r : Raft) (idx : Nat) : Raft :=
  match logAt r.rlog idx with
  | some stored => queueEntry r stored
  | none => r

/-- The loop of `handle_app_` that stores the entries and queues them for the next Ready. -/
def appendEntries (r : Raft) (idx : Nat) : List Entry → Raft
  | [] => r
  | e :: es =>
    let r1 := { r with rlog := storeEntry r.rlog idx e }
    appendEntries (queueStored r1 idx) (idx + 1) es

/-- The commit rule of `handle_app_` and `handle_heartbeat_`: the leader's commit index, clamped by
the own last index. -/
def followCommit (r : Raft) (commit : Nat) : Raft :=
  if r.commit < min commit r.rlog.lastIndex then
    queueHardState { r with commit := min commit r.rlog.lastIndex }
  else r

/-- How a node recognises the leader of a message that is not stale. -/
def acceptLeader (r : Raft) (m : Msg) : Raft :=
  let r1 := stepDown r m.term m.sender
  let r2 := if r1.role ≠ .follower then becomeFollower r1 m.term m.sender else r1
  { r2 with leaderId := m.sender, elapsedTicks := 0 }

def handleApp (r : Raft) (m : Msg) : Raft :=
  if m.term < r.term then
    queueMsg r
      { type := .appResp, dest := m.sender, sender := r.conf.id, term := r.term, reject := 1 }
  else
    let r1 := acceptLeader r m
    let resp : Msg :=
      { type := .appResp, dest := m.sender, sender := r1.conf.id, term := r1.term }
    if 0 < m.index ∧ r1.rlog.lastIndex < m.index then
      queueMsg r1 { resp with index := r1.rlog.lastIndex, reject := 1 }
    else if 0 < m.index ∧ logTermAt r1.rlog m.index ≠ m.logTerm then
      queueMsg r1 { resp with index := m.index, reject := 1 }
    else
      let r2 := appendEntries r1 (m.index + 1) m.entries
      let r3 := followCommit r2 m.commit
      queueMsg r3 { resp with index := r3.rlog.lastIndex }

/-- What an accepting response leaves in the progress of its sender. -/
def ackProgress (pr : PeerProgress) (index : Nat) : PeerProgress :=
  { pr with pendingApp := false, matchIdx := index, nextIdx := index + 1 }

/-- What a rejecting response leaves there. The hint is at least one. -/
def rejectProgress (pr : PeerProgress) (index : Nat) : PeerProgress :=
  let hint := index + 1
  { pr with
    pendingApp := false
    nextIdx := if hint < pr.nextIdx then hint else pr.nextIdx
    matchIdx := if index < pr.matchIdx then index else pr.matchIdx }

def handleAppResp (r : Raft) (m : Msg) : Raft :=
  if r.role ≠ .leader then r
  else if r.term < m.term then queueHardState (becomeFollower r m.term 0)
  else
    match peerSlot r m.sender with
    | none => r
    | some slot =>
      let pr := r.progress.read slot
      if m.reject = 0 then
        let r1 := { r with progress := r.progress.write slot (ackProgress pr m.index) }
        maybeSendApp (maybeAdvanceCommit r1) slot
      else
        let r1 := { r with progress := r.progress.write slot (rejectProgress pr m.index) }
        maybeSendApp (maybeSendSnap r1 slot) slot

def handleHeartbeat (r : Raft) (m : Msg) : Raft :=
  if m.term < r.term then r
  else
    let r1 := followCommit (acceptLeader r m) m.commit
    queueMsg r1
      { type := .heartbeatResp, dest := m.sender, sender := r1.conf.id, term := r1.term }

/-- The end of `handle_snap_`: commit and applied are raised to the snapshot. -/
def coverSnapshot (r : Raft) (snapshot : Nat) : Raft :=
  let r1 := if r.commit < snapshot then queueHardState { r with commit := snapshot } else r
  if r1.applied < snapshot then { r1 with applied := snapshot } else r1

/-- `handle_snap_`.  A snapshot that is not past `compacted` is acknowledged unseen. -/
def handleSnap (r : Raft) (m : Msg) : Raft :=
  if m.term < r.term then r
  else
    let r1 := stepDown r m.term m.sender
    let st : Msg :=
      { type := .snapStatus
        dest := m.sender
        sender := r1.conf.id
        term := r1.term
        snapshot := m.snapshot
        index := m.snapshot }
    if m.snapshot = 0 then queueMsg r1 { st with reject := 1 }
    else
      let r2 := if r1.role ≠ .follower then becomeFollower r1 r1.term m.sender else r1
      let r3 := { r2 with leaderId := m.sender, elapsedTicks := 0 }
      let installed :=
        if r3.rlog.compacted < m.snapshot then logCompact r3.rlog m.snapshot m.logTerm
        else some r3.rlog
      match installed with
      | none => queueMsg r3 { st with reject := 1 }
      | some l => queueMsg (coverSnapshot { r3 with rlog := l } m.snapshot) st

def handleSnapStatus (r : Raft) (m : Msg) : Raft :=
  if r.role ≠ .leader then r
  else
    match peerSlot r m.sender with
    | none => r
    | some slot =>
      let pr := { r.progress.read slot with pendingSnap := false, pendingApp := false }
      if m.reject = 0 ∧ 0 < m.snapshot then
        let r1 := { r with progress := r.progress.write slot (ackProgress pr m.snapshot) }
        maybeSendApp (maybeAdvanceCommit r1) slot
      else
        { r with progress := r.progress.write slot pr }

end Cetcd.Raft
