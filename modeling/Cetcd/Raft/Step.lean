import Cetcd.Raft.Handlers

/-!
# The core API

`cetcd_raft_new`, `cetcd_raft_step`, `cetcd_raft_tick`, the proposals, `cetcd_raft_ready` and the
calls that restore, compact and configure a node. Only the return code of `cetcd_raft_step` depends
on the message.
-/

namespace Cetcd.Raft

open Lib

/-- `cetcd_raft_new`: a follower of term zero that knows only itself, as a voter. -/
def cetcdRaftNew (cfg : RaftConfig) : Option Raft :=
  if cfg.id = 0 then none
  else if cfg.electionTick = 0 ∨ cfg.heartbeatTick = 0 then none
  else
    let r : Raft :=
      { conf :=
          { id := cfg.id
            electionTick := cfg.electionTick
            heartbeatTick := cfg.heartbeatTick
            electionTimeout := cfg.electionTick
            heartbeatTimeout := cfg.heartbeatTick
            maxSizePerMsg := cfg.maxSizePerMsg
            maxInflightMsgs := cfg.maxInflightMsgs
            checkQuorum := cfg.checkQuorum
            preVote := cfg.preVote }
        term := 0
        vote := 0
        commit := 0
        applied := 0
        leaderId := 0
        role := .follower
        elapsedTicks := 0
        heartbeatElapsed := 0
        mem :=
          { peers := [], peersCap := 0, outgoing := [], jointIndex := 0, applyingIndex := 0
            leavePending := false }
        votesGranted := []
        progress := ZeroArray.empty
        rlog := { log := ZeroArray.empty, lastIndex := 0, lastTerm := 0, compacted := 0 }
        pending := { hs := none, entries := [], msgs := [], hasPending := false } }
    some (addPeer r cfg.id false)

/-- `cetcd_raft_add_peer`; the error return leaves the node as it is. -/
def cetcdRaftAddPeer (r : Raft) (id : Nat) (isLearner : Bool) : Raft :=
  if id = 0 then r
  else if hasPeer r id then r
  else addPeer r id isLearner

/-- The loop after a proposal: offer the log to every peer that has a progress slot. -/
def offerToPeers (r : Raft) : Raft :=
  (List.range r.mem.peers.length).foldl
    (fun acc i =>
      match r.mem.peers[i]? with
      | none => acc
      | some peer =>
        if peer.id = r.conf.id then acc
        else if maxPeers ≤ i then acc
        else maybeSendApp acc i)
    r

/-- The common body of `CETCD_MSG_PROP` and `cetcd_raft_propose_conf_change`. -/
def proposeEntry (r : Raft) (type : EntryType) (data : List UInt8) : Raft :=
  let idx := r.rlog.lastIndex + 1
  let e : Entry := { term := r.term, index := idx, type := type, data := data }
  let l := logAppend { r.rlog with lastIndex := idx, lastTerm := r.term } e
  let r1 := queueStored { r with rlog := l } idx
  maybeAdvanceCommit (offerToPeers (queueHardState r1))

/-- One round of the loop of `CETCD_MSG_BEAT`: a heartbeat, then whatever the peer misses. -/
def beatPeer (r : Raft) (i : Nat) : Raft :=
  match r.mem.peers[i]? with
  | none => r
  | some peer =>
    if peer.id = r.conf.id then r
    else
      let r1 := queueMsg r (heartbeatTo r peer.id)
      let r2 :=
        { r1 with
          progress := r1.progress.write i { r1.progress.read i with pendingApp := false } }
      maybeSendApp (maybeSendSnap r2 i) i

def stepBeat (r : Raft) : Raft :=
  if r.role ≠ .leader then r
  else (List.range (min r.mem.peers.length maxPeers)).foldl beatPeer r

def stepHup (r : Raft) : Raft :=
  if r.role = .leader then r
  else if r.conf.preVote then queueHardState (becomePreCandidate r)
  else queueHardState (becomeCandidate r)

def stepTransferLeader (r : Raft) (m : Msg) : Raft :=
  if r.role ≠ .leader then r
  else
    queueMsg r { type := .timeoutNow, dest := m.dest, sender := r.conf.id, term := r.term }

def stepTimeoutNow (r : Raft) : Raft :=
  if r.role = .leader then r else queueHardState (becomeCandidate r)

/-- `cetcd_raft_step`: the return code and the new node. -/
def cetcdRaftStep (r : Raft) (m : Msg) : Int × Raft :=
  match m.type with
  | .hup => (0, stepHup r)
  | .vote => (0, handleVote r m)
  | .voteResp => (0, handleVoteResp r m)
  | .preVote => (0, handlePreVote r m)
  | .preVoteResp => (0, handlePreVoteResp r m)
  | .app => (0, handleApp r m)
  | .appResp => (0, handleAppResp r m)
  | .heartbeat => (0, handleHeartbeat r m)
  | .prop => if r.role ≠ .leader then (-1, r) else (0, proposeEntry r .normal m.context)
  | .beat => (0, stepBeat r)
  | .snap => (0, handleSnap r m)
  | .snapStatus => (0, handleSnapStatus r m)
  | .transferLeader => (0, stepTransferLeader r m)
  | .timeoutNow => (0, stepTimeoutNow r)
  | _ => (0, r)

def cetcdRaftTick (r : Raft) : Raft :=
  let r1 :=
    { r with elapsedTicks := r.elapsedTicks + 1, heartbeatElapsed := r.heartbeatElapsed + 1 }
  if r1.role = .leader then
    if r1.conf.heartbeatTimeout ≤ r1.heartbeatElapsed then
      (cetcdRaftStep { r1 with heartbeatElapsed := 0 } { type := .beat, sender := r1.conf.id }).2
    else r1
  else if r1.conf.electionTimeout ≤ r1.elapsedTicks then
    (cetcdRaftStep r1 { type := .hup, sender := r1.conf.id }).2
  else r1

/-- `cetcd_raft_propose_conf_change`; a refused call leaves the node as it is. -/
def cetcdRaftProposeConfChange (r : Raft) (data : List UInt8) : Raft :=
  if r.role ≠ .leader then r
  else if data = [] then r
  else proposeEntry r .confChange data

/-- `cetcd_raft_ready`: hand out everything that is pending and forget it. -/
def cetcdRaftReady (r : Raft) : Ready × Raft :=
  ( { hardState := r.pending.hs
      entries := r.pending.entries
      committed := r.commit
      messages := r.pending.msgs
      softState :=
        if r.pending.hasPending then some { leaderId := r.leaderId, raftState := r.role }
        else none },
    { r with pending := { hs := none, entries := [], msgs := [], hasPending := false } } )

def cetcdRaftAdvance (r : Raft) (rd : Ready) : Raft :=
  if r.applied < rd.committed then { r with applied := rd.committed } else r

def cetcdRaftRestoreHardState (r : Raft) (hs : HardState) : Raft :=
  { r with term := hs.term, vote := hs.vote, commit := hs.commit }

/-- `cetcd_raft_restore_entry`; index zero is refused. -/
def cetcdRaftRestoreEntry (r : Raft) (e : Entry) : Raft :=
  if e.index = 0 then r else { r with rlog := logAppend r.rlog e }

/-- `cetcd_raft_compact`; the error return leaves the node as it is. -/
def cetcdRaftCompact (r : Raft) (lastIncluded lastTerm : Nat) : Raft :=
  match logCompact r.rlog lastIncluded lastTerm with
  | none => r
  | some l => { r with rlog := l }

end Cetcd.Raft
