import Cetcd.Lib.ZeroArray

/-!
# Raft data types

The records of `include/cetcd/raft.h` and `struct cetcd_raft` of `raft.c`, which is cut into groups:
what is fixed at creation (`Conf`), the membership table (`Membership`), the in-memory log
(`RaftLog`) and what waits for the next Ready (`Pending`). 64-bit counters are natural numbers,
payload slices byte lists; allocation always succeeds.
-/

namespace Cetcd
namespace Raft

open Lib

/-- `MAX_PEERS_`: the number of progress slots, and of voters counted in a quorum. -/
def maxPeers : Nat := 16

inductive EntryType
  | normal
  | confChange
  | confChangeV2
  deriving DecidableEq, Inhabited

structure Entry where
  term : Nat := 0
  index : Nat := 0
  type : EntryType := .normal
  data : List UInt8 := []
  deriving DecidableEq, Inhabited

inductive MsgType
  | hup
  | beat
  | prop
  | app
  | appResp
  | vote
  | voteResp
  | snap
  | heartbeat
  | heartbeatResp
  | unreachable
  | snapStatus
  | checkQuorum
  | transferLeader
  | timeoutNow
  | readIndex
  | readIndexResp
  | preVote
  | preVoteResp
  | compactHash
  deriving DecidableEq, Inhabited

/-- The defaults are what `memset` leaves. `dest` and `sender` are the source's `to` and `from`;
`reject` is its 64-bit flag, zero accepts. -/
structure Msg where
  type : MsgType := .hup
  dest : Nat := 0
  sender : Nat := 0
  term : Nat := 0
  logTerm : Nat := 0
  index : Nat := 0
  commit : Nat := 0
  reject : Nat := 0
  entries : List Entry := []
  snapshot : Nat := 0
  context : List UInt8 := []
  deriving DecidableEq, Inhabited

structure HardState where
  term : Nat := 0
  vote : Nat := 0
  commit : Nat := 0
  deriving DecidableEq, Inhabited

inductive Role
  | follower
  | candidate
  | leader
  | preCandidate
  deriving DecidableEq, Inhabited

structure SoftState where
  leaderId : Nat
  raftState : Role
  deriving DecidableEq

/-- What `cetcd_raft_ready` hands out; its `snapshot` field is always `NULL` and left out. -/
structure Ready where
  hardState : Option HardState
  softState : Option SoftState
  entries : List Entry
  committed : Nat
  messages : List Msg
  deriving DecidableEq

structure RaftConfig where
  id : Nat
  electionTick : Nat
  heartbeatTick : Nat
  maxSizePerMsg : Nat := 0
  maxInflightMsgs : Nat := 0
  checkQuorum : Bool := false
  preVote : Bool := false
  deriving DecidableEq

/-- The fields `cetcd_raft_new` copies from the configuration and nothing changes later. -/
structure Conf where
  id : Nat
  electionTick : Nat
  heartbeatTick : Nat
  electionTimeout : Nat
  heartbeatTimeout : Nat
  maxSizePerMsg : Nat
  maxInflightMsgs : Nat
  checkQuorum : Bool
  preVote : Bool
  deriving DecidableEq, Inhabited

/-- One position of the parallel arrays `peers` and `peer_learner`. -/
structure Peer where
  id : Nat
  learner : Bool
  deriving DecidableEq, Inhabited

structure Membership where
  peers : List Peer
  peersCap : Nat
  outgoing : List Nat
  jointIndex : Nat
  applyingIndex : Nat
  leavePending : Bool
  deriving DecidableEq, Inhabited

structure PeerProgress where
  nextIdx : Nat := 0
  matchIdx : Nat := 0
  pendingSnap : Bool := false
  pendingApp : Bool := false
  deriving DecidableEq, Inhabited

/-- The in-memory log: cell `i` holds entry `i`, cell `0` is the unused sentinel. -/
structure RaftLog where
  log : ZeroArray Entry
  lastIndex : Nat
  lastTerm : Nat
  compacted : Nat
  deriving DecidableEq, Inhabited

structure Pending where
  hs : Option HardState
  entries : List Entry
  msgs : List Msg
  hasPending : Bool
  deriving DecidableEq, Inhabited

end Raft

structure Raft where
  conf : Raft.Conf
  term : Nat
  vote : Nat
  commit : Nat
  applied : Nat
  leaderId : Nat
  role : Raft.Role
  elapsedTicks : Nat
  heartbeatElapsed : Nat
  mem : Raft.Membership
  votesGranted : List Nat
  progress : Lib.ZeroArray Raft.PeerProgress
  rlog : Raft.RaftLog
  pending : Raft.Pending
  deriving DecidableEq, Inhabited

end Cetcd
