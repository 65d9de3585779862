import Cetcd.Raft.Log

/-!
# Membership, quorums and what waits for the next Ready

The helpers of `raft.c` below the message handlers: the peer table, the two quorum computations, the
`queue_*_` functions, and the two with which a leader sends its log.
-/

namespace Cetcd.Raft

open Lib

def queueHardState (r : Raft) : Raft :=
  { r with
    pending :=
      { r.pending with
        hs := some { term := r.term, vote := r.vote, commit := r.commit }
        hasPending := true } }

def queueEntry (r : Raft) (e : Entry) : Raft :=
  { r with pending := { r.pending with entries := r.pending.entries ++ [e], hasPending := true } }

def queueMsg (r : Raft) (m : Msg) : Raft :=
  { r with pending := { r.pending with msgs := r.pending.msgs ++ [m], hasPending := true } }

/-- `peer_slot_`: the progress slot of a peer, if it has one of the first `maxPeers`. -/
def peerSlot (r : Raft) (id : Nat) : Option Nat :=
  (r.mem.peers.take maxPeers).findIdx? (fun p => p.id == id)

def hasPeer (r : Raft) (id : Nat) : Bool :=
  r.mem.peers.any (fun p => p.id == id)

/-- Whether the sender of a vote is a learner; an unknown one is not. -/
def fromLearner (r : Raft) (id : Nat) : Bool :=
  match r.mem.peers.find? (fun p => p.id == id) with
  | some p => p.learner
  | none => false

def addPeer (r : Raft) (id : Nat) (isLearner : Bool) : Raft :=
  if hasPeer r id then r
  else
    let n := r.mem.peers.length
    let cap :=
      if r.mem.peersCap ≤ n then
        if r.mem.peersCap ≠ 0 then r.mem.peersCap * 2 else 8
      else r.mem.peersCap
    let next :=
      if id = r.conf.id then r.rlog.lastIndex + 1
      else if 0 < r.rlog.compacted then r.rlog.compacted
      else 1
    { r with
      mem := { r.mem with peers := r.mem.peers ++ [⟨id, isLearner⟩], peersCap := cap }
      progress :=
        if n < maxPeers then r.progress.write n { nextIdx := next } else r.progress }

/-- The voters the quorum loops collect: the first `maxPeers` peers that are no learners. -/
def incoming (r : Raft) : List Nat :=
  ((r.mem.peers.filter (fun p => !p.learner)).map Peer.id).take maxPeers

def quorum (n : Nat) : Nat := n / 2 + 1

def matchOf (r : Raft) (id : Nat) : Nat :=
  if id = r.conf.id then r.rlog.lastIndex
  else
    match peerSlot r id with
    | none => 0
    | some slot => (r.progress.read slot).matchIdx

/-- The inner loop of the exchange sort: carry the greatest value past the rest, leaving the smaller
one of each comparison behind. -/
def exchangePass (x : Nat) : List Nat → Nat × List Nat
  | [] => (x, [])
  | y :: ys =>
    if x < y then
      let (m, rest) := exchangePass y ys
      (m, x :: rest)
    else
      let (m, rest) := exchangePass x ys
      (m, y :: rest)

/-- The outer loop: a descending sort, one pass for each position. -/
def exchangeSort : Nat → List Nat → List Nat
  | 0, xs => xs
  | _ + 1, [] => []
  | n + 1, x :: xs =>
    let (m, rest) := exchangePass x xs
    m :: exchangeSort n rest

def majorityMatchIds (r : Raft) (ids : List Nat) : Nat :=
  if ids = [] then 0
  else
    let matches_ := (ids.take maxPeers).map (matchOf r)
    let sorted := exchangeSort matches_.length matches_
    sorted.getD (quorum matches_.length - 1) 0

def voteFrom (r : Raft) (id : Nat) : Bool :=
  r.votesGranted.contains id

def voteQuorumOk (r : Raft) : Bool :=
  let inc := incoming r
  let incVotes := (inc.filter (voteFrom r)).length
  if inc.length = 0 ∨ incVotes < quorum inc.length then false
  else if r.mem.outgoing = [] then true
  else
    let outVotes := (r.mem.outgoing.filter (voteFrom r)).length
    decide (quorum r.mem.outgoing.length ≤ outVotes)

def maybeSendSnap (r : Raft) (i : Nat) : Raft :=
  match r.mem.peers[i]? with
  | none => r
  | some peer =>
    let pr := r.progress.read i
    if maxPeers ≤ i then r
    else if peer.id = r.conf.id then r
    else if r.rlog.compacted = 0 then r
    else if r.rlog.compacted < pr.nextIdx then r
    else if pr.pendingSnap then r
    else
      let snap : Msg :=
        { type := .snap
          dest := peer.id
          sender := r.conf.id
          term := r.term
          snapshot := r.rlog.compacted
          index := r.rlog.compacted
          logTerm := logTermAt r.rlog r.rlog.compacted
          commit := r.commit }
      { queueMsg r snap with progress := r.progress.write i { pr with pendingSnap := true } }

/-- The counting loop of `maybe_send_app_`; the fuel is what is left of 256 entries. -/
def appBatch (l : RaftLog) (maxSz : Nat) : Nat → Nat → Nat → Nat → Nat
  | 0, _, n, _ => n
  | fuel + 1, idx, n, bytes =>
    if idx ≤ l.lastIndex then
      match logAt l idx with
      | none => n
      | some e =>
        let add := e.data.length + 16
        if 0 < n ∧ maxSz < bytes + add then n
        else appBatch l maxSz fuel (idx + 1) (n + 1) (bytes + add)
    else n

/-- The copying loop of `maybe_send_app_`; `none` is its early return on a missing entry. -/
def copyEntries (l : RaftLog) (next : Nat) : Nat → Option (List Entry)
  | 0 => some []
  | n + 1 =>
    match logAt l next with
    | none => none
    | some e =>
      match copyEntries l (next + 1) n with
      | none => none
      | some es => some (e :: es)

/-- `max_size_per_msg`, with zero meaning one mebibyte. -/
def maxSizePerApp (r : Raft) : Nat :=
  if r.conf.maxSizePerMsg ≠ 0 then r.conf.maxSizePerMsg else 1024 * 1024

/-- `maybe_send_app_`: send entries from `nextIdx` on, with at most one Append in flight. -/
def maybeSendApp (r : Raft) (i : Nat) : Raft :=
  match r.mem.peers[i]? with
  | none => r
  | some peer =>
    let pr := r.progress.read i
    if maxPeers ≤ i then r
    else if peer.id = r.conf.id then r
    else if pr.pendingSnap then r
    else if pr.pendingApp then r
    else
      let next := if pr.nextIdx = 0 then 1 else pr.nextIdx
      if 0 < r.rlog.compacted ∧ next ≤ r.rlog.compacted then maybeSendSnap r i
      else if r.rlog.lastIndex < next then r
      else
        let prev := next - 1
        if 0 < prev ∧ logAt r.rlog prev = none ∧ prev ≠ r.rlog.compacted then r
        else
          let n := appBatch r.rlog (maxSizePerApp r) 256 next 0 0
          if n = 0 then r
          else
            match copyEntries r.rlog next n with
            | none => r
            | some ecopy =>
              let app : Msg :=
                { type := .app
                  dest := peer.id
                  sender := r.conf.id
                  term := r.term
                  index := prev
                  logTerm := logTermAt r.rlog prev
                  commit := r.commit
                  entries := ecopy }
              { queueMsg r app with
                progress := r.progress.write i { pr with pendingApp := true } }

/-- `maybe_advance_commit_`: only an entry of the leader's own term is committed by counting. -/
def maybeAdvanceCommit (r : Raft) : Raft :=
  if r.role ≠ .leader then r
  else
    let inc := incoming r
    if inc.length = 0 then r
    else
      let newCommit := majorityMatchIds r inc
      let newCommit :=
        if r.mem.outgoing ≠ [] then
          let oldCommit := majorityMatchIds r r.mem.outgoing
          if oldCommit < newCommit then oldCommit else newCommit
        else newCommit
      if r.commit < newCommit ∧ logTermAt r.rlog newCommit = r.term then
        queueHardState { r with commit := newCommit }
      else r

end Cetcd.Raft
