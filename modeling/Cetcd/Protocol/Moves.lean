import Cetcd.Lib.Majority
import Cetcd.Cluster.Model

/-!
# The protocol behind the handlers

A node is seen through its `View`: the fields that take part in elections and replication, and the
messages it has built in `out`. A `Move` is one thing a node can do to its view, `MoveStep` says
when and what it changes; a handler is a sequence of moves, first `local` ones, then those of a
leader. `Checks` switches on side conditions that the code does not test.
-/

namespace Cetcd.Protocol

open Lib Raft

/-! ## Views -/

/-- The match index recorded for a peer, zero for one without a slot. -/
def progressOf (r : Raft) (x : Nat) : Nat :=
  match peerSlot r x with
  | none => 0
  | some slot => (r.progress.read slot).matchIdx

structure View where
  conf : Conf
  mem : Membership
  term : Nat
  vote : Nat
  commit : Nat
  applied : Nat
  role : Role
  votes : List Nat
  rlog : RaftLog
  matchIdx : Nat → Nat
  out : List Msg

def view (r : Raft) : View :=
  { conf := r.conf
    mem := r.mem
    term := r.term
    vote := r.vote
    commit := r.commit
    applied := r.applied
    role := r.role
    votes := r.votesGranted
    rlog := r.rlog
    matchIdx := progressOf r
    out := r.pending.msgs }

namespace View

def id (v : View) : Nat := v.conf.id

def emit (v : View) (m : Msg) : View := { v with out := v.out ++ [m] }

end View

def storeEntries (l : RaftLog) (idx : Nat) : List Entry → RaftLog
  | [] => l
  | e :: es => storeEntries (storeEntry l idx e) (idx + 1) es

/-! ## Conditions on a delivery

Each one is about the node that is stepped and the message it is given, before the step. -/

/-- A candidate is not given a vote of an earlier term. -/
def FreshVote (r : Raft) (m : Msg) : Prop :=
  m.type = .voteResp → m.reject = 0 → r.role = .candidate → r.term ≤ m.term
  deriving Decidable

/-- A snapshot that falls inside the log meets the entry it stands for. -/
def MatchingSnap (r : Raft) (m : Msg) : Prop :=
  m.type = .snap → r.term ≤ m.term → r.rlog.compacted < m.snapshot →
    m.snapshot ≤ r.rlog.lastIndex → logTermAt r.rlog m.snapshot = m.logTerm
  deriving Decidable

/-- The Append passes the consistency check of `handle_app_`. -/
def PrevMatches (l : RaftLog) (m : Msg) : Prop :=
  m.index = 0 ∨ (m.index ≤ l.lastIndex ∧ logTermAt l m.index = m.logTerm)
  deriving Decidable

/-- Every entry of the Append is already there, and the log goes on after them. -/
def LeavesTail (l : RaftLog) (m : Msg) : Prop :=
  m.index + m.entries.length < l.lastIndex ∧
    ∀ k (h : k < m.entries.length), logTermAt l (m.index + 1 + k) = m.entries[k].term

/-- An Append that leaves a tail behind it meets a log that ends in the leader's own term. -/
def VerifiedTail (r : Raft) (m : Msg) : Prop :=
  m.type = .app → r.term ≤ m.term → PrevMatches r.rlog m → LeavesTail r.rlog m →
    r.rlog.lastTerm = m.term

/-- A leader is not given an acknowledgement of an earlier term. -/
def FreshAck (r : Raft) (m : Msg) : Prop :=
  m.type = .appResp → m.reject = 0 → r.role = .leader → r.term ≤ m.term
  deriving Decidable

/-- A leader is given snapshot acknowledgements of its own term only. -/
def FreshStatus (r : Raft) (m : Msg) : Prop :=
  m.type = .snapStatus → m.reject = 0 → r.role = .leader → m.term = r.term
  deriving Decidable

/-- An Append from the very beginning does not reach below the compacted prefix. -/
def StartOk (r : Raft) (m : Msg) : Prop :=
  m.type = .app → r.term ≤ m.term → m.index = 0 → r.rlog.compacted ≤ 1
  deriving Decidable

/-- A heartbeat raises the commit index only of a log that ends in the leader's own term. -/
def VerifiedHeartbeat (r : Raft) (m : Msg) : Prop :=
  m.type = .heartbeat → r.term ≤ m.term → r.commit < min m.commit r.rlog.lastIndex →
    r.rlog.lastTerm = m.term
  deriving Decidable

instance (l : RaftLog) (m : Msg) : Decidable (LeavesTail l m) :=
  inferInstanceAs (Decidable (_ ∧ _))

instance (r : Raft) (m : Msg) : Decidable (VerifiedTail r m) :=
  inferInstanceAs (Decidable (_ → _))

structure Checks where
  votes : Prop
  snaps : Prop
  acks : Prop
  start : Prop
  beats : Prop

structure Checks.Met (K : Checks) (r : Raft) (m : Msg) : Prop where
  votes : K.votes → FreshVote r m
  snaps : K.snaps → MatchingSnap r m
  tail : K.acks → VerifiedTail r m
  ack : K.acks → FreshAck r m
  status : K.acks → FreshStatus r m
  start : K.start → StartOk r m
  beats : K.beats → VerifiedHeartbeat r m

/-! ## Moves -/

inductive Move
  | stepDown (t : Nat)
  | preCampaign
  | preRecord
  | campaign
  | say (m : Msg)
  | grant (m : Msg)
  | record (m : Msg)
  | accept (m : Msg)
  | install (m : Msg)
  | follow (m : Msg)
  | win
  | propose (e : Entry)
  | setMatch (x k : Nat)
  | advance (n : Nat)
  | settle
  | compact (s : Nat)

/-- The entries of an Append are those after `index` in the sender's log. -/
structure AppFrom (l : RaftLog) (m : Msg) : Prop where
  nonempty : m.entries ≠ []
  compacted_le : l.compacted ≤ m.index
  le_last : m.index + m.entries.length ≤ l.lastIndex
  logTerm : m.logTerm = logTermAt l m.index
  entries : ∀ k (h : k < m.entries.length), logAt l (m.index + 1 + k) = some m.entries[k]

structure SnapFrom (l : RaftLog) (m : Msg) : Prop where
  pos : l.compacted ≠ 0
  snapshot : m.snapshot = l.compacted
  logTerm : m.logTerm = logTermAt l l.compacted

/-- What a node may send as it stands; grants and acknowledgements come with a change. -/
def Sayable (v : View) (m : Msg) : Prop :=
  m.sender = v.id ∧ match m.type with
    | .preVote | .preVoteResp | .heartbeatResp | .timeoutNow => True
    | .voteResp | .appResp | .snapStatus => m.reject ≠ 0
    | .vote =>
      v.role = .candidate ∧ m.term = v.term ∧ m.logTerm = v.rlog.lastTerm ∧
        m.index = v.rlog.lastIndex
    | .heartbeat => v.role = .leader ∧ m.term = v.term ∧ m.commit = v.commit
    | .app => v.role = .leader ∧ m.term = v.term ∧ m.commit = v.commit ∧ AppFrom v.rlog m
    | .snap => v.role = .leader ∧ m.term = v.term ∧ m.commit = v.commit ∧ SnapFrom v.rlog m
    | _ => False

/-- An acknowledgement by peer `x` of the first `k` entries, as a leader of term `t` reads it. -/
def Acknowledges (K : Checks) (m : Msg) (x k t : Nat) : Prop :=
  m.sender = x ∧ m.reject = 0 ∧ (K.acks → m.term = t) ∧
    ((m.type = .appResp ∧ m.index = k) ∨ (m.type = .snapStatus ∧ m.snapshot = k))

/-- The log after a snapshot, installed or already covered. -/
def Installed (l : RaftLog) (m : Msg) (l' : RaftLog) : Prop :=
  (m.snapshot ≤ l.compacted ∧ l' = l) ∨
    (l.compacted < m.snapshot ∧ logCompact l m.snapshot m.logTerm = some l')

inductive MoveStep (K : Checks) (V : Voters) (net : Msg → Prop) (v : View) : Move → View → Prop
  | stepDown {t : Nat} : v.term ≤ t →
      MoveStep K V net v (.stepDown t)
        { v with term := t, vote := if v.term < t then 0 else v.vote, role := .follower }
  | preCampaign : v.role ≠ .leader →
      MoveStep K V net v .preCampaign { v with role := .preCandidate, votes := [v.id] }
  | preRecord {xs : List Nat} : v.role = .preCandidate →
      MoveStep K V net v .preRecord { v with votes := xs }
  | campaign : v.role ≠ .leader →
      MoveStep K V net v .campaign
        { v with role := .candidate, term := v.term + 1, vote := v.id, votes := [v.id] }
  | say {m : Msg} : Sayable v m → MoveStep K V net v (.say m) (v.emit m)
  | grant {m : Msg} : net m → m.type = .vote → m.term = v.term → (v.vote = 0 ∨ v.vote = m.sender) →
      (v.rlog.lastTerm < m.logTerm ∨ (m.logTerm = v.rlog.lastTerm ∧ v.rlog.lastIndex ≤ m.index)) →
      MoveStep K V net v (.grant m)
        ({ v with vote := m.sender }.emit
          { type := .voteResp, dest := m.sender, sender := v.id, term := v.term })
  | record {m : Msg} : net m → m.dest = v.id → m.type = .voteResp → m.reject = 0 →
      v.role = .candidate → m.term ≤ v.term → (K.votes → v.term ≤ m.term) →
      MoveStep K V net v (.record m) { v with votes := v.votes ++ [m.sender] }
  | accept {m : Msg} : net m → m.type = .app → m.term = v.term → v.role = .follower →
      v.out = [] → PrevMatches v.rlog m →
      (K.acks → LeavesTail v.rlog m → v.rlog.lastTerm = m.term) →
      (K.start → m.index = 0 → v.rlog.compacted ≤ 1) →
      MoveStep K V net v (.accept m)
        ({ v with
            rlog := storeEntries v.rlog (m.index + 1) m.entries
            commit := max v.commit
              (min m.commit (storeEntries v.rlog (m.index + 1) m.entries).lastIndex) }.emit
          { type := .appResp, dest := m.sender, sender := v.id, term := v.term
            index := (storeEntries v.rlog (m.index + 1) m.entries).lastIndex })
  | install {m : Msg} {l : RaftLog} : net m → m.type = .snap → m.term = v.term →
      v.role = .follower → v.out = [] → m.snapshot ≠ 0 → Installed v.rlog m l →
      (K.snaps → v.rlog.compacted < m.snapshot → m.snapshot ≤ v.rlog.lastIndex →
        logTermAt v.rlog m.snapshot = m.logTerm) →
      MoveStep K V net v (.install m)
        ({ v with
            rlog := l
            commit := max v.commit m.snapshot
            applied := max v.applied m.snapshot }.emit
          { type := .snapStatus, dest := m.sender, sender := v.id, term := v.term
            snapshot := m.snapshot, index := m.snapshot })
  | follow {m : Msg} : net m → m.type = .heartbeat → m.term = v.term → v.role = .follower →
      (K.beats → v.commit < min m.commit v.rlog.lastIndex → v.rlog.lastTerm = m.term) →
      MoveStep K V net v (.follow m)
        { v with commit := max v.commit (min m.commit v.rlog.lastIndex) }
  | win : v.role = .candidate → Majority V.ids (fun x => x ∈ v.votes) →
      MoveStep K V net v .win { v with role := .leader, matchIdx := fun _ => 0 }
  | propose {e : Entry} : v.role = .leader → e.term = v.term → e.index = v.rlog.lastIndex + 1 →
      MoveStep K V net v (.propose e) { v with rlog := logAppend v.rlog e }
  | setMatch {x k : Nat} : v.role = .leader →
      (k ≤ v.matchIdx x ∨ ∃ m, net m ∧ Acknowledges K m x k v.term) →
      MoveStep K V net v (.setMatch x k)
        { v with matchIdx := Function.update v.matchIdx x k }
  | advance {n : Nat} : v.role = .leader → v.commit < n → logTermAt v.rlog n = v.term →
      Majority V.ids
        (fun x => n ≤ if x = v.id then v.rlog.lastIndex else v.matchIdx x) →
      MoveStep K V net v (.advance n) { v with commit := n }
  | settle :
      MoveStep K V net v .settle { v with applied := max v.applied v.commit, out := [] }
  | compact {s : Nat} {ce : Entry} {l : RaftLog} : v.out = [] → s ≤ v.applied →
      logAt v.rlog s = some ce → logCompact v.rlog s ce.term = some l →
      MoveStep K V net v (.compact s) { v with rlog := l }

/-- The moves of a leader; sending a message is one of both sorts. -/
def Move.leads : Move → Bool
  | .win | .propose _ | .setMatch _ _ | .advance _ | .say _ => true
  | _ => false

/-- The moves of a node that is not leading; `settle` and `compact` are made between calls. -/
def Move.isLocal : Move → Bool
  | .win | .propose _ | .setMatch _ _ | .advance _ | .settle | .compact _ => false
  | _ => true

def Moves (K : Checks) (V : Voters) (net : Msg → Prop) (S : Move → Bool) : View → View → Prop :=
  Relation.ReflTransGen (fun v v' => ∃ mv, S mv = true ∧ MoveStep K V net v mv v')

/-- What one call into a node does, up to the Ready that `settle` takes. -/
def Turn (K : Checks) (V : Voters) (net : Msg → Prop) (v v' : View) : Prop :=
  ∃ v1, Moves K V net Move.isLocal v v1 ∧ Moves K V net Move.leads v1 v'

/-- The node is `i`, its peers are the voters; there is no learner and no joint configuration. -/
structure Member (V : Voters) (i : Nat) (conf : Conf) (mem : Membership) : Prop where
  id : conf.id = i
  peers : (mem.peers.map Peer.id).Perm V.ids
  voters : ∀ p ∈ mem.peers, p.learner = false
  outgoing : mem.outgoing = []

end Cetcd.Protocol
