import Cetcd.Lib.Run
import Cetcd.Raft.Step

/-!
# A cluster of Raft nodes on an asynchronous network

Every call into a node is followed by `process_ready_`. `sent` collects every message ever sent; a
delivery picks any of them, at any time and any number of times, so delay, loss, reordering and
duplication need no rules. A packet remembers its builder as it was (`origin`); no node looks at it.
-/

namespace Cetcd

open Lib Raft

structure Packet where
  msg : Msg
  origin : Raft
  deriving DecidableEq

structure Cluster where
  node : Nat → Raft
  sent : List Packet

/-- A voter set: distinct non-zero ids, no more of them than there are progress slots. -/
structure Voters where
  ids : List Nat
  nodup : ids.Nodup
  nonzero : 0 ∉ ids
  card_le : ids.length ≤ maxPeers

/-- `input` is a local message, `compact` is `maybe_snapshot_truncate_` at some index. -/
inductive Action
  | tick (i : Nat)
  | input (i : Nat) (m : Msg)
  | confChange (i : Nat) (data : List UInt8)
  | deliver (p : Packet)
  | compact (i target : Nat)
  deriving DecidableEq

/-- The messages a node's own process steps into it. -/
def Raft.MsgType.isLocal : MsgType → Bool
  | .hup => true
  | .beat => true
  | .prop => true
  | .transferLeader => true
  | .timeoutNow => true
  | _ => false

namespace Cluster

/-- The server compacts at an applied index whose entry it can still read. -/
def snapshotTruncate (r : Raft) (target : Nat) : Raft :=
  if target ≤ r.applied then
    match logAt r.rlog target with
    | some ce => cetcdRaftCompact r target ce.term
    | none => r
  else r

/-- Node `i` has returned from a call as `r`; `process_ready_` follows. -/
def perform (c : Cluster) (i : Nat) (r : Raft) : Cluster :=
  let rd := (cetcdRaftReady r).1
  { node := Function.update c.node i (cetcdRaftAdvance (cetcdRaftReady r).2 rd)
    sent := c.sent ++ rd.messages.map (fun m => ⟨m, r⟩) }

def next (c : Cluster) : Action → Cluster
  | .tick i => c.perform i (cetcdRaftTick (c.node i))
  | .input i m => c.perform i (cetcdRaftStep (c.node i) m).2
  | .confChange i data => c.perform i (cetcdRaftProposeConfChange (c.node i) data)
  | .deliver p => c.perform p.msg.dest (cetcdRaftStep (c.node p.msg.dest) p.msg).2
  | .compact i target =>
    { c with node := Function.update c.node i (snapshotTruncate (c.node i) target) }

def Enabled (V : Voters) (c : Cluster) : Action → Prop
  | .tick i => i ∈ V.ids
  | .input i m => i ∈ V.ids ∧ m.type.isLocal = true
  | .confChange i _ => i ∈ V.ids
  | .deliver p => p ∈ c.sent ∧ p.msg.dest ∈ V.ids
  | .compact i _ => i ∈ V.ids

instance (V : Voters) (c : Cluster) (a : Action) : Decidable (Enabled V c a) := by
  cases a <;> unfold Enabled <;> infer_instance

/-- A fresh node: created by `cetcd_raft_new`, then told about the other voters. -/
def Fresh (V : Voters) (i : Nat) (r : Raft) : Prop :=
  ∃ cfg others r0, cfg.id = i ∧ (i :: others).Perm V.ids ∧ cetcdRaftNew cfg = some r0 ∧
    r = others.foldl (fun acc j => cetcdRaftAddPeer acc j false) r0

def Initial (V : Voters) (c : Cluster) : Prop :=
  c.sent = [] ∧ ∀ i ∈ V.ids, Fresh V i (c.node i)

/-- One step that is enabled and meets the side condition `ok`. -/
def Step (V : Voters) (ok : Cluster → Action → Prop) (c : Cluster) (a : Action)
    (c' : Cluster) : Prop :=
  Enabled V c a ∧ ok c a ∧ c' = c.next a

/-- The states of a run whose steps all meet `ok`, newest first. -/
def Run (V : Voters) (ok : Cluster → Action → Prop) : List Cluster → Prop :=
  RunOf (Initial V) (Step V ok)

def anyStep : Cluster → Action → Prop := fun _ _ => True

/-- A side condition that looks at the deliveries only. -/
def onDelivery (P : Raft → Msg → Prop) (c : Cluster) : Action → Prop
  | .deliver p => P (c.node p.msg.dest) p.msg
  | _ => True

instance (P : Raft → Msg → Prop) [∀ r m, Decidable (P r m)] (c : Cluster) (a : Action) :
    Decidable (onDelivery P c a) := by
  cases a <;> unfold onDelivery <;> infer_instance

lemma Run.exists_cons {V : Voters} {ok : Cluster → Action → Prop} {hist : List Cluster}
    (h : Run V ok hist) : ∃ c rest, hist = c :: rest := by
  cases h with
  | start | step => exact ⟨_, _, rfl⟩

/-- Each term has at most one leader in the states of `hist`. -/
def LeadersAgree (V : Voters) (hist : List Cluster) : Prop :=
  ∀ c₁ ∈ hist, ∀ c₂ ∈ hist, ∀ i ∈ V.ids, ∀ j ∈ V.ids, (c₁.node i).role = .leader →
    (c₂.node j).role = .leader → (c₁.node i).term = (c₂.node j).term → i = j

end Cluster

/-- The node holds entry `e` at index `q`, uncompacted. -/
def Raft.Holds (r : Raft) (q : Nat) (e : Entry) : Prop :=
  r.rlog.compacted < q ∧ logAt r.rlog q = some e
  deriving Decidable

end Cetcd
