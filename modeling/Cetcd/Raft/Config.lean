import Cetcd.Raft.Step

/-!
# The membership API

The calls that change the peer table of a node and take it into and out of a joint configuration.
`C_old` is kept in `outgoing`; the incoming voters are the peers that are no learners.
-/

namespace Cetcd.Raft

open Lib List

def voters (r : Raft) : List Nat := (r.mem.peers.filter (fun p => !p.learner)).map Peer.id

def cetcdRaftVoterCount (r : Raft) : Nat := (voters r).length

/-- `cetcd_raft_promote`; `none` is the error return. -/
def cetcdRaftPromote (r : Raft) (id : Nat) : Option Raft :=
  if id = 0 then none
  else
    match r.mem.peers.findIdx? (fun p => p.id == id) with
    | none => none
    | some i =>
      match r.mem.peers[i]? with
      | some ⟨pid, true⟩ =>
        some { r with mem := { r.mem with peers := r.mem.peers.set i ⟨pid, false⟩ } }
      | _ => none

/-- `cetcd_raft_remove_peer`: the peers behind move up, and their progress as far as there are
slots. The error return leaves the node. -/
def cetcdRaftRemovePeer (r : Raft) (id : Nat) : Raft :=
  if id = 0 ∨ id = r.conf.id then r
  else
    match r.mem.peers.findIdx? (fun p => p.id == id) with
    | none => r
    | some i =>
      { r with
        mem := { r.mem with peers := r.mem.peers.eraseIdx i }
        progress := r.progress.shift i (min r.mem.peers.length maxPeers - (i + 1)) }

/-- `cetcd_raft_enter_joint`; `none` is the error return. -/
def cetcdRaftEnterJoint (r : Raft) : Option Raft :=
  if r.mem.outgoing ≠ [] then none
  else if incoming r = [] then none
  else
    some
      { r with
        mem :=
          { r.mem with
            outgoing := incoming r
            jointIndex :=
              if r.mem.applyingIndex ≠ 0 then r.mem.applyingIndex else r.rlog.lastIndex
            leavePending := false } }

def cetcdRaftLeaveJoint (r : Raft) : Raft :=
  if r.mem.outgoing = [] then r
  else { r with mem := { r.mem with outgoing := [], jointIndex := 0, leavePending := false } }

/-- `cetcd_raft_restore_joint`; the error return leaves the node as it is. -/
def cetcdRaftRestoreJoint (r : Raft) (ids : List Nat) (jointIndex : Nat) : Raft :=
  if ids = [] ∨ maxPeers < ids.length then r
  else
    { r with
      mem := { r.mem with outgoing := ids, jointIndex := jointIndex, leavePending := false } }

def cetcdRaftInJoint (r : Raft) : Bool := !r.mem.outgoing.isEmpty

/-- `cetcd_raft_joint_caught_up`: every incoming voter, also without a slot, is known to hold the
entry that began the change. -/
def cetcdRaftJointCaughtUp (r : Raft) : Bool :=
  cetcdRaftInJoint r && (voters r).all (fun id => decide (r.mem.jointIndex ≤ matchOf r id))

def cetcdRaftSetApplying (r : Raft) (index : Nat) : Raft :=
  { r with mem := { r.mem with applyingIndex := index } }

def cetcdRaftSetLeavePending (r : Raft) (pending : Bool) : Raft :=
  { r with mem := { r.mem with leavePending := pending } }

/-! ## Building a table -/

/-- `cetcd_raft_add_peer`, one call for each peer. -/
def addPeers (r : Raft) (ps : List Peer) : Raft :=
  ps.foldl (fun acc p => cetcdRaftAddPeer acc p.id p.learner) r

lemma incoming_eq_take (r : Raft) : incoming r = (voters r).take maxPeers := rfl

lemma cetcdRaftAddPeer_eq (r : Raft) (id : Nat) (isLearner : Bool) :
    ∃ mem progress, cetcdRaftAddPeer r id isLearner = { r with mem := mem, progress := progress } := by
  unfold cetcdRaftAddPeer addPeer
  split_ifs
  all_goals exact ⟨_, _, rfl⟩

lemma addPeers_eq (r : Raft) (ps : List Peer) :
    ∃ mem progress, addPeers r ps = { r with mem := mem, progress := progress } := by
  induction ps generalizing r with
  | nil => exact ⟨_, _, rfl⟩
  | cons p ps ih =>
    obtain ⟨mem, progress, hone⟩ := cetcdRaftAddPeer_eq r p.id p.learner
    obtain ⟨mem', progress', hrest⟩ := ih (cetcdRaftAddPeer r p.id p.learner)
    refine ⟨mem', progress', ?_⟩
    change addPeers (cetcdRaftAddPeer r p.id p.learner) ps = _
    rw [hrest, hone]

lemma addPeers_frame (r : Raft) (ps : List Peer) :
    (addPeers r ps).conf = r.conf ∧ (addPeers r ps).pending = r.pending := by
  obtain ⟨mem, progress, h⟩ := addPeers_eq r ps
  rw [h]
  exact ⟨rfl, rfl⟩

lemma addPeers_spec {ps : List Peer} {r : Raft} (hzero : ∀ p ∈ ps, p.id ≠ 0)
    (hnodup : ((r.mem.peers ++ ps).map Peer.id).Nodup) :
    (addPeers r ps).mem.peers = r.mem.peers ++ ps ∧
      (addPeers r ps).conf = r.conf ∧ (addPeers r ps).mem.outgoing = r.mem.outgoing ∧
      (addPeers r ps).role = r.role ∧ (addPeers r ps).votesGranted = r.votesGranted := by
  induction ps generalizing r with
  | nil => exact ⟨(append_nil _).symm, rfl, rfl, rfl, rfl⟩
  | cons p ps ih =>
    have hnew : hasPeer r p.id = false := by
      unfold hasPeer
      rw [any_eq_false]
      intro q hq hqp
      rw [map_append, nodup_append] at hnodup
      exact hnodup.2.2 q.id (mem_map.2 ⟨q, hq, rfl⟩) p.id (by simp) (by simpa using hqp)
    have hone : (cetcdRaftAddPeer r p.id p.learner).mem.peers = r.mem.peers ++ [p] ∧
        (cetcdRaftAddPeer r p.id p.learner).conf = r.conf ∧
        (cetcdRaftAddPeer r p.id p.learner).mem.outgoing = r.mem.outgoing ∧
        (cetcdRaftAddPeer r p.id p.learner).role = r.role ∧
        (cetcdRaftAddPeer r p.id p.learner).votesGranted = r.votesGranted := by
      unfold cetcdRaftAddPeer addPeer
      rw [if_neg (hzero p mem_cons_self), hnew, if_neg Bool.false_ne_true,
        if_neg Bool.false_ne_true]
      exact ⟨rfl, rfl, rfl, rfl, rfl⟩
    rcases hone with ⟨h1, h2, h3, h4, h5⟩
    have hrest := ih (r := cetcdRaftAddPeer r p.id p.learner)
      (fun q hq => hzero q (mem_cons_of_mem _ hq)) (by
        rw [h1, append_assoc]
        exact hnodup)
    rw [h1, h2, h3, h4, h5, append_assoc] at hrest
    exact hrest

lemma cetcdRaftNew_spec {cfg : RaftConfig} {r : Raft} (h : cetcdRaftNew cfg = some r) :
    cfg.id ≠ 0 ∧ r.conf.id = cfg.id ∧ r.mem.peers = [⟨cfg.id, false⟩] ∧ r.mem.outgoing = [] ∧
      r.role = .follower ∧ r.votesGranted = [] ∧ r.pending.msgs = [] := by
  unfold cetcdRaftNew at h
  split at h
  · cases h
  rename_i hid
  split at h
  · cases h
  cases h
  exact ⟨hid, rfl, rfl, rfl, rfl, rfl, rfl⟩

end Cetcd.Raft
