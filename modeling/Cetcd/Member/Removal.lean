import Cetcd.Member.Quorums
import Cetcd.Server.Proposal

/-!
# Removing a voter

Applying `MEMBER_REMOVE` makes the old voters the outgoing configuration; once every remaining voter
is known to have that entry, the leader proposes `LEAVE_JOINT`. `match_of_` is zero for a peer that
left the table, so the removed voter never counts. Whether the others are a majority without it
decides whether `LEAVE_JOINT` can be committed (`quorate_of_removed`).
-/

namespace Cetcd.Member

open Lib Raft Apply Server List

def cetcdReconfigMayRemove (voterCount : Nat) (targetIsLearner : Bool) : Bool :=
  if targetIsLearner then true
  else if voterCount = 0 then false
  else decide (quorum voterCount ≤ voterCount - 1)

def cetcdReconfigCheckRemove (voterCount : Nat) (targetIsLearner strict : Bool) : Bool :=
  if !strict then true else cetcdReconfigMayRemove voterCount targetIsLearner

/-- `cluster_handle_member_remove` up to the proposal. -/
def memberRemoveAccepted (strict : Bool) (r : Raft) (id : Nat) : Bool :=
  decide (id ≠ 0) && !cetcdRaftInJoint r && hasPeer r id &&
    cetcdReconfigCheckRemove (cetcdRaftVoterCount r) (fromLearner r id) strict

def encodeMemberRemove (id : Nat) : List UInt8 := 6 :: writeVarint id

/-- `apply_member_` for a removal: a voter that leaves begins a joint configuration. -/
def applyMemberRemove (r : Raft) (id : Nat) : Raft :=
  if id ∈ voters r ∧ !cetcdRaftInJoint r then
    match cetcdRaftEnterJoint r with
    | none => r
    | some r1 => cetcdRaftRemovePeer r1 id
  else cetcdRaftRemovePeer r id

/-- `cetcd_v3rpc_apply_entry`: `MEMBER_REMOVE` and `LEAVE_JOINT`. -/
def applyMember (r : Raft) (data : List UInt8) : Raft :=
  match data with
  | 6 :: rest =>
    match readVarint rest with
    | none => r
    | some (id, _) => if id = 0 then r else applyMemberRemove r id
  | 9 :: _ => cetcdRaftLeaveJoint r
  | _ => r

/-- One round of the loop of `apply_committed_`. -/
def applyTableAt (r : Raft) (i : Nat) : Raft :=
  match logAt r.rlog i with
  | none => r
  | some e =>
    if e.type ≠ .normal then r
    else cetcdRaftSetApplying (applyMember (cetcdRaftSetApplying r i) e.data) 0

/-- `apply_committed_`, as far as the table goes. -/
def applyTable (r : Raft) : Raft := (roundRange r.applied r.commit).foldl applyTableAt r

/-- A round of `process_ready_` that reaches the disk and compacts nothing. -/
def readyRound (r : Raft) : List Msg × Raft :=
  let rd := (cetcdRaftReady r).1
  (rd.messages, cetcdRaftAdvance (applyTable (cetcdRaftReady r).2) rd)

/-- `process_ready_` with the second round that a proposal of `LEAVE_JOINT` starts. -/
def settle (r : Raft) : List Msg × Raft :=
  match maybeProposeLeaveJoint (readyRound r).2 with
  | none => readyRound r
  | some r1 => ((readyRound r).1 ++ (readyRound r1).1, (readyRound r1).2)

lemma cetcdRaftEnterJoint_eq_some {r r1 : Raft} (h : cetcdRaftEnterJoint r = some r1) :
    r.mem.outgoing = [] ∧ incoming r ≠ [] ∧ r1 =
        { r with
          mem :=
            { r.mem with
              outgoing := incoming r
              jointIndex :=
                if r.mem.applyingIndex ≠ 0 then r.mem.applyingIndex else r.rlog.lastIndex
              leavePending := false } } := by
  unfold cetcdRaftEnterJoint at h
  split at h
  · cases h
  rename_i hout
  split at h
  · cases h
  rename_i hinc
  cases h
  exact ⟨not_not.1 hout, hinc, rfl⟩

lemma applyMember_eq (r : Raft) (data : Bytes) :
    ∃ mem progress, applyMember r data = { r with mem := mem, progress := progress } := by
  have hremove : ∀ (r : Raft) id, ∃ mem progress,
      cetcdRaftRemovePeer r id = { r with mem := mem, progress := progress } := by
    intro r id
    unfold cetcdRaftRemovePeer
    split
    · exact ⟨_, _, rfl⟩
    split
    all_goals exact ⟨_, _, rfl⟩
  have hmember : ∀ id, ∃ mem progress,
      applyMemberRemove r id = { r with mem := mem, progress := progress } := by
    intro id
    unfold applyMemberRemove
    split
    · cases henter : cetcdRaftEnterJoint r with
      | none => exact ⟨_, _, rfl⟩
      | some r1 =>
        obtain ⟨_, _, rfl⟩ := cetcdRaftEnterJoint_eq_some henter
        obtain ⟨mem, progress, heq⟩ := hremove _ id
        exact ⟨mem, progress, heq⟩
    · exact hremove r id
  unfold applyMember
  split
  · split
    · exact ⟨_, _, rfl⟩
    split
    · exact ⟨_, _, rfl⟩
    · exact hmember _
  · unfold cetcdRaftLeaveJoint
    split
    all_goals exact ⟨_, _, rfl⟩
  · exact ⟨_, _, rfl⟩

lemma applyTableAt_eq (r : Raft) (i : Nat) :
    ∃ mem progress, applyTableAt r i = { r with mem := mem, progress := progress } := by
  unfold applyTableAt
  split
  · exact ⟨_, _, rfl⟩
  rename_i e _
  split
  · exact ⟨_, _, rfl⟩
  obtain ⟨mem, progress, heq⟩ := applyMember_eq (cetcdRaftSetApplying r i) e.data
  rw [heq]
  exact ⟨_, _, rfl⟩

lemma foldl_applyTableAt_eq (is : List Nat) (r : Raft) :
    ∃ mem progress, is.foldl applyTableAt r = { r with mem := mem, progress := progress } := by
  induction is generalizing r with
  | nil => exact ⟨_, _, rfl⟩
  | cons i is ih =>
    obtain ⟨mem, progress, hone⟩ := applyTableAt_eq r i
    obtain ⟨mem', progress', hrest⟩ := ih (applyTableAt r i)
    refine ⟨mem', progress', ?_⟩
    rw [foldl_cons, hrest, hone]

lemma applyTable_eq (r : Raft) :
    ∃ mem progress, applyTable r = { r with mem := mem, progress := progress } :=
  foldl_applyTableAt_eq _ r

/-- The term of one leader: its table, the index `base` up to which nodes may have compacted, and
`own`, from which on every entry is of this term. Every voter has a slot. -/
structure Tenure where
  lead : Nat
  peers : List Peer
  term : Nat
  base : Nat
  own : Nat
  nodup : (peers.map Peer.id).Nodup
  leads : ⟨lead, false⟩ ∈ peers
  slots : ∀ i v, peers[i]? = some ⟨v, false⟩ → i < maxPeers
  base_lt : base < own

namespace Tenure

def Voter (T : Tenure) (v : Nat) : Prop := ⟨v, false⟩ ∈ T.peers
  deriving Decidable

def Learner (T : Tenure) (v : Nat) : Prop := ⟨v, true⟩ ∈ T.peers
  deriving Decidable

/-- The voters are a quorum of the outgoing configuration, if there is one. -/
def Quorate (T : Tenure) (outgoing : List Nat) : Prop :=
  outgoing = [] ∨ outgoing.length ≤ maxPeers ∧
    quorum outgoing.length ≤ outgoing.countP (fun v => decide (T.Voter v))
  deriving Decidable

end Tenure

/-- The leader `r` has the table of `r0` without the voter `x`, from the entry at `index` on. -/
structure Removed (T : Tenure) (strict : Bool) (x index : Nat) (r0 r : Raft) : Prop where
  id : r0.conf.id = T.lead
  nodup : (r0.mem.peers.map Peer.id).Nodup
  voter : x ∈ voters r0
  ne : x ≠ T.lead
  fits : x < 2 ^ 64
  accepted : memberRemoveAccepted strict r0 x = true
  pos : index ≠ 0
  applied : index ≤ r.applied
  table : r.mem =
    { (applyMember (cetcdRaftSetApplying r0 index) (encodeMemberRemove x)).mem with
      applyingIndex := 0
      leavePending := r.mem.leavePending }

lemma applyMember_remove {x : Nat} (hfits : x < 2 ^ 64) (hzero : x ≠ 0) (r : Raft) :
    applyMember r (encodeMemberRemove x) = applyMemberRemove r x := by
  have hread : readVarint (writeVarint x) = some (x, []) := by
    have := readVarint_writeVarint (v := x) [] hfits
    rwa [append_nil] at this
  change (match readVarint (writeVarint x) with
    | none => r
    | some (id, _) => if id = 0 then r else applyMemberRemove r id) = _
  rw [hread]
  exact if_neg hzero

lemma applyMemberRemove_of_voter {r : Raft} {x : Nat} (hzero : x ≠ 0) (hself : x ≠ r.conf.id)
    (hvoter : x ∈ voters r) (hout : r.mem.outgoing = []) :
    incoming r ≠ [] ∧ (applyMemberRemove r x).mem.outgoing = incoming r ∧
      (applyMemberRemove r x).mem.jointIndex =
        (if r.mem.applyingIndex ≠ 0 then r.mem.applyingIndex else r.rlog.lastIndex) ∧
      ∃ i, (r.mem.peers.map Peer.id)[i]? = some x ∧
        (applyMemberRemove r x).mem.peers = r.mem.peers.eraseIdx i := by
  have hinc : incoming r ≠ [] := by
    rw [incoming_eq_take]
    intro hnil
    have hlen := congrArg List.length hnil
    have hpos := length_pos_of_mem hvoter
    rw [length_take, length_nil] at hlen
    unfold maxPeers at hlen
    omega
  have hfind : ∃ i, r.mem.peers.findIdx? (fun p => p.id == x) = some i := by
    obtain ⟨p, hp, hpx⟩ := mem_map.1 hvoter
    rw [← Option.isSome_iff_exists, List.findIdx?_isSome, any_eq_true]
    exact ⟨p, (mem_filter.1 hp).1, by simpa using hpx⟩
  obtain ⟨i, hi⟩ := hfind
  have hjoint : cetcdRaftInJoint r = false := by
    unfold cetcdRaftInJoint
    rw [hout]
    rfl
  unfold applyMemberRemove cetcdRaftEnterJoint
  rw [if_pos ⟨hvoter, by rw [hjoint]; rfl⟩, if_neg (not_not.2 hout), if_neg hinc]
  dsimp only
  unfold cetcdRaftRemovePeer
  dsimp only
  rw [if_neg (not_or.2 ⟨hzero, hself⟩), hi]
  refine ⟨hinc, rfl, rfl, i, ?_, rfl⟩
  obtain ⟨hlt, hx, _⟩ := List.findIdx?_eq_some_iff_getElem.1 hi
  rw [List.getElem?_map, List.getElem?_eq_getElem hlt]
  simpa using hx

section

variable {T : Tenure} {strict : Bool} {x index : Nat} {r0 r : Raft}

lemma Removed.mem (h : Removed T strict x index r0 r) :
    incoming r0 ≠ [] ∧ r.mem.outgoing = incoming r0 ∧ r.mem.jointIndex = index ∧
      ∃ i, (r0.mem.peers.map Peer.id)[i]? = some x ∧ r.mem.peers = r0.mem.peers.eraseIdx i := by
  have hacc := h.accepted
  unfold memberRemoveAccepted at hacc
  simp only [Bool.and_eq_true, decide_eq_true_eq, Bool.not_eq_true'] at hacc
  obtain ⟨⟨⟨hzero, hjoint⟩, _⟩, _⟩ := hacc
  have hout : r0.mem.outgoing = [] := by
    unfold cetcdRaftInJoint at hjoint
    simpa using hjoint
  have hself : x ≠ (cetcdRaftSetApplying r0 index).conf.id := by
    change x ≠ r0.conf.id
    rw [h.id]
    exact h.ne
  rcases applyMemberRemove_of_voter (r := cetcdRaftSetApplying r0 index) hzero hself h.voter hout with
    ⟨hinc, h1, h2, i, hi, h3⟩
  have htable := h.table
  rw [applyMember_remove h.fits hzero] at htable
  rw [htable]
  refine ⟨hinc, h1, h2.trans (if_pos h.pos), i, hi, h3⟩

lemma Removed.quorate (h : Removed T strict x index r0 r) (hpeers : r.mem.peers = T.peers)
    (hthree : 3 ≤ cetcdRaftVoterCount r0) : T.Quorate r.mem.outgoing := by
  obtain ⟨_, hout, _, i, hi, herase⟩ := h.mem
  -- the counted voters other than the removed one are still in the table
  have hstays : ∀ v ∈ incoming r0, v ≠ x → T.Voter v := by
    intro v hv hvx
    rw [incoming_eq_take] at hv
    obtain ⟨p, hp, rfl⟩ := mem_map.1 (mem_of_mem_take hv)
    obtain ⟨hmem, hlearn⟩ := mem_filter.1 hp
    have hp' : p = ⟨p.id, false⟩ := by
      cases p
      simpa using hlearn
    unfold Tenure.Voter
    rw [← hp', ← hpeers, herase, mem_eraseIdx_iff_getElem?]
    obtain ⟨k, hk⟩ := mem_iff_getElem?.1 hmem
    refine ⟨k, ?_, hk⟩
    rintro rfl
    rw [List.getElem?_map, hk] at hi
    exact hvx (by simpa using hi)
  have hnodup : (incoming r0).Nodup := by
    rw [incoming_eq_take]
    exact (((filter_sublist).map Peer.id).nodup h.nodup).sublist (take_sublist _ _)
  have hlen : 3 ≤ (incoming r0).length := by
    have hcount : 3 ≤ (voters r0).length := hthree
    rw [incoming_eq_take, length_take]
    unfold maxPeers
    omega
  have hcount : (incoming r0).length ≤ (incoming r0).countP (fun v => decide (T.Voter v)) + 1 := by
    have hone := nodup_iff_count_le_one.1 hnodup x
    have hsplit := length_eq_countP_add_countP (fun v => decide (v ≠ x)) (l := incoming r0)
    have hmono : (incoming r0).countP (fun v => decide (v ≠ x)) ≤
        (incoming r0).countP (fun v => decide (T.Voter v)) :=
      countP_mono_left fun v hv hvx => by
        simpa using hstays v hv (by simpa using hvx)
    have heq : (incoming r0).countP (fun v => ¬ decide (v ≠ x)) = (incoming r0).count x := by
      unfold List.count
      refine countP_congr fun v _ => ?_
      simp
    omega
  right
  rw [hout]
  refine ⟨incoming_length_le, ?_⟩
  unfold quorum
  omega

end

end Cetcd.Member
