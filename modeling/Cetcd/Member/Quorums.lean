import Cetcd.Raft.Config
import Cetcd.Raft.Quorum

/-!
# When the quorums of two nodes meet

A quorum of a node is a vote set that `vote_quorum_ok_` accepts, or the peers that let
`maybe_advance_commit_` advance. Both look at the first sixteen voters of the node's own table, its
window. With more voters, what decides is how far the windows of two nodes differ.
-/

namespace Cetcd.Member

open Lib Raft List Function

/-! ## Quorums -/

/-- The sets of ids a node accepts as a quorum, whatever votes it holds. -/
inductive Quorum (r : Raft) : (Nat → Prop) → Prop
  | votes (granted : List Nat) :
      voteQuorumOk { r with votesGranted := granted } = true → Quorum r (fun v => v ∈ granted)
  | counted : (maybeAdvanceCommit r).commit ≠ r.commit →
      Quorum r (fun v => (maybeAdvanceCommit r).commit ≤ matchOf r v)

lemma Quorum.majority {r : Raft} {Q : Nat → Prop} (h : Quorum r Q) : Majority (incoming r) Q := by
  cases h with
  | votes granted hok => exact (majorities_of_voteQuorumOk hok).1
  | counted hadv => exact (majorities_of_advance hadv).1

lemma Quorum.majority_outgoing {r : Raft} {Q : Nat → Prop} (h : Quorum r Q)
    (hne : r.mem.outgoing ≠ []) (hlen : r.mem.outgoing.length ≤ maxPeers) :
    Majority r.mem.outgoing Q := by
  cases h with
  | votes granted hok => exact (majorities_of_voteQuorumOk hok).2 hne
  | counted hadv => exact (majorities_of_advance hadv).2 hne hlen

/-! ## Tables without learners -/

/-- Node `i` knows exactly the voters `V`: itself first, the others in some order. -/
structure Tabled (V : List Nat) (i : Nat) (r : Raft) : Prop where
  id : r.conf.id = i
  peers : ∃ others, (i :: others).Perm V ∧ r.mem.peers = (i :: others).map (fun j => ⟨j, false⟩)
  outgoing : r.mem.outgoing = []

section

variable {V : List Nat} {i j : Nat} {a b : Raft}

lemma tabled_addPeers (hV : V.Nodup) (hzero : 0 ∉ V) {cfg : RaftConfig} {others : List Nat}
    {r : Raft} (hperm : (cfg.id :: others).Perm V) (hnew : cetcdRaftNew cfg = some r) :
    Tabled V cfg.id (addPeers r (others.map (fun j => ⟨j, false⟩))) := by
  obtain ⟨_, hid, hpeers, hout, _, _, _⟩ := cetcdRaftNew_spec hnew
  have hids : ((r.mem.peers ++ others.map (fun j => (⟨j, false⟩ : Peer))).map Peer.id) =
      cfg.id :: others := by
    simp [hpeers, map_map, comp_def]
  have hpos : ∀ p ∈ others.map (fun j => (⟨j, false⟩ : Peer)), p.id ≠ 0 := by
    intro p hp h0
    obtain ⟨j, hj, rfl⟩ := mem_map.1 hp
    exact hzero (hperm.mem_iff.1 (h0 ▸ mem_cons_of_mem _ hj))
  rcases addPeers_spec (r := r) hpos (by rw [hids]; exact hperm.nodup_iff.2 hV) with
    ⟨h1, h2, h3, _⟩
  refine ⟨by rw [h2]; exact hid, ⟨others, hperm, ?_⟩, h3.trans hout⟩
  rw [h1, hpeers]
  rfl

lemma Tabled.window (h : Tabled V i a) (hV : V.Nodup) :
    (incoming a).Nodup ∧ (incoming a).length = min V.length maxPeers ∧
      (incoming a).toFinset ⊆ V.toFinset := by
  obtain ⟨others, hperm, hpeers⟩ := h.peers
  have hinc : incoming a = (i :: others).take maxPeers := by
    unfold incoming
    rw [hpeers, filter_eq_self.2 (by simp), map_map]
    congr 1
    exact map_id'' (fun _ => rfl) _
  have hsub := take_sublist maxPeers (i :: others)
  rw [hinc]
  refine ⟨(hperm.nodup_iff.2 hV).sublist hsub, ?_, fun v hv => ?_⟩
  · rw [length_take, hperm.length_eq, min_comm]
  rw [mem_toFinset] at hv ⊢
  exact hperm.mem_iff.1 (hsub.subset hv)

/-- Two vote sets that win at the two nodes have a voter in common, and so have the peers that let
the first commit and a vote set that wins at the second. -/
structure QuorumsMeet (V : List Nat) (a b : Raft) : Prop where
  votes : ∀ A B : List Nat, voteQuorumOk { a with votesGranted := A } = true →
    voteQuorumOk { b with votesGranted := B } = true → ∃ v ∈ V, v ∈ A ∧ v ∈ B
  commits : ∀ a' : Raft, a'.conf = a.conf → a'.mem = a.mem →
    (maybeAdvanceCommit a').commit ≠ a'.commit → ∀ B : List Nat,
      voteQuorumOk { b with votesGranted := B } = true →
        ∃ v ∈ V, (maybeAdvanceCommit a').commit ≤ matchOf a' v ∧ v ∈ B

lemma exists_common_voter (ha : Tabled V i a) (hb : Tabled V j b) (hV : V.Nodup)
    (hcard : ((incoming a).toFinset ∪ (incoming b).toFinset).card ≤ 17) {P Q : Nat → Prop}
    (hP : Majority (incoming a) P) (hQ : Majority (incoming b) Q) : ∃ v ∈ V, P v ∧ Q v := by
  obtain ⟨hnda, hlena, hsuba⟩ := ha.window hV
  obtain ⟨hndb, hlenb, hsubb⟩ := hb.window hV
  obtain ⟨A, hA, hAcard, hAP⟩ := hP.exists_finset hnda
  obtain ⟨B, hB, hBcard, hBQ⟩ := hQ.exists_finset hndb
  have hall : ((incoming a).toFinset ∪ (incoming b).toFinset).card ≤ V.length :=
    (Finset.card_le_card (Finset.union_subset hsuba hsubb)).trans (toFinset_card_le V)
  -- nine of sixteen on either side, or more than half of one set twice
  have hlt : ((incoming a).toFinset ∪ (incoming b).toFinset).card < A.card + B.card := by
    rw [hlena] at hAcard
    rw [hlenb] at hBcard
    unfold maxPeers at hAcard hBcard
    omega
  obtain ⟨v, hv⟩ := Finset.inter_nonempty_of_card_lt_card_add_card
    (hA.trans Finset.subset_union_left) (hB.trans Finset.subset_union_right) hlt
  obtain ⟨hvA, hvB⟩ := Finset.mem_inter.1 hv
  exact ⟨v, mem_toFinset.1 (hsuba (hA hvA)), hAP v hvA, hBQ v hvB⟩

lemma Tabled.wins (h : Tabled V i a) (hV : V.Nodup) {A : Finset Nat}
    (hA : A ⊆ (incoming a).toFinset) (hcard : quorum (incoming a).length ≤ A.card) :
    voteQuorumOk { a with votesGranted := A.toList } = true := by
  rw [voteQuorumOk_iff]
  have hnd := (h.window hV).1
  refine ⟨?_, ?_, fun hne => absurd h.outgoing hne⟩
  · intro hnil
    have hnil' : incoming a = [] := hnil
    rw [hnil', toFinset_nil, Finset.subset_empty] at hA
    rw [hA, hnil'] at hcard
    exact absurd hcard (by decide)
  change quorum (incoming a).length ≤
    (incoming a).countP (voteFrom { a with votesGranted := A.toList })
  have hfilter : A ⊆ ((incoming a).filter
      (voteFrom { a with votesGranted := A.toList })).toFinset := by
    intro v hv
    rw [mem_toFinset, mem_filter]
    refine ⟨mem_toFinset.1 (hA hv), ?_⟩
    simp [voteFrom, hv]
  have hle := Finset.card_le_card hfilter
  rw [toFinset_card_of_nodup (hnd.filter _), ← countP_eq_length_filter] at hle
  exact hcard.trans hle

/-- The quorums of two nodes always meet if and only if their windows have at most seventeen members
together; with at most seventeen voters they do. -/
theorem quorums_meet_iff (hV : V.Nodup) (ha : Tabled V i a) (hb : Tabled V j b) :
    QuorumsMeet V a b ↔ ((incoming a).toFinset ∪ (incoming b).toFinset).card ≤ 17 := by
  constructor
  · intro hmeet
    by_contra hmany
    obtain ⟨hnda, hlena, hsuba⟩ := ha.window hV
    obtain ⟨hndb, hlenb, hsubb⟩ := hb.window hV
    have hcard : ((incoming a).toFinset ∪ (incoming b).toFinset).card ≤ V.length :=
      (Finset.card_le_card (Finset.union_subset hsuba hsubb)).trans (toFinset_card_le V)
    have hsixteen : min V.length maxPeers = 16 := by
      unfold maxPeers
      omega
    rw [hsixteen] at hlena hlenb
    -- nine members of either window, none of them in both
    rcases exists_disjoint_subsets (S := (incoming a).toFinset) (T := (incoming b).toFinset)
        (p := 9) (q := 9) (by rw [toFinset_card_of_nodup hnda]; omega)
        (by rw [toFinset_card_of_nodup hndb]; omega) (by omega) with
      ⟨A, hA, B, hB, hAcard, hBcard, hdisj⟩
    have hwinA := ha.wins hV hA (by rw [hlena, hAcard]; decide)
    have hwinB := hb.wins hV hB (by rw [hlenb, hBcard]; decide)
    obtain ⟨v, _, hvA, hvB⟩ := hmeet.votes A.toList B.toList hwinA hwinB
    exact Finset.disjoint_left.1 hdisj (Finset.mem_toList.1 hvA) (Finset.mem_toList.1 hvB)
  intro hcard
  refine ⟨fun A B hA hB => ?_, fun a' hconf hmem hadv B hB => ?_⟩
  · exact exists_common_voter ha hb hV hcard (majorities_of_voteQuorumOk hA).1
      (majorities_of_voteQuorumOk hB).1
  have hinc : incoming a' = incoming a := by
    unfold incoming
    rw [hmem]
  have hmaj := (majorities_of_advance hadv).1
  rw [hinc] at hmaj
  exact exists_common_voter ha hb hV hcard hmaj (majorities_of_voteQuorumOk hB).1

end

/-- Node `cfg.id` of the voters `1` to `n`, told about the others in cyclic order. -/
def cyclic (n i : Nat) : Raft :=
  addPeers ((cetcdRaftNew { id := i, electionTick := 10, heartbeatTick := 1 }).getD default)
    ((List.range' (i + 1) (n - i) ++ List.range' 1 (i - 1)).map (fun j => ⟨j, false⟩))

lemma tabled_cyclic {n i : Nat} (hi : i ≠ 0)
    (hperm : (i :: (List.range' (i + 1) (n - i) ++ List.range' 1 (i - 1))).Perm (List.range' 1 n)) :
    Tabled (List.range' 1 n) i (cyclic n i) := by
  have hnew : cetcdRaftNew { id := i, electionTick := 10, heartbeatTick := 1 } =
      some ((cetcdRaftNew { id := i, electionTick := 10, heartbeatTick := 1 }).getD default) := by
    unfold cetcdRaftNew
    rw [if_neg hi, if_neg (by simp)]
    rfl
  exact tabled_addPeers nodup_range' (by simp) hperm hnew

lemma tabled_cyclic_seventeen :
    Tabled (List.range' 1 17) 1 (cyclic 17 1) ∧ Tabled (List.range' 1 17) 9 (cyclic 17 9) :=
  ⟨tabled_cyclic (by decide) (by decide), tabled_cyclic (by decide) (by decide)⟩

/-- Seventeen voters whose windows leave out a different one each. -/
theorem quorums_meet_seventeen : QuorumsMeet (List.range' 1 17) (cyclic 17 1) (cyclic 17 9) :=
  (quorums_meet_iff (by decide) tabled_cyclic_seventeen.1 tabled_cyclic_seventeen.2).2
    (by decide +kernel)

/-- Eighteen voters: nodes 1 and 10 each accept nine votes, and none of them is the same. -/
theorem quorums_disjoint :
    Tabled (List.range' 1 18) 1 (cyclic 18 1) ∧ Tabled (List.range' 1 18) 10 (cyclic 18 10) ∧
      voteQuorumOk { cyclic 18 1 with votesGranted := List.range' 1 9 } = true ∧
      voteQuorumOk { cyclic 18 10 with votesGranted := List.range' 10 9 } = true ∧
      ∀ v, v ∈ List.range' 1 9 → v ∉ List.range' 10 9 := by
  refine ⟨?_, ?_, by decide +kernel, by decide +kernel, by decide⟩
  all_goals exact tabled_cyclic (by decide) (by decide)

/-! ## Joint configurations -/

/-- The node is in the joint configuration from `old` to `new`. -/
structure Joint (old new : List Nat) (r : Raft) : Prop where
  voters : (voters r).Perm new
  outgoing : r.mem.outgoing.Perm old
  inJoint : cetcdRaftInJoint r = true
  old_le : old.length ≤ maxPeers
  new_le : new.length ≤ maxPeers

/-- The node is in the configuration `C` alone. -/
structure Alone (C : List Nat) (r : Raft) : Prop where
  voters : (voters r).Perm C
  outgoing : r.mem.outgoing = []
  card_le : C.length ≤ maxPeers

section

variable {old new C : List Nat} {r b : Raft} {Q Q' : Nat → Prop}

lemma Quorum.majority_voters (h : Quorum r Q) (hperm : (voters r).Perm C)
    (hlen : C.length ≤ maxPeers) : Majority C Q := by
  have hmaj := h.majority
  rw [incoming_eq_take, take_of_length_le (hperm.length_eq.trans_le hlen)] at hmaj
  exact hmaj.perm hperm

lemma Joint.majorities (h : Joint old new r) (hQ : Quorum r Q) :
    Majority old Q ∧ Majority new Q := by
  have hne : r.mem.outgoing ≠ [] := by
    intro hnil
    have hin := h.inJoint
    unfold cetcdRaftInJoint at hin
    rw [hnil] at hin
    cases hin
  exact ⟨(hQ.majority_outgoing hne (h.outgoing.length_eq.trans_le h.old_le)).perm h.outgoing,
    hQ.majority_voters h.voters h.new_le⟩

/-- Every quorum of the joint configuration holds a majority of either voter set, so it meets every
quorum of one of the two alone. -/
theorem joint_quorums_overlap (h : Joint old new r) (hQ : Quorum r Q) :
    Majority old Q ∧ Majority new Q ∧ (∀ b Q', Alone old b → Quorum b Q' → ∃ v ∈ old, Q v ∧ Q' v) ∧
      (∀ b Q', Alone new b → Quorum b Q' → ∃ v ∈ new, Q v ∧ Q' v) := by
  obtain ⟨hold, hnew⟩ := h.majorities hQ
  refine ⟨hold, hnew, fun b Q' hb hQ' => ?_, fun b Q' hb hQ' => ?_⟩
  · exact hold.inter (hQ'.majority_voters hb.voters hb.card_le)
  · exact hnew.inter (hQ'.majority_voters hb.voters hb.card_le)

end

/-- Node 1 of the voters `1`, `2`, `3` after it has entered the change that removes node 3. -/
def leavingThree : Raft :=
  cetcdRaftRemovePeer ((cetcdRaftEnterJoint (cyclic 3 1)).getD default) 3

theorem joint_quorums_overlap_three :
    Joint [1, 2, 3] [1, 2] leavingThree ∧ Quorum leavingThree (fun v => v ∈ [1, 2]) ∧
      Majority [1, 2, 3] (fun v => v ∈ [1, 2]) ∧ Majority [1, 2] (fun v => v ∈ [1, 2]) ∧
      (∀ b Q', Alone [1, 2, 3] b → Quorum b Q' → ∃ v ∈ [1, 2, 3], v ∈ [1, 2] ∧ Q' v) ∧
      (∀ b Q', Alone [1, 2] b → Quorum b Q' → ∃ v ∈ [1, 2], v ∈ [1, 2] ∧ Q' v) := by
  have hjoint : Joint [1, 2, 3] [1, 2] leavingThree :=
    ⟨by decide, by decide, by decide, by decide, by decide⟩
  have hquorum : Quorum leavingThree (fun v => v ∈ [1, 2]) := .votes [1, 2] (by decide)
  exact ⟨hjoint, hquorum, joint_quorums_overlap hjoint hquorum⟩

end Cetcd.Member
