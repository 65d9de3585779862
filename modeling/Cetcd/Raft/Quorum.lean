import Cetcd.Lib.Majority
import Cetcd.Raft.Node

/-!
# What the two quorum computations find

`voteQuorumOk` counts votes; `majorityMatchIds` sorts the match indices and picks the one at the
quorum position. Both stand for a majority of the voters.
-/

namespace Cetcd.Raft

open Lib List

/-! ## The exchange sort -/

lemma exchangePass_perm (x : Nat) (ys : List Nat) :
    ((exchangePass x ys).1 :: (exchangePass x ys).2).Perm (x :: ys) := by
  induction ys generalizing x with
  | nil => exact List.Perm.refl _
  | cons y ys ih =>
    unfold exchangePass
    by_cases hxy : x < y
    · rw [if_pos hxy]
      exact (List.Perm.swap _ _ _).trans ((ih y).cons x)
    rw [if_neg hxy]
    exact (List.Perm.swap _ _ _).trans (((ih x).cons y).trans (List.Perm.swap _ _ _))

lemma le_exchangePass (x : Nat) (ys : List Nat) :
    x ≤ (exchangePass x ys).1 ∧ ∀ z ∈ (exchangePass x ys).2, z ≤ (exchangePass x ys).1 := by
  induction ys generalizing x with
  | nil => simp [exchangePass]
  | cons y ys ih =>
    unfold exchangePass
    by_cases hxy : x < y
    · rw [if_pos hxy]
      obtain ⟨hy, hrest⟩ := ih y
      refine ⟨by dsimp only; omega, ?_⟩
      intro z hz
      obtain rfl | hz := mem_cons.1 hz
      · dsimp only
        omega
      · exact hrest z hz
    rw [if_neg hxy]
    obtain ⟨hx, hrest⟩ := ih x
    refine ⟨hx, ?_⟩
    intro z hz
    obtain rfl | hz := mem_cons.1 hz
    · dsimp only
      omega
    · exact hrest z hz

lemma exchangeSort_perm (n : Nat) (xs : List Nat) : (exchangeSort n xs).Perm xs := by
  induction n generalizing xs with
  | zero => exact List.Perm.refl _
  | succ n ih =>
    cases xs with
    | nil => exact List.Perm.refl _
    | cons x xs => exact ((ih _).cons _).trans (exchangePass_perm x xs)

lemma exchangeSort_sorted (n : Nat) (xs : List Nat) (h : xs.length ≤ n) :
    (exchangeSort n xs).Pairwise (fun a b => b ≤ a) := by
  induction n generalizing xs with
  | zero =>
    have : xs = [] := length_eq_zero_iff.1 (by omega)
    simp [this, exchangeSort]
  | succ n ih =>
    cases xs with
    | nil => simp [exchangeSort]
    | cons x xs =>
      have hlen := (exchangePass_perm x xs).length_eq
      simp only [length_cons] at hlen h
      refine pairwise_cons.2 ⟨?_, ih _ (by omega)⟩
      intro z hz
      exact (le_exchangePass x xs).2 z ((exchangeSort_perm n _).mem_iff.1 hz)

variable {xs ids : List Nat} {k θ : Nat}

lemma lt_countP_of_sorted (h : xs.Pairwise (fun a b => b ≤ a)) (hk : k < xs.length) :
    k < xs.countP (fun x => decide (xs.getD k 0 ≤ x)) := by
  have hget : xs.getD k 0 = xs[k] := by simp [hk]
  have hall : (xs.take (k + 1)).countP (fun x => decide (xs.getD k 0 ≤ x)) = k + 1 := by
    rw [countP_eq_length.2]
    · rw [length_take]
      omega
    intro x hx
    obtain ⟨j, hj, rfl⟩ := mem_take_iff_getElem.1 hx
    rw [hget, decide_eq_true_iff]
    obtain hjk | hjk := Nat.lt_or_ge j k
    · exact pairwise_iff_getElem.1 h j k (by omega) hk hjk
    have : j = k := by omega
    subst this
    exact le_rfl
  have hle := (take_sublist (k + 1) xs).countP_le (p := fun x => decide (xs.getD k 0 ≤ x))
  omega

lemma le_getD_of_lt_countP (h : xs.Pairwise (fun a b => b ≤ a))
    (hk : k < xs.countP (fun x => decide (θ ≤ x))) : θ ≤ xs.getD k 0 := by
  have hlen : k < xs.length := hk.trans_le countP_le_length
  have hget : xs.getD k 0 = xs[k] := by simp [hlen]
  by_contra hlt
  -- then only the first `k` elements can reach it
  have hrest : (xs.drop k).countP (fun x => decide (θ ≤ x)) = 0 := by
    rw [countP_eq_zero]
    intro x hx
    obtain ⟨j, hj, rfl⟩ := mem_drop_iff_getElem.1 hx
    have hle : xs[k + j] ≤ xs[k] := by
      obtain rfl | hpos := Nat.eq_zero_or_pos j
      · exact le_rfl
      · exact pairwise_iff_getElem.1 h k (k + j) hlen (by omega) (by omega)
    rw [decide_eq_true_iff]
    omega
  have hsplit : (xs.take k ++ xs.drop k).countP (fun x => decide (θ ≤ x)) = _ + _ :=
    countP_append
  rw [take_append_drop, hrest] at hsplit
  have hle := countP_le_length (p := fun x => decide (θ ≤ x)) (l := xs.take k)
  rw [length_take] at hle
  omega

/-! ## Majorities -/

lemma majority_majorityMatchIds (r : Raft) (hne : ids ≠ []) (hlen : ids.length ≤ maxPeers) :
    Majority ids (fun x => majorityMatchIds r ids ≤ matchOf r x) := by
  refine ⟨fun x => decide (majorityMatchIds r ids ≤ matchOf r x), ?_, fun x _ h => by simpa using h⟩
  have hpos : 0 < ids.length := length_pos_iff.2 hne
  have hperm := exchangeSort_perm (ids.map (matchOf r)).length (ids.map (matchOf r))
  have heq : majorityMatchIds r ids =
      (exchangeSort (ids.map (matchOf r)).length (ids.map (matchOf r))).getD
        (quorum ids.length - 1) 0 := by
    unfold majorityMatchIds
    rw [if_neg hne, take_of_length_le hlen]
    simp only [length_map]
  have hcount := lt_countP_of_sorted (exchangeSort_sorted _ (ids.map (matchOf r)) le_rfl)
    (k := quorum ids.length - 1)
    (by rw [hperm.length_eq, length_map]; unfold quorum; omega)
  rw [hperm.countP_eq, countP_map, ← heq] at hcount
  unfold quorum at hcount
  change _ < List.countP (fun x => decide (majorityMatchIds r ids ≤ matchOf r x)) ids at hcount
  omega

lemma le_majorityMatchIds (r : Raft) (hlen : ids.length ≤ maxPeers)
    (h : quorum ids.length ≤ ids.countP (fun x => decide (θ ≤ matchOf r x))) :
    θ ≤ majorityMatchIds r ids := by
  have hne : ids ≠ [] := by
    rintro rfl
    exact absurd h (show ¬ 1 ≤ 0 by decide)
  have hperm := exchangeSort_perm (ids.map (matchOf r)).length (ids.map (matchOf r))
  unfold majorityMatchIds
  rw [if_neg hne, take_of_length_le hlen]
  refine le_getD_of_lt_countP (exchangeSort_sorted _ _ le_rfl) ?_
  rw [hperm.countP_eq, countP_map, length_map]
  refine lt_of_lt_of_le ?_ h
  unfold quorum
  omega

/-- What a majority has reached is the largest index that more than half of the ids have. -/
theorem majority_match_largest (r : Raft) (ids : List Nat) (hne : ids ≠ [])
    (hlen : ids.length ≤ maxPeers) :
    IsGreatest {m | ids.length < 2 * ids.countP (fun x => m ≤ matchOf r x)}
        (majorityMatchIds r ids) ∧
      matchOf r r.conf.id = r.rlog.lastIndex ∧
      ∀ x, x ≠ r.conf.id → ¬ hasPeer r x → matchOf r x = 0 := by
  refine ⟨⟨?_, fun m hm => ?_⟩, if_pos rfl, fun x hx hpeer => ?_⟩
  · obtain ⟨p, hcount, hp⟩ := majority_majorityMatchIds r hne hlen
    have hle := countP_mono_left (l := ids) fun x hx hpx => decide_eq_true (hp x hx hpx)
    exact hcount.trans_le (by omega)
  · refine le_majorityMatchIds r hlen ?_
    have hcount : ids.length < 2 * _ := hm
    unfold quorum
    omega
  · -- who is not a peer has no slot
    have hslot : peerSlot r x = none := findIdx?_eq_none_iff.2 fun p hp =>
      eq_false_of_ne_true fun hid => hpeer (any_eq_true.2 ⟨p, mem_of_mem_take hp, hid⟩)
    unfold matchOf
    rw [if_neg hx, hslot]

/-- Two peers, with the matches 5 and 7. -/
def twoMatches : Raft :=
  { (default : Raft) with
    conf := { (default : Conf) with id := 1 }
    mem := { (default : Membership) with peers := [⟨2, false⟩, ⟨3, false⟩] }
    progress :=
      ((default : Lib.ZeroArray PeerProgress).write 0 { matchIdx := 5 }).write 1 { matchIdx := 7 } }

theorem majority_match_largest_three : majorityMatchIds twoMatches [1, 2, 3] = 5 ∧
    IsGreatest {m | 3 < 2 * [1, 2, 3].countP (fun x => m ≤ matchOf twoMatches x)}
      (majorityMatchIds twoMatches [1, 2, 3]) :=
  ⟨by decide +kernel, (majority_match_largest twoMatches [1, 2, 3] (by decide) (by decide)).1⟩

section

variable {r : Raft}

lemma voteQuorumOk_iff : voteQuorumOk r ↔
    incoming r ≠ [] ∧ quorum (incoming r).length ≤ (incoming r).countP (voteFrom r) ∧
      (r.mem.outgoing ≠ [] → quorum r.mem.outgoing.length ≤ r.mem.outgoing.countP (voteFrom r)) := by
  have hlen : (incoming r).length = 0 ↔ incoming r = [] := length_eq_zero_iff
  unfold voteQuorumOk
  dsimp only
  rw [← countP_eq_length_filter, ← countP_eq_length_filter]
  split
  · rename_i hno
    refine iff_of_false Bool.false_ne_true ?_
    rintro ⟨hne, hq, _⟩
    obtain hzero | hlt := hno
    · exact hne (hlen.1 hzero)
    · omega
  rename_i hq
  obtain ⟨hzero, hge⟩ := not_or.1 hq
  have hinc : incoming r ≠ [] := fun h => hzero (hlen.2 h)
  split
  · rename_i hout
    exact iff_of_true rfl ⟨hinc, Nat.le_of_not_lt hge, fun h => absurd hout h⟩
  rename_i hout
  rw [decide_eq_true_iff]
  exact ⟨fun h => ⟨hinc, Nat.le_of_not_lt hge, fun _ => h⟩, fun h => h.2.2 hout⟩

lemma majority_of_quorum_le {ids : List Nat} (h : quorum ids.length ≤ ids.countP (voteFrom r)) :
    Majority ids (fun x => x ∈ r.votesGranted) := by
  refine ⟨voteFrom r, ?_, ?_⟩
  · unfold quorum at h
    omega
  intro x _ hx
  simpa [voteFrom] using hx

lemma majorities_of_voteQuorumOk (h : voteQuorumOk r) :
    Majority (incoming r) (fun x => x ∈ r.votesGranted) ∧
      (r.mem.outgoing ≠ [] → Majority r.mem.outgoing (fun x => x ∈ r.votesGranted)) := by
  obtain ⟨_, hinc, hout⟩ := voteQuorumOk_iff.1 h
  exact ⟨majority_of_quorum_le hinc, fun hne => majority_of_quorum_le (hout hne)⟩

lemma incoming_length_le : (incoming r).length ≤ maxPeers := by
  unfold incoming
  rw [length_take]
  exact min_le_left _ _

lemma majorities_of_advance (h : (maybeAdvanceCommit r).commit ≠ r.commit) :
    Majority (incoming r) (fun x => (maybeAdvanceCommit r).commit ≤ matchOf r x) ∧
      (r.mem.outgoing ≠ [] → r.mem.outgoing.length ≤ maxPeers →
        Majority r.mem.outgoing (fun x => (maybeAdvanceCommit r).commit ≤ matchOf r x)) := by
  unfold maybeAdvanceCommit at h ⊢
  dsimp only at h ⊢
  split at h
  · exact absurd rfl h
  rename_i hrole
  rw [if_neg hrole]
  split at h
  · exact absurd rfl h
  rename_i hlen
  have hne : incoming r ≠ [] := fun hnil => hlen (length_eq_zero_iff.2 hnil)
  have hinc := majority_majorityMatchIds r hne incoming_length_le
  rw [if_neg hlen]
  generalize hnew : (if r.mem.outgoing ≠ [] then _ else _ : Nat) = new at h ⊢
  split at h
  swap
  · exact absurd rfl h
  rename_i hadv
  rw [if_pos hadv]
  -- the new commit index is below both medians
  have hle : new ≤ majorityMatchIds r (incoming r) ∧
      (r.mem.outgoing ≠ [] → new ≤ majorityMatchIds r r.mem.outgoing) := by
    rw [← hnew]
    split_ifs with hout hlt
    · exact ⟨hlt.le, fun _ => le_rfl⟩
    · exact ⟨le_rfl, fun _ => Nat.le_of_not_lt hlt⟩
    · exact ⟨le_rfl, fun h => absurd h hout⟩
  refine ⟨hinc.mono fun x _ hx => hle.1.trans hx, fun hout hcard => ?_⟩
  exact (majority_majorityMatchIds r hout hcard).mono fun x _ hx => (hle.2 hout).trans hx

lemma le_commit_maybeAdvanceCommit {θ : Nat} (hrole : r.role = .leader) (hne : incoming r ≠ [])
    (hinc : θ ≤ majorityMatchIds r (incoming r))
    (hout : r.mem.outgoing ≠ [] → θ ≤ majorityMatchIds r r.mem.outgoing)
    (hterm : ∀ i, θ ≤ i → i ≤ majorityMatchIds r (incoming r) → logTermAt r.rlog i = r.term) :
    θ ≤ (maybeAdvanceCommit r).commit := by
  unfold maybeAdvanceCommit
  dsimp only
  rw [if_neg (not_not.2 hrole), if_neg (fun h => hne (length_eq_zero_iff.1 h))]
  generalize hnew : (if r.mem.outgoing ≠ [] then _ else _ : Nat) = new
  have hle : θ ≤ new ∧ new ≤ majorityMatchIds r (incoming r) := by
    rw [← hnew]
    split_ifs with hjoint hlt
    · exact ⟨hout hjoint, hlt.le⟩
    all_goals exact ⟨hinc, le_rfl⟩
  split_ifs with hadv
  · exact hle.1
  by_contra hlt
  exact hadv ⟨by omega, hterm new hle.1 hle.2⟩

end

section

variable {r : Raft} (hlearn : ∀ p ∈ r.mem.peers, p.learner = false)
  (hlen : r.mem.peers.length ≤ maxPeers)

include hlearn in
lemma fromLearner_eq_false (id : Nat) : fromLearner r id = false := by
  unfold fromLearner
  cases hfind : r.mem.peers.find? (fun p => p.id == id) with
  | none => rfl
  | some p => exact hlearn p (mem_of_find?_eq_some hfind)

include hlearn hlen

lemma incoming_eq : incoming r = r.mem.peers.map Peer.id := by
  unfold incoming
  rw [filter_eq_self.2 (fun p hp => by simp [hlearn p hp]), take_of_length_le]
  simpa using hlen

lemma majority_of_voteQuorumOk (h : voteQuorumOk r) :
    Majority (r.mem.peers.map Peer.id) (fun x => x ∈ r.votesGranted) :=
  incoming_eq hlearn hlen ▸ (majorities_of_voteQuorumOk h).1

end

end Cetcd.Raft
