import Cetcd.Protocol.Ghost
import Cetcd.Cluster.Replay

/-!
# Election safety

A leader was voted for by a majority in its own term, and nobody votes twice in a term. The code
counts a granting response whatever its term is; the argument needs `FreshVote`, and without it two
leaders of one term can be reached.
-/

namespace Cetcd
namespace Protocol

open Lib Raft List Function Ghost

/-! ## Who leads -/

structure NodeBase (g : Ghost) (i : Nat) (v : View) : Prop where
  id : v.id = i
  lead : v.role = .leader → g.led i v.term
  led : ∀ t, g.led i t → 1 ≤ t ∧ t ≤ v.term ∧ (t = v.term → v.role ≠ .candidate)
  cand : v.role = .candidate → 1 ≤ v.term

/-- The part of the invariants that rests on no condition. -/
structure Base (V : Voters) (nodes : Nat → View) (net : Msg → Prop) (g : Ghost) : Prop where
  node : ∀ i ∈ V.ids, NodeBase g i (nodes i)
  sender : ∀ m, net m → m.sender ∈ V.ids
  led : ∀ i t, g.led i t → i ∈ V.ids

section

variable {K : Checks} {V : Voters} {nodes : Nat → View} {net : Msg → Prop} {g : Ghost} {i : Nat}
  {mv : Move} {v' : View} {v : View}

lemma MoveStep.sender_of_out (h : MoveStep K V net v mv v') {m : Msg} (hm : m ∈ v'.out) :
    m ∈ v.out ∨ m.sender = v.id := by
  cases h with
  | say hsay =>
    obtain hm | hm := mem_append.1 hm
    · exact .inl hm
    rw [mem_singleton.1 hm]
    exact .inr hsay.1
  | grant | accept | install =>
    obtain hm | hm := mem_append.1 hm
    · exact .inl hm
    rw [mem_singleton.1 hm]
    exact .inr rfl
  | settle => cases hm
  | _ => exact .inl hm

lemma NodeBase.own (h : MoveStep K V net v mv v') (hb : NodeBase g i v) :
    NodeBase (g.after i v mv) i v' := by
  -- apart from a win the record of leaders is what it was
  have hled : ∀ t, (g.after i v mv).led i t → mv = .win ∧ t = v.term ∨ g.led i t := by
    intro t ht
    obtain ht | ⟨hwin, _, hterm⟩ := led_of_after ht
    · exact .inr ht
    · exact .inl ⟨hwin, hterm⟩
  cases h with
  | stepDown hle =>
    refine ⟨hb.id, fun h => (by cases h), ?_, fun h => (by cases h)⟩
    intro t ht
    have := hb.led t ht
    exact ⟨this.1, this.2.1.trans hle, fun _ h => (by cases h)⟩
  | preCampaign =>
    refine ⟨hb.id, fun h => (by cases h), ?_, fun h => (by cases h)⟩
    intro t ht
    have := hb.led t ht
    exact ⟨this.1, this.2.1, fun _ h => (by cases h)⟩
  | campaign =>
    refine ⟨hb.id, fun h => (by cases h), ?_, fun _ => Nat.le_add_left 1 _⟩
    intro t ht
    obtain ⟨hwin, _⟩ | ht := hled t ht
    · cases hwin
    have := hb.led t ht
    dsimp only
    exact ⟨this.1, by omega, fun h => by omega⟩
  | grant =>
    refine ⟨hb.id, fun h => led_after _ (hb.lead h), ?_, hb.cand⟩
    intro t ht
    obtain ⟨hwin, _⟩ | ht := hled t ht
    · cases hwin
    · exact hb.led t ht
  | win hcand =>
    refine ⟨hb.id, fun _ => .inr ⟨rfl, rfl⟩, ?_, fun h => (by cases h)⟩
    intro t ht
    obtain ⟨_, rfl⟩ | ht := hled t ht
    · exact ⟨hb.cand hcand, le_rfl, fun _ h => (by cases h)⟩
    have := hb.led t ht
    exact ⟨this.1, this.2.1, fun _ h => (by cases h)⟩
  | _ => exact ⟨hb.id, hb.lead, hb.led, hb.cand⟩

lemma NodeBase.other {j : Nat} {w : View} (hji : j ≠ i) (hb : NodeBase g j w) :
    NodeBase (g.after i v mv) j w := by
  refine ⟨hb.id, fun h => led_after mv (hb.lead h), ?_, hb.cand⟩
  intro t ht
  obtain ht | ⟨_, hj, _⟩ := led_of_after ht
  · exact hb.led t ht
  · exact absurd hj hji

lemma Base.init (hpris : ∀ i ∈ V.ids, Member V i (nodes i).conf (nodes i).mem ∧
    Pristine (nodes i)) (hnet : ∀ m, ¬ net m) : Base V nodes net Ghost.none := by
  refine ⟨?_, fun m hm => absurd hm (hnet m), fun _ _ h => h.elim⟩
  intro i hi
  obtain ⟨hmem, hp⟩ := hpris i hi
  refine ⟨hmem.id, ?_, fun _ h => h.elim, ?_⟩
  all_goals
    rw [hp.role]
    intro h
    cases h

lemma Base.step (hi : i ∈ V.ids) (hout : ∀ m ∈ (nodes i).out, net m)
    (h : MoveStep K V net (nodes i) mv v') (hb : Base V nodes net g) :
    Base V (update nodes i v') (fun m => net m ∨ m ∈ v'.out) (g.next nodes i mv) := by
  refine ⟨?_, ?_, ?_⟩
  · intro j hj
    by_cases hji : j = i
    · subst hji
      rw [update_self]
      exact (hb.node j hj).own h
    rw [update_of_ne hji]
    exact (hb.node j hj).other hji
  · rintro m (hm | hm)
    · exact hb.sender m hm
    obtain hm | hm := h.sender_of_out hm
    · exact hb.sender m (hout m hm)
    rw [hm, (hb.node i hi).id]
    exact hi
  intro j t hjt
  obtain hjt | ⟨_, rfl, _⟩ := led_of_after hjt
  · exact hb.led j t hjt
  · exact hi

end

/-! ## Votes -/

structure NodeVotes (g : Ghost) (i : Nat) (v : View) : Prop where
  voted : g.voted i v.term = v.vote
  above : ∀ t, v.term < t → g.voted i t = 0
  cand : v.role = .candidate → ∀ x ∈ v.votes, g.voted x v.term = i

/-- A granting response tells of a vote that was cast. -/
def GrantOk (g : Ghost) (m : Msg) : Prop :=
  m.type = .voteResp → m.reject = 0 → g.voted m.sender m.term = m.dest ∧ m.dest ≠ 0

structure Votes (V : Voters) (nodes : Nat → View) (net : Msg → Prop) (g : Ghost) : Prop where
  node : ∀ i ∈ V.ids, NodeVotes g i (nodes i)
  grant : ∀ m, net m → GrantOk g m
  elected : ∀ j t, g.led j t → Majority V.ids (fun x => g.voted x t = j)

section

variable {K : Checks} {V : Voters} {nodes : Nat → View} {net : Msg → Prop} {g : Ghost} {i : Nat}
  {mv : Move} {v' : View} {j t x : Nat} {v : View}

lemma update_row {α : Type} (f : Nat → Nat → α) (y : α) (t' : Nat) :
    update f i (update (f i) t y) j t' = if j = i ∧ t' = t then y else f j t' := by
  by_cases hj : j = i
  · subst hj
    simp [update_apply]
  · simp [hj]

lemma Ghost.voted_cast {t' : Nat} : (g.cast i t x).voted j t' =
      if g.voted i t = 0 ∧ j = i ∧ t' = t then x else g.voted j t' := by
  unfold Ghost.cast
  by_cases h0 : g.voted i t = 0 <;> simp [h0, update_row]

lemma Ghost.voted_after (mv : Move) (h : g.voted x t ≠ 0 ∨ x ≠ i) :
    (g.after i v mv).voted x t = g.voted x t := by
  have hcast : ∀ t' y, (g.cast i t' y).voted x t = g.voted x t := by
    intro t' y
    rw [voted_cast, if_neg]
    rintro ⟨h0, rfl, rfl⟩
    exact h.elim (· h0) (· rfl)
  cases mv with
  | campaign | grant m => exact hcast _ _
  | _ => rfl

lemma NodeVotes.own (hK : K.votes) (hi : i ≠ 0) (hid : v.id = i) (hgrant : ∀ m, net m → GrantOk g m)
    (h : MoveStep K V net v mv v') (hv : NodeVotes g i v) : NodeVotes (g.after i v mv) i v' := by
  cases h with
  | @stepDown t hle =>
    refine ⟨?_, ?_, fun h => (by cases h)⟩
    · change g.voted i t = if v.term < t then 0 else v.vote
      split
      · rename_i hlt
        exact hv.above t hlt
      rename_i hnot
      rw [show t = v.term by omega]
      exact hv.voted
    intro t' ht'
    exact hv.above t' (lt_of_le_of_lt hle ht')
  | preCampaign | win => exact ⟨hv.voted, hv.above, fun h => (by cases h)⟩
  | preRecord hpre =>
    refine ⟨hv.voted, hv.above, ?_⟩
    intro h
    change v.role = .candidate at h
    rw [hpre] at h
    cases h
  | campaign =>
    -- no vote was cast in the new term, so this one is
    have hnew := hv.above (v.term + 1) (Nat.lt_succ_self _)
    have hself : (g.cast i (v.term + 1) v.id).voted i (v.term + 1) = v.id := by
      rw [voted_cast, if_pos ⟨hnew, rfl, rfl⟩]
    refine ⟨hself, ?_, ?_⟩
    · intro t ht
      dsimp only at ht
      change (g.cast i (v.term + 1) v.id).voted i t = 0
      rw [voted_cast, if_neg (by omega)]
      exact hv.above t (by omega)
    intro _ x hx
    rw [mem_singleton.1 hx, hid]
    exact hself.trans hid
  | @grant m hm _ _ hfree _ =>
    have hself : (g.cast i v.term m.sender).voted i v.term = m.sender := by
      rw [voted_cast]
      split
      · rfl
      rename_i hnot
      rw [hv.voted]
      obtain h0 | heq := hfree
      · exact absurd ⟨hv.voted.trans h0, rfl, rfl⟩ hnot
      · exact heq
    refine ⟨hself, ?_, ?_⟩
    · intro t ht
      change v.term < t at ht
      change (g.cast i v.term m.sender).voted i t = 0
      rw [voted_cast, if_neg (by omega)]
      exact hv.above t ht
    intro hcand x hx
    have hx' : g.voted x v.term = i := hv.cand hcand x hx
    exact (voted_after (.grant m) (.inl (hx' ▸ hi))).trans hx'
  | @record m hm hdest htype hacc hcand hle hfresh =>
    refine ⟨hv.voted, hv.above, ?_⟩
    intro _ x hx
    obtain hx | hx := mem_append.1 hx
    · exact hv.cand hcand x hx
    rw [mem_singleton.1 hx]
    have hterm : m.term = v.term := by
      have := hfresh hK
      omega
    rw [← hterm, ← hid, ← hdest]
    exact (hgrant m hm htype hacc).1
  | _ => exact ⟨hv.voted, hv.above, hv.cand⟩

lemma NodeVotes.other {w : View} (hj : j ≠ 0) (hji : j ≠ i) (hw : NodeVotes g j w) :
    NodeVotes (g.after i v mv) j w := by
  refine ⟨?_, ?_, ?_⟩
  · rw [voted_after mv (.inr hji)]
    exact hw.voted
  · intro t ht
    rw [voted_after mv (.inr hji)]
    exact hw.above t ht
  intro hcand x hx
  have := hw.cand hcand x hx
  rw [voted_after mv (.inl (by rw [this]; exact hj)), this]

lemma GrantOk.after (mv : Move) {m : Msg} (h : GrantOk g m) : GrantOk (g.after i v mv) m := by
  intro htype hacc
  have := h htype hacc
  rw [voted_after mv (.inl (by rw [this.1]; exact this.2))]
  exact this

lemma GrantOk.out (hid : (nodes i).id = i) (hsender : ∀ m, net m → m.sender ≠ 0)
    (hold : ∀ m, net m → GrantOk g m) (hout : ∀ m ∈ (nodes i).out, net m)
    (h : MoveStep K V net (nodes i) mv v')
    (hv : NodeVotes (g.next nodes i mv) i v') {m : Msg} (hm : m ∈ v'.out) :
    GrantOk (g.next nodes i mv) m := by
  -- either the message was there before, or it is the one the move adds
  have hcases : ∀ m', v'.out = (nodes i).out ++ [m'] → GrantOk (g.next nodes i mv) m' →
      GrantOk (g.next nodes i mv) m := by
    intro m' heq hm'
    rw [heq] at hm
    obtain hm | hm := mem_append.1 hm
    · exact (hold m (hout m hm)).after mv
    rw [mem_singleton.1 hm]
    exact hm'
  cases h with
  | @say m' hsay =>
    refine hcases m' rfl ?_
    intro htype hacc
    have := hsay.2
    rw [htype] at this
    exact absurd hacc this
  | @grant m' hm' =>
    refine hcases _ rfl ?_
    intro _ _
    refine ⟨?_, hsender m' hm'⟩
    have := hv.voted
    rw [hid]
    exact this
  | accept | install => exact hcases _ rfl (fun htype => (by cases htype))
  | settle => cases hm
  | _ => exact (hold m (hout m hm)).after _

lemma Votes.step (hK : K.votes) (hi : i ∈ V.ids) (hout : ∀ m ∈ (nodes i).out, net m)
    (h : MoveStep K V net (nodes i) mv v') (hb : Base V nodes net g) (hv : Votes V nodes net g) :
    Votes V (update nodes i v') (fun m => net m ∨ m ∈ v'.out)
      (g.next nodes i mv) := by
  have hne : ∀ x ∈ V.ids, x ≠ 0 := fun x hx h0 => V.nonzero (h0 ▸ hx)
  have hsender : ∀ m, net m → m.sender ≠ 0 := fun m hm => hne _ (hb.sender m hm)
  have hid := (hb.node i hi).id
  have hown := (hv.node i hi).own hK (hne i hi) hid hv.grant h
  refine ⟨?_, ?_, ?_⟩
  · intro j hj
    by_cases hji : j = i
    · subst hji
      rw [update_self]
      exact hown
    rw [update_of_ne hji]
    exact (hv.node j hj).other (hne j hj) hji
  · rintro m (hm | hm)
    · exact (hv.grant m hm).after mv
    · exact GrantOk.out hid hsender hv.grant hout h hown hm
  intro j t hjt
  obtain hjt | ⟨rfl, rfl, rfl⟩ := led_of_after hjt
  · refine (hv.elected j t hjt).mono ?_
    intro x _ hx
    rw [voted_after mv (.inl (by rw [hx]; exact hne j (hb.led j t hjt))), hx]
  cases h with
  | win hcand hmaj =>
    exact hmaj.mono (fun x _ hx => (hv.node _ hi).cand hcand x hx)

def OneLeader (g : Ghost) : Prop := ∀ i j t, g.led i t → g.led j t → i = j

lemma Votes.oneLeader (hv : Votes V nodes net g) : OneLeader g := by
  intro i j t hi hj
  obtain ⟨x, _, hxi, hxj⟩ := (hv.elected i t hi).inter (hv.elected j t hj)
  exact hxi.symm.trans hxj

lemma Votes.init (hpris : ∀ i ∈ V.ids, Member V i (nodes i).conf (nodes i).mem ∧
    Pristine (nodes i)) (hnet : ∀ m, ¬ net m) : Votes V nodes net Ghost.none := by
  refine ⟨?_, fun m hm => absurd hm (hnet m), fun _ _ h => h.elim⟩
  intro i hi
  have hp := (hpris i hi).2
  refine ⟨hp.vote.symm, fun _ _ => rfl, ?_⟩
  rw [hp.role]
  intro h
  cases h

lemma kept_votes (hK : K.votes) : Kept K V
    (fun nodes net g => Base V nodes net g ∧ Votes V nodes net g)
    (fun g i v => v.role = .leader → g.led i v.term) (fun _ _ _ => True) where
  init hpris hnet := ⟨Base.init hpris hnet, Votes.init hpris hnet⟩
  stable _ _ _ _ _ _ hi hout h hJ := ⟨hJ.1.step hi hout h, hJ.2.step hK hi hout h hJ.1⟩
  state hi hJ := (hJ.1.node _ hi).lead
  packet _ _ _ := trivial
  state_step _ _ _ _ _ _ hA hlead := led_after _ (hA hlead)
  packet_step _ _ _ _ _ _ _ := trivial

end

end Protocol

namespace Cluster

open Lib Raft Protocol

/-- Only the freshness of votes is checked. -/
def votesOnly : Checks := ⟨True, False, False, False, False⟩

lemma leadersAgree_of_freshVote {V : Voters} {hist : List Cluster}
    (hrun : Run V (onDelivery FreshVote) hist) : LeadersAgree V hist := by
  intro c₁ h₁ c₂ h₂ i hi j hj hlead₁ hlead₂ hterm
  obtain ⟨c, rest, rfl⟩ := hrun.exists_cons
  have hchecked : Run V votesOnly.ok (c :: rest) :=
    run_checked (fun r m h => ⟨fun _ => h, False.elim, False.elim, False.elim, False.elim,
      False.elim, False.elim⟩) hrun
  obtain ⟨_, g, hnow, hstates, _, _⟩ := (kept_votes trivial).run hchecked
  have hled₁ : g.led i (c₁.node i).term := hstates c₁ h₁ i hi hlead₁
  have hled₂ : g.led j (c₂.node j).term := hstates c₂ h₂ j hj hlead₂
  rw [hterm] at hled₁
  exact hnow.2.oneLeader i j _ hled₁ hled₂

/-- Where every counted vote is of the candidate's own term, no two nodes lead the same term. -/
theorem one_leader_per_term {V : Voters} {hist : List Cluster}
    (hrun : Run V (onDelivery FreshVote) hist) {c₁ c₂ : Cluster} (h₁ : c₁ ∈ hist) (h₂ : c₂ ∈ hist)
    {i j : Nat} (hi : i ∈ V.ids) (hj : j ∈ V.ids) (hlead₁ : (c₁.node i).role = .leader)
    (hlead₂ : (c₂.node j).role = .leader) (hterm : (c₁.node i).term = (c₂.node j).term) :
    i = j :=
  leadersAgree_of_freshVote hrun c₁ h₁ c₂ h₂ i hi j hj hlead₁ hlead₂ hterm

/-- Node 1 campaigns, gets the vote of node 2 and sends heartbeats. -/
def electFirst : List (Cluster → Action) := [call 1 .hup, nth 0, nth 2, call 1 .beat]

theorem one_leader_per_term_elected :
    Run three (onDelivery FreshVote) (replay [] bootThree electFirst) ∧
      ((finish bootThree (electFirst.take 3)).node 1).role = .leader ∧
      ((finish bootThree electFirst).node 1).role = .leader ∧ (1 : Nat) = 1 := by
  have hrun : Run three (onDelivery FreshVote) (replay [] bootThree electFirst) :=
    run_replay initial_bootThree (by decide +kernel)
  have hlead₁ : ((finish bootThree (electFirst.take 3)).node 1).role = .leader := by
    decide +kernel
  have hlead₂ : ((finish bootThree electFirst).node 1).role = .leader := by decide +kernel
  exact ⟨hrun, hlead₁, hlead₂,
    one_leader_per_term hrun (finish_take_mem_replay _ 3 _ _) (finish_mem_replay _ _ _)
      (by decide) (by decide) hlead₁ hlead₂ (by decide +kernel)⟩

/-- Node 1 campaigns twice; node 2's vote of the first campaign is under way when node 3 is elected
in the second term with node 2's vote. Then it arrives. -/
def staleVote : List (Cluster → Action) :=
  [call 1 .hup, nth 0, call 1 .hup, call 3 .hup, call 3 .hup, nth 8, nth 9, nth 2]

/-- Without the condition a vote of an earlier term makes a second leader. -/
theorem two_leaders_of_one_term :
    ∃ hist, Run three anyStep hist ∧ ∃ c ∈ hist, 1 ∈ three.ids ∧ 3 ∈ three.ids ∧
      (c.node 1).role = .leader ∧ (c.node 3).role = .leader ∧ (c.node 1).term = (c.node 3).term := by
  refine ⟨replay [] bootThree staleVote, run_replay initial_bootThree (by decide +kernel),
    finish bootThree staleVote, finish_mem_replay _ _ _, ?_⟩
  decide +kernel

end Cluster
end Cetcd
