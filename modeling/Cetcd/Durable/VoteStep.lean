import Cetcd.Calls.Strokes

/-!
# What a call does to the vote

`VoteStep` relates a node before and after a call: the term does not fall, a vote stays while the
term stays, a change waits in the pending hard state, and a granted vote is the one on record. It is
read off the strokes of the call.
-/

namespace Cetcd.Durable

open Lib Raft Calls List

/-! ## Two relations -/

/-- The vote for `x` in term `t` is behind the node, or it is the vote on record. -/
def Past (r : Raft) (t x : Nat) : Prop :=
  x ≠ 0 ∧ (t < r.term ∨ (t = r.term ∧ r.vote = x))

def Granting (m : Msg) : Prop := m.type = .voteResp ∧ m.reject = 0

def Campaigning (r : Raft) : Prop := r.role = .candidate ∨ r.role = .leader

structure VoteStep (r r' : Raft) : Prop where
  id : r'.conf.id = r.conf.id
  term : r.term ≤ r'.term
  vote : r'.term = r.term → r.vote ≠ 0 → r'.vote = r.vote
  hs : (r'.pending.hs = r.pending.hs ∧ r'.term = r.term ∧ r'.vote = r.vote) ∨
    ∃ c, r'.pending.hs = some ⟨r'.term, r'.vote, c⟩
  grants : ∀ m ∈ r'.pending.msgs, Granting m → m ∈ r.pending.msgs ∨
    (Past r' m.term m.dest ∧ ∀ x, Past r m.term x → x = m.dest)
  once : ∀ m ∈ r'.pending.msgs, ∀ m' ∈ r'.pending.msgs, Granting m → Granting m' →
    m ∉ r.pending.msgs → m' ∉ r.pending.msgs → m.term = m'.term → m.dest = m'.dest
  stands : r.conf.id ≠ 0 → (Campaigning r → r.vote = r.conf.id) → Campaigning r' → r'.vote = r'.conf.id

section

variable {r r' r'' : Raft}

lemma VoteStep.refl (r : Raft) : VoteStep r r where
  id := rfl
  term := le_rfl
  vote _ _ := rfl
  hs := .inl ⟨rfl, rfl, rfl⟩
  grants _ hm _ := .inl hm
  once _ hm _ _ _ _ hnew := absurd hm hnew
  stands _ hown hs := hown hs

lemma Past.step (h : VoteStep r r') {t x : Nat} (hp : Past r t x) : Past r' t x := by
  obtain ⟨hx, hlt | ⟨rfl, rfl⟩⟩ := hp
  · exact ⟨hx, .inl (hlt.trans_le h.term)⟩
  refine ⟨hx, ?_⟩
  obtain heq | hlt := Nat.eq_or_lt_of_le h.term
  · exact .inr ⟨heq, h.vote heq.symm hx⟩
  · exact .inl hlt

lemma VoteStep.trans (h : VoteStep r r') (h' : VoteStep r' r'') : VoteStep r r'' where
  id := h'.id.trans h.id
  term := h.term.trans h'.term
  vote heq hne := by
    have hmid : r'.term = r.term := le_antisymm (heq ▸ h'.term) h.term
    have hvote := h.vote hmid hne
    rw [h'.vote (heq.trans hmid.symm) (by rwa [hvote]), hvote]
  hs := by
    obtain ⟨hhs, hterm, hvote⟩ | hnew := h'.hs
    · obtain ⟨hhs', hterm', hvote'⟩ | ⟨c, hc⟩ := h.hs
      · exact .inl ⟨hhs.trans hhs', hterm.trans hterm', hvote.trans hvote'⟩
      · exact .inr ⟨c, by rw [hhs, hc, hterm, hvote]⟩
    · exact .inr hnew
  grants m hm hg := by
    obtain hm | ⟨hpast, hone⟩ := h'.grants m hm hg
    · obtain hm | ⟨hpast, hone⟩ := h.grants m hm hg
      · exact .inl hm
      · exact .inr ⟨hpast.step h', hone⟩
    · exact .inr ⟨hpast, fun x hx => hone x (hx.step h)⟩
  once m hm m' hm' hg hg' hnew hnew' heq := by
    -- a grant of the first half is known in the middle, where the second half respects it
    have hpast : ∀ n ∈ r'.pending.msgs, Granting n → n ∉ r.pending.msgs → Past r' n.term n.dest :=
      fun n hn hgn hnn => ((h.grants n hn hgn).resolve_left hnn).1
    by_cases hmid : m ∈ r'.pending.msgs
    · by_cases hmid' : m' ∈ r'.pending.msgs
      · exact h.once m hmid m' hmid' hg hg' hnew hnew' heq
      · exact ((h'.grants m' hm' hg').resolve_left hmid').2 _ (heq ▸ hpast m hmid hg hnew)
    by_cases hmid' : m' ∈ r'.pending.msgs
    · exact (((h'.grants m hm hg).resolve_left hmid).2 _ (heq ▸ hpast m' hmid' hg' hnew')).symm
    · exact h'.once m hm m' hm' hg hg' hmid hmid' heq
  stands hid hown hs := by
    refine h'.stands (by rwa [h.id]) (fun hs' => h.stands hid hown hs') hs

lemma Past.unique {t x y : Nat} (hx : Past r t x) (hy : Past r t y) (ht : t = r.term) : x = y := by
  obtain ⟨_, hlt | ⟨_, rfl⟩⟩ := hx
  · omega
  obtain ⟨_, hlt | ⟨_, rfl⟩⟩ := hy
  · omega
  · rfl

end

/-! ## Strokes -/

section

variable {m : Msg} {o r r' : Raft}

lemma VoteStep.of_same (h : Stroke m o r r') (hid : r'.conf.id = r.conf.id) (hterm : r'.term = r.term)
    (hvote : r'.vote = r.vote) (hmsgs : ∀ a ∈ r'.pending.msgs, Granting a → a ∈ r.pending.msgs)
    (hstands : Campaigning r' → Campaigning r) : VoteStep r r' where
  id := hid
  term := hterm.ge
  vote _ _ := hvote
  hs := h.hs.imp (fun h => ⟨h.1, h.2.1, h.2.2.1⟩) fun h => ⟨_, h⟩
  grants a ha hg := .inl (hmsgs a ha hg)
  once a ha _ _ hg _ hnew := absurd (hmsgs a ha hg) hnew
  stands _ hown hs := by
    rw [hvote, hid]
    exact hown (hstands hs)

lemma VoteStep.of_seat (h : Stroke m o r r') (hseat : SameSeat r r') : VoteStep r r' :=
  .of_same h (congrArg Conf.id hseat.conf) hseat.term hseat.vote (fun _ ha _ => hseat.msgs ▸ ha)
    fun hs => by rwa [Campaigning, hseat.role] at hs

lemma not_granting_of_utters {a : Msg} (h : Utters r a) : ¬ Granting a := by
  rintro ⟨htype, hgrant⟩
  unfold Utters at h
  rw [htype] at h
  exact h.1 hgrant

lemma not_standing (h : r.role = .follower ∨ r.role = .preCandidate) : ¬ Campaigning r := by
  unfold Campaigning
  rcases h with h | h <;> rw [h] <;> decide

lemma voteStep_grant (hsender : m.sender ≠ 0) (hfree : r.vote = 0 ∨ r.vote = m.sender) :
    VoteStep r (queueMsg (queueHardState { r with vote := m.sender })
      { type := .voteResp, dest := m.sender, sender := r.conf.id, term := r.term }) where
  id := rfl
  term := le_rfl
  vote _ hne := by
    change m.sender = r.vote
    obtain h0 | heq := hfree
    · exact absurd h0 hne
    · exact heq.symm
  hs := .inr ⟨_, rfl⟩
  grants m' hm' hg := by
    obtain h | h := mem_append.1 hm'
    · exact .inl h
    rw [mem_singleton.1 h]
    refine .inr ⟨⟨hsender, .inr ⟨rfl, rfl⟩⟩, ?_⟩
    rintro x ⟨hx, hlt | ⟨_, hvote⟩⟩
    · exact absurd hlt (lt_irrefl _)
    obtain h0 | heq := hfree
    · exact absurd (hvote.symm.trans h0) hx
    · exact hvote.symm.trans heq
  once m₁ h₁ m₂ h₂ _ _ hnew₁ hnew₂ _ := by
    have hlast : ∀ n, n ∈ (queueMsg (queueHardState { r with vote := m.sender })
        { type := .voteResp, dest := m.sender, sender := r.conf.id, term := r.term }).pending.msgs →
        n ∉ r.pending.msgs → n.dest = m.sender := by
      intro n hn hnew
      obtain h | h := mem_append.1 hn
      · exact absurd h hnew
      · rw [mem_singleton.1 h]
    rw [hlast m₁ h₁ hnew₁, hlast m₂ h₂ hnew₂]
  stands hid hown hs := by
    have hvote := hown hs
    change m.sender = r.conf.id
    obtain h0 | heq := hfree
    · exact absurd (hvote.symm.trans h0) hid
    · exact heq.symm.trans hvote

lemma VoteStep.of_stroke (hsender : m.type = .vote → m.sender ≠ 0) (h : Stroke m o r r') :
    VoteStep r r' := by
  cases hs : h with
  | pace | track | count | note | commit => exact .of_same h rfl rfl rfl (fun _ ha _ => ha) fun hs => hs
  | demote => exact .of_same h rfl rfl rfl (fun _ ha _ => ha) (absurd · (not_standing (.inl rfl)))
  | preCampaign => exact .of_same h rfl rfl rfl (fun _ ha _ => ha) (absurd · (not_standing (.inr rfl)))
  | lead _ hrole => exact .of_same h rfl rfl rfl (fun _ ha _ => ha) fun _ => .inl hrole
  | say ha =>
    refine .of_same h rfl rfl rfl (fun b hb hg => ?_) fun hs => hs
    obtain hb | hb := mem_append.1 hb
    · exact hb
    rw [mem_singleton.1 hb] at hg
    exact absurd hg (not_granting_of_utters ha)
  | stepDown ht =>
    exact ⟨rfl, ht.le, fun heq => absurd heq ht.ne', .inr ⟨_, rfl⟩, fun _ ha _ => .inl ha,
      fun _ ha _ _ _ _ hnew => absurd ha hnew, fun _ _ hs => absurd hs (not_standing (.inl rfl))⟩
  | campaign =>
    exact ⟨rfl, Nat.le_succ _, fun heq => absurd heq (Nat.succ_ne_self _), .inr ⟨_, rfl⟩,
      fun _ ha _ => .inl ha, fun _ ha _ _ _ _ hnew => absurd ha hnew, fun _ _ _ => rfl⟩
  | grant htype _ hfree => exact voteStep_grant (hsender htype) hfree
  | accept => exact .of_seat h (sameSeat_appendEntries _ _ _)
  | propose type data =>
    have hseat := sameSeat_proposed r type data
    exact .of_seat h ⟨hseat.conf, hseat.mem, hseat.term, hseat.vote, hseat.role, hseat.votes, hseat.msgs⟩
  | cover => exact .of_seat h (sameSeat_coverSnapshot _ _)
  | @install l =>
    have hseat := sameSeat_coverSnapshot { r with rlog := l } m.snapshot
    exact .of_seat h ⟨hseat.conf, hseat.mem, hseat.term, hseat.vote, hseat.role, hseat.votes, hseat.msgs⟩

lemma VoteStep.of_strokes (hsender : m.type = .vote → m.sender ≠ 0) (h : Strokes m o r r') :
    VoteStep r r' :=
  h.induct (P := VoteStep r) (.refl r) fun _ _ hs hstep => hstep.trans (.of_stroke hsender hs)

lemma voteStep_cetcdRaftStep (hsender : m.sender ≠ 0) : VoteStep r (cetcdRaftStep r m).2 :=
  .of_strokes (fun _ => hsender) strokes_cetcdRaftStep

lemma voteStep_cetcdRaftTick : VoteStep r (cetcdRaftTick r) :=
  .of_strokes (by simp [timerMsg]) strokes_cetcdRaftTick

end

end Cetcd.Durable
