import Cetcd.Protocol.Matching

/-!
# What the leader believes about its followers

`match_idx` is written from acknowledgements, which name the last index of the follower's log. They
are sound when that log has been verified (`VerifiedTail`), when they are of the leader's own term
(`FreshAck`, `FreshStatus`), and as long as no Append reaches below a compacted prefix (`StartOk`).
-/

namespace Cetcd
namespace Protocol

open Lib Raft List Function Ghost

/-! ## Logs without blanks -/

structure Solid (V : Voters) (nodes : Nat → View) (net : Msg → Prop) (g : Ghost) : Prop where
  vlog : ∀ i ∈ V.ids, ∀ e ∈ g.vlog i, e.term ≠ 0
  llog : ∀ t, ∀ e ∈ g.llog t, e.term ≠ 0
  comp : ∀ i ∈ V.ids, (nodes i).rlog.compacted ≤ (nodes i).rlog.lastIndex
  snap : ∀ m, net m → m.type = .snap → m.logTerm ≠ 0

section

variable {K : Checks} {V : Voters} {nodes : Nat → View} {net : Msg → Prop} {g : Ghost} {i : Nat}
  {mv : Move} {v v' : View}

lemma Solid.vlog_after (hb : Base V nodes net g) (hs : Solid V nodes net g) (hi : i ∈ V.ids)
    (h : MoveStep K V net (nodes i) mv v') :
    ∀ e ∈ (g.next nodes i mv).vlog i, e.term ≠ 0 := by
  cases h with
  | campaign | grant =>
    intro e he
    exact hs.vlog i hi e ((congrArg (e ∈ ·) (congrFun (cast_vlog _ _) i)).mp he)
  | @accept m =>
    rw [vlog_accept]
    intro e he
    unfold Ghost.afterAccept at he
    split at he
    · exact hs.vlog i hi e he
    · exact hs.llog _ e (mem_of_mem_take he)
  | @install m l hm htype =>
    rw [vlog_install]
    intro e he
    unfold Ghost.afterInstall at he
    rw [if_neg (hs.snap m hm htype)] at he
    split at he
    · exact hs.vlog i hi e he
    · exact hs.llog _ e (mem_of_mem_take he)
  | win =>
    rw [vlog_win]
    exact hs.vlog i hi
  | @propose e hlead hterm =>
    rw [vlog_propose]
    intro d hd
    obtain hd | hd := mem_append.1 hd
    · exact hs.vlog i hi d hd
    rw [mem_singleton.1 hd, hterm]
    have := ((hb.node i hi).led _ ((hb.node i hi).lead hlead)).1
    omega
  | _ => exact hs.vlog i hi

lemma Solid.comp_after (hK : K.start) (hl : Logs V nodes net g) (hs : Solid V nodes net g)
    (hi : i ∈ V.ids) (hrep : Rep v'.rlog ((g.next nodes i mv).vlog i))
    (h : MoveStep K V net (nodes i) mv v') : v'.rlog.compacted ≤ v'.rlog.lastIndex := by
  have hcomp := hs.comp i hi
  cases h with
  | @accept m hm htype _ _ _ hprev _ hstart =>
    have hok := hl.app m hm htype
    have hle : (nodes i).rlog.compacted ≤ m.index + m.entries.length := by
      obtain h0 | hpos := Nat.eq_zero_or_pos m.index
      · have := hstart hK h0
        have := length_pos_iff.2 hok.nonempty
        omega
      obtain h0 | ⟨_, hterm⟩ := hprev
      · omega
      obtain ⟨e, he, het⟩ := hok.prev (by omega)
      have hne : e.term ≠ 0 := hs.llog _ e (mem_of_getElem? he)
      have := range_of_logTermAt_ne_zero (l := (nodes i).rlog) (i := m.index)
        (by rw [hterm, ← het]; exact hne)
      omega
    rw [hrep.last]
    change (storeEntries (nodes i).rlog (m.index + 1) m.entries).compacted ≤ _
    rw [storeEntries_compacted]
    rw [vlog_accept]
    unfold Ghost.afterAccept
    split
    · rw [← (hl.node i hi).rep.last]
      exact hcomp
    rw [hok.target.1]
    exact hle
  | @install m l _ _ _ _ _ _ hinst =>
    obtain ⟨_, rfl⟩ | ⟨_, hl'⟩ := hinst
    · exact hcomp
    obtain ⟨_, _, _, hc, hlast, _⟩ := logCompact_eq_some hl'
    change l.compacted ≤ l.lastIndex
    omega
  | @propose e =>
    change (logAppend (nodes i).rlog e).compacted ≤ (logAppend (nodes i).rlog e).lastIndex
    rw [logAppend_compacted, logAppend_lastIndex]
    omega
  | @compact s ce l _ _ hce hcompact =>
    obtain ⟨_, _, _, hc, hlast, _⟩ := logCompact_eq_some hcompact
    change l.compacted ≤ l.lastIndex
    omega
  | _ => exact hcomp

lemma Solid.step (hK : K.start) (hi : i ∈ V.ids) (hout : ∀ m ∈ (nodes i).out, net m)
    (h : MoveStep K V net (nodes i) mv v') (hb : Base V nodes net g) (hl : Logs V nodes net g)
    (hown : NodeLog (g.next nodes i mv) i v') (hs : Solid V nodes net g) :
    Solid V (update nodes i v') (fun m => net m ∨ m ∈ v'.out)
      (g.next nodes i mv) := by
  have hvlog := hs.vlog_after hb hi h
  refine ⟨?_, ?_, ?_, ?_⟩
  · intro j hj
    by_cases hji : j = i
    · subst hji
      exact hvlog
    rw [vlog_after_other mv hji]
    exact hs.vlog j hj
  · intro t e he
    rcases llog_after (g := g) (i := i) (v := nodes i) (t := t) mv with
      heq | ⟨rfl, ⟨rfl, heq⟩ | ⟨e', rfl, heq⟩⟩
    · rw [heq] at he
      exact hs.llog t e he
    · rw [heq] at he
      exact hs.vlog i hi e he
    rw [heq] at he
    refine hvlog e ?_
    rw [vlog_propose]
    exact he
  · intro j hj
    by_cases hji : j = i
    · subst hji
      rw [update_self]
      exact hs.comp_after hK hl hi hown.rep h
    rw [update_of_ne hji]
    exact hs.comp j hj
  rintro m hm htype
  by_cases hold : net m
  · exact hs.snap m hold htype
  rcases h.sayable_of_out (g := g) (i := i) (hm.resolve_left hold)
    (fun hm' => hold (hout m hm')) with ⟨hsay, _⟩ | hvote | happ | hsnap
  · have hfrom := hsay.2
    rw [htype] at hfrom
    have hfrom := hfrom.2.2.2
    rcases (hl.node i hi).rep.term_at hfrom.pos le_rfl
      (by rw [← (hl.node i hi).rep.last]; exact hs.comp i hi) with ⟨e, he, het⟩
    rw [hfrom.logTerm, ← het]
    exact hs.vlog i hi e (mem_of_getElem? he)
  · rw [hvote] at htype
    cases htype
  · rw [happ] at htype
    cases htype
  rw [hsnap] at htype
  cases htype

lemma NodeLog.accepted_in_leader (hl : Logs V nodes net g) (hn : NodeLog g i v) {m : Msg}
    (hm : AppOk g m) (hverified : LeavesTail v.rlog m → v.rlog.lastTerm = m.term) :
    g.afterAccept i v.rlog m <+: g.llog m.term := by
  unfold Ghost.afterAccept
  split
  · rename_i hhas
    have hlen := length_pos_iff.2 hm.nonempty
    have hle : m.index + m.entries.length ≤ (g.vlog i).length := by
      rw [← hn.rep.last]
      exact hhas.1
    obtain hlt | hge := lt_or_ge (m.index + m.entries.length) (g.vlog i).length
    · -- the log goes on: it ends in the leader's term, hence in the leader's log
      have hlast := hverified ⟨by rw [hn.rep.last]; exact hlt, hhas.2⟩
      have hne : g.vlog i ≠ [] := ne_nil_of_length_pos (by omega)
      have hpre := hn.anch.pre_lastTm hne
      rw [← hn.rep.lastTerm, hlast] at hpre
      unfold Ghost.pre at hpre
      rwa [if_neg hm.term] at hpre
    -- the last entry of the Append is the last of the log
    have hlast := hhas.2 (m.entries.length - 1) (by omega)
    have hget := hm.entries (m.entries.length - 1) (by omega)
    have hknown := hm.known _ (getElem_mem (show m.entries.length - 1 < m.entries.length by
      omega))
    rcases hn.rep.of_logTermAt_ne_zero (by rw [hlast]; exact hknown) with ⟨_, _, _, e, he, het⟩
    rw [show m.index + 1 + (m.entries.length - 1) - 1 = m.index + (m.entries.length - 1) by
      omega] at he
    have htake := hn.anch.take_eq_of_getElem? g.onePrefix_pre (hl.anch m.term) he hget
      (by rw [het, hlast])
    rw [take_of_length_le (by omega)] at htake
    rw [htake]
    exact take_prefix _ _
  · exact take_prefix _ _

end

/-! ## Acknowledgements -/

def IsAck (m : Msg) : Prop :=
  m.reject = 0 ∧ (m.type = .appResp ∨ m.type = .snapStatus)

/-- The acknowledged index is in `l` and in the log of the leader of the term, and what can be read
of `l` up to there is in that log. -/
def HoldsOk (g : Ghost) (m : Msg) (l : RaftLog) : Prop :=
  m.index ≤ l.lastIndex ∧ m.index ≤ (g.llog m.term).length ∧
    ∀ q, l.compacted < q → q ≤ m.index → (g.llog m.term)[q - 1]? = some (l.log.read q)

lemma HoldsOk.mono {g g' : Ghost} (h : ∀ t, g.llog t <+: g'.llog t) {m : Msg} {l : RaftLog}
    (hm : HoldsOk g m l) : HoldsOk g' m l :=
  ⟨hm.1, hm.2.1.trans (h m.term).length_le,
    fun q hq hle => getElem?_extend (h m.term) (hm.2.2 q hq hle)⟩

structure Progress (V : Voters) (nodes : Nat → View) (net : Msg → Prop) (g : Ghost) : Prop where
  out : ∀ i ∈ V.ids, ∀ m ∈ (nodes i).out, IsAck m →
    m.sender = (nodes i).id ∧ HoldsOk g m (nodes i).rlog
  status : ∀ m, net m → IsAck m → m.type = .snapStatus → m.index = m.snapshot
  matched : ∀ i ∈ V.ids, (nodes i).role = .leader → ∀ x, (nodes i).matchIdx x = 0 ∨
    ∃ m, net m ∧ IsAck m ∧ m.sender = x ∧ m.term = (nodes i).term ∧ (nodes i).matchIdx x ≤ m.index

section

variable {K : Checks} {V : Voters} {nodes : Nat → View} {net : Msg → Prop} {g : Ghost} {i : Nat}
  {mv : Move} {v v' : View} {m a : Msg} {l : RaftLog}

lemma not_isAck_of_sayable (h : Sayable v m) : ¬ IsAck m := by
  rintro ⟨hacc, htype | htype⟩
  all_goals
    have := h.2
    rw [htype] at this
    exact this hacc

lemma HoldsOk.of_accept (hl : Logs V nodes net g) (hi : i ∈ V.ids) (hm : net m)
    (htype : m.type = .app) (hterm : m.term = (nodes i).term) (hprev : PrevMatches (nodes i).rlog m)
    (hverified : LeavesTail (nodes i).rlog m → (nodes i).rlog.lastTerm = m.term)
    (haterm : a.term = (nodes i).term)
    (haindex : a.index = (storeEntries (nodes i).rlog (m.index + 1) m.entries).lastIndex) :
    HoldsOk g a (storeEntries (nodes i).rlog (m.index + 1) m.entries) := by
  have hok := hl.app m hm htype
  have hrep := (hl.node i hi).rep_accept hl hok hprev
  have hpre := (hl.node i hi).accepted_in_leader hl hok hverified
  refine ⟨haindex.le, ?_, ?_⟩
  · rw [haindex, haterm, hrep.last, ← hterm]
    exact hpre.length_le
  intro q hq hle
  rw [haindex, hrep.last] at hle
  rw [haterm, ← hterm]
  exact getElem?_extend hpre (hrep.read q hq hle)

lemma HoldsOk.of_install (hl : Logs V nodes net g) (hs : Solid V nodes net g) (hi : i ∈ V.ids)
    (hm : net m) (htype : m.type = .snap) (hterm : m.term = (nodes i).term)
    (hinst : Installed (nodes i).rlog m l) (haterm : a.term = (nodes i).term)
    (haindex : a.index = m.snapshot) : HoldsOk g a l := by
  have hbounds : m.snapshot ≤ l.compacted ∧ m.snapshot ≤ l.lastIndex := by
    obtain ⟨hcov, rfl⟩ | ⟨_, hl'⟩ := hinst
    · exact ⟨hcov, hcov.trans (hs.comp i hi)⟩
    obtain ⟨_, _, _, hc, hlast, _⟩ := logCompact_eq_some hl'
    omega
  obtain ⟨e, he, _⟩ := (hl.snap m hm htype (hs.snap m hm htype)).base
  have hlen := (List.getElem?_eq_some_iff.1 he).1
  refine ⟨haindex ▸ hbounds.2, ?_, ?_⟩
  · rw [haindex, haterm, ← hterm]
    omega
  intro q hq hle
  omega

lemma HoldsOk.append {e : Entry} (h : HoldsOk g m l) (hidx : e.index = l.lastIndex + 1) :
    HoldsOk g m (logAppend l e) := by
  obtain ⟨hle, hlen, hread⟩ := h
  refine ⟨?_, hlen, ?_⟩
  · rw [logAppend_lastIndex]
    omega
  intro q hq hqm
  rw [logAppend_compacted] at hq
  rw [logAppend_log, ZeroArray.read_write_of_ne _ _ (by omega)]
  exact hread q hq hqm

section

variable (hK : K.acks) (hi : i ∈ V.ids) (h : MoveStep K V net (nodes i) mv v')
  (hl : Logs V nodes net g) (hs : Solid V nodes net g)
  (hgrow : ∀ t, g.llog t <+: (g.next nodes i mv).llog t) (hp : Progress V nodes net g)

include hK hi h hl hs hgrow hp

lemma Progress.out_own (hm : m ∈ v'.out) (hack : IsAck m) :
    m.sender = v'.id ∧ HoldsOk (g.next nodes i mv) m v'.rlog := by
  -- what was said before the move, with the log unchanged
  have hsame : ∀ m ∈ (nodes i).out, IsAck m →
      m.sender = (nodes i).id ∧ HoldsOk (g.next nodes i mv) m (nodes i).rlog :=
    fun m hm hack => ⟨(hp.out i hi m hm hack).1, (hp.out i hi m hm hack).2.mono hgrow⟩
  cases h with
  | say hsay =>
    obtain hm | hm := mem_append.1 hm
    · exact hsame m hm hack
    rw [mem_singleton.1 hm] at hack
    exact absurd hack (not_isAck_of_sayable hsay)
  | grant =>
    obtain hm | hm := mem_append.1 hm
    · exact hsame m hm hack
    rw [mem_singleton.1 hm] at hack
    rcases hack.2 with h | h <;> cases h
  | @accept m' hm' htype hterm _ hempty hprev hverified _ =>
    obtain hm | hm := mem_append.1 hm
    · change m ∈ (nodes i).out at hm
      rw [hempty] at hm
      cases hm
    rw [mem_singleton.1 hm]
    exact ⟨rfl, (HoldsOk.of_accept hl hi hm' htype hterm hprev (hverified hK) rfl rfl).mono hgrow⟩
  | @install m' l hm' htype hterm _ hempty _ hinst _ =>
    obtain hm | hm := mem_append.1 hm
    · change m ∈ (nodes i).out at hm
      rw [hempty] at hm
      cases hm
    rw [mem_singleton.1 hm]
    exact ⟨rfl, (HoldsOk.of_install hl hs hi hm' htype hterm hinst rfl rfl).mono hgrow⟩
  | propose hlead hterm hidx =>
    obtain ⟨hsender, hholds⟩ := hsame m hm hack
    exact ⟨hsender, hholds.append hidx⟩
  | settle => cases hm
  | compact hempty =>
    change m ∈ (nodes i).out at hm
    rw [hempty] at hm
    cases hm
  | _ => exact hsame m hm hack

omit hl hs hgrow in
lemma Progress.matched_own (hlead : v'.role = .leader) (x : Nat) :
    v'.matchIdx x = 0 ∨ ∃ m, net m ∧ IsAck m ∧ m.sender = x ∧ m.term = v'.term ∧
      v'.matchIdx x ≤ m.index := by
  have hsame := hp.matched i hi
  cases h with
  | stepDown | preCampaign | campaign => cases hlead
  | win => exact .inl rfl
  | @setMatch y k hrole hset =>
    by_cases hxy : x = y
    · subst hxy
      dsimp only
      rw [update_self]
      obtain hle | ⟨m, hm, rfl, hacc, hterm, htype⟩ := hset
      · obtain h0 | ⟨m, hm, hack, hsender, hmterm, hidx⟩ := hsame hrole x
        · exact .inl (by omega)
        · exact .inr ⟨m, hm, hack, hsender, hmterm, hle.trans hidx⟩
      refine .inr ⟨m, hm, ⟨hacc, htype.imp (·.1) (·.1)⟩, rfl, hterm hK, ?_⟩
      obtain ⟨_, rfl⟩ | ⟨hstatus, rfl⟩ := htype
      · exact le_rfl
      · exact (hp.status m hm ⟨hacc, .inr hstatus⟩ hstatus).ge
    dsimp only
    rw [update_of_ne hxy]
    exact hsame hrole x
  | _ => exact hsame hlead x

lemma Progress.step (hout : ∀ m ∈ (nodes i).out, net m) :
    Progress V (update nodes i v') (fun m => net m ∨ m ∈ v'.out)
      (g.next nodes i mv) := by
  refine ⟨?_, ?_, ?_⟩
  · intro j hj m hm hack
    by_cases hji : j = i
    · subst hji
      rw [update_self] at hm ⊢
      exact hp.out_own hK hj h hl hs hgrow hm hack
    rw [update_of_ne hji] at hm ⊢
    exact ⟨(hp.out j hj m hm hack).1, (hp.out j hj m hm hack).2.mono hgrow⟩
  · intro m hm hack htype
    by_cases hold : net m
    · exact hp.status m hold hack htype
    have hm' := hm.resolve_left hold
    have hnew : m ∉ (nodes i).out := fun h' => hold (hout m h')
    cases h with
    | say hsay =>
      obtain h' | h' := mem_append.1 hm'
      · exact absurd h' hnew
      rw [mem_singleton.1 h'] at hack
      exact absurd hack (not_isAck_of_sayable hsay)
    | grant | accept =>
      obtain h' | h' := mem_append.1 hm'
      · exact absurd h' hnew
      rw [mem_singleton.1 h'] at htype
      cases htype
    | install =>
      obtain h' | h' := mem_append.1 hm'
      · exact absurd h' hnew
      · rw [mem_singleton.1 h']
    | settle => cases hm'
    | _ => exact absurd hm' hnew
  intro j hj hlead x
  by_cases hji : j = i
  · subst hji
    rw [update_self] at hlead ⊢
    obtain h0 | ⟨m, hm, hrest⟩ := hp.matched_own hK hj h hlead x
    · exact .inl h0
    · exact .inr ⟨m, .inl hm, hrest⟩
  rw [update_of_ne hji] at hlead ⊢
  obtain h0 | ⟨m, hm, hrest⟩ := hp.matched j hj hlead x
  · exact .inl h0
  · exact .inr ⟨m, .inl hm, hrest⟩

end

lemma Solid.init (hpris : ∀ i ∈ V.ids, Member V i (nodes i).conf (nodes i).mem ∧
    Pristine (nodes i)) (hnet : ∀ m, ¬ net m) : Solid V nodes net Ghost.none := by
  refine ⟨fun i _ e he => (by cases he), fun t e he => (by cases he), ?_,
    fun m hm => absurd hm (hnet m)⟩
  intro i hi
  rw [(hpris i hi).2.rlog]

lemma Progress.init (hpris : ∀ i ∈ V.ids, Member V i (nodes i).conf (nodes i).mem ∧
    Pristine (nodes i)) (hnet : ∀ m, ¬ net m) : Progress V nodes net Ghost.none := by
  refine ⟨?_, fun m hm => absurd hm (hnet m), ?_⟩
  · intro i hi m hm
    rw [(hpris i hi).2.out] at hm
    cases hm
  intro i hi hlead
  rw [(hpris i hi).2.role] at hlead
  cases hlead

lemma kept_progress (hsnaps : K.snaps) (hacks : K.acks) (hstart : K.start) : Kept K V
    (fun nodes net g => Base V nodes net g ∧
      (OneLeader g → Logs V nodes net g ∧ Solid V nodes net g ∧ Progress V nodes net g))
    (fun _ _ _ => True)
    (fun g m v => OneLeader g → IsAck m → m.sender = v.id ∧ HoldsOk g m v.rlog) where
  init hpris hnet := ⟨Base.init hpris hnet, fun _ =>
    ⟨Logs.init hpris hnet, Solid.init hpris hnet, Progress.init hpris hnet⟩⟩
  stable nodes net g i mv v' hi hout h hJ := by
    refine ⟨hJ.1.step hi hout h, fun hone => ?_⟩
    obtain ⟨hl, hs, hp⟩ := hJ.2 hone.before
    have hgrow := hl.llog_grows hJ.1 hi hone h
    exact ⟨hl.step hi h hsnaps hout hJ.1 hone,
      hs.step hstart hi hout h hJ.1 hl (NodeLog.own hJ.1 hl hi hone h hsnaps),
      hp.step hacks hi h hl hs hgrow hout⟩
  state _ _ := trivial
  packet hi hJ hm hone hack := (hJ.2 hone).2.2.out _ hi _ hm hack
  state_step _ _ _ _ _ _ _ := trivial
  packet_step hi _ h hJ m v hB hone hack := by
    have hbefore := hB hone.before hack
    exact ⟨hbefore.1, hbefore.2.mono ((hJ.2 hone.before).1.llog_grows hJ.1 hi hone h)⟩

end

end Protocol

namespace Cluster

open Lib Raft Protocol List Function

/-- The conditions under which acknowledgements can be trusted. -/
def TrustedAcks (r : Raft) (m : Msg) : Prop :=
  MatchingSnap r m ∧ VerifiedTail r m ∧ FreshAck r m ∧ FreshStatus r m ∧ StartOk r m
  deriving Decidable

def acksOnly : Checks := ⟨False, True, True, True, False⟩

/-- Peer `x` has acknowledged to leader `j`, in its term, a log that reached index `n` and agreed up
to there with what the leader has now; `p.origin` is the peer as it was then. -/
def AckedTo (c : Cluster) (j x n : Nat) : Prop :=
  n ≤ (c.node j).rlog.lastIndex ∧ ∃ p ∈ c.sent, IsAck p.msg ∧ p.origin.conf.id = x ∧
    p.msg.term = (c.node j).term ∧ n ≤ p.origin.rlog.lastIndex ∧
    ∀ q ≤ n, ∀ e e', (c.node j).Holds q e → p.origin.Holds q e' → e = e'

/-- With one leader per term and trusted acknowledgements, the match index of a peer was
acknowledged by that peer, which then held the same entries; hence a majority has acknowledged
whatever `maybe_advance_commit_` would commit. -/
theorem match_idx_sound {V : Voters} {hist : List Cluster}
    (hrun : Run V (onDelivery TrustedAcks) hist) (hagree : LeadersAgree V hist) {c : Cluster}
    (hc : c ∈ hist) {j : Nat} (hj : j ∈ V.ids) (hlead : (c.node j).role = .leader) :
    (∀ x, x ≠ j → progressOf (c.node j) x = 0 ∨ AckedTo c j x (progressOf (c.node j) x)) ∧
      ∀ n, 0 < n → n ≤ majorityMatchIds (c.node j) (incoming (c.node j)) →
        Majority V.ids (fun x => x = j ∨ AckedTo c j x n) := by
  obtain ⟨rest, hrun', hsuf⟩ := hrun.exists_suffix hc
  have hchecked : Run V acksOnly.ok (c :: rest) :=
    run_checked (fun r m h => ⟨False.elim, fun _ => h.1, fun _ => h.2.1, fun _ => h.2.2.1,
      fun _ => h.2.2.2.1, fun _ => h.2.2.2.2, False.elim⟩) hrun'
  obtain ⟨hidle, g, hmem⟩ := (kept_progress trivial trivial trivial).run hchecked
  have hone : OneLeader g := hmem.oneLeader
    (fun c₁ h₁ c₂ h₂ => hagree c₁ (hsuf.subset h₁) c₂ (hsuf.subset h₂))
  obtain ⟨hl, hs, hp⟩ := hmem.now.2 hone
  have hn := hl.node j hj
  have hll : g.llog (c.node j).term = g.vlog j := hn.lead hlead
  -- an index up to the recorded one is acknowledged
  have hacked : ∀ x n, 0 < n → n ≤ progressOf (c.node j) x → AckedTo c j x n := by
    intro x n hpos hle
    obtain h0 | ⟨m, ⟨p, hp', rfl⟩, hack, hsender, hterm, hidx⟩ := hp.matched j hj hlead x
    · change progressOf (c.node j) x = 0 at h0
      omega
    change progressOf (c.node j) x ≤ p.msg.index at hidx
    change p.msg.term = (c.node j).term at hterm
    obtain ⟨horig, hlast, hlen, hread⟩ := hmem.packets p hp' hone hack
    rw [hterm, hll] at hlen hread
    refine ⟨?_, p, hp', hack, horig.symm.trans hsender, hterm, (hle.trans hidx).trans hlast, ?_⟩
    · rw [show (c.node j).rlog.lastIndex = (g.vlog j).length from hn.rep.last]
      omega
    intro q hq e e' he he'
    have h1 := hn.rep.of_holds he
    have h2 := hread q he'.1 (by omega)
    obtain ⟨_, _, _, hcell⟩ := logAt_eq_some.1 he'.2
    rw [h1] at h2
    exact (Option.some.inj h2).trans hcell
  refine ⟨?_, ?_⟩
  · intro x _
    obtain h0 | hpos := Nat.eq_zero_or_pos (progressOf (c.node j) x)
    · exact .inl h0
    · exact .inr (hacked x _ hpos le_rfl)
  intro n hpos hle
  have hm := hidle.member j hj
  rw [incoming_eq hm.voters hm.length_le] at hle
  have hmaj : Majority V.ids
      (fun x => majorityMatchIds (c.node j) ((c.node j).mem.peers.map Peer.id) ≤
        matchOf (c.node j) x) := by
    refine (majority_majorityMatchIds _ ?_ ?_).perm hm.peers
    · intro hnil
      have := (hm.peers.mem_iff (a := j)).2 hj
      rw [hnil] at this
      cases this
    rw [length_map]
    exact hm.length_le
  refine hmaj.mono ?_
  intro x _ hx
  by_cases hxj : x = j
  · exact .inl hxj
  refine .inr (hacked x n hpos (hle.trans ?_))
  unfold matchOf at hx
  rw [if_neg (by rw [hm.id]; exact hxj)] at hx
  exact hx

/-- Node 1 is elected, replicates one entry to node 2 and hears of it. -/
def acknowledgeOne : List (Cluster → Action) :=
  [call 1 .hup, nth 0, nth 2, call 1 .prop [7], nth 5, nth 7]

theorem match_idx_sound_acknowledged :
    Run three (onDelivery TrustedAcks) (replay [] bootThree acknowledgeOne) ∧
      LeadersAgree three (replay [] bootThree acknowledgeOne) ∧
      progressOf ((finish bootThree acknowledgeOne).node 1) 2 = 1 ∧
      (progressOf ((finish bootThree acknowledgeOne).node 1) 2 = 0 ∨
        AckedTo (finish bootThree acknowledgeOne) 1 2
          (progressOf ((finish bootThree acknowledgeOne).node 1) 2)) := by
  have hrun : Run three (onDelivery TrustedAcks) (replay [] bootThree acknowledgeOne) :=
    run_replay initial_bootThree (by decide +kernel)
  have hagree : LeadersAgree three (replay [] bootThree acknowledgeOne) :=
    leadersAgree_of_freshVote (run_replay initial_bootThree (by decide +kernel))
  exact ⟨hrun, hagree, by decide +kernel,
    (match_idx_sound hrun hagree (finish_mem_replay _ _ _) (by decide)
      (by decide +kernel)).1 2 (by decide)⟩

/-- The run of `snapshotOverConflict` up to the late answer of term 1. -/
def lateAcknowledgement : List (Cluster → Action) := snapshotOverConflict.take 35

/-- An answer is recorded although the leader's log has become shorter than it acknowledges. -/
theorem match_idx_past_the_log :
    ∃ hist, Run five anyStep hist ∧ LeadersAgree five hist ∧ ∃ c ∈ hist,
      (c.node 3).role = .leader ∧ progressOf (c.node 3) 5 = 3 ∧ (c.node 3).rlog.lastIndex = 2 := by
  refine ⟨replay [] bootFive lateAcknowledgement, run_replay initial_bootFive (by decide +kernel),
    leadersAgree_of_freshVote (run_replay initial_bootFive (by decide +kernel)),
    finish bootFive lateAcknowledgement, finish_mem_replay _ _ _, ?_⟩
  decide +kernel

end Cluster
end Cetcd
