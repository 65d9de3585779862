import Cetcd.Protocol.Ballots

/-!
# Committed entries

The commit index of a node covers a prefix of its log that a majority has acknowledged to one leader
(`Ghost.Committed`). A leader counts acknowledgements of its own term, a follower takes over what it
is told as far as its log is known to be the leader's. By leader completeness two committed prefixes
never differ.
-/

namespace Cetcd
namespace Protocol

open Lib Raft Ghost List Function

/-- The first `c` entries of `L` were acknowledged by a majority, in term `T` at the latest. -/
def Ghost.Committed (V : Voters) (g : Ghost) (T c : Nat) (L : List Entry) : Prop :=
  CommittedIn Entry.term V.ids g.llog g.ledIn g.ack T c L

lemma Ghost.Committed.grow {V : Voters} {g g' : Ghost} {T c : Nat} {L : List Entry}
    (h : g.Committed V T c L) (hg : g.Grows g') : g'.Committed V T c L :=
  CommittedIn.mono hg.llog (fun _ => hg.ledIn) (fun x t _ hk => hk.trans (hg.acked x t)) h

structure NodeCommit (V : Voters) (g : Ghost) (i : Nat) (v : View) : Prop where
  commit : g.Committed V v.term v.commit (g.vlog i)
  compacted : v.rlog.compacted ≤ v.commit
  applied : v.applied ≤ v.commit
  own : v.role = .leader → (g.vlog i).length ≤ g.acked i v.term
  matched : v.role = .leader → ∀ x, v.matchIdx x ≤ g.acked x v.term
  out : ∀ m ∈ v.out, m.type = .app ∨ m.type = .heartbeat → m.commit ≤ v.commit

/-- What an acknowledgement names was acknowledged. -/
def AckTold (g : Ghost) (m : Msg) : Prop :=
  m.reject = 0 → (m.type = .appResp → m.index ≤ g.acked m.sender m.term) ∧
    (m.type = .snapStatus → m.snapshot ≤ g.acked m.sender m.term)

/-- The messages that carry a commit index. -/
def CarriesCommit (m : Msg) : Prop := m.type = .app ∨ m.type = .heartbeat ∨ m.type = .snap

/-- What a leader tells to be committed is committed in its log. -/
structure CommitTold (V : Voters) (g : Ghost) (m : Msg) : Prop where
  led : g.ledIn m.term
  commit : g.Committed V m.term m.commit (g.llog m.term)
  snapshot : m.type = .snap → m.snapshot ≤ m.commit

structure Commits (V : Voters) (nodes : Nat → View) (net : Msg → Prop) (g : Ghost) : Prop where
  node : ∀ i ∈ V.ids, NodeCommit V g i (nodes i)
  ack : ∀ m, net m → AckTold g m
  told : ∀ m, net m → CarriesCommit m → CommitTold V g m

structure Safe (V : Voters) (nodes : Nat → View) (net : Msg → Prop) (g : Ghost) : Prop where
  base : Base V nodes net g
  votes : Votes V nodes net g
  logs : Logs V nodes net g
  solid : Solid V nodes net g
  ballots : Ballots V nodes net g
  commits : Commits V nodes net g

section

variable {K : Checks} {V : Voters} {nodes : Nat → View} {net : Msg → Prop} {g : Ghost} {i : Nat}
  {mv : Move} {v v' : View} {m : Msg} {g' : Ghost}

lemma MoveStep.commit_le (h : MoveStep K V net v mv v') : v.commit ≤ v'.commit := by
  cases h with
  | accept | install | follow => exact le_max_left _ _
  | advance _ hlt => exact hlt.le
  | _ => exact le_rfl

lemma Safe.elections (h : Safe V nodes net g) :
    Elections Entry.term V.ids g.llog g.elog g.ledIn g.ack g.voteLog :=
  h.ballots.elections h.base h.logs

/-! ## Snapshots -/

lemma Safe.install_covers (hK : K.snaps) (h : Safe V nodes net g) (hi : i ∈ V.ids)
    (hstep : MoveStep K V net (nodes i) (.install m) v') :
    (g.llog m.term).take m.snapshot <+: g.afterInstall i (nodes i).rlog m := by
  have hn := h.logs.node i hi
  cases hstep with
  | @install l _ hm htype _ _ _ h0 hinst hmatch =>
    have hne := h.solid.snap m hm htype
    have htold := h.commits.told m hm (.inr (.inr htype))
    unfold Ghost.afterInstall
    by_cases hcov : m.snapshot ≤ (nodes i).rlog.compacted
    · -- acknowledged unseen: both sides have committed this far
      rw [if_pos (.inl hcov)]
      have hagree := (h.commits.node i hi).commit.agree h.elections htold.commit
        (hcov.trans (h.commits.node i hi).compacted) (htold.snapshot htype)
      rw [← hagree]
      exact take_prefix _ _
    by_cases hlast : m.snapshot ≤ (nodes i).rlog.lastIndex
    · rw [if_pos (.inr hlast)]
      obtain ⟨e, he, het⟩ := (h.logs.snap m hm htype hne).base
      rcases hn.rep.term_at h0 (by omega) (by rw [← hn.rep.last]; exact hlast) with
        ⟨e', he', het'⟩
      have htake := hn.anch.take_eq_of_getElem? g.onePrefix_pre (h.logs.anch m.term) he' he
        (by rw [het', hmatch hK (by omega) hlast, het])
      rw [Nat.sub_add_cancel (by omega)] at htake
      rw [← htake]
      exact take_prefix _ _
    · rw [if_neg (by tauto), if_neg hne]

/-! ## The node that moves -/

section

variable (h : Safe V nodes net g) (hi : i ∈ V.ids)

include h hi

lemma Safe.chosen {n : Nat} (hlead : (nodes i).role = .leader) (hlt : (nodes i).commit < n)
    (hterm : logTermAt (nodes i).rlog n = (nodes i).term)
    (hmaj : Majority V.ids (fun x => n ≤ if x = (nodes i).id then (nodes i).rlog.lastIndex else (nodes i).matchIdx x)) :
    Chosen Entry.term V.ids g.llog g.ledIn g.ack (nodes i).term n := by
  have hn := h.logs.node i hi
  have hc := h.commits.node i hi
  have hled := (h.base.node i hi).lead hlead
  have hpos : (nodes i).term ≠ 0 := by
    have := ((h.base.node i hi).led _ hled).1
    omega
  rcases hn.rep.of_logTermAt_ne_zero (by rw [hterm]; exact hpos) with ⟨_, _, hle, e, he, het⟩
  refine ⟨⟨i, hled⟩, by omega, ?_, ?_, ?_⟩
  · rw [hn.lead hlead]
    have := (List.getElem?_eq_some_iff.1 he).1
    omega
  · intro hlt'
    rw [← hn.lead hlead, getElem?_eq_getElem hlt'] at he
    rw [Option.some.inj he, het, hterm]
  refine hmaj.mono ?_
  intro x _ hx
  change n ≤ g.acked x (nodes i).term
  by_cases hxi : x = (nodes i).id
  · rw [if_pos hxi, hn.rep.last] at hx
    rw [hxi, (h.base.node i hi).id]
    exact hx.trans (hc.own hlead)
  rw [if_neg hxi] at hx
  exact hx.trans (hc.matched hlead x)

/-- After an Append the node has committed what it had, or what its leader told it of the entries it
now holds. -/
lemma Safe.commit_accept (hm : net m) (htype : m.type = .app) (hterm : m.term = (nodes i).term)
    (hprev : PrevMatches (nodes i).rlog m)
    (hverified : LeavesTail (nodes i).rlog m → (nodes i).rlog.lastTerm = m.term)
    (hstart : m.index = 0 → (nodes i).rlog.compacted ≤ 1) :
    g.Committed V (nodes i).term (max (nodes i).commit
        (min m.commit (storeEntries (nodes i).rlog (m.index + 1) m.entries).lastIndex))
      (g.afterAccept i (nodes i).rlog m) := by
  have hn := h.logs.node i hi
  have hok := h.logs.app m hm htype
  have htold := h.commits.told m hm (.inl htype)
  have hrep := hn.rep_accept h.logs hok hprev
  rcases max_choice (nodes i).commit
    (min m.commit (storeEntries (nodes i).rlog (m.index + 1) m.entries).lastIndex) with heq | heq
  · -- the old commit index: the prefix is one that the new log keeps
    rw [heq]
    refine (h.commits.node i hi).commit.carry h.elections le_rfl (hterm ▸ htold.led) ?_
    intro X hX hX'
    rw [← hterm] at hX'
    exact hn.accept_keeps hok hprev hstart (h.solid.llog m.term) hX hX'
  rw [heq, hrep.last, ← hterm]
  exact htold.commit.clip (hn.accepted_in_leader h.logs hok hverified)

lemma Safe.commit_install {l : RaftLog} (hm : net m) (htype : m.type = .snap)
    (hterm : m.term = (nodes i).term) (hinst : Installed (nodes i).rlog m l)
    (hcovers : (g.llog m.term).take m.snapshot <+: g.afterInstall i (nodes i).rlog m) :
    g.Committed V (nodes i).term (max (nodes i).commit m.snapshot)
      (g.afterInstall i (nodes i).rlog m) := by
  have htold := h.commits.told m hm (.inr (.inr htype))
  obtain heq | heq := max_choice (nodes i).commit m.snapshot
  · rw [heq]
    refine (h.commits.node i hi).commit.carry h.elections le_rfl (hterm ▸ htold.led) ?_
    intro X hX _
    exact (h.logs.node i hi).install_keeps hinst hX
  have hlen := (h.logs.snap m hm htype (h.solid.snap m hm htype)).le
  have hclip := htold.commit.clip (List.take_prefix m.snapshot (g.llog m.term))
  rw [length_take, min_eq_left hlen, min_eq_right (htold.snapshot htype)] at hclip
  rw [heq, ← hterm]
  exact hclip.weaken le_rfl le_rfl hcovers

lemma Safe.commit_follow (hm : net m) (htype : m.type = .heartbeat)
    (hterm : m.term = (nodes i).term)
    (hbeat : (nodes i).commit < min m.commit (nodes i).rlog.lastIndex → (nodes i).rlog.lastTerm = m.term) :
    g.Committed V (nodes i).term
      (max (nodes i).commit (min m.commit (nodes i).rlog.lastIndex)) (g.vlog i) := by
  have hn := h.logs.node i hi
  have htold := h.commits.told m hm (.inr (.inl htype))
  by_cases hlt : (nodes i).commit < min m.commit (nodes i).rlog.lastIndex
  · -- the log ends in the leader's term, so it is a prefix of the leader's log
    have hne : g.vlog i ≠ [] := by
      refine ne_nil_of_length_pos ?_
      rw [← hn.rep.last]
      omega
    have hpre := hn.anch.pre_lastTm hne
    have hpos : m.term ≠ 0 := by
      obtain ⟨j, hj⟩ := htold.led
      have := ((h.base.node j (h.base.led j _ hj)).led _ hj).1
      omega
    unfold Ghost.pre at hpre
    rw [← hn.rep.lastTerm, hbeat hlt, if_neg hpos] at hpre
    rw [max_eq_right hlt.le, hn.rep.last, ← hterm]
    exact htold.commit.clip hpre
  rw [max_eq_left (by omega)]
  exact (h.commits.node i hi).commit

end

section

variable (h : Safe V nodes net g) (hi : i ∈ V.ids) (hstep : MoveStep K V net (nodes i) mv v')

include h hi hstep

lemma Safe.commit_own (hsnaps : K.snaps) (hacks : K.acks) (hstart : K.start) (hbeats : K.beats)
    (hone : OneLeader (g.next nodes i mv)) :
    (g.next nodes i mv).Committed V v'.term v'.commit ((g.next nodes i mv).vlog i) := by
  have hgrows := h.logs.grows h.base hi hone hstep
  have hc := (h.commits.node i hi).commit
  -- it is enough to see it with the record as it was
  refine Ghost.Committed.grow ?_ hgrows
  cases hstep with
  | stepDown hle => exact hc.weaken hle le_rfl (prefix_refl _)
  | campaign =>
    rw [vlog_campaign]
    exact hc.weaken (Nat.le_succ _) le_rfl (prefix_refl _)
  | @grant m =>
    rw [vlog_grant]
    exact hc
  | @accept m hm htype hterm _ _ hprev hverified hst =>
    rw [vlog_accept]
    exact h.commit_accept hi hm htype hterm hprev (hverified hacks) (hst hstart)
  | @install m l hm htype hterm hrole hout h0 hinst hmatch =>
    rw [vlog_install]
    exact h.commit_install hi hm htype hterm hinst
      (h.install_covers hsnaps hi (.install hm htype hterm hrole hout h0 hinst hmatch))
  | follow hm htype hterm _ hbeat => exact h.commit_follow hi hm htype hterm (hbeat hbeats)
  | win =>
    rw [vlog_win]
    exact hc
  | @propose e =>
    rw [vlog_propose]
    exact hc.weaken le_rfl le_rfl (prefix_append _ _)
  | @advance n hlead hlt hterm hmaj =>
    refine .inr ⟨(nodes i).term, n, le_rfl, h.chosen hi hlead hlt hterm hmaj, le_rfl, ?_⟩
    rw [(h.logs.node i hi).lead hlead]
    exact take_prefix _ _
  | _ => exact hc

lemma Safe.bounds_own :
    v'.rlog.compacted ≤ v'.commit ∧ v'.applied ≤ v'.commit := by
  have hcomp := (h.commits.node i hi).compacted
  have happ := (h.commits.node i hi).applied
  cases hstep with
  | @accept m =>
    refine ⟨?_, happ.trans (le_max_left _ _)⟩
    change (storeEntries (nodes i).rlog (m.index + 1) m.entries).compacted ≤ _
    rw [storeEntries_compacted]
    exact hcomp.trans (le_max_left _ _)
  | @install m l _ _ _ _ _ _ hinst =>
    refine ⟨?_, max_le_max happ le_rfl⟩
    change l.compacted ≤ max (nodes i).commit m.snapshot
    obtain ⟨_, rfl⟩ | ⟨_, hl'⟩ := hinst
    · exact hcomp.trans (le_max_left _ _)
    obtain ⟨_, _, _, hc, _⟩ := logCompact_eq_some hl'
    rw [hc]
    exact le_max_right _ _
  | follow => exact ⟨hcomp.trans (le_max_left _ _), happ.trans (le_max_left _ _)⟩
  | @propose e =>
    refine ⟨?_, happ⟩
    change (logAppend (nodes i).rlog e).compacted ≤ _
    rw [logAppend_compacted]
    exact hcomp
  | advance _ hlt => exact ⟨hcomp.trans hlt.le, happ.trans hlt.le⟩
  | settle => exact ⟨hcomp, max_le happ le_rfl⟩
  | @compact s ce l _ hs _ hl' =>
    refine ⟨?_, happ⟩
    obtain ⟨_, _, _, hc, _⟩ := logCompact_eq_some hl'
    change l.compacted ≤ _
    rw [hc]
    exact hs.trans happ
  | _ => exact ⟨hcomp, happ⟩

lemma Safe.leader_own (hK : K.acks) (hlead : v'.role = .leader) :
    ((g.next nodes i mv).vlog i).length ≤ (g.next nodes i mv).acked i v'.term ∧
      ∀ x, v'.matchIdx x ≤ (g.next nodes i mv).acked x v'.term := by
  have hc := h.commits.node i hi
  have hmono : ∀ x t, g.acked x t ≤ (g.next nodes i mv).acked x t := acked_le_after mv
  -- holding a log of length `n` acknowledges all of it
  have hhold : ∀ n L, n ≤ (g.hold i (nodes i).term n L).acked i (nodes i).term := by
    intro n L
    rw [acked_hold, if_pos ⟨rfl, rfl⟩]
    exact le_max_right _ _
  have hsame : (nodes i).role = .leader → (g.next nodes i mv).vlog i = g.vlog i →
      ((g.next nodes i mv).vlog i).length ≤ (g.next nodes i mv).acked i (nodes i).term ∧
      ∀ x, (nodes i).matchIdx x ≤ (g.next nodes i mv).acked x (nodes i).term := by
    intro hrole hvlog
    rw [hvlog]
    exact ⟨(hc.own hrole).trans (hmono _ _), fun x => (hc.matched hrole x).trans (hmono _ _)⟩
  cases hstep with
  | stepDown | preCampaign | campaign => cases hlead
  | grant => exact hsame hlead (congrFun (cast_vlog _ _) i)
  | accept _ _ _ hrole | install _ _ _ hrole =>
    change (nodes i).role = .leader at hlead
    rw [hrole] at hlead
    cases hlead
  | win =>
    rw [vlog_win]
    exact ⟨hhold _ (g.vlog i), fun x => zero_le⟩
  | @propose e =>
    rw [vlog_propose]
    exact ⟨hhold _ (g.vlog i ++ [e]), fun x => (hc.matched hlead x).trans (hmono _ _)⟩
  | @setMatch y k hrole hset =>
    refine ⟨(hsame hrole rfl).1, ?_⟩
    intro x
    dsimp only
    by_cases hxy : x = y
    · subst hxy
      rw [update_self]
      obtain hle | ⟨m, hm, rfl, hacc, hterm, htype⟩ := hset
      · exact hle.trans (hc.matched hrole x)
      have hack := h.commits.ack m hm hacc
      rw [hterm hK] at hack
      obtain ⟨htype, rfl⟩ | ⟨htype, rfl⟩ := htype
      · exact hack.1 htype
      · exact hack.2 htype
    rw [update_of_ne hxy]
    exact hc.matched hrole x
  | _ => exact hsame hlead rfl

lemma Safe.out_own (hm : m ∈ v'.out) (htype : m.type = .app ∨ m.type = .heartbeat) :
    m.commit ≤ v'.commit := by
  by_cases hold : m ∈ (nodes i).out
  · exact ((h.commits.node i hi).out m hold htype).trans hstep.commit_le
  obtain ⟨hsay, _⟩ | hresp | happ | hsnap := hstep.sayable_of_out (g := g) (i := i) hm hold
  · refine le_trans ?_ hstep.commit_le
    have hfrom := hsay.2
    obtain htype | htype := htype
    · rw [htype] at hfrom
      exact hfrom.2.2.1.le
    rw [htype] at hfrom
    exact hfrom.2.2.le
  · rw [hresp] at htype
    rcases htype with h | h <;> cases h
  · rw [happ] at htype
    rcases htype with h | h <;> cases h
  rw [hsnap] at htype
  rcases htype with h | h <;> cases h

end

/-! ## Messages -/

lemma AckTold.grow (hg : g.Grows g') (h : AckTold g m) : AckTold g' m := by
  intro hacc
  exact ⟨fun ht => ((h hacc).1 ht).trans (hg.acked _ _),
    fun ht => ((h hacc).2 ht).trans (hg.acked _ _)⟩

lemma CommitTold.grow (hg : g.Grows g') (h : CommitTold V g m) : CommitTold V g' m where
  led := hg.ledIn h.led
  commit := by
    have hlonger : g.Committed V m.term m.commit (g'.llog m.term) :=
      h.commit.weaken le_rfl le_rfl (hg.llog _)
    exact hlonger.grow hg
  snapshot := h.snapshot

section

variable (h : Safe V nodes net g) (hi : i ∈ V.ids) (hgrows : g.Grows (g.next nodes i mv))
  (hout : ∀ m ∈ (nodes i).out, net m) (hstep : MoveStep K V net (nodes i) mv v') (hm : m ∈ v'.out)

include h hi hgrows hout hstep hm

lemma Safe.ack_out : AckTold (g.next nodes i mv) m := by
  -- a message that was there, or the one the move adds
  have hcases : ∀ m', v'.out = (nodes i).out ++ [m'] → AckTold (g.next nodes i mv) m' →
      AckTold (g.next nodes i mv) m := by
    intro m' heq hm'
    rw [heq] at hm
    obtain hm | hm := mem_append.1 hm
    · exact (h.commits.ack m (hout m hm)).grow hgrows
    rw [mem_singleton.1 hm]
    exact hm'
  cases hstep with
  | @say m' hsay =>
    refine hcases m' rfl ?_
    intro hacc
    refine ⟨fun ht => ?_, fun ht => ?_⟩
    · exact absurd ⟨hacc, .inl ht⟩ (not_isAck_of_sayable hsay)
    · exact absurd ⟨hacc, .inr ht⟩ (not_isAck_of_sayable hsay)
  | grant => exact hcases _ rfl (fun _ => ⟨fun ht => (by cases ht), fun ht => (by cases ht)⟩)
  | @accept m' hm' htype hterm _ _ hprev =>
    refine hcases _ rfl ?_
    intro _
    refine ⟨fun _ => ?_, fun ht => (by cases ht)⟩
    have hrep := (h.logs.node i hi).rep_accept h.logs (h.logs.app m' hm' htype) hprev
    change (storeEntries (nodes i).rlog (m'.index + 1) m'.entries).lastIndex ≤
      (g.hold i m'.term (g.afterAccept i (nodes i).rlog m').length _).acked (nodes i).id
        (nodes i).term
    rw [hrep.last, (h.base.node i hi).id, acked_hold, if_pos ⟨rfl, hterm.symm⟩]
    exact le_max_right _ _
  | @install m' l hm' htype hterm =>
    refine hcases _ rfl ?_
    intro _
    refine ⟨fun ht => (by cases ht), fun _ => ?_⟩
    change m'.snapshot ≤ (g.hold i m'.term m'.snapshot _).acked (nodes i).id (nodes i).term
    rw [(h.base.node i hi).id, acked_hold, if_pos ⟨rfl, hterm.symm⟩]
    exact le_max_right _ _
  | settle => cases hm
  | _ => exact (h.commits.ack m (hout m hm)).grow hgrows

lemma Safe.told_out (hcarries : CarriesCommit m) : CommitTold V (g.next nodes i mv) m := by
  by_cases hold : m ∈ (nodes i).out
  · exact (h.commits.told m (hout m hold) hcarries).grow hgrows
  obtain ⟨hsay, hsame⟩ | hresp | happ | hsnap := hstep.sayable_of_out (g := g) (i := i) hm hold
  · replace hsame : g.next nodes i mv = g := hsame
    rw [hsame]
    have hfrom := hsay.2
    -- all three kinds are sent by a leader, with its term and its commit index
    have hlead : (nodes i).role = .leader ∧ m.term = (nodes i).term ∧
        m.commit = (nodes i).commit ∧ (m.type = .snap → SnapFrom (nodes i).rlog m) := by
      rcases hcarries with ht | ht | ht <;> rw [ht] at hfrom
      · exact ⟨hfrom.1, hfrom.2.1, hfrom.2.2.1, fun h' => (by rw [ht] at h'; cases h')⟩
      · exact ⟨hfrom.1, hfrom.2.1, hfrom.2.2, fun h' => (by rw [ht] at h'; cases h')⟩
      · exact ⟨hfrom.1, hfrom.2.1, hfrom.2.2.1, fun _ => hfrom.2.2.2⟩
    obtain ⟨hrole, hterm, hcommit, hsnapFrom⟩ := hlead
    refine ⟨?_, ?_, ?_⟩
    · rw [hterm]
      exact ⟨i, (h.base.node i hi).lead hrole⟩
    · rw [hterm, hcommit, (h.logs.node i hi).lead hrole]
      exact (h.commits.node i hi).commit
    intro ht
    rw [(hsnapFrom ht).snapshot, hcommit]
    exact (h.commits.node i hi).compacted
  · unfold CarriesCommit at hcarries
    rw [hresp] at hcarries
    rcases hcarries with h | h | h <;> cases h
  · unfold CarriesCommit at hcarries
    rw [happ] at hcarries
    rcases hcarries with h | h | h <;> cases h
  unfold CarriesCommit at hcarries
  rw [hsnap] at hcarries
  rcases hcarries with h | h | h <;> cases h

end

/-! ## Steps and runs -/

lemma NodeCommit.other {j : Nat} {w : View} (hgrows : g.Grows (g.after i v mv)) (hji : j ≠ i)
    (h : NodeCommit V g j w) : NodeCommit V (g.after i v mv) j w := by
  have hvlog := vlog_after_other (g := g) (v := v) mv hji
  refine ⟨?_, h.compacted, h.applied, ?_, ?_, h.out⟩
  · rw [hvlog]
    exact h.commit.grow hgrows
  · intro hlead
    rw [hvlog]
    exact (h.own hlead).trans (hgrows.acked _ _)
  intro hlead x
  exact (h.matched hlead x).trans (hgrows.acked _ _)

lemma Safe.commits_step (hsnaps : K.snaps) (hacks : K.acks) (hstart : K.start) (hbeats : K.beats)
    (h : Safe V nodes net g) (hi : i ∈ V.ids) (hout : ∀ m ∈ (nodes i).out, net m)
    (hone : OneLeader (g.next nodes i mv)) (hstep : MoveStep K V net (nodes i) mv v') :
    Commits V (update nodes i v') (fun m => net m ∨ m ∈ v'.out)
      (g.next nodes i mv) := by
  have hgrows := h.logs.grows h.base hi hone hstep
  refine ⟨?_, ?_, ?_⟩
  · intro j hj
    by_cases hji : j = i
    · subst hji
      rw [update_self]
      exact ⟨h.commit_own hj hstep hsnaps hacks hstart hbeats hone, (h.bounds_own hj hstep).1,
        (h.bounds_own hj hstep).2, fun hlead => (h.leader_own hj hstep hacks hlead).1,
        fun hlead => (h.leader_own hj hstep hacks hlead).2,
        fun m hm htype => h.out_own hj hstep hm htype⟩
    rw [update_of_ne hji]
    exact (h.commits.node j hj).other hgrows hji
  · rintro m (hm | hm)
    · exact (h.commits.ack m hm).grow hgrows
    · exact h.ack_out hi hgrows hout hstep hm
  rintro m (hm | hm) hcarries
  · exact (h.commits.told m hm hcarries).grow hgrows
  · exact h.told_out hi hgrows hout hstep hm hcarries

lemma Safe.init (hpris : ∀ i ∈ V.ids, Member V i (nodes i).conf (nodes i).mem ∧
    Pristine (nodes i)) (hnet : ∀ m, ¬ net m) : Safe V nodes net Ghost.none := by
  refine ⟨Base.init hpris hnet, Votes.init hpris hnet, Logs.init hpris hnet, Solid.init hpris hnet,
    Ballots.init hpris hnet, ?_, fun m hm => absurd hm (hnet m), fun m hm => absurd hm (hnet m)⟩
  intro i hi
  have hp := (hpris i hi).2
  have hrole : (nodes i).role ≠ .leader := by
    rw [hp.role]
    decide
  refine ⟨.inl hp.commit, ?_, ?_, fun h => absurd h hrole, fun h => absurd h hrole, ?_⟩
  · rw [hp.rlog]
    exact zero_le
  · rw [hp.applied]
    exact zero_le
  rw [hp.out]
  intro m hm
  cases hm

/-- A state of a node from which the committed prefix can be read off later. -/
def Settled (V : Voters) (g : Ghost) (v : View) : Prop :=
  v.rlog.compacted ≤ v.commit ∧ ∃ L, Rep v.rlog L ∧ g.Committed V v.term v.commit L

lemma Settled.grow (hg : g.Grows g') (h : Settled V g v) : Settled V g' v := by
  obtain ⟨hcomp, L, hrep, hc⟩ := h
  exact ⟨hcomp, L, hrep, hc.grow hg⟩

lemma Safe.settled (h : Safe V nodes net g) (hi : i ∈ V.ids) : Settled V g (nodes i) :=
  ⟨(h.commits.node i hi).compacted, _, (h.logs.node i hi).rep, (h.commits.node i hi).commit⟩

lemma Safe.step (hvotes : K.votes) (hsnaps : K.snaps) (hacks : K.acks) (hstart : K.start)
    (hbeats : K.beats) (h : Safe V nodes net g) (hi : i ∈ V.ids)
    (hout : ∀ m ∈ (nodes i).out, net m) (hstep : MoveStep K V net (nodes i) mv v') :
    Safe V (update nodes i v') (fun m => net m ∨ m ∈ v'.out)
        (g.next nodes i mv) ∧ g.Grows (g.next nodes i mv) := by
  have hv := h.votes.step hvotes hi hout hstep h.base
  have hone := hv.oneLeader
  refine ⟨⟨h.base.step hi hout hstep, hv, h.logs.step hi hstep hsnaps hout h.base hone, ?_, ?_, ?_⟩,
    h.logs.grows h.base hi hone hstep⟩
  · exact h.solid.step hstart hi hout hstep h.base h.logs
      (NodeLog.own h.base h.logs hi hone hstep hsnaps)
  · refine h.ballots.step hacks hstart hi hout hstep h.base h.votes h.logs h.solid hone ?_
    rintro m rfl
    exact h.install_covers hsnaps hi hstep
  · exact h.commits_step hsnaps hacks hstart hbeats hi hout hone hstep

lemma kept_safe (hvotes : K.votes) (hsnaps : K.snaps) (hacks : K.acks) (hstart : K.start)
    (hbeats : K.beats) : Kept K V (Safe V) (fun g _ v => Settled V g v)
    (fun g m v => Settled V g v ∧ (m.type = .app ∨ m.type = .heartbeat → m.commit ≤ v.commit)) where
  init := Safe.init
  stable _ _ _ _ _ _ hi hout hstep h :=
    (h.step hvotes hsnaps hacks hstart hbeats hi hout hstep).1
  state hi h := h.settled hi
  packet hi h hm := ⟨h.settled hi, (h.commits.node _ hi).out _ hm⟩
  state_step hi hout hstep h _ _ hA :=
    hA.grow (h.step hvotes hsnaps hacks hstart hbeats hi hout hstep).2
  packet_step hi hout hstep h _ _ hB :=
    ⟨hB.1.grow (h.step hvotes hsnaps hacks hstart hbeats hi hout hstep).2, hB.2⟩

lemma Settled.agree {r r' : Raft} (h : Settled V g (view r)) (h' : Settled V g (view r'))
    (hel : Elections Entry.term V.ids g.llog g.elog g.ledIn g.ack g.voteLog) {q : Nat}
    (hq : q ≤ r.commit) (hq' : q ≤ r'.commit) {e e' : Entry} (he : r.Holds q e)
    (he' : r'.Holds q e') : e = e' := by
  obtain ⟨_, L, hrep, hc⟩ := h
  obtain ⟨_, L', hrep', hc'⟩ := h'
  have htake : L.take q = L'.take q := hc.agree hel hc' hq hq'
  have hpos : 0 < q := Nat.lt_of_le_of_lt zero_le he.1
  have hget := hrep.of_holds he
  have hget' := hrep'.of_holds he'
  rw [← getElem?_take_of_lt (show q - 1 < q by omega)] at hget hget'
  rw [htake, hget'] at hget
  exact (Option.some.inj hget).symm

lemma Settled.bounds {r : Raft} (h : Settled V g (view r)) :
    r.rlog.compacted ≤ r.commit ∧ r.commit ≤ r.rlog.lastIndex := by
  obtain ⟨hcomp, L, hrep, hc⟩ := h
  refine ⟨hcomp, ?_⟩
  rw [show r.rlog.lastIndex = L.length from hrep.last]
  exact hc.length_le

end

lemma exists_holds {r : Raft} {q : Nat} (hcomp : r.rlog.compacted < q)
    (hlast : q ≤ r.rlog.lastIndex) : ∃ e, r.Holds q e :=
  ⟨r.rlog.log.read q, hcomp, logAt_of_range (by omega) hlast hcomp.le⟩

section

variable {K : Checks} {V : Voters} {c : Cluster}

lemma commit_le_next (hidle : Idle V c) {a : Action} (hen : Cluster.Enabled V c a)
    (hok : K.ok c a) (i : Nat) : (c.node i).commit ≤ ((c.next a).node i).commit :=
  (next_movesTo hidle hen hok).keeps (P := fun v => (c.node i).commit ≤ v.commit)
    (fun hmove h => h.trans hmove.commit_le) le_rfl

end

/-! ## What a follower takes over -/

lemma commit_le_of_told {r : Raft} {m : Msg} (htype : m.type = .app ∨ m.type = .heartbeat) :
    (cetcdRaftStep r m).2.commit ≤ max r.commit m.commit := by
  have hfollow : ∀ r' : Raft, r'.commit = r.commit →
      (followCommit r' m.commit).commit ≤ max r.commit m.commit := by
    intro r' heq
    have := congrArg View.commit (view_followCommit r' m.commit)
    change (followCommit r' m.commit).commit = _ at this
    rw [this]
    dsimp only
    rw [heq]
    exact max_le_max le_rfl (min_le_left _ _)
  unfold cetcdRaftStep
  obtain htype | htype := htype
  · rw [htype]
    dsimp only
    unfold handleApp
    dsimp only
    split
    · exact le_max_left _ _
    rename_i hge
    have hcommit := (acts_acceptLeader (Nat.le_of_not_lt hge)).2.commit
    split
    · exact hcommit.le.trans (le_max_left _ _)
    split
    · exact hcommit.le.trans (le_max_left _ _)
    refine hfollow _ ?_
    exact (congrArg View.commit (appendEntries_spec m.entries (acceptLeader r m) _)).trans hcommit
  rw [htype]
  dsimp only
  unfold handleHeartbeat
  split
  · exact le_max_left _ _
  · rename_i hge
    exact hfollow _ (acts_acceptLeader (Nat.le_of_not_lt hge)).2.commit

end Protocol

namespace Cluster

open Lib Raft Protocol List Function

/-- The conditions on a delivery under which nothing committed is ever put in doubt. -/
def SafeDelivery (r : Raft) (m : Msg) : Prop :=
  FreshVote r m ∧ TrustedAcks r m ∧ VerifiedHeartbeat r m
  deriving Decidable

def allChecks : Checks := ⟨True, True, True, True, True⟩

lemma SafeDelivery.met {r : Raft} {m : Msg} (h : SafeDelivery r m) : allChecks.Met r m := by
  obtain ⟨hvote, ⟨hsnap, htail, hack, hstatus, hstart⟩, hbeat⟩ := h
  exact ⟨fun _ => hvote, fun _ => hsnap, fun _ => htail, fun _ => hack, fun _ => hstatus,
    fun _ => hstart, fun _ => hbeat⟩

lemma safe_run {V : Voters} {c : Cluster} {rest : List Cluster}
    (hrun : Run V (onDelivery SafeDelivery) (c :: rest)) :
    Idle V c ∧ ∃ g, Elections Entry.term V.ids g.llog g.elog g.ledIn g.ack g.voteLog ∧
      (∀ c₁ ∈ c :: rest, ∀ i ∈ V.ids, Settled V g (view (c₁.node i))) ∧
      ∀ p ∈ c.sent, Settled V g (view p.origin) ∧
        (p.msg.type = .app ∨ p.msg.type = .heartbeat → p.msg.commit ≤ p.origin.commit) := by
  have hchecked : Run V allChecks.ok (c :: rest) := run_checked (fun r m h => h.met) hrun
  obtain ⟨hidle, g, hmem⟩ := (kept_safe trivial trivial trivial trivial trivial).run hchecked
  exact ⟨hidle, g, hmem.now.elections, hmem.states, hmem.packets⟩

/-- Refinement: in a run whose deliveries meet `K` every step follows the protocol that `K` guards,
also if `K` asks for nothing. -/
theorem step_refines {K : Checks} {V : Voters} {c c' : Cluster} {rest : List Cluster}
    (hrun : Run V K.ok (c' :: c :: rest)) : MovesTo K V c c' := by
  cases hrun with
  | step a hrest hstep =>
    obtain ⟨hen, hok, rfl⟩ := hstep
    have hidle : Idle V c := hrest.forall_mem (fun _ => Idle.initial)
      (fun _ _ _ h ⟨hen, hok, hnext⟩ => hnext ▸ h.next hen hok) c mem_cons_self
    exact next_movesTo hidle hen hok

/-- A vote request is delivered. -/
theorem step_refines_delivery : MovesTo allChecks three (finish bootThree [call 1 .hup])
    (finish bootThree [call 1 .hup, nth 0]) := by
  have hrun : Run three (onDelivery SafeDelivery) (replay [] bootThree [call 1 .hup, nth 0]) :=
    run_replay initial_bootThree (by decide +kernel)
  exact @step_refines allChecks three _ _ [bootThree] (run_checked (fun r m h => h.met) hrun)

/-- State-machine safety: if all deliveries are safe, two nodes that have committed an index, at
whatever moments, hold the same entry there. -/
theorem committed_entries_agree {V : Voters} {hist : List Cluster}
    (hrun : Run V (onDelivery SafeDelivery) hist) {c₁ c₂ : Cluster} (h₁ : c₁ ∈ hist)
    (h₂ : c₂ ∈ hist) {i j : Nat} (hi : i ∈ V.ids) (hj : j ∈ V.ids) {q : Nat}
    (hq₁ : q ≤ (c₁.node i).commit) (hq₂ : q ≤ (c₂.node j).commit) {e e' : Entry}
    (he : (c₁.node i).Holds q e) (he' : (c₂.node j).Holds q e') : e = e' := by
  obtain ⟨c, rest, rfl⟩ := hrun.exists_cons
  obtain ⟨_, g, hel, hstates, _⟩ := safe_run hrun
  exact (hstates c₁ h₁ i hi).agree (hstates c₂ h₂ j hj) hel hq₁ hq₂ he he'

/-- Node 1 is elected, replicates one entry to node 2, commits it and tells node 2. -/
def commitOne : List (Cluster → Action) :=
  [call 1 .hup, nth 0, nth 2, call 1 .prop [7], nth 5, nth 7, call 1 .beat, nth 8]

theorem committed_entries_agree_replicated :
    Run three (onDelivery SafeDelivery) (replay [] bootThree commitOne) ∧
      1 ≤ ((finish bootThree (commitOne.take 7)).node 1).commit ∧
      1 ≤ ((finish bootThree commitOne).node 2).commit ∧
      (⟨1, 1, .normal, [7]⟩ : Entry) = ⟨1, 1, .normal, [7]⟩ := by
  have hrun : Run three (onDelivery SafeDelivery) (replay [] bootThree commitOne) :=
    run_replay initial_bootThree (by decide +kernel)
  have hone : 1 ≤ ((finish bootThree (commitOne.take 7)).node 1).commit := by decide +kernel
  have htwo : 1 ≤ ((finish bootThree commitOne).node 2).commit := by decide +kernel
  exact ⟨hrun, hone, htwo,
    committed_entries_agree hrun (finish_take_mem_replay _ 7 _ _) (finish_mem_replay _ _ _)
      (by decide) (by decide) hone htwo (by decide +kernel) (by decide +kernel)⟩

/-- Leader completeness: if all deliveries are safe, a leader holds every entry that was committed
before at a node of its term or an earlier one, unless it has compacted it. -/
theorem leader_holds_committed {V : Voters} {c : Cluster} {rest : List Cluster}
    (hrun : Run V (onDelivery SafeDelivery) (c :: rest)) {c₁ : Cluster} (h₁ : c₁ ∈ c :: rest)
    {i j q : Nat} (hi : i ∈ V.ids) (hj : j ∈ V.ids) (hlead : (c.node j).role = .leader)
    (hterm : (c₁.node i).term ≤ (c.node j).term) {e : Entry} (hq : q ≤ (c₁.node i).commit)
    (he : (c₁.node i).Holds q e) (hcomp : (c.node j).rlog.compacted < q) :
    (c.node j).Holds q e := by
  have hchecked : Run V allChecks.ok (c :: rest) := run_checked (fun r m h => h.met) hrun
  obtain ⟨_, g, hnow, hstates, -⟩ := (kept_safe trivial trivial trivial trivial trivial).run hchecked
  obtain ⟨_, L, _, hc⟩ := hstates c₁ h₁ i hi
  have hlog := hnow.logs.node j hj
  -- the leader could have committed what is committed
  have hcould : Settled V g (view { c.node j with commit := (c₁.node i).commit }) :=
    ⟨hcomp.le.trans hq, _, hlog.rep, hc.carry hnow.elections hterm
      ⟨j, (hnow.base.node j hj).lead hlead⟩ fun X _ hX => hlog.lead hlead ▸ hX⟩
  obtain ⟨e', he'⟩ := exists_holds hcomp (hq.trans hcould.bounds.2)
  rwa [(hstates c₁ h₁ i hi).agree hcould hnow.elections hq hq he he']

theorem leader_holds_committed_replicated :
    ((finish bootThree commitOne).node 1).Holds 1 ⟨1, 1, .normal, [7]⟩ := by
  have hrun : Run three (onDelivery SafeDelivery) (replay [] bootThree commitOne) :=
    run_replay initial_bootThree (by decide +kernel)
  exact leader_holds_committed hrun (finish_mem_replay commitOne [] bootThree)
    (show 2 ∈ three.ids by decide) (by decide) (by decide +kernel) (by decide +kernel)
    (by decide +kernel) (by decide +kernel) (by decide +kernel)

/-- Node 1 keeps an entry of term 1; node 2 commits another one in term 2, and its heartbeat reaches
node 1. -/
def heartbeatOverConflict : List (Cluster → Action) :=
  [call 1 .hup, nth 0, nth 2, call 1 .prop [7], call 2 .hup, nth 8, nth 9, call 2 .prop [8],
    nth 13, nth 14, call 2 .beat, nth 15]

/-- A heartbeat commits whatever the follower has there: index 1 is committed with different
entries. -/
theorem committed_entries_differ :
    ∃ hist, Run three anyStep hist ∧ LeadersAgree three hist ∧ ∃ c ∈ hist,
      1 ≤ (c.node 1).commit ∧ 1 ≤ (c.node 2).commit ∧
      (c.node 1).Holds 1 ⟨1, 1, .normal, [7]⟩ ∧ (c.node 2).Holds 1 ⟨2, 1, .normal, [8]⟩ := by
  refine ⟨replay [] bootThree heartbeatOverConflict,
    run_replay initial_bootThree (by decide +kernel),
    leadersAgree_of_freshVote (run_replay initial_bootThree (by decide +kernel)),
    finish bootThree heartbeatOverConflict, finish_mem_replay _ _ _, ?_⟩
  decide +kernel

/-- If all deliveries are safe, the commit index lies between the compacted prefix and the end of
the log, it never decreases, and no step changes or removes an entry up to it that stays
uncompacted. -/
theorem committed_entries_kept {V : Voters} {hist : List Cluster}
    (hrun : Run V (onDelivery SafeDelivery) hist) {i : Nat} (hi : i ∈ V.ids) :
    (∀ c ∈ hist, (c.node i).rlog.compacted ≤ (c.node i).commit ∧
      (c.node i).commit ≤ (c.node i).rlog.lastIndex) ∧
    ∀ c c' rest, (c' :: c :: rest) <:+ hist → (c.node i).commit ≤ (c'.node i).commit ∧
      ∀ q e, (c.node i).Holds q e → q ≤ (c.node i).commit → (c'.node i).rlog.compacted < q →
        (c'.node i).Holds q e := by
  refine ⟨?_, ?_⟩
  · intro c hc
    obtain ⟨d, rest, rfl⟩ := hrun.exists_cons
    obtain ⟨_, g, _, hstates, _⟩ := safe_run hrun
    exact (hstates c hc i hi).bounds
  intro c c' rest hsuf
  have hrun' := hrun.of_suffix hsuf
  obtain ⟨_, g, hel, hstates, _⟩ := safe_run hrun'
  have hbefore := hstates c (by simp) i hi
  have hafter := hstates c' (by simp) i hi
  have hmono : (c.node i).commit ≤ (c'.node i).commit := by
    cases hrun' with
    | step a hrest hstep =>
      obtain ⟨hen, hok, rfl⟩ := hstep
      refine commit_le_next (K := allChecks) (safe_run hrest).1 hen ?_ i
      cases a with
      | deliver p => exact SafeDelivery.met hok
      | _ => trivial
  refine ⟨hmono, ?_⟩
  intro q e he hq hcomp
  obtain ⟨e', he'⟩ := exists_holds hcomp ((hq.trans hmono).trans hafter.bounds.2)
  rwa [hbefore.agree hafter hel hq (hq.trans hmono) he he']

/-- Node 1 replicates three entries to node 2, which commits them and compacts the first two. -/
def compactCommitted : List (Cluster → Action) :=
  [call 1 .hup, nth 0, nth 2, call 1 .prop [7], nth 5, nth 7, call 1 .prop [8], nth 8, nth 9,
    call 1 .prop [9], nth 10, nth 11, call 1 .beat, nth 12, fun _ => .compact 2 2]

theorem committed_entries_kept_compacted :
    Run three (onDelivery SafeDelivery) (replay [] bootThree compactCommitted) ∧
      ((finish bootThree compactCommitted).node 2).rlog.compacted = 2 ∧
      ((finish bootThree compactCommitted).node 2).commit = 3 ∧
      ((finish bootThree compactCommitted).node 2).rlog.compacted ≤
        ((finish bootThree compactCommitted).node 2).commit := by
  have hrun : Run three (onDelivery SafeDelivery) (replay [] bootThree compactCommitted) :=
    run_replay initial_bootThree (by decide +kernel)
  exact ⟨hrun, by decide +kernel, by decide +kernel,
    ((committed_entries_kept hrun (i := 2) (by decide)).1 _ (finish_mem_replay _ _ _)).1⟩

/-- The first Append again: the log is cut, and the committed entry 3 is gone. -/
theorem committed_entry_lost :
    ∃ hist, Run three anyStep hist ∧ LeadersAgree three hist ∧ ∃ c c' rest,
      (c' :: c :: rest) <:+ hist ∧ (c.node 2).Holds 3 ⟨1, 3, .normal, [9]⟩ ∧
      (c.node 2).commit = 3 ∧ (c'.node 2).rlog.compacted = 2 ∧ (c'.node 2).commit = 3 ∧
      (c'.node 2).rlog.lastIndex = 1 := by
  refine ⟨replay [] bootThree (compactCommitted ++ [nth 5]),
    run_replay initial_bootThree (by decide +kernel),
    leadersAgree_of_freshVote (run_replay initial_bootThree (by decide +kernel)),
    finish bootThree compactCommitted, finish bootThree (compactCommitted ++ [nth 5]),
    (replay [] bootThree (compactCommitted ++ [nth 5])).drop 2, ?_, ?_⟩
  · exact suffix_refl _
  · decide +kernel

/-- When an Append or a heartbeat raises the commit index in a run of safe deliveries, the node's
log agrees up to there with the log its sender had (`p.origin`), wherever neither has compacted. -/
theorem follower_commit_safe {V : Voters} {c : Cluster} {rest : List Cluster}
    (hrun : Run V (onDelivery SafeDelivery) (c :: rest)) {p : Packet}
    (hen : Enabled V c (.deliver p)) (hok : SafeDelivery (c.node p.msg.dest) p.msg)
    (htype : p.msg.type = .app ∨ p.msg.type = .heartbeat)
    (hraise : (c.node p.msg.dest).commit < ((c.next (.deliver p)).node p.msg.dest).commit)
    {q : Nat} (hq : q ≤ ((c.next (.deliver p)).node p.msg.dest).commit)
    (hcomp : ((c.next (.deliver p)).node p.msg.dest).rlog.compacted < q)
    (hcomp' : p.origin.rlog.compacted < q) :
    ∃ e, ((c.next (.deliver p)).node p.msg.dest).Holds q e ∧ p.origin.Holds q e := by
  have hrun' : Run V (onDelivery SafeDelivery) (c.next (.deliver p) :: c :: rest) :=
    .step (.deliver p) hrun ⟨hen, hok, rfl⟩
  obtain ⟨_, g, hel, hstates, hpackets⟩ := safe_run hrun'
  have hnode := hstates _ (mem_cons_self ..) p.msg.dest hen.2
  have hsent : p ∈ (c.next (.deliver p)).sent := mem_append_left _ hen.1
  obtain ⟨horigin, htold⟩ := hpackets p hsent
  -- the new commit index is one the sender had reached
  have hreach : ((c.next (.deliver p)).node p.msg.dest).commit ≤ p.origin.commit := by
    have hview := congrFun (views_perform c p.msg.dest
      (cetcdRaftStep (c.node p.msg.dest) p.msg).2) p.msg.dest
    rw [update_self] at hview
    have hcommit : ((c.next (.deliver p)).node p.msg.dest).commit =
        (cetcdRaftStep (c.node p.msg.dest) p.msg).2.commit := congrArg View.commit hview
    have hle := commit_le_of_told (r := c.node p.msg.dest) htype
    have := htold htype
    omega
  obtain ⟨e, he⟩ := exists_holds hcomp (hq.trans hnode.bounds.2)
  obtain ⟨e', he'⟩ := exists_holds hcomp' ((hq.trans hreach).trans horigin.bounds.2)
  refine ⟨e, he, ?_⟩
  rwa [hnode.agree horigin hel hq (hq.trans hreach) he he']

/-- The heartbeat that tells node 2 of the commit, still on its way in `commitOne`. -/
def commitNews : Packet :=
  ((finish bootThree (commitOne.take 7)).sent[8]?).getD ⟨{ type := .hup }, default⟩

theorem follower_commit_safe_told :
    Run three (onDelivery SafeDelivery) (replay [] bootThree (commitOne.take 7)) ∧
      ((finish bootThree (commitOne.take 7)).node 2).commit = 0 ∧
      (((finish bootThree (commitOne.take 7)).next (.deliver commitNews)).node 2).commit = 1 ∧
      ∃ e, (((finish bootThree (commitOne.take 7)).next (.deliver commitNews)).node 2).Holds 1 e ∧
        commitNews.origin.Holds 1 e := by
  have hrun : Run three (onDelivery SafeDelivery) (replay [] bootThree (commitOne.take 7)) :=
    run_replay initial_bootThree (by decide +kernel)
  refine ⟨hrun, by decide +kernel, by decide +kernel, ?_⟩
  have hrun' : Run three (onDelivery SafeDelivery) (finish bootThree (commitOne.take 7) ::
      (replay [] bootThree (commitOne.take 7)).tail) := hrun
  exact follower_commit_safe hrun' (p := commitNews) (by decide +kernel) (by decide +kernel)
    (.inr (by decide +kernel)) (by decide +kernel) (by decide +kernel) (by decide +kernel)
    (by decide +kernel)

/-- The heartbeat of `heartbeatOverConflict`, on its way to node 1. -/
def conflictNews : Packet :=
  ((finish bootThree (heartbeatOverConflict.take 11)).sent[15]?).getD ⟨{ type := .hup }, default⟩

/-- The heartbeat raises the commit index of node 1 over an entry that its sender never had. -/
theorem follower_commit_unsafe :
    ∃ hist c, Run three anyStep (c :: hist) ∧ LeadersAgree three (c :: hist) ∧ ∃ p,
      Enabled three c (.deliver p) ∧ p.msg.type = .heartbeat ∧ p.msg.dest = 1 ∧
      (c.node 1).commit < ((c.next (.deliver p)).node 1).commit ∧
      1 ≤ ((c.next (.deliver p)).node 1).commit ∧
      ((c.next (.deliver p)).node 1).Holds 1 ⟨1, 1, .normal, [7]⟩ ∧
      p.origin.Holds 1 ⟨2, 1, .normal, [8]⟩ := by
  have hrun : Run three (onDelivery FreshVote)
      (replay [] bootThree (heartbeatOverConflict.take 11)) :=
    run_replay initial_bootThree (by decide +kernel)
  refine ⟨(replay [] bootThree (heartbeatOverConflict.take 11)).tail,
    finish bootThree (heartbeatOverConflict.take 11), ?_, leadersAgree_of_freshVote hrun,
    conflictNews, ?_⟩
  · exact hrun.mono (fun c a c' h => ⟨h.1, trivial, h.2.2⟩)
  · decide +kernel

end Cluster
end Cetcd
