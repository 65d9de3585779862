import Cetcd.Protocol.Election

/-!
# Log matching

A prefix that ends in an entry of term `t` is a prefix of what the leader of `t` had. An accepted
Append leaves the log or replaces it by a prefix of its leader's log; a snapshot keeps it if it
meets the entry it stands for (`MatchingSnap`). Entries of term zero stand for what a node does not
know; they come from a snapshot whose leader had lost its log below it, and are always compacted.
-/

namespace Cetcd
namespace Protocol

open Lib Raft List Function Ghost

/-! ## Anchors -/

/-- `P` is a prefix of the log of the leader of `s`; of term zero there are only blanks. -/
def Ghost.pre (g : Ghost) (s : Nat) (P : List Entry) : Prop :=
  if s = 0 then P = List.replicate P.length default else P <+: g.llog s

lemma Ghost.onePrefix_pre (g : Ghost) : OnePrefix g.pre := by
  intro t P Q hP hQ hlen
  unfold Ghost.pre at hP hQ
  split at hP
  · rename_i h0
    rw [if_pos h0] at hQ
    rw [hP, hQ, hlen]
  rename_i h0
  rw [if_neg h0] at hQ
  rw [prefix_iff_eq_take.1 hP, prefix_iff_eq_take.1 hQ, hlen]

lemma Ghost.pre_mono {g g' : Ghost} (h : ∀ t, g.llog t <+: g'.llog t) (s : Nat)
    (P : List Entry) (hP : g.pre s P) : g'.pre s P := by
  unfold Ghost.pre at hP ⊢
  split
  · rename_i h0
    rwa [if_pos h0] at hP
  rename_i h0
  rw [if_neg h0] at hP
  exact hP.trans (h s)

lemma anchored_blank (g : Ghost) (n : Nat) :
    Anchored Entry.term g.pre (List.replicate n default) := by
  intro k hk
  have hterm : ((List.replicate n (default : Entry))[k]).term = 0 := by
    rw [getElem_replicate]
    rfl
  rw [hterm]
  unfold Ghost.pre
  rw [if_pos rfl, take_replicate, length_replicate]

structure NodeLog (g : Ghost) (i : Nat) (v : View) : Prop where
  rep : Rep v.rlog (g.vlog i)
  anch : Anchored Entry.term g.pre (g.vlog i)
  zero : ∀ q e, (g.vlog i)[q]? = some e → e.term = 0 → q + 1 ≤ v.rlog.compacted
  lead : v.role = .leader → g.llog v.term = g.vlog i

/-- The entries of an Append stand in the log of its leader, after `index`. -/
structure AppOk (g : Ghost) (m : Msg) : Prop where
  term : m.term ≠ 0
  nonempty : m.entries ≠ []
  le : m.index + m.entries.length ≤ (g.llog m.term).length
  entries : ∀ k (h : k < m.entries.length), (g.llog m.term)[m.index + k]? = some m.entries[k]
  known : ∀ e ∈ m.entries, e.term ≠ 0
  prev : m.index ≠ 0 → ∃ e, (g.llog m.term)[m.index - 1]? = some e ∧ e.term = m.logTerm

/-- The term of a snapshot is that of the leader's entry it stands for. -/
structure SnapOk (g : Ghost) (m : Msg) : Prop where
  term : m.term ≠ 0
  pos : m.snapshot ≠ 0
  base : ∃ e, (g.llog m.term)[m.snapshot - 1]? = some e ∧ e.term = m.logTerm

structure Logs (V : Voters) (nodes : Nat → View) (net : Msg → Prop) (g : Ghost) : Prop where
  node : ∀ i ∈ V.ids, NodeLog g i (nodes i)
  app : ∀ m, net m → m.type = .app → AppOk g m
  snap : ∀ m, net m → m.type = .snap → m.logTerm ≠ 0 → SnapOk g m
  record : ∀ t, g.llog t ≠ [] → ∃ j, g.led j t
  anch : ∀ t, Anchored Entry.term g.pre (g.llog t)
  index : ∀ t q e, (g.llog t)[q]? = some e → e.term ≠ 0 → e.index = q + 1

section

variable {g g' : Ghost}

lemma AppOk.mono (h : ∀ t, g.llog t <+: g'.llog t) {m : Msg} (hm : AppOk g m) : AppOk g' m where
  term := hm.term
  nonempty := hm.nonempty
  le := hm.le.trans (h m.term).length_le
  entries k hk := getElem?_extend (h m.term) (hm.entries k hk)
  known := hm.known
  prev h0 := by
    obtain ⟨e, he, ht⟩ := hm.prev h0
    exact ⟨e, getElem?_extend (h m.term) he, ht⟩

lemma SnapOk.mono (h : ∀ t, g.llog t <+: g'.llog t) {m : Msg} (hm : SnapOk g m) : SnapOk g' m where
  term := hm.term
  pos := hm.pos
  base := by
    obtain ⟨e, he, ht⟩ := hm.base
    exact ⟨e, getElem?_extend (h m.term) he, ht⟩

end

section

variable {K : Checks} {V : Voters} {nodes : Nat → View} {net : Msg → Prop} {g : Ghost} {i : Nat}
  {mv : Move} {v v' : View} {j t q : Nat} {e : Entry} {m : Msg}

@[simp] lemma Ghost.cast_vlog (t x : Nat) : (g.cast i t x).vlog = g.vlog := by
  unfold Ghost.cast
  split <;> rfl

@[simp] lemma Ghost.cast_llog (t x : Nat) : (g.cast i t x).llog = g.llog := by
  unfold Ghost.cast
  split <;> rfl

lemma Ghost.vlog_campaign : (g.after i v .campaign).vlog = g.vlog := cast_vlog _ _

lemma Ghost.vlog_grant : (g.after i v (.grant m)).vlog = g.vlog := cast_vlog _ _

lemma Ghost.vlog_accept : (g.after i v (.accept m)).vlog i = g.afterAccept i v.rlog m := update_self ..

lemma Ghost.vlog_install : (g.after i v (.install m)).vlog i = g.afterInstall i v.rlog m :=
  update_self ..

lemma Ghost.vlog_win : (g.after i v .win).vlog i = g.vlog i := update_self ..

lemma Ghost.vlog_propose : (g.after i v (.propose e)).vlog i = g.vlog i ++ [e] := update_self ..

lemma Ghost.llog_win : (g.after i v .win).llog v.term = g.vlog i := update_self ..

lemma Ghost.llog_propose : (g.after i v (.propose e)).llog v.term = g.vlog i ++ [e] := update_self ..

lemma Ghost.vlog_after_other (mv : Move) (hji : j ≠ i) : (g.after i v mv).vlog j = g.vlog j := by
  cases mv with
  | campaign | grant m => exact congrFun (cast_vlog _ _) j
  | accept m | install m | win | propose e => exact update_of_ne hji _ _
  | _ => rfl

lemma Ghost.llog_after (mv : Move) : (g.after i v mv).llog t = g.llog t ∨
      (t = v.term ∧ ((mv = .win ∧ (g.after i v mv).llog t = g.vlog i) ∨
        ∃ e, mv = .propose e ∧ (g.after i v mv).llog t = g.vlog i ++ [e])) := by
  cases mv with
  | campaign | grant m => exact .inl (congrFun (cast_llog _ _) t)
  | win =>
    by_cases ht : t = v.term
    · subst ht
      exact .inr ⟨rfl, .inl ⟨rfl, update_self ..⟩⟩
    · exact .inl (update_of_ne ht _ _)
  | propose e =>
    by_cases ht : t = v.term
    · subst ht
      exact .inr ⟨rfl, .inr ⟨e, rfl, update_self ..⟩⟩
    · exact .inl (update_of_ne ht _ _)
  | _ => exact .inl rfl

lemma Logs.llog_of_win (hb : Base V nodes net g) (hl : Logs V nodes net g) (hi : i ∈ V.ids)
    (hone : OneLeader (g.after i (nodes i) .win)) (hcand : (nodes i).role = .candidate) :
    g.llog (nodes i).term = [] := by
  by_contra hne
  obtain ⟨j, hj⟩ := hl.record _ hne
  have hji : j = i := hone j i (nodes i).term (.inl hj) (.inr ⟨rfl, rfl⟩)
  subst hji
  exact ((hb.node j hi).led _ hj).2.2 rfl hcand

lemma Logs.llog_grows (hb : Base V nodes net g) (hl : Logs V nodes net g) (hi : i ∈ V.ids)
    (hone : OneLeader (g.next nodes i mv)) (h : MoveStep K V net (nodes i) mv v') (t : Nat) :
    g.llog t <+: (g.next nodes i mv).llog t := by
  rcases llog_after (g := g) (i := i) (v := nodes i) (t := t) mv with
    heq | ⟨rfl, ⟨rfl, _⟩ | ⟨e, rfl, heq⟩⟩
  · rw [heq]
  · cases h with
    | win hcand =>
      rw [hl.llog_of_win hb hi hone hcand]
      exact nil_prefix
  rw [heq]
  cases h with
  | propose hlead =>
    rw [(hl.node i hi).lead hlead]
    exact prefix_append _ _

/-! ## An accepted Append -/

section

variable {m : Msg} (hl : Logs V nodes net g) (hn : NodeLog g i v) (hm : AppOk g m)
  (hprev : PrevMatches v.rlog m)

include hm

lemma AppOk.target :
    ((g.llog m.term).take (m.index + m.entries.length)).length = m.index + m.entries.length ∧
      m.entries = ((g.llog m.term).take (m.index + m.entries.length)).drop m.index := by
  have hlen : ((g.llog m.term).take (m.index + m.entries.length)).length =
      m.index + m.entries.length := by
    rw [length_take]
    exact min_eq_left hm.le
  refine ⟨hlen, ?_⟩
  apply ext_getElem?
  intro k
  rw [getElem?_drop]
  by_cases hk : k < m.entries.length
  · rw [getElem?_take_of_lt (by omega), hm.entries k hk, getElem?_eq_getElem hk]
  · rw [getElem?_eq_none (by omega), getElem?_eq_none (by omega)]

lemma AppOk.target_known {q : Nat} {e : Entry} (hq : m.index ≤ q)
    (he : ((g.llog m.term).take (m.index + m.entries.length))[q]? = some e) : e.term ≠ 0 := by
  have hmem : e ∈ m.entries := by
    have := hm.target.2
    rw [this]
    refine mem_of_getElem? (i := q - m.index) ?_
    rw [getElem?_drop, show m.index + (q - m.index) = q by omega]
    exact he
  exact hm.known e hmem

include hn hprev hl

/-- The consistency check: up to `index` the log is the leader's, or it does not reach past what is
compacted. -/
lemma NodeLog.prev_cases : m.index = 0 ∨ (m.index ≤ (g.vlog i).length ∧
      (g.vlog i).take m.index = (g.llog m.term).take m.index) ∨
      (m.index ≤ (g.vlog i).length ∧ m.logTerm = 0 ∧ m.index ≤ v.rlog.compacted) := by
  obtain h0 | ⟨hle, hterm⟩ := hprev
  · exact .inl h0
  by_cases h0 : m.index = 0
  · exact .inl h0
  rw [hn.rep.last] at hle
  obtain ⟨e, he, het⟩ := hm.prev h0
  by_cases hz : m.logTerm = 0
  · refine .inr (.inr ⟨hle, hz, ?_⟩)
    by_contra hgt
    obtain ⟨e', he', het'⟩ := hn.rep.term_at h0 (by omega) hle
    have := hn.zero (m.index - 1) e' he' (by rw [het', hterm, hz])
    omega
  refine .inr (.inl ⟨hle, ?_⟩)
  rcases hn.rep.of_logTermAt_ne_zero (by rw [hterm]; exact hz) with ⟨_, _, _, e', he', het'⟩
  have := hn.anch.take_eq_of_getElem? g.onePrefix_pre (hl.anch m.term) he' he
    (by rw [het', hterm, het])
  rwa [Nat.sub_add_cancel (by omega)] at this

lemma NodeLog.shows_prev : Shows v.rlog ((g.llog m.term).take m.index) := by
  obtain h0 | ⟨hle, htake⟩ | ⟨hle, hz, hcomp⟩ := hn.prev_cases hl hm hprev
  · rw [h0, take_zero]
    exact Shows.nil _
  · rw [← htake]
    exact hn.rep.toShows.take _
  have hlen : ((g.llog m.term).take m.index).length = m.index := by
    have := hm.le
    rw [length_take]
    omega
  obtain hlt | hge := lt_or_ge m.index v.rlog.compacted
  · exact Shows.of_lt_compacted (by rw [hlen]; exact hlt)
  -- the blank at `index` is the compacted entry itself
  have heq : v.rlog.compacted = m.index := by omega
  refine ⟨fun q hq hq' => by rw [hlen] at hq'; omega, fun h0 _ => ?_⟩
  rw [heq] at h0 ⊢
  obtain ⟨e, he, het⟩ := hm.prev h0
  refine ⟨e, ?_, ?_⟩
  · rw [getElem?_take_of_lt (by omega)]
    exact he
  rw [het]
  obtain h | ⟨hle', hterm⟩ := hprev
  · exact absurd h h0
  · rw [← hterm, logTermAt_of_range h0 hle' (by omega)]

lemma NodeLog.rep_accept :
    Rep (storeEntries v.rlog (m.index + 1) m.entries) (g.afterAccept i v.rlog m) := by
  have hle : m.index ≤ (g.vlog i).length := by
    obtain h0 | ⟨hle, _⟩ := hprev
    · omega
    · rwa [hn.rep.last] at hle
  obtain ⟨hlen, hdrop⟩ := hm.target
  have hanchT : Anchored Entry.term g.pre ((g.llog m.term).take (m.index + m.entries.length)) :=
    (hl.anch m.term).restrict (List.take_prefix _ _)
  have hshow : Shows v.rlog (((g.llog m.term).take (m.index + m.entries.length)).take m.index) := by
    rw [take_take, min_eq_left (by omega)]
    exact hn.shows_prev hl hm hprev
  have hstores := Rep.stores m.entries hn.rep hshow hle (by omega) hdrop (fun q hq hkq => by
      have hget := getElem?_eq_getElem hq
      refine hl.index m.term q _ ?_ (hm.target_known hkq hget)
      rwa [getElem?_take_of_lt (by omega)] at hget)
    (fun q hq hkq hqL hterm => by
      -- equal terms that are not zero: both logs are the leader's up to here
      have hget := getElem?_eq_getElem hq
      have hne := hm.target_known hkq hget
      rcases hn.rep.of_logTermAt_ne_zero (by rw [hterm]; exact hne) with ⟨_, _, _, e', he', het'⟩
      exact hn.anch.take_eq_of_getElem? g.onePrefix_pre hanchT he' hget (by rw [het', hterm]))
  unfold Ghost.afterAccept
  split
  · rename_i hhas
    exact hstores.1 hhas
  rename_i hhas
  exact hstores.2 hhas

lemma NodeLog.zero_accept {q : Nat} {e : Entry} (he : (g.afterAccept i v.rlog m)[q]? = some e)
    (h0 : e.term = 0) : q + 1 ≤ v.rlog.compacted := by
  unfold Ghost.afterAccept at he
  split at he
  · exact hn.zero q e he h0
  have hq : q < m.index := by
    by_contra hge
    exact hm.target_known (by omega) he h0
  rw [getElem?_take_of_lt (by omega)] at he
  obtain hi0 | ⟨_, htake⟩ | ⟨_, _, hcomp⟩ := hn.prev_cases hl hm hprev
  · omega
  · refine hn.zero q e ?_ h0
    rw [← getElem?_take_of_lt hq, htake, getElem?_take_of_lt hq]
    exact he
  · omega

omit hm hprev in
lemma NodeLog.anch_accept : Anchored Entry.term g.pre (g.afterAccept i v.rlog m) := by
  unfold Ghost.afterAccept
  split
  · exact hn.anch
  · exact (hl.anch m.term).restrict (List.take_prefix _ _)

end

/-! ## An installed snapshot -/

section

variable {m : Msg} {l : RaftLog} (hl : Logs V nodes net g) (hn : NodeLog g i v)
  (hm : m.logTerm ≠ 0 → SnapOk g m) (hinst : Installed v.rlog m l)
  (hmatch : v.rlog.compacted < m.snapshot → m.snapshot ≤ v.rlog.lastIndex →
    logTermAt v.rlog m.snapshot = m.logTerm)

include hn hinst

lemma NodeLog.rep_install (hm : m.logTerm ≠ 0 → SnapOk g m)
    (hmatch : v.rlog.compacted < m.snapshot → m.snapshot ≤ v.rlog.lastIndex →
      logTermAt v.rlog m.snapshot = m.logTerm) : Rep l (g.afterInstall i v.rlog m) := by
  unfold Ghost.afterInstall
  obtain ⟨hcov, rfl⟩ | ⟨hlt, hl'⟩ := hinst
  · rw [if_pos (.inl hcov)]
    exact hn.rep
  obtain ⟨h0, _, hlast, _⟩ := logCompact_eq_some hl'
  by_cases hin : m.snapshot ≤ v.rlog.lastIndex
  · rw [if_pos (.inr hin)]
    have hle : m.snapshot ≤ (g.vlog i).length := by rwa [hn.rep.last] at hin
    refine hn.rep.compact hl' hle ?_
    have := hn.rep.term_at h0 hlt.le hle
    rwa [hmatch hlt hin] at this
  rw [if_neg (by omega)]
  split
  · rename_i hz
    refine Rep.install (by omega) hl' (length_replicate ..) ?_
    rw [hz, lastTm, getLast?_replicate, if_neg h0]
    rfl
  rename_i hz
  obtain ⟨_, _, e, he, het⟩ := hm hz
  have hlt' := (List.getElem?_eq_some_iff.1 he).1
  have hlen : ((g.llog m.term).take m.snapshot).length = m.snapshot := by
    rw [length_take]
    omega
  refine Rep.install (by omega) hl' hlen ?_
  rw [lastTm, getLast?_eq_getElem?, hlen, getElem?_take_of_lt (by omega), he]
  exact het

lemma NodeLog.zero_install {q : Nat} {e : Entry}
    (he : (g.afterInstall i v.rlog m)[q]? = some e) (h0 : e.term = 0) : q + 1 ≤ l.compacted := by
  have hcomp : v.rlog.compacted ≤ l.compacted ∧ m.snapshot ≤ l.compacted := by
    obtain ⟨hcov, rfl⟩ | ⟨hlt, hl'⟩ := hinst
    · exact ⟨le_rfl, hcov⟩
    obtain ⟨_, _, _, hc, _⟩ := logCompact_eq_some hl'
    omega
  unfold Ghost.afterInstall at he
  split at he
  · exact (hn.zero q e he h0).trans hcomp.1
  have hlen : q < m.snapshot := by
    split at he
    · simpa using (List.getElem?_eq_some_iff.1 he).1
    have := (List.getElem?_eq_some_iff.1 he).1
    rw [length_take] at this
    omega
  omega

omit hinst in
lemma NodeLog.anch_install (hl : Logs V nodes net g) :
    Anchored Entry.term g.pre (g.afterInstall i v.rlog m) := by
  unfold Ghost.afterInstall
  split
  · exact hn.anch
  split
  · exact anchored_blank g _
  · exact (hl.anch m.term).restrict (List.take_prefix _ _)

end

/-! ## Steps -/

lemma getElem?_snoc {L : List Entry} {a : Entry} (h : (L ++ [a])[q]? = some e) :
    L[q]? = some e ∨ q = L.length ∧ e = a := by
  obtain hlt | hge := lt_or_ge q L.length
  · rw [List.getElem?_append_left hlt] at h
    exact .inl h
  have hlt := (List.getElem?_eq_some_iff.1 h).1
  rw [length_append, length_singleton] at hlt
  have hq : q = L.length := by omega
  rw [hq, getElem?_concat_length] at h
  exact .inr ⟨hq, (Option.some.inj h).symm⟩

lemma NodeLog.of_vlog {g' : Ghost} (hn : NodeLog g i v) (hgrow : ∀ t, g.llog t <+: g'.llog t)
    (hv : g'.vlog i = g.vlog i) (hlog : v'.rlog = v.rlog)
    (hlead : v'.role = .leader → g'.llog v'.term = g.vlog i) : NodeLog g' i v' := by
  refine ⟨?_, ?_, ?_, ?_⟩
  · rw [hlog, hv]
    exact hn.rep
  · rw [hv]
    exact hn.anch.mono (pre_mono hgrow)
  · rw [hlog, hv]
    exact hn.zero
  rw [hv]
  exact hlead

lemma NodeLog.own_propose (hb : Base V nodes net g) (hi : i ∈ V.ids) (hn : NodeLog g i (nodes i))
    (hgrow : ∀ t, g.llog t <+: (g.after i (nodes i) (.propose e)).llog t)
    (hlead : (nodes i).role = .leader) (hterm : e.term = (nodes i).term)
    (hidx : e.index = (nodes i).rlog.lastIndex + 1) (hlog : v'.rlog = logAppend (nodes i).rlog e)
    (hsame : v'.term = (nodes i).term) : NodeLog (g.after i (nodes i) (.propose e)) i v' := by
  have hpos : (nodes i).term ≠ 0 := by
    have := ((hb.node i hi).led _ ((hb.node i hi).lead hlead)).1
    omega
  refine ⟨?_, ?_, ?_, fun _ => ?_⟩
  · rw [vlog_propose, hlog]
    exact hn.rep.append hidx
  · rw [vlog_propose]
    refine (hn.anch.mono (pre_mono hgrow)).snoc ?_
    unfold Ghost.pre
    rw [hterm, if_neg hpos, llog_propose]
  · rw [vlog_propose, hlog, logAppend_compacted]
    intro q e' he' h0
    obtain hold | ⟨_, rfl⟩ := getElem?_snoc he'
    · exact hn.zero q e' hold h0
    · exact absurd (hterm.symm.trans h0) hpos
  rw [vlog_propose, hsame]
  exact llog_propose

section

variable (hb : Base V nodes net g) (hl : Logs V nodes net g) (hi : i ∈ V.ids)
  (hone : OneLeader (g.next nodes i mv)) (h : MoveStep K V net (nodes i) mv v')

include hb hl hi hone h

lemma NodeLog.own (hK : K.snaps) : NodeLog (g.next nodes i mv) i v' := by
  have hn := hl.node i hi
  have hgrow := hl.llog_grows hb hi hone h
  cases h with
  | stepDown | preCampaign => exact ⟨hn.rep, hn.anch, hn.zero, fun h => (by cases h)⟩
  | campaign =>
    exact hn.of_vlog hgrow (congrFun (cast_vlog _ _) i) rfl fun h => (by cases h)
  | grant =>
    exact hn.of_vlog hgrow (congrFun (cast_vlog _ _) i) rfl fun hlead =>
      (congrFun (cast_llog _ _) _).trans (hn.lead hlead)
  | win =>
    exact hn.of_vlog hgrow (update_self ..) rfl fun _ => update_self ..
  | propose hlead hterm hidx => exact hn.own_propose hb hi hgrow hlead hterm hidx rfl rfl
  | @accept m hm htype _ hrole _ hprev =>
    have hok := hl.app m hm htype
    have hcomp : (storeEntries (nodes i).rlog (m.index + 1) m.entries).compacted =
        (nodes i).rlog.compacted := storeEntries_compacted _ _ _
    refine ⟨?_, ?_, ?_, fun h => ?_⟩
    · rw [vlog_accept]
      exact hn.rep_accept hl hok hprev
    · rw [vlog_accept]
      exact (hn.anch_accept hl).mono (pre_mono hgrow)
    · rw [vlog_accept]
      intro q e he h0
      change q + 1 ≤ (storeEntries (nodes i).rlog (m.index + 1) m.entries).compacted
      rw [hcomp]
      exact hn.zero_accept hl hok hprev he h0
    change (nodes i).role = .leader at h
    rw [hrole] at h
    cases h
  | @install m l hm htype _ hrole _ h0 hinst hmatch =>
    refine ⟨?_, ?_, ?_, fun h => ?_⟩
    · rw [vlog_install]
      exact hn.rep_install hinst (hl.snap m hm htype) (hmatch hK)
    · rw [vlog_install]
      exact (hn.anch_install hl).mono (pre_mono hgrow)
    · rw [vlog_install]
      intro q e he h0
      exact hn.zero_install hinst he h0
    change (nodes i).role = .leader at h
    rw [hrole] at h
    cases h
  | @compact s ce l _ _ hce hcomp =>
    obtain ⟨h0, hlast, hge, hread⟩ := logAt_eq_some.1 hce
    obtain ⟨_, hc, _, hcs, _⟩ := logCompact_eq_some hcomp
    have hle : s ≤ (g.vlog i).length := by rwa [hn.rep.last] at hlast
    refine ⟨?_, hn.anch, ?_, hn.lead⟩
    · refine hn.rep.compact hcomp hle ?_
      have := hn.rep.term_at h0 hge hle
      rwa [logTermAt_of_range h0 hlast hge, hread] at this
    intro q e he hz
    have := hn.zero q e he hz
    change q + 1 ≤ l.compacted
    omega
  | _ => exact ⟨hn.rep, hn.anch, hn.zero, hn.lead⟩

lemma NodeLog.other (hj : j ∈ V.ids) (hji : j ≠ i) :
    NodeLog (g.next nodes i mv) j (nodes j) := by
  have hn := hl.node j hj
  have hgrow := hl.llog_grows hb hi hone h
  have hv := vlog_after_other (g := g) (v := nodes i) mv hji
  refine hn.of_vlog hgrow hv rfl fun hlead => ?_
  rw [← hn.lead hlead]
  have hled := led_after (i := i) (v := nodes i) mv ((hb.node j hj).lead hlead)
  -- the log of this leader's term could only be changed by a second leader of the term
  rcases llog_after (g := g) (i := i) (v := nodes i) (t := (nodes j).term) mv with
    heq | ⟨hterm, ⟨rfl, _⟩ | ⟨e, rfl, _⟩⟩
  · exact heq
  · exact absurd (hone j i _ hled (.inr ⟨rfl, hterm⟩)) hji
  cases h with
  | propose hlead' =>
    refine absurd (hone j i _ hled ?_) hji
    rw [hterm]
    exact led_after _ ((hb.node i hi).lead hlead')

end

lemma AppOk.of_sent (hb : NodeBase g i v) (hn : NodeLog g i v) (hlead : v.role = .leader)
    (hterm : m.term = v.term) (hfrom : AppFrom v.rlog m) : AppOk g m := by
  have hll : g.llog m.term = g.vlog i := by rw [hterm, hn.lead hlead]
  have hentries : ∀ k (hk : k < m.entries.length),
      (g.vlog i)[m.index + k]? = some m.entries[k] := by
    intro k hk
    have hc := hfrom.compacted_le
    have := hn.rep.of_logAt (by omega) (hfrom.entries k hk)
    rwa [show m.index + 1 + k - 1 = m.index + k by omega] at this
  refine ⟨?_, hfrom.nonempty, ?_, ?_, ?_, ?_⟩
  · have := (hb.led _ (hb.lead hlead)).1
    omega
  · rw [hll, ← hn.rep.last]
    exact hfrom.le_last
  · rw [hll]
    exact hentries
  · intro e he h0
    obtain ⟨k, hk, rfl⟩ := mem_iff_getElem.1 he
    have := hn.zero _ _ (hentries k hk) h0
    have := hfrom.compacted_le
    omega
  intro h0
  rw [hll]
  have hle := hfrom.le_last
  rw [hn.rep.last] at hle
  have := hn.rep.term_at h0 hfrom.compacted_le (by omega)
  rwa [← hfrom.logTerm] at this

lemma SnapOk.of_sent (hb : NodeBase g i v) (hn : NodeLog g i v) (hlead : v.role = .leader)
    (hterm : m.term = v.term) (hfrom : SnapFrom v.rlog m) (h0 : m.logTerm ≠ 0) : SnapOk g m := by
  refine ⟨?_, by rw [hfrom.snapshot]; exact hfrom.pos, ?_⟩
  · have := (hb.led _ (hb.lead hlead)).1
    omega
  rw [hterm, hn.lead hlead, hfrom.snapshot]
  rw [hfrom.logTerm] at h0
  obtain ⟨_, _, _, hex⟩ := hn.rep.of_logTermAt_ne_zero h0
  rwa [← hfrom.logTerm] at hex

lemma MoveStep.sayable_of_out (h : MoveStep K V net v mv v') (hm : m ∈ v'.out) (hnew : m ∉ v.out) :
    Sayable v m ∧ g.after i v mv = g ∨
      m.type = .voteResp ∨ m.type = .appResp ∨ m.type = .snapStatus := by
  cases h with
  | say hsay =>
    obtain hm | hm := mem_append.1 hm
    · exact absurd hm hnew
    rw [mem_singleton.1 hm]
    exact .inl ⟨hsay, rfl⟩
  | grant =>
    obtain hm | hm := mem_append.1 hm
    · exact absurd hm hnew
    rw [mem_singleton.1 hm]
    exact .inr (.inl rfl)
  | accept =>
    obtain hm | hm := mem_append.1 hm
    · exact absurd hm hnew
    rw [mem_singleton.1 hm]
    exact .inr (.inr (.inl rfl))
  | install =>
    obtain hm | hm := mem_append.1 hm
    · exact absurd hm hnew
    rw [mem_singleton.1 hm]
    exact .inr (.inr (.inr rfl))
  | settle => cases hm
  | _ => exact absurd hm hnew

lemma Logs.vlog_index (hl : Logs V nodes net g) (hi : i ∈ V.ids) (he : (g.vlog i)[q]? = some e)
    (h0 : e.term ≠ 0) : e.index = q + 1 := by
  obtain ⟨hlt, rfl⟩ := List.getElem?_eq_some_iff.1 he
  have hpre := (hl.node i hi).anch q hlt
  unfold Ghost.pre at hpre
  rw [if_neg h0] at hpre
  refine hl.index _ q _ (getElem?_extend hpre ?_) h0
  rw [getElem?_take_of_lt (by omega)]
  exact he

lemma MoveStep.sayable_of_new (h : MoveStep K V net (nodes i) mv v') (hm : m ∈ v'.out)
    (hnew : m ∉ (nodes i).out) (htype : m.type = .app ∨ m.type = .snap) :
    Sayable (nodes i) m ∧ g.next nodes i mv = g := by
  obtain hsay | hvote | happ | hsnap := h.sayable_of_out (g := g) (i := i) hm hnew
  · exact hsay
  · rw [hvote] at htype
    rcases htype with h | h <;> cases h
  · rw [happ] at htype
    rcases htype with h | h <;> cases h
  rw [hsnap] at htype
  rcases htype with h | h <;> cases h

section

variable (hi : i ∈ V.ids) (h : MoveStep K V net (nodes i) mv v') (hl : Logs V nodes net g)

include hi h hl

lemma Logs.record_step (hb : Base V nodes net g) (hne : (g.next nodes i mv).llog t ≠ []) :
    ∃ j, (g.next nodes i mv).led j t := by
  rcases llog_after (g := g) (i := i) (v := nodes i) (t := t) mv with
    heq | ⟨rfl, ⟨rfl, _⟩ | ⟨e, rfl, _⟩⟩
  · rw [heq] at hne
    obtain ⟨j, hj⟩ := hl.record t hne
    exact ⟨j, led_after mv hj⟩
  · exact ⟨i, .inr ⟨rfl, rfl⟩⟩
  cases h with
  | propose hlead => exact ⟨i, led_after _ ((hb.node i hi).lead hlead)⟩

omit hi in
lemma Logs.anch_step (hgrow : ∀ t, g.llog t <+: (g.next nodes i mv).llog t)
    (hown : NodeLog (g.next nodes i mv) i v') (t : Nat) :
    Anchored Entry.term (g.next nodes i mv).pre ((g.next nodes i mv).llog t) := by
  rcases llog_after (g := g) (i := i) (v := nodes i) (t := t) mv with
    heq | ⟨rfl, ⟨rfl, _⟩ | ⟨e, rfl, _⟩⟩
  · rw [heq]
    exact (hl.anch t).mono (pre_mono hgrow)
  · cases h with
    | win =>
      have := hown.lead rfl
      change (g.after i (nodes i) .win).llog (nodes i).term = _ at this
      rw [this]
      exact hown.anch
  cases h with
  | propose hlead =>
    have := hown.lead hlead
    change (g.after i (nodes i) (.propose e)).llog (nodes i).term = _ at this
    rw [this]
    exact hown.anch

lemma Logs.index_step (he : ((g.next nodes i mv).llog t)[q]? = some e) (h0 : e.term ≠ 0) :
    e.index = q + 1 := by
  rcases llog_after (g := g) (i := i) (v := nodes i) (t := t) mv with
    heq | ⟨rfl, ⟨rfl, heq⟩ | ⟨e', rfl, heq⟩⟩
  · rw [heq] at he
    exact hl.index t q e he h0
  · rw [heq] at he
    exact hl.vlog_index hi he h0
  rw [heq] at he
  cases h with
  | propose hlead hterm hidx =>
    obtain hold | ⟨rfl, rfl⟩ := getElem?_snoc he
    · exact hl.vlog_index hi hold h0
    · rw [hidx, (hl.node i hi).rep.last]

lemma Logs.step (hK : K.snaps) (hout : ∀ m ∈ (nodes i).out, net m) (hb : Base V nodes net g)
    (hone : OneLeader (g.next nodes i mv)) :
    Logs V (update nodes i v') (fun m => net m ∨ m ∈ v'.out) (g.next nodes i mv) := by
  have hgrow := hl.llog_grows hb hi hone h
  refine ⟨?_, ?_, ?_, fun t => hl.record_step hi h hb,
    hl.anch_step h hgrow (NodeLog.own hb hl hi hone h hK), fun t q e => hl.index_step hi h⟩
  · intro j hj
    by_cases hji : j = i
    · subst hji
      rw [update_self]
      exact NodeLog.own hb hl hj hone h hK
    rw [update_of_ne hji]
    exact NodeLog.other hb hl hi hone h hj hji
  · intro m hm htype
    by_cases hold : net m
    · exact (hl.app m hold htype).mono hgrow
    have hsay := h.sayable_of_new (g := g) (hm.resolve_left hold)
      (fun hin => hold (hout m hin)) (.inl htype)
    rw [hsay.2]
    have := hsay.1.2
    rw [htype] at this
    exact AppOk.of_sent (hb.node i hi) (hl.node i hi) this.1 this.2.1 this.2.2.2
  intro m hm htype h0
  by_cases hold : net m
  · exact (hl.snap m hold htype h0).mono hgrow
  have hsay := h.sayable_of_new (g := g) (hm.resolve_left hold)
    (fun hin => hold (hout m hin)) (.inr htype)
  rw [hsay.2]
  have := hsay.1.2
  rw [htype] at this
  exact SnapOk.of_sent (hb.node i hi) (hl.node i hi) this.1 this.2.1 this.2.2.2 h0

end

lemma Logs.init (hpris : ∀ i ∈ V.ids, Member V i (nodes i).conf (nodes i).mem ∧
    Pristine (nodes i)) (hnet : ∀ m, ¬ net m) : Logs V nodes net Ghost.none := by
  refine ⟨?_, fun m hm => absurd hm (hnet m), fun m hm => absurd hm (hnet m),
    fun t h => absurd rfl h, fun t => Anchored.nil, fun t q e he => by cases he⟩
  intro i hi
  have hp := (hpris i hi).2
  refine ⟨?_, Anchored.nil, fun q e he => (by cases he), fun _ => rfl⟩
  rw [hp.rlog]
  exact Rep.empty

lemma OneLeader.before (h : OneLeader (g.after i v mv)) : OneLeader g :=
  fun j k t hj hk => h j k t (led_after mv hj) (led_after mv hk)

lemma kept_logs (hK : K.snaps) : Kept K V
    (fun nodes net g => Base V nodes net g ∧ (OneLeader g → Logs V nodes net g))
    (fun _ _ _ => True) (fun _ _ _ => True) where
  init hpris hnet := ⟨Base.init hpris hnet, fun _ => Logs.init hpris hnet⟩
  stable _ _ _ _ _ _ hi hout h hJ :=
    ⟨hJ.1.step hi hout h, fun hone => (hJ.2 hone.before).step hi h hK hout hJ.1 hone⟩
  state _ _ := trivial
  packet _ _ _ := trivial
  state_step _ _ _ _ _ _ _ := trivial
  packet_step _ _ _ _ _ _ _ := trivial

end

lemma Remembered.oneLeader {V : Voters} {J : (Nat → View) → (Msg → Prop) → Ghost → Prop}
    {A : Ghost → Nat → View → Prop} {B : Ghost → Msg → View → Prop} {g : Ghost} {c : Cluster}
    {hist : List Cluster} (h : Remembered V J A B g c hist)
    (hagree : Cluster.LeadersAgree V (c :: hist)) : OneLeader g := by
  intro i j t hi hj
  obtain ⟨c₁, h₁, hiV, hrole₁, hterm₁⟩ := h.led i t hi
  obtain ⟨c₂, h₂, hjV, hrole₂, hterm₂⟩ := h.led j t hj
  exact hagree c₁ h₁ c₂ h₂ i hiV j hjV hrole₁ hrole₂ (hterm₁.trans hterm₂.symm)

lemma Rep.of_holds {r : Raft} {L : List Entry} (h : Rep r.rlog L) {q : Nat} {e : Entry}
    (hq : r.Holds q e) : L[q - 1]? = some e :=
  h.of_logAt hq.1 hq.2

end Protocol

namespace Cluster

open Lib Raft Protocol List

/-- Only the snapshots are checked. -/
def snapsOnly : Checks := ⟨False, True, False, False, False⟩

/-- Log matching: with one leader per term, and if every snapshot that falls inside a log meets the
entry it stands for, two nodes with entries of one index and term hold the same entries at every
index up to there that both hold. -/
theorem logs_match {V : Voters} {hist : List Cluster}
    (hrun : Run V (onDelivery MatchingSnap) hist) (hagree : LeadersAgree V hist) {c : Cluster}
    (hc : c ∈ hist) {i j : Nat} (hi : i ∈ V.ids) (hj : j ∈ V.ids) {k : Nat} {e e' : Entry}
    (he : (c.node i).Holds k e) (he' : (c.node j).Holds k e') (hterm : e.term = e'.term)
    {q : Nat} (hq : q ≤ k) {d d' : Entry} (hd : (c.node i).Holds q d)
    (hd' : (c.node j).Holds q d') : d = d' := by
  obtain ⟨rest, hrun', hsuf⟩ := hrun.exists_suffix hc
  have hchecked : Run V snapsOnly.ok (c :: rest) :=
    run_checked (fun r m h => ⟨False.elim, fun _ => h, False.elim, False.elim, False.elim,
      False.elim, False.elim⟩) hrun'
  obtain ⟨_, g, hmem⟩ := (kept_logs trivial).run hchecked
  have hone : OneLeader g := hmem.oneLeader
    (fun c₁ h₁ c₂ h₂ => hagree c₁ (hsuf.subset h₁) c₂ (hsuf.subset h₂))
  have hlogs := hmem.now.2 hone
  have hni := hlogs.node i hi
  have hnj := hlogs.node j hj
  have htake := hni.anch.take_eq_of_getElem? g.onePrefix_pre hnj.anch
    (hni.rep.of_holds he) (hnj.rep.of_holds he') hterm
  have hpos : 0 < q := lt_of_le_of_lt (Nat.zero_le _) hd.1
  have hdi := hni.rep.of_holds hd
  have hdj := hnj.rep.of_holds hd'
  rw [← getElem?_take_of_lt (show q - 1 < k - 1 + 1 by omega)] at hdi hdj
  rw [htake, hdj] at hdi
  exact (Option.some.inj hdi).symm

/-- Node 1 is elected and replicates one entry to node 2. -/
def replicateOne : List (Cluster → Action) :=
  [call 1 .hup, nth 0, nth 2, call 1 .prop [7], nth 5]

theorem logs_match_replicated :
    Run three (onDelivery MatchingSnap) (replay [] bootThree replicateOne) ∧
      LeadersAgree three (replay [] bootThree replicateOne) ∧
      ((finish bootThree replicateOne).node 1).Holds 1 ⟨1, 1, .normal, [7]⟩ ∧
      ((finish bootThree replicateOne).node 2).Holds 1 ⟨1, 1, .normal, [7]⟩ ∧
      (⟨1, 1, .normal, [7]⟩ : Entry) = ⟨1, 1, .normal, [7]⟩ := by
  have hrun : Run three (onDelivery MatchingSnap) (replay [] bootThree replicateOne) :=
    run_replay initial_bootThree (by decide +kernel)
  have hagree : LeadersAgree three (replay [] bootThree replicateOne) :=
    leadersAgree_of_freshVote (run_replay initial_bootThree (by decide +kernel))
  have hone : ((finish bootThree replicateOne).node 1).Holds 1 ⟨1, 1, .normal, [7]⟩ := by
    decide +kernel
  have htwo : ((finish bootThree replicateOne).node 2).Holds 1 ⟨1, 1, .normal, [7]⟩ := by
    decide +kernel
  exact ⟨hrun, hagree, hone, htwo,
    logs_match hrun hagree (finish_mem_replay _ _ _) (by decide) (by decide) hone htwo rfl
      (le_refl 1) hone htwo⟩

/-- Node 3 leads term 1 and node 5 acknowledges three entries, an answer that stays under way.
Node 1 leads term 2 with three entries, of which node 3 gets the first and node 5 all.  Node 3
leads term 3 with that first entry and one of its own, which node 4 gets; the late answer of
term 1 lets node 3 commit and compact both.  Its snapshot reaches node 1, whose second entry is
another one; the third stays behind it.  Node 1 leads term 4, and node 4 takes that third entry
after its own second one. -/
def snapshotOverConflict : List (Cluster → Action) :=
  [call 3 .hup, nth 2, nth 3, nth 4, nth 5, call 3 .prop [1], nth 13, call 3 .prop [2],
    call 3 .prop [3], nth 14, nth 15,
    nth 6, call 1 .hup, nth 18, nth 20, nth 22, nth 23, call 1 .prop [10], nth 29, nth 31,
    call 1 .prop [11], call 1 .prop [12], nth 33, nth 34,
    call 3 .hup, nth 37, nth 38, nth 40, nth 41, call 3 .prop [20], nth 48, nth 50, nth 51, nth 52,
    nth 16, fun _ => .compact 3 2, call 3 .beat, nth 54,
    call 1 .hup, nth 60, nth 63, nth 64, nth 65, call 1 .prop [30], nth 73, nth 72, nth 75, nth 76]

/-- Two nodes hold one entry at index 4 and different ones at index 2. -/
theorem logs_differ_below_equal_entries :
    ∃ hist, Run five anyStep hist ∧ LeadersAgree five hist ∧ ∃ c ∈ hist,
      (c.node 4).Holds 4 ⟨4, 4, .normal, [30]⟩ ∧ (c.node 5).Holds 4 ⟨4, 4, .normal, [30]⟩ ∧
      (c.node 4).Holds 2 ⟨3, 2, .normal, [20]⟩ ∧ (c.node 5).Holds 2 ⟨2, 2, .normal, [11]⟩ := by
  refine ⟨replay [] bootFive snapshotOverConflict, run_replay initial_bootFive (by decide +kernel),
    leadersAgree_of_freshVote (run_replay initial_bootFive (by decide +kernel)),
    finish bootFive snapshotOverConflict, finish_mem_replay _ _ _, ?_⟩
  decide +kernel

end Cluster
end Cetcd
