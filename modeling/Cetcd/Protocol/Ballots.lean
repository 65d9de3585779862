import Cetcd.Protocol.Progress

/-!
# What elections know

The log with which a node votes still holds what the node has acknowledged, unless a leader in
between had started without it (`Ghost.Keeps`). With the comparison of logs in `handle_vote_` this
gives leader completeness. The facts are carried through every move and handed to the library
(`Ballots.elections`).
-/

namespace Cetcd.Protocol

open Lib Raft List Function Ghost

namespace Ghost

/-- Some node has led the term. -/
def ledIn (g : Ghost) (t : Nat) : Prop := ∃ j, g.led j t

/-- Node `x` has acknowledged the first `k` entries to the leader of term `t`. -/
def ack (g : Ghost) (x t k : Nat) : Prop := k ≤ g.acked x t

def Keeps (g : Ghost) (x t : Nat) : Prop := VoteKeeps g.llog g.elog g.ledIn g.ack g.voteLog x t

/-- What later moves leave of the record: logs of leaders grow, votes and elections stay. -/
structure Grows (g g' : Ghost) : Prop where
  llog : ∀ t, g.llog t <+: g'.llog t
  led : ∀ j t, g.led j t → g'.led j t
  elog : ∀ t, g.ledIn t → g'.elog t = g.elog t
  acked : ∀ x t, g.acked x t ≤ g'.acked x t
  voted : ∀ x t, g.voted x t ≠ 0 → g'.voted x t = g.voted x t
  voteLog : ∀ x t, g.voted x t ≠ 0 → g'.voteLog x t = g.voteLog x t

lemma Grows.ledIn {g g' : Ghost} (h : Grows g g') {t : Nat} (ht : g.ledIn t) : g'.ledIn t := by
  obtain ⟨j, hj⟩ := ht
  exact ⟨j, h.led j t hj⟩

end Ghost

/-! ## The record after a move -/

section

variable {K : Checks} {V : Voters} {nodes : Nat → View} {net : Msg → Prop} {g : Ghost} {i : Nat}
  {mv : Move} {v v' : View} {t x s k : Nat} {L : List Entry}

@[simp] lemma Ghost.cast_elog (t x : Nat) : (g.cast i t x).elog = g.elog := by
  unfold Ghost.cast
  split <;> rfl

@[simp] lemma Ghost.cast_led (t x : Nat) : (g.cast i t x).led = g.led := by
  unfold Ghost.cast
  split <;> rfl

@[simp] lemma Ghost.cast_acked (t x : Nat) : (g.cast i t x).acked = g.acked := by
  unfold Ghost.cast
  split <;> rfl

lemma Ghost.voteLog_cast {j t' : Nat} : (g.cast i t x).voteLog j t' =
      if g.voted i t = 0 ∧ j = i ∧ t' = t then g.vlog i else g.voteLog j t' := by
  unfold Ghost.cast
  by_cases h0 : g.voted i t = 0 <;> simp [h0, update_row]

lemma Ghost.acked_hold :
    (g.hold i t k L).acked x s = if x = i ∧ s = t then max (g.acked i t) k else g.acked x s :=
  update_row g.acked _ s

lemma Ghost.le_acked_hold {n : Nat} (h : k ≤ (g.hold i t n L).acked i s) :
    k ≤ g.acked i s ∨ (s = t ∧ k ≤ n) := by
  rw [acked_hold] at h
  split at h
  · rename_i heq
    rw [heq.2]
    exact (le_max_iff.1 h).imp id (fun h => ⟨rfl, h⟩)
  · exact .inl h

lemma Ghost.acked_after (h : MoveStep K V net v mv v') (hne : x ≠ i ∨ t ≠ v.term) :
    (g.after i v mv).acked x t = g.acked x t := by
  have hhold : ∀ k L, (g.hold i v.term k L).acked x t = g.acked x t := by
    intro k L
    rw [acked_hold, if_neg (by tauto)]
  cases h with
  | campaign | grant => exact congrFun (congrFun (cast_acked _ _) x) t
  | accept _ _ hterm | install _ _ hterm =>
    change (g.hold i _ _ _).acked x t = _
    rw [hterm]
    exact hhold _ _
  | win => exact hhold _ (g.vlog i)
  | @propose e => exact hhold _ (g.vlog i ++ [e])
  | _ => rfl

lemma Ghost.acked_le_after (mv : Move) (x t : Nat) : g.acked x t ≤ (g.after i v mv).acked x t := by
  have hhold : ∀ s k L, g.acked x t ≤ (g.hold i s k L).acked x t := by
    intro s k L
    rw [acked_hold]
    split
    · rename_i heq
      rw [heq.1, heq.2]
      exact le_max_left _ _
    · exact le_rfl
  cases mv with
  | campaign | grant m => exact (congrFun (congrFun (cast_acked _ _) x) t).ge
  | accept m | install m => exact hhold _ _ _
  | win => exact hhold _ _ (g.vlog i)
  | propose e => exact hhold _ _ (g.vlog i ++ [e])
  | _ => exact le_rfl

lemma Ghost.voteLog_after (mv : Move) (h : g.voted x t ≠ 0) :
    (g.after i v mv).voteLog x t = g.voteLog x t := by
  have hcast : ∀ t' y, (g.cast i t' y).voteLog x t = g.voteLog x t := by
    intro t' y
    rw [voteLog_cast, if_neg]
    rintro ⟨h0, rfl, rfl⟩
    exact h h0
  cases mv with
  | campaign | grant m => exact hcast _ _
  | _ => rfl

lemma Ghost.voted_new (hold : g.voted x t = 0) (hnew : (g.after i v mv).voted x t ≠ 0) :
    x = i ∧ (g.after i v mv).voteLog i t = g.vlog i ∧
      ((mv = .campaign ∧ t = v.term + 1 ∧ (g.after i v mv).voted i t = v.id) ∨
        ∃ m, mv = .grant m ∧ t = v.term ∧ (g.after i v mv).voted i t = m.sender) := by
  have hcast : ∀ t' y, (g.cast i t' y).voted x t ≠ 0 →
      x = i ∧ t = t' ∧ (g.cast i t' y).voteLog i t = g.vlog i ∧ (g.cast i t' y).voted i t = y := by
    intro t' y hne
    rw [voted_cast] at hne
    by_cases hc : g.voted i t' = 0 ∧ x = i ∧ t = t'
    · obtain ⟨h0, rfl, rfl⟩ := hc
      refine ⟨rfl, rfl, ?_, ?_⟩
      · rw [voteLog_cast, if_pos ⟨h0, rfl, rfl⟩]
      · rw [voted_cast, if_pos ⟨h0, rfl, rfl⟩]
    rw [if_neg hc] at hne
    exact absurd hold hne
  cases mv with
  | campaign =>
    obtain ⟨hx, ht, hlog, hvote⟩ := hcast _ _ hnew
    exact ⟨hx, hlog, .inl ⟨rfl, ht, hvote⟩⟩
  | grant m =>
    obtain ⟨hx, ht, hlog, hvote⟩ := hcast _ _ hnew
    exact ⟨hx, hlog, .inr ⟨m, rfl, ht, hvote⟩⟩
  | _ => exact absurd hold hnew

section

variable (hb : Base V nodes net g) (hi : i ∈ V.ids) (hone : OneLeader (g.next nodes i mv))
  (h : MoveStep K V net (nodes i) mv v')

include hb hi hone h

omit hone h in
lemma Base.not_ledIn_of_win (hone : OneLeader (g.after i (nodes i) .win))
    (hcand : (nodes i).role = .candidate) :
    ¬ g.ledIn (nodes i).term := by
  rintro ⟨j, hj⟩
  have hji : j = i := hone j i (nodes i).term (.inl hj) (.inr ⟨rfl, rfl⟩)
  subst hji
  exact ((hb.node j hi).led _ hj).2.2 rfl hcand

lemma Ghost.elog_after (ht : g.ledIn t) : (g.next nodes i mv).elog t = g.elog t := by
  cases h with
  | campaign | grant => exact congrFun (cast_elog _ _) t
  | win hcand =>
    refine update_of_ne ?_ _ _
    rintro rfl
    exact hb.not_ledIn_of_win hi hone hcand ht
  | _ => rfl

lemma Logs.grows (hl : Logs V nodes net g) :
    g.Grows (g.next nodes i mv) where
  llog := hl.llog_grows hb hi hone h
  led _ _ := led_after mv
  elog _ := elog_after hb hi hone h
  acked := acked_le_after mv
  voted _ _ h := voted_after mv (.inl h)
  voteLog _ _ := voteLog_after mv

end

end

/-! ## Acknowledged entries -/

/-- The first `k` entries of the leader of `t` are in `L`, or a later leader started without them.
-/
structure AckHeld (g : Ghost) (L : List Entry) (T t k : Nat) : Prop where
  le : k ≤ (g.llog t).length
  led : 0 < k → t ≤ T ∧ g.ledIn t
  held : (g.llog t).take k <+: L ∨ ∃ s, t < s ∧ s ≤ T ∧ g.ledIn s ∧ ¬ (g.llog t).take k <+: g.elog s

section

variable {g g' : Ghost} {L L' : List Entry} {T T' t k : Nat}

lemma AckHeld.zero : AckHeld g L T t 0 where
  le := zero_le
  led h := absurd h (lt_irrefl 0)
  held := .inl (by simp)

lemma AckHeld.grow (h : AckHeld g L T t k) (hg : g.Grows g') : AckHeld g' L T t k where
  le := h.le.trans (hg.llog t).length_le
  led hk := ⟨(h.led hk).1, hg.ledIn (h.led hk).2⟩
  held := by
    rw [take_eq_of_extends (hg.llog t) h.le]
    obtain hpre | ⟨s, hts, hsT, hs, hno⟩ := h.held
    · exact .inl hpre
    · exact .inr ⟨s, hts, hsT, hg.ledIn hs, by rwa [hg.elog s hs]⟩

lemma AckHeld.weaken (h : AckHeld g L T t k) (hT : T ≤ T') (hL : L <+: L') :
    AckHeld g L' T' t k where
  le := h.le
  led hk := ⟨(h.led hk).1.trans hT, (h.led hk).2⟩
  held := by
    obtain hpre | ⟨s, hts, hsT, hs, hno⟩ := h.held
    · exact .inl (hpre.trans hL)
    · exact .inr ⟨s, hts, hsT.trans hT, hs, hno⟩

lemma AckHeld.carry (h : AckHeld g L T t k) (hled : g.ledIn T) (hstart : g.elog T <+: g.llog T)
    (hkeep : ∀ X, X <+: L → X <+: g.llog T → X <+: L') : AckHeld g L' T t k where
  le := h.le
  led := h.led
  held := by
    obtain rfl | hk := Nat.eq_zero_or_pos k
    · exact .inl (by simp)
    obtain hpre | hlater := h.held
    · obtain heq | hlt := Nat.eq_or_lt_of_le (h.led hk).1
      · refine .inl (hkeep _ hpre ?_)
        rw [← heq]
        exact take_prefix _ _
      -- the leader of the present term may be the one that started without them
      by_cases hel : (g.llog t).take k <+: g.elog T
      · exact .inl (hkeep _ hpre (hel.trans hstart))
      · exact .inr ⟨T, hlt, le_refl T, hled, hel⟩
    · exact .inr hlater

lemma AckHeld.of_take (hled : g.ledIn T) (hk : k ≤ (g.llog T).length)
    (hpre : (g.llog T).take k <+: L) : AckHeld g L T T k :=
  ⟨hk, fun _ => ⟨le_refl T, hled⟩, .inl hpre⟩

lemma AckHeld.of_own (hled : g.ledIn T) (hllog : g.llog T = L) (hk : k ≤ L.length) :
    AckHeld g L T T k := by
  subst hllog
  exact .of_take hled hk (List.take_prefix _ _)

lemma Ghost.Keeps.grow {x : Nat} (h : g.Keeps x t) (hg : g.Grows g') (hvoted : g.voted x t ≠ 0)
    (hacked : ∀ s, s < t → g'.acked x s = g.acked x s)
    (hle : ∀ s k, k ≤ g.acked x s → k ≤ (g.llog s).length) : g'.Keeps x t := by
  intro s k hst hk
  change k ≤ g'.acked x s at hk
  rw [hacked s hst] at hk
  rw [take_eq_of_extends (hg.llog s) (hle s k hk), hg.voteLog x t hvoted]
  obtain hpre | ⟨u, hsu, hut, hu, hno⟩ := h s k hst hk
  · exact .inl hpre
  · exact .inr ⟨u, hsu, hut, hg.ledIn hu, by rwa [hg.elog u hu]⟩

end

/-! ## What accepted Appends and snapshots keep -/

section

variable {g : Ghost} {i : Nat} {v : View} {m : Msg} {X : List Entry}

lemma NodeLog.accept_keeps (hn : NodeLog g i v) (hm : AppOk g m) (hprev : PrevMatches v.rlog m)
    (hstart : m.index = 0 → v.rlog.compacted ≤ 1) (hknown : ∀ e ∈ g.llog m.term, e.term ≠ 0)
    (hX : X <+: g.vlog i) (hX' : X <+: g.llog m.term) : X <+: g.afterAccept i v.rlog m := by
  unfold Ghost.afterAccept
  split
  · exact hX
  rename_i hhas
  obtain hgt | hle := Nat.lt_or_ge (m.index + m.entries.length) X.length
  · -- a longer common prefix would hold all the entries of the Append already
    refine absurd ⟨?_, ?_⟩ hhas
    · rw [hn.rep.last]
      exact hgt.le.trans hX.length_le
    intro k hk
    have hcomp : v.rlog.compacted ≤ m.index + 1 + k := by
      by_cases h0 : m.index = 0
      · have := hstart h0
        omega
      obtain h | ⟨_, hterm⟩ := hprev
      · exact absurd h h0
      obtain ⟨e, he, het⟩ := hm.prev h0
      have hne := hknown e (mem_of_getElem? he)
      have := range_of_logTermAt_ne_zero (l := v.rlog) (i := m.index)
        (by rw [hterm, ← het]; exact hne)
      omega
    have hlen := hX.length_le
    obtain ⟨e, he, het⟩ := hn.rep.term_at (q := m.index + 1 + k) (by omega) hcomp (by omega)
    have hentry := hm.entries k hk
    have hXe : X[m.index + k]? = some e := by
      rw [show m.index + 1 + k - 1 = m.index + k by omega] at he
      have hlt : m.index + k < X.length := by omega
      rw [← he, getElem?_eq_getElem hlt]
      exact (getElem?_extend hX (getElem?_eq_getElem hlt)).symm
    rw [getElem?_extend hX' hXe] at hentry
    rw [← het, Option.some.inj hentry]
  refine prefix_of_prefix_length_le hX' (List.take_prefix _ _) ?_
  rw [hm.target.1]
  exact hle

lemma NodeLog.install_keeps (hn : NodeLog g i v) {l : RaftLog} (hinst : Installed v.rlog m l)
    (hX : X <+: g.vlog i) : X <+: g.afterInstall i v.rlog m := by
  unfold Ghost.afterInstall
  by_cases hin : m.snapshot ≤ v.rlog.compacted ∨ m.snapshot ≤ v.rlog.lastIndex
  · rw [if_pos hin]
    exact hX
  obtain ⟨hcov, _⟩ | ⟨_, hl'⟩ := hinst
  · exact absurd (.inl hcov) hin
  obtain ⟨_, _, hlast, _⟩ := logCompact_eq_some hl'
  have hempty : g.vlog i = [] := by
    refine eq_nil_of_length_eq_zero ?_
    rw [← hn.rep.last]
    exact hlast.resolve_right (fun h => hin (.inr h))
  rw [hempty, prefix_nil] at hX
  rw [hX]
  exact nil_prefix

lemma Ghost.mem_afterAccept {e : Entry} (he : e ∈ g.afterAccept i v.rlog m) :
    e ∈ g.vlog i ∨ e ∈ g.llog m.term := by
  unfold Ghost.afterAccept at he
  split at he
  · exact .inl he
  · exact .inr (mem_of_mem_take he)

lemma Ghost.afterInstall_cases (hne : m.logTerm ≠ 0) : g.afterInstall i v.rlog m = g.vlog i ∨
      g.afterInstall i v.rlog m = (g.llog m.term).take m.snapshot := by
  unfold Ghost.afterInstall
  rw [if_neg hne]
  split
  · exact .inl rfl
  · exact .inr rfl

end

/-! ## Ballots -/

/-- The log with which `x` voted in term `t`. -/
structure Ballot (g : Ghost) (x t : Nat) : Prop where
  upToDate : UpToDate Entry.term (g.voteLog (g.voted x t) t) (g.voteLog x t)
  sorted : Sorted Entry.term (g.voteLog x t)
  anch : Anchored Entry.term g.pre (g.voteLog x t)
  known : ∀ e ∈ g.voteLog x t, e.term ≠ 0

structure NodeBallot (g : Ghost) (i : Nat) (v : View) : Prop where
  bound : ∀ e ∈ g.vlog i, e.term ≤ v.term
  sorted : Sorted Entry.term (g.vlog i)
  cand : v.role = .candidate → g.voted i v.term = i ∧ g.voteLog i v.term = g.vlog i
  acks : ∀ t k, k ≤ g.acked i t → AckHeld g (g.vlog i) v.term t k

/-- A Vote tells of the log with which its sender stands. -/
def StandsWith (g : Ghost) (m : Msg) : Prop :=
  g.voted m.sender m.term = m.sender ∧ m.logTerm = lastTm Entry.term (g.voteLog m.sender m.term) ∧
    m.index = (g.voteLog m.sender m.term).length

structure Ballots (V : Voters) (nodes : Nat → View) (net : Msg → Prop) (g : Ghost) : Prop where
  node : ∀ i ∈ V.ids, NodeBallot g i (nodes i)
  vote : ∀ m, net m → m.type = .vote → StandsWith g m
  self : ∀ x t, g.voted x t ≠ 0 → g.voted (g.voted x t) t = g.voted x t
  ballot : ∀ x t, g.voted x t ≠ 0 → Ballot g x t
  free : ∀ x ∈ V.ids, ∀ t, g.voted x t ≠ 0 → ¬ g.ledIn t → g.Keeps x t
  elected : ∀ j t, g.led j t → g.voted j t = j ∧ g.elog t = g.voteLog j t ∧
    Majority V.ids (fun x => g.voted x t = j ∧ g.Keeps x t)
  start : ∀ t, g.ledIn t → g.elog t <+: g.llog t ∧ ∀ e ∈ g.elog t, e.term < t
  llog : ∀ t, Sorted Entry.term (g.llog t) ∧ ∀ e ∈ g.llog t, e.term ≤ t

section

variable {K : Checks} {V : Voters} {nodes : Nat → View} {net : Msg → Prop} {g : Ghost} {i : Nat}
  {mv : Move} {v v' : View} {t k x j : Nat} {m : Msg} {g' : Ghost}

lemma Logs.anchored_led (hl : Logs V nodes net g) {L : List Entry}
    (h : Anchored Entry.term g.pre L) (hknown : ∀ e ∈ L, e.term ≠ 0) :
    Anchored Entry.term (fun s P => g.ledIn s ∧ P <+: g.llog s) L := by
  intro k hk
  have hpre := h k hk
  unfold Ghost.pre at hpre
  rw [if_neg (hknown _ (getElem_mem hk))] at hpre
  refine ⟨hl.record _ ?_, hpre⟩
  intro hnil
  rw [hnil, prefix_nil] at hpre
  have := congrArg List.length hpre
  rw [length_take, length_nil] at this
  omega

lemma Ballots.elections (hb : Base V nodes net g) (hl : Logs V nodes net g)
    (h : Ballots V nodes net g) :
    Elections Entry.term V.ids g.llog g.elog g.ledIn g.ack g.voteLog where
  elog_extended t ht := (h.start t ht).1
  anchored t ht := by
    obtain ⟨j, hj⟩ := ht
    obtain ⟨hself, helog, _⟩ := h.elected j t hj
    have hne : g.voted j t ≠ 0 := by
      rw [hself]
      exact fun h0 => V.nonzero (h0 ▸ hb.led j t hj)
    rw [helog]
    exact hl.anchored_led (h.ballot j t hne).anch (h.ballot j t hne).known
  older t ht := (h.start t ht).2
  bounded t := (h.llog t).2
  elected t ht := by
    obtain ⟨j, hj⟩ := ht
    obtain ⟨_, helog, hmaj⟩ := h.elected j t hj
    refine hmaj.mono ?_
    rintro x _ ⟨hx, hkeeps⟩
    have hne : g.voted x t ≠ 0 := by
      rw [hx]
      exact fun h0 => V.nonzero (h0 ▸ hb.led j t hj)
    have hballot := h.ballot x t hne
    refine ⟨?_, hballot.sorted, hl.anchored_led hballot.anch hballot.known, hkeeps⟩
    have := hballot.upToDate
    rwa [hx, ← helog] at this

/-! ### The node that moves -/

lemma Logs.ledIn_of_entry (hl : Logs V nodes net g) {q : Nat} {e : Entry}
    (h : (g.llog t)[q]? = some e) : g.ledIn t := by
  refine hl.record t ?_
  intro hnil
  rw [hnil] at h
  cases h

lemma AppOk.ledIn (hl : Logs V nodes net g) (hm : AppOk g m) : g.ledIn m.term := by
  have hpos := length_pos_iff.2 hm.nonempty
  exact hl.ledIn_of_entry (hm.entries 0 hpos)

lemma SnapOk.ledIn (hl : Logs V nodes net g) (hm : SnapOk g m) : g.ledIn m.term := by
  obtain ⟨e, he, _⟩ := hm.base
  exact hl.ledIn_of_entry he

lemma SnapOk.le (hm : SnapOk g m) : m.snapshot ≤ (g.llog m.term).length := by
  obtain ⟨e, he, _⟩ := hm.base
  have := (List.getElem?_eq_some_iff.1 he).1
  omega

lemma MoveStep.term_le (h : MoveStep K V net v mv v') : v.term ≤ v'.term := by
  cases h with
  | stepDown hle => exact hle
  | campaign => exact Nat.le_succ _
  | _ => exact le_rfl

/-- The whole log after a move: as it was, or one entry longer, or what an Append or a snapshot
makes of it. -/
lemma Ghost.vlog_after (mv : Move) : (g.after i v mv).vlog i = g.vlog i ∨
      (∃ e, mv = .propose e ∧ (g.after i v mv).vlog i = g.vlog i ++ [e]) ∨
      (∃ m, mv = .accept m ∧ (g.after i v mv).vlog i = g.afterAccept i v.rlog m) ∨
      ∃ m, mv = .install m ∧ (g.after i v mv).vlog i = g.afterInstall i v.rlog m := by
  cases mv with
  | campaign | grant m => exact .inl (congrFun (cast_vlog _ _) i)
  | accept m => exact .inr (.inr (.inl ⟨m, rfl, update_self ..⟩))
  | install m => exact .inr (.inr (.inr ⟨m, rfl, update_self ..⟩))
  | win => exact .inl (update_self ..)
  | propose e => exact .inr (.inl ⟨e, rfl, update_self ..⟩)
  | _ => exact .inl rfl

section

variable (hi : i ∈ V.ids) (h : Ballots V nodes net g)

include hi h

lemma Ballots.bound_own (hs : Solid V nodes net g) (hstep : MoveStep K V net (nodes i) mv v') :
    (∀ e ∈ (g.next nodes i mv).vlog i, e.term ≤ v'.term) ∧
      Sorted Entry.term ((g.next nodes i mv).vlog i) := by
  have hn := h.node i hi
  have hle := hstep.term_le
  rcases vlog_after (g := g) (i := i) (v := nodes i) mv with
    heq | ⟨e, rfl, heq⟩ | ⟨m, rfl, heq⟩ | ⟨m, rfl, heq⟩
  · rw [heq]
    exact ⟨fun e he => (hn.bound e he).trans hle, hn.sorted⟩
  · rw [heq]
    cases hstep with
    | propose _ hterm =>
      refine ⟨?_, hn.sorted.snoc (fun x hx => by rw [hterm]; exact hn.bound x hx)⟩
      intro x hx
      obtain hx | hx := mem_append.1 hx
      · exact hn.bound x hx
      rw [mem_singleton.1 hx]
      exact hterm.le
  · rw [heq]
    cases hstep with
    | accept _ _ hterm =>
      refine ⟨?_, ?_⟩
      · intro e he
        obtain he | he := mem_afterAccept he
        · exact hn.bound e he
        · exact ((h.llog m.term).2 e he).trans hterm.le
      unfold Ghost.afterAccept
      split
      · exact hn.sorted
      · exact (h.llog m.term).1.restrict (List.take_prefix _ _)
  rw [heq]
  cases hstep with
  | install hm htype hterm =>
    rcases afterInstall_cases (g := g) (i := i) (v := nodes i) (hs.snap m hm htype) with
      hsame | htake
    · rw [hsame]
      exact ⟨hn.bound, hn.sorted⟩
    rw [htake]
    refine ⟨fun e he => ?_, (h.llog m.term).1.restrict (List.take_prefix _ _)⟩
    exact ((h.llog m.term).2 e (mem_of_mem_take he)).trans hterm.le

lemma Ballots.cand_own (hb : Base V nodes net g) (hv : Votes V nodes net g)
    (hstep : MoveStep K V net (nodes i) mv v') (hcand : v'.role = .candidate) :
    (g.next nodes i mv).voted i v'.term = i ∧
      (g.next nodes i mv).voteLog i v'.term = (g.next nodes i mv).vlog i := by
  have hn := h.node i hi
  have hi0 : i ≠ 0 := fun h0 => V.nonzero (h0 ▸ hi)
  have hid := (hb.node i hi).id
  cases hstep with
  | stepDown | preCampaign | win => cases hcand
  | preRecord hrole | accept _ _ _ hrole | install _ _ _ hrole | propose hrole =>
    change (nodes i).role = .candidate at hcand
    rw [hrole] at hcand
    cases hcand
  | campaign =>
    have h0 := (hv.node i hi).above ((nodes i).term + 1) (Nat.lt_succ_self _)
    refine ⟨?_, ?_⟩
    · refine Eq.trans ?_ hid
      change (g.cast i _ _).voted i _ = _
      rw [voted_cast, if_pos ⟨h0, rfl, rfl⟩]
    change (g.cast i _ _).voteLog i _ = (g.cast i _ _).vlog i
    rw [voteLog_cast, if_pos ⟨h0, rfl, rfl⟩, cast_vlog]
  | @grant m =>
    obtain ⟨hvoted, hlog⟩ := hn.cand hcand
    have hne : g.voted i (nodes i).term ≠ 0 := by
      rw [hvoted]
      exact hi0
    refine ⟨(voted_after (.grant m) (.inl hne)).trans hvoted, ?_⟩
    refine (voteLog_after (.grant m) hne).trans (hlog.trans ?_)
    exact (congrFun (cast_vlog _ _) i).symm
  | _ => exact hn.cand hcand

/-- What the node had acknowledged, and what it acknowledges of an Append, is held by the log that it
stores. -/
lemma Ballots.acks_accept (hl : Logs V nodes net g) (hs : Solid V nodes net g) (hm : net m)
    (htype : m.type = .app) (hterm : m.term = (nodes i).term)
    (hprev : PrevMatches (nodes i).rlog m)
    (hverified : LeavesTail (nodes i).rlog m → (nodes i).rlog.lastTerm = m.term)
    (hst : m.index = 0 → (nodes i).rlog.compacted ≤ 1)
    (hk : k ≤ (g.after i (nodes i) (.accept m)).acked i t) :
    AckHeld g (g.afterAccept i (nodes i).rlog m) (nodes i).term t k := by
  have hlog := hl.node i hi
  have hok := hl.app m hm htype
  have hledT : g.ledIn (nodes i).term := by
    rw [← hterm]
    exact hok.ledIn hl
  change k ≤ (g.hold i m.term _ _).acked i t at hk
  rw [hterm] at hk
  obtain hold | ⟨rfl, hnew⟩ := le_acked_hold hk
  · refine ((h.node i hi).acks t k hold).carry hledT (h.start _ hledT).1 ?_
    intro X hX hX'
    rw [← hterm] at hX'
    exact hlog.accept_keeps hok hprev hst (hs.llog m.term) hX hX'
  have hpre := hlog.accepted_in_leader hl hok hverified
  rw [hterm] at hpre
  refine AckHeld.of_take hledT (hnew.trans hpre.length_le) ?_
  rw [take_eq_of_extends hpre hnew]
  exact take_prefix _ _

lemma Ballots.acks_install (hl : Logs V nodes net g) (hs : Solid V nodes net g) {l : RaftLog}
    (hm : net m) (htype : m.type = .snap) (hterm : m.term = (nodes i).term)
    (hinstalled : Installed (nodes i).rlog m l)
    (hinst : (g.llog m.term).take m.snapshot <+: g.afterInstall i (nodes i).rlog m)
    (hk : k ≤ (g.after i (nodes i) (.install m)).acked i t) :
    AckHeld g (g.afterInstall i (nodes i).rlog m) (nodes i).term t k := by
  have hok := hl.snap m hm htype (hs.snap m hm htype)
  have hledT : g.ledIn (nodes i).term := by
    rw [← hterm]
    exact hok.ledIn hl
  change k ≤ (g.hold i m.term _ _).acked i t at hk
  rw [hterm] at hk
  obtain hold | ⟨rfl, hnew⟩ := le_acked_hold hk
  · refine ((h.node i hi).acks t k hold).carry hledT (h.start _ hledT).1 ?_
    intro X hX _
    exact (hl.node i hi).install_keeps hinstalled hX
  have hlen := hok.le
  rw [hterm] at hlen hinst
  refine AckHeld.of_take hledT (hnew.trans hlen) ?_
  exact (List.take_prefix_take_left hnew).trans hinst

omit hi h in
lemma NodeBallot.keeps (hn : NodeBallot g i v) (hllog : g'.llog = g.llog)
    (helog : g'.elog = g.elog) (hled : g'.led = g.led) (hacked : g'.acked = g.acked)
    (hlog : g'.voteLog i t = g.vlog i) (hlt : ∀ s, s ≤ v.term → g.ledIn s → s < t) :
    g'.Keeps i t := by
  intro s k hst hk
  change k ≤ g'.acked i s at hk
  rw [hacked] at hk
  rw [hllog, helog, hlog]
  obtain hpre | ⟨u, hsu, huT, hu, hno⟩ := (hn.acks s k hk).held
  · exact .inl hpre
  refine .inr ⟨u, hsu, hlt u huT hu, ?_, hno⟩
  unfold Ghost.ledIn
  rw [hled]
  exact hu

omit hi h in
lemma Ballot.grow (h : Ballot g x t) (hg : g.Grows g') (hx : g.voted x t ≠ 0)
    (hself : g.voted (g.voted x t) t ≠ 0) : Ballot g' x t where
  upToDate := by
    rw [hg.voted x t hx, hg.voteLog x t hx, hg.voteLog _ t hself]
    exact h.upToDate
  sorted := by
    rw [hg.voteLog x t hx]
    exact h.sorted
  anch := by
    rw [hg.voteLog x t hx]
    exact h.anch.mono (pre_mono hg.llog)
  known := by
    rw [hg.voteLog x t hx]
    exact h.known

lemma Ballots.start_win (hb : Base V nodes net g) (hl : Logs V nodes net g)
    (hs : Solid V nodes net g) (hone : OneLeader (g.after i (nodes i) .win))
    (hcand : (nodes i).role = .candidate) :
    ∀ e ∈ g.vlog i, e.term < (nodes i).term := by
  intro e he
  refine lt_of_le_of_ne ((h.node i hi).bound e he) ?_
  intro heq
  obtain ⟨q, hq, rfl⟩ := getElem_of_mem he
  have hpre := (hl.node i hi).anch q hq
  unfold Ghost.pre at hpre
  rw [if_neg (hs.vlog i hi _ he), heq, hl.llog_of_win hb hi hone hcand, prefix_nil] at hpre
  have := congrArg List.length hpre
  rw [length_take, length_nil] at this
  omega

lemma Ballots.llog_step (hstep : MoveStep K V net (nodes i) mv v') (t : Nat) :
    Sorted Entry.term ((g.next nodes i mv).llog t) ∧
      ∀ e ∈ (g.next nodes i mv).llog t, e.term ≤ t := by
  have hn := h.node i hi
  rcases llog_after (g := g) (i := i) (v := nodes i) (t := t) mv with
    heq | ⟨rfl, ⟨rfl, heq⟩ | ⟨e, rfl, heq⟩⟩
  · rw [heq]
    exact h.llog t
  · rw [heq]
    exact ⟨hn.sorted, hn.bound⟩
  rw [heq]
  cases hstep with
  | propose _ hterm =>
    refine ⟨hn.sorted.snoc (fun x hx => by rw [hterm]; exact hn.bound x hx), ?_⟩
    intro x hx
    obtain hx | hx := mem_append.1 hx
    · exact hn.bound x hx
    rw [mem_singleton.1 hx]
    exact hterm.le

end

/-! ### The record -/

section

variable (hi : i ∈ V.ids) (hstep : MoveStep K V net (nodes i) mv v') (hb : Base V nodes net g)
  (hl : Logs V nodes net g) (hone : OneLeader (g.next nodes i mv)) (h : Ballots V nodes net g)

include hi hstep hb hl hone h

/-- What the node had acknowledged it still holds (`AckHeld`), and what the move acknowledges it
holds now. -/
lemma Ballots.acks_own (hacks : K.acks) (hstart : K.start) (hs : Solid V nodes net g)
    (hinst : ∀ m, mv = .install m → (g.llog m.term).take m.snapshot <+: g.afterInstall i (nodes i).rlog m)
    (hk : k ≤ (g.next nodes i mv).acked i t) :
    AckHeld (g.next nodes i mv) ((g.next nodes i mv).vlog i) v'.term t k := by
  have hn := h.node i hi
  have hgrows := hl.grows hb hi hone hstep
  have hle := hstep.term_le
  -- the moves that leave the log alone
  have hsame : (g.next nodes i mv).acked i t = g.acked i t →
      g.vlog i <+: (g.next nodes i mv).vlog i →
      AckHeld (g.next nodes i mv) ((g.next nodes i mv).vlog i) v'.term t k := by
    intro hacked hvlog
    rw [hacked] at hk
    exact ((hn.acks t k hk).grow hgrows).weaken hle hvlog
  cases hstep with
  | campaign =>
    refine hsame (congrFun (congrFun (cast_acked _ _) i) t) ?_
    rw [vlog_campaign]
  | @grant m =>
    refine hsame (congrFun (congrFun (cast_acked _ _) i) t) ?_
    rw [vlog_grant]
  | @accept m hm htype hterm _ _ hprev hverified hst =>
    rw [vlog_accept]
    exact (h.acks_accept hi hl hs hm htype hterm hprev (hverified hacks) (hst hstart) hk).grow hgrows
  | @install m l hm htype hterm _ _ h0 hinstalled _ =>
    rw [vlog_install]
    exact (h.acks_install hi hl hs hm htype hterm hinstalled (hinst m rfl) hk).grow hgrows
  | win hcand =>
    rw [vlog_win]
    obtain hold | ⟨rfl, hnew⟩ := le_acked_hold (L := g.vlog i) hk
    · exact (hn.acks t k hold).grow hgrows
    · exact .of_own ⟨i, .inr ⟨rfl, rfl⟩⟩ llog_win hnew
  | @propose e hlead =>
    rw [vlog_propose]
    obtain hold | ⟨rfl, hnew⟩ := le_acked_hold (L := g.vlog i ++ [e]) hk
    · exact ((hn.acks t k hold).grow hgrows).weaken le_rfl (prefix_append _ _)
    · exact .of_own ⟨i, (hb.node i hi).lead hlead⟩ llog_propose hnew
  | _ => exact hsame rfl (prefix_refl _)

lemma Ghost.Keeps.after (hv : Votes V nodes net g) (hx : x ∈ V.ids) (hvoted : g.voted x t ≠ 0)
    (hkeeps : g.Keeps x t) : (g.next nodes i mv).Keeps x t := by
  refine hkeeps.grow (hl.grows hb hi hone hstep) hvoted ?_ (fun s k hk =>
    ((h.node x hx).acks s k hk).le)
  intro s hst
  refine acked_after hstep ?_
  by_cases hxi : x = i
  · -- the vote of term `t` was cast in term `t` or earlier than the present one
    subst hxi
    refine .inr ?_
    rintro rfl
    exact hvoted ((hv.node x hx).above t hst)
  · exact .inl hxi

lemma Ballots.new_vote (hs : Solid V nodes net g) (hold : g.voted x t = 0)
    (hnew : (g.next nodes i mv).voted x t ≠ 0) :
    x = i ∧ (g.next nodes i mv).voted ((g.next nodes i mv).voted x t) t =
        (g.next nodes i mv).voted x t ∧
      Ballot (g.next nodes i mv) x t ∧
      (¬ (g.next nodes i mv).ledIn t → (g.next nodes i mv).Keeps x t) := by
  have hn := h.node i hi
  have hgrows := hl.grows hb hi hone hstep
  obtain ⟨rfl, hlog, hcase⟩ := voted_new hold hnew
  refine ⟨rfl, ?_⟩
  have hanch : Anchored Entry.term (g.after x (nodes x) mv).pre (g.vlog x) :=
    (hl.node x hi).anch.mono (pre_mono hgrows.llog)
  obtain ⟨rfl, rfl, hvote⟩ | ⟨m, rfl, rfl, hvote⟩ := hcase
  · -- a candidate votes for itself
    rw [(hb.node x hi).id] at hvote
    refine ⟨by rw [hvote, hvote], ⟨?_, ?_, ?_, ?_⟩, fun _ => ?_⟩
    · rw [hvote]
      exact UpToDate.refl _
    · rw [hlog]
      exact hn.sorted
    · rw [hlog]
      exact hanch
    · rw [hlog]
      exact hs.vlog x hi
    exact hn.keeps (cast_llog _ _) (cast_elog _ _) (cast_led _ _)
      (cast_acked _ _) hlog (fun s hs _ => Nat.lt_succ_of_le hs)
  cases hstep with
  | grant hm htype hterm _ hup =>
    obtain ⟨hself, hlast, hidx⟩ := h.vote m hm htype
    rw [hterm] at hself hlast hidx
    have hne : g.voted m.sender (nodes x).term ≠ 0 := by
      rw [hself]
      exact fun h0 => V.nonzero (h0 ▸ hb.sender m hm)
    refine ⟨?_, ⟨?_, ?_, ?_, ?_⟩, fun hfree => ?_⟩
    · rw [hvote]
      exact (voted_after (.grant m) (.inl hne)).trans hself
    · rw [hvote, hlog, voteLog_after (.grant m) hne]
      unfold UpToDate
      rw [← hlast, ← hidx, ← (hl.node x hi).rep.lastTerm, ← (hl.node x hi).rep.last]
      exact hup
    · rw [hlog]
      exact hn.sorted
    · rw [hlog]
      exact hanch
    · rw [hlog]
      exact hs.vlog x hi
    -- nobody leads this term yet, so the later leaders in question are of earlier terms
    refine hn.keeps (cast_llog _ _) (cast_elog _ _) (cast_led _ _) (cast_acked _ _) hlog ?_
    intro s hs hled
    refine lt_of_le_of_ne hs ?_
    rintro rfl
    exact hfree (hgrows.ledIn hled)

lemma NodeBallot.other (hj : j ∈ V.ids) (hji : j ≠ i) :
    NodeBallot (g.next nodes i mv) j (nodes j) := by
  have hn := h.node j hj
  have hgrows := hl.grows hb hi hone hstep
  have hvlog := vlog_after_other (g := g) (v := nodes i) mv hji
  refine ⟨?_, ?_, ?_, ?_⟩
  · rw [hvlog]
    exact hn.bound
  · rw [hvlog]
    exact hn.sorted
  · intro hcand
    obtain ⟨hvoted, hlog⟩ := hn.cand hcand
    have hne : g.voted j (nodes j).term ≠ 0 := by
      rw [hvoted]
      exact fun h0 => V.nonzero (h0 ▸ hj)
    rw [hgrows.voted j _ hne, hgrows.voteLog j _ hne, hvlog]
    exact ⟨hvoted, hlog⟩
  intro t k hk
  rw [acked_after hstep (.inl hji)] at hk
  rw [hvlog]
  exact (hn.acks t k hk).grow hgrows

lemma Ballots.vote_step (hout : ∀ m ∈ (nodes i).out, net m) (hm : net m ∨ m ∈ v'.out)
    (htype : m.type = .vote) : StandsWith (g.next nodes i mv) m := by
  have hgrows := hl.grows hb hi hone hstep
  by_cases hnet : net m
  · obtain ⟨hself, hlast, hidx⟩ := h.vote m hnet htype
    have hne : g.voted m.sender m.term ≠ 0 := by
      rw [hself]
      exact fun h0 => V.nonzero (h0 ▸ hb.sender m hnet)
    unfold StandsWith
    rw [hgrows.voted _ _ hne, hgrows.voteLog _ _ hne]
    exact ⟨hself, hlast, hidx⟩
  rcases hstep.sayable_of_out (g := g) (i := i) (hm.resolve_left hnet)
    (fun hold => hnet (hout m hold)) with ⟨hsay, hsame⟩ | hresp | happ | hsnap
  · have hfrom := hsay.2
    rw [htype] at hfrom
    obtain ⟨hcand, hterm, hlast, hidx⟩ := hfrom
    obtain ⟨hvoted, hlog⟩ := (h.node i hi).cand hcand
    have hsender : m.sender = i := hsay.1.trans (hb.node i hi).id
    replace hsame : g.next nodes i mv = g := hsame
    unfold StandsWith
    rw [hsame, hsender, hterm, hlast, hidx, hlog, (hl.node i hi).rep.lastTerm,
      (hl.node i hi).rep.last]
    exact ⟨hvoted, rfl, rfl⟩
  · rw [hresp] at htype
    cases htype
  · rw [happ] at htype
    cases htype
  rw [hsnap] at htype
  cases htype

/-- An election that is won, now or before: a majority voted for the winner and kept what it had
acknowledged. -/
lemma Ballots.elected_step (hv : Votes V nodes net g) (hled : (g.next nodes i mv).led j t) :
    (g.next nodes i mv).voted j t = j ∧
      (g.next nodes i mv).elog t = (g.next nodes i mv).voteLog j t ∧
      Majority V.ids (fun x => (g.next nodes i mv).voted x t = j ∧
        (g.next nodes i mv).Keeps x t) := by
  have hgrows := hl.grows hb hi hone hstep
  have hne : ∀ j t, g.led j t → j ≠ 0 := fun j t hj h0 => V.nonzero (h0 ▸ hb.led j t hj)
  obtain hled | ⟨rfl, rfl, rfl⟩ := led_of_after hled
  · -- an old leader: its election stays on record
    obtain ⟨hself, helog, hmaj⟩ := h.elected j t hled
    have hj0 : g.voted j t ≠ 0 := by
      rw [hself]
      exact hne j t hled
    rw [hgrows.voted j t hj0, hgrows.elog t ⟨j, hled⟩, hgrows.voteLog j t hj0]
    refine ⟨hself, helog, hmaj.mono ?_⟩
    rintro x hx ⟨hxj, hkeeps⟩
    have hx0 : g.voted x t ≠ 0 := by
      rw [hxj]
      exact hne j t hled
    exact ⟨(hgrows.voted x t hx0).trans hxj, hkeeps.after hi hstep hb hl hone h hv hx hx0⟩
  -- the winner: its voters kept what they had acknowledged
  cases hstep with
  | win hcand hmaj =>
    obtain ⟨hself, hlog⟩ := (h.node j hi).cand hcand
    have hj0 : j ≠ 0 := fun h0 => V.nonzero (h0 ▸ hi)
    refine ⟨hself, (update_self ..).trans hlog.symm, hmaj.mono ?_⟩
    intro x hx hvote
    have hxj := (hv.node j hi).cand hcand x hvote
    have hx0 : g.voted x (nodes j).term ≠ 0 := by rwa [hxj]
    refine ⟨hxj, ?_⟩
    exact (h.free x hx _ hx0 (hb.not_ledIn_of_win hi hone hcand)).after (K := K) hi
      (.win hcand hmaj) hb hl hone h hv hx hx0

lemma Ballots.start_step (hs : Solid V nodes net g) (hled : (g.next nodes i mv).ledIn t) :
    (g.next nodes i mv).elog t <+: (g.next nodes i mv).llog t ∧
      ∀ e ∈ (g.next nodes i mv).elog t, e.term < t := by
  have hgrows := hl.grows hb hi hone hstep
  obtain ⟨j, hled⟩ := hled
  obtain hled | ⟨rfl, rfl, rfl⟩ := led_of_after hled
  · rw [hgrows.elog t ⟨j, hled⟩]
    exact ⟨(h.start t ⟨j, hled⟩).1.trans (hgrows.llog t), (h.start t ⟨j, hled⟩).2⟩
  cases hstep with
  | win hcand =>
    have helog : (g.after j (nodes j) .win).elog (nodes j).term = g.vlog j :=
      update_self ..
    rw [helog, llog_win]
    exact ⟨prefix_refl _, h.start_win hi hb hl hs hone hcand⟩

end

lemma Ballots.step (hacks : K.acks) (hstart : K.start) (hi : i ∈ V.ids)
    (hout : ∀ m ∈ (nodes i).out, net m) (hstep : MoveStep K V net (nodes i) mv v')
    (hb : Base V nodes net g) (hv : Votes V nodes net g) (hl : Logs V nodes net g)
    (hs : Solid V nodes net g) (hone : OneLeader (g.next nodes i mv))
    (hinst : ∀ m, mv = .install m →
      (g.llog m.term).take m.snapshot <+: g.afterInstall i (nodes i).rlog m)
    (h : Ballots V nodes net g) :
    Ballots V (update nodes i v') (fun m => net m ∨ m ∈ v'.out)
      (g.next nodes i mv) := by
  have hgrows := hl.grows hb hi hone hstep
  refine ⟨?_, fun m hm => h.vote_step hi hstep hb hl hone hout hm, ?_, ?_, ?_,
    fun j t => h.elected_step hi hstep hb hl hone hv, fun t => h.start_step hi hstep hb hl hone hs,
    h.llog_step hi hstep⟩
  · intro j hj
    by_cases hji : j = i
    · subst hji
      rw [update_self]
      obtain ⟨hbound, hsorted⟩ := h.bound_own hj hs hstep
      exact ⟨hbound, hsorted, h.cand_own hj hb hv hstep,
        fun t k hk => h.acks_own hj hstep hb hl hone hacks hstart hs hinst hk⟩
    rw [update_of_ne hji]
    exact NodeBallot.other hi hstep hb hl hone h hj hji
  · intro x t hnew
    by_cases hold : g.voted x t = 0
    · exact (h.new_vote hi hstep hb hl hone hs hold hnew).2.1
    have hself := h.self x t hold
    rw [hgrows.voted x t hold, hgrows.voted _ t (by rwa [hself])]
    exact hself
  · intro x t hnew
    by_cases hold : g.voted x t = 0
    · exact (h.new_vote hi hstep hb hl hone hs hold hnew).2.2.1
    · exact (h.ballot x t hold).grow hgrows hold (by rwa [h.self x t hold])
  intro x hx t hnew hfree
  by_cases hold : g.voted x t = 0
  · exact (h.new_vote hi hstep hb hl hone hs hold hnew).2.2.2 hfree
  refine (h.free x hx t hold ?_).after hi hstep hb hl hone h hv hx hold
  exact fun hled => hfree (hgrows.ledIn hled)

lemma Ballots.init (hpris : ∀ i ∈ V.ids, Member V i (nodes i).conf (nodes i).mem ∧
    Pristine (nodes i)) (hnet : ∀ m, ¬ net m) : Ballots V nodes net Ghost.none := by
  refine ⟨?_, fun m hm => absurd hm (hnet m), fun x t h => absurd rfl h, fun x t h => absurd rfl h,
    fun x _ t h => absurd rfl h, fun j t h => h.elim, ?_, ?_⟩
  · intro i hi
    refine ⟨fun e he => (by cases he), List.Pairwise.nil, ?_, ?_⟩
    · rw [(hpris i hi).2.role]
      intro hcand
      cases hcand
    intro t k hk
    rw [Nat.le_zero.1 hk]
    exact AckHeld.zero
  · rintro t ⟨j, hj⟩
    exact hj.elim
  intro t
  exact ⟨List.Pairwise.nil, fun e he => (by cases he)⟩

end

end Cetcd.Protocol
