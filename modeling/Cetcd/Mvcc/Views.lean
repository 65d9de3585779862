import Cetcd.Mvcc.Restart
import Cetcd.Mvcc.Treap

/-!
# Views

Without compaction the history shows at the current revision what the index shows, and no later
write changes an older one. A compaction drops every entry before its revision, also the one that
says what a key still is, so it changes what is read at revisions that it keeps.
-/

namespace Cetcd.Mvcc

open Lib List Option

/-- The history is longer by entries of later revisions. -/
structure Grown (s s' : Store) : Prop where
  history : ∃ es, s'.history = s.history ++ es ∧ ∀ e ∈ es, s.mainRev < e.rev.main
  mainRev : s.mainRev ≤ s'.mainRev
  compacted : s'.compactedRev = s.compactedRev

section

variable {s s' s'' : Store} {x y : Durable}

lemma Grown.refl (s : Store) : Grown s s :=
  ⟨⟨[], (append_nil _).symm, fun _ h => nomatch h⟩, le_rfl, rfl⟩

lemma Grown.trans (h : Grown s s') (h' : Grown s' s'') : Grown s s'' := by
  obtain ⟨es, hes, hlater⟩ := h.history
  obtain ⟨es', hes', hlater'⟩ := h'.history
  refine ⟨⟨es ++ es', ?_, ?_⟩, h.mainRev.trans h'.mainRev, h'.compacted.trans h.compacted⟩
  · rw [hes', hes, append_assoc]
  · exact forall_mem_append.2 ⟨hlater, fun e he => h.mainRev.trans_lt (hlater' e he)⟩

lemma grown_next {a : Act} (ha : IsWrite a) : Grown x.store (x.next a).store := by
  cases a with
  | restart => exact ha.elim
  | call c =>
    rcases c.run_cases x with ⟨hstore, _⟩ | ⟨f, heffect, _⟩
    · change Grown x.store (c.run x).store
      rw [hstore]
      exact Grown.refl _
    rcases Call.effect_cases heffect with ⟨es, hne, hes, heq⟩ | ⟨rev, _, hlt, heq⟩ |
      ⟨rev, rfl, _⟩
    · change Grown x.store (c.run x).store
      rw [heq]
      refine ⟨⟨es, (push_history _ _).1, fun e he => ?_⟩, ?_, (push_history _ _).2⟩
      · rw [hes e he]
        exact Nat.lt_succ_self _
      rw [pushAll_mainRev (Nat.le_succ _) hne hes]
      exact Nat.le_succ _
    · change Grown x.store (c.run x).store
      rw [heq]
      exact ⟨⟨[], (append_nil _).symm, fun _ h => nomatch h⟩, hlt.le, rfl⟩
    · exact ha.elim

lemma grown_of_reaches (h : Reaches IsWrite x y) : Grown x.store y.store := by
  induction h with
  | refl => exact Grown.refl _
  | tail _ hstep ih =>
    obtain ⟨a, ha, rfl⟩ := hstep
    exact ih.trans (grown_next ha)

lemma Grown.versionAt (h : Grown s s') {r : Nat} (hpos : 0 < r) (hr : r ≤ s.mainRev) (k : Key) :
    versionAt s' r k = versionAt s r k := by
  obtain ⟨es, hes, hlater⟩ := h.history
  rw [versionAt_pos hpos, versionAt_pos hpos]
  unfold entryAt
  rw [hes, latest_append_of_later fun e he => hr.trans_lt (hlater e he)]

end

section

variable {s : Store} {x y : Durable} {outcomes : List Bool}

lemma Chronicle.versionAt_mainRev (h : Chronicle s) (hc : s.compactedRev = 0) (k : Key) :
    versionAt s s.mainRev k = versionAt s 0 k := by
  obtain hzero | hpos := Nat.eq_zero_or_pos s.mainRev
  · rw [hzero]
  have hentry : entryAt s s.mainRev k = newest RevisionEntry.key s.history k :=
    latest_eq_newest h.bound
  rw [versionAt_pos hpos, versionAt_zero, hentry]
  cases hnewest : newest RevisionEntry.key s.history k with
  | none =>
    cases hfind : s.index.find k with
    | none => rfl
    | some kg =>
      have hlost := h.lost k kg hnewest hfind
      rw [hc] at hlost
      exact absurd hlost (Nat.not_lt_zero _)
  | some e =>
    rw [h.indexed k e hnewest, bind_some, version?_eq, (mem_of_newest hnewest).2]

/-- The treap after the calls that the writes of `es` make on it. -/
def indexTreap (es : List RevisionEntry) : Treap KeyGeneration :=
  es.foldl (fun t e => e.generation?.elim (t.del e.key) (t.put e.key)) Treap.new

lemma toMap_indexTreap_append {es : List RevisionEntry} {e : RevisionEntry}
    (h : (indexTreap es).toMap = s.index) :
    (indexTreap (es ++ [e])).toMap = (s.push e).index := by
  unfold indexTreap at h ⊢
  rw [foldl_append, foldl_cons, foldl_nil]
  unfold Store.push
  dsimp only
  cases e.generation? with
  | none =>
    dsimp only [elim_none]
    rw [Treap.toMap_del, h]
  | some kg =>
    dsimp only [elim_some]
    rw [Treap.toMap_put, h]

lemma toMap_indexTreap_pushAll (es : List RevisionEntry)
    (h : (indexTreap s.history).toMap = s.index) :
    (indexTreap (s.pushAll es).history).toMap = (s.pushAll es).index := by
  induction es generalizing s with
  | nil => exact h
  | cons e es ih => exact ih (toMap_indexTreap_append h)

lemma toMap_indexTreap (h : Reaches IsWrite (Durable.fresh outcomes) x) :
    (indexTreap x.store.history).toMap = x.store.index := by
  induction h with
  | refl => rfl
  | tail _ hstep ih =>
    rename_i y z _
    obtain ⟨a, ha, rfl⟩ := hstep
    cases a with
    | restart => exact ha.elim
    | call c =>
      change (indexTreap (c.run y).store.history).toMap = (c.run y).store.index
      obtain ⟨hstore, _⟩ | ⟨f, heffect, _⟩ := c.run_cases y
      · rw [hstore]
        exact ih
      obtain ⟨es, _, _, heq⟩ | ⟨rev, _, _, heq⟩ | ⟨rev, rfl, _⟩ := Call.effect_cases heffect
      · rw [heq]
        exact toMap_indexTreap_pushAll es ih
      · rw [heq]
        exact ih
      · exact ha.elim

def found : Except ReadError KeyValue → List KeyValue
  | .ok kv => [kv]
  | .error _ => []

lemma mvccRangeAt_found {rev : Nat} {k : Key} (h : ¬ compactedAway s rev) (hk : k ≠ []) :
    mvccRangeAt s rev k (k ++ [0]) = .ok (found (mvccGet s rev k)) := by
  rw [mvccRangeAt_succ h hk, mvccGet_eq h]
  cases versionAt s rev k <;> rfl

/-- The index and the history show the same, for one key and for every range. -/
theorem index_agrees_with_history (h : Reaches IsWrite (Durable.fresh outcomes) x) :
    (∀ k, mvccGet x.store 0 k = mvccGet x.store x.store.mainRev k) ∧
      (∀ lo hi, mvccRangeAt x.store 0 lo hi = mvccRangeAt x.store x.store.mainRev lo hi) ∧
      (∀ k, k ≠ [] → mvccRangeAt x.store 0 k (k ++ [0]) = .ok (found (mvccGet x.store 0 k)) ∧
          mvccRangeAt x.store x.store.mainRev k (k ++ [0]) =
            .ok (found (mvccGet x.store x.store.mainRev k))) ∧
      (∀ k, (indexTreap x.store.history).get k = x.store.index.find k) ∧
      ∀ lo hi, (indexTreap x.store.history).range lo (openEnd hi) = mvccRange x.store lo hi := by
  have hs := ((sound_fresh outcomes).reaches h).chronicle
  have hc : x.store.compactedRev = 0 := (grown_of_reaches h).compacted
  have hzero := not_compactedAway_zero x.store
  have hmain : ¬ compactedAway x.store x.store.mainRev := not_compactedAway hs.compacted
  have htreap := toMap_indexTreap h
  refine ⟨fun k => ?_, fun lo hi => ?_, fun k hk => ⟨?_, ?_⟩, fun k => ?_, fun lo hi => ?_⟩
  · exact (mvccGet_eq_iff hzero hmain).2 (hs.versionAt_mainRev hc k).symm
  · exact (mvccRangeAt_eq_iff hzero hmain).2 fun k _ => (hs.versionAt_mainRev hc k).symm
  · exact mvccRangeAt_found hzero hk
  · exact mvccRangeAt_found hmain hk
  · rw [Treap.get_eq_find, htreap]
  unfold Treap.range mvccRange inRange
  rw [treapInorderRange_eq, ← htreap]
  exact filter_congr fun e _ => by simp

/-- A re-created key, a failed put and a batch of deletions. -/
def rewritten : List Act :=
  [.call (.put [97] [1] 0), .call (.put [98] [2] 0), .call (.delete [97]), .call (.put [97] [3] 5),
    .call (.put [99] [4] 0), .call (.advance 9), .call (.deleteKeys [[98], [98], [100]])]

theorem index_agrees_rewritten :
    mvccGet ((Durable.fresh [true, true, true, true, false]).play rewritten).store 0 [97] =
        .ok ⟨[97], [3], ⟨4, 0⟩, ⟨4, 0⟩, 1, 5⟩ ∧
      mvccGet ((Durable.fresh [true, true, true, true, false]).play rewritten).store
          ((Durable.fresh [true, true, true, true, false]).play rewritten).store.mainRev [97] =
        .ok ⟨[97], [3], ⟨4, 0⟩, ⟨4, 0⟩, 1, 5⟩ := by
  have hget : mvccGet ((Durable.fresh [true, true, true, true, false]).play rewritten).store 0 [97] =
      .ok ⟨[97], [3], ⟨4, 0⟩, ⟨4, 0⟩, 1, 5⟩ := by decide +kernel
  have hreach : Reaches IsWrite (Durable.fresh [true, true, true, true, false])
      ((Durable.fresh [true, true, true, true, false]).play rewritten) :=
    reaches_play (by simp [rewritten, IsWrite])
  exact ⟨hget, ((index_agrees_with_history hreach).1 [97]).symm.trans hget⟩

/-- The range from the empty key to a zero byte is read as having no end. -/
theorem range_of_empty_key :
    Reaches IsWrite (Durable.fresh []) putOnce ∧ mvccGet putOnce.store 0 [] = .error .notFound ∧
      mvccRangeAt putOnce.store 0 [] ([] ++ [0]) = .ok [⟨[97], [1], ⟨1, 0⟩, ⟨1, 0⟩, 1, 0⟩] :=
  ⟨reaches_play (by simp [IsWrite]), by decide +kernel, by decide +kernel⟩

/-- No write changes what is read at an older revision; it is what was current then. -/
theorem past_is_immutable (hx : Reaches IsWrite (Durable.fresh outcomes) x)
    (hy : Reaches IsWrite x y) :
    (∀ r, 0 < r → r ≤ x.store.mainRev → (∀ k, mvccGet y.store r k = mvccGet x.store r k) ∧
          ∀ lo hi, mvccRangeAt y.store r lo hi = mvccRangeAt x.store r lo hi) ∧
      (0 < x.store.mainRev → (∀ k, mvccGet y.store x.store.mainRev k = mvccGet x.store 0 k) ∧
          ∀ lo hi, mvccRangeAt y.store x.store.mainRev lo hi = mvccRangeAt x.store 0 lo hi) := by
  have hs := ((sound_fresh outcomes).reaches hx).chronicle
  have hgrown := grown_of_reaches hy
  have hcx : x.store.compactedRev = 0 := (grown_of_reaches hx).compacted
  have hcy : y.store.compactedRev = 0 := hgrown.compacted.trans hcx
  have hx0 : ∀ r, ¬ compactedAway x.store r := fun r => not_compactedAway (hcx ▸ Nat.zero_le r)
  have hy0 : ∀ r, ¬ compactedAway y.store r := fun r => not_compactedAway (hcy ▸ Nat.zero_le r)
  refine ⟨fun r hpos hr => ⟨fun k => ?_, fun lo hi => ?_⟩, fun hpos => ⟨fun k => ?_, fun lo hi => ?_⟩⟩
  · exact (mvccGet_eq_iff (hy0 r) (hx0 r)).2 (hgrown.versionAt hpos hr k)
  · exact (mvccRangeAt_eq_iff (hy0 r) (hx0 r)).2 fun k _ => hgrown.versionAt hpos hr k
  · refine (mvccGet_eq_iff (hy0 _) (hx0 0)).2 ?_
    exact (hgrown.versionAt hpos le_rfl k).trans (hs.versionAt_mainRev hcx k)
  refine (mvccRangeAt_eq_iff (hy0 _) (hx0 0)).2 fun k _ => ?_
  exact (hgrown.versionAt hpos le_rfl k).trans (hs.versionAt_mainRev hcx k)

theorem past_is_immutable_put_once : 0 < putOnce.store.mainRev ∧
      mvccGet (putOnce.play rewritten).store putOnce.store.mainRev [97] =
        mvccGet putOnce.store 0 [97] := by
  have hx : Reaches IsWrite (Durable.fresh []) putOnce := reaches_play (by simp [IsWrite])
  have hy : Reaches IsWrite putOnce (putOnce.play rewritten) :=
    reaches_play (by simp [rewritten, IsWrite])
  exact ⟨by decide +kernel, ((past_is_immutable hx hy).2 (by decide +kernel)).1 [97]⟩

end

section

variable {x : Durable} {outcomes : List Bool} {s : Store} {c r : Nat}

/-- The put that is seen at `r` is not older than the compaction. -/
def SurvivesCompaction (s : Store) (c r : Nat) (k : Key) : Prop :=
  ∀ e, entryAt s r k = some e → e.type = .put → c ≤ e.rev.main

lemma mvccCompact_ok {d : Disk} (h : (mvccCompact s d c).1 = .ok) :
    0 < c ∧ s.compactedRev < c ∧ c ≤ s.mainRev ∧ (mvccCompact s d c).2.1 = { s with
        history := s.history.filter fun e => c ≤ e.rev.main
        compactedRev := c } := by
  unfold mvccCompact at h ⊢
  split_ifs at h ⊢ with hzero hlate hdone
  rcases hw : d.write fun be => { be with compacted := some c } with ⟨ok, d'⟩
  rw [hw] at h
  cases ok with
  | false => cases h
  | true => exact ⟨by omega, by omega, by omega, rfl⟩

lemma versionAt_compact_iff (hs : Chronicle s) (hpos : 0 < r) (k : Key) : versionAt { s with
        history := s.history.filter fun e => c ≤ e.rev.main
        compactedRev := c } r k = versionAt s r k ↔ SurvivesCompaction s c r k := by
  rw [versionAt_pos hpos, versionAt_pos hpos]
  have hentry : entryAt { s with
        history := s.history.filter fun e => c ≤ e.rev.main
        compactedRev := c } r k = (entryAt s r k).filter fun e => c ≤ e.rev.main :=
    latest_filter_le hs.sorted c
  rw [hentry]
  unfold SurvivesCompaction
  cases entryAt s r k with
  | none => simp
  | some e =>
    by_cases hle : c ≤ e.rev.main
    · simp [filter_some, hle]
    · cases htype : e.type <;> simp [filter_some, hle, RevisionEntry.version?, htype]

/-- A read at a kept revision stays exactly if the put it shows was not dropped. -/
theorem compaction_keeps_iff (h : Reaches AnyAct (Durable.fresh outcomes) x)
    (hok : (mvccCompact x.store x.disk c).1 = .ok) (hr : c ≤ r) :
    (∀ k, mvccGet (mvccCompact x.store x.disk c).2.1 r k = mvccGet x.store r k ↔
        SurvivesCompaction x.store c r k) ∧
      ∀ lo hi, mvccRangeAt (mvccCompact x.store x.disk c).2.1 r lo hi =
          mvccRangeAt x.store r lo hi ↔
        ∀ k, inRange lo (openEnd hi) k → SurvivesCompaction x.store c r k := by
  have hs := ((sound_fresh outcomes).reaches h).chronicle
  obtain ⟨hpos, hlt, _, heq⟩ := mvccCompact_ok hok
  have hbefore : ¬ compactedAway x.store r := not_compactedAway (hlt.le.trans hr)
  have hafter : ¬ compactedAway (mvccCompact x.store x.disk c).2.1 r := by
    rw [heq]
    exact not_compactedAway hr
  refine ⟨fun k => ?_, fun lo hi => ?_⟩
  · rw [mvccGet_eq_iff hafter hbefore, heq]
    exact versionAt_compact_iff hs (hpos.trans_le hr) k
  rw [mvccRangeAt_eq_iff hafter hbefore, heq]
  exact forall₂_congr fun k _ => versionAt_compact_iff hs (hpos.trans_le hr) k

theorem compaction_keeps_put_once : (mvccCompact putOnce.store putOnce.disk 1).1 = .ok ∧
      mvccGet (mvccCompact putOnce.store putOnce.disk 1).2.1 1 [97] = mvccGet putOnce.store 1 [97] := by
  have hreach : Reaches AnyAct (Durable.fresh []) putOnce := reaches_play fun _ _ => trivial
  refine ⟨by decide +kernel,
    ((compaction_keeps_iff hreach (by decide +kernel) le_rfl).1 [97]).2 fun e he _ => ?_⟩
  exact ((sound_fresh []).reaches hreach).chronicle.pos e (mem_of_latest he).1

/-- Two keys are put, and the store is compacted at its revision: the first is missing there. -/
theorem compaction_loses_key : Reaches AnyAct (Durable.fresh [])
        ((Durable.fresh []).play [.call (.put [97] [1] 0), .call (.put [98] [2] 0)]) ∧
      (mvccCompact ((Durable.fresh []).play
          [.call (.put [97] [1] 0), .call (.put [98] [2] 0)]).store ⟨Backend.empty, []⟩ 2).1 = .ok ∧
      mvccGet ((Durable.fresh []).play
          [.call (.put [97] [1] 0), .call (.put [98] [2] 0)]).store 2 [97] =
        .ok ⟨[97], [1], ⟨1, 0⟩, ⟨1, 0⟩, 1, 0⟩ ∧
      mvccGet (mvccCompact ((Durable.fresh []).play
          [.call (.put [97] [1] 0), .call (.put [98] [2] 0)]).store ⟨Backend.empty, []⟩ 2).2.1 2 [97] =
        .error .notFound :=
  ⟨reaches_play fun _ _ => trivial, by decide +kernel, by decide +kernel, by decide +kernel⟩

end

end Cetcd.Mvcc
