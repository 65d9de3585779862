import Cetcd.Lib.EpochLog
import Cetcd.Protocol.Moves
import Cetcd.Raft.Stored

/-!
# The whole log behind a compacted one

`Rep l L`: the array log `l` is the list `L` of which it may have forgotten a prefix. Past
`compacted` the cells hold the entries of `L`, the cell at `compacted` its term. The main operation
is `Rep.stores`, the loop of `handle_app_`.
-/

namespace Cetcd.Protocol

open Lib Raft List ZeroArray

/-- The cells of `l` that can still be read agree with `P`, as far as `P` goes. -/
structure Shows (l : RaftLog) (P : List Entry) : Prop where
  read : ∀ q, l.compacted < q → q ≤ P.length → P[q - 1]? = some (l.log.read q)
  base : l.compacted ≠ 0 → l.compacted ≤ P.length →
    ∃ e, P[l.compacted - 1]? = some e ∧ e.term = (l.log.read l.compacted).term

structure Rep (l : RaftLog) (L : List Entry) : Prop extends Shows l L where
  last : l.lastIndex = L.length
  lastTerm : l.lastTerm = lastTm Entry.term L

variable {l l' : RaftLog} {P L T : List Entry} {e : Entry} {k s t : Nat}

lemma Shows.take (h : Shows l P) (n : Nat) : Shows l (P.take n) := by
  constructor
  · intro q hq hle
    rw [length_take] at hle
    rw [getElem?_take_of_lt (by omega)]
    exact h.read q hq (by omega)
  intro h0 hle
  rw [length_take] at hle
  rw [getElem?_take_of_lt (by omega)]
  exact h.base h0 (by omega)

lemma Shows.of_lt_compacted (h : P.length < l.compacted) : Shows l P :=
  ⟨fun q hq hle => by omega, fun _ hle => by omega⟩

lemma Shows.nil (l : RaftLog) : Shows l [] :=
  ⟨fun q hq hle => by simp at hle; omega, fun h0 hle => by simp at hle; omega⟩

lemma Rep.empty :
    Rep { log := ZeroArray.empty, lastIndex := 0, lastTerm := 0, compacted := 0 } [] :=
  ⟨Shows.nil _, rfl, rfl⟩

section

variable {l : RaftLog} {L : List Entry} {q : Nat}

lemma Rep.term_at (h : Rep l L) (h0 : q ≠ 0) (hc : l.compacted ≤ q) (hle : q ≤ L.length) :
    ∃ e, L[q - 1]? = some e ∧ e.term = logTermAt l q := by
  rw [logTermAt_of_range h0 (by rw [h.last]; exact hle) hc]
  obtain hlt | hge := lt_or_ge l.compacted q
  · exact ⟨_, h.read q hlt hle, rfl⟩
  have hq : q = l.compacted := by omega
  subst hq
  exact h.base h0 hle

lemma Rep.of_logTermAt_ne_zero (h : Rep l L) (hne : logTermAt l q ≠ 0) :
    q ≠ 0 ∧ q ≤ L.length ∧ l.compacted ≤ q ∧ ∃ e, L[q - 1]? = some e ∧ e.term = logTermAt l q := by
  obtain ⟨h0, hle, hc⟩ := range_of_logTermAt_ne_zero hne
  rw [h.last] at hle
  exact ⟨h0, hle, hc, h.term_at h0 hc hle⟩

lemma Rep.of_logAt (h : Rep l L) {e : Entry} (hq : l.compacted < q) (he : logAt l q = some e) :
    L[q - 1]? = some e := by
  obtain ⟨_, hle, _, rfl⟩ := logAt_eq_some.1 he
  exact h.read q hq (by rw [← h.last]; exact hle)

end

lemma Shows.write (h : Shows l P) (hcomp : l'.compacted = l.compacted)
    (hold : ∀ q, q ≤ P.length → l'.log.read q = l.log.read q)
    (hnew : l'.log.read (P.length + 1) = e) : Shows l' (P ++ [e]) := by
  have hlast : (P ++ [e])[P.length]? = some e := by simp
  constructor
  · intro q hq hle
    rw [hcomp] at hq
    rw [length_append, length_singleton] at hle
    obtain hlt | hge := lt_or_ge P.length q
    · have hq' : q = P.length + 1 := by omega
      subst hq'
      rw [hnew]
      exact hlast
    rw [getElem?_append_left (by omega), hold q hge]
    exact h.read q hq hge
  rw [hcomp]
  intro h0 hle
  rw [length_append, length_singleton] at hle
  obtain hlt | hge := lt_or_ge P.length l.compacted
  · have hq' : l.compacted = P.length + 1 := by omega
    rw [hq', hnew]
    exact ⟨e, hlast, rfl⟩
  rw [getElem?_append_left (by omega), hold _ hge]
  exact h.base h0 hge

lemma Rep.append (h : Rep l L) (hidx : e.index = l.lastIndex + 1) :
    Rep (logAppend l e) (L ++ [e]) := by
  rw [h.last] at hidx
  refine ⟨h.toShows.write (by simp) ?_ ?_, ?_, ?_⟩
  · intro q hq
    rw [logAppend_log, read_write_of_ne _ _ (by omega)]
  · rw [logAppend_log, hidx, read_write_self]
  · rw [logAppend_lastIndex, h.last, hidx, length_append, length_singleton]
    omega
  · rw [logAppend_lastTerm, if_pos (by rw [h.last]; omega), lastTm_concat]

lemma storeEntries_compacted (es : List Entry) (l : RaftLog) (idx : Nat) :
    (storeEntries l idx es).compacted = l.compacted := by
  induction es generalizing l idx with
  | nil => rfl
  | cons e es ih =>
    rw [storeEntries, ih, storeEntry_compacted]

lemma Rep.store_new (h : Shows l P) (hle : P.length ≤ l.lastIndex)
    (hconf : P.length + 1 ≤ l.lastIndex → logTermAt l (P.length + 1) ≠ e.term) :
    Rep (storeEntry l (P.length + 1) e) (P ++ [{ e with index := P.length + 1 }]) := by
  unfold storeEntry
  dsimp only
  -- the log before the append: it ends at `P` and still shows it
  generalize hl1 : (if P.length + 1 ≤ l.lastIndex ∧ logTermAt l (P.length + 1) ≠ e.term then
    logTruncateAfter l (P.length + 1 - 1) else l) = l1
  have h1 : l1.lastIndex = P.length ∧ l1.compacted = l.compacted ∧
      ∀ q, q ≤ P.length → l1.log.read q = l.log.read q := by
    rw [← hl1]
    split
    · refine ⟨?_, by simp, fun q hq => logTruncateAfter_read l (by omega)⟩
      rw [logTruncateAfter_lastIndex]
      omega
    rename_i hnot
    refine ⟨?_, rfl, fun _ _ => rfl⟩
    by_contra hne
    exact hnot ⟨by omega, hconf (by omega)⟩
  obtain ⟨hlast, hcomp, hread⟩ := h1
  refine ⟨h.write (by simp [hcomp]) ?_ ?_, ?_, ?_⟩
  · intro q hq
    rw [logAppend_log, read_write_of_ne _ _ (by dsimp only; omega), hread q hq]
  · rw [logAppend_log, read_write_self]
  · rw [logAppend_lastIndex, hlast, length_append, length_singleton]
    dsimp only
    omega
  · rw [logAppend_lastTerm, if_pos (by rw [hlast]; dsimp only; omega), lastTm_concat]

lemma Rep.store_same (h : Rep l L) (hk : L[k]? = some { e with index := k + 1 })
    (hterm : logTermAt l (k + 1) = e.term) :
    Rep (storeEntry l (k + 1) e) L ∧ (∀ q, logTermAt (storeEntry l (k + 1) e) q = logTermAt l q) ∧
      (storeEntry l (k + 1) e).compacted = l.compacted := by
  have hlt : k < L.length := by
    by_contra hnot
    rw [getElem?_eq_none (by omega)] at hk
    cases hk
  have hstore : storeEntry l (k + 1) e = logAppend l { e with index := k + 1 } := by
    unfold storeEntry
    rw [if_neg (fun hc => hc.2 hterm)]
  rw [hstore]
  have hlast : (logAppend l { e with index := k + 1 }).lastIndex = l.lastIndex := by
    rw [logAppend_lastIndex, h.last]
    dsimp only
    omega
  have hlastTerm : (logAppend l { e with index := k + 1 }).lastTerm = l.lastTerm := by
    rw [logAppend_lastTerm, if_neg (by rw [h.last]; dsimp only; omega)]
  have hread : ∀ q, (logAppend l { e with index := k + 1 }).log.read q =
      if q = k + 1 then { e with index := k + 1 } else l.log.read q := by
    intro q
    rw [logAppend_log, read_write]
  refine ⟨⟨⟨?_, ?_⟩, hlast.trans h.last, hlastTerm.trans h.lastTerm⟩, ?_, by simp⟩
  · intro q hq hle
    rw [logAppend_compacted] at hq
    rw [hread]
    split
    · rename_i hqk
      subst hqk
      exact hk
    · exact h.read q hq hle
  · rw [logAppend_compacted]
    intro h0 hle
    rw [hread]
    split
    · rename_i hck
      rw [hck]
      exact ⟨_, hk, rfl⟩
    · exact h.base h0 hle
  intro q
  by_cases hqk : q = k + 1
  · subst hqk
    by_cases hc : k + 1 < l.compacted
    · rw [logTermAt_of_lt_compacted hc, logTermAt_of_lt_compacted]
      rwa [logAppend_compacted]
    rw [hterm, logTermAt_of_range (by omega) (by rw [hlast, h.last]; omega)
      (by rw [logAppend_compacted]; omega), hread, if_pos rfl]
  unfold logTermAt logAt
  rw [hlast, logAppend_compacted, hread, if_neg hqk]

lemma drop_eq_cons {es : List Entry} {k : Nat} (h : e :: es = T.drop k) :
    ∃ hlt : k < T.length, e = T[k] ∧ es = T.drop (k + 1) := by
  have hlt : k < T.length := by
    by_contra hnot
    rw [drop_eq_nil_iff.2 (by omega)] at h
    cases h
  rw [drop_eq_getElem_cons hlt] at h
  exact ⟨hlt, List.cons.inj h⟩

/-- From index `k` on the log holds entries of the terms of `es`. -/
def HasEntries (l : RaftLog) (k : Nat) (es : List Entry) : Prop :=
  k + es.length ≤ l.lastIndex ∧ ∀ j (hj : j < es.length), logTermAt l (k + 1 + j) = (es[j]).term

instance (l : RaftLog) (k : Nat) (es : List Entry) : Decidable (HasEntries l k es) :=
  inferInstanceAs (Decidable (_ ∧ _))

lemma hasEntries_cons {es : List Entry} : HasEntries l k (e :: es) ↔
      (k + 1 ≤ l.lastIndex ∧ logTermAt l (k + 1) = e.term) ∧ HasEntries l (k + 1) es := by
  constructor
  · rintro ⟨hlen, hall⟩
    rw [length_cons] at hlen
    refine ⟨⟨by omega, hall 0 (by simp)⟩, by omega, ?_⟩
    intro j hj
    have := hall (j + 1) (by simpa using hj)
    rw [getElem_cons_succ] at this
    rw [← this]
    congr 1
    omega
  rintro ⟨⟨_, hhead⟩, hlen, hall⟩
  refine ⟨by rw [length_cons]; omega, ?_⟩
  intro j hj
  cases j with
  | zero => exact hhead
  | succ j =>
    rw [getElem_cons_succ, ← hall j (by simpa using hj)]
    congr 1
    omega

/-- The loop of `handle_app_` on a log that represents `L`: if every entry is there with its term,
it goes on representing `L`; otherwise it represents the target `T`, which agrees with `L` wherever
the terms do (`hag`). -/
lemma Rep.stores :
    ∀ (es : List Entry) {L : List Entry} {l : RaftLog} {k : Nat}, Rep l L → Shows l (T.take k) →
      k ≤ L.length → k ≤ T.length → es = T.drop k →
      (∀ q (hq : q < T.length), k ≤ q → (T[q]).index = q + 1) →
      (∀ q (hq : q < T.length), k ≤ q → q < L.length → logTermAt l (q + 1) = (T[q]).term →
        L.take (q + 1) = T.take (q + 1)) →
      (HasEntries l k es → Rep (storeEntries l (k + 1) es) L) ∧
        (¬ HasEntries l k es → Rep (storeEntries l (k + 1) es) T)
  | [], L, l, k, h, _, hkL, hkT, hes, _, _ => by
      refine ⟨fun _ => h, fun hnot => ?_⟩
      refine absurd ⟨?_, fun j hj => absurd hj (by simp)⟩ hnot
      rw [h.last]
      simpa using hkL
  | e :: es, L, l, k, h, hshow, hkL, hkT, hes, hidx, hag => by
      obtain ⟨hlt, he, htail⟩ := drop_eq_cons hes
      have hlen : (T.take k).length = k := by
        rw [length_take]
        omega
      have hel : ({ e with index := k + 1 } : Entry) = T[k] := by
        rw [he, ← hidx k hlt (le_refl k)]
      by_cases hsame : k + 1 ≤ l.lastIndex ∧ logTermAt l (k + 1) = e.term
      · -- this entry is there: the lists agree up to it
        have hkL' : k < L.length := by
          rw [← h.last]
          omega
        have htake := hag k hlt (le_refl k) hkL' (by rw [← he]; exact hsame.2)
        have hget : L[k]? = some { e with index := k + 1 } := by
          have hL : (L.take (k + 1))[k]? = L[k]? := getElem?_take_of_lt (by omega)
          have hT : (T.take (k + 1))[k]? = T[k]? := getElem?_take_of_lt (by omega)
          rw [← hL, htake, hT, getElem?_eq_getElem hlt, hel]
        obtain ⟨hrep, hterms, _⟩ := h.store_same hget hsame.2
        have hshow' : Shows (storeEntry l (k + 1) e) (T.take (k + 1)) := by
          rw [← htake]
          exact hrep.toShows.take _
        have hrest := Rep.stores es hrep hshow' (by omega) (by omega) htail
          (fun q hq hkq => hidx q hq (by omega))
          (fun q hq hkq hqL ht => hag q hq (by omega) hqL (by rw [← hterms]; exact ht))
        have hlast : (storeEntry l (k + 1) e).lastIndex = l.lastIndex := by
          rw [hrep.last, h.last]
        -- the entries after the first are there exactly when all of them are
        have hiff : HasEntries (storeEntry l (k + 1) e) (k + 1) es ↔ HasEntries l k (e :: es) := by
          rw [hasEntries_cons]
          unfold HasEntries
          simp only [hlast, hterms]
          exact ⟨fun h => ⟨hsame, h⟩, fun h => h.2⟩
        exact ⟨fun hc => hrest.1 (hiff.2 hc), fun hc => hrest.2 (fun h' => hc (hiff.1 h'))⟩
      -- a conflict or the end of the log: from here on the target is written
      have hstep := Rep.store_new (e := e) hshow (by rw [hlen, h.last]; exact hkL) (fun hc => by
          rw [hlen] at hc ⊢
          exact fun ht => hsame ⟨hc, ht⟩)
      rw [hlen, hel, take_append_getElem hlt] at hstep
      have hlen' : (T.take (k + 1)).length = k + 1 := length_take_of_le hlt
      have hrest := Rep.stores es hstep hstep.toShows hlen'.ge hlt htail
        (fun q hq hkq => hidx q hq (by omega)) (fun q hq hkq hqL _ => by rw [hlen'] at hqL; omega)
      refine ⟨fun hc => absurd (hasEntries_cons.1 hc).1 hsame, fun _ => ?_⟩
      by_cases hall : HasEntries (storeEntry l (k + 1) e) (k + 1) es
      · -- the log now ends with this entry, so no further one is left
        have hend := hall.1
        rw [hstep.last, hlen', htail, length_drop] at hend
        have hT := hrest.1 hall
        rwa [take_of_length_le (by omega)] at hT
      · exact hrest.2 hall

lemma Rep.compact (h : Rep l L) (hl' : logCompact l s t = some l') (hs : s ≤ L.length)
    (ht : ∃ e, L[s - 1]? = some e ∧ e.term = t) : Rep l' L := by
  obtain ⟨h0, hc, _, hcomp, hlast, hlastTerm, hbase, hread⟩ := logCompact_eq_some hl'
  refine ⟨⟨?_, ?_⟩, ?_, ?_⟩
  · intro q hq hle
    rw [hcomp] at hq
    rw [hread q hq]
    exact h.read q (by omega) hle
  · rw [hcomp, hbase]
    exact fun _ _ => ht
  · rw [hlast, h.last]
    omega
  · rw [hlastTerm, if_neg (by rw [h.last]; omega), h.lastTerm]

lemma Rep.install (hempty : l.lastIndex < s) (hl' : logCompact l s t = some l') (hs : L.length = s)
    (ht : lastTm Entry.term L = t) : Rep l' L := by
  obtain ⟨h0, hc, _, hcomp, hlast, hlastTerm, hbase, hread⟩ := logCompact_eq_some hl'
  refine ⟨⟨?_, ?_⟩, ?_, ?_⟩
  · intro q hq hle
    rw [hcomp] at hq
    omega
  · rw [hcomp, hbase]
    intro _ _
    unfold lastTm at ht
    rw [getLast?_eq_getElem?, hs] at ht
    rw [getElem?_eq_getElem (by omega)] at ht ⊢
    exact ⟨_, rfl, ht⟩
  · rw [hlast, hs]
    omega
  · rw [hlastTerm, if_pos hempty, ht]

end Cetcd.Protocol
