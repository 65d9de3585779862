import Cetcd.Raft.Types

/-!
# The in-memory log

The log helpers of `raft.c`. An index below `compacted` is not answered any more; the entry at
`compacted` is a dummy that keeps only its term.
-/

namespace Cetcd.Raft

open Lib

def logAt (l : RaftLog) (index : Nat) : Option Entry :=
  if index = 0 ∨ l.lastIndex < index then none
  else if index < l.compacted then none
  else some (l.log.read index)

/-- `log_term_at_`: zero stands for "no such entry". -/
def logTermAt (l : RaftLog) (index : Nat) : Nat :=
  if index = 0 then 0
  else
    match logAt l index with
    | some e => e.term
    | none => 0

def entryClearData (e : Entry) : Entry :=
  { e with data := [] }

/-- `log_append_`: store the entry at its own index, whatever that is. -/
def logAppend (l : RaftLog) (e : Entry) : RaftLog :=
  let stored := { l with log := l.log.write e.index e }
  if l.lastIndex < e.index then
    { stored with lastIndex := e.index, lastTerm := e.term }
  else
    stored

/-- `log_truncate_after_`: drop every entry past `index`. -/
def logTruncateAfter (l : RaftLog) (index : Nat) : RaftLog :=
  if l.lastIndex ≤ index then l
  else
    let cleared :=
      { l with
        log := ZeroArray.update (fun _ => default) l.log (index + 1) (l.lastIndex - index)
        lastIndex := index }
    { cleared with lastTerm := logTermAt cleared index }

/-- The log part of `cetcd_raft_compact`; `none` is its error return. The dummy goes through
`log_append_`, so an empty log is raised. -/
def logCompact (l : RaftLog) (lastIncluded lastTerm : Nat) : Option RaftLog :=
  if lastIncluded = 0 then none
  else if lastIncluded < l.compacted then none
  else if l.lastIndex ≠ 0 ∧ l.lastIndex < lastIncluded then none
  else
    let l' := logAppend l { term := lastTerm, index := lastIncluded, type := .normal }
    if l'.lastIndex < lastIncluded then none
    else
      some
        { l' with
          log := ZeroArray.update entryClearData l'.log 1 (lastIncluded - 1)
          compacted := lastIncluded }

variable {l : RaftLog} {i s t : Nat}

lemma logAt_of_range (h0 : i ≠ 0) (hlast : i ≤ l.lastIndex) (hcomp : l.compacted ≤ i) :
    logAt l i = some (l.log.read i) := by
  unfold logAt
  rw [if_neg (by omega), if_neg (by omega)]

lemma logAt_eq_some {e : Entry} :
    logAt l i = some e ↔ i ≠ 0 ∧ i ≤ l.lastIndex ∧ l.compacted ≤ i ∧ l.log.read i = e := by
  unfold logAt
  constructor
  · intro h
    split at h
    · cases h
    split at h
    · cases h
    refine ⟨by omega, by omega, by omega, ?_⟩
    simpa using h
  rintro ⟨h0, hlast, hcomp, hread⟩
  rw [if_neg (by omega), if_neg (by omega), hread]

lemma logTermAt_of_range (h0 : i ≠ 0) (hlast : i ≤ l.lastIndex) (hcomp : l.compacted ≤ i) :
    logTermAt l i = (l.log.read i).term := by
  unfold logTermAt
  rw [if_neg h0, logAt_of_range h0 hlast hcomp]

lemma logTermAt_of_lt_compacted (h : i < l.compacted) : logTermAt l i = 0 := by
  unfold logTermAt logAt
  split
  · rfl
  by_cases hi : i = 0 ∨ l.lastIndex < i
  all_goals simp [hi]

lemma logTermAt_of_last_lt (h : l.lastIndex < i) : logTermAt l i = 0 := by
  unfold logTermAt logAt
  split
  · rfl
  · rw [if_pos (Or.inr h)]

lemma range_of_logTermAt_ne_zero (h : logTermAt l i ≠ 0) :
    i ≠ 0 ∧ i ≤ l.lastIndex ∧ l.compacted ≤ i := by
  refine ⟨?_, ?_, ?_⟩
  · rintro rfl
    exact h rfl
  · by_contra hlt
    exact h (logTermAt_of_last_lt (by omega))
  by_contra hlt
  exact h (logTermAt_of_lt_compacted (by omega))

@[simp] lemma logAppend_compacted (l : RaftLog) (e : Entry) :
    (logAppend l e).compacted = l.compacted := by
  unfold logAppend
  dsimp only
  split <;> rfl

@[simp] lemma logAppend_log (l : RaftLog) (e : Entry) :
    (logAppend l e).log = l.log.write e.index e := by
  unfold logAppend
  dsimp only
  split <;> rfl

lemma logAppend_lastIndex (l : RaftLog) (e : Entry) :
    (logAppend l e).lastIndex = max l.lastIndex e.index := by
  unfold logAppend
  dsimp only
  split
  all_goals
    dsimp only
    omega

lemma logAppend_lastTerm (l : RaftLog) (e : Entry) :
    (logAppend l e).lastTerm = if l.lastIndex < e.index then e.term else l.lastTerm := by
  unfold logAppend
  dsimp only
  split <;> rfl

@[simp] lemma logTruncateAfter_compacted (l : RaftLog) (i : Nat) :
    (logTruncateAfter l i).compacted = l.compacted := by
  unfold logTruncateAfter
  split <;> rfl

lemma logTruncateAfter_lastIndex (l : RaftLog) (i : Nat) :
    (logTruncateAfter l i).lastIndex = min l.lastIndex i := by
  unfold logTruncateAfter
  split
  · omega
  dsimp only
  omega

lemma logTruncateAfter_read (l : RaftLog) {j : Nat} (hj : j ≤ i) :
    (logTruncateAfter l i).log.read j = l.log.read j := by
  unfold logTruncateAfter
  split
  · rfl
  dsimp only
  rw [ZeroArray.read_update, if_neg (by omega)]

lemma logCompact_eq_some {l' : RaftLog} (h : logCompact l s t = some l') :
    s ≠ 0 ∧ l.compacted ≤ s ∧ (l.lastIndex = 0 ∨ s ≤ l.lastIndex) ∧
      l'.compacted = s ∧ l'.lastIndex = max l.lastIndex s ∧
      l'.lastTerm = (if l.lastIndex < s then t else l.lastTerm) ∧
      l'.log.read s = { term := t, index := s } ∧
      ∀ j, s < j → l'.log.read j = l.log.read j := by
  unfold logCompact at h
  by_cases hs : s = 0
  · rw [if_pos hs] at h
    cases h
  rw [if_neg hs] at h
  by_cases hc : s < l.compacted
  · rw [if_pos hc] at h
    cases h
  rw [if_neg hc] at h
  by_cases hl : l.lastIndex ≠ 0 ∧ l.lastIndex < s
  · rw [if_pos hl] at h
    cases h
  rw [if_neg hl] at h
  dsimp only at h
  rw [if_neg (by rw [logAppend_lastIndex]; dsimp only; omega)] at h
  cases h
  refine ⟨hs, by omega, by omega, rfl, ?_, ?_, ?_, ?_⟩
  · simp [logAppend_lastIndex]
  · simp [logAppend_lastTerm]
  · dsimp only
    rw [ZeroArray.read_update, if_neg (by omega)]
    simp
  intro j hj
  dsimp only
  rw [ZeroArray.read_update, if_neg (by omega), logAppend_log,
    ZeroArray.read_write_of_ne _ _ (by dsimp only; omega)]

lemma logCompact_isSome (hs : s ≠ 0) (hc : l.compacted ≤ s)
    (hl : l.lastIndex = 0 ∨ s ≤ l.lastIndex) : ∃ l', logCompact l s t = some l' := by
  unfold logCompact
  rw [if_neg hs, if_neg (by omega), if_neg (by omega)]
  dsimp only
  rw [if_neg (by rw [logAppend_lastIndex]; dsimp only; omega)]
  exact ⟨_, rfl⟩

/-- The same command at the same position; the stored `index` is the position itself. -/
def SameEntry (e e' : Entry) : Prop := e.term = e'.term ∧ e.type = e'.type ∧ e.data = e'.data
  deriving Decidable

/-- Both logs have an entry at `q`, and it is the same. -/
def AgreeAt (l l' : RaftLog) (q : Nat) : Prop :=
  ∃ e, e ∈ logAt l q ∧ ∃ e', e' ∈ logAt l' q ∧ SameEntry e e'
  deriving Decidable

def AgreeOn (l l' : RaftLog) (a b : Nat) : Prop := ∀ q, a ≤ q → q ≤ b → AgreeAt l l' q
  deriving Decidable

section

variable {l l' l2 : RaftLog} {q : Nat}

lemma SameEntry.refl (e : Entry) : SameEntry e e := ⟨rfl, rfl, rfl⟩

section

variable (hc : l.compacted = 0) (hc' : l'.compacted = 0) (hq : 1 ≤ q)

include hc hc' hq

lemma agreeAt_iff : AgreeAt l l' q ↔
      q ≤ l.lastIndex ∧ q ≤ l'.lastIndex ∧ SameEntry (l.log.read q) (l'.log.read q) := by
  have hmem : ∀ {k : RaftLog} {e : Entry}, k.compacted = 0 →
      (e ∈ logAt k q ↔ q ≤ k.lastIndex ∧ k.log.read q = e) := by
    intro k e hk
    rw [Option.mem_def, logAt_eq_some]
    exact ⟨fun h => ⟨h.2.1, h.2.2.2⟩, fun h => ⟨by omega, h.1, by omega, h.2⟩⟩
  unfold AgreeAt
  constructor
  · rintro ⟨e, he, e', he', hsame⟩
    obtain ⟨hl, rfl⟩ := (hmem hc).1 he
    obtain ⟨hl', rfl⟩ := (hmem hc').1 he'
    exact ⟨hl, hl', hsame⟩
  rintro ⟨hl, hl', hsame⟩
  exact ⟨_, (hmem hc).2 ⟨hl, rfl⟩, _, (hmem hc').2 ⟨hl', rfl⟩, hsame⟩

lemma AgreeAt.term (h : AgreeAt l l' q) : logTermAt l' q = logTermAt l q := by
  obtain ⟨hl, hl', hsame⟩ := (agreeAt_iff hc hc' hq).1 h
  rw [logTermAt_of_range (by omega) hl' (by omega), logTermAt_of_range (by omega) hl (by omega)]
  exact hsame.1.symm

lemma agreeAt_congr (hc2 : l2.compacted = 0) (hlast : q ≤ l'.lastIndex ↔ q ≤ l2.lastIndex)
    (hread : l2.log.read q = l'.log.read q) : AgreeAt l l2 q ↔ AgreeAt l l' q := by
  rw [agreeAt_iff hc hc2 hq, agreeAt_iff hc hc' hq, hread, hlast]

end

end

end Cetcd.Raft
