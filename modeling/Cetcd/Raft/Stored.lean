import Cetcd.Raft.Handlers

/-!
# One stored entry

A round of the loop in `handle_app_`: an entry that contradicts the one at its index cuts the log
there, any other one leaves what is behind it.
-/

namespace Cetcd.Raft

open Lib

/-- The entry at `idx` is there and has another term. -/
def Contradicts (l : RaftLog) (idx : Nat) (e : Entry) : Prop :=
  idx ≤ l.lastIndex ∧ logTermAt l idx ≠ e.term
  deriving Decidable

section

variable {l : RaftLog} {idx : Nat} {e : Entry}

lemma storeEntry_of_contradicts (h : Contradicts l idx e) :
    storeEntry l idx e = logAppend (logTruncateAfter l (idx - 1)) { e with index := idx } :=
  congrArg (fun l' => logAppend l' { e with index := idx }) (if_pos h)

lemma storeEntry_of_agrees (h : ¬ Contradicts l idx e) :
    storeEntry l idx e = logAppend l { e with index := idx } :=
  congrArg (fun l' => logAppend l' { e with index := idx }) (if_neg h)

@[simp] lemma storeEntry_compacted (l : RaftLog) (idx : Nat) (e : Entry) :
    (storeEntry l idx e).compacted = l.compacted := by
  unfold storeEntry
  dsimp only
  rw [logAppend_compacted]
  split <;> simp

lemma storeEntry_read_self : (storeEntry l idx e).log.read idx = { e with index := idx } := by
  unfold storeEntry
  dsimp only
  rw [logAppend_log]
  exact ZeroArray.read_write_self _ _ _

lemma storeEntry_read_below {j : Nat} (hj : j < idx) :
    (storeEntry l idx e).log.read j = l.log.read j := by
  unfold storeEntry
  dsimp only
  rw [logAppend_log, ZeroArray.read_write_of_ne _ _ (by dsimp only; omega)]
  split
  · exact logTruncateAfter_read _ (by omega)
  · rfl

lemma storeEntry_cut (h : Contradicts l idx e) (h1 : 1 ≤ idx) :
    (storeEntry l idx e).lastIndex = idx ∧ (storeEntry l idx e).lastTerm = e.term := by
  have hle := h.1
  rw [storeEntry_of_contradicts h, logAppend_lastIndex, logAppend_lastTerm,
    logTruncateAfter_lastIndex]
  dsimp only
  rw [if_pos (by omega)]
  exact ⟨by omega, rfl⟩

lemma storeEntry_keep (h : ¬ Contradicts l idx e) :
    (storeEntry l idx e).lastIndex = max l.lastIndex idx ∧
      (storeEntry l idx e).lastTerm = (if l.lastIndex < idx then e.term else l.lastTerm) ∧
      ∀ j, j ≠ idx → (storeEntry l idx e).log.read j = l.log.read j := by
  rw [storeEntry_of_agrees h, logAppend_lastIndex, logAppend_lastTerm]
  refine ⟨rfl, rfl, fun j hj => ?_⟩
  rw [logAppend_log, ZeroArray.read_write_of_ne _ _ hj]

end

end Cetcd.Raft
