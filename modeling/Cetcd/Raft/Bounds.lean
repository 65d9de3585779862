import Cetcd.Raft.Handlers

/-! # The bounds of the log array: an access outside of it is `none` -/

namespace Cetcd.Raft

open Lib

structure LogArray where
  l : RaftLog
  cap : Nat

/-- The loop of `log_append_` that doubles the capacity. -/
def growCap (needed : Nat) : Nat → Nat → Nat
  | 0, cap => cap
  | fuel + 1, cap =>
    if cap < needed then
      if (2 ^ 32 - 1) / 2 < cap then needed else growCap needed fuel (cap * 2)
    else cap

/-- The results of `realloc` and `malloc`. -/
structure Alloc where
  cells : Bool
  data : Bool

/-- `log_append_` -/
def LogArray.append (a : LogArray) (k : Alloc) (e : Entry) : Option LogArray :=
  let needed := (e.index + 1) % 2 ^ 64
  if a.cap < needed ∧ !k.cells then some a
  else
    let cap :=
      if a.cap < needed then growCap (needed % 2 ^ 32) 32 (if a.cap ≠ 0 then a.cap else 64) else a.cap
    -- the capacity has 32 bits, the index 64
    if cap ≤ e.index then none
    else if e.data ≠ [] ∧ !k.data then
      some ⟨{ a.l with log := a.l.log.write e.index { e with data := [] } }, cap⟩
    else some ⟨logAppend a.l e, cap⟩

/-- `log_at_` -/
def LogArray.entryAt (a : LogArray) (index : Nat) : Option (Option Entry) :=
  match logAt a.l index with
  | some e => if index < a.cap then some (some e) else none
  | none => some none

inductive LogOp
  | propose (term : Nat) (type : EntryType) (data : List UInt8)
  -- a round of the loop of `handle_app_`
  | store (idx : Nat) (e : Entry)
  | restore (e : Entry)
  -- `cetcd_raft_compact`, which `handle_snap_` calls too
  | compact (last term : Nat)

def LogOp.run (k : Alloc) (a : LogArray) : LogOp → Option LogArray
  | .propose term type data => do
    let idx := (a.l.lastIndex + 1) % 2 ^ 64
    let a1 : LogArray := ⟨{ a.l with lastIndex := idx, lastTerm := term }, a.cap⟩
    let a2 ← a1.append k { term := term, index := idx, type := type, data := data }
    let _ ← a2.entryAt idx
    some a2
  | .store idx e => do
    let _ ← a.entryAt idx
    let l :=
      if idx ≤ a.l.lastIndex ∧ logTermAt a.l idx ≠ e.term then logTruncateAfter a.l (idx - 1) else a.l
    let a2 ← (LogArray.mk l a.cap).append k { e with index := idx }
    let _ ← a2.entryAt idx
    some a2
  | .restore e => if e.index = 0 then some a else a.append k e
  | .compact last term =>
    if last = 0 ∨ last < a.l.compacted ∨ (a.l.lastIndex ≠ 0 ∧ a.l.lastIndex < last) then some a
    else do
      let a1 ← a.append k { term := term, index := last, type := .normal }
      if a1.l.lastIndex < last then some a1
      else
        some ⟨{ a1.l with
          log := ZeroArray.update entryClearData a1.l.log 1 (min last a1.cap - 1)
          compacted := last }, a1.cap⟩

def LogArray.new : LogArray := ⟨default, 64⟩

/-- No index needs more than 32 bits, and a proposal finds its cell. -/
def LogOp.Fits (k : Alloc) (a : LogArray) : LogOp → Prop
  | .propose _ _ _ => a.l.lastIndex + 2 < 2 ^ 32 ∧ k.cells
  | .store idx _ => idx + 1 < 2 ^ 32
  | .restore e => e.index + 1 < 2 ^ 32
  | .compact last _ => last + 1 < 2 ^ 32

inductive LogArray.Reaches : LogArray → Prop
  | new : Reaches .new
  | step {a : LogArray} {k : Alloc} {op : LogOp} {a' : LogArray} :
      Reaches a → op.Fits k a → op.run k a = some a' → Reaches a'

variable {a : LogArray} {k : Alloc} {e : Entry} {n f c : Nat}

lemma le_growCap (h : n ≤ c * 2 ^ f) : n ≤ growCap n f c ∧ c ≤ growCap n f c := by
  induction f generalizing c with
  | zero => exact ⟨by simpa [growCap] using h, le_rfl⟩
  | succ f ih =>
    unfold growCap
    split_ifs with hlt
    · exact ⟨le_rfl, hlt.le⟩
    · obtain ⟨h1, h2⟩ := ih (c := c * 2) (by rw [Nat.mul_assoc, ← pow_succ']; exact h)
      exact ⟨h1, by omega⟩
    · exact ⟨by omega, le_rfl⟩

lemma LogArray.append_in (hpos : 0 < a.cap) (hidx : e.index + 1 < 2 ^ 32)
    (h : a.l.lastIndex < a.cap ∨ a.l.lastIndex ≤ e.index ∧ k.cells) :
    ∃ a', a.append k e = some a' ∧ a'.l.lastIndex < a'.cap := by
  unfold LogArray.append
  dsimp only
  rw [Nat.mod_eq_of_lt (by omega : e.index + 1 < 2 ^ 64), Nat.mod_eq_of_lt hidx]
  split
  · rename_i hfail
    exact ⟨a, rfl, h.resolve_right fun h => by simp [h.2] at hfail⟩
  obtain ⟨hneed, hcap⟩ := le_growCap (n := e.index + 1) (f := 32) (c := a.cap) (by omega)
  rw [if_pos hpos.ne']
  generalize hc : (if a.cap < e.index + 1 then growCap (e.index + 1) 32 a.cap else a.cap) = c
  have hlt : e.index < c ∧ a.cap ≤ c := by
    rw [← hc]
    split_ifs <;> omega
  rw [if_neg (by omega)]
  split
  · exact ⟨_, rfl, by dsimp only; omega⟩
  · exact ⟨_, rfl, (logAppend_lastIndex a.l e).trans_lt (by dsimp only; omega)⟩

lemma LogArray.entryAt_some (h : a.l.lastIndex < a.cap) (i : Nat) : ∃ e, a.entryAt i = some e := by
  unfold LogArray.entryAt
  cases hat : logAt a.l i with
  | none => exact ⟨_, rfl⟩
  | some e => exact ⟨_, if_pos ((logAt_eq_some.1 hat).2.1.trans_lt h)⟩

/-- The entry that was stored is looked up. -/
lemma LogArray.append_entryAt {i : Nat} (hpos : 0 < a.cap) (hidx : e.index + 1 < 2 ^ 32)
    (h : a.l.lastIndex < a.cap ∨ a.l.lastIndex ≤ e.index ∧ k.cells) :
    ∃ a', ((a.append k e).bind fun a2 => (a2.entryAt i).bind fun _ => some a2) = some a' ∧
      a'.l.lastIndex < a'.cap := by
  obtain ⟨a2, h2, hin⟩ := append_in hpos hidx h
  obtain ⟨e2, he2⟩ := a2.entryAt_some hin i
  exact ⟨a2, by rw [h2, Option.bind_some, he2]; rfl, hin⟩

lemma LogOp.run_in (op : LogOp) (h : a.l.lastIndex < a.cap) (hfit : op.Fits k a) :
    ∃ a', op.run k a = some a' ∧ a'.l.lastIndex < a'.cap := by
  have hpos : 0 < a.cap := by omega
  unfold LogOp.run
  cases op with
  | propose term type data =>
    obtain ⟨hidx, hcells⟩ := hfit
    dsimp only
    rw [Nat.mod_eq_of_lt (by omega)]
    exact LogArray.append_entryAt hpos hidx (.inr ⟨le_rfl, hcells⟩)
  | store idx e =>
    obtain ⟨e0, he0⟩ := a.entryAt_some h idx
    simp only [he0, Option.bind_eq_bind, Option.bind_some]
    refine LogArray.append_entryAt hpos hfit (.inl (lt_of_le_of_lt ?_ h))
    dsimp only
    split
    · rw [logTruncateAfter_lastIndex]
      exact min_le_left _ _
    · exact le_rfl
  | restore e =>
    dsimp only
    split
    · exact ⟨a, rfl, h⟩
    · exact LogArray.append_in hpos hfit (.inl h)
  | compact last term =>
    dsimp only
    split
    · exact ⟨a, rfl, h⟩
    obtain ⟨a2, h2, hin⟩ := LogArray.append_in (k := k)
      (e := { term := term, index := last, type := .normal }) hpos hfit (.inl h)
    simp only [h2, Option.bind_eq_bind, Option.bind_some]
    split
    · exact ⟨a2, rfl, hin⟩
    · exact ⟨_, rfl, hin⟩

/-- While the indexes have 32 bits and the array grows for every proposal, no access is outside. -/
theorem log_in_bounds (a : LogArray) (h : a.Reaches) :
    (∀ i e, logAt a.l i = some e → i < a.cap) ∧
      ∀ (k : Alloc) (op : LogOp), op.Fits k a → (op.run k a).isSome := by
  -- the log always ends within the array
  have hin : a.l.lastIndex < a.cap := by
    induction h with
    | new => decide
    | step _ hfit hrun ih =>
      obtain ⟨a', ha', hin⟩ := LogOp.run_in _ ih hfit
      rw [hrun] at ha'
      cases ha'
      exact hin
  refine ⟨fun i e hat => (logAt_eq_some.1 hat).2.1.trans_lt hin, fun k op hfit => ?_⟩
  obtain ⟨a', ha', _⟩ := op.run_in hin hfit
  rw [ha']
  rfl

theorem log_in_bounds_restored :
    (∀ i e, logAt (logAppend default ⟨1, 5, .normal, []⟩) i = some e → i < 64) ∧
      ∀ (k : Alloc) (op : LogOp), op.Fits k ⟨logAppend default ⟨1, 5, .normal, []⟩, 64⟩ →
        (op.run k ⟨logAppend default ⟨1, 5, .normal, []⟩, 64⟩).isSome :=
  log_in_bounds _ (.step (.new) (show (LogOp.restore ⟨1, 5, .normal, []⟩).Fits ⟨true, true⟩ .new by
    simp [LogOp.Fits]) rfl)

/-- A snapshot at `2 ^ 32`, and a proposal behind entry 63 when the array cannot grow. -/
theorem log_out_of_bounds :
    LogOp.run ⟨true, true⟩ .new (.compact (2 ^ 32) 1) = none ∧
      (LogOp.run ⟨true, true⟩ .new (.restore ⟨1, 63, .normal, []⟩)).bind
        (fun a => LogOp.run ⟨false, true⟩ a (.propose 1 .normal [])) = none :=
  ⟨rfl, rfl⟩

end Cetcd.Raft
