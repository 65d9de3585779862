import Cetcd.Apply.Entry
import Cetcd.Raft.Types

/-!
# Applying what is committed

`apply_committed_` of `server.c`: the entries after the applied index are applied one by one, with
no regard to the result, and the new applied index is written at the end. A crash can fall between
any two writes.
-/

namespace Cetcd.Apply

open Lib Mvcc Lease Raft List

structure Applied where
  index : Nat
  data : List UInt8
  rc : Int
  deriving DecidableEq

section

variable (accepts : Bytes → Bool) (entryAt : Nat → Option Entry)

def applyAt (p : World × List Applied) (i : Nat) : World × List Applied :=
  match entryAt i with
  | none => p
  | some e =>
    if e.type ≠ .normal then p
    else if e.data = [] then p
    else
      match applyEntry accepts p.1 e.data with
      | (rc, w) => (w, p.2 ++ [⟨i, e.data, rc⟩])

def roundRange (applied commit : Nat) : List Nat := List.range' (applied + 1) (commit - applied)

def applyRange (w : World) (applied commit : Nat) : World × List Applied :=
  (roundRange applied commit).foldl (applyAt accepts entryAt) (w, [])

end

def persistApplied (w : World) (idx : Nat) : World :=
  { w with disk := (w.disk.write fun be => { be with applied := some idx }).2 }

/-- `apply_committed_`, with the calls it makes. -/
def applyCommitted (accepts : List UInt8 → Bool) (entryAt : Nat → Option Entry) (w : World)
    (applied commit : Nat) : World × List Applied :=
  if commit < applied + 1 then (w, [])
  else
    match applyRange accepts entryAt w applied commit with
    | (w', calls) => (persistApplied w' commit, calls)

section

variable (accepts : Bytes → Bool) (entryAt : Nat → Option Entry)

def opsAt (i : Nat) : List Op :=
  match entryAt i with
  | none => []
  | some e =>
    if e.type ≠ .normal then [] else if e.data = [] then [] else decodeEntry accepts e.data

def roundOps (applied commit : Nat) : List (List Op) :=
  (roundRange applied commit).map (opsAt accepts entryAt)

end

/-- The operations of an entry that are done, with the one that ends it. -/
def executed (w : World) : List Op → List Op
  | [] => []
  | op :: ops =>
    match exec w op with
    | (rc, w') => op :: if rc = 0 then executed w' ops else []

def executedAll (w : World) : List (List Op) → List Op
  | [] => []
  | ops :: es => executed w ops ++ executedAll (runOps w ops).2 es

def World.execAll (w : World) (ops : List Op) : World := ops.foldl (fun w op => (exec w op).2) w

/-- A crash after `n` operations, or, with `half`, between the two writes of a revocation. -/
def crashAfter (w : World) (es : List (List Op)) (n : Nat) (half : Bool) : World :=
  let w1 := w.execAll ((executedAll w es).take n)
  if half then
    match (executedAll w es).drop n with
    | .leaseRevoke id :: _ => revokeKeys w1 id
    | _ => w1
  else w1

/-- What `cetcd_server_start` makes of the backend. -/
def reload (w : World) : World :=
  let s := mvccLoad w.disk.be
  let (m, d) := reindexFromStore (leaseLoad w.disk.be) w.disk s
  { store := s, leases := m, disk := d }

section

variable {accepts : Bytes → Bool} {entryAt entryAt' : Nat → Option Entry} {w : World}
  {applied commit : Nat} {x : Applied}

lemma applyRange_self (w : World) (applied : Nat) :
    applyRange accepts entryAt w applied applied = (w, []) := by
  unfold applyRange roundRange
  rw [Nat.sub_self]
  rfl

lemma applyRange_succ (h : applied ≤ commit) : applyRange accepts entryAt w applied (commit + 1) =
      applyAt accepts entryAt (applyRange accepts entryAt w applied commit) (commit + 1) := by
  have hlast : applied + 1 + 1 * (commit - applied) = commit + 1 := by omega
  unfold applyRange roundRange
  rw [Nat.succ_sub h, List.range'_concat, foldl_append, hlast]
  rfl

lemma applyRange_congr (hle : applied ≤ commit)
    (h : ∀ i, applied < i → i ≤ commit → entryAt i = entryAt' i) :
    applyRange accepts entryAt w applied commit = applyRange accepts entryAt' w applied commit := by
  induction commit, hle using Nat.le_induction with
  | base => rw [applyRange_self, applyRange_self]
  | succ commit hle ih =>
    rw [applyRange_succ hle, applyRange_succ hle,
      ih fun i hlt hi => h i hlt (hi.trans (Nat.le_succ commit))]
    unfold applyAt
    rw [h (commit + 1) (Nat.lt_succ_of_le hle) le_rfl]

/-- The call is about the entry at its index and made in the store of `w`. -/
def CalledIn (accepts : List UInt8 → Bool) (entryAt : Nat → Option Entry) (w : World) (x : Applied) :
    Prop :=
  ∃ e, entryAt x.index = some e ∧ e.type = .normal ∧ e.data ≠ [] ∧ x.data = e.data ∧
    x.rc = (applyEntry accepts w e.data).1

lemma mem_applyAt {p : World × List Applied} {i : Nat} : x ∈ (applyAt accepts entryAt p i).2 ↔
      x ∈ p.2 ∨ (x.index = i ∧ CalledIn accepts entryAt p.1 x) := by
  have hskip : (∀ e, entryAt i = some e → e.type = .normal → e.data ≠ [] → False) →
      (x ∈ p.2 ↔ x ∈ p.2 ∨ (x.index = i ∧ CalledIn accepts entryAt p.1 x)) := by
    refine fun hnone => (or_iff_left ?_).symm
    rintro ⟨rfl, e, he, htype, hdata, _⟩
    exact hnone e he htype hdata
  unfold applyAt
  cases he : entryAt i with
  | none => exact hskip fun e he' => by rw [he] at he'; cases he'
  | some e =>
    dsimp only
    split
    · rename_i htype
      refine hskip fun e' he' htype' _ => htype ?_
      rw [Option.some.inj (he.symm.trans he')]
      exact htype'
    rename_i htype
    split
    · rename_i hdata
      refine hskip fun e' he' _ hdata' => hdata' ?_
      rw [← Option.some.inj (he.symm.trans he')]
      exact hdata
    rename_i hdata
    dsimp only
    rw [mem_append, mem_singleton]
    refine or_congr_right ⟨?_, ?_⟩
    · rintro rfl
      exact ⟨rfl, e, he, not_not.1 htype, hdata, rfl, rfl⟩
    rintro ⟨rfl, e', he', _, _, hdata', hrc⟩
    rw [← Option.some.inj (he.symm.trans he')] at hdata' hrc
    cases x
    cases hdata'
    cases hrc
    rfl

lemma mem_applyRange (hle : applied ≤ commit) :
    x ∈ (applyRange accepts entryAt w applied commit).2 ↔ applied < x.index ∧ x.index ≤ commit ∧
        CalledIn accepts entryAt (applyRange accepts entryAt w applied (x.index - 1)).1 x := by
  induction commit, hle using Nat.le_induction with
  | base =>
    rw [applyRange_self]
    exact iff_of_false not_mem_nil fun h => h.1.not_ge h.2.1
  | succ commit hle ih =>
    rw [applyRange_succ hle, mem_applyAt, ih]
    constructor
    · rintro (⟨hlt, hi, hcall⟩ | ⟨hi, hcall⟩)
      · exact ⟨hlt, hi.trans (Nat.le_succ commit), hcall⟩
      refine ⟨hi ▸ Nat.lt_succ_of_le hle, hi.le, ?_⟩
      rw [hi]
      exact hcall
    rintro ⟨hlt, hi, hcall⟩
    obtain hi | hi := Nat.le_succ_iff.1 hi
    · exact Or.inl ⟨hlt, hi, hcall⟩
    refine Or.inr ⟨hi, ?_⟩
    rw [hi] at hcall
    exact hcall

lemma mem_applyCommitted : x ∈ (applyCommitted accepts entryAt w applied commit).2 ↔
      applied < x.index ∧ x.index ≤ commit ∧
        CalledIn accepts entryAt (applyRange accepts entryAt w applied (x.index - 1)).1 x := by
  unfold applyCommitted
  split
  · rename_i hlt
    exact iff_of_false not_mem_nil fun h => by omega
  rename_i hle
  exact mem_applyRange (by omega)

end

end Cetcd.Apply
