import Cetcd.Apply.Effects

/-!
# Batches

`cetcd_v3rpc_apply_entry` applies the sub-entries of a batch one by one, and takes nothing back when
it meets one that it cannot read or that is refused.
-/

namespace Cetcd.Apply

open Lib Mvcc Lease

/-! ## Steps that may be refused -/

/-- `none` is a step that cannot be read. -/
abbrev Steps (σ : Type) := List (Option (σ → Int × σ))

section

variable {σ : Type} {x : σ} {fs : Steps σ}

def runSteps (x : σ) : Steps σ → Int × σ
  | [] => (0, x)
  | none :: _ => (-1, x)
  | some f :: fs => if (f x).1 = 0 then runSteps (f x).2 fs else (-1, (f x).2)

def reached (x : σ) : Steps σ → List σ
  | [] | none :: _ => []
  | some f :: fs => (f x).2 :: if (f x).1 = 0 then reached (f x).2 fs else []

def Done (x : σ) (fs : Steps σ) : Prop := ∃ all : List (σ → Int × σ),
  fs = all.map some ∧ (runSteps x fs).2 = all.foldl (fun x f => (f x).2) x

/-- Every step can be read and is accepted in its turn. -/
def Accepted (x : σ) : Steps σ → Prop
  | [] => True
  | none :: _ => False
  | some f :: fs => (f x).1 = 0 ∧ Accepted (f x).2 fs

lemma Accepted.done (h : Accepted x fs) : Done x fs := by
  induction fs generalizing x with
  | nil => exact ⟨[], rfl, rfl⟩
  | cons f fs ih =>
    cases f with
    | none => exact h.elim
    | some f =>
      obtain ⟨all, rfl, hall⟩ := ih h.2
      refine ⟨f :: all, rfl, ?_⟩
      rw [runSteps, if_pos h.1]
      exact hall

end

/-! ## The batch -/

/-- What entries change: `terms` are times to live and deadlines, in memory and in the records, and
`rest` are members, users with roles, and alarms. -/
structure Estate (R : Type) where
  store : Store
  leases : Leases
  be : Backend
  terms : OrdMap Nat (Int × Int)
  rest : R
  deriving DecidableEq

def Estate.world {R : Type} (x : Estate R) (outcomes : List Bool) : World :=
  ⟨x.store, x.leases, ⟨x.be, outcomes⟩⟩

variable {R : Type} (other : Bytes → R → Bool × R) (now : Int)

section

variable {w : World} {op : Op} {terms : OrdMap Nat (Int × Int)} {id : Nat} {ttl : Int}

end

/-! ## Results -/

section

variable {other now} {x : Estate R} {outcomes : Nat → List Bool} {subs : List (Option Bytes × Nat)}

end

end Cetcd.Apply
