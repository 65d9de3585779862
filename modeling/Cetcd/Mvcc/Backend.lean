import Cetcd.Lib.OrdMap
import Mathlib.Data.UInt
import Mathlib.Tactic

/-!
# The backend

What is kept in LMDB: the generation of every key with the store revision, the compaction boundary,
the applied index and the lease ids. A write is one transaction. Values are records; the byte layout
of a generation loses nothing of them.
-/

namespace Cetcd.Mvcc

open Lib

/-- Bytes as `memcmp` compares them. -/
instance byteOrder : LinearOrder UInt8 where
  le_refl := UInt8.le_refl
  le_trans _ _ _ := UInt8.le_trans
  le_antisymm _ _ := UInt8.le_antisymm
  le_total := UInt8.le_total
  lt_iff_le_not_ge a b := by
    rw [UInt8.not_le]
    exact ⟨fun h => ⟨UInt8.le_of_lt h, h⟩, fun h => h.2⟩
  toDecidableLE := inferInstance
  toDecidableEq := inferInstance
  toDecidableLT := inferInstance

/-- A key, ordered as `cetcd_slice_compare` orders it. -/
abbrev Key := List UInt8

instance keyLawfulBEq : LawfulBEq Key := inferInstance

structure Revision where
  main : Nat
  sub : Nat
  deriving DecidableEq, Inhabited

def Revision.zero : Revision := ⟨0, 0⟩

/-- The `deleted` flag is never set: a deleted key leaves the index. -/
structure KeyGeneration where
  createRev : Revision
  version : Nat
  modRev : Revision
  value : List UInt8
  leaseId : Int
  deriving DecidableEq, Inhabited

structure Backend where
  /-- The bucket `key`. -/
  keys : OrdMap Key KeyGeneration
  /-- `revision`, `compacted` and `applied_index` in the bucket `meta`. -/
  revision : Option Nat
  compacted : Option Nat
  applied : Option Nat
  /-- The ids in the bucket of the leases; their times are not modelled. -/
  leases : OrdMap Nat Unit
  /-- The bucket of the leases was written to. -/
  haveBucket : Bool
  deriving DecidableEq

def Backend.empty : Backend :=
  { keys := .empty, revision := none, compacted := none, applied := none, leases := .empty
    haveBucket := false }

/-- The backend and the outcomes of the coming writes; past the end they succeed. -/
structure Disk where
  be : Backend
  outcomes : List Bool := []
  deriving DecidableEq

def Disk.write (d : Disk) (f : Backend → Backend) : Bool × Disk :=
  match d.outcomes with
  | [] => (true, { d with be := f d.be })
  | true :: rest => (true, { be := f d.be, outcomes := rest })
  | false :: rest => (false, { d with outcomes := rest })

def Disk.Reliable (d : Disk) : Prop := d.outcomes = []

lemma Disk.Reliable.write {d : Disk} (h : d.Reliable) (f : Backend → Backend) :
    d.write f = (true, { d with be := f d.be }) := by
  unfold Disk.write
  rw [h]

end Cetcd.Mvcc
