import Cetcd.Mvcc.Backend

/-!
# The store

`mvcc.c` without its watchers: the index of the live keys, the revision and the history, each change
written to the backend first. The index is the list that an in-order walk of the treap returns.
-/

namespace Cetcd.Mvcc

open Lib

inductive EventType
  | put
  | delete
  deriving DecidableEq

structure RevisionEntry where
  key : Key
  value : List UInt8
  rev : Revision
  type : EventType
  version : Nat
  createRev : Revision
  leaseId : Int
  deriving DecidableEq

/-- The revisions are `int64_t`; they are taken to stay below `2 ^ 63`, as one is used per write. -/
structure Store where
  index : OrdMap Key KeyGeneration
  mainRev : Nat
  history : List RevisionEntry
  compactedRev : Nat
  deriving DecidableEq

def Store.new : Store := { index := .empty, mainRev := 0, history := [], compactedRev := 0 }

def nextGeneration (existing : Option KeyGeneration) (newRev : Revision) (value : List UInt8)
    (leaseId : Int) : KeyGeneration :=
  match existing with
  | some kg =>
    { createRev := kg.createRev, version := kg.version + 1, modRev := newRev, value := value
      leaseId := leaseId }
  | none =>
    { createRev := newRev, version := 1, modRev := newRev, value := value, leaseId := leaseId }

def mvccPut (s : Store) (d : Disk) (key : Key) (value : List UInt8) (leaseId : Int) :
    Revision × Store × Disk :=
  let newRev : Revision := ⟨s.mainRev + 1, 0⟩
  let kg := nextGeneration (s.index.find key) newRev value leaseId
  match d.write fun be =>
      { be with keys := be.keys.insert key kg, revision := some newRev.main } with
  | (false, d') => (.zero, s, d')
  | (true, d') =>
    let e : RevisionEntry :=
      { key := key, value := value, rev := newRev, type := .put, version := kg.version
        createRev := kg.createRev, leaseId := leaseId }
    (newRev,
      { s with
        index := s.index.insert key kg, mainRev := newRev.main, history := s.history ++ [e] },
      d')

/-- What `delete_one_` does in memory. -/
def dropKey (s : Store) (key : Key) (kg : KeyGeneration) (newRev : Revision) : Store :=
  let e : RevisionEntry :=
    { key := key, value := [], rev := newRev, type := .delete, version := 0
      createRev := kg.createRev, leaseId := kg.leaseId }
  { s with
    index := s.index.erase key
    mainRev := if s.mainRev < newRev.main then newRev.main else s.mainRev
    history := s.history ++ [e] }

/-- `delete_one_` without `do_persist`, at a given revision. -/
def deleteAt (s : Store) (key : Key) (newRev : Revision) : Revision × Store :=
  match s.index.find key with
  | none => (.zero, s)
  | some kg => (newRev, dropKey s key kg newRev)

def mvccDelete (s : Store) (d : Disk) (key : Key) : Revision × Store × Disk :=
  match s.index.find key with
  | none => (.zero, s, d)
  | some kg =>
    let newRev : Revision := ⟨s.mainRev + 1, 0⟩
    match d.write fun be =>
        { be with keys := be.keys.erase key, revision := some newRev.main } with
    | (false, d') => (.zero, s, d')
    | (true, d') => (newRev, dropKey s key kg newRev, d')

/-- The last loop of `cetcd_mvcc_delete_keys`, from sub-revision `sub` on. -/
def deleteEach (main : Nat) : List Key → Nat → Revision × Store → Revision × Store
  | [], _, p => p
  | k :: ks, sub, p => deleteEach main ks (sub + 1) (deleteAt p.2 k ⟨main, sub⟩)

/-- `cetcd_mvcc_delete_keys`: the live ones of the keys, in one transaction. -/
def mvccDeleteKeys (s : Store) (d : Disk) (keys : List Key) : Revision × Store × Disk :=
  let del := keys.filter fun k => k ≠ [] && (s.index.find k).isSome
  if del = [] then (.zero, s, d)
  else
    let newMain := s.mainRev + 1
    match d.write fun be =>
        { be with keys := del.foldl (fun m k => m.erase k) be.keys, revision := some newMain } with
    | (false, d') => (.zero, s, d')
    | (true, d') =>
      let p := deleteEach newMain del 0 (.zero, s)
      (p.1, p.2, d')

inductive CompactResult
  | ok
  | inval
  | range
  | io
  deriving DecidableEq

def mvccCompact (s : Store) (d : Disk) (rev : Nat) : CompactResult × Store × Disk :=
  if rev = 0 then (.inval, s, d)
  else if s.mainRev < rev then (.inval, s, d)
  else if 0 < s.compactedRev ∧ rev ≤ s.compactedRev then (.range, s, d)
  else
    match d.write fun be => { be with compacted := some rev } with
    | (false, d') => (.io, s, d')
    | (true, d') =>
      (.ok,
        { s with
          history := s.history.filter fun e => rev ≤ e.rev.main
          compactedRev := rev },
        d')

/-- A range end of a single zero byte means no end. -/
def openEnd (hi : Key) : Key := if hi = [0] then [] else hi

/-- The bounds of `treap_inorder_range_`; an empty end is no end. -/
def inRange (lo hi : Key) (k : Key) : Bool := lo ≤ k && (hi = [] || k < hi)

/-- `cetcd_mvcc_range` at revision zero. -/
def mvccRange (s : Store) (lo hi : Key) : List (Key × KeyGeneration) :=
  s.index.entries.filter fun e => inRange lo (openEnd hi) e.1

/-- The seed of the history for a key that is in the backend. -/
def seedEntry (e : Key × KeyGeneration) : RevisionEntry :=
  { key := e.1, value := e.2.value, rev := e.2.modRev, type := .put, version := e.2.version
    createRev := e.2.createRev, leaseId := e.2.leaseId }

def revLe (a b : RevisionEntry) : Bool :=
  a.rev.main < b.rev.main || (a.rev.main = b.rev.main && a.rev.sub ≤ b.rev.sub)

/-- `cetcd_mvcc_load` into a new store. -/
def mvccLoad (be : Backend) : Store :=
  { index := be.keys
    mainRev := be.keys.entries.foldl (fun m e => max m e.2.modRev.main) (be.revision.getD 0)
    history := (be.keys.entries.map seedEntry).mergeSort revLe
    compactedRev := be.compacted.getD 0 }

end Cetcd.Mvcc
