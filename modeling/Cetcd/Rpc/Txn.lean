import Cetcd.Rpc.Requests

/-!
# Transactions

`kv_handle_txn`: the permissions are tested, the comparisons pick a branch, and its operations are
done one by one. Each write is proposed as an entry of its own and applied before the next
operation. One that fails ends the transaction with an empty answer; what was applied stays.
-/

namespace Cetcd.Rpc

open Lib Mvcc Lease Apply

structure Compare where
  key : Key
  rangeEnd : Key := []
  result : Nat := 0
  target : Nat := 0
  version : Int := 0
  createRevision : Int := 0
  modRevision : Int := 0
  value : List UInt8 := []
  lease : Int := 0
  deriving DecidableEq

/-- The inner `switch` on `result`; a result that it does not know leaves the answer as it was. -/
def judge (result : Nat) (ord : Ordering) (before : Bool) : Bool :=
  match result with
  | 0 => ord = .eq
  | 1 => ord = .gt
  | 2 => ord = .lt
  | 3 => ord ≠ .eq
  | _ => before

/-- The number that is compared, of a row or of no row. -/
def Compare.actual (c : Compare) (kv : Option KeyValue) : Int :=
  match c.target, kv with
  | 0, some kv => kv.version
  | 1, some kv => kv.createRev.main
  | 2, some kv => kv.modRev.main
  | 4, some kv => kv.leaseId
  | _, _ => 0

def Compare.wanted (c : Compare) : Int :=
  match c.target with
  | 0 => c.version
  | 1 => c.createRevision
  | 2 => c.modRevision
  | 4 => c.lease
  | _ => 0

/-- One row, or a missing one, against the comparison. -/
def Compare.row (c : Compare) (kv : Option KeyValue) (before : Bool) : Bool :=
  if c.target = 3 then
    match kv with
    | none => false
    | some kv => judge c.result (compare kv.value c.value) before
  else judge c.result (compare (c.actual kv) c.wanted) before

/-- Phase 2 for one comparison. -/
def Compare.holds (c : Compare) (s : Store) : Bool :=
  if c.rangeEnd = [] then c.row ((s.index.find c.key).map fun kg => kg.kv c.key) false
  else
    match (mvccRange s c.key c.rangeEnd).map fun e => e.2.kv e.1 with
    | [] => c.row none false
    | rows => rows.all fun kv => c.row (some kv) true

/-- `checked` is the first key field, which the permission test reads; the request has the last one.
-/
inductive TxnOp
  | put (checked : Option Key) (r : PutReq)
  | range (checked : Option Key) (r : RangeReq)
  | deleteRange (checked : Option Key) (r : DeleteReq)
  /-- `keys` are the key fields of its comparisons. -/
  | txn (keys : List Key) (compares : List Compare) (success failure : List TxnOp)
  /-- No bytes. -/
  | empty
  /-- Not well formed or not known; `check` is what the permission test says. -/
  | bad (check : Env → Bool)

def txnMaxDepth : Nat := 16

mutual

def checkOp (env : Env) (depth : Nat) : TxnOp → Bool
  | .put checked _ => env.checkKeyPerm true checked
  | .range checked _ => env.checkKeyPerm false checked
  | .deleteRange checked _ => env.checkKeyPerm true checked
  | .txn keys _ success failure =>
    depth + 1 < txnMaxDepth && (keys.all fun k => env.checkKeyPerm false (some k)) &&
      checkOps env (depth + 1) success && checkOps env (depth + 1) failure
  | .empty => true
  | .bad check => check env

def checkOps (env : Env) (depth : Nat) : List TxnOp → Bool
  | [] => true
  | op :: ops => checkOp env depth op && checkOps env depth ops

end

/-- The tests in front of phase 2. -/
def admitted (env : Env) (depth : Nat) (compares : List Compare) (success failure : List TxnOp) :
    Bool :=
  compares.length ≤ min env.maxTxnOps 128 && success.length ≤ min env.maxTxnOps 128 &&
    failure.length ≤ min env.maxTxnOps 128 &&
    (compares.all fun c => c.key ≠ [] && env.checkKeyPerm false (some c.key)) &&
    checkOps env depth success && checkOps env depth failure

/-- How far a transaction came. -/
structure Progress where
  /-- No operation failed so far. -/
  ok : Bool
  site : Site
  /-- The entries that were proposed and not refused, in their order. -/
  writes : List Op
  /-- The rows that go into the answer. -/
  rows : List KeyValue

def Progress.start (x : Site) : Progress := { ok := true, site := x, writes := [], rows := [] }

def proposeStep (env : Env) (p : Progress) (op : Option Op) : Progress :=
  match op with
  | none => { p with ok := false }
  | some op =>
    match propose env p.site op with
    | (ok, x) =>
      { p with
        ok := ok, site := x, writes := if ok then p.writes ++ [op] else p.writes }

/-- Rows are added to the answer. -/
def Progress.answer (p : Progress) (rows : List KeyValue) : Progress :=
  { p with rows := p.rows ++ rows }

def putStep (env : Env) (p : Progress) (r : PutReq) : Progress :=
  (proposeStep env p (putOp p.site.world r)).answer (r.oldRows p.site.world.store)

def deleteStep (env : Env) (p : Progress) (r : DeleteReq) : Progress :=
  let p' := proposeStep env p (deleteOp r)
  p'.answer (r.oldRows p.site.world.store p'.site.world.store)

mutual

/-- One round of the loop of phase 3. -/
def runOp (env : Env) (depth : Nat) : TxnOp → Progress → Progress
  | .put _ r, p => putStep env p r
  | .range _ r, p =>
    match rangeRows env p.site.world.store r with
    | none => { p with ok := false }
    | some rows => p.answer rows
  | .deleteRange _ r, p => deleteStep env p r
  | .txn _ compares success failure, p =>
    if depth + 1 < txnMaxDepth && admitted env (depth + 1) compares success failure then
      if compares.all fun c => c.holds p.site.world.store then runOps env (depth + 1) success p
      else runOps env (depth + 1) failure p
    else { p with ok := false }
  | .empty, p => p
  | .bad _, p => { p with ok := false }

def runOps (env : Env) (depth : Nat) : List TxnOp → Progress → Progress
  | [], p => p
  | op :: ops, p =>
    let p' := runOp env depth op p
    if p'.ok then runOps env depth ops p' else p'

end

def branch (s : Store) (compares : List Compare) (success failure : List TxnOp) : List TxnOp :=
  if compares.all fun c => c.holds s then success else failure

/-- `kv_handle_txn`.  The answer is empty if `ok` is false. -/
def handleTxn (env : Env) (compares : List Compare) (success failure : List TxnOp) (x : Site) :
    Progress :=
  if admitted env 0 compares success failure then
    runOps env 0 (branch x.world.store compares success failure) (.start x)
  else { Progress.start x with ok := false }

end Cetcd.Rpc
