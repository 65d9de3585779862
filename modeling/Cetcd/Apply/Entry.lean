import Cetcd.Lease.Manager
import Cetcd.Lib.Bytes

/-!
# Applying an entry

`apply.c`: an entry is decoded to operations that change the store and the leases. Each sub-entry of
a batch is decoded when the one before it has been applied, and the first that is refused ends the
batch. Operations on users, roles, alarms and members change nothing that is modelled; `accepts`
says which succeed.
-/

namespace Cetcd.Apply

open Lib Mvcc Lease

/-! ## Decoding -/

inductive Op
  | put (key : Key) (value : List UInt8) (leaseId : Int)
  | delete (key : Key)
  | deleteRange (key rangeEnd : Key)
  | leaseRevoke (id : Nat)
  | leaseGrant (id : Nat) (ttl : Int)
  | leaseKeepalive (id : Nat) (ttl : Int)
  | compact (rev : Nat)
  /-- Another subsystem's. -/
  | other (accepted : Bool)
  /-- Not well formed. -/
  | bad
  deriving DecidableEq

def toInt64 (n : Nat) : Int := if n < 2 ^ 63 then n else (n : Int) - 2 ^ 64

def readSlice (bs : List UInt8) : Option (List UInt8 × List UInt8) :=
  match readVarint bs with
  | none => none
  | some (n, rest) => if rest.length < n then none else some (rest.take n, rest.drop n)

def decodeKeyed (accepts : List UInt8 → Bool) (data : List UInt8) (tag : Nat) (key rest : List UInt8) :
    Op :=
  if tag = 1 then
    match readSlice rest with
    | none => .bad
    | some (value, []) => .put key value 0
    | some (value, more) =>
      match readVarint more with
      | none => .bad
      | some (lease, _) => .put key value (toInt64 lease)
  else if tag = 2 then .delete key
  else if tag = 4 then
    match readSlice rest with
    | none => .bad
    | some (rangeEnd, _) => .deleteRange key rangeEnd
  else if tag = 14 ∨ (16 ≤ tag ∧ tag ≤ 23) then .other (accepts data)
  else .bad

def decodeLease (rest : List UInt8) (op : Nat → Int → Op) : Op :=
  match readVarint rest with
  | none => .bad
  | some (id, rest) =>
    if id = 0 then .bad
    else
      match readVarint rest with
      | none => .bad
      | some (ttl, _) =>
        if ttl = 0 then .bad else if maxLeaseTtl < toInt64 ttl then .bad else op id (toInt64 ttl)

/-- `CETCD_APPLY_ALARM`: an action, a type and a member. -/
def decodeAlarm (rest : List UInt8) : Op :=
  match readVarint rest with
  | none => .bad
  | some (action, rest) =>
    match readVarint rest with
    | none => .bad
    | some (typ, rest) =>
      match readVarint rest with
      | none => .bad
      | some (_, _) =>
        if (action = 1 ∨ action = 2) ∧ (typ = 1 ∨ typ = 2) then .other true else .bad

/-- `apply_entry_inner_` but for batches. -/
def decodeOp (accepts : List UInt8 → Bool) (data : List UInt8) : Op :=
  match data with
  | [] => .bad
  | op :: rest =>
    let tag := op.toNat
    if tag = 9 then .other true
    else if rest = [] then .bad
    else if tag = 10 then
      match readVarint rest with
      | none => .bad
      | some (id, _) => if id = 0 then .bad else .leaseRevoke id
    else if tag = 12 then decodeLease rest .leaseGrant
    else if tag = 13 then decodeLease rest .leaseKeepalive
    else if tag = 24 then decodeAlarm rest
    else if tag = 11 then
      match readVarint rest with
      | none => .bad
      | some (rev, _) => if rev = 0 then .bad else .compact rev
    else if tag = 15 ∨ (5 ≤ tag ∧ tag ≤ 8) then .other (accepts data)
    else
      match readSlice rest with
      | none => .bad
      | some ([], _) => .bad
      | some (key, rest) => decodeKeyed accepts data tag key rest

def decodeBatch (accepts : List UInt8 → Bool) : Nat → List UInt8 → List Op
  | 0, _ => []
  | n + 1, bs =>
    match readSlice bs with
    | none => [.bad]
    | some ([], _) => [.bad]
    | some (op :: sub, rest) =>
      if op.toNat = 3 then [.bad]
      else decodeOp accepts (op :: sub) :: decodeBatch accepts n rest

/-- What `apply_entry_inner_` will do with an entry. -/
def decodeEntry (accepts : List UInt8 → Bool) (data : List UInt8) : List Op :=
  match data with
  | [] => [.bad]
  | op :: rest =>
    if op.toNat = 3 then
      match readVarint rest with
      | none => [.bad]
      | some (n, rest) => if n = 0 ∨ 128 < n then [.bad] else decodeBatch accepts n rest
    else [decodeOp accepts data]

/-! ## Execution -/

structure World where
  store : Store
  leases : Leases
  disk : Disk
  deriving DecidableEq

def leaseOf (s : Store) (key : Key) : Int := ((s.index.find key).map KeyGeneration.leaseId).getD 0

def leaseAfterPut (m : Leases) (key : Key) (oldLease newLease : Int) : Leases :=
  let m1 :=
    if 0 < oldLease ∧ oldLease ≠ newLease then detachKey m oldLease.toNat key else m
  if 0 < newLease then attachKey m1 newLease.toNat key else m1

def applyPut (w : World) (key : Key) (value : List UInt8) (leaseId : Int) : Int × World :=
  if key = [] then (-1, w)
  else
    let oldLease := leaseOf w.store key
    let (r, s, d) := mvccPut w.store w.disk key value leaseId
    if r.main = 0 then (-1, { w with store := s, disk := d })
    else
      (0, { store := s, leases := leaseAfterPut w.leases key oldLease leaseId, disk := d })

def applyDeleteOne (w : World) (key : Key) : Int × World :=
  if key = [] then (-1, w)
  else
    let leaseId := leaseOf w.store key
    let (r, s, d) := mvccDelete w.store w.disk key
    let m :=
      if r.main ≠ 0 ∧ 0 < leaseId then detachKey w.leases leaseId.toNat key else w.leases
    (0, { store := s, leases := m, disk := d })

/-- The loop after a range was deleted. -/
def detachAll (m : Leases) (kvs : List (Key × KeyGeneration)) : Leases :=
  kvs.foldl
    (fun m e => if 0 < e.2.leaseId then detachKey m e.2.leaseId.toNat e.1 else m) m

def applyDeleteRange (w : World) (key rangeEnd : Key) : Int × World :=
  if key = [] then (-1, w)
  else if rangeEnd = [] then applyDeleteOne w key
  else
    let kvs := mvccRange w.store key rangeEnd
    if kvs = [] then (0, w)
    else
      let (r, s, d) := mvccDeleteKeys w.store w.disk (kvs.map Prod.fst)
      let m := if r.main ≠ 0 then detachAll w.leases kvs else w.leases
      (0, { store := s, leases := m, disk := d })

/-- The first half of `apply_lease_revoke_`. -/
def revokeKeys (w : World) (id : Nat) : World :=
  let (_, s, d) := mvccDeleteKeys w.store w.disk (leaseKeys w.leases id)
  { w with store := s, disk := d }

def applyLeaseRevoke (w : World) (id : Nat) : Int × World :=
  let w1 := revokeKeys w id
  let (m, d) := leaseRevoke w1.leases w1.disk id
  (0, { w1 with leases := m, disk := d })

def applyLeaseGrant (w : World) (id : Nat) (ttl : Int) : Int × World :=
  if leaseExists w.leases id then (0, w)
  else
    match leaseGrantId w.leases w.disk id ttl with
    | (ok, m, d) => (if ok then 0 else -1, { w with leases := m, disk := d })

def applyLeaseKeepalive (w : World) (id : Nat) : Int × World :=
  if leaseExists w.leases id then
    match leaseKeepAlive w.disk with
    | (ok, d) => (if ok then 0 else -1, { w with disk := d })
  else (0, w)

/-- `CETCD_APPLY_COMPACT`; a revision that is already compacted counts as done. -/
def applyCompact (w : World) (rev : Nat) : Int × World :=
  match mvccCompact w.store w.disk rev with
  | (rc, s, d) =>
    let done := rc = .ok ∨ (rc = .range ∧ rev ≤ s.compactedRev)
    (if done then 0 else -1, { w with store := s, disk := d })

def exec (w : World) : Op → Int × World
  | .put key value leaseId => applyPut w key value leaseId
  | .delete key => applyDeleteOne w key
  | .deleteRange key rangeEnd => applyDeleteRange w key rangeEnd
  | .leaseRevoke id => applyLeaseRevoke w id
  | .leaseGrant id ttl => applyLeaseGrant w id ttl
  | .leaseKeepalive id _ => applyLeaseKeepalive w id
  | .compact rev => applyCompact w rev
  | .other accepted => (if accepted then 0 else -1, w)
  | .bad => (-1, w)

def runOps (w : World) : List Op → Int × World
  | [] => (0, w)
  | op :: ops =>
    match exec w op with
    | (rc, w') => if rc = 0 then runOps w' ops else (-1, w')

def applyEntry (accepts : List UInt8 → Bool) (w : World) (data : List UInt8) : Int × World :=
  runOps w (decodeEntry accepts data)

end Cetcd.Apply
