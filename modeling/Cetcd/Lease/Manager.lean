import Cetcd.Mvcc.Store

/-!
# Leases

The lease manager as far as applied entries use it: the leases and the keys attached to them. Times
to live and deadlines are kept beside it where they matter, in the clock of a node and in the state of
a batch; to this model keeping a lease alive is only a write to the backend.
-/

namespace Cetcd.Lease

open Lib Mvcc Option OrdMap

/-- The keys attached to each lease, in the order they were attached. -/
abbrev Leases := OrdMap Nat (List Key)

def maxLeaseTtl : Int := 9000000000

def leaseExists (m : Leases) (id : Nat) : Bool := (m.find id).isSome

def attachKey (m : Leases) (id : Nat) (key : Key) : Leases :=
  match m.find id with
  | none => m
  | some keys => if key ∈ keys then m else m.insert id (keys ++ [key])

def detachKey (m : Leases) (id : Nat) (key : Key) : Leases :=
  match m.find id with
  | none => m
  | some keys => m.insert id (keys.erase key)

def leaseKeys (m : Leases) (id : Nat) : List Key := (m.find id).getD []

def leaseGrantId (m : Leases) (d : Disk) (id : Nat) (ttl : Int) : Bool × Leases × Disk :=
  if id = 0 ∨ ttl ≤ 0 ∨ maxLeaseTtl < ttl ∨ leaseExists m id then (false, m, d)
  else
    match d.write fun be => { be with leases := be.leases.insert id (), haveBucket := true } with
    | (false, d') => (false, m, d')
    | (true, d') => (true, m.insert id [], d')

/-- `cetcd_lease_keep_alive` for a lease that exists, but for its time to live and deadline. -/
def leaseKeepAlive (d : Disk) : Bool × Disk := d.write fun be => { be with haveBucket := true }

/-- `cetcd_lease_revoke`; its result is not used. To delete a record that is not there is an error
of the backend, and the lease stays. -/
def leaseRevoke (m : Leases) (d : Disk) (id : Nat) : Leases × Disk :=
  if leaseExists m id ∧ (d.be.leases.find id).isSome then
    match d.write fun be => { be with leases := be.leases.erase id } with
    | (false, d') => (m, d')
    | (true, d') => (m.erase id, d')
  else (m, d)

/-- `cetcd_lease_load`: the ids of the bucket, with no keys. -/
def leaseLoad (be : Backend) : Leases := be.leases.map fun _ => []

/-- One round of `cetcd_lease_reindex_from_store`. A lease that is gone comes back. -/
def reindexKey (haveBucket : Bool) (p : Leases × Disk) (e : Key × KeyGeneration) : Leases × Disk :=
  if e.2.leaseId ≤ 0 then p
  else
    let id := e.2.leaseId.toNat
    if leaseExists p.1 id then (attachKey p.1 id e.1, p.2)
    else if haveBucket then (attachKey (p.1.insert id []) id e.1, p.2)
    else
      match leaseGrantId p.1 p.2 id 300 with
      | (false, m, d) => (m, d)
      | (true, m, d) => (attachKey m id e.1, d)

def reindexFromStore (m : Leases) (d : Disk) (s : Store) : Leases × Disk :=
  s.index.entries.foldl (reindexKey d.be.haveBucket) (m, d)

lemma find_change {m : Leases} {id : Nat} {f : List Key → List Key} {g : List Key → Leases}
    (hg : ∀ keys, m.find id = some keys →
      ∀ j, (g keys).find j = if j = id then some (f keys) else m.find j) (j : Nat) :
    (match m.find id with | none => m | some keys => g keys).find j =
      (m.find j).map fun keys => if j = id then f keys else keys := by
  cases hfind : m.find id with
  | none =>
    by_cases hj : j = id
    · subst hj
      simp only [hfind, map_none]
    · simp only [if_neg hj, map_id']
  | some keys =>
    rw [hg keys hfind]
    by_cases hj : j = id
    · subst hj
      simp only [if_true, hfind, map_some]
    · simp only [if_neg hj, map_id']

lemma find_attachKey (m : Leases) (id j : Nat) (key : Key) : (attachKey m id key).find j =
      (m.find j).map fun keys => if j = id ∧ key ∉ keys then keys ++ [key] else keys := by
  refine (find_change (f := fun keys => if key ∈ keys then keys else keys ++ [key]) ?_ j).trans ?_
  · intro keys hfind i
    by_cases hkey : key ∈ keys
    · simp only [if_pos hkey]
      split_ifs with hi
      · rw [hi, hfind]
      · rfl
    · simp only [if_neg hkey, find_insert]
  · refine congrArg (Option.map · _) (funext fun keys => ?_)
    split_ifs <;> tauto

lemma find_detachKey (m : Leases) (id j : Nat) (key : Key) : (detachKey m id key).find j =
      (m.find j).map fun keys => if j = id then keys.erase key else keys :=
  find_change (fun keys _ i => find_insert m id i (keys.erase key)) j

end Cetcd.Lease
