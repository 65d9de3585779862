import Cetcd.Apply.Once
import Cetcd.Mvcc.WatchReplay

/-!
# Requests

What `kv_handler.c` and `watch_handler.c` do with a parsed request: the permission test, the reads,
and the writes, each proposed as an entry of its own. An answer is the rows it holds.
-/

namespace Cetcd.Rpc

open Lib Mvcc Lease Apply

/-- Names are C strings. -/
abbrev Name := List UInt8

structure Role where
  permRead : Bool
  permWrite : Bool
  keyPrefix : Key
  rangeEnd : Key
  deriving DecidableEq

structure AuthStore where
  enabled : Bool
  users : List (Name × List Name)
  roles : List (Name × Role)
  deriving DecidableEq

def root : Name := [114, 111, 111, 116]

/-- The roles of a user that there are. -/
def AuthStore.rolesOf (s : AuthStore) (username : Name) : List Role :=
  ((s.users.lookup username).getD []).filterMap fun name => s.roles.lookup name

def AuthStore.isAdmin (s : AuthStore) (username : Name) : Bool :=
  username = root || root ∈ (s.users.lookup username).getD []

/-- `cetcd_auth_perm_covers`: without a range end the permission is for a prefix. -/
def permCovers (key lo hi : Key) : Bool :=
  if hi = [] then lo.isPrefixOf key else (hi = [0] || key < hi) && lo ≤ key

/-- `cetcd_auth_check_perm`: a role that may write may read as well. -/
def AuthStore.checkPerm (s : AuthStore) (username : Name) (key : Key) (wantWrite : Bool) : Bool :=
  if !s.enabled then true
  else if s.isAdmin username then true
  else
    (s.rolesOf username).any fun r =>
      (if wantWrite then r.permWrite else r.permRead || r.permWrite) &&
        permCovers key r.keyPrefix r.rangeEnd

/-- Who sends the request, whether reads may be served, the limit, and whether entries go through
the log. -/
structure Env where
  auth : AuthStore
  user : Name
  linearizable : Bool
  maxTxnOps : Nat
  raft : Bool

/-- `cetcd_v3rpc_check_key_perm`; the key may be missing. -/
def Env.checkKeyPerm (env : Env) (wantWrite : Bool) (key : Option Key) : Bool :=
  if !env.auth.enabled then true
  else
    match key with
    | none => false
    | some key => env.auth.checkPerm env.user key wantWrite

structure RangeReq where
  key : Key
  rangeEnd : Key := []
  rev : Nat := 0
  limit : Nat := 0
  sortOrder : Nat := 0
  sortTarget : Nat := 0
  serializable : Bool := false
  countOnly : Bool := false
  minModRev : Nat := 0
  maxModRev : Nat := 0
  minCreateRev : Nat := 0
  maxCreateRev : Nat := 0
  deriving DecidableEq

/-- `range_sort_cmp` says "not after". -/
def sortLe (target : Nat) (a b : KeyValue) : Bool :=
  match target with
  | 0 => a.key ≤ b.key
  | 1 => a.version ≤ b.version
  | 2 => a.createRev.main ≤ b.createRev.main
  | 3 => a.modRev.main ≤ b.modRev.main
  | _ => a.value ≤ b.value

/-- The filters on the revisions; a bound of zero is none. -/
def RangeReq.keeps (r : RangeReq) (kv : KeyValue) : Bool :=
  (r.minModRev = 0 || r.minModRev ≤ kv.modRev.main) &&
    (r.maxModRev = 0 || kv.modRev.main ≤ r.maxModRev) &&
    (r.minCreateRev = 0 || r.minCreateRev ≤ kv.createRev.main) &&
    (r.maxCreateRev = 0 || kv.createRev.main ≤ r.maxCreateRev)

/-- The order of the answer; a target other than the key asks for one. -/
def RangeReq.sorted (r : RangeReq) (rows : List KeyValue) : List KeyValue :=
  let order := if r.sortOrder = 0 ∧ r.sortTarget ≠ 0 then 1 else r.sortOrder
  if order = 0 then rows
  else if order = 2 then rows.mergeSort fun a b => sortLe r.sortTarget b a
  else rows.mergeSort (sortLe r.sortTarget)

/-- The rows of the answer of `kv_handle_range`, behind the permission test. -/
def rangeRows (env : Env) (s : Store) (r : RangeReq) : Option (List KeyValue) :=
  if r.key = [] ∨ 2 < r.sortOrder ∨ 4 < r.sortTarget then none
  else if !(r.serializable || env.linearizable) then none
  else if r.rangeEnd = [] then
    match mvccGet s r.rev r.key with
    | .error .range => none
    | .error .notFound => some []
    | .ok kv => some (if r.countOnly then [] else [kv])
  else
    match mvccRangeAt s r.rev r.key r.rangeEnd with
    | .error _ => none
    | .ok rows =>
      let sorted := r.sorted (rows.filter r.keeps)
      let shown := if r.limit = 0 then sorted else sorted.take r.limit
      some (if r.countOnly then [] else shown)

/-- The world and the outcomes of the coming proposals; past the end they are applied. -/
structure Site where
  world : World
  outcomes : List Bool := []

/-- `cetcd_v3rpc_propose_or_apply`: an answer through the log does not tell whether applying
succeeded. -/
def propose (env : Env) (x : Site) (op : Op) : Bool × Site :=
  if x.outcomes.head? = some false then (false, { x with outcomes := x.outcomes.tail })
  else
    match exec x.world op with
    | (rc, w) => (env.raft || rc = 0, { world := w, outcomes := x.outcomes.tail })

structure PutReq where
  key : Key
  value : List UInt8 := []
  lease : Int := 0
  ignoreValue : Bool := false
  ignoreLease : Bool := false
  prevKv : Bool := false
  deriving DecidableEq

structure DeleteReq where
  key : Key
  rangeEnd : Key := []
  prevKv : Bool := false
  deriving DecidableEq

def putOp (w : World) (r : PutReq) : Option Op :=
  if r.key = [] then none
  else if (r.ignoreValue ∧ r.value ≠ []) ∨ (r.ignoreLease ∧ r.lease ≠ 0) then none
  else
    let old := w.store.index.find r.key
    let value := if r.ignoreValue then (old.map KeyGeneration.value).getD r.value else r.value
    let lease := if r.ignoreLease then (old.map KeyGeneration.leaseId).getD r.lease else r.lease
    if 0 < lease ∧ leaseExists w.leases lease.toNat = false then none
    else if (r.ignoreValue ∨ r.ignoreLease) ∧ old = none then none
    else some (.put r.key value lease)

def deleteOp (r : DeleteReq) : Option Op :=
  if r.key = [] then none
  else if r.rangeEnd = [] then some (.delete r.key)
  else some (.deleteRange r.key r.rangeEnd)

/-- A put that looks at the row before. -/
def PutReq.reads (r : PutReq) : Bool := r.prevKv || r.ignoreValue || r.ignoreLease

/-- The row before, as the answer to a put in a transaction has it. -/
def PutReq.oldRows (r : PutReq) (s : Store) : List KeyValue :=
  if r.reads then ((s.index.find r.key).map fun kg => kg.kv r.key).toList else []

/-- The deleted rows as the answer has them: of a range only if the revision has grown to that of
`s'`. -/
def DeleteReq.oldRows (r : DeleteReq) (s s' : Store) : List KeyValue :=
  if !r.prevKv then []
  else if r.rangeEnd = [] then ((s.index.find r.key).map fun kg => kg.kv r.key).toList
  else if s.mainRev < s'.mainRev then (mvccRange s r.key r.rangeEnd).map fun e => e.2.kv e.1
  else []

lemma putOp_some {w : World} {r : PutReq} {o : Op} (h : o ∈ putOp w r) :
    r.key ≠ [] ∧ ∃ value lease, o = .put r.key value lease := by
  unfold putOp at h
  split at h
  · cases h
  rename_i hkey
  refine ⟨hkey, ?_⟩
  split at h
  · cases h
  dsimp only at h
  generalize (if r.ignoreValue = true then _ else r.value) = value at h
  generalize (if r.ignoreLease = true then _ else r.lease) = lease at h
  split at h
  · cases h
  split at h
  · cases h
  · exact ⟨value, lease, (Option.some.inj h).symm⟩

lemma deleteOp_some {r : DeleteReq} {o : Op} (h : o ∈ deleteOp r) :
    (r.key ≠ [] ∧ r.rangeEnd = [] ∧ o = .delete r.key) ∨
      (r.key ≠ [] ∧ r.rangeEnd ≠ [] ∧ o = .deleteRange r.key r.rangeEnd) := by
  unfold deleteOp at h
  split at h
  · cases h
  rename_i hkey
  split at h
  · rename_i hend
    exact Or.inl ⟨hkey, hend, (Option.some.inj h).symm⟩
  rename_i hend
  exact Or.inr ⟨hkey, hend, (Option.some.inj h).symm⟩

/-- The keys a request names. -/
def selects (key rangeEnd k : Key) : Bool :=
  if rangeEnd = [] then k = key else inRange key (openEnd rangeEnd) k

section

variable {s s' : Store} {kv : KeyValue}

lemma PutReq.mem_oldRows {r : PutReq} (h : kv ∈ r.oldRows s) : r.reads = true ∧ kv.key = r.key := by
  unfold PutReq.oldRows at h
  split at h
  · obtain ⟨kg, _, rfl⟩ := Option.map_eq_some_iff.1 (Option.mem_toList.1 h)
    exact ⟨‹_›, rfl⟩
  · cases h

lemma DeleteReq.mem_oldRows {r : DeleteReq} (h : kv ∈ r.oldRows s s') :
    r.prevKv = true ∧ selects r.key r.rangeEnd kv.key = true := by
  unfold DeleteReq.oldRows at h
  split at h
  · cases h
  rename_i hprev
  refine ⟨by simpa using hprev, ?_⟩
  unfold selects
  split at h
  · rename_i hend
    obtain ⟨kg, _, rfl⟩ := Option.map_eq_some_iff.1 (Option.mem_toList.1 h)
    rw [if_pos hend]
    exact decide_eq_true rfl
  rename_i hend
  rw [if_neg hend]
  split at h
  · obtain ⟨e, he, rfl⟩ := List.mem_map.1 h
    exact (List.mem_filter.1 he).2
  · cases h

end

end Cetcd.Rpc
