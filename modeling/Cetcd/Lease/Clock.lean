import Cetcd.Apply.Attached

/-!
# Lease clocks

Every node has its own lease clock. A tick removes the leases that are due, without an entry of the
log. `lease_expire_cb_` proposes the deletion of their keys if the node leads, 128 to an entry, and
the outcome is not looked at.
-/

namespace Cetcd.Lease

open Lib Mvcc Apply List

/-! ## Deadlines -/

structure Node where
  world : World
  /-- `now_ms`. -/
  now : Int
  /-- The ids and deadlines, in the order of the array of the manager. -/
  deadlines : List (Nat × Int)

def Node.fresh : Node := { world := World.fresh, now := 0, deadlines := [] }

/-- The deadlines after an operation that led to `w` with code `rc`. -/
def deadlinesAfter (n : Node) (rc : Int) (w : World) : Op → List (Nat × Int)
  | .leaseGrant id ttl =>
    if leaseExists n.world.leases id = false ∧ leaseExists w.leases id = true then
      n.deadlines ++ [(id, n.now + ttl * 1000)]
    else n.deadlines
  | .leaseKeepalive id ttl =>
    if rc = 0 then
      n.deadlines.map fun d => if d.1 = id then (id, n.now + ttl * 1000) else d
    else n.deadlines
  | .leaseRevoke id =>
    if leaseExists w.leases id then n.deadlines else n.deadlines.filter fun d => d.1 ≠ id
  | _ => n.deadlines

def execTimed (n : Node) (op : Op) : Int × Node :=
  match exec n.world op with
  | (rc, w) => (rc, { n with world := w, deadlines := deadlinesAfter n rc w op })

def runOpsTimed (n : Node) : List Op → Int × Node
  | [] => (0, n)
  | op :: ops =>
    match execTimed n op with
    | (rc, n') => if rc = 0 then runOpsTimed n' ops else (-1, n')

/-! ## Expiry -/

/-- The array of keys of a lease when `key` is detached: those behind it move up, the last cell
stays, and what points to the freed key is left dangling. -/
def freeCell (cells : List (Option Key)) (keys : List Key) (key : Key) : List (Option Key) :=
  if key ∈ keys then
    ((keys.erase key).map some ++ keys.getLast? :: cells.drop keys.length).map fun c =>
      if c = some key then none else c
  else cells

/-- One entry of deletions is applied; `cells` is the array of lease `id`. -/
def deleteChunk (id : Nat) (p : World × List (Option Key)) (keys : List Key) :
    World × List (Option Key) :=
  keys.foldl
    (fun p key =>
      let w := (applyDeleteOne p.1 key).2
      (w, if leaseKeys w.leases id = leaseKeys p.1.leases id then p.2
        else freeCell p.2 (leaseKeys p.1.leases id) key)) p

/-- `cetcd_v3rpc_propose_deletes` for `n` cells from `off` on; `outcomes` says which proposals are
applied. To read a freed cell is undefined; here it ends the loop. -/
def proposeDeletes (id n : Nat) :
    Nat → Nat → World × List (Option Key) → List Bool → World × List Bool
  | 0, _, p, outcomes => (p.1, outcomes)
  | fuel + 1, off, p, outcomes =>
    if n ≤ off then (p.1, outcomes)
    else
      match ((p.2.drop off).take (min 128 (n - off))).mapM fun c => c with
      | none => (p.1, outcomes)
      | some keys =>
        if [] ∈ keys then (p.1, outcomes)
        else if outcomes.head? = some false then (p.1, outcomes.tail)
        else proposeDeletes id n fuel (off + 128) (deleteChunk id p keys) outcomes.tail

/-- One lease that is due, with `lease_expire_cb_`; the answer is whether it is gone. -/
def expireOne (leader : Bool) (id : Nat) (w : World) (outcomes : List Bool) :
    Bool × World × List Bool :=
  -- a record that is not there cannot be deleted, and the lease stays
  if w.disk.be.leases.find id = none then (false, w, outcomes)
  else
    match w.disk.write fun be => { be with leases := be.leases.erase id } with
    | (false, d) => (false, { w with disk := d }, outcomes)
    | (true, d) =>
      let w1 : World := { w with disk := d }
      let keys := leaseKeys w.leases id
      let (w2, rest) :=
        if leader then proposeDeletes id keys.length keys.length 0 (w1, keys.map some) outcomes
        else (w1, outcomes)
      (true, { w2 with leases := w2.leases.erase id }, rest)

def expireLoop (leader : Bool) (now : Int) :
    List (Nat × Int) → World → List Bool → World × List (Nat × Int)
  | [], w, _ => (w, [])
  | (id, deadline) :: rest, w, outcomes =>
    if deadline ≤ now then
      match expireOne leader id w outcomes with
      | (true, w', outcomes') => expireLoop leader now rest w' outcomes'
      | (false, w', outcomes') =>
        match expireLoop leader now rest w' outcomes' with
        | (w2, kept) => (w2, (id, deadline) :: kept)
    else
      match expireLoop leader now rest w outcomes with
      | (w2, kept) => (w2, (id, deadline) :: kept)

def mgrTick (n : Node) (elapsed : Int) (leader : Bool) (outcomes : List Bool) : Node :=
  if elapsed ≤ 0 then n
  else
    match expireLoop leader (n.now + elapsed) n.deadlines n.world outcomes with
    | (w, kept) => { world := w, now := n.now + elapsed, deadlines := kept }

/-! ## Runs -/

inductive Event
  /-- A committed entry is applied. -/
  | entry (data : List UInt8)
  /-- The clock advances; the node leads or not, and proposals are applied or not. -/
  | tick (elapsed : Int) (leader : Bool) (outcomes : List Bool)

section

variable (accepts : Bytes → Bool)

def Node.next (n : Node) : Event → Node
  | .entry data => (runOpsTimed n (decodeEntry accepts data)).2
  | .tick elapsed leader outcomes => mgrTick n elapsed leader outcomes

def Node.run (n : Node) (evs : List Event) : Node := evs.foldl (Node.next accepts) n

def entriesOf (evs : List Event) : List (List UInt8) :=
  evs.filterMap fun ev =>
    match ev with
    | .entry data => some data
    | .tick _ _ _ => none

/-- Every event meets `ok` in the state it happens in. -/
def EventsMeet (ok : Node → Event → Prop) : Node → List Event → Prop
  | _, [] => True
  | n, ev :: evs => ok n ev ∧ EventsMeet ok (n.next accepts ev) evs

def Quiet (n : Node) : Event → Prop
  | .entry _ => True
  | .tick elapsed _ _ => ∀ d ∈ n.deadlines, n.now + elapsed < d.2

variable {accepts} {n : Node}

lemma runOpsTimed_world (n : Node) (ops : List Op) :
    (runOpsTimed n ops).2.world = (runOps n.world ops).2 := by
  induction ops generalizing n with
  | nil => rfl
  | cons op ops ih =>
    rcases hexec : exec n.world op with ⟨rc, w⟩
    have htimed : execTimed n op =
        (rc, { n with world := w, deadlines := deadlinesAfter n rc w op }) := by
      simp only [execTimed, hexec]
    simp only [runOpsTimed, runOps, htimed, hexec]
    split
    · exact ih _
    · rfl

lemma expireLoop_quiet {leader : Bool} {now : Int} {ds : List (Nat × Int)} (w : World)
    (outcomes : List Bool) (h : ∀ d ∈ ds, now < d.2) :
    expireLoop leader now ds w outcomes = (w, ds) := by
  induction ds with
  | nil => rfl
  | cons d ds ih =>
    rw [forall_mem_cons] at h
    simp [expireLoop, not_le.2 h.1, ih h.2]

lemma Quiet.world {ev : Event} (h : Quiet n ev) :
    (n.next accepts ev).world = applyEntries accepts n.world (entriesOf [ev]) := by
  cases ev with
  | entry data => exact runOpsTimed_world n _
  | tick elapsed leader outcomes =>
    simp only [Node.next, mgrTick]
    split
    · rfl
    rw [expireLoop_quiet n.world outcomes h]
    rfl

lemma EventsMeet.run_world {evs : List Event} (h : EventsMeet accepts Quiet n evs) :
    (n.run accepts evs).world = applyEntries accepts n.world (entriesOf evs) := by
  induction evs generalizing n with
  | nil => rfl
  | cons ev evs ih =>
    calc ((n.next accepts ev).run accepts evs).world
        = applyEntries accepts (n.next accepts ev).world (entriesOf evs) := ih h.2
      _ = applyEntries accepts (applyEntries accepts n.world (entriesOf [ev])) (entriesOf evs) := by
          rw [h.1.world]
      _ = applyEntries accepts n.world (entriesOf [ev] ++ entriesOf evs) :=
          foldl_append.symm
      _ = applyEntries accepts n.world (entriesOf (ev :: evs)) := by
          rw [show ev :: evs = [ev] ++ evs from rfl, entriesOf, entriesOf, entriesOf,
            filterMap_append]

end

/-! ## Replicas -/

/-- Nodes that start alike and apply the same entries are alike, as long as no lease is due at a
tick. -/
theorem replicas_follow_log (accepts : List UInt8 → Bool) (n n' : Node) (evs evs' : List Event)
    (hstart : n.world = n'.world) (hentries : entriesOf evs = entriesOf evs')
    (h : EventsMeet accepts Quiet n evs) (h' : EventsMeet accepts Quiet n' evs') :
    (n.run accepts evs).world.store = (n'.run accepts evs').world.store ∧
      ∀ id, leaseExists (n.run accepts evs).world.leases id =
        leaseExists (n'.run accepts evs').world.leases id := by
  have hworld : (n.run accepts evs).world = (n'.run accepts evs').world := by
    rw [h.run_world, h'.run_world, hstart, hentries]
  exact ⟨by rw [hworld], fun id => by rw [hworld]⟩

-- A lease of two seconds; one clock ticks a second before the put, the other after it.
theorem replicas_follow_log_late_tick : let grant : Event := .entry [12, 1, 2]
    let put : Event := .entry [1, 1, 107, 1, 118, 1]
    (Node.fresh.run (fun _ => true) [grant, .tick 1000 false [], put]).world.store =
      (Node.fresh.run (fun _ => true) [grant, put, .tick 1000 true []]).world.store :=
  (replicas_follow_log (fun _ => true) Node.fresh Node.fresh
    [.entry [12, 1, 2], .tick 1000 false [], .entry [1, 1, 107, 1, 118, 1]]
    [.entry [12, 1, 2], .entry [1, 1, 107, 1, 118, 1], .tick 1000 true []] rfl rfl
    ⟨trivial, by unfold Quiet; decide +kernel, trivial, trivial⟩
    ⟨trivial, trivial, by unfold Quiet; decide +kernel, trivial⟩).1

/-- One clock ticks before the lease is revoked, the other does not: the first keeps the key. -/
theorem replicas_differ_after_expiry : let grant : Event := .entry [12, 1, 1]
    let put : Event := .entry [1, 1, 107, 1, 118, 1]
    let revoke : Event := .entry [10, 1]
    let early := [grant, put, .tick 1000 false []]
    let late := [grant, put]
    (leaseExists (Node.fresh.run (fun _ => true) early).world.leases 1 = false ∧
        leaseExists (Node.fresh.run (fun _ => true) late).world.leases 1 = true) ∧
      ((Node.fresh.run (fun _ => true) (early ++ [revoke])).world.store.index.find [107]).isSome = true ∧
        ((Node.fresh.run (fun _ => true) (late ++ [revoke])).world.store.index.find [107]).isSome =
          false := by
  decide +kernel

end Cetcd.Lease
