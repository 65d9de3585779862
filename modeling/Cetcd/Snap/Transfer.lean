import Cetcd.Apply.Once
import Cetcd.Mvcc.Restart
import Cetcd.Server.Proposal
import Cetcd.Snap.Codec

/-!
# A store sent with a snapshot

`fill_snap_context_` packs the live keys of the leader, and `apply_snap_context_` puts them into the
store of the follower. Revisions, versions and leases are not packed: the follower counts from one,
in key order. A store that has a revision is left as it is, although the node moves its indexes.
-/

namespace Cetcd.Snap

open Lib Mvcc Raft Apply Server List

/-! ## The two ends -/

/-- The rows of a leader: keys from `0xff` on are past the end of the range. -/
def snapEntries (s : Store) : List SnapEntry :=
  match mvccRangeAt s 0 [] [255] with
  | .error _ => []
  | .ok kvs => kvs.map fun kv => ⟨kv.key, kv.value⟩

def fillSnapContext (s : Store) (msg : Msg) : Msg :=
  if msg.type ≠ .snap then msg
  else if msg.context ≠ [] then msg
  else { msg with context := encodeKv (snapEntries s) }

/-- The loop of `apply_snap_context_`. An empty key is a null pointer, which is refused. -/
def importEntries : List SnapEntry → Durable → Bool × Durable
  | [], x => (true, x)
  | e :: es, x =>
    if e.key = [] then (false, x)
    else
      match mvccPut x.store x.disk e.key e.value 0 with
      | (rev, s, d) => if rev = .zero then (false, ⟨s, d⟩) else importEntries es ⟨s, d⟩

/-- `apply_snap_context_`; the answer is whether it returns `CETCD_OK`. -/
def applySnapContext (w : World) (msg : Msg) : Bool × World :=
  if msg.type ≠ .snap then (true, w)
  else if msg.context = [] then (true, w)
  else if w.store.mainRev ≠ 0 then (true, w)
  else
    match decodeKv msg.context with
    | none => (false, w)
    | some es =>
      match importEntries es ⟨w.store, w.disk⟩ with
      | (ok, x) => (ok, { w with store := x.store, disk := x.disk })

/-- `peer_apply_encoded_` for a message that goes to the node. -/
def peerApplyEncoded (accepts : List UInt8 → Bool) (m : Machine) (msg : Msg) (out out' : Outcome) :
    Int × Machine × List Applied :=
  match applySnapContext m.world msg with
  | (false, w) => (-1, { m with world := w }, [])
  | (true, w) =>
    let m1 : Machine := { m with world := w }
    match processReadyFull accepts (m1.withRaft (cetcdRaftStep m.raft msg).2) out out' with
    | (m', calls) => (0, m', calls)

/-- The message is not of an earlier term, and both indexes of the node become its own. -/
@[mk_iff]
structure Accepts (m : Machine) (msg : Msg) : Prop where
  imported : (applySnapContext m.world msg).1 = true
  current : m.raft.term ≤ msg.term
  index_pos : 0 < msg.snapshot
  applied : (cetcdRaftStep m.raft msg).2.applied = msg.snapshot
  commit : (cetcdRaftStep m.raft msg).2.commit = msg.snapshot

/-! ## What an import writes -/

/-- The places of a key among the rows, counted from one. -/
def occurrences (es : List SnapEntry) (k : Key) : List (SnapEntry × Nat) :=
  (es.zipIdx 1).filter fun p => p.1.key = k

/-- The generation a key has when the rows are put one after the other, from revision one on. -/
def writtenBy (es : List SnapEntry) (k : Key) : Option KeyGeneration :=
  match (occurrences es k).head?, (occurrences es k).getLast? with
  | some first, some last =>
    some { createRev := ⟨first.2, 0⟩, version := (occurrences es k).length, modRev := ⟨last.2, 0⟩
           value := last.1.value, leaseId := 0 }
  | _, _ => none

/-- The store holds the rows and nothing else, each at its place in the list. -/
def Holds (s : Store) (es : List SnapEntry) : Prop :=
  s.mainRev = es.length ∧ ∀ k, s.index.find k = writtenBy es k

section

variable {es done : List SnapEntry} {e : SnapEntry} {k : Key} {s : Store} {x : Durable}

lemma occurrences_concat (es : List SnapEntry) (e : SnapEntry) (k : Key) :
    occurrences (es ++ [e]) k =
      occurrences es k ++ if e.key = k then [(e, es.length + 1)] else [] := by
  unfold occurrences
  rw [zipIdx_append, filter_append, add_comm 1]
  congr 1
  by_cases hk : e.key = k
  · rw [if_pos hk]
    exact filter_cons_of_pos (decide_eq_true hk)
  rw [if_neg hk]
  exact filter_cons_of_neg (by simpa using hk)

lemma writtenBy_concat (es : List SnapEntry) (e : SnapEntry) (k : Key) : writtenBy (es ++ [e]) k =
      if k = e.key then some (nextGeneration (writtenBy es k) ⟨es.length + 1, 0⟩ e.value 0)
      else writtenBy es k := by
  unfold writtenBy
  rw [occurrences_concat]
  by_cases hk : k = e.key
  · rw [if_pos hk, if_pos hk.symm, getLast?_concat]
    cases hocc : occurrences es k with
    | nil => rfl
    | cons p ps =>
      rw [cons_append, head?_cons, head?_cons, getLast?_cons]
      dsimp only [nextGeneration]
      rw [length_cons, length_append]
      rfl
  · rw [if_neg hk, if_neg fun h => hk h.symm, append_nil]

lemma Holds.put (h : Holds s es) (e : SnapEntry) :
    Holds (s.push (putEntry s e.key e.value 0)) (es ++ [e]) := by
  refine ⟨?_, fun k => ?_⟩
  · rw [push_putEntry, length_append, ← h.1]
    rfl
  have hkey : (putEntry s e.key e.value 0).key = e.key := rfl
  rw [find_push, hkey, generation?_putEntry, h.1, writtenBy_concat]
  by_cases hk : k = e.key
  · rw [if_pos hk, if_pos hk, h.2, hk]
  · rw [if_neg hk, if_neg hk, h.2]

lemma mvccPut_ne_zero {d : Disk} {key : Key} {value : Bytes}
    (h : (mvccPut s d key value 0).1 ≠ .zero) :
    (mvccPut s d key value 0).2.1 = s.push (putEntry s key value 0) := by
  rw [push_putEntry]
  unfold mvccPut at h ⊢
  dsimp only at h ⊢
  split at h
  · exact absurd rfl h
  · rfl

lemma importEntries_holds (hx : Holds x.store done) (hok : (importEntries es x).1) :
    Holds (importEntries es x).2.store (done ++ es) := by
  induction es generalizing done x with
  | nil =>
    rw [append_nil]
    exact hx
  | cons e es ih =>
    rw [importEntries] at hok ⊢
    by_cases hkey : e.key = []
    · rw [if_pos hkey] at hok
      cases hok
    rw [if_neg hkey] at hok ⊢
    dsimp only at hok ⊢
    by_cases hrev : (mvccPut x.store x.disk e.key e.value 0).1 = .zero
    · rw [if_pos hrev] at hok
      cases hok
    rw [if_neg hrev] at hok ⊢
    have hput := hx.put e
    rw [← mvccPut_ne_zero hrev] at hput
    have hrest := ih hput hok
    rw [append_assoc] at hrest
    exact hrest

lemma holds_nil {outcomes : List Bool} (h : Reaches AnyAct (Durable.fresh outcomes) x)
    (hzero : x.store.mainRev = 0) : Holds x.store [] := by
  refine ⟨hzero, fun k => ?_⟩
  cases hk : x.store.index.find k with
  | none => rfl
  | some kg =>
    have hmod := ((Mvcc.sound_fresh outcomes).reaches h).chronicle.modRev k kg hk
    omega

end

/-! ## The round after the message -/

section

variable {accepts : Bytes → Bool} {m : Machine} {msg : Msg} {out out' : Outcome}

lemma handleSnap_role (hterm : m.raft.term ≤ msg.term) (hpos : 0 < msg.snapshot) :
    (handleSnap m.raft msg).role = .follower := by
  have hrole : ∀ r : Raft, (if r.role ≠ .follower then becomeFollower r r.term msg.sender
      else r).role = .follower := by
    intro r
    by_cases hr : r.role ≠ .follower
    · rw [if_pos hr]
      unfold becomeFollower
      split <;> rfl
    rw [if_neg hr]
    exact not_not.1 hr
  have hcover : ∀ (r : Raft) (i : Nat), (coverSnapshot r i).role = r.role := by
    intro r i
    unfold coverSnapshot
    dsimp only
    split <;> split <;> rfl
  unfold handleSnap
  rw [if_neg (not_lt.2 hterm)]
  dsimp only
  rw [if_neg hpos.ne']
  split
  · exact hrole _
  · exact (hcover _ _).trans (hrole _)

lemma processReady_role (s : Server.State) (out : Outcome) :
    (processReady s out).raft.role = s.raft.role := by
  have htrunc : ∀ (s : Server.State) (released : Bool),
      (maybeSnapshotTruncate s released).raft.role = s.raft.role := by
    intro s released
    unfold maybeSnapshotTruncate cetcdRaftCompact
    split
    · rfl
    split
    · split <;> rfl
    · rfl
  unfold processReady
  cases out.failed with
  | some k => rfl
  | none =>
    refine (htrunc _ _).trans ?_
    unfold advanced cetcdRaftAdvance Table.put cetcdRaftReady
    dsimp only
    split <;> rfl

lemma applyReady_quiet (h : m.raft.commit ≤ m.raft.applied) :
    (applyReady accepts m out).1.world = m.world ∧
      (applyReady accepts m out).1.raft.role = m.raft.role := by
  have hrole := processReady_role m.server out
  unfold applyReady applyCommitted
  cases out.failed with
  | some k => exact ⟨rfl, hrole⟩
  | none =>
    dsimp only
    rw [if_pos (Nat.lt_succ_of_le h)]
    exact ⟨rfl, hrole⟩

lemma Accepts.world (h : Accepts m msg) (htype : msg.type = .snap) :
    (peerApplyEncoded accepts m msg out out').2.1.world = (applySnapContext m.world msg).2 := by
  have himported := h.imported
  have hstep : (cetcdRaftStep m.raft msg).2 = handleSnap m.raft msg := by
    unfold cetcdRaftStep
    rw [htype]
  unfold peerApplyEncoded
  cases hctx : applySnapContext m.world msg with
  | mk ok w =>
    rw [hctx] at himported
    cases himported
    dsimp only
    have hquiet := @applyReady_quiet accepts
      (({ m with world := w } : Machine).withRaft (cetcdRaftStep m.raft msg).2) out
      (h.commit.trans h.applied.symm).le
    have hnone : maybeProposeLeaveJoint (applyReady accepts
        (({ m with world := w } : Machine).withRaft (cetcdRaftStep m.raft msg).2) out).1.raft
          = none := by
      unfold maybeProposeLeaveJoint
      refine if_pos ?_
      rw [hquiet.2]
      change (cetcdRaftStep m.raft msg).2.role ≠ .leader
      rw [hstep, handleSnap_role h.current h.index_pos]
      decide
    rw [processReadyFull_none hnone]
    exact hquiet.1

end

/-! ## Faithfulness -/

/-- The same keys, values, revisions, versions and leases, and the same store revision. -/
def SameState (s t : Store) : Prop := s.index = t.index ∧ s.mainRev = t.mainRev
  deriving Decidable

/-- The rows that a follower reads from the blob of a leader. -/
def received (s : Store) : List SnapEntry := (decodeKv (encodeKv (snapEntries s))).getD []

/-- `target` is what the follower ends with. At revision zero with rows sent, these are all that
`target` holds, each changed once, in key order from revision one on and without a lease; if not,
the follower was there before. -/
def Faithful (leader follower target : Store) : Prop :=
  if follower.mainRev = 0 ∧ snapEntries leader ≠ [] then Holds target (received leader)
  else SameState follower target

section

variable {accepts : Bytes → Bool} {entryAt : Nat → Option Entry} {m : Machine} {msg : Msg}
  {out out' : Outcome} {outcomes : List Bool} {x : Durable} {leader target : Store}
  {es : List SnapEntry}

lemma Holds.sameState_iff {s t : Store} (h : Holds s es) : SameState s t ↔ Holds t es := by
  constructor
  · rintro ⟨hindex, hmain⟩
    exact ⟨hmain.symm.trans h.1, fun k => hindex ▸ h.2 k⟩
  intro ht
  exact ⟨OrdMap.ext_find fun k => (h.2 k).trans (ht.2 k).symm, h.1.trans ht.1.symm⟩

lemma fillSnapContext_eq (htype : msg.type = .snap) (hempty : msg.context = []) :
    fillSnapContext leader msg = { msg with context := encodeKv (snapEntries leader) } := by
  unfold fillSnapContext
  rw [if_neg (not_not.2 htype), if_neg (not_not.2 hempty)]

lemma applySnapContext_store (hreach : Reaches AnyAct (Durable.fresh outcomes) x)
    (hstore : m.world.store = x.store) (htype : msg.type = .snap) (hempty : msg.context = [])
    (hok : (applySnapContext m.world (fillSnapContext leader msg)).1) :
    SameState (applySnapContext m.world (fillSnapContext leader msg)).2.store target ↔
      Faithful leader m.world.store target := by
  rw [fillSnapContext_eq htype hempty] at hok ⊢
  unfold applySnapContext at hok ⊢
  rw [if_neg (not_not.2 htype)] at hok ⊢
  dsimp only at hok ⊢
  unfold Faithful
  by_cases hrows : snapEntries leader = []
  · rw [if_pos (encodeKv_eq_nil.2 hrows), if_neg fun h => h.2 hrows]
  rw [if_neg (encodeKv_eq_nil.not.2 hrows)] at hok ⊢
  by_cases hzero : m.world.store.mainRev = 0
  · rw [if_neg (not_not.2 hzero)] at hok ⊢
    rw [if_pos ⟨hzero, hrows⟩]
    unfold received
    cases hdecode : decodeKv (encodeKv (snapEntries leader)) with
    | none =>
      rw [hdecode] at hok
      cases hok
    | some es =>
      rw [hdecode] at hok
      have hfresh : Holds m.world.store [] := by
        rw [hstore] at hzero ⊢
        exact holds_nil hreach hzero
      exact (importEntries_holds hfresh hok).sameState_iff
  · rw [if_pos hzero, if_neg fun h => hzero h.1]

/-- A follower that takes a snapshot has what the entries up to its index make, exactly in the cases
of `Faithful`; the rows it reads are the leader's unless a key or value is too long or the blob
begins like a file. -/
theorem transfer_faithful_iff (hreach : Reaches AnyAct (Durable.fresh outcomes) x)
    (hstore : m.world.store = x.store) (htype : msg.type = .snap) (hempty : msg.context = [])
    (haccepts : Accepts m (fillSnapContext leader msg)) :
    (SameState (peerApplyEncoded accepts m (fillSnapContext leader msg) out out').2.1.world.store
        (appliedOnce accepts entryAt msg.snapshot) ↔
      Faithful leader m.world.store (appliedOnce accepts entryAt msg.snapshot)) ∧
    ((∀ e ∈ snapEntries leader, e.Fits) → Headless (encodeKv (snapEntries leader)) →
      received leader = snapEntries leader) := by
  have hsnap : (fillSnapContext leader msg).type = .snap := by
    rw [fillSnapContext_eq htype hempty]
    exact htype
  refine ⟨?_, fun hfits hhead => ?_⟩
  · rw [haccepts.world hsnap]
    exact applySnapContext_store hreach hstore htype hempty haccepts.imported
  unfold received
  rw [decodeKv_encodeKv hfits hhead]
  rfl

end

/-- Node 1 of two, which has heard nothing, with a store. -/
def newcomer (w : World) : Machine := ⟨start ⟨0, false, 0⟩ [⟨2, false⟩], w⟩

/-- The message of node 2, whose log is compacted to `index`. -/
def snapOf (index : Nat) : Msg :=
  { type := .snap, dest := 1, sender := 2, term := 1, logTerm := 1, snapshot := index }

/-- The store of a leader that has applied all of a log. -/
def applied (datas : List (List UInt8)) : Store :=
  appliedOnce (fun _ => true) (logOf datas) datas.length

/-- The store of a follower in `w` after the snapshot of that leader. -/
def followed (datas : List (List UInt8)) (w : World) : Store :=
  (peerApplyEncoded (fun _ => true) (newcomer w) (fillSnapContext (applied datas) (snapOf datas.length))
    (onDisk (newcomer w)) (onDisk (newcomer w))).2.1.world.store

instance (m : Machine) (msg : Msg) : Decidable (Accepts m msg) :=
  decidable_of_iff _ (accepts_iff m msg).symm

/-- One put: a new follower gets what the log makes. -/
theorem transfer_faithful_put_once :
    SameState (followed [[1, 1, 97, 1, 98]] World.fresh) (applied [[1, 1, 97, 1, 98]]) := by
  have hreach : Reaches AnyAct (Durable.fresh []) (Durable.fresh []) := .refl
  refine ((transfer_faithful_iff hreach rfl rfl rfl (by decide +kernel)).1).2 ?_
  have hleader : applied [[1, 1, 97, 1, 98]] = Store.new.push (putEntry Store.new [97] [98] 0) := by
    decide +kernel
  have hreceived : received (applied [[1, 1, 97, 1, 98]]) = [⟨[97], [98]⟩] := by decide +kernel
  have hholds : Holds (applied [[1, 1, 97, 1, 98]]) (received (applied [[1, 1, 97, 1, 98]])) := by
    rw [hreceived, hleader]
    exact (holds_nil hreach rfl).put ⟨[97], [98]⟩
  exact (if_pos (by decide +kernel) : Faithful (applied [[1, 1, 97, 1, 98]]) World.fresh.store
    (applied [[1, 1, 97, 1, 98]]) = _).mpr hholds

/-- Two puts of one key: the new follower has it at version and revision one, the log makes two. -/
theorem snapshot_forgets_revisions : Accepts (newcomer World.fresh)
        (fillSnapContext (applied [[1, 1, 97, 1, 98], [1, 1, 97, 1, 99]]) (snapOf 2)) ∧
      (followed [[1, 1, 97, 1, 98], [1, 1, 97, 1, 99]] World.fresh).index.find [97] =
        some ⟨⟨1, 0⟩, 1, ⟨1, 0⟩, [99], 0⟩ ∧
      (applied [[1, 1, 97, 1, 98], [1, 1, 97, 1, 99]]).index.find [97] =
        some ⟨⟨1, 0⟩, 2, ⟨2, 0⟩, [99], 0⟩ ∧
      (followed [[1, 1, 97, 1, 98], [1, 1, 97, 1, 99]] World.fresh).mainRev = 1 ∧
      (applied [[1, 1, 97, 1, 98], [1, 1, 97, 1, 99]]).mainRev = 2 := by
  decide +kernel

end Cetcd.Snap
