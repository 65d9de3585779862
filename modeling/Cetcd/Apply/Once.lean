import Cetcd.Apply.Refine
import Cetcd.Lib.Run

/-!
# Entries applied once

A server applies its committed entries in rounds; after a crash those of the interrupted round are
applied again from the first. The store is then as if every entry was applied once, if no put was
done before the crash, leases and store agreed, and every entry ends where it ended before.
-/

namespace Cetcd.Apply

open Lib Mvcc Lease Raft List Option

/-! ## Rounds -/

def World.applyAll (w : World) (es : List (List Op)) : World :=
  es.foldl (fun w ops => (runOps w ops).2) w

section

variable {accepts : Bytes → Bool} {entryAt : Nat → Option Entry} {w : World} {ops : List Op}
  {es : List (List Op)} {m n : Nat} {half : Bool}

lemma runOps_simulates (h : Sound w) (ops : List Op) :
    Sound (runOps w ops).2 ∧ abs (runOps w ops).2 = (abs w).runOps ops ∧
      (runOps w ops).2.disk.be.applied = w.disk.be.applied := by
  induction ops generalizing w with
  | nil => exact ⟨h, rfl, rfl⟩
  | cons op ops ih =>
    have hop := simulates_exec h op
    unfold runOps Abs.runOps
    dsimp only
    by_cases hrc : (exec w op).1 = 0
    · rw [if_pos hrc, if_neg (hop.code.1 hrc), ← hop.abs_eq]
      obtain ⟨hsound, habs, happlied⟩ := ih hop.sound
      exact ⟨hsound, habs, happlied.trans hop.applied⟩
    rw [if_neg hrc, if_pos (not_not.1 (mt hop.code.2 hrc))]
    exact ⟨hop.sound, hop.abs_eq, hop.applied⟩

lemma applyAll_simulates (h : Sound w) (es : List (List Op)) :
    Sound (w.applyAll es) ∧ abs (w.applyAll es) = (abs w).applyAll es ∧
      (w.applyAll es).disk.be.applied = w.disk.be.applied := by
  induction es generalizing w with
  | nil => exact ⟨h, rfl, rfl⟩
  | cons ops es ih =>
    obtain ⟨hsound, habs, happlied⟩ := runOps_simulates h ops
    obtain ⟨hsound', habs', happlied'⟩ := ih hsound
    refine ⟨hsound', habs'.trans ?_, happlied'.trans happlied⟩
    rw [habs]
    rfl

lemma execAll_simulates (h : Sound w) (ops : List Op) :
    Sound (w.execAll ops) ∧ abs (w.execAll ops) = (abs w).execAll ops ∧
      (w.execAll ops).disk.be.applied = w.disk.be.applied := by
  induction ops generalizing w with
  | nil => exact ⟨h, rfl, rfl⟩
  | cons op ops ih =>
    have hop := simulates_exec h op
    obtain ⟨hsound, habs, happlied⟩ := ih hop.sound
    refine ⟨hsound, habs.trans ?_, happlied.trans hop.applied⟩
    rw [hop.abs_eq]
    rfl

lemma applyAt_fst (p : World × List Applied) (i : Nat) :
    (applyAt accepts entryAt p i).1 = (runOps p.1 (opsAt accepts entryAt i)).2 := by
  unfold applyAt opsAt
  cases entryAt i with
  | none => rfl
  | some e =>
    dsimp only
    split
    · rfl
    split
    all_goals rfl

lemma applyRange_fst (w : World) (applied commit : Nat) :
    (applyRange accepts entryAt w applied commit).1 =
      w.applyAll (roundOps accepts entryAt applied commit) := by
  unfold applyRange roundOps World.applyAll
  generalize roundRange applied commit = is
  generalize ([] : List Applied) = calls
  induction is generalizing w calls with
  | nil => rfl
  | cons i is ih =>
    rw [foldl_cons, map_cons, foldl_cons, ← @applyAt_fst accepts entryAt (w, calls) i]
    exact ih _ _

lemma roundOps_self (commit : Nat) : roundOps accepts entryAt commit commit = [] := by
  unfold roundOps roundRange
  rw [Nat.sub_self]
  rfl

lemma roundOps_append {applied commit commit' : Nat} (h : applied ≤ commit)
    (h' : commit ≤ commit') :
    roundOps accepts entryAt applied commit ++ roundOps accepts entryAt commit commit' =
      roundOps accepts entryAt applied commit' := by
  unfold roundOps roundRange
  rw [← map_append]
  refine congrArg (List.map _) ?_
  have hstart : commit + 1 = applied + 1 + 1 * (commit - applied) := by omega
  have hlen : commit' - applied = (commit - applied) + (commit' - commit) := by omega
  rw [hlen, ← List.range'_append, hstart]

/-! ## A crash -/

lemma executed_eq_tried (h : Sound w) (hsteady : SteadyEntry m ops) (hm : m ≤ w.store.mainRev) :
    executed w ops = tried ops := by
  induction ops generalizing w with
  | nil => rfl
  | cons op ops ih =>
    have hop := simulates_exec h op
    by_cases hops : ops = []
    · subst hops
      rw [tried_singleton]
      unfold executed executed
      dsimp only
      rw [ite_self]
    have hrefused := @SteadyEntry.refuses_iff (abs w) _ _ _ hsteady hm hops
    have hm' : m ≤ (exec w op).2.store.mainRev :=
      hm.trans ((mainRev_le_exec (abs w) op).trans_eq (congrArg Abs.mainRev hop.abs_eq.symm))
    unfold executed tried
    dsimp only
    rw [ih hop.sound hsteady.tail hm']
    by_cases hop' : op.refused = true
    · rw [if_pos hop', if_neg (fun hrc => hop.code.1 hrc (hrefused.2 hop'))]
    · rw [if_neg hop', if_pos (hop.code.2 (mt hrefused.1 hop'))]

lemma executedAll_eq_tried (h : Sound w) (hsteady : ∀ ops ∈ es, SteadyEntry m ops)
    (hm : m ≤ w.store.mainRev) : executedAll w es = es.flatMap tried := by
  induction es generalizing w with
  | nil => rfl
  | cons ops es ih =>
    rw [forall_mem_cons] at hsteady
    obtain ⟨hsound, habs, _⟩ := runOps_simulates h ops
    have hle : (abs w).mainRev ≤ ((abs w).runOps ops).mainRev := by
      rw [@SteadyEntry.runOps_eq (abs w) _ _ hsteady.1 hm]
      exact mainRev_le_execAll _ _
    have hm' : m ≤ (runOps w ops).2.store.mainRev :=
      hm.trans (hle.trans_eq (congrArg Abs.mainRev habs.symm))
    unfold executedAll
    rw [flatMap_cons, executed_eq_tried h hsteady.1 hm, ih hsound hsteady.2 hm']

/-- The keys attached to a lease are those that name it. -/
def LeasesAgree (w : World) : Prop :=
  (∀ l ∈ w.leases.entries, ∀ k ∈ l.2, leaseOf w.store k = l.1 ∧ 0 < l.1) ∧
    ∀ e ∈ w.store.index.entries, 0 < e.2.leaseId → e.1 ∈ leaseKeys w.leases e.2.leaseId.toNat
  deriving Decidable

lemma LeasesAgree.agree (h : LeasesAgree w) (hw : Sound w) : Agree (abs w) := by
  have hkeys : ∀ k id, (abs w).Leased k id → k ∈ leaseKeys w.leases id := by
    rintro k id ⟨kg, hkg, hid, hpos⟩
    have hmem := h.2 (k, kg) (OrdMap.find_eq_some.1 hkg) (by dsimp only; omega)
    rwa [show kg.leaseId.toNat = id by omega] at hmem
  refine ⟨fun id keys hid k => ⟨fun hk => ?_, fun hk => ?_⟩, fun k id hk => ?_, ?_⟩
  · obtain ⟨l, hl, rfl⟩ := map_eq_some_iff.1 hid
    exact leased_iff_leaseOf.2 (h.1 (id, l) (OrdMap.find_eq_some.1 hl) k hk)
  · obtain ⟨keys', hid', hmem⟩ := mem_leaseKeys.1 (hkeys k id hk)
    rw [show keys = keys' from some.inj (hid.symm.trans hid')]
    exact hmem
  · obtain ⟨keys', hid', _⟩ := mem_leaseKeys.1 (hkeys k id hk)
    exact fun hnone => some_ne_none _ (hid'.symm.trans hnone)
  rintro ⟨kg, hkg⟩
  exact some_ne_none _ (hkg.symm.trans hw.nonempty)

lemma crash_spec (h : Sound w) (hagree : LeasesAgree w)
    (hsteady : ∀ ops ∈ es, SteadyEntry w.store.mainRev ops)
    (hput : ∀ op ∈ (es.flatMap tried).take n, NotPut op) :
    Sound (reload (crashAfter w es n half)) ∧
      (abs (reload (crashAfter w es n half))).applyAll es = (abs w).applyAll es ∧
      (reload (crashAfter w es n half)).disk.be.applied = w.disk.be.applied := by
  have ha : Agree (abs w) := hagree.agree h
  obtain ⟨hsound, habs, happlied⟩ := execAll_simulates h ((es.flatMap tried).take n)
  have ha1 : Agree (abs (w.execAll ((es.flatMap tried).take n))) := by
    rw [habs]
    exact agree_execAll ha hput
  -- the crash between two operations
  have hwhole : Sound (reload (w.execAll ((es.flatMap tried).take n))) ∧
      (abs (reload (w.execAll ((es.flatMap tried).take n)))).applyAll es = (abs w).applyAll es ∧
      (reload (w.execAll ((es.flatMap tried).take n))).disk.be.applied = w.disk.be.applied := by
    obtain ⟨hs, hr, hd⟩ := reload_spec hsound ha1.lease
    refine ⟨hs, ?_, (congrArg (·.be.applied) hd).trans happlied⟩
    rw [hr, habs, applyAll_again ha hsteady hput]
  unfold crashAfter
  rw [executedAll_eq_tried h hsteady le_rfl]
  dsimp only
  split
  · split
    · -- between the two writes of a revocation
      rename_i id post hnext
      obtain ⟨hsound2, habs2, happlied2⟩ := revokeKeys_spec hsound id
      have hlease : ∀ k j, (abs (revokeKeys (w.execAll ((es.flatMap tried).take n)) id)).Leased k j →
          (abs (revokeKeys (w.execAll ((es.flatMap tried).take n)) id)).Has j := by
        intro k j hk
        rw [habs2] at hk ⊢
        exact ha1.lease k j (leased_drop.1 hk).1
      obtain ⟨hs, hr, hd⟩ := reload_spec hsound2 hlease
      refine ⟨hs, ?_, ((congrArg (·.be.applied) hd).trans happlied2).trans happlied⟩
      rw [hr, habs2, habs, applyAll_again_half ha hsteady hput hnext]
    · exact hwhole
  · exact hwhole

end

/-! ## Runs -/

structure State where
  world : World
  applied : Nat
  commit : Nat
  deriving DecidableEq

/-- A Ready round with the commit index at `commit` or where it was, or a crash in such a round and
a new start at the applied index on disk. The commit index is written before anything is applied. -/
inductive Act
  | ready (commit : Nat)
  | crash (commit n : Nat) (half : Bool)
  deriving DecidableEq

section

variable (accepts : Bytes → Bool) (entryAt : Nat → Option Entry)

def State.next (s : State) : Act → State
  | .ready commit =>
    let upTo := max s.commit commit
    { world := (applyCommitted accepts entryAt s.world s.applied upTo).1
      applied := max s.applied upTo
      commit := upTo }
  | .crash commit n half =>
    let upTo := max s.commit commit
    let w := reload (crashAfter s.world (roundOps accepts entryAt s.applied upTo) n half)
    { world := w, applied := w.disk.be.applied.getD 0, commit := upTo }

def World.fresh : World := { store := Store.new, leases := .empty, disk := { be := Backend.empty } }

def State.initial : State := { world := World.fresh, applied := 0, commit := 0 }

/-- A crash that does no harm: leases and store agree, what ends an entry of the round does not
depend on the state, and no put comes before. -/
def Repeatable (s : State) : Act → Prop
  | .ready _ => True
  | .crash commit n _ =>
    let es := roundOps accepts entryAt s.applied (max s.commit commit)
    LeasesAgree s.world ∧ (∀ ops ∈ es, SteadyEntry s.world.store.mainRev ops) ∧
      ∀ op ∈ (es.flatMap tried).take n, NotPut op

def Run (ok : State → Act → Prop) : List State → Prop :=
  RunOf (· = State.initial) (fun s a s' => ok s a ∧ s' = s.next accepts entryAt a)

/-- The store after every entry up to `commit` was applied once. -/
def appliedOnce (commit : Nat) : Store := (applyRange accepts entryAt World.fresh 0 commit).1.store

variable {accepts entryAt} {s : State} {ss : List State}

/-- The rest of the interrupted round leads to where applying once leads. -/
structure OnTrack (accepts : List UInt8 → Bool) (entryAt : Nat → Option Entry) (s : State) :
    Prop where
  sound : Sound s.world
  applied : s.world.disk.be.applied.getD 0 = s.applied
  le : s.applied ≤ s.commit
  ahead : (abs s.world).applyAll (roundOps accepts entryAt s.applied s.commit) =
    (abs World.fresh).applyAll (roundOps accepts entryAt 0 s.commit)

lemma sound_fresh : Sound World.fresh where
  backed := ⟨rfl, rfl, rfl, fun k kg hk => by cases hk⟩
  nodup id keys hid := by cases hid
  stored id := rfl
  nonempty := rfl

lemma OnTrack.further (h : OnTrack accepts entryAt s) {upTo : Nat} (hle : s.commit ≤ upTo) :
    (abs s.world).applyAll (roundOps accepts entryAt s.applied upTo) =
      (abs World.fresh).applyAll (roundOps accepts entryAt 0 upTo) := by
  rw [← roundOps_append h.le hle, ← roundOps_append (Nat.zero_le s.commit) hle]
  rw [applyAll_append, applyAll_append, h.ahead]

lemma persistApplied_sound {w : World} (h : Sound w) (idx : Nat) :
    Sound (persistApplied w idx) ∧ abs (persistApplied w idx) = abs w ∧
      (persistApplied w idx).disk.be.applied = some idx := by
  unfold persistApplied
  rw [h.backed.reliable.write]
  exact ⟨⟨⟨h.backed.reliable, h.backed.keys, h.backed.revision, h.backed.bound⟩, h.nodup, h.stored,
    h.nonempty⟩, rfl, rfl⟩

lemma OnTrack.ready (h : OnTrack accepts entryAt s) (commit : Nat) :
    OnTrack accepts entryAt (s.next accepts entryAt (.ready commit)) := by
  have hle : s.applied ≤ max s.commit commit := h.le.trans (le_max_left _ _)
  have hfurther := h.further (le_max_left s.commit commit)
  rcases applyAll_simulates h.sound
    (roundOps accepts entryAt s.applied (max s.commit commit)) with ⟨hsound, habs, happlied⟩
  unfold State.next applyCommitted
  dsimp only
  rw [max_eq_right hle]
  split
  · -- nothing new is committed
    rename_i hlt
    have heq : s.applied = max s.commit commit := le_antisymm hle (Nat.lt_succ_iff.1 hlt)
    refine ⟨h.sound, h.applied.trans heq, le_rfl, ?_⟩
    dsimp only
    rw [← hfurther, heq]
  obtain ⟨hsound', habs', happlied'⟩ := persistApplied_sound hsound (max s.commit commit)
  refine ⟨?_, ?_, le_rfl, ?_⟩
  · dsimp only
    rw [applyRange_fst]
    exact hsound'
  · dsimp only
    rw [applyRange_fst, happlied']
    rfl
  dsimp only
  rw [applyRange_fst, habs', habs, roundOps_self]
  exact hfurther

lemma OnTrack.crash (h : OnTrack accepts entryAt s) {commit n : Nat} {half : Bool}
    (hok : Repeatable accepts entryAt s (.crash commit n half)) :
    OnTrack accepts entryAt (s.next accepts entryAt (.crash commit n half)) := by
  obtain ⟨hagree, hsteady, hput⟩ := hok
  obtain ⟨hsound, hall, happlied⟩ := @crash_spec _ _ _ half h.sound hagree hsteady hput
  have heq : (s.next accepts entryAt (.crash commit n half)).applied = s.applied :=
    (congrArg (Option.getD · 0) happlied).trans h.applied
  refine ⟨hsound, rfl, heq.le.trans (h.le.trans (le_max_left _ _)), ?_⟩
  rw [heq]
  exact hall.trans (h.further (le_max_left _ _))

instance (op : Op) : Decidable (NotPut op) := by cases op <;> unfold NotPut <;> infer_instance

instance (m : Nat) (op : Op) : Decidable (Steady m op) := by
  cases op <;> unfold Steady <;> infer_instance

instance (m : Nat) (ops : List Op) : Decidable (SteadyEntry m ops) :=
  inferInstanceAs (Decidable (∀ op ∈ ops.dropLast, Steady m op))

instance (s : State) : (a : Act) → Decidable (Repeatable accepts entryAt s a)
  | .ready _ => inferInstanceAs (Decidable True)
  | .crash _ _ _ => inferInstanceAs (Decidable (_ ∧ _))

def logOf (datas : List (List UInt8)) (i : Nat) : Option Entry :=
  match i with
  | 0 => none
  | i + 1 => datas[i]?.map fun data => ⟨1, i + 1, .normal, data⟩

def play (datas : List (List UInt8)) (as : List Act) : List State :=
  Lib.replay (State.next (fun _ => true) (logOf datas)) [] State.initial (as.map fun a _ => a)

def endOf (datas : List (List UInt8)) (as : List Act) : State :=
  Lib.finish (State.next (fun _ => true) (logOf datas)) State.initial (as.map fun a _ => a)

-- A key that names a lease which is not there: the start brings the lease back, and its revocation
-- then takes the key.
example :
    (endOf [[1, 1, 97, 1, 98, 7], [10, 7]] [.ready 1, .crash 2 0 false, .ready 2]).world.store.index
        = .empty ∧
      (appliedOnce (fun _ => true) (logOf [[1, 1, 97, 1, 98, 7], [10, 7]]) 2).index ≠ .empty := by
  decide +kernel

-- A batch that a compaction of a future revision ends, until a later deletion has made that revision.
example :
    (endOf [[1, 1, 97, 1, 98], [1, 1, 99, 1, 98], [3, 2, 2, 11, 3, 3, 2, 1, 97], [2, 1, 99]]
        [.ready 2, .crash 4 2 false, .ready 4]).world.store.index = .empty ∧
      (appliedOnce (fun _ => true) (logOf [[1, 1, 97, 1, 98], [1, 1, 99, 1, 98],
        [3, 2, 2, 11, 3, 3, 2, 1, 97], [2, 1, 99]]) 4).index ≠ .empty := by
  decide +kernel

end

end Cetcd.Apply
