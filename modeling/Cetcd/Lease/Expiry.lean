import Cetcd.Lease.Clock

/-!
# Keys of expired leases

A lease that is due goes whatever becomes of the deletions proposed for its keys. If the node does
not lead, or a proposal is not applied, the keys stay. With more than 128 keys they stay anyway: the
second entry is made from cells that the first one has moved.
-/

namespace Cetcd.Lease

open Lib Mvcc Apply List Option OrdMap

/-- Every live key that names a lease names one that there is. -/
def NoOrphan (w : World) : Prop :=
  ∀ k kg, w.store.index.find k = some kg → kg.leaseId ≠ 0 →
    leaseExists w.leases (leaseBits kg.leaseId) = true

/-- A put names no lease or one that there is; leases are due only while the node leads, proposals
are applied, and no lease has more than 128 keys. -/
def Orderly (accepts : List UInt8 → Bool) (n : Node) : Event → Prop
  | .entry data => OpsMeet NamesLease n.world (decodeEntry accepts data)
  | .tick elapsed leader outcomes =>
    ∀ d ∈ n.deadlines, d.2 ≤ n.now + elapsed →
      leader = true ∧ (∀ o ∈ outcomes, o = true) ∧ (leaseKeys n.world.leases d.1).length ≤ 128

section

variable {w : World} {id : Nat} {keys : List Key}

def deletions (keys : List Key) : List Op := keys.map .delete

lemma deleteChunk_fst (id : Nat) (p : World × List (Option Key)) (keys : List Key) :
    (deleteChunk id p keys).1 = p.1.execAll (deletions keys) := by
  unfold deleteChunk
  induction keys generalizing p with
  | nil => rfl
  | cons key keys ih => exact ih _

lemma mapM_some (keys : List Key) : (keys.map some).mapM (fun c => c) = some keys := by
  induction keys with
  | nil => rfl
  | cons key keys ih => simp [ih]

lemma proposeDeletes_short {outcomes : List Bool} (hle : keys.length ≤ 128) (hempty : [] ∉ keys)
    (hout : ∀ o ∈ outcomes, o = true) (w : World) :
    (proposeDeletes id keys.length keys.length 0 (w, keys.map some) outcomes).1 =
        w.execAll (deletions keys) ∧
      ∀ o ∈ (proposeDeletes id keys.length keys.length 0 (w, keys.map some) outcomes).2,
        o = true := by
  rcases hlen : keys.length with _ | m
  · rw [length_eq_zero_iff.1 hlen]
    exact ⟨rfl, hout⟩
  have hhead : outcomes.head? ≠ some false := fun h =>
    Bool.false_ne_true (hout false (mem_of_mem_head? h))
  have hcells : (((keys.map some).drop 0).take (min 128 (m + 1 - 0))).mapM (fun c => c) =
      some keys := by
    rw [drop_zero, take_of_length_le (by rw [length_map]; omega), mapM_some]
  have hrest : ∀ fuel p (o : List Bool), (∀ b ∈ o, b = true) →
      (proposeDeletes id (m + 1) fuel (0 + 128) p o).1 = p.1 ∧
        ∀ b ∈ (proposeDeletes id (m + 1) fuel (0 + 128) p o).2, b = true := by
    intro fuel p o ho
    -- the next entry would begin behind the last key
    cases fuel with
    | zero => exact ⟨rfl, ho⟩
    | succ fuel =>
      rw [proposeDeletes, if_pos (show m + 1 ≤ 0 + 128 by omega)]
      exact ⟨rfl, ho⟩
  rw [proposeDeletes, if_neg (by omega), hcells]
  dsimp only
  rw [if_neg hempty, if_neg hhead]
  rcases hrest m (deleteChunk id (w, keys.map some) keys) outcomes.tail
    (fun b hb => hout b (mem_of_mem_tail hb)) with ⟨hworld, htail⟩
  exact ⟨hworld.trans (deleteChunk_fst id _ keys), htail⟩

def storing (stored : OrdMap Nat Unit) (d : Disk) : Disk :=
  { d with be := { d.be with leases := stored } }

lemma mvccDelete_storing (stored : OrdMap Nat Unit) (s : Store) (d : Disk) (key : Key) :
    mvccDelete s (storing stored d) key =
      ((mvccDelete s d key).1, (mvccDelete s d key).2.1, storing stored (mvccDelete s d key).2.2) := by
  obtain ⟨be, outcomes⟩ := d
  unfold mvccDelete
  cases s.index.find key with
  | none => rfl
  | some kg =>
    unfold storing Disk.write
    rcases outcomes with _ | ⟨_ | _, rest⟩ <;> rfl

def withStored (stored : OrdMap Nat Unit) (w : World) : World :=
  { w with disk := storing stored w.disk }

lemma applyDeleteOne_withStored (stored : OrdMap Nat Unit) (w : World) (key : Key) :
    (applyDeleteOne (withStored stored w) key).2 = withStored stored (applyDeleteOne w key).2 := by
  unfold applyDeleteOne
  by_cases hkey : key = []
  · rw [if_pos hkey, if_pos hkey]
  rw [if_neg hkey, if_neg hkey]
  simp only [withStored, mvccDelete_storing]

lemma execAll_withStored (stored : OrdMap Nat Unit) (w : World) (keys : List Key) :
    (withStored stored w).execAll (deletions keys) =
      withStored stored (w.execAll (deletions keys)) := by
  induction keys generalizing w with
  | nil => rfl
  | cons key keys ih =>
    calc (withStored stored w).execAll (deletions (key :: keys))
        = World.execAll (applyDeleteOne (withStored stored w) key).2 (deletions keys) := rfl
      _ = World.execAll (withStored stored (applyDeleteOne w key).2) (deletions keys) := by
          rw [applyDeleteOne_withStored]
      _ = withStored stored (w.execAll (deletions (key :: keys))) := ih _

lemma notPut_deletions (keys : List Key) : ∀ op ∈ deletions keys, NotPut op := by
  intro op hop
  obtain ⟨key, _, rfl⟩ := mem_map.1 hop
  trivial

lemma leaseKeys_deletions (w : World) (keys : List Key) (j : Nat) :
    (leaseKeys (w.execAll (deletions keys)).leases j).length ≤ (leaseKeys w.leases j).length := by
  have hone : ∀ (w : World) key, (leaseKeys (applyDeleteOne w key).2.leases j).length ≤
      (leaseKeys w.leases j).length := by
    intro w key
    unfold applyDeleteOne
    by_cases hkey : key = []
    · rw [if_pos hkey]
    rw [if_neg hkey]
    dsimp only
    split
    · unfold leaseKeys
      rw [find_detachKey]
      cases w.leases.find j with
      | none => exact le_rfl
      | some old =>
        simp only [map_some, getD_some]
        split
        · exact length_erase_le
        · exact le_rfl
    · exact le_rfl
  induction keys generalizing w with
  | nil => exact le_rfl
  | cons key keys ih => exact (ih _).trans (hone w key)

lemma has_execAll_deletions (a : Abs) (keys : List Key) (j : Nat) :
    (a.execAll (deletions keys)).Has j ↔ a.Has j := by
  induction keys generalizing a with
  | nil => exact Iff.rfl
  | cons key keys ih =>
    refine (ih (a.exec (.delete key))).trans ?_
    rw [exec_has (show NotPut (.delete key) from trivial)]
    simp [Keeps, Makes]

end

section

variable {w : World} {id : Nat} {outcomes : List Bool}

lemma agree_endLease {a : Abs} (ha : Agree a) (hnone : ∀ k, ¬ a.Leased k id) :
    Agree (a.endLease id) := by
  refine ⟨fun j keys hkeys k => ?_, fun k j hk => ?_, ha.nonempty⟩
  · change (if j = id then none else a.leases j) = some keys at hkeys
    split at hkeys
    · cases hkeys
    · exact ha.attached j keys hkeys k
  change (if j = id then none else a.leases j) ≠ none
  have hleased : a.Leased k j := hk
  rw [if_neg fun hj : j = id => hnone k (hj ▸ hleased)]
  exact ha.lease k j hleased

lemma cleared_of_tied (h : Tied w) (id : Nat) (k : Key) :
    ¬ (abs (w.execAll (deletions (leaseKeys w.leases id)))).Leased k id := by
  rw [(execAll_simulates h.sound _).2.1]
  intro hk
  have hnotPut := notPut_deletions (leaseKeys w.leases id)
  have hbefore : (abs w).Leased k id := (shrinks_execAll h.agree hnotPut).leased hk
  -- the key was attached, so that one of the deletions was for it
  have hmem : k ∈ leaseKeys w.leases id := by
    rw [mem_leaseKeys]
    cases hkeys : attachedOf w.leases id with
    | none => exact absurd hkeys (h.agree.lease k id hbefore)
    | some keys => exact ⟨keys, rfl, (h.agree.attached id keys hkeys k).2 hbefore⟩
  exact clean_execAll h.agree hnotPut (fun _ _ hk => hk) (.delete k) (mem_map_of_mem hmem) k rfl
    hk.live

lemma expireOne_short (h : Tied w) (hrecord : w.disk.be.leases.find id ≠ none)
    (hle : (leaseKeys w.leases id).length ≤ 128) (hout : ∀ o ∈ outcomes, o = true) :
    ∃ rest, (∀ o ∈ rest, o = true) ∧ expireOne true id w outcomes = (true,
          { withStored (w.disk.be.leases.erase id) (w.execAll (deletions (leaseKeys w.leases id))) with
            leases := (w.execAll (deletions (leaseKeys w.leases id))).leases.erase id },
          rest) := by
  have hempty : [] ∉ leaseKeys w.leases id := by
    intro hmem
    obtain ⟨keys, hkeys, hin⟩ := mem_leaseKeys.1 hmem
    exact h.agree.nonempty ((h.agree.attached id keys hkeys []).1 hin).live
  rcases @proposeDeletes_short id _ _ hle hempty hout
    (withStored (w.disk.be.leases.erase id) w) with ⟨hworld, hrest⟩
  refine ⟨_, hrest, ?_⟩
  have hwrite : w.disk.write (fun be => { be with leases := be.leases.erase id }) =
      (true, storing (w.disk.be.leases.erase id) w.disk) := h.sound.backed.reliable.write _
  unfold expireOne
  rw [if_neg hrecord, hwrite]
  have hstored : ({ w with disk := storing (w.disk.be.leases.erase id) w.disk } : World) =
      withStored (w.disk.be.leases.erase id) w := rfl
  simp only [if_true, hstored, hworld, execAll_withStored]
  rfl

lemma tied_expireOne (h : Tied w) (hrecord : w.disk.be.leases.find id ≠ none)
    (hle : (leaseKeys w.leases id).length ≤ 128) (hout : ∀ o ∈ outcomes, o = true) :
    ∃ w' rest, expireOne true id w outcomes = (true, w', rest) ∧ Tied w' ∧ (∀ o ∈ rest, o = true) ∧
      ∀ j, (leaseKeys w'.leases j).length ≤ (leaseKeys w.leases j).length := by
  obtain ⟨rest, hrest, heq⟩ := expireOne_short h hrecord hle hout
  refine ⟨_, rest, heq, ?_, hrest, fun j => ?_⟩
  · obtain ⟨hsound, habs, _⟩ := execAll_simulates h.sound (deletions (leaseKeys w.leases id))
    have hcleared := cleared_of_tied h id
    have hhas : ∀ j, (abs (w.execAll (deletions (leaseKeys w.leases id)))).Has j ↔
        (abs w).Has j := by
      intro j
      rw [habs]
      exact has_execAll_deletions _ _ j
    have hagree : Agree (abs (w.execAll (deletions (leaseKeys w.leases id)))) :=
      habs ▸ agree_execAll h.agree (notPut_deletions _)
    have hshrinks : Shrinks (abs w) (abs (w.execAll (deletions (leaseKeys w.leases id)))) :=
      habs ▸ shrinks_execAll h.agree (notPut_deletions _)
    generalize w.execAll (deletions (leaseKeys w.leases id)) = w1 at *
    have habs' : Apply.abs { withStored (w.disk.be.leases.erase id) w1 with
        leases := w1.leases.erase id } = (abs w1).endLease id :=
      Abs.ext rfl rfl (funext fun j => attachedOf_erase w1.leases id j)
    refine ⟨⟨⟨hsound.backed.reliable, hsound.backed.keys, hsound.backed.revision,
      hsound.backed.bound⟩, ?_, ?_, hsound.nonempty⟩, ?_,
      fun k kg hk => h.nonneg k kg (hshrinks k kg hk), ?_⟩
    · intro j keys hkeys
      rw [find_erase] at hkeys
      split at hkeys
      · cases hkeys
      · exact hsound.nodup j keys hkeys
    · intro j
      change ((w.disk.be.leases.erase id).find j).isSome = ((w1.leases.erase id).find j).isSome
      rw [find_erase, find_erase]
      split
      · rfl
      rw [h.sound.stored j, Bool.eq_iff_iff]
      exact (leaseExists_iff.trans (hhas j).symm).trans leaseExists_iff.symm
    · exact habs' ▸ agree_endLease hagree hcleared
    rw [habs']
    change (if 0 = id then none else (abs w1).leases 0) ≠ none → False
    split
    · exact fun hne => hne rfl
    · exact fun hne => h.noZero ((hhas 0).1 hne)
  refine le_trans ?_ (leaseKeys_deletions w (leaseKeys w.leases id) j)
  unfold leaseKeys
  rw [find_erase]
  split
  · exact zero_le
  · exact le_rfl

end

section

variable {accepts : Bytes → Bool} {n : Node}

lemma tied_expireLoop {leader : Bool} {now : Int} {ds : List (Nat × Int)} {w : World}
    {outcomes : List Bool} (h : Tied w)
    (hds : ∀ d ∈ ds, d.2 ≤ now → leader = true ∧ (∀ o ∈ outcomes, o = true) ∧
      (leaseKeys w.leases d.1).length ≤ 128) :
    Tied (expireLoop leader now ds w outcomes).1 := by
  induction ds generalizing w outcomes with
  | nil => exact h
  | cons d ds ih =>
    obtain ⟨id, deadline⟩ := d
    rw [forall_mem_cons] at hds
    by_cases hdue : deadline ≤ now
    · obtain ⟨rfl, hout, hle⟩ := hds.1 hdue
      by_cases hrecord : w.disk.be.leases.find id = none
      · simp only [expireLoop, if_pos hdue, expireOne, if_pos hrecord]
        exact ih h hds.2
      obtain ⟨w', rest, heq, htied, hrest, hfewer⟩ := tied_expireOne h hrecord hle hout
      simp only [expireLoop, if_pos hdue, heq]
      -- the leases behind it have lost keys, if anything
      exact ih htied fun d hd hlate =>
        ⟨rfl, hrest, (hfewer d.1).trans (hds.2 d hd hlate).2.2⟩
    simp only [expireLoop, if_neg hdue]
    exact ih h hds.2

lemma Orderly.tied {ev : Event} (hev : Orderly accepts n ev) (h : Tied n.world) :
    Tied (n.next accepts ev).world := by
  cases ev with
  | entry data =>
    change Tied (runOpsTimed n _).2.world
    rw [runOpsTimed_world]
    exact OpsMeet.keeps (fun _ _ hw hop => hw.exec hop) hev h
  | tick elapsed leader outcomes =>
    simp only [Node.next, mgrTick]
    split
    · exact h
    · exact tied_expireLoop h hev

lemma EventsMeet.tied {evs : List Event} (hevs : EventsMeet accepts (Orderly accepts) n evs)
    (h : Tied n.world) : Tied (n.run accepts evs).world := by
  induction evs generalizing n with
  | nil => exact h
  | cons ev evs ih => exact ih hevs.2 (hevs.1.tied h)

lemma noOrphan_of_tied {w : World} (h : Tied w) : NoOrphan w := by
  intro k kg hkg hlease
  have hnonneg := h.nonneg k kg hkg
  rw [leaseBits, if_pos hnonneg, leaseExists_iff]
  exact h.agree.lease k _ ⟨kg, hkg, by omega, by omega⟩

end

/-- In every run of this kind, no live key names a lease that there is no more. -/
theorem no_orphaned_key (accepts : List UInt8 → Bool) (evs : List Event)
    (h : EventsMeet accepts (Orderly accepts) Node.fresh evs) :
    NoOrphan (Node.fresh.run accepts evs).world :=
  noOrphan_of_tied (EventsMeet.tied h tied_fresh)

-- A lease of one second with two keys, and a tick of a second.
theorem no_orphaned_key_two : NoOrphan (Node.fresh.run (fun _ => true)
      [.entry [12, 1, 1], .entry [1, 1, 107, 0, 1], .entry [1, 1, 108, 0, 1],
        .tick 1000 true []]).world := by
  refine no_orphaned_key _ _ ⟨⟨trivial, fun _ => trivial⟩, ⟨?_, fun _ => trivial⟩,
    ⟨?_, fun _ => trivial⟩, ?_, trivial⟩
  · exact Or.inr (Or.inr (by decide +kernel))
  · exact Or.inr (Or.inr (by decide +kernel))
  unfold Orderly
  decide +kernel

/-- The entry with the deletion is not applied: the lease is gone, and the key names it. -/
theorem orphaned_key_of_failed_proposal :
    let w := (Node.fresh.run (fun _ => true)
      [.entry [12, 1, 1], .entry [1, 1, 107, 0, 1], .tick 1000 true [false], .tick 1000 true []]).world
    leaseOf w.store [107] = 1 ∧ leaseExists w.leases 1 = false ∧ ¬ NoOrphan w := by
  have hkey : ((Node.fresh.run (fun _ => true)
      [.entry [12, 1, 1], .entry [1, 1, 107, 0, 1], .tick 1000 true [false],
        .tick 1000 true []]).world.store.index.find [107]).map KeyGeneration.leaseId = some 1 := by
    decide +kernel
  have hgone : leaseExists (Node.fresh.run (fun _ => true)
      [.entry [12, 1, 1], .entry [1, 1, 107, 0, 1], .tick 1000 true [false],
        .tick 1000 true []]).world.leases 1 = false := by
    decide +kernel
  refine ⟨by simp [leaseOf, hkey], hgone, fun h => ?_⟩
  obtain ⟨kg, hkg, hlease⟩ := map_eq_some_iff.1 hkey
  have hexists := h [107] kg hkg (by simp [hlease])
  rw [hlease] at hexists
  exact Bool.false_ne_true (hgone.symm.trans hexists)

end Cetcd.Lease
