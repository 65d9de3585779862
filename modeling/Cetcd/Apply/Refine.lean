import Cetcd.Apply.Again
import Cetcd.Apply.Committed
import Cetcd.Mvcc.Backed

/-!
# The code does what entries mean

Each operation of `apply.c`, on a backend whose writes succeed, does to the store and the leases
what it does to their meaning, and is refused in the same states. A start rebuilds the state from
the backend.
-/

namespace Cetcd.Apply

open Lib Mvcc Lease List Function OrdMap Option

/-! ## Meaning -/

def attachedOf (m : Leases) (id : Nat) : Option (Set Key) :=
  (m.find id).map fun keys => { k | k ∈ keys }

def abs (w : World) : Abs := ⟨w.store.index, w.store.mainRev, attachedOf w.leases⟩

def NodupKeys (m : Leases) : Prop := ∀ id keys, m.find id = some keys → keys.Nodup

/-- The leases that there are, are those in the backend. -/
def Stored (m : Leases) (d : Disk) : Prop :=
  ∀ id, (d.be.leases.find id).isSome = (m.find id).isSome

structure Sound (w : World) : Prop where
  backed : Backed w.store w.disk
  nodup : NodupKeys w.leases
  stored : Stored w.leases w.disk
  nonempty : w.store.index.find [] = none

/-- `p` is the code and the world after `op`. -/
structure Simulates (w : World) (op : Op) (p : Int × World) : Prop where
  sound : Sound p.2
  abs_eq : abs p.2 = (abs w).exec op
  code : p.1 = 0 ↔ ¬ (abs w).Refuses op
  applied : p.2.disk.be.applied = w.disk.be.applied

/-! ## Leases -/

section

variable {m : Leases} {id j : Nat} {key : Key} {d : Disk}

lemma NodupKeys.attachKey (h : NodupKeys m) (id : Nat) (key : Key) :
    NodupKeys (attachKey m id key) := by
  intro j keys hkeys
  rw [find_attachKey, map_eq_some_iff] at hkeys
  obtain ⟨old, hold, rfl⟩ := hkeys
  split
  · rename_i hnew
    exact nodup_append.2 ⟨h j old hold, nodup_singleton key,
      fun a ha b hb heq => hnew.2 (mem_singleton.1 hb ▸ heq ▸ ha)⟩
  · exact h j old hold

lemma NodupKeys.detachKey (h : NodupKeys m) (id : Nat) (key : Key) :
    NodupKeys (detachKey m id key) := by
  intro j keys hkeys
  rw [find_detachKey, map_eq_some_iff] at hkeys
  obtain ⟨old, hold, rfl⟩ := hkeys
  split
  · exact (h j old hold).erase key
  · exact h j old hold

lemma attachedOf_attachKey (m : Leases) (id : Nat) (key : Key) (j : Nat) :
    attachedOf (attachKey m id key) j =
      (attachedOf m j).map fun keys => { k | k ∈ keys ∨ (k = key ∧ j = id) } := by
  unfold attachedOf
  rw [find_attachKey, Option.map_map, Option.map_map]
  refine congrArg (Option.map · _) (funext fun keys => Set.ext fun k => ?_)
  simp only [comp_apply, Set.mem_ofPred_eq]
  split
  · rename_i h
    simp [h.1]
  rename_i h
  refine ⟨Or.inl, ?_⟩
  rintro (hk | ⟨rfl, hj⟩)
  · exact hk
  · exact not_not.1 fun hk => h ⟨hj, hk⟩

lemma attachedOf_detachKey (h : NodupKeys m) (id : Nat) (key : Key) (j : Nat) :
    attachedOf (detachKey m id key) j =
      (attachedOf m j).map fun keys => { k ∈ keys | ¬ (k = key ∧ j = id) } := by
  unfold attachedOf
  rw [find_detachKey, Option.map_map]
  cases hfind : m.find j with
  | none => rfl
  | some keys =>
    refine congrArg some (Set.ext fun k => ?_)
    simp only [comp_apply, Set.mem_ofPred_eq]
    split
    · rename_i hj
      rw [(h j keys hfind).mem_erase_iff]
      tauto
    rename_i hj
    tauto

lemma isSome_attachedOf : (attachedOf m id).isSome = (m.find id).isSome := isSome_map

lemma Stored.attachKey (h : Stored m d) (id : Nat) (key : Key) :
    Stored (attachKey m id key) d := fun j => by
  rw [find_attachKey, isSome_map]
  exact h j

lemma Stored.detachKey (h : Stored m d) (id : Nat) (key : Key) :
    Stored (detachKey m id key) d := fun j => by
  rw [find_detachKey, isSome_map]
  exact h j

lemma Stored.same {d' : Disk} (h : Stored m d) (hsame : SameMeta d d') : Stored m d' :=
  fun j => by
    rw [hsame.2.1]
    exact h j

end

/-! ## Puts and deletions -/

section

variable {w : World} {key : Key} {j : Nat} {o : Option (Set Key)} {q p : Key → Prop}
  {P : Leases → Prop} {m : Leases} {r : Revision × Store × Disk}

lemma leased_iff_leaseOf : (abs w).Leased key j ↔ leaseOf w.store key = j ∧ 0 < j := by
  unfold Abs.Leased leaseOf abs
  dsimp only
  cases w.store.index.find key with
  | none =>
    refine ⟨?_, fun h => ?_⟩
    · rintro ⟨kg, hkg, _⟩
      cases hkg
    · exact absurd (Int.ofNat.inj h.1) h.2.ne
  | some kg => simp

lemma map_sep_eq_self (h : ∀ k, ¬ q k) : (o.map fun keys => { k ∈ keys | ¬ q k }) = o := by
  cases o with
  | none => rfl
  | some keys => exact congrArg some (Set.ext fun k => and_iff_left (h k))

lemma map_sep_congr {q' : Key → Prop} (h : ∀ k, q k ↔ q' k) :
    (o.map fun keys => { k ∈ keys | ¬ q k }) = o.map fun keys => { k ∈ keys | ¬ q' k } := by
  rw [show q = q' from funext fun k => propext (h k)]

lemma attachedOf_detachOld (h : Sound w) (leaseId : Int) (j : Nat) :
    attachedOf (if 0 < leaseOf w.store key ∧ leaseOf w.store key ≠ leaseId then
        detachKey w.leases (leaseOf w.store key).toNat key else w.leases) j =
      ((abs w).leases j).map fun keys =>
        { k ∈ keys | ¬ (k = key ∧ (abs w).Leased key j ∧ leaseId ≠ j) } := by
  split
  · rename_i hold
    rw [attachedOf_detachKey h.nodup]
    refine map_sep_congr fun k => and_congr_right fun _ => ?_
    rw [leased_iff_leaseOf]
    omega
  rename_i hold
  refine (map_sep_eq_self fun k hk => hold ?_).symm
  have hlease := leased_iff_leaseOf.1 hk.2.1
  have hne := hk.2.2
  omega

lemma attachedOf_leaseAfterPut (h : Sound w) (leaseId : Int) :
    attachedOf (leaseAfterPut w.leases key (leaseOf w.store key) leaseId) =
      (abs w).afterPut key leaseId := by
  funext j
  have hold := @attachedOf_detachOld _ key h leaseId j
  unfold leaseAfterPut Abs.afterPut
  dsimp only
  split
  · rename_i hnew
    rw [attachedOf_attachKey, hold, Option.map_map]
    refine congrArg (Option.map · _) (funext fun keys => Set.ext fun k => ?_)
    simp only [comp_apply, Set.mem_ofPred_eq]
    have hid : j = leaseId.toNat ↔ leaseId = j ∧ 0 < j := by omega
    rw [hid]
  rename_i hnew
  rw [hold]
  refine congrArg (Option.map · _) (funext fun keys => Set.ext fun k => ?_)
  simp only [Set.mem_ofPred_eq]
  refine ⟨Or.inl, ?_⟩
  rintro (hk | ⟨_, hj, hpos⟩)
  · exact hk
  · omega

lemma leaseAfterPut_keeps (hattach : ∀ m id, P m → P (attachKey m id key))
    (hdetach : ∀ m id, P m → P (detachKey m id key)) (h : P m) (old new : Int) :
    P (leaseAfterPut m key old new) := by
  have hold : P (if 0 < old ∧ old ≠ new then detachKey m old.toNat key else m) := by
    split
    · exact hdetach m _ h
    · exact h
  unfold leaseAfterPut
  dsimp only
  split
  · exact hattach _ _ hold
  · exact hold

lemma simulates_refused {op : Op} (h : Sound w) (hexec : (abs w).exec op = abs w)
    (hrefuses : (abs w).Refuses op) : Simulates w op (-1, w) :=
  ⟨h, hexec.symm, iff_of_false (Int.negSucc_ne_zero 0) (not_not.2 hrefuses), rfl⟩

lemma simulates_put (h : Sound w) (key : Key) (value : Bytes) (leaseId : Int) :
    Simulates w (.put key value leaseId) (applyPut w key value leaseId) := by
  unfold applyPut
  by_cases hkey : key = []
  · rw [if_pos hkey]
    exact simulates_refused h (if_pos hkey) (decide_eq_true hkey)
  rw [if_neg hkey]
  rcases mvccPut_spec h.backed key value leaseId with
    ⟨s', d', heq, hindex, hmain, hbacked, hsame⟩
  dsimp only
  rw [heq]
  dsimp only
  rw [if_neg (Nat.succ_ne_zero _)]
  have hnodup : NodupKeys (leaseAfterPut w.leases key (leaseOf w.store key) leaseId) :=
    leaseAfterPut_keeps (fun _ id hm => hm.attachKey id key) (fun _ id hm => hm.detachKey id key)
      h.nodup _ _
  have hstored : Stored (leaseAfterPut w.leases key (leaseOf w.store key) leaseId) d' :=
    leaseAfterPut_keeps (P := fun m => Stored m d') (fun _ id hm => hm.attachKey id key)
      (fun _ id hm => hm.detachKey id key) (h.stored.same hsame) _ _
  refine ⟨⟨hbacked, hnodup, hstored, ?_⟩, ?_, ?_, hsame.1⟩
  · change s'.index.find [] = none
    rw [hindex, find_insert, if_neg (Ne.symm hkey)]
    exact h.nonempty
  · change _ = if key = [] then abs w else (abs w).put key value leaseId
    rw [if_neg hkey]
    exact Abs.ext hindex hmain (attachedOf_leaseAfterPut h leaseId)
  refine iff_of_true rfl ?_
  simpa [Abs.Refuses, Op.refused] using hkey

lemma drop_of_deleted (h : Deleted p w.store w.disk r) :
    r.2.1.index = ((abs w).drop p).index ∧ r.2.1.mainRev = ((abs w).drop p).mainRev := by
  constructor
  · refine ext_find fun k => ?_
    ext kg
    rw [find_drop, h.index]
    rfl
  have hiff : (∃ k, p k ∧ (abs w).Live k) ↔ ∃ k kg, p k ∧ w.store.index.find k = some kg :=
    exists_congr fun k => exists_and_left.symm
  unfold Abs.drop
  dsimp only
  rw [hiff]
  split
  · rename_i hhit
    exact (h.hit hhit).1
  rename_i hmiss
  exact (h.miss hmiss).1

lemma Sound.of_deleted (h : Sound w) (hr : Deleted p w.store w.disk r) (hnodup : NodupKeys m)
    (hstored : Stored m w.disk) : Sound ⟨r.2.1, m, r.2.2⟩ := by
  refine ⟨hr.backed, hnodup, hstored.same hr.same, eq_none_iff_forall_ne_some.2 ?_⟩
  intro kg hkg
  have hfind := ((hr.index [] kg).1 hkg).1
  rw [h.nonempty] at hfind
  cases hfind

lemma abs_of_deleted (h : Deleted p w.store w.disk r)
    (hleases : ∀ j, attachedOf m j = (attachedOf w.leases j).map fun keys => { k ∈ keys | ¬ (p k ∧ (abs w).Leased k j) }) :
    abs ⟨r.2.1, m, r.2.2⟩ = (abs w).remove p :=
  Abs.ext (drop_of_deleted h).1 (drop_of_deleted h).2 (funext hleases)

lemma leaseOf_pos (h : 0 < leaseOf w.store key) : ∃ kg, w.store.index.find key = some kg := by
  unfold leaseOf at h
  cases hfind : w.store.index.find key with
  | none =>
    rw [hfind] at h
    exact absurd h (lt_irrefl 0)
  | some kg => exact ⟨kg, rfl⟩

lemma applyDeleteOne_spec (h : Sound w) (hkey : key ≠ []) :
    (applyDeleteOne w key).1 = 0 ∧ Sound (applyDeleteOne w key).2 ∧
      abs (applyDeleteOne w key).2 = (abs w).remove (· = key) ∧
      (applyDeleteOne w key).2.disk.be.applied = w.disk.be.applied := by
  have hdel := mvccDelete_deleted h.backed key
  have hhit : (mvccDelete w.store w.disk key).1.main ≠ 0 ∧ 0 < leaseOf w.store key ↔
      0 < leaseOf w.store key := by
    refine and_iff_right_of_imp fun hpos => ?_
    obtain ⟨kg, hkg⟩ := leaseOf_pos hpos
    exact (hdel.hit ⟨key, kg, rfl, hkg⟩).2
  unfold applyDeleteOne
  rw [if_neg hkey]
  dsimp only
  simp only [hhit]
  refine ⟨trivial, h.of_deleted hdel ?_ ?_, abs_of_deleted hdel fun j => ?_, hdel.same.1⟩
  · split
    · exact h.nodup.detachKey _ _
    · exact h.nodup
  · split
    · exact h.stored.detachKey _ _
    · exact h.stored
  split
  · rename_i hpos
    rw [attachedOf_detachKey h.nodup]
    refine map_sep_congr fun k => and_congr_right fun hk => ?_
    rw [hk, leased_iff_leaseOf]
    omega
  rename_i hpos
  refine (map_sep_eq_self fun k hk => hpos ?_).symm
  have hlease := leased_iff_leaseOf.1 hk.2
  rw [hk.1] at hlease
  omega

lemma simulates_delete (h : Sound w) (key : Key) :
    Simulates w (.delete key) (applyDeleteOne w key) := by
  by_cases hkey : key = []
  · have heq : applyDeleteOne w key = (-1, w) := if_pos hkey
    rw [heq]
    exact simulates_refused h (if_pos hkey) (decide_eq_true hkey)
  obtain ⟨hcode, hsound, habs, happlied⟩ := applyDeleteOne_spec h hkey
  refine ⟨hsound, habs.trans (if_neg hkey).symm, iff_of_true hcode ?_, happlied⟩
  simpa [Abs.Refuses, Op.refused] using hkey

/-! ## Ranges -/

lemma mem_mvccRange {lo hi : Key} {e : Key × KeyGeneration} : e ∈ mvccRange w.store lo hi ↔
      w.store.index.find e.1 = some e.2 ∧ inRange lo (openEnd hi) e.1 := by
  unfold mvccRange
  rw [mem_filter, find_eq_some]

lemma detachAll_keeps (hdetach : ∀ m id key, P m → P (detachKey m id key)) (h : P m)
    (kvs : List (Key × KeyGeneration)) : P (detachAll m kvs) := by
  unfold detachAll
  refine foldlRecOn kvs _ h fun m hm e _ => ?_
  split
  · exact hdetach _ _ _ hm
  · exact hm

lemma attachedOf_detachAll (h : NodupKeys m) (kvs : List (Key × KeyGeneration)) (j : Nat) :
    attachedOf (detachAll m kvs) j = (attachedOf m j).map fun keys =>
        { k ∈ keys | ¬ ∃ e ∈ kvs, e.1 = k ∧ e.2.leaseId = j ∧ 0 < j } := by
  unfold detachAll
  induction kvs generalizing m with
  | nil => exact (map_sep_eq_self fun k hk => by simp at hk).symm
  | cons e kvs ih =>
    rw [foldl_cons]
    split
    · rename_i hpos
      rw [ih (h.detachKey _ _), attachedOf_detachKey h, Option.map_map]
      refine congrArg (Option.map · _) (funext fun keys => Set.ext fun k => ?_)
      simp only [comp_apply, Set.mem_ofPred_eq, exists_mem_cons_iff]
      have hid : (k = e.1 ∧ j = e.2.leaseId.toNat) ↔ (e.1 = k ∧ e.2.leaseId = j ∧ 0 < j) := by
        rw [eq_comm]
        exact and_congr_right fun _ => by omega
      rw [hid, not_or, and_assoc]
    rename_i hpos
    rw [ih h]
    refine map_sep_congr fun k => ?_
    rw [exists_mem_cons_iff]
    refine (or_iff_right fun hk => hpos ?_).symm
    omega

lemma deleted_range (h : Sound w) (key rangeEnd : Key) :
    Deleted (fun k => inRange key (openEnd rangeEnd) k) w.store w.disk
      (mvccDeleteKeys w.store w.disk ((mvccRange w.store key rangeEnd).map Prod.fst)) := by
  have hnodup : ((mvccRange w.store key rangeEnd).map Prod.fst).Nodup :=
    w.store.index.nodup_keys.sublist (filter_sublist.map _)
  refine (mvccDeleteKeys_deleted h.backed hnodup).congr fun k kg hkg => ⟨?_, fun hk => ⟨?_, ?_⟩⟩
  · rintro ⟨_, hmem⟩
    obtain ⟨e, he, rfl⟩ := mem_map.1 hmem
    exact (mem_mvccRange.1 he).2
  · rintro rfl
    rw [h.nonempty] at hkg
    cases hkg
  · exact mem_map.2 ⟨(k, kg), mem_mvccRange.2 ⟨hkg, hk⟩, rfl⟩

lemma simulates_deleteRange (h : Sound w) (key rangeEnd : Key) :
    Simulates w (.deleteRange key rangeEnd) (applyDeleteRange w key rangeEnd) := by
  unfold applyDeleteRange
  by_cases hkey : key = []
  · rw [if_pos hkey]
    exact simulates_refused h (if_pos hkey) (decide_eq_true hkey)
  have haccepts : ¬ (abs w).Refuses (.deleteRange key rangeEnd) := by
    simpa [Abs.Refuses, Op.refused] using hkey
  rw [if_neg hkey]
  by_cases hend : rangeEnd = []
  · rw [if_pos hend]
    obtain ⟨hcode, hsound, habs, happlied⟩ := applyDeleteOne_spec h hkey
    refine ⟨hsound, habs.trans ?_, iff_of_true hcode haccepts, happlied⟩
    simp only [Abs.exec, if_neg hkey, if_pos hend]
  rw [if_neg hend]
  have hexec : (abs w).exec (.deleteRange key rangeEnd) =
      (abs w).remove fun k => inRange key (openEnd rangeEnd) k = true := by
    simp only [Abs.exec, if_neg hkey, if_neg hend]
  by_cases hnone : mvccRange w.store key rangeEnd = []
  · -- no key in the range
    have hmiss : ¬ ∃ k kg, inRange key (openEnd rangeEnd) k ∧ w.store.index.find k = some kg := by
      rintro ⟨k, kg, hk, hkg⟩
      have hmem := (@mem_mvccRange w key rangeEnd (k, kg)).2 ⟨hkg, hk⟩
      rw [hnone] at hmem
      cases hmem
    rw [if_pos hnone]
    refine ⟨h, ?_, iff_of_true rfl haccepts, rfl⟩
    rw [hexec]
    refine abs_of_deleted (deleted_nothing h.backed hmiss) fun j => (map_sep_eq_self ?_).symm
    rintro k ⟨hk, kg, hkg, _⟩
    exact hmiss ⟨k, kg, hk, hkg⟩
  have hdel := deleted_range h key rangeEnd
  have hmain : (mvccDeleteKeys w.store w.disk
      ((mvccRange w.store key rangeEnd).map Prod.fst)).1.main ≠ 0 := by
    obtain ⟨e, he⟩ := exists_mem_of_ne_nil _ hnone
    rw [mem_mvccRange] at he
    exact (hdel.hit ⟨e.1, e.2, he.2, he.1⟩).2
  rw [if_neg hnone]
  dsimp only
  rw [if_pos hmain]
  refine ⟨h.of_deleted hdel (detachAll_keeps (fun _ id key hm => hm.detachKey id key) h.nodup _)
    (detachAll_keeps (P := fun m => Stored m w.disk) (fun _ id key hm => hm.detachKey id key)
      h.stored _), ?_, iff_of_true rfl haccepts, hdel.same.1⟩
  rw [hexec]
  refine abs_of_deleted hdel fun j => ?_
  rw [attachedOf_detachAll h.nodup]
  refine map_sep_congr fun k => ⟨?_, ?_⟩
  · rintro ⟨e, he, rfl, hlease, hj⟩
    rw [mem_mvccRange] at he
    exact ⟨he.2, e.2, he.1, hlease, hj⟩
  rintro ⟨hk, kg, hkg, hlease, hj⟩
  exact ⟨(k, kg), mem_mvccRange.2 ⟨hkg, hk⟩, rfl, hlease, hj⟩

end

/-! ## Lease operations and compaction -/

section

variable {w : World} {op : Op} {id : Nat}

lemma mem_leaseKeys {m : Leases} {k : Key} :
    k ∈ leaseKeys m id ↔ ∃ keys, attachedOf m id = some keys ∧ k ∈ keys := by
  unfold leaseKeys attachedOf
  cases m.find id with
  | none | some keys => simp

lemma revokeKeys_spec (h : Sound w) (id : Nat) :
    Sound (revokeKeys w id) ∧ abs (revokeKeys w id) = (abs w).dropAttached id ∧
      (revokeKeys w id).disk.be.applied = w.disk.be.applied := by
  have hnodup : (leaseKeys w.leases id).Nodup := by
    unfold leaseKeys
    cases hfind : w.leases.find id with
    | none => exact nodup_nil
    | some keys => exact h.nodup id keys hfind
  have hdel : Deleted (fun k => k ≠ [] ∧ ∃ keys, (abs w).leases id = some keys ∧ k ∈ keys) w.store
      w.disk (mvccDeleteKeys w.store w.disk (leaseKeys w.leases id)) := by
    refine (mvccDeleteKeys_deleted h.backed hnodup).congr fun k kg _ => and_congr_right fun _ => ?_
    exact mem_leaseKeys
  refine ⟨h.of_deleted hdel h.nodup h.stored, ?_, hdel.same.1⟩
  exact Abs.ext (drop_of_deleted hdel).1 (drop_of_deleted hdel).2 rfl

lemma leaseExists_iff : leaseExists w.leases id ↔ (abs w).Has id := by
  unfold leaseExists Abs.Has abs
  dsimp only
  rw [← isSome_attachedOf, isSome_iff_ne_none]

lemma attachedOf_erase (m : Leases) (id j : Nat) :
    attachedOf (m.erase id) j = if j = id then none else attachedOf m j := by
  unfold attachedOf
  rw [find_erase]
  split <;> rfl

lemma attachedOf_insert (m : Leases) (id j : Nat) :
    attachedOf (m.insert id []) j = if j = id then some ∅ else attachedOf m j := by
  unfold attachedOf
  rw [find_insert]
  split
  · exact congrArg some (Set.ext fun k => by simp)
  · rfl

lemma simulates_leaseRevoke (h : Sound w) (id : Nat) :
    Simulates w (.leaseRevoke id) (applyLeaseRevoke w id) := by
  obtain ⟨hsound, habs, happlied⟩ := revokeKeys_spec h id
  generalize hw1 : revokeKeys w id = w1 at hsound habs happlied
  have haccepts : ¬ (abs w).Refuses (.leaseRevoke id) := by simp [Abs.Refuses, Op.refused]
  have hexec : (abs w).exec (.leaseRevoke id) = (abs w1).endLease id :=
    congrArg (Abs.endLease · id) habs.symm
  unfold applyLeaseRevoke leaseRevoke
  dsimp only
  rw [hw1]
  by_cases hexists : leaseExists w1.leases id = true
  · have hrecord : (w1.disk.be.leases.find id).isSome := (hsound.stored id).trans hexists
    rw [if_pos ⟨hexists, hrecord⟩, hsound.backed.reliable.write]
    refine ⟨⟨⟨hsound.backed.reliable, hsound.backed.keys, hsound.backed.revision,
      hsound.backed.bound⟩, fun j keys hj => ?_, fun j => ?_, hsound.nonempty⟩, ?_,
      iff_of_true rfl haccepts, happlied⟩
    · dsimp only at hj
      rw [find_erase] at hj
      split at hj
      · cases hj
      · exact hsound.nodup j keys hj
    · dsimp only
      rw [find_erase, find_erase]
      split
      · rfl
      · exact hsound.stored j
    rw [hexec]
    exact Abs.ext rfl rfl (funext fun j => attachedOf_erase w1.leases id j)
  rw [if_neg fun h => hexists h.1]
  refine ⟨hsound, ?_, iff_of_true rfl haccepts, happlied⟩
  rw [leaseExists_iff, Abs.Has, not_not] at hexists
  rw [hexec]
  refine Abs.ext rfl rfl (funext fun j => ?_)
  change (abs w1).leases j = if j = id then none else (abs w1).leases j
  split
  · rename_i hj
    rw [hj, hexists]
  · rfl

lemma simulates_leaseGrant (h : Sound w) (id : Nat) (ttl : Int) :
    Simulates w (.leaseGrant id ttl) (applyLeaseGrant w id ttl) := by
  unfold applyLeaseGrant
  by_cases hexists : leaseExists w.leases id = true
  · rw [if_pos hexists]
    rw [leaseExists_iff] at hexists
    refine ⟨h, ?_, iff_of_true rfl fun hrefuses => hrefuses.2 hexists, rfl⟩
    simp only [Abs.exec]
    split
    · rfl
    refine Abs.ext rfl rfl (funext fun j => ?_)
    exact (if_neg fun hj => hexists hj.2).symm
  rw [if_neg hexists]
  unfold leaseGrantId
  by_cases hbad : id = 0 ∨ ttl ≤ 0 ∨ maxLeaseTtl < ttl
  · have hbad' : id = 0 ∨ ttl ≤ 0 ∨ maxLeaseTtl < ttl ∨ leaseExists w.leases id := by
      tauto
    rw [if_pos hbad']
    rw [leaseExists_iff] at hexists
    exact simulates_refused h (if_pos hbad) ⟨hbad, hexists⟩
  have hgood : ¬ (id = 0 ∨ ttl ≤ 0 ∨ maxLeaseTtl < ttl ∨ leaseExists w.leases id) := by
    tauto
  rw [if_neg hgood, h.backed.reliable.write]
  refine ⟨⟨⟨h.backed.reliable, h.backed.keys, h.backed.revision, h.backed.bound⟩,
    fun j keys hj => ?_, fun j => ?_, h.nonempty⟩, ?_,
    iff_of_true rfl fun hrefuses => hbad hrefuses.1, rfl⟩
  · dsimp only at hj
    rw [find_insert] at hj
    split at hj
    · rw [← some.inj hj]
      exact nodup_nil
    · exact h.nodup j keys hj
  · dsimp only
    rw [find_insert, find_insert]
    split
    · rfl
    · exact h.stored j
  rw [leaseExists_iff, Abs.Has, not_not] at hexists
  simp only [Abs.exec, if_neg hbad]
  refine Abs.ext rfl rfl (funext fun j => (attachedOf_insert w.leases id j).trans ?_)
  change _ = if j = id ∧ (abs w).leases id = none then some ∅ else (abs w).leases j
  simp only [hexists, and_true]
  rfl

lemma simulates_quiet {be : Backend} {s : Store} (h : Sound w) (hexec : (abs w).exec op = abs w)
    (haccepts : ¬ (abs w).Refuses op) (hindex : s.index = w.store.index)
    (hmain : s.mainRev = w.store.mainRev) (hkeys : be.keys = w.disk.be.keys)
    (hrev : be.revision = w.disk.be.revision) (happlied : be.applied = w.disk.be.applied)
    (hleases : be.leases = w.disk.be.leases) :
    Simulates w op (0, ⟨s, w.leases, { w.disk with be := be }⟩) where
  sound :=
    { backed :=
        { reliable := h.backed.reliable
          keys := hkeys.trans (h.backed.keys.trans hindex.symm)
          revision := by rw [hrev, hmain]; exact h.backed.revision
          bound := fun k kg hk => by
            rw [hmain]
            exact h.backed.bound k kg (hindex ▸ hk) }
      nodup := h.nodup
      stored := fun j => by
        rw [hleases]
        exact h.stored j
      nonempty := by rw [hindex]; exact h.nonempty }
  abs_eq := by
    rw [hexec]
    exact Abs.ext hindex hmain rfl
  code := iff_of_true rfl haccepts
  applied := happlied

lemma simulates_leaseKeepalive (h : Sound w) (id : Nat) (ttl : Int) :
    Simulates w (.leaseKeepalive id ttl) (applyLeaseKeepalive w id) := by
  have haccepts : ¬ (abs w).Refuses (.leaseKeepalive id ttl) := by simp [Abs.Refuses, Op.refused]
  unfold applyLeaseKeepalive leaseKeepAlive
  split
  · rw [h.backed.reliable.write]
    exact simulates_quiet h rfl haccepts rfl rfl rfl rfl rfl rfl
  · exact simulates_quiet h rfl haccepts rfl rfl rfl rfl rfl rfl

lemma simulates_compact (h : Sound w) (rev : Nat) :
    Simulates w (.compact rev) (applyCompact w rev) := by
  unfold applyCompact mvccCompact
  by_cases hzero : rev = 0
  · rw [if_pos hzero]
    exact simulates_refused h rfl (Or.inl hzero)
  rw [if_neg hzero]
  by_cases hfuture : w.store.mainRev < rev
  · rw [if_pos hfuture]
    exact simulates_refused h rfl (Or.inr hfuture)
  rw [if_neg hfuture]
  have haccepts : ¬ (abs w).Refuses (.compact rev) := by
    rintro (h' | h')
    · exact hzero h'
    · exact hfuture h'
  by_cases hdone : 0 < w.store.compactedRev ∧ rev ≤ w.store.compactedRev
  · rw [if_pos hdone]
    have hrange : (CompactResult.range = .ok ∨
        (CompactResult.range = .range ∧ rev ≤ w.store.compactedRev)) := Or.inr ⟨rfl, hdone.2⟩
    dsimp only
    rw [if_pos hrange]
    exact simulates_quiet h rfl haccepts rfl rfl rfl rfl rfl rfl
  rw [if_neg hdone, h.backed.reliable.write]
  dsimp only
  rw [if_pos (Or.inl rfl)]
  exact simulates_quiet h rfl haccepts rfl rfl rfl rfl rfl rfl

lemma simulates_exec (h : Sound w) (op : Op) : Simulates w op (exec w op) := by
  cases op with
  | put key value leaseId => exact simulates_put h key value leaseId
  | delete key => exact simulates_delete h key
  | deleteRange key rangeEnd => exact simulates_deleteRange h key rangeEnd
  | leaseRevoke id => exact simulates_leaseRevoke h id
  | leaseGrant id ttl => exact simulates_leaseGrant h id ttl
  | leaseKeepalive id ttl => exact simulates_leaseKeepalive h id ttl
  | compact rev => exact simulates_compact h rev
  | other accepted =>
    cases accepted with
    | true =>
      exact simulates_quiet h rfl (by simp [Abs.Refuses, Op.refused]) rfl rfl rfl rfl rfl rfl
    | false => exact simulates_refused h rfl rfl
  | bad => exact simulates_refused h rfl rfl

end

/-! ## Start -/

section

variable {w : World} {m : Leases} {d : Disk} {e : Key × KeyGeneration} {ids : Nat → Prop}

/-- To each lease are attached, once, the keys among `es` that name it. -/
structure Indexed (ids : Nat → Prop) (es : List (Key × KeyGeneration)) (m : Leases) : Prop where
  nodup : NodupKeys m
  some_iff : ∀ id, (m.find id).isSome = true ↔ ids id
  mem : ∀ id keys, m.find id = some keys →
    ∀ k, k ∈ keys ↔ ∃ e ∈ es, e.1 = k ∧ e.2.leaseId = id ∧ 0 < id

lemma Indexed.reindexKey {es : List (Key × KeyGeneration)} (h : Indexed ids es m) (b : Bool)
    (he : 0 < e.2.leaseId → ids e.2.leaseId.toNat) :
    ∃ m', reindexKey b (m, d) e = (m', d) ∧ Indexed ids (es ++ [e]) m' := by
  unfold Lease.reindexKey
  dsimp only
  by_cases hpos : e.2.leaseId ≤ 0
  · rw [if_pos hpos]
    refine ⟨m, rfl, h.nodup, h.some_iff, fun id keys hkeys k => ?_⟩
    rw [h.mem id keys hkeys k]
    simp only [mem_append, mem_singleton, or_and_right, exists_or, exists_eq_left]
    refine (or_iff_left ?_).symm
    rintro ⟨_, hid, hlt⟩
    omega
  rw [if_neg hpos]
  have hexists : leaseExists m e.2.leaseId.toNat :=
    (h.some_iff _).2 (he (not_le.1 hpos))
  rw [if_pos hexists]
  refine ⟨_, rfl, h.nodup.attachKey _ _, fun id => ?_, fun id keys hkeys k => ?_⟩
  · rw [find_attachKey, isSome_map]
    exact h.some_iff id
  rw [find_attachKey, map_eq_some_iff] at hkeys
  obtain ⟨old, hold, rfl⟩ := hkeys
  have hid : e.2.leaseId = id ∧ 0 < id ↔ id = e.2.leaseId.toNat := by omega
  simp only [mem_append, mem_singleton, or_and_right, exists_or, exists_eq_left]
  rw [← h.mem id old hold k, hid]
  split
  · rename_i hnew
    rw [mem_append, mem_singleton]
    simp [hnew.1, eq_comm]
  rename_i hnew
  refine (or_iff_left_of_imp ?_).symm
  rintro ⟨rfl, hid'⟩
  exact not_not.1 fun hk => hnew ⟨hid', hk⟩

lemma Indexed.foldl_reindexKey {es rest : List (Key × KeyGeneration)} (h : Indexed ids es m)
    (b : Bool) (hrest : ∀ e ∈ rest, 0 < e.2.leaseId → ids e.2.leaseId.toNat) :
    ∃ m', rest.foldl (Lease.reindexKey b) (m, d) = (m', d) ∧ Indexed ids (es ++ rest) m' := by
  induction rest generalizing m es with
  | nil => exact ⟨m, rfl, (append_nil es).symm ▸ h⟩
  | cons e rest ih =>
    rw [forall_mem_cons] at hrest
    obtain ⟨m1, heq, h1⟩ := @Indexed.reindexKey m d e ids es h b hrest.1
    obtain ⟨m', heq', h'⟩ := ih h1 hrest.2
    refine ⟨m', ?_, ?_⟩
    · rw [foldl_cons, heq, heq']
    rw [append_assoc] at h'
    exact h'

lemma indexed_leaseLoad (be : Backend) :
    Indexed (fun id => (be.leases.find id).isSome) [] (leaseLoad be) := by
  have hfind : ∀ id, (leaseLoad be).find id = (be.leases.find id).map fun _ => [] :=
    fun id => find_map _ _ _
  refine ⟨fun id keys hkeys => ?_, fun id => ?_, fun id keys hkeys k => ?_⟩
  · rw [hfind, map_eq_some_iff] at hkeys
    obtain ⟨_, _, rfl⟩ := hkeys
    exact nodup_nil
  · rw [hfind, isSome_map]
  rw [hfind, map_eq_some_iff] at hkeys
  obtain ⟨_, _, rfl⟩ := hkeys
  simp

lemma reload_spec (h : Sound w) (hlease : ∀ k id, (abs w).Leased k id → (abs w).Has id) :
    Sound (reload w) ∧ abs (reload w) = (abs w).restart ∧ (reload w).disk = w.disk := by
  obtain ⟨hindex, hmain, hbacked⟩ := h.backed.load
  have hids : ∀ id, (w.disk.be.leases.find id).isSome ↔ (abs w).Has id := by
    intro id
    rw [h.stored id]
    exact leaseExists_iff
  have hnamed : ∀ e ∈ (mvccLoad w.disk.be).index.entries, 0 < e.2.leaseId →
      (w.disk.be.leases.find e.2.leaseId.toNat).isSome = true := by
    intro e he hpos
    rw [hids]
    refine hlease e.1 _ ⟨e.2, ?_, by omega, by omega⟩
    rw [← find_eq_some, hindex] at he
    exact he
  rcases @Indexed.foldl_reindexKey _ w.disk _ _ _ (indexed_leaseLoad w.disk.be)
    w.disk.be.haveBucket hnamed with ⟨m, heq, hm⟩
  have hreload : reload w = ⟨mvccLoad w.disk.be, m, w.disk⟩ := by
    unfold reload reindexFromStore
    dsimp only
    rw [heq]
  rw [hreload]
  refine ⟨⟨hbacked, hm.nodup, fun id => ?_, ?_⟩, Abs.ext hindex hmain (funext fun id => ?_), rfl⟩
  · exact (Bool.eq_iff_iff.2 (hm.some_iff id)).symm
  · exact (congrArg (OrdMap.find · []) hindex).trans h.nonempty
  change attachedOf m id = _
  unfold attachedOf
  cases hfind : m.find id with
  | none =>
    have hnot : ¬ (abs w).Has id := by
      rw [← hids, ← hm.some_iff, hfind]
      exact Bool.false_ne_true
    refine (restart_leases_neg ?_).symm
    rintro (hhas | ⟨k, hk⟩)
    · exact hnot hhas
    · exact hnot (hlease k id hk)
  | some keys =>
    have hhas : (abs w).Has id := by
      rw [← hids, ← hm.some_iff, hfind]
      rfl
    rw [restart_leases_pos hhas]
    refine congrArg some (Set.ext fun k => (hm.mem id keys hfind k).trans ⟨?_, ?_⟩)
    · rintro ⟨e, he, rfl, hid⟩
      rw [nil_append, ← find_eq_some, hindex] at he
      exact ⟨e.2, he, hid⟩
    rintro ⟨kg, hkg, hid⟩
    refine ⟨(k, kg), ?_, rfl, hid⟩
    rw [nil_append, ← find_eq_some, hindex]
    exact hkg

end

end Cetcd.Apply
