import Cetcd.Lease.Clock

/-!
# Leases that are due

`cetcd_lease_mgr_tick` with a backend that fails for missing keys only, and the calls it makes.
`cetcd_backend_del` reports a missing key as it reports any failure, so a lease without a record in
the bucket is never removed. The leases that stay are those that the loop of a node keeps.
-/

namespace Cetcd.Lease

open Lib Apply List

inductive Rc
  | ok
  | notFound
  | io
  deriving DecidableEq

/-- `cetcd_lease`. -/
structure Timed where
  id : Nat
  deadline : Int
  keys : List (List UInt8) := []
  deriving DecidableEq

/-- `cetcd_lease_mgr`; the bucket holds the ids that have a record, if there is a backend. -/
structure Mgr where
  leases : List Timed := []
  now : Int := 0
  bucket : Option (List Nat)

/-- `_lmdb_error`. -/
def lmdbError (success : Bool) : Rc := if success then .ok else .io

/-- `cetcd_backend_del` in the bucket of the leases. -/
def backendDel (bucket : List Nat) (id : Nat) : Rc × List Nat :=
  (lmdbError (id ∈ bucket), bucket.filter (· ≠ id))

/-- `persist_del_`. -/
def persistDel (bucket : Option (List Nat)) (id : Nat) : Rc × Option (List Nat) :=
  match bucket with
  | none => (.ok, none)
  | some ids =>
    match backendDel ids id with
    | (rc, ids) => (if rc = .notFound then .ok else rc, some ids)

/-- The loop: the leases that stay, the bucket, and the calls of `on_expire`. -/
def tickLoop (now : Int) : List Timed → Option (List Nat) →
    List Timed × Option (List Nat) × List (Nat × List (List UInt8))
  | [], bucket => ([], bucket, [])
  | l :: ls, bucket =>
    if l.deadline ≤ now then
      match persistDel bucket l.id with
      | (.ok, bucket) =>
        match tickLoop now ls bucket with
        | (kept, bucket, calls) => (kept, bucket, (l.id, l.keys) :: calls)
      | (_, bucket) =>
        match tickLoop now ls bucket with
        | (kept, rest) => (l :: kept, rest)
    else
      match tickLoop now ls bucket with
      | (kept, rest) => (l :: kept, rest)

/-- `cetcd_lease_mgr_tick`. -/
def Mgr.tick (m : Mgr) (elapsed : Int) : Mgr × List (Nat × List (List UInt8)) :=
  if elapsed ≤ 0 then (m, [])
  else
    match tickLoop (m.now + elapsed) m.leases m.bucket with
    | (leases, bucket, calls) => (⟨leases, m.now + elapsed, bucket⟩, calls)

/-- `restore_`, by which `cetcd_lease_reindex_from_store` rebuilds a lease without a record. -/
def Mgr.restore (m : Mgr) (id : Nat) (remaining : Int) : Mgr :=
  if id = 0 ∨ m.leases.any fun l => l.id = id then m
  else { m with leases := m.leases ++ [{ id := id, deadline := m.now + max remaining 0 }] }

/-- After each tick no lease is due, and `on_expire` was called for those that are gone. -/
def AllExpire (m : Mgr) : List Int → Prop
  | [] => True
  | e :: es =>
    (∀ l ∈ (m.tick e).1.leases, (m.tick e).1.now < l.deadline) ∧
      (m.tick e).2 = (m.leases.filter (· ∉ (m.tick e).1.leases)).map (fun l => (l.id, l.keys)) ∧
      AllExpire (m.tick e).1 es

/-- Deleting the lease's record succeeds. -/
def recorded (bucket : Option (List Nat)) (id : Nat) : Bool := bucket.all fun ids => id ∈ ids

/-- At each tick every lease that is due has a record, and none is due if the tick does nothing. -/
def AllRecorded (m : Mgr) : List Int → Prop
  | [] => True
  | e :: es =>
    (∀ l ∈ m.leases, l.deadline ≤ m.now + max e 0 → 0 < e ∧ recorded m.bucket l.id) ∧
      AllRecorded (m.tick e).1 es

section

variable {now : Int} {bucket : Option (List Nat)} {ls : List Timed} {m : Mgr}

lemma persistDel_eq (id : Nat) : persistDel bucket id =
    (if recorded bucket id then .ok else .io, bucket.map (filter (· ≠ id))) := by
  cases bucket with
  | none => rfl
  | some ids =>
    by_cases h : id ∈ ids <;> simp [persistDel, backendDel, lmdbError, recorded, h]

lemma recorded_erase {i j : Nat} (h : i ≠ j) :
    recorded (bucket.map (filter (· ≠ j))) i = recorded bucket i := by
  cases bucket <;> simp [recorded, h]

def stays (now : Int) (bucket : Option (List Nat)) (l : Timed) : Bool :=
  now < l.deadline || !recorded bucket l.id

lemma tickLoop_eq (hnodup : (ls.map Timed.id).Nodup) :
    (tickLoop now ls bucket).1 = ls.filter (stays now bucket) ∧ (tickLoop now ls bucket).2.2 =
        (ls.filter fun l => !stays now bucket l).map fun l => (l.id, l.keys) := by
  induction ls generalizing bucket with
  | nil => exact ⟨rfl, rfl⟩
  | cons l ls ih =>
    rw [map_cons, nodup_cons] at hnodup
    unfold tickLoop
    by_cases hdue : l.deadline ≤ now
    · -- the records of the other leases are as they were
      have hsame : ∀ a ∈ ls, stays now (bucket.map (filter (· ≠ l.id))) a = stays now bucket a := by
        intro a ha
        have hne : a.id ≠ l.id := fun heq => hnodup.1 (heq ▸ mem_map_of_mem ha)
        unfold stays
        rw [recorded_erase hne]
      have hrest := @ih (bucket.map (filter (· ≠ l.id))) hnodup.2
      rw [filter_congr hsame, filter_congr fun a ha => congrArg not (hsame a ha)] at hrest
      have hl : stays now bucket l = !recorded bucket l.id := by simp [stays, hdue.not_gt]
      rw [if_pos hdue, persistDel_eq, filter_cons, filter_cons, hl]
      cases recorded bucket l.id with
      | true => exact ⟨hrest.1, congrArg _ hrest.2⟩
      | false => exact ⟨congrArg _ hrest.1, hrest.2⟩
    · have hl : stays now bucket l = true := by simp [stays, not_le.1 hdue]
      rw [if_neg hdue, filter_cons, filter_cons, hl]
      exact ⟨congrArg _ (ih hnodup.2).1, (ih hnodup.2).2⟩

lemma expireLoop_kept {w : World} {ds : List (Nat × Int)} (hdisk : w.disk.outcomes = [])
    (hnodup : (ds.map Prod.fst).Nodup) (outcomes : List Bool) :
    (expireLoop false now ds w outcomes).2 =
      ds.filter fun d => now < d.2 || (w.disk.be.leases.find d.1).isNone := by
  induction ds generalizing w with
  | nil => rfl
  | cons d ds ih =>
    obtain ⟨id, deadline⟩ := d
    rw [map_cons, nodup_cons] at hnodup
    unfold expireLoop
    by_cases hdue : deadline ≤ now
    · rw [if_pos hdue]
      unfold expireOne
      by_cases hrecord : w.disk.be.leases.find id = none
      · simp [hrecord, ih hdisk hnodup.2]
      · obtain ⟨store, leases, be, outs⟩ := w
        obtain rfl : outs = [] := hdisk
        simp only [if_neg hrecord, Mvcc.Disk.write, Bool.false_eq_true, if_false]
        rw [ih rfl hnodup.2, filter_cons, if_neg (by simpa [hdue.not_gt] using hrecord)]
        -- the records of the others are still there
        refine filter_congr fun d hd => ?_
        have hne : d.1 ≠ id := by
          rintro rfl
          exact hnodup.1 (mem_map.2 ⟨d, hd, rfl⟩)
        rw [OrdMap.find_erase, if_neg hne]
    · simp [hdue, not_le.1 hdue, ih hdisk hnodup.2]

/-- The manager inside a node that does not lead keeps the same leases. -/
lemma tickLoop_kept {w : World} {ds : List (Nat × Int)} (hdisk : w.disk.outcomes = [])
    (hnodup : (ds.map Prod.fst).Nodup) (outcomes : List Bool) :
    (tickLoop now (ds.map fun d => ⟨d.1, d.2, leaseKeys w.leases d.1⟩)
      (some (w.disk.be.leases.entries.map Prod.fst))).1.map (fun l => (l.id, l.deadline)) =
        (expireLoop false now ds w outcomes).2 := by
  rw [(tickLoop_eq (by simpa [Function.comp_def] using hnodup)).1, expireLoop_kept hdisk hnodup,
    filter_map, map_map]
  refine (congrArg _ (filter_congr fun d _ => ?_)).trans (map_id _)
  have hfind : (w.disk.be.leases.find d.1).isSome ↔ d.1 ∈ w.disk.be.leases.entries.map Prod.fst := by
    simp [Option.isSome_iff_exists, OrdMap.find_eq_some]
  simp [stays, recorded, ← hfind]

lemma tick_of_pos {e : Int} (he : 0 < e) (hnodup : (m.leases.map Timed.id).Nodup) :
    (m.tick e).1.leases = m.leases.filter (stays (m.now + e) m.bucket) ∧
      (m.tick e).1.now = m.now + e ∧
      (m.tick e).2 = (m.leases.filter fun l => !stays (m.now + e) m.bucket l).map
        fun l => (l.id, l.keys) := by
  unfold Mgr.tick
  rw [if_neg he.not_ge]
  exact ⟨(tickLoop_eq hnodup).1, rfl, (tickLoop_eq hnodup).2⟩

/-- One tick. -/
lemma tick_expires_iff {e : Int} (hnodup : (m.leases.map Timed.id).Nodup) :
    ((∀ l ∈ (m.tick e).1.leases, (m.tick e).1.now < l.deadline) ∧
      (m.tick e).2 = (m.leases.filter (· ∉ (m.tick e).1.leases)).map fun l => (l.id, l.keys)) ↔
    ∀ l ∈ m.leases, l.deadline ≤ m.now + max e 0 → 0 < e ∧ recorded m.bucket l.id := by
  by_cases he : 0 < e
  · obtain ⟨hleases, hnow, hcalls⟩ := tick_of_pos he hnodup
    rw [hleases, hnow, hcalls, max_eq_left he.le, and_iff_left]
    · simp only [mem_filter, stays, he, true_and, and_imp]
      refine forall₂_congr fun l _ => ?_
      by_cases hrec : recorded m.bucket l.id <;> simp [hrec]
    · refine congrArg _ (filter_congr fun l hl => ?_)
      simp [mem_filter, hl]
  · have htick : m.tick e = (m, []) := if_pos (not_lt.1 he)
    rw [htick, max_eq_right (not_lt.1 he), add_zero, and_iff_left]
    · exact forall₂_congr fun l _ => by simp [he]
    · simp

end

/-- Over any ticks of a manager: no lease that is due remains, and `on_expire` is called once for each
that is removed, if and only if each lease that comes due has its record. -/
theorem due_leases_expire_iff {m : Mgr} (hnodup : (m.leases.map Timed.id).Nodup) (es : List Int) :
    AllExpire m es ↔ AllRecorded m es := by
  induction es generalizing m with
  | nil => exact Iff.rfl
  | cons e es ih =>
    have hrest : ((m.tick e).1.leases.map Timed.id).Nodup := by
      by_cases he : 0 < e
      · rw [(tick_of_pos he hnodup).1]
        exact hnodup.sublist (filter_sublist.map _)
      · rwa [show m.tick e = (m, []) from if_pos (not_lt.1 he)]
    exact and_assoc.symm.trans (and_congr (tick_expires_iff hnodup) (ih hrest))

theorem due_leases_expire_two : AllExpire ⟨[⟨7, 500, [[97]]⟩, ⟨8, 5000, []⟩], 0, some [7, 8]⟩ [1000, 0] :=
  (due_leases_expire_iff (by decide) _).2 ⟨by decide, by decide, trivial⟩

/-- A lease that was rebuilt from the keys has no record: it is there after any ticks. -/
theorem rebuilt_lease_stays : ((({ bucket := some [] } : Mgr).restore 7 0).tick 1000).1.leases =
      [{ id := 7, deadline := 0 }] ∧
    ¬ AllExpire (({ bucket := some [] } : Mgr).restore 7 0) [1000] := by
  have hstays : ((({ bucket := some [] } : Mgr).restore 7 0).tick 1000).1.leases =
      [{ id := 7, deadline := 0 }] := by decide
  exact ⟨hstays, fun h => absurd (h.1 _ (hstays ▸ mem_singleton_self _)) (by decide)⟩

end Cetcd.Lease
