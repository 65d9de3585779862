import Cetcd.Apply.Once

/-!
# Leases and the keys that name them

A put attaches its key to the lease it names, if there is one; a deletion or another put detaches
it. So the keys of a lease are those that name it, unless a put names a lease before it is granted,
or names it by a negative number.
-/

namespace Cetcd.Apply

open Lib Mvcc Lease List Option

/-- The cast of a lease to `cetcd_lease_id`. -/
def leaseBits (leaseId : Int) : Nat :=
  if 0 ≤ leaseId then leaseId.toNat else (leaseId + 2 ^ 64).toNat

/-- The key is live and its value names the lease. -/
def CarriesLease (s : Store) (k : Key) (id : Nat) : Prop :=
  ∃ kg, s.index.find k = some kg ∧ leaseBits kg.leaseId = id

/-- To every lease are attached the keys that name it. -/
def Mirrors (w : World) : Prop :=
  ∀ id keys, w.leases.find id = some keys → ∀ k, k ∈ keys ↔ CarriesLease w.store k id

/-- A put names no lease or one that there is. -/
def NamesLease (w : World) : Op → Prop
  | .put key _ leaseId =>
    key = [] ∨ leaseId = 0 ∨ (0 < leaseId ∧ leaseExists w.leases leaseId.toNat = true)
  | _ => True

section

variable (accepts : Bytes → Bool) (ok : World → Op → Prop)

/-- The operations of an entry that are tried meet `ok`, each in its state. -/
def OpsMeet : World → List Op → Prop
  | _, [] => True
  | w, op :: ops => ok w op ∧ ((exec w op).1 = 0 → OpsMeet (exec w op).2 ops)

def EntriesMeet : World → List (List UInt8) → Prop
  | _, [] => True
  | w, data :: es =>
    OpsMeet ok w (decodeEntry accepts data) ∧ EntriesMeet (applyEntry accepts w data).2 es

def applyEntries (w : World) (es : List (List UInt8)) : World :=
  es.foldl (fun w data => (applyEntry accepts w data).2) w

variable {accepts ok} {w : World}

lemma OpsMeet.keeps {P : World → Prop} (hstep : ∀ w op, P w → ok w op → P (exec w op).2)
    {ops : List Op} (h : OpsMeet ok w ops) (hw : P w) : P (runOps w ops).2 := by
  induction ops generalizing w with
  | nil => exact hw
  | cons op ops ih =>
    have hnext : P (exec w op).2 := hstep w op hw h.1
    simp only [runOps]
    split
    · rename_i hrc
      exact ih (h.2 hrc) hnext
    · exact hnext

lemma EntriesMeet.keeps {P : World → Prop} (hstep : ∀ w op, P w → ok w op → P (exec w op).2)
    {es pre : List Bytes} (h : EntriesMeet accepts ok w es) (hw : P w) (hpre : pre <+: es) :
    P (applyEntries accepts w pre) := by
  induction pre generalizing w es with
  | nil => exact hw
  | cons data pre ih =>
    obtain ⟨rest, rfl⟩ := hpre
    exact ih h.2 (h.1.keeps hstep hw) (prefix_append pre rest)

end

section

variable {a : Abs} {key k : Key} {value : Bytes} {leaseId : Int} {id : Nat}

lemma find_put : (a.put key value leaseId).index.find k = if k = key then
      some (nextGeneration (a.index.find key) ⟨a.mainRev + 1, 0⟩ value leaseId)
    else a.index.find k := by
  unfold Abs.put
  rw [OrdMap.find_insert]
  split <;> simp_all

lemma leased_put : (a.put key value leaseId).Leased k id ↔
    if k = key then leaseId = id ∧ 0 < id else a.Leased k id := by
  unfold Abs.Leased
  rw [find_put]
  split
  · simp [nextGeneration_leaseId]
  · exact Iff.rfl

lemma has_put : (a.put key value leaseId).Has id ↔ a.Has id := by
  simp [Abs.Has, Abs.put, Abs.afterPut]

lemma agree_put (ha : Agree a) (hkey : key ≠ [])
    (hlease : leaseId = 0 ∨ (0 < leaseId ∧ a.Has leaseId.toNat)) :
    Agree (a.put key value leaseId) := by
  refine ⟨fun id keys hkeys k => ?_, fun k id hk => ?_, fun hlive => ?_⟩
  · obtain ⟨old, hold, rfl⟩ := map_eq_some_iff.1 hkeys
    have hmem := ha.attached id old hold k
    rw [leased_put]
    by_cases hk : k = key
    · -- the key has left its old lease, unless that is the one it names now
      rw [if_pos hk]
      subst hk
      have hpos : a.Leased k id → 0 < id := fun ⟨_, _, _, h⟩ => h
      change (k ∈ old ∧ ¬ (k = k ∧ a.Leased k id ∧ leaseId ≠ id)) ∨ (k = k ∧ leaseId = id ∧ 0 < id) ↔ _
      tauto
    rw [if_neg hk]
    change (k ∈ old ∧ ¬ (k = key ∧ _)) ∨ (k = key ∧ _) ↔ _
    tauto
  · rw [leased_put] at hk
    refine has_put.2 ?_
    split at hk
    · obtain hzero | ⟨_, hhas⟩ := hlease
      · omega
      have hid : leaseId.toNat = id := by omega
      exact hid ▸ hhas
    · exact ha.lease k id hk
  obtain ⟨kg, hkg⟩ := hlive
  rw [find_put, if_neg fun h => hkey h.symm] at hkg
  exact ha.nonempty ⟨kg, hkg⟩

end

/-- The leases are what the store says, and no lease number of a key is negative. -/
structure Tied (w : World) : Prop where
  sound : Sound w
  agree : Agree (abs w)
  nonneg : ∀ k kg, w.store.index.find k = some kg → 0 ≤ kg.leaseId
  noZero : ¬ (abs w).Has 0

section

variable {w : World} {op : Op}

lemma tied_fresh : Tied World.fresh where
  sound := sound_fresh
  agree := ⟨fun id keys h => (some_ne_none _ h.symm).elim,
    fun k id ⟨kg, hkg, _⟩ => (some_ne_none kg hkg.symm).elim,
    fun ⟨kg, hkg⟩ => some_ne_none kg hkg.symm⟩
  nonneg k kg h := by cases h
  noZero h := h rfl

lemma Tied.leased_iff (h : Tied w) {k : Key} {id : Nat} (hid : (abs w).Has id) :
    (abs w).Leased k id ↔ CarriesLease w.store k id := by
  have hpos : 0 < id := Nat.pos_of_ne_zero fun hzero => h.noZero (hzero ▸ hid)
  constructor
  · rintro ⟨kg, hkg, hlease, _⟩
    refine ⟨kg, hkg, ?_⟩
    rw [leaseBits, if_pos (h.nonneg k kg hkg), hlease]
    exact Int.toNat_natCast id
  rintro ⟨kg, hkg, hlease⟩
  have hnonneg := h.nonneg k kg hkg
  rw [leaseBits, if_pos hnonneg] at hlease
  exact ⟨kg, hkg, by omega, hpos⟩

lemma Tied.mirrors (h : Tied w) : Mirrors w := by
  intro id keys hkeys k
  have hsome : (abs w).leases id = some { k | k ∈ keys } := by
    simp [abs, attachedOf, hkeys]
  have hhas : (abs w).Has id := by
    rw [Abs.Has, hsome]
    exact some_ne_none _
  exact (h.agree.attached id _ hsome k).trans (h.leased_iff hhas)

lemma Tied.exec (h : Tied w) (hop : NamesLease w op) : Tied (exec w op).2 := by
  have hsim := simulates_exec h.sound op
  by_cases hput : NotPut op
  · -- the index only loses keys, and no operation makes lease 0
    have hshrinks : Shrinks (abs w) (abs (Apply.exec w op).2) :=
      hsim.abs_eq ▸ shrinks_exec h.agree hput
    refine ⟨hsim.sound, hsim.abs_eq ▸ agree_exec h.agree hput,
      fun k kg hk => h.nonneg k kg (hshrinks k kg hk), ?_⟩
    rw [hsim.abs_eq, exec_has hput]
    rintro (⟨hhas, _⟩ | hmakes)
    · exact h.noZero hhas
    cases op with
    | leaseGrant id ttl => exact hmakes.2 (Or.inl hmakes.1.symm)
    | _ => exact hmakes
  cases op with
  | put key value leaseId =>
    have habs := hsim.abs_eq
    simp only [Abs.exec] at habs
    split at habs
    · rename_i hkey
      have hsame : (Apply.exec w (.put key value leaseId)).2 = w := by
        simp [Apply.exec, applyPut, hkey]
      exact hsame.symm ▸ h
    rename_i hkey
    have hlease : leaseId = 0 ∨ (0 < leaseId ∧ (abs w).Has leaseId.toNat) := by
      obtain hop | hop | ⟨hpos, hexists⟩ := hop
      · exact absurd hop hkey
      · exact Or.inl hop
      · exact Or.inr ⟨hpos, leaseExists_iff.1 hexists⟩
    refine ⟨hsim.sound, habs ▸ agree_put h.agree hkey hlease, fun k kg hk => ?_, ?_⟩
    · have hfind : (abs (Apply.exec w (.put key value leaseId)).2).index.find k = some kg := hk
      rw [habs, find_put] at hfind
      split at hfind
      · rw [← some.inj hfind, nextGeneration_leaseId]
        rcases hlease with hzero | ⟨hpos, _⟩ <;> omega
      · exact h.nonneg k kg hfind
    rw [habs, has_put]
    exact h.noZero
  | _ => exact absurd trivial hput

end

/-- If puts name no lease or one that exists, a lease has just the keys that name it. -/
theorem leases_mirror_store (accepts : List UInt8 → Bool) (es pre : List (List UInt8))
    (h : EntriesMeet accepts NamesLease World.fresh es) (hpre : pre <+: es) :
    Mirrors (applyEntries accepts World.fresh pre) :=
  (h.keeps (fun _ _ hw hop => hw.exec hop) tied_fresh hpre).mirrors

-- Lease 5 for a minute, then a put of `k` that names it.
theorem leases_mirror_store_put :
    Mirrors (applyEntries (fun _ => true) World.fresh [[12, 5, 60], [1, 1, 107, 1, 118, 5]]) := by
  refine leases_mirror_store _ [[12, 5, 60], [1, 1, 107, 1, 118, 5]] _ ⟨⟨trivial, fun _ => trivial⟩,
    ⟨?_, fun _ => trivial⟩, trivial⟩ (prefix_refl _)
  have hop : decodeOp (fun _ => true) [1, 1, 107, 1, 118, 5] = .put [107] [118] 5 := by decide +kernel
  change NamesLease _ (decodeOp (fun _ => true) [1, 1, 107, 1, 118, 5])
  rw [hop]
  exact Or.inr (Or.inr ⟨by decide, by decide +kernel⟩)

/-- The put comes first: the key names lease 5 and is not attached to it. -/
theorem leases_miss_early_put :
    let w := applyEntries (fun _ => true) World.fresh [[1, 1, 107, 1, 118, 5], [12, 5, 60]]
    w.leases.find 5 = some [] ∧ leaseOf w.store [107] = 5 ∧ ¬ Mirrors w := by
  have hleases : (applyEntries (fun _ => true) World.fresh
      [[1, 1, 107, 1, 118, 5], [12, 5, 60]]).leases.find 5 = some [] := by decide +kernel
  have hkey : ((applyEntries (fun _ => true) World.fresh
      [[1, 1, 107, 1, 118, 5], [12, 5, 60]]).store.index.find [107]).map KeyGeneration.leaseId =
        some 5 := by decide +kernel
  refine ⟨hleases, by simp [leaseOf, hkey], fun hmirrors => ?_⟩
  obtain ⟨kg, hkg, hlease⟩ := map_eq_some_iff.1 hkey
  have hmem := (hmirrors 5 [] hleases [107]).2 ⟨kg, hkg, by simp [leaseBits, hlease]⟩
  exact not_mem_nil hmem

end Cetcd.Apply
