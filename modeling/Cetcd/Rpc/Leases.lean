import Cetcd.Rpc.Requests

/-!
# Leases and permissions

No permission is tested for a lease request. A revocation deletes the keys of the lease, and the
answer about its time to live lists all of them.
-/

namespace Cetcd.Rpc

open Lib Mvcc Lease Apply List

def leaseHandleRevoke (env : Env) (x : Site) (id : Int64) : Bool × Site :=
  if id ≤ 0 then (false, x)
  else if leaseExists x.world.leases id.toNatClampNeg then
    propose env x (.leaseRevoke id.toNatClampNeg)
  else (false, x)

/-- The keys in the answer of `lease_handle_time_to_live`. -/
def leaseHandleTimeToLive (x : Site) (id : Int64) (wantKeys : Bool) : List Key :=
  if wantKeys ∧ 0 < id ∧ leaseExists x.world.leases id.toNatClampNeg then
    leaseKeys x.world.leases id.toNatClampNeg
  else []

/-- The user deletes no key by a revocation that they may not write, and is shown none that they may
not read, whatever becomes of proposal and backend. -/
def LeasesGuarded (env : Env) (s : Store) (m : Leases) : Prop :=
  ∀ x : Site, x.world.store = s → x.world.leases = m → ∀ id key,
    ((s.index.find key).isSome → (leaseHandleRevoke env x id).2.world.store.index.find key = none →
      env.auth.checkPerm env.user key true) ∧
    ∀ wantKeys, key ∈ leaseHandleTimeToLive x id wantKeys → env.auth.checkPerm env.user key false

section

variable {s : Store} {d : Disk} {keys : List Key} {key : Key}

lemma deleted_of_mem (hd : d.Reliable) (hmem : key ∈ keys) (hne : key ≠ [])
    (hlive : (s.index.find key).isSome) :
    (mvccDeleteKeys s d keys).2.1.index.find key = none := by
  have hdel : key ∈ keys.filter fun k => k ≠ [] && (s.index.find k).isSome := by
    simp [hmem, hne, hlive]
  unfold mvccDeleteKeys
  dsimp only
  rw [if_neg (ne_nil_of_mem hdel), hd.write]
  exact (find_deleteEach _ _ _).trans (if_pos hdel)

lemma leaseExists_of_mem {m : Leases} {id : Nat} (h : key ∈ leaseKeys m id) : leaseExists m id := by
  unfold leaseKeys at h
  unfold leaseExists
  cases hfind : m.find id with
  | none => simp [hfind] at h
  | some keys => rfl

end

/-- Lease requests keep to the permissions just if the user may read all attached keys, and write
those there are. -/
theorem lease_requests_guarded (env : Env) (s : Store) (m : Leases) :
    LeasesGuarded env s m ↔ ∀ id : Int64, 0 < id → ∀ key ∈ leaseKeys m id.toNatClampNeg,
      env.auth.checkPerm env.user key false ∧
        (key ≠ [] → (s.index.find key).isSome → env.auth.checkPerm env.user key true) := by
  constructor
  · intro h id hid key hkey
    have hat := h ⟨⟨s, m, (Durable.fresh []).disk⟩, []⟩ rfl rfl id key
    have hexists := leaseExists_of_mem hkey
    refine ⟨hat.2 true (by simpa [leaseHandleTimeToLive, hid, hexists] using hkey),
      fun hne hlive => hat.1 hlive ?_⟩
    rw [leaseHandleRevoke, if_neg (Int64.not_le.2 hid), if_pos hexists]
    exact @deleted_of_mem s (Durable.fresh []).disk _ key rfl hkey hne hlive
  · rintro h x rfl rfl id key
    refine ⟨fun hlive hgone => ?_, fun wantKeys hkey => ?_⟩
    · have hkept := Option.isSome_iff_ne_none.1 hlive
      unfold leaseHandleRevoke propose at hgone
      split_ifs at hgone with hid _ hrefused
      iterate 2 exact absurd hgone hkept
      · obtain ⟨hmem, hne⟩ := mem_of_deleted hlive hgone
        exact (h id (Int64.not_le.1 hid) key hmem).2 hne hlive
      · exact absurd hgone hkept
    · unfold leaseHandleTimeToLive at hkey
      split_ifs at hkey with hask
      · exact (h id hask.2.1 key hkey).1
      · cases hkey

/-- A user without any role is told the key of a lease, which they may not read. -/
theorem lease_requests_unguarded :
    ∃ env s m, env.auth.enabled = true ∧ env.auth.isAdmin env.user = false ∧
      ¬ LeasesGuarded env s m := by
  refine ⟨⟨⟨true, [([117], [])], []⟩, [117], true, 128, false⟩, .new,
    OrdMap.insert OrdMap.empty 1 [[97]], rfl, by decide, fun h => ?_⟩
  have hread := (h ⟨⟨_, _, (Durable.fresh []).disk⟩, []⟩ rfl rfl 1 [97]).2 true
  exact absurd (hread (by decide)) (by decide)

end Cetcd.Rpc
