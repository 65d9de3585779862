import Cetcd.Apply.Entry

/-!
# What applied entries mean

The store and the leases without their representation: the index, the revision, and the keys
attached to each lease. Operations without puts can be applied a second time without effect, as long
as leases and store agree on who is attached to what.
-/

namespace Cetcd.Apply

open Lib Mvcc Lease Option

/-! ## Operations -/

@[ext] structure Abs where
  index : OrdMap Key KeyGeneration
  mainRev : Nat
  leases : Nat → Option (Set Key)

namespace Abs

/-- The key is there and has lease `id`. -/
def Leased (a : Abs) (k : Key) (id : Nat) : Prop :=
  ∃ kg, a.index.find k = some kg ∧ kg.leaseId = id ∧ 0 < id

def Live (a : Abs) (k : Key) : Prop := ∃ kg, a.index.find k = some kg

open scoped Classical in
/-- The keys in `p` are deleted; one revision for all of them. -/
noncomputable def drop (a : Abs) (p : Key → Prop) : Abs :=
  { a with
    index := a.index.filter fun k => ¬ p k
    mainRev := if ∃ k, p k ∧ a.Live k then a.mainRev + 1 else a.mainRev }

/-- They are detached as well. -/
noncomputable def remove (a : Abs) (p : Key → Prop) : Abs :=
  { a.drop p with
    leases := fun id => (a.leases id).map fun keys => { k ∈ keys | ¬ (p k ∧ a.Leased k id) } }

def afterPut (a : Abs) (key : Key) (leaseId : Int) (id : Nat) : Option (Set Key) :=
  (a.leases id).map fun keys =>
    { k | (k ∈ keys ∧ ¬ (k = key ∧ a.Leased key id ∧ leaseId ≠ id)) ∨
      (k = key ∧ leaseId = id ∧ 0 < id) }

def put (a : Abs) (key : Key) (value : List UInt8) (leaseId : Int) : Abs where
  index := a.index.insert key
    (nextGeneration (a.index.find key) ⟨a.mainRev + 1, 0⟩ value leaseId)
  mainRev := a.mainRev + 1
  leases := a.afterPut key leaseId

def endLease (a : Abs) (id : Nat) : Abs :=
  { a with leases := fun j => if j = id then none else a.leases j }

noncomputable def dropAttached (a : Abs) (id : Nat) : Abs :=
  a.drop fun k => k ≠ [] ∧ ∃ keys, a.leases id = some keys ∧ k ∈ keys

def grant (a : Abs) (id : Nat) : Abs :=
  { a with leases := fun j => if j = id ∧ a.leases id = none then some ∅ else a.leases j }

noncomputable def exec (a : Abs) : Op → Abs
  | .put key value leaseId => if key = [] then a else a.put key value leaseId
  | .delete key => if key = [] then a else a.remove (· = key)
  | .deleteRange key rangeEnd =>
    if key = [] then a
    else if rangeEnd = [] then a.remove (· = key)
    else a.remove fun k => inRange key (openEnd rangeEnd) k = true
  | .leaseRevoke id => (a.dropAttached id).endLease id
  | .leaseGrant id ttl => if id = 0 ∨ ttl ≤ 0 ∨ maxLeaseTtl < ttl then a else a.grant id
  | .leaseKeepalive _ _ => a
  | .compact _ => a
  | .other _ => a
  | .bad => a

noncomputable def execAll (a : Abs) (ops : List Op) : Abs := ops.foldl exec a

/-- What a start makes of the disk: the keys of each lease are looked up in the index. -/
noncomputable def restart (a : Abs) : Abs :=
  { a with
    leases := fun id =>
      open scoped Classical in
      if a.leases id ≠ none ∨ ∃ k, a.Leased k id then some { k | a.Leased k id } else none }

end Abs

/-! ## Agreement -/

/-- The leases are what the index says. -/
structure Agree (a : Abs) : Prop where
  attached : ∀ id keys, a.leases id = some keys → ∀ k, k ∈ keys ↔ a.Leased k id
  lease : ∀ k id, a.Leased k id → a.leases id ≠ none
  nonempty : ¬ a.Live []

section

variable {a b : Abs} {id : Nat} {k : Key} {p : Key → Prop}

lemma Abs.Leased.live (h : a.Leased k id) : a.Live k := by
  obtain ⟨kg, hkg, _⟩ := h
  exact ⟨kg, hkg⟩

lemma Abs.Leased.unique {j : Nat} (h : a.Leased k id) (h' : a.Leased k j) : id = j := by
  obtain ⟨kg, hkg, hid, _⟩ := h
  obtain ⟨kg', hkg', hj, _⟩ := h'
  have heq : kg = kg' := some.inj (hkg.symm.trans hkg')
  subst heq
  exact Int.ofNat.inj (hid.symm.trans hj)

lemma find_drop {kg : KeyGeneration} :
    (a.drop p).index.find k = some kg ↔ a.index.find k = some kg ∧ ¬ p k := by
  unfold Abs.drop
  dsimp only
  rw [OrdMap.find_filter]
  by_cases hp : p k
  all_goals simp [hp]

lemma leased_drop : (a.drop p).Leased k id ↔ a.Leased k id ∧ ¬ p k := by
  unfold Abs.Leased
  constructor
  · rintro ⟨kg, hkg, hid⟩
    rw [find_drop] at hkg
    exact ⟨⟨kg, hkg.1, hid⟩, hkg.2⟩
  rintro ⟨⟨kg, hkg, hid⟩, hp⟩
  exact ⟨kg, find_drop.2 ⟨hkg, hp⟩, hid⟩

lemma live_drop : (a.drop p).Live k ↔ a.Live k ∧ ¬ p k := by
  unfold Abs.Live
  constructor
  · rintro ⟨kg, hkg⟩
    rw [find_drop] at hkg
    exact ⟨⟨kg, hkg.1⟩, hkg.2⟩
  rintro ⟨⟨kg, hkg⟩, hp⟩
  exact ⟨kg, find_drop.2 ⟨hkg, hp⟩⟩

lemma Agree.ext (ha : Agree a) (hb : Agree b) (hindex : a.index = b.index)
    (hrev : a.mainRev = b.mainRev) (hleases : ∀ id, a.leases id = none ↔ b.leases id = none) :
    a = b := by
  have hleased : ∀ k id, a.Leased k id ↔ b.Leased k id := by
    intro k id
    unfold Abs.Leased
    rw [hindex]
  have hsame : a.leases = b.leases := by
    funext id
    cases hak : a.leases id with
    | none => exact ((hleases id).1 hak).symm
    | some keys =>
      cases hbk : b.leases id with
      | none => exact absurd ((hleases id).2 hbk) (by rw [hak]; simp)
      | some keys' =>
        refine congrArg some (Set.ext fun k => ?_)
        rw [ha.attached id keys hak, hb.attached id keys' hbk, hleased]
  cases a
  cases b
  cases hindex
  cases hrev
  cases hsame
  rfl

lemma agree_restart (hempty : ¬ a.Live []) : Agree a.restart := by
  refine ⟨fun id keys h k => ?_, fun k id hk => ?_, hempty⟩
  · unfold Abs.restart at h
    dsimp only at h
    split at h
    · rw [← some.inj h]
      rfl
    · cases h
  unfold Abs.restart
  dsimp only
  rw [if_pos (Or.inr ⟨k, hk⟩)]
  simp

lemma Agree.restart_eq (h : Agree a) : a.restart = a := by
  refine (agree_restart h.nonempty).ext h rfl rfl fun id => ?_
  unfold Abs.restart
  dsimp only
  constructor
  · intro hnone
    by_contra hne
    rw [if_pos (Or.inl hne)] at hnone
    cases hnone
  intro hnone
  rw [if_neg]
  rintro (hne | ⟨k, hk⟩)
  · exact hne hnone
  · exact h.lease k id hk hnone

end

/-! ## Operations without puts -/

def NotPut : Op → Prop
  | .put _ _ _ => False
  | _ => True

/-- The keys an operation removes. -/
def Hits (a : Abs) : Op → Key → Prop
  | .delete key => fun k => k = key
  | .deleteRange key rangeEnd => fun k =>
    if rangeEnd = [] then k = key else key ≠ [] ∧ inRange key (openEnd rangeEnd) k = true
  | .leaseRevoke id => fun k => a.Leased k id
  | _ => fun _ => False

/-- The leases an operation lets be, -/
def Keeps : Op → Nat → Prop
  | .leaseRevoke id, j => j ≠ id
  | _, _ => True

/-- and those that there are after it in any case. -/
def Makes : Op → Nat → Prop
  | .leaseGrant id ttl, j => j = id ∧ ¬ (id = 0 ∨ ttl ≤ 0 ∨ maxLeaseTtl < ttl)
  | _, _ => False

def Abs.Has (a : Abs) (id : Nat) : Prop := a.leases id ≠ none

/-- `b` has no entry that `a` has not. -/
def Shrinks (a b : Abs) : Prop :=
  ∀ k kg, b.index.find k = some kg → a.index.find k = some kg

section

variable {a b c : Abs} {op : Op} {k : Key} {id : Nat} {p : Key → Prop}

lemma Shrinks.trans (h : Shrinks a b) (h' : Shrinks b c) : Shrinks a c :=
  fun k kg hk => h k kg (h' k kg hk)

lemma Shrinks.leased (h : Shrinks a b) (hk : b.Leased k id) : a.Leased k id := by
  obtain ⟨kg, hkg, hid⟩ := hk
  exact ⟨kg, h k kg hkg, hid⟩

lemma Shrinks.live (h : Shrinks a b) (hk : b.Live k) : a.Live k := by
  obtain ⟨kg, hkg⟩ := hk
  exact ⟨kg, h k kg hkg⟩

lemma Shrinks.hits (h : Shrinks a b) (hk : Hits b op k) : Hits a op k := by
  cases op with
  | leaseRevoke id => exact h.leased hk
  | _ => exact hk

lemma shrinks_drop (a : Abs) (p : Key → Prop) : Shrinks a (a.drop p) :=
  fun _ _ hk => (find_drop.1 hk).1

lemma drop_eq_of_clean (h : ∀ k, p k → ¬ a.Live k) : a.drop p = a := by
  have hrev : ¬ ∃ k, p k ∧ a.Live k := fun ⟨k, hp, hk⟩ => h k hp hk
  have hindex : (a.drop p).index = a.index := by
    refine OrdMap.ext_find fun k => ?_
    ext kg
    rw [find_drop]
    exact and_iff_left_of_imp fun hk hp => h k hp ⟨kg, hk⟩
  unfold Abs.drop at hindex ⊢
  rw [if_neg hrev]
  dsimp only at hindex
  rw [hindex]

lemma Agree.dropAttached (h : Agree a) (id : Nat) :
    a.dropAttached id = a.drop fun k => a.Leased k id := by
  have hp : (fun k => k ≠ [] ∧ ∃ keys, a.leases id = some keys ∧ k ∈ keys) =
      fun k => a.Leased k id := by
    funext k
    refine propext ⟨?_, fun hk => ?_⟩
    · rintro ⟨_, keys, hkeys, hmem⟩
      exact (h.attached id keys hkeys k).1 hmem
    refine ⟨fun hempty => h.nonempty (hempty ▸ hk.live), ?_⟩
    cases hkeys : a.leases id with
    | none => exact absurd hkeys (h.lease k id hk)
    | some keys => exact ⟨keys, rfl, (h.attached id keys hkeys k).2 hk⟩
  unfold Abs.dropAttached
  rw [hp]

lemma leased_congr (h : a.index = b.index) : a.Leased k id ↔ b.Leased k id := by
  unfold Abs.Leased
  rw [h]

lemma live_congr (h : a.index = b.index) : a.Live k ↔ b.Live k := by
  unfold Abs.Live
  rw [h]

lemma exec_index (ha : Agree a) (hop : NotPut op) : (a.exec op).index = (a.drop (Hits a op)).index ∧
      (a.exec op).mainRev = (a.drop (Hits a op)).mainRev := by
  -- where no key is hit the state stays, and so does what is dropped of it
  have hclean : ∀ b : Abs, b.index = a.index → b.mainRev = a.mainRev →
      (∀ k, Hits a op k → ¬ a.Live k) →
      b.index = (a.drop (Hits a op)).index ∧ b.mainRev = (a.drop (Hits a op)).mainRev := by
    intro b hindex hrev hnone
    rw [drop_eq_of_clean hnone]
    exact ⟨hindex, hrev⟩
  have hnotEmpty : ∀ k, k = [] → ¬ a.Live k := fun k hk hlive => ha.nonempty (hk ▸ hlive)
  cases op with
  | put key value leaseId => exact absurd hop id
  | delete key =>
    simp only [Abs.exec]
    split
    · rename_i hkey
      exact hclean a rfl rfl fun k hk => hnotEmpty k (hk.trans hkey)
    · exact ⟨rfl, rfl⟩
  | deleteRange key rangeEnd =>
    simp only [Abs.exec]
    by_cases hkey : key = []
    · rw [if_pos hkey]
      refine hclean a rfl rfl fun k hk => ?_
      simp only [Hits] at hk
      split at hk
      · exact hnotEmpty k (hk.trans hkey)
      · exact absurd hkey hk.1
    rw [if_neg hkey]
    by_cases hend : rangeEnd = []
    · have hhits : Hits a (.deleteRange key rangeEnd) = (· = key) := by
        funext k
        exact if_pos hend
      rw [if_pos hend, hhits]
      exact ⟨rfl, rfl⟩
    have hhits : Hits a (.deleteRange key rangeEnd) =
        fun k => inRange key (openEnd rangeEnd) k = true := by
      funext k
      exact (if_neg hend).trans (propext (and_iff_right hkey))
    rw [if_neg hend, hhits]
    exact ⟨rfl, rfl⟩
  | leaseRevoke id =>
    simp only [Abs.exec, Abs.endLease]
    rw [ha.dropAttached]
    exact ⟨rfl, rfl⟩
  | leaseGrant id ttl =>
    refine hclean _ ?_ ?_ fun k hk => absurd hk not_false
    all_goals
      simp only [Abs.exec]
      split <;> rfl
  | leaseKeepalive id ttl | compact rev | other accepted | bad =>
    exact hclean a rfl rfl fun k hk => absurd hk not_false

lemma has_remove : (a.remove p).Has id ↔ a.Has id := by
  unfold Abs.Has Abs.remove
  dsimp only
  rw [Ne, map_eq_none_iff]

lemma exec_has (hop : NotPut op) (j : Nat) :
    (a.exec op).Has j ↔ a.Has j ∧ Keeps op j ∨ Makes op j := by
  cases op with
  | put key value leaseId => exact absurd hop id
  | delete key =>
    simp only [Abs.exec, Keeps, Makes, and_true, or_false]
    split
    · exact Iff.rfl
    · exact has_remove
  | deleteRange key rangeEnd =>
    simp only [Abs.exec, Keeps, Makes, and_true, or_false]
    split
    · exact Iff.rfl
    split
    all_goals exact has_remove
  | leaseRevoke id =>
    simp only [Abs.exec, Abs.endLease, Abs.Has, Keeps, Makes, or_false]
    by_cases hj : j = id
    · simp [hj]
    · simp [hj, Abs.dropAttached, Abs.drop]
  | leaseGrant id ttl =>
    simp only [Abs.exec, Keeps, Makes, and_true]
    split
    · rename_i hbad
      simp [hbad]
    rename_i hgood
    simp only [Abs.grant, Abs.Has, hgood, not_false_iff, and_true]
    by_cases hj : j = id
    · subst hj
      by_cases hnone : a.leases j = none
      all_goals simp [hnone]
    · simp [hj]
  | leaseKeepalive id ttl | compact rev | other accepted | bad => simp [Abs.exec, Keeps, Makes]

lemma agree_remove (ha : Agree a) (p : Key → Prop) : Agree (a.remove p) := by
  have hleased : ∀ k id, (a.remove p).Leased k id ↔ a.Leased k id ∧ ¬ p k :=
    fun k id => (leased_congr rfl).trans leased_drop
  refine ⟨fun id keys hkeys k => ?_, fun k id hk => ?_, fun hlive => ?_⟩
  · obtain ⟨old, hold, rfl⟩ := map_eq_some_iff.1 hkeys
    rw [hleased]
    change k ∈ old ∧ ¬ (p k ∧ a.Leased k id) ↔ _
    rw [ha.attached id old hold k]
    tauto
  · exact has_remove.2 (ha.lease k id ((hleased k id).1 hk).1)
  · exact ha.nonempty (live_drop.1 ((live_congr rfl).1 hlive)).1

lemma agree_revoke (ha : Agree a) (id : Nat) : Agree ((a.dropAttached id).endLease id) := by
  rw [ha.dropAttached]
  have hleased : ∀ k j, ((a.drop fun k => a.Leased k id).endLease id).Leased k j ↔
      a.Leased k j ∧ ¬ a.Leased k id := fun k j => (leased_congr rfl).trans leased_drop
  refine ⟨fun j keys hkeys k => ?_, fun k j hk => ?_, fun hlive => ?_⟩
  · change (if j = id then none else a.leases j) = some keys at hkeys
    split at hkeys
    · cases hkeys
    rename_i hj
    rw [hleased, ha.attached j keys hkeys k]
    exact (and_iff_left_of_imp fun hk hk' => hj (hk.unique hk')).symm
  · obtain ⟨hkj, hkid⟩ := (hleased k j).1 hk
    change (if j = id then none else a.leases j) ≠ none
    rw [if_neg fun hj : j = id => hkid (hj ▸ hkj)]
    exact ha.lease k j hkj
  · exact ha.nonempty (live_drop.1 ((live_congr rfl).1 hlive)).1

lemma agree_grant (ha : Agree a) (id : Nat) : Agree (a.grant id) := by
  refine ⟨fun j keys hkeys k => ?_, fun k j hk => ?_, ha.nonempty⟩
  · change (if j = id ∧ a.leases id = none then some ∅ else a.leases j) = some keys at hkeys
    rw [show (a.grant id).Leased k j ↔ a.Leased k j from leased_congr rfl]
    split at hkeys
    · rename_i h
      rw [← some.inj hkeys]
      refine ⟨fun hk => absurd hk (Set.notMem_empty k), fun hk => ?_⟩
      exact absurd h.2 (ha.lease k id (h.1 ▸ hk))
    · exact ha.attached j keys hkeys k
  change (if j = id ∧ a.leases id = none then some ∅ else a.leases j) ≠ none
  split
  · exact some_ne_none _
  · exact ha.lease k j hk

lemma agree_exec (ha : Agree a) (hop : NotPut op) : Agree (a.exec op) := by
  cases op with
  | put key value leaseId => exact absurd hop id
  | delete key =>
    simp only [Abs.exec]
    split
    · exact ha
    · exact agree_remove ha _
  | deleteRange key rangeEnd =>
    simp only [Abs.exec]
    split
    · exact ha
    split
    all_goals exact agree_remove ha _
  | leaseRevoke id => exact agree_revoke ha id
  | leaseGrant id ttl =>
    simp only [Abs.exec]
    split
    · exact ha
    · exact agree_grant ha id
  | leaseKeepalive id ttl | compact rev | other accepted | bad => exact ha

lemma shrinks_exec (ha : Agree a) (hop : NotPut op) : Shrinks a (a.exec op) := by
  intro k kg hk
  rw [(exec_index ha hop).1] at hk
  exact shrinks_drop a _ k kg hk

lemma clean_exec (ha : Agree a) (hop : NotPut op) (hk : Hits a op k) : ¬ (a.exec op).Live k :=
  fun hlive => (live_drop.1 ((live_congr (exec_index ha hop).1).1 hlive)).2 hk

lemma restart_leases_pos (h : a.Has id) : a.restart.leases id = some { k | a.Leased k id } :=
  if_pos (Or.inl h)

lemma restart_leases_neg (h : ¬ (a.Has id ∨ ∃ k, a.Leased k id)) : a.restart.leases id = none :=
  if_neg h

lemma has_restart : a.restart.Has id ↔ a.Has id ∨ ∃ k, a.Leased k id := by
  unfold Abs.Has Abs.restart
  dsimp only
  split
  · rename_i h
    exact iff_of_true (some_ne_none _) h
  rename_i h
  exact iff_of_false (fun hne => hne rfl) h

lemma Agree.has_restart_drop (ha : Agree a) : (a.drop p).restart.Has id ↔ a.Has id := by
  rw [has_restart]
  refine ⟨?_, Or.inl⟩
  rintro (hhas | ⟨k, hk⟩)
  · exact hhas
  · exact ha.lease k id (leased_drop.1 hk).1

lemma Agree.exec_revoke_half (ha : Agree a) :
    (a.drop fun k => a.Leased k id).restart.exec (.leaseRevoke id) = a.exec (.leaseRevoke id) := by
  have hhalf : Agree (a.drop fun k => a.Leased k id).restart :=
    agree_restart fun hlive => ha.nonempty (live_drop.1 hlive).1
  have hclean : ∀ k, Hits (a.drop fun k => a.Leased k id).restart (.leaseRevoke id) k →
      ¬ (a.drop fun k => a.Leased k id).restart.Live k := by
    intro k hk
    obtain ⟨hlease, hnot⟩ := leased_drop.1 hk
    exact absurd hlease hnot
  have hop : NotPut (.leaseRevoke id) := trivial
  have hagain := exec_index hhalf hop
  have honce := exec_index ha hop
  rw [drop_eq_of_clean hclean] at hagain
  refine (agree_exec hhalf hop).ext (agree_exec ha hop) (hagain.1.trans honce.1.symm)
    (hagain.2.trans honce.2.symm) fun j => not_iff_not.1 ?_
  change Abs.Has _ j ↔ Abs.Has _ j
  rw [exec_has hop, exec_has hop, ha.has_restart_drop]

end

end Cetcd.Apply
