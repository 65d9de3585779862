import Cetcd.Auth.Store

/-!
# Rights come from grants

A history of entries, with the grants in force since each role was last created. Two things give
rights without a grant: users keep the names of deleted roles, and a new role may read and write
under `/`.
-/

namespace Cetcd.Auth

open Lib Apply Rpc List Option OrdMap

/-- The grants in force by the entries alone: the users and roles there are, who has which role, and
the permissions granted to a role. -/
structure InForce where
  users : List Name := []
  roles : List Name := []
  grants : List (Name × Name) := []
  perms : List (Name × Role) := []

/-- Grants end with the role or the user, so they all came after the latest creation of both, and
when they are revoked. -/
def InForce.next (g : InForce) : LogCall → InForce
  | .authUserAdd name hash => if usable name hash then { g with users := name :: g.users } else g
  | .authUserDelete name =>
    { g with users := g.users.filter fun j => j ≠ name, grants := g.grants.filter fun e => e.1 ≠ name }
  | .authRoleAdd role => { g with roles := role :: g.roles }
  | .authRoleDelete role =>
    { g with
      roles := g.roles.filter fun k => k ≠ role
      grants := g.grants.filter fun e => e.2 ≠ role
      perms := g.perms.filter fun e => e.1 ≠ role }
  | .authUserGrantRole user role =>
    if user ∈ g.users ∧ role ∈ g.roles then { g with grants := (user, role) :: g.grants } else g
  | .authUserRevokeRole user role => { g with grants := g.grants.filter fun e => e ≠ (user, role) }
  | .authRoleGrantPerm role key permType rangeEnd =>
    if role ∈ g.roles then { g with perms := (role, grantedRole permType key rangeEnd) :: g.perms } else g
  | .authRoleRevokePerm role key rangeEnd =>
    { g with perms := g.perms.filter fun e => !(decide (e.1 = role) && revokes e.2 key rangeEnd) }
  | _ => g

def follow (p : Store × InForce) (e : LogCall) : Store × InForce := (applyAuth p.1 e, p.2.next e)

def start : Store × InForce := (.new, {})

/-- The access that a permission gives. -/
def allows (p : Role) (key : Mvcc.Key) (wantWrite : Bool) : Bool :=
  (if wantWrite then p.permWrite else p.permRead || p.permWrite) && permCovers key p.keyPrefix p.rangeEnd

/-- The role was granted to the user, and a permission for the key to the role. -/
def EntitledBy (g : InForce) (user role : Name) (key : Mvcc.Key) (wantWrite : Bool) : Prop :=
  (user, role) ∈ g.grants ∧ ∃ p, (role, p) ∈ g.perms ∧ allows p key wantWrite

/-- A role is created only if no user holds its name, given away only once all it allows was
granted, and revoked only if no bytes past the end of the blob are moved. -/
def Careful (p : Store × InForce) : LogCall → Prop
  | .authRoleAdd role =>
    p.1.roles.find role = none → ∀ name u, p.1.users.find name = some u → role ∉ u.roles
  | .authUserGrantRole _ role =>
    ∀ r, p.1.roles.find role = some r → r = bareRole ∨ (role, r) ∈ p.2.perms
  | .authUserRevokeRole user role =>
    ∀ u, p.1.users.find user = some u → u.overruns role = false
  | _ => True

def AllCareful (p : Store × InForce) : List LogCall → Prop
  | [] => True
  | e :: es => Careful p e ∧ AllCareful (follow p e) es

lemma lookup_entries {β : Type} (m : OrdMap Name β) (k : Name) : m.entries.lookup k = m.find k := by
  unfold OrdMap.find
  induction m.entries with
  | nil => rfl
  | cons e es ih =>
    rw [lookup_cons, find?_cons]
    by_cases h : e.1 = k
    · simp [h]
    rw [beq_false_of_ne (Ne.symm h)]
    simp [h, ih]

lemma lookup_view (s : Store) (name : Name) :
    s.view.users.lookup name = (s.users.find name).map User.roles :=
  (lookup_entries (s.users.map User.roles) name).trans (find_map _ _ _)

variable {s : Store} {user role : Name} {g : InForce}

lemma exists_of_checkPerm {key : Mvcc.Key} {wantWrite : Bool} (hon : s.enabled)
    (hadmin : s.view.isAdmin user = false) (h : s.view.checkPerm user key wantWrite) :
    ∃ u role r, s.users.find user = some u ∧ role ∈ u.roles ∧ s.roles.find role = some r ∧
      allows r key wantWrite := by
  have hon' : s.view.enabled := hon
  rw [AuthStore.checkPerm, hon', hadmin, AuthStore.rolesOf, lookup_view] at h
  obtain ⟨r, hr, hallows⟩ := any_eq_true.1 h
  obtain ⟨role, hrole, hfind⟩ := mem_filterMap.1 hr
  cases hu : s.users.find user with
  | none => simp [hu] at hrole
  | some u =>
    rw [hu] at hrole
    exact ⟨u, role, r, rfl, hrole, (lookup_entries s.roles role).symm.trans hfind, hallows⟩

lemma roles_revoke {u : User} : (u.revoke role).roles = u.roles.erase role := by
  unfold User.revoke
  split
  · rfl
  · next hnot => exact (erase_of_not_mem hnot).symm

/-- A role that was granted, and what it allows too. -/
def Held (g : InForce) (name role : Name) (r : Role) : Prop :=
  (name, role) ∈ g.grants ∧ (r = bareRole ∨ (role, r) ∈ g.perms)

/-- The tables have the users and roles of the entries, and users hold nothing that was not
granted; the name of a deleted role gives nothing. -/
structure Backed (p : Store × InForce) : Prop where
  users : ∀ name, name ∈ p.2.users ↔ (p.1.users.find name).isSome
  roles : ∀ role, role ∈ p.2.roles ↔ (p.1.roles.find role).isSome
  intact : p.1.overrun = false
  nodup : ∀ {name u}, p.1.users.find name = some u → u.roles.Nodup
  held : ∀ {name u role r}, p.1.users.find name = some u → role ∈ u.roles →
    p.1.roles.find role = some r → Held p.2 name role r

section

variable (h : Backed (s, g)) {g' : InForce}
include h

lemma Backed.user_or {u : User} (hu : s.users.find user = some u) (j : Name) :
    j ∈ g.users ↔ j = user ∨ j ∈ g.users := by
  refine (or_iff_right_of_imp ?_).symm
  rintro rfl
  exact (h.users _).2 (by simp [hu])

lemma Backed.role_or {r : Role} (hr : s.roles.find role = some r) (k : Name) :
    k ∈ g.roles ↔ k = role ∨ k ∈ g.roles := by
  refine (or_iff_right_of_imp ?_).symm
  rintro rfl
  exact (h.roles _).2 (by simp [hr])

lemma Backed.setUser {name : Name} {v : User} (husers : ∀ j, j ∈ g'.users ↔ j = name ∨ j ∈ g.users)
    (hroles : g'.roles = g.roles) (hnodup : v.roles.Nodup)
    (hkept : ∀ {j k r}, j ≠ name → Held g j k r → Held g' j k r)
    (hv : ∀ k r, k ∈ v.roles → s.roles.find k = some r → Held g' name k r) :
    Backed (s.setUser name v, g') := by
  have hfind : ∀ {j u}, (s.setUser name v).users.find j = some u →
      j = name ∧ u = v ∨ j ≠ name ∧ s.users.find j = some u := by
    intro j u hu
    rw [Store.setUser, find_insert] at hu
    split at hu
    · next hj => exact .inl ⟨hj, (some.inj hu).symm⟩
    · next hj => exact .inr ⟨hj, hu⟩
  refine ⟨fun j => ?_, fun k => ?_, h.intact, fun hu => ?_, fun hu hk hr => ?_⟩
  · rw [husers, h.users, Store.setUser, find_insert]
    split <;> simp [*]
  · rw [hroles]
    exact h.roles k
  · obtain ⟨_, rfl⟩ | ⟨_, hu⟩ := hfind hu
    · exact hnodup
    · exact h.nodup hu
  obtain ⟨rfl, rfl⟩ | ⟨hj, hu⟩ := hfind hu
  · exact hv _ _ hk hr
  · exact hkept hj (h.held hu hk hr)

lemma Backed.setRole {v : Role} (husers : g'.users = g.users)
    (hroles : ∀ k, k ∈ g'.roles ↔ k = role ∨ k ∈ g.roles) (hgrants : g'.grants = g.grants)
    (hkept : ∀ {k r}, k ≠ role → (k, r) ∈ g.perms → (k, r) ∈ g'.perms)
    (hv : ∀ name u, s.users.find name = some u → role ∈ u.roles → Held g' name role v) :
    Backed (s.setRole role v, g') := by
  refine ⟨fun j => ?_, fun k => ?_, h.intact, h.nodup, fun {_ _ k _} hu hk hr => ?_⟩
  · rw [husers]
    exact h.users j
  · rw [hroles, h.roles, Store.setRole, find_insert]
    split <;> simp [*]
  rw [Store.setRole, find_insert] at hr
  split at hr
  · next heq =>
    cases hr
    subst heq
    exact hv _ _ hu hk
  · next hne =>
    obtain ⟨hgrant, hperm⟩ := h.held hu hk hr
    exact ⟨hgrants ▸ hgrant, hperm.imp_right (hkept hne)⟩

lemma Backed.userDelete (name : Name) : Backed (follow (s, g) (.authUserDelete name)) := by
  have hold : ∀ {j u}, (s.users.erase name).find j = some u → j ≠ name ∧ s.users.find j = some u := by
    intro j u hu
    rw [find_erase] at hu
    split at hu
    · cases hu
    · next hj => exact ⟨hj, hu⟩
  refine ⟨fun j => ?_, h.roles, h.intact, fun hu => h.nodup (hold hu).2, fun hu hk hr => ?_⟩
  · change j ∈ g.users.filter _ ↔ ((s.users.erase name).find j).isSome
    rw [mem_filter, h.users, find_erase]
    split <;> simp [*]
  obtain ⟨hj, hu⟩ := hold hu
  obtain ⟨hgrant, hperm⟩ := h.held hu hk hr
  exact ⟨by simp [follow, InForce.next, hgrant, hj], hperm⟩

lemma Backed.roleDelete (role : Name) : Backed (follow (s, g) (.authRoleDelete role)) := by
  refine ⟨h.users, fun k => ?_, h.intact, h.nodup, fun {_ _ k r} hu hk hr => ?_⟩
  · change k ∈ g.roles.filter _ ↔ ((s.roles.erase role).find k).isSome
    rw [mem_filter, h.roles, find_erase]
    split <;> simp [*]
  change (s.roles.erase role).find k = some r at hr
  rw [find_erase] at hr
  split at hr
  · cases hr
  · next hne =>
    obtain ⟨hgrant, hperm⟩ := h.held hu hk hr
    exact ⟨by simp [follow, InForce.next, hgrant, hne],
      hperm.imp_right fun hin => by simp [follow, InForce.next, hin, hne]⟩

lemma Backed.userGrantRole (hcareful : Careful (s, g) (.authUserGrantRole user role)) :
    Backed (follow (s, g) (.authUserGrantRole user role)) := by
  simp only [follow, applyAuth, InForce.next, h.users, h.roles]
  cases hu : s.users.find user with
  | none => exact h
  | some u =>
    cases hr : s.roles.find role with
    | none => exact h
    | some r =>
      simp only [isSome_some, and_self, if_true]
      have hmore {j k : Name} {q : Role} (hk : Held g j k q) :
          Held { g with grants := (user, role) :: g.grants } j k q := ⟨mem_cons_of_mem _ hk.1, hk.2⟩
      split
      · exact ⟨h.users, h.roles, h.intact, h.nodup, fun hu hk hr => hmore (h.held hu hk hr)⟩
      next hnew =>
      refine h.setUser (h.user_or hu) rfl ?_ (fun _ => hmore) fun k q hk hq => ?_
      · exact nodup_append.2 ⟨h.nodup hu, nodup_singleton _, by
          rintro k hk _ hrole rfl
          exact hnew (mem_singleton.1 hrole ▸ hk)⟩
      obtain hk | hk := mem_append.1 hk
      · exact hmore (h.held hu hk hq)
      rw [mem_singleton.1 hk] at hq ⊢
      exact ⟨mem_cons_self, hcareful q hq⟩

lemma Backed.userRevokeRole (hcareful : Careful (s, g) (.authUserRevokeRole user role)) :
    Backed (follow (s, g) (.authUserRevokeRole user role)) := by
  simp only [follow, applyAuth, InForce.next]
  cases hu : s.users.find user with
  | none =>
    -- the grants that go are those of nobody
    refine ⟨h.users, h.roles, h.intact, h.nodup, fun {name} {_ _ _} hv hk hr => ?_⟩
    have hne : name ≠ user := by
      rintro rfl
      rw [hu] at hv
      cases hv
    exact ⟨by simp [(h.held hv hk hr).1, hne], (h.held hv hk hr).2⟩
  | some u =>
    have hset : Backed (s.setUser user (u.revoke role),
        { g with grants := g.grants.filter fun e => e ≠ (user, role) }) := by
      refine h.setUser (h.user_or hu) rfl (roles_revoke ▸ (h.nodup hu).erase _)
        (fun hj hk => ⟨by simp [hk.1, hj], hk.2⟩) fun k r hk hr => ?_
      rw [roles_revoke] at hk
      obtain ⟨hne, hk⟩ := (h.nodup hu).mem_erase_iff.1 hk
      exact ⟨by simp [(h.held hu hk hr).1, hne], (h.held hu hk hr).2⟩
    have hintact : s.overrun = false := h.intact
    exact ⟨hset.users, hset.roles, by simp [hintact, hcareful u hu], hset.nodup, hset.held⟩

lemma Backed.roleGrantPerm (key rangeEnd : List UInt8) (permType : PermType) :
    Backed (follow (s, g) (.authRoleGrantPerm role key permType rangeEnd)) := by
  simp only [follow, applyAuth, InForce.next, h.roles]
  cases hr : s.roles.find role with
  | none => exact h
  | some r =>
    simp only [isSome_some, if_true]
    exact h.setRole rfl (h.role_or hr) rfl (fun _ => mem_cons_of_mem _) fun name u hu hk =>
      ⟨(h.held hu hk hr).1, .inr mem_cons_self⟩

lemma Backed.roleRevokePerm (key rangeEnd : List UInt8) :
    Backed (follow (s, g) (.authRoleRevokePerm role key rangeEnd)) := by
  simp only [follow, applyAuth]
  -- what another role has stays, and so does a permission that is not the one revoked
  have hother {k : Name} {r : Role} (hne : k = role → revokes r key rangeEnd = false)
      (hin : (k, r) ∈ g.perms) : (k, r) ∈ (g.next (.authRoleRevokePerm role key rangeEnd)).perms := by
    refine mem_filter.2 ⟨hin, ?_⟩
    by_cases heq : k = role <;> simp [heq, hne]
  have hkeep (hr : ∀ r, s.roles.find role = some r → revokes r key rangeEnd = false) :
      Backed (s, g.next (.authRoleRevokePerm role key rangeEnd)) := by
    refine ⟨h.users, h.roles, h.intact, h.nodup, fun {_ _ k r} hu hk hfind => ?_⟩
    obtain ⟨hgrant, hperm⟩ := h.held hu hk hfind
    exact ⟨hgrant, hperm.imp_right (hother fun heq => hr r (heq ▸ hfind))⟩
  cases hr : s.roles.find role with
  | none => exact hkeep (by simp [hr])
  | some r =>
    dsimp only
    split
    · exact h.setRole rfl (h.role_or hr) rfl (fun hne => hother fun heq => absurd heq hne)
        fun name u hu hk => ⟨(h.held hu hk hr).1, .inl rfl⟩
    · next hno => exact hkeep (by simpa [hr] using hno)

lemma Backed.step {e : LogCall} (hcareful : Careful (s, g) e) : Backed (follow (s, g) e) := by
  cases e with
  | authEnabled on =>
    simp only [follow, applyAuth]
    split <;> exact ⟨h.users, h.roles, h.intact, h.nodup, h.held⟩
  | authUserAdd name hash =>
    simp only [follow, applyAuth, InForce.next]
    cases husable : usable name hash with
    | false => simpa using h
    | true =>
      cases hfind : s.users.find name with
      | none => exact h.setUser (fun _ => mem_cons) rfl nodup_nil (fun _ hk => hk) (by simp)
      | some u =>
        exact ⟨fun j => mem_cons.trans ((h.user_or hfind j).symm.trans (h.users j)), h.roles, h.intact,
          h.nodup, h.held⟩
  | authUserDelete name => exact h.userDelete name
  | authRoleAdd role =>
    simp only [follow, applyAuth, InForce.next]
    cases hfind : s.roles.find role with
    | none =>
      -- nobody holds the new role
      exact h.setRole rfl (fun _ => mem_cons) rfl (fun _ hin => hin) fun name u hu hk =>
        absurd hk (hcareful hfind name u hu)
    | some r =>
      exact ⟨h.users, fun k => mem_cons.trans ((h.role_or hfind k).symm.trans (h.roles k)), h.intact,
        h.nodup, h.held⟩
  | authRoleDelete role => exact h.roleDelete role
  | authUserGrantRole user role => exact h.userGrantRole hcareful
  | authUserRevokeRole user role => exact h.userRevokeRole hcareful
  | authRoleGrantPerm role key permType rangeEnd => exact h.roleGrantPerm key rangeEnd permType
  | authRoleRevokePerm role key rangeEnd => exact h.roleRevokePerm key rangeEnd
  | authUserChangePass name hash =>
    simp only [follow, applyAuth, InForce.next]
    cases hu : s.users.find name with
    | none => exact h
    | some u =>
      dsimp only
      split
      · exact h.setUser (h.user_or hu) rfl (h.nodup (u := u) hu) (fun _ hk => hk)
          fun _ _ => h.held (u := u) hu
      · exact h
  | _ => exact h

end

lemma Backed.run {p : Store × InForce} (h : Backed p) {es : List LogCall} (hes : AllCareful p es) :
    Backed (es.foldl follow p) := by
  induction es generalizing p with
  | nil => exact h
  | cons e es ih => exact ih (h.step hes.1) hes.2

/-! ## Deleted roles -/

lemma InForce.grants_next {e : LogCall} (h : (user, role) ∈ (g.next e).grants) :
    (user, role) ∈ g.grants ∨ e = .authUserGrantRole user role := by
  cases e with
  | authUserGrantRole user' role' =>
    simp only [InForce.next] at h
    split at h
    · obtain heq | h := mem_cons.1 h
      · cases heq
        exact .inr rfl
      · exact .inl h
    · exact .inl h
  | authUserAdd name hash | authRoleGrantPerm role key permType rangeEnd =>
    simp only [InForce.next] at h
    split at h <;> exact .inl h
  | authUserDelete name | authRoleDelete role | authUserRevokeRole user role =>
    exact .inl (mem_of_mem_filter h)
  | _ => exact .inl h

lemma grants_run {p : Store × InForce} {es : List LogCall}
    (h : (user, role) ∈ (es.foldl follow p).2.grants) :
    (user, role) ∈ p.2.grants ∨ .authUserGrantRole user role ∈ es := by
  induction es generalizing p with
  | nil => exact .inl h
  | cons e es ih =>
    obtain h | h := ih h
    · obtain h | rfl := InForce.grants_next h
      · exact .inl h
      · exact .inr mem_cons_self
    · exact .inr (mem_cons_of_mem _ h)

/-- Who has a role at the end was given it after it was last deleted. -/
lemma granted_after_delete {p : Store × InForce} {before after : List LogCall}
    (h : (user, role) ∈ ((before ++ .authRoleDelete role :: after).foldl follow p).2.grants) :
    .authUserGrantRole user role ∈ after := by
  rw [foldl_append, foldl_cons] at h
  exact (grants_run h).resolve_left (by simp [follow, InForce.next])

/-- **Rights come from grants in force.** If roles are created only under names that nobody holds,
given away only once all they allow was granted, and revoked only where the blob is not overrun:
while authentication is on, who passes the test and is no administrator is entitled to it by a role,
which they were granted after every deletion of it. -/
theorem rights_from_grants {es : List LogCall} (hes : AllCareful start es) {user : Name}
    {key : Mvcc.Key} {wantWrite : Bool} (hon : (es.foldl follow start).1.enabled = true)
    (hadmin : (es.foldl follow start).1.view.isAdmin user = false)
    (hpass : (es.foldl follow start).1.view.checkPerm user key wantWrite = true) :
    (es.foldl follow start).1.overrun = false ∧
      ∃ role, EntitledBy (es.foldl follow start).2 user role key wantWrite ∧
        ∀ before after, es = before ++ .authRoleDelete role :: after →
          .authUserGrantRole user role ∈ after := by
  have hstart : Backed start :=
    ⟨by simp [start, Store.new], by simp [start, Store.new], rfl, nofun, nofun⟩
  have hend := hstart.run hes
  obtain ⟨u, role, r, hu, hrole, hr, hallows⟩ := exists_of_checkPerm hon hadmin hpass
  obtain ⟨hgrant, hperm⟩ := hend.held hu hrole hr
  refine ⟨hend.intact, role, ?_, ?_⟩
  · obtain rfl | hperm := hperm
    · cases wantWrite <;> exact absurd hallows Bool.false_ne_true
    · exact ⟨hgrant, r, hperm, hallows⟩
  rintro before after rfl
  exact granted_after_delete hgrant

/-- User `a` and role `r`; a permission for `k`, then the role for the user. -/
def granting : List LogCall :=
  [.authUserAdd root [1], .authEnabled true, .authUserAdd [97] [1], .authRoleAdd [114],
    .authRoleGrantPerm [114] [107] .read [], .authUserGrantRole [97] [114]]

/-- The same again, after the role was revoked and deleted. -/
def granted : List LogCall :=
  granting ++ [.authUserRevokeRole [97] [114], .authRoleDelete [114], .authRoleAdd [114],
    .authRoleGrantPerm [114] [107] .read [], .authUserGrantRole [97] [114]]

theorem rights_from_grants_again :
    ∃ role, EntitledBy (granted.foldl follow start).2 [97] role [107] false := by
  have hfree {s : Store} (h : ∀ e ∈ s.users.entries, [114] ∉ e.2.roles) (name : Name) (u : User)
      (hu : s.users.find name = some u) : [114] ∉ u.roles := h _ (find_eq_some.1 hu)
  have hgiven {s : Store} {g : InForce} {r : Role} (hs : s.roles.find [114] = some r)
      (hg : ([114], r) ∈ g.perms) (q : Role) (hq : s.roles.find [114] = some q) :
      q = bareRole ∨ ([114], q) ∈ g.perms := by
    rw [hs] at hq
    exact .inr (Option.some.inj hq ▸ hg)
  have hcareful : AllCareful start granted :=
    ⟨trivial, trivial, trivial, fun _ => hfree (by decide +kernel), trivial, hgiven rfl mem_cons_self,
      fun u hu => by cases hu; decide +kernel, trivial, fun _ => hfree (by decide +kernel), trivial,
      hgiven rfl mem_cons_self, trivial⟩
  obtain ⟨_, role, hby, _⟩ := @rights_from_grants granted hcareful [97] [107] false
    (by decide +kernel) (by decide +kernel) (by decide +kernel)
  exact ⟨role, hby⟩

def recreated : Store × InForce :=
  follow (follow (granting.foldl follow start) (.authRoleDelete [114])) (.authRoleAdd [114])

/-- The user may read `/x`, though nothing was granted since. -/
theorem recreated_role_gives_access :
    recreated.1.enabled = true ∧ recreated.1.view.isAdmin [97] = false ∧
      recreated.1.view.checkPerm [97] [47, 120] false = true ∧
      ¬ ∃ role, EntitledBy recreated.2 [97] role [47, 120] false := by
  refine ⟨by decide +kernel, by decide +kernel, by decide +kernel, ?_⟩
  rintro ⟨role, hgrant, _⟩
  have hnone : recreated.2.grants = [] := by decide +kernel
  rw [hnone] at hgrant
  cases hgrant

end Cetcd.Auth
