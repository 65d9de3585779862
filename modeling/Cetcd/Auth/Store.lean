import Cetcd.Apply.Codec
import Cetcd.Rpc.Requests

/-!
# The authorization store

`cetcd_auth_store` and what the applied entries make of it. The hash maps are finite maps, the role
blob of a user is the list of its names.
-/

namespace Cetcd.Auth

open Lib Apply Rpc

/-- `slack` is what the block of the role blob has left behind the last name. -/
structure User where
  passwordHash : List UInt8
  roles : List Name := []
  slack : Nat := 0
  deriving DecidableEq

/-- `overrun` says that bytes past the end of a role blob were used. -/
structure Store where
  users : OrdMap Name User
  roles : OrdMap Name Role
  enabled : Bool
  overrun : Bool := false
  deriving DecidableEq

def Store.new : Store := { users := .empty, roles := .empty, enabled := false }

/-- What the permission test reads. -/
def Store.view (s : Store) : AuthStore :=
  ⟨s.enabled, s.users.entries.map fun e => (e.1, e.2.roles), s.roles.entries⟩

/-- The test of `cetcd_auth_add_user_hash` and `cetcd_auth_set_user_hash`. -/
def usable (name : Name) (hash : List UInt8) : Bool := name ≠ [] && hash ≠ [] && hash.length ≤ 64

/-- The role that `AUTH_ROLE_ADD` makes: it may read and write under `/`. -/
def newRole : Role := ⟨true, true, [47], []⟩

/-- The role after a permission was taken away. -/
def bareRole : Role := ⟨false, false, [], []⟩

/-- The fields of `cetcd_auth_grant_permission_range`. -/
def grantedRole (permType : PermType) (key rangeEnd : List UInt8) : Role :=
  ⟨permType ≠ .write, permType ≠ .read, key.take 255, rangeEnd.take 255⟩

/-- `cetcd_auth_revoke_permission_key_range`: what is not named fits everything. -/
def revokes (r : Role) (key rangeEnd : List UInt8) : Bool :=
  (key = [] || r.keyPrefix = key) && (rangeEnd = [] || r.rangeEnd = rangeEnd)

def Store.setUser (s : Store) (name : Name) (u : User) : Store := { s with users := s.users.insert name u }

def Store.setRole (s : Store) (name : Name) (r : Role) : Store := { s with roles := s.roles.insert name r }

/-- Where a role begins in the blob. -/
def User.offset (u : User) (role : Name) : Nat :=
  ((u.roles.takeWhile fun k => k ≠ role).map fun k => k.length + 1).sum

/-- `cetcd_auth_revoke_role` moves as many bytes as if the role were the first of the blob, so it
reads, and may write, past the end of the block if its offset is more than what is left there. -/
def User.overruns (u : User) (role : Name) : Bool := role ∈ u.roles && u.slack < u.offset role

/-- A block without names is freed, and is not made smaller before. -/
def User.revoke (u : User) (role : Name) : User :=
  if role ∈ u.roles then
    { u with
      roles := u.roles.erase role
      slack := if u.roles.erase role = [] then 0 else u.slack + role.length + 1 }
  else u

/-- One that is refused leaves the store. After an overrun the role lists are those of a run in which
the bytes past the end did no harm. -/
def applyAuth (s : Store) : LogCall → Store
  | .authEnabled on =>
    if on && (s.users.find root).isNone then s else { s with enabled := on }
  | .authUserAdd name hash =>
    if (s.users.find name).isSome || !usable name hash then s else s.setUser name { passwordHash := hash }
  | .authUserDelete name => { s with users := s.users.erase name }
  | .authRoleAdd name => if (s.roles.find name).isSome then s else s.setRole name newRole
  | .authRoleDelete name => { s with roles := s.roles.erase name }
  | .authUserGrantRole user role =>
    match s.users.find user, s.roles.find role with
    | some u, some _ =>
      if role ∈ u.roles then s else s.setUser user { u with roles := u.roles ++ [role], slack := 0 }
    | _, _ => s
  | .authUserRevokeRole user role =>
    match s.users.find user with
    | some u =>
      { s.setUser user (u.revoke role) with overrun := s.overrun || u.overruns role }
    | none => s
  | .authRoleGrantPerm role key permType rangeEnd =>
    match s.roles.find role with
    | some _ => s.setRole role (grantedRole permType key rangeEnd)
    | none => s
  | .authRoleRevokePerm role key rangeEnd =>
    match s.roles.find role with
    | some r => if revokes r key rangeEnd then s.setRole role bareRole else s
    | none => s
  | .authUserChangePass name hash =>
    match s.users.find name with
    | some u => if usable name hash then s.setUser name { u with passwordHash := hash } else s
    | none => s
  | _ => s

end Cetcd.Auth
