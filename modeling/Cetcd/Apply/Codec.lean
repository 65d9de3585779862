import Cetcd.Apply.Entry
import Cetcd.Lib.Proto

/-!
# The codec of log entries

The encoders of `apply.c` and the decoder of the applying side. Names and addresses are copied to
buffers of a fixed size: a longer name is refused, a longer address is cut, and what is behind the
cut is read as the port. A name ends at its first zero byte.
-/

namespace Cetcd.Apply

open Lib List Option

/-! ## Operations -/

inductive PermType
  | read
  | write
  | readwrite
  deriving DecidableEq

def PermType.code : PermType → Nat
  | .read => 0
  | .write => 1
  | .readwrite => 2

def PermType.ofCode : Nat → Option PermType
  | 0 => some .read
  | 1 => some .write
  | 2 => some .readwrite
  | _ => none

inductive AlarmAction
  | activate
  | deactivate
  deriving DecidableEq

def AlarmAction.code : AlarmAction → Nat
  | .activate => 1
  | .deactivate => 2

def AlarmAction.ofCode : Nat → Option AlarmAction
  | 1 => some .activate
  | 2 => some .deactivate
  | _ => none

inductive AlarmType
  | nospace
  | corrupt
  deriving DecidableEq

def AlarmType.code : AlarmType → Nat
  | .nospace => 1
  | .corrupt => 2

def AlarmType.ofCode : Nat → Option AlarmType
  | 1 => some .nospace
  | 2 => some .corrupt
  | _ => none

/-- A C string. -/
abbrev Text := { bs : List UInt8 // 0 ∉ bs }

def textOf (bs : List UInt8) : Text := ⟨cString bs, zero_notMem_cString bs⟩

/-- An operation with the arguments of its encoder. -/
inductive LogCall
  | put (key value : List UInt8) (leaseId : Int64)
  | delete (key : List UInt8)
  | deleteRange (key rangeEnd : List UInt8)
  | memberAdd (id : UInt64) (isLearner : Bool) (addr : Text) (port : UInt16)
  | memberRemove (id : UInt64)
  | memberPromote (id : UInt64)
  | memberUpdate (id : UInt64) (addr : Text) (port : UInt16)
  | leaveJoint
  | leaseRevoke (id : UInt64)
  | compact (revision : Int64)
  | leaseGrant (id : UInt64) (ttl : Int64)
  | leaseKeepalive (id : UInt64) (ttl : Int64)
  | authUserAdd (name hash : List UInt8)
  | authEnabled (enabled : Bool)
  | authUserDelete (name : List UInt8)
  | authRoleAdd (name : List UInt8)
  | authRoleDelete (name : List UInt8)
  | authUserGrantRole (user role : List UInt8)
  | authUserRevokeRole (user role : List UInt8)
  | authRoleGrantPerm (role key : List UInt8) (permType : PermType) (rangeEnd : List UInt8)
  | authRoleRevokePerm (role key rangeEnd : List UInt8)
  | authUserChangePass (name hash : List UInt8)
  | alarm (action : AlarmAction) (alarmType : AlarmType) (memberId : UInt64)
  deriving DecidableEq

/-! ## The encoders -/

/-- The bytes written to a buffer of `cap` bytes; `write_varint_` stops at its end. -/
def written (cap : Nat) (bytes : List UInt8) : Option (List UInt8) :=
  if 2 ^ 63 ≤ cap ∨ cap < bytes.length then none else some bytes

def slice (bs : List UInt8) : List UInt8 := writeVarint bs.length ++ bs

def encodeTagged (tag : UInt8) (a b : List UInt8) (extra : Option Nat) : Option (List UInt8) :=
  written (1 + 10 + a.length + 10 + b.length + 16)
    (tag :: (slice a ++ (slice b ++ (extra.map writeVarint).getD [])))

def encodePut (key value : List UInt8) (leaseId : Int64) : Option (List UInt8) :=
  if key = [] then none else encodeTagged 1 key value (some leaseId.toUInt64.toNat)

def encodeDelete (key : List UInt8) : Option (List UInt8) :=
  if key = [] then none else encodeTagged 2 key [] none

def encodeDeleteRange (key rangeEnd : List UInt8) : Option (List UInt8) :=
  if key = [] then none else encodeTagged 4 key rangeEnd none

def encodeMemberAdd (id : UInt64) (isLearner : Bool) (addr : Text) (port : UInt16) :
    Option (List UInt8) :=
  if id = 0 then none
  else
    written (1 + 10 + 10 + 10 + addr.1.length + 10)
      (5 :: (writeVarint id.toNat ++ (writeVarint (if isLearner then 1 else 0) ++
        (slice addr.1 ++ writeVarint port.toNat))))

/-- The operations with one number, which is not zero. -/
def encodeNumber (tag : UInt8) (n : UInt64) : Option (List UInt8) :=
  if n = 0 then none else written 16 (tag :: writeVarint n.toNat)

def encodeMemberRemove (id : UInt64) : Option (List UInt8) := encodeNumber 6 id

def encodeMemberPromote (id : UInt64) : Option (List UInt8) := encodeNumber 7 id

def encodeMemberUpdate (id : UInt64) (addr : Text) (port : UInt16) : Option (List UInt8) :=
  if id = 0 then none
  else
    written (1 + 10 + 10 + addr.1.length + 10)
      (8 :: (writeVarint id.toNat ++ (slice addr.1 ++ writeVarint port.toNat)))

def encodeLeaseRevoke (id : UInt64) : Option (List UInt8) := encodeNumber 10 id

def encodeCompact (revision : Int64) : Option (List UInt8) :=
  if revision ≤ 0 then none else written 16 (11 :: writeVarint revision.toUInt64.toNat)

/-- The operations on one lease that carry a time to live. -/
def encodeLease (tag : UInt8) (id : UInt64) (ttl : Int64) : Option (List UInt8) :=
  if id = 0 ∨ ttl ≤ 0 ∨ Lease.maxLeaseTtl < ttl.toInt then none
  else written 24 (tag :: (writeVarint id.toNat ++ writeVarint ttl.toUInt64.toNat))

def encodeLeaseGrant (id : UInt64) (ttl : Int64) : Option (List UInt8) := encodeLease 12 id ttl

def encodeLeaseKeepalive (id : UInt64) (ttl : Int64) : Option (List UInt8) := encodeLease 13 id ttl

/-- The operations on two names, or a name and a hash. -/
def encodePair (tag : UInt8) (a b : List UInt8) : Option (List UInt8) :=
  if a = [] ∨ b = [] then none else encodeTagged tag a b none

def encodeName (tag : UInt8) (name : List UInt8) : Option (List UInt8) :=
  if name = [] then none else encodeTagged tag name [] none

def encodeAuthUserAdd (name hash : List UInt8) : Option (List UInt8) := encodePair 14 name hash

def encodeAuthEnabled (enabled : Bool) : Option (List UInt8) :=
  written 8 (15 :: writeVarint (if enabled then 1 else 0))

def encodeAuthUserDelete (name : List UInt8) : Option (List UInt8) := encodeName 16 name

def encodeAuthRoleAdd (name : List UInt8) : Option (List UInt8) := encodeName 17 name

def encodeAuthRoleDelete (name : List UInt8) : Option (List UInt8) := encodeName 18 name

def encodeAuthUserGrantRole (user role : List UInt8) : Option (List UInt8) := encodePair 19 user role

def encodeAuthUserRevokeRole (user role : List UInt8) : Option (List UInt8) := encodePair 20 user role

/-- The range end appended to an operation, unless it is empty. -/
def withRangeEnd (rangeEnd entry : List UInt8) : Option (List UInt8) :=
  if rangeEnd = [] then some entry
  else written (entry.length + 10 + rangeEnd.length) (entry ++ slice rangeEnd)

/-- `cetcd_apply_encode_auth_role_grant_perm_range`, also for no range end. -/
def encodeAuthRoleGrantPerm (role key : List UInt8) (permType : PermType) (rangeEnd : List UInt8) :
    Option (List UInt8) :=
  if role = [] then none
  else (encodeTagged 21 role key (some permType.code)).bind (withRangeEnd rangeEnd)

/-- `cetcd_apply_encode_auth_role_revoke_perm_range`, also for no range end. -/
def encodeAuthRoleRevokePerm (role key rangeEnd : List UInt8) : Option (List UInt8) :=
  if role = [] then none else (encodeTagged 22 role key none).bind (withRangeEnd rangeEnd)

def encodeAuthUserChangePass (name hash : List UInt8) : Option (List UInt8) := encodePair 23 name hash

def encodeAlarm (action : AlarmAction) (alarmType : AlarmType) (memberId : UInt64) :
    Option (List UInt8) :=
  written 32 (24 :: (writeVarint action.code ++ (writeVarint alarmType.code ++
    writeVarint memberId.toNat)))

def encode : LogCall → Option (List UInt8)
  | .put key value leaseId => encodePut key value leaseId
  | .delete key => encodeDelete key
  | .deleteRange key rangeEnd => encodeDeleteRange key rangeEnd
  | .memberAdd id isLearner addr port => encodeMemberAdd id isLearner addr port
  | .memberRemove id => encodeMemberRemove id
  | .memberPromote id => encodeMemberPromote id
  | .memberUpdate id addr port => encodeMemberUpdate id addr port
  -- `maybe_propose_leave_joint_` proposes the tag itself
  | .leaveJoint => some [9]
  | .leaseRevoke id => encodeLeaseRevoke id
  | .compact revision => encodeCompact revision
  | .leaseGrant id ttl => encodeLeaseGrant id ttl
  | .leaseKeepalive id ttl => encodeLeaseKeepalive id ttl
  | .authUserAdd name hash => encodeAuthUserAdd name hash
  | .authEnabled enabled => encodeAuthEnabled enabled
  | .authUserDelete name => encodeAuthUserDelete name
  | .authRoleAdd name => encodeAuthRoleAdd name
  | .authRoleDelete name => encodeAuthRoleDelete name
  | .authUserGrantRole user role => encodeAuthUserGrantRole user role
  | .authUserRevokeRole user role => encodeAuthUserRevokeRole user role
  | .authRoleGrantPerm role key permType rangeEnd => encodeAuthRoleGrantPerm role key permType rangeEnd
  | .authRoleRevokePerm role key rangeEnd => encodeAuthRoleRevokePerm role key rangeEnd
  | .authUserChangePass name hash => encodeAuthUserChangePass name hash
  | .alarm action alarmType memberId => encodeAlarm action alarmType memberId

/-- `cetcd_apply_encode_batch`: one operation alone is copied. -/
def encodeBatch (ops : List (List UInt8)) : Option (List UInt8) :=
  if ops.length = 0 ∨ 128 < ops.length then none
  else if ops.length = 1 then some ops.flatten
  else
    written (1 + 10 + (ops.map fun op => 10 + op.length).sum)
      (3 :: (writeVarint ops.length ++ ops.flatMap slice))

/-! ## The decoder -/

def nameOf (bs : List UInt8) : Option (List UInt8) :=
  if 128 ≤ bs.length then none else some (cString bs)

/-- A part that may not be empty. -/
def readPart (bs : List UInt8) : Option (List UInt8) :=
  match readSlice bs with
  | none => none
  | some ([], _) => none
  | some (part, _) => some part

/-- The range end of a permission, which older entries do not have. -/
def readRangeEnd (bs : List UInt8) : Option (List UInt8) :=
  if bs = [] then some []
  else
    match readSlice bs with
    | none => none
    | some (rangeEnd, _) => if 256 ≤ rangeEnd.length then none else some rangeEnd

/-- The operations on a name and a second part. -/
def decodePair (name rest : List UInt8) (second : List UInt8 → Option (List UInt8))
    (call : List UInt8 → List UInt8 → LogCall) : Option LogCall :=
  (readPart rest).bind fun part =>
    (nameOf name).bind fun name => (second part).map fun part => call name part

/-- The range end is read when the role has been found. -/
def decodeGrantPerm (role rest : List UInt8) : Option LogCall :=
  match readSlice rest with
  | none => none
  | some (key, rest) =>
    match readVarint rest with
    | none => none
    | some (permType, rest) =>
      (PermType.ofCode permType).bind fun permType =>
        if 256 ≤ key.length then none
        else
          (nameOf role).bind fun role =>
            (readRangeEnd rest).map fun rangeEnd => .authRoleGrantPerm role key permType rangeEnd

def decodeRevokePerm (role rest : List UInt8) : Option LogCall :=
  match (if rest = [] then some ([], []) else readSlice rest) with
  | none => none
  | some (key, rest) =>
    (readRangeEnd rest).bind fun rangeEnd =>
      if 256 ≤ key.length then none
      else (nameOf role).map fun role => .authRoleRevokePerm role key rangeEnd

def decodeNamed (tag : Nat) (key rest : List UInt8) : Option LogCall :=
  match tag with
  | 1 =>
    match readSlice rest with
    | none => none
    | some (value, []) => some (.put key value 0)
    | some (value, more) => (readVarint more).map fun p => .put key value (int64 p.1)
  | 2 => some (.delete key)
  | 4 => (readSlice rest).map fun p => .deleteRange key p.1
  | 14 => decodePair key rest some .authUserAdd
  | 16 => (nameOf key).map .authUserDelete
  | 17 => (nameOf key).map .authRoleAdd
  | 18 => (nameOf key).map .authRoleDelete
  | 19 => decodePair key rest nameOf .authUserGrantRole
  | 20 => decodePair key rest nameOf .authUserRevokeRole
  | 21 => decodeGrantPerm key rest
  | 22 => decodeRevokePerm key rest
  | 23 => decodePair key rest some .authUserChangePass
  | _ => none

/-- The operations with one number, which is not zero. -/
def decodeNumber (rest : List UInt8) (call : Nat → LogCall) : Option LogCall :=
  match readVarint rest with
  | none => none
  | some (n, _) => if n = 0 then none else some (call n)

/-- `CETCD_APPLY_LEASE_GRANT` and `CETCD_APPLY_LEASE_KEEPALIVE`. -/
def decodeLeaseCall (rest : List UInt8) (call : UInt64 → Int64 → LogCall) : Option LogCall :=
  match readVarint rest with
  | none => none
  | some (id, rest) =>
    if id = 0 then none
    else
      match readVarint rest with
      | none => none
      | some (ttl, _) =>
        if ttl = 0 then none
        else if Lease.maxLeaseTtl < (int64 ttl).toInt then none
        else some (call (UInt64.ofNat id) (int64 ttl))

/-- The end of `apply_member_`: the address goes to `char addr[256]`. -/
def decodeAddr (rest : List UInt8) (call : Text → UInt16 → LogCall) : Option LogCall :=
  match readVarint rest with
  | none => none
  | some (alen, rest) =>
    if rest.length < alen then none
    else
      let alen := if 256 ≤ alen then 255 else alen
      (readVarint (rest.drop alen)).map fun port =>
        call (textOf (rest.take alen)) (UInt16.ofNat port.1)

def decodeMember (tag : Nat) (rest : List UInt8) : Option LogCall :=
  match readVarint rest with
  | none => none
  | some (id, rest) =>
    if id = 0 then none
    else if tag = 6 then some (.memberRemove (UInt64.ofNat id))
    else if tag = 7 then some (.memberPromote (UInt64.ofNat id))
    else if tag = 5 then
      match readVarint rest with
      | none => none
      | some (isLearner, rest) => decodeAddr rest (.memberAdd (UInt64.ofNat id) (isLearner ≠ 0))
    else decodeAddr rest (.memberUpdate (UInt64.ofNat id))

def decodeAlarmCall (rest : List UInt8) : Option LogCall :=
  match readVarint rest with
  | none => none
  | some (action, rest) =>
    match readVarint rest with
    | none => none
    | some (typ, rest) =>
      match readVarint rest with
      | none => none
      | some (member, _) =>
        (AlarmAction.ofCode action).bind fun action =>
          (AlarmType.ofCode typ).map fun typ => .alarm action typ (UInt64.ofNat member)

def decodeEnabled (rest : List UInt8) : Option LogCall :=
  match readVarint rest with
  | none => none
  | some (on, _) => if 1 < on then none else some (.authEnabled (on ≠ 0))

/-- `apply_entry_inner_` but for batches: what it calls, or `none` where it returns -1 before. The
tests of the length refuse nothing that the reads would not. -/
def decodeCall (data : List UInt8) : Option LogCall :=
  match data with
  | [] => none
  | op :: rest =>
    match op.toNat with
    | 9 => some .leaveJoint
    | 10 => decodeNumber rest fun id => .leaseRevoke (UInt64.ofNat id)
    | 12 => decodeLeaseCall rest .leaseGrant
    | 13 => decodeLeaseCall rest .leaseKeepalive
    | 24 => decodeAlarmCall rest
    | 11 => decodeNumber rest fun rev => .compact (int64 rev)
    | 15 => decodeEnabled rest
    | 5 => decodeMember 5 rest
    | 6 => decodeMember 6 rest
    | 7 => decodeMember 7 rest
    | 8 => decodeMember 8 rest
    | tag =>
      match readSlice rest with
      | none => none
      | some ([], _) => none
      | some (key, rest) => decodeNamed tag key rest

def decodeCalls : Nat → List UInt8 → List (Option LogCall)
  | 0, _ => []
  | n + 1, bs =>
    match readSlice bs with
    | none => [none]
    | some ([], _) => [none]
    | some (op :: sub, rest) =>
      if op.toNat = 3 then [none] else decodeCall (op :: sub) :: decodeCalls n rest

def decodeAll (data : List UInt8) : List (Option LogCall) :=
  match data with
  | [] => [none]
  | op :: rest =>
    if op.toNat = 3 then
      match readVarint rest with
      | none => [none]
      | some (n, rest) => if n = 0 ∨ 128 < n then [none] else decodeCalls n rest
    else [decodeCall data]

/-- The calls up to the first refusal, and whether there was none. -/
def performed : List (Option LogCall) → List LogCall × Bool
  | [] => ([], true)
  | none :: _ => ([], false)
  | some c :: rest => (c :: (performed rest).1, (performed rest).2)

/-- What applying an entry calls, and whether all of the entry was understood. -/
def performs (data : List UInt8) : List LogCall × Bool := performed (decodeAll data)

/-! ## Reading what was written -/

variable {bs rangeEnd key role : Bytes} {id : UInt64} {addr : Text} {port : UInt16}
  {tag : UInt8} {cs : List LogCall} {ops : List (List UInt8)}

lemma written_eq_some {cap : Nat} {bytes : Bytes} (h : written cap bytes = some bs) :
    cap < 2 ^ 63 ∧ bytes = bs := by
  unfold written at h
  split at h
  · cases h
  · exact ⟨by omega, some.inj h⟩

lemma readSlice_slice (rest : Bytes) (h : bs.length < 2 ^ 63) :
    readSlice (slice bs ++ rest) = some (bs, rest) := by
  unfold readSlice slice
  rw [append_assoc, readVarint_writeVarint _ (by omega)]
  simp

lemma readVarint_uint64 (n : UInt64) (rest : Bytes) :
    readVarint (writeVarint n.toNat ++ rest) = some (n.toNat, rest) :=
  readVarint_writeVarint rest n.toNat_lt

lemma readVarint_alone {n : Nat} (h : n < 2 ^ 64) : readVarint (writeVarint n) = some (n, []) := by
  simpa using readVarint_writeVarint [] h

lemma slice_ne_nil (bs : Bytes) : slice bs ≠ [] := by
  have := length_writeVarint_pos bs.length
  intro h
  have hlen := congrArg List.length h
  simp only [slice, length_append, length_nil] at hlen
  omega

lemma readPart_slice (rest : Bytes) (h : bs.length < 2 ^ 63) (hne : bs ≠ []) :
    readPart (slice bs ++ rest) = some bs := by
  unfold readPart
  rw [readSlice_slice rest h]
  cases bs with
  | nil => exact absurd rfl hne
  | cons b bs => rfl

/-- A name that fits in `char name[128]`. -/
def IsName (bs : List UInt8) : Prop := bs.length < 128 ∧ 0 ∉ bs

lemma nameOf_eq_self_iff : nameOf bs = some bs ↔ IsName bs := by
  unfold nameOf IsName
  split
  · simp
    omega
  rw [some.injEq, cString_eq_self_iff]
  exact ⟨fun h => ⟨by omega, h⟩, fun h => h.2⟩

/-- The arguments that the buffers of the decoder can hold. -/
def LogCall.Fits : LogCall → Prop
  | .memberAdd _ _ addr _ => addr.1.length < 256
  | .memberUpdate _ addr _ => addr.1.length < 256
  | .authUserAdd name _ => IsName name
  | .authUserDelete name => IsName name
  | .authRoleAdd name => IsName name
  | .authRoleDelete name => IsName name
  | .authUserGrantRole user role => IsName user ∧ IsName role
  | .authUserRevokeRole user role => IsName user ∧ IsName role
  | .authRoleGrantPerm role key _ rangeEnd => IsName role ∧ key.length < 256 ∧ rangeEnd.length < 256
  | .authRoleRevokePerm role key rangeEnd => IsName role ∧ key.length < 256 ∧ rangeEnd.length < 256
  | .authUserChangePass name _ => IsName name
  | _ => True

section

variable {tag : UInt8} {a b bs : Bytes} {extra : Option Nat}

lemma decodeCall_tagged (h : encodeTagged tag a b extra = some bs) (ha : a ≠ [])
    (htag : tag.toNat = 1 ∨ tag.toNat = 2 ∨ tag.toNat = 4 ∨ tag.toNat = 14 ∨
      (16 ≤ tag.toNat ∧ tag.toNat ≤ 23)) :
    a.length < 2 ^ 63 ∧ b.length < 2 ^ 63 ∧
      bs = tag :: (slice a ++ (slice b ++ (extra.map writeVarint).getD [])) ∧
      ∀ more, decodeCall (bs ++ more) =
        decodeNamed tag.toNat a (slice b ++ ((extra.map writeVarint).getD [] ++ more)) := by
  obtain ⟨hcap, rfl⟩ := written_eq_some h
  have halen : a.length < 2 ^ 63 := by omega
  refine ⟨halen, by omega, rfl, fun more => ?_⟩
  have hread : readSlice (slice a ++ (slice b ++ ((extra.map writeVarint).getD [] ++ more))) =
      some (a, slice b ++ ((extra.map writeVarint).getD [] ++ more)) := readSlice_slice _ halen
  obtain ⟨x, xs, rfl⟩ := exists_cons_of_ne_nil ha
  unfold decodeCall
  simp only [cons_append, append_assoc]
  split <;> simp_all

lemma decodeCall_name {call : Bytes → LogCall} (h : encodeName tag a = some bs)
    (htag : tag.toNat = 16 ∨ tag.toNat = 17 ∨ tag.toNat = 18)
    (hcall : ∀ rest, decodeNamed tag.toNat a rest = (nameOf a).map call)
    (hinj : Function.Injective call) : decodeCall bs = some (call a) ↔ IsName a := by
  unfold encodeName at h
  split at h
  · cases h
  next hne =>
  obtain ⟨_, _, _, hdecode⟩ := decodeCall_tagged h hne (by omega)
  have hbs := hdecode []
  rw [append_nil, hcall] at hbs
  rw [hbs, ← nameOf_eq_self_iff, map_eq_some_iff]
  exact ⟨fun ⟨n, hn, heq⟩ => hinj heq ▸ hn, fun hn => ⟨a, hn, rfl⟩⟩

lemma decodeCall_pair {second : Bytes → Option Bytes}
    {call : Bytes → Bytes → LogCall} (h : encodePair tag a b = some bs)
    (htag : tag.toNat = 14 ∨ tag.toNat = 19 ∨ tag.toNat = 20 ∨ tag.toNat = 23)
    (hcall : ∀ rest, decodeNamed tag.toNat a rest = decodePair a rest second call)
    (hinj : ∀ {a b a' b'}, call a b = call a' b' → a = a' ∧ b = b') :
    decodeCall bs = some (call a b) ↔ IsName a ∧ second b = some b := by
  unfold encodePair at h
  split at h
  · cases h
  next hne =>
  rw [not_or] at hne
  obtain ⟨_, hb, _, hdecode⟩ := decodeCall_tagged h hne.1 (by omega)
  have hbs := hdecode []
  rw [append_nil, hcall, decodePair, readPart_slice _ hb hne.2] at hbs
  rw [hbs, ← nameOf_eq_self_iff]
  simp only [bind_some, bind_eq_some_iff, map_eq_some_iff]
  constructor
  · rintro ⟨n, hn, p, hp, heq⟩
    obtain ⟨rfl, rfl⟩ := hinj heq
    exact ⟨hn, hp⟩
  rintro ⟨hn, hp⟩
  exact ⟨a, hn, b, hp, rfl⟩

lemma toNat_ne_zero (h : id ≠ 0) : id.toNat ≠ 0 := fun h0 => h (UInt64.toNat_inj.1 h0)

lemma toUInt64_ne_zero {v : Int64} (h : ¬ v ≤ 0) : v.toUInt64 ≠ 0 := by
  intro hzero
  have : v = 0 := by rw [← Int64.toInt64_toUInt64 v, hzero]; rfl
  subst this
  exact h (by decide)

lemma decodeNumber_written {n : UInt64} {call : Nat → LogCall} (hn : n ≠ 0) :
    decodeNumber (writeVarint n.toNat) call = some (call n.toNat) := by
  unfold decodeNumber
  rw [readVarint_alone n.toNat_lt]
  simp [toNat_ne_zero hn]

lemma decodeLeaseCall_written {id : UInt64} {ttl : Int64} {call : UInt64 → Int64 → LogCall}
    (hid : id ≠ 0) (hpos : ¬ ttl ≤ 0) (hmax : ¬ Lease.maxLeaseTtl < ttl.toInt) :
    decodeLeaseCall (writeVarint id.toNat ++ writeVarint ttl.toUInt64.toNat) call =
      some (call id ttl) := by
  have httl := toNat_ne_zero (toUInt64_ne_zero hpos)
  unfold decodeLeaseCall
  rw [readVarint_uint64]
  simp only [toNat_ne_zero hid, if_false]
  rw [readVarint_alone (UInt64.toNat_lt _)]
  simp [httl, int64_toUInt64, hmax]

lemma decodeAddr_written {addr : Text} {port : UInt16} {call : Text → UInt16 → LogCall}
    (hlen : addr.1.length < 2 ^ 63) (hinj : ∀ {a p a' p'}, call a p = call a' p' → a = a') :
    decodeAddr (slice addr.1 ++ writeVarint port.toNat) call = some (call addr port) ↔
      addr.1.length < 256 := by
  unfold decodeAddr slice
  rw [append_assoc, readVarint_writeVarint _ (by omega)]
  simp only [length_append]
  rw [if_neg (by omega)]
  constructor
  · intro h
    by_contra hlong
    rw [if_pos (by omega), map_eq_some_iff] at h
    obtain ⟨_, _, heq⟩ := h
    have haddr : (textOf _).1.length = addr.1.length := congrArg (·.1.length) (hinj heq)
    have hcut := length_cString_le ((addr.1 ++ writeVarint port.toNat).take 255)
    simp only [textOf] at haddr
    rw [length_take] at hcut
    omega
  intro hshort
  rw [if_neg (by omega)]
  have hport : port.toNat < 2 ^ 64 := by have := port.toNat_lt; omega
  simp only [drop_left, take_left, readVarint_alone hport, map_some]
  rw [UInt16.ofNat_toNat, show textOf addr.1 = addr from Subtype.ext (cString_eq_self_iff.2 addr.2)]

lemma readRangeEnd_written {rangeEnd : Bytes} (hlen : rangeEnd.length < 2 ^ 63) :
    readRangeEnd (if rangeEnd = [] then [] else slice rangeEnd) =
      if 256 ≤ rangeEnd.length then none else some rangeEnd := by
  unfold readRangeEnd
  split
  · next h =>
    simp [h]
  next h =>
  have hread := readSlice_slice [] hlen
  rw [append_nil] at hread
  rw [if_neg (slice_ne_nil rangeEnd), hread]

end

lemma withRangeEnd_eq_some {entry : Bytes} (h : withRangeEnd rangeEnd entry = some bs) :
    rangeEnd.length < 2 ^ 63 ∧ bs = entry ++ if rangeEnd = [] then [] else slice rangeEnd := by
  unfold withRangeEnd at h
  split at h
  · next hnil => simp_all
  next hne =>
  obtain ⟨hcap, rfl⟩ := written_eq_some h
  exact ⟨by omega, by rw [if_neg hne]⟩

/-! ## Every operation -/

lemma decodeCall_put {value : Bytes} {leaseId : Int64}
    (h : encodePut key value leaseId = some bs) :
    decodeCall bs = some (.put key value leaseId) := by
  unfold encodePut at h
  split at h
  · cases h
  next hne =>
  obtain ⟨_, hvalue, _, hdecode⟩ := decodeCall_tagged h hne (by decide)
  have hbs := hdecode []
  rw [append_nil] at hbs
  rw [hbs]
  -- the lease is always written, so the branch for older entries is not taken
  have hlease : writeVarint leaseId.toUInt64.toNat ≠ [] := by
    have := length_writeVarint_pos leaseId.toUInt64.toNat
    exact ne_nil_of_length_pos (by omega)
  obtain ⟨x, xs, hx⟩ := exists_cons_of_ne_nil hlease
  have hread := readVarint_alone leaseId.toUInt64.toNat_lt
  rw [hx] at hread
  simp [decodeNamed, readSlice_slice _ hvalue, hx, hread, int64_toUInt64]

lemma decodeCall_delete (h : encodeDelete key = some bs) : decodeCall bs = some (.delete key) := by
  unfold encodeDelete at h
  split at h
  · cases h
  next hne =>
  obtain ⟨_, _, _, hdecode⟩ := decodeCall_tagged h hne (by decide)
  simpa [decodeNamed] using hdecode []

lemma decodeCall_deleteRange (h : encodeDeleteRange key rangeEnd = some bs) :
    decodeCall bs = some (.deleteRange key rangeEnd) := by
  unfold encodeDeleteRange at h
  split at h
  · cases h
  next hne =>
  obtain ⟨_, hend, _, hdecode⟩ := decodeCall_tagged h hne (by decide)
  have hbs := hdecode []
  rw [append_nil] at hbs
  rw [hbs]
  change Option.map _ (readSlice _) = _
  rw [readSlice_slice _ hend]
  rfl

lemma decodeCall_memberAdd {isLearner : Bool}
    (h : encodeMemberAdd id isLearner addr port = some bs) :
    decodeCall bs = some (.memberAdd id isLearner addr port) ↔ addr.1.length < 256 := by
  unfold encodeMemberAdd at h
  split at h
  · cases h
  next hid =>
  obtain ⟨hcap, rfl⟩ := written_eq_some h
  have hflag : (if isLearner then 1 else 0) < 2 ^ 64 := by split <;> decide
  have hbool : decide ((if isLearner then 1 else 0) ≠ 0) = isLearner := by cases isLearner <;> rfl
  rw [← @decodeAddr_written addr port (.memberAdd id isLearner) (by omega)
    fun heq => by cases heq; rfl]
  simp [decodeCall, decodeMember, readVarint_uint64, toNat_ne_zero hid, readVarint_writeVarint _ hflag]

lemma decodeCall_memberUpdate (h : encodeMemberUpdate id addr port = some bs) :
    decodeCall bs = some (.memberUpdate id addr port) ↔ addr.1.length < 256 := by
  unfold encodeMemberUpdate at h
  split at h
  · cases h
  next hid =>
  obtain ⟨hcap, rfl⟩ := written_eq_some h
  rw [← @decodeAddr_written addr port (.memberUpdate id) (by omega) fun heq => by cases heq; rfl]
  simp [decodeCall, decodeMember, readVarint_uint64, toNat_ne_zero hid]

lemma encodeNumber_eq_some {n : UInt64} (h : encodeNumber tag n = some bs) :
    n ≠ 0 ∧ bs = tag :: writeVarint n.toNat := by
  unfold encodeNumber at h
  split at h
  · cases h
  · next hn => exact ⟨hn, (written_eq_some h).2.symm⟩

lemma decodeCall_memberRemove (h : encodeMemberRemove id = some bs) :
    decodeCall bs = some (.memberRemove id) := by
  obtain ⟨hid, rfl⟩ := encodeNumber_eq_some h
  simp [decodeCall, decodeMember, readVarint_alone id.toNat_lt, toNat_ne_zero hid]

lemma decodeCall_memberPromote (h : encodeMemberPromote id = some bs) :
    decodeCall bs = some (.memberPromote id) := by
  obtain ⟨hid, rfl⟩ := encodeNumber_eq_some h
  simp [decodeCall, decodeMember, readVarint_alone id.toNat_lt, toNat_ne_zero hid]

lemma decodeCall_leaseRevoke (h : encodeLeaseRevoke id = some bs) :
    decodeCall bs = some (.leaseRevoke id) := by
  obtain ⟨hid, rfl⟩ := encodeNumber_eq_some h
  simp [decodeCall, decodeNumber_written hid]

lemma decodeCall_compact {revision : Int64} (h : encodeCompact revision = some bs) :
    decodeCall bs = some (.compact revision) := by
  unfold encodeCompact at h
  split at h
  · cases h
  next hpos =>
  obtain ⟨_, rfl⟩ := written_eq_some h
  simp [decodeCall, decodeNumber_written (toUInt64_ne_zero hpos), int64_toUInt64]

lemma encodeLease_eq_some {ttl : Int64} (h : encodeLease tag id ttl = some bs)
    (call : UInt64 → Int64 → LogCall) :
    ∃ rest, bs = tag :: rest ∧ decodeLeaseCall rest call = some (call id ttl) := by
  unfold encodeLease at h
  split at h
  · cases h
  next hne =>
  rw [not_or, not_or] at hne
  obtain ⟨_, rfl⟩ := written_eq_some h
  exact ⟨_, rfl, decodeLeaseCall_written hne.1 hne.2.1 hne.2.2⟩

lemma decodeCall_authEnabled {enabled : Bool} (h : encodeAuthEnabled enabled = some bs) :
    decodeCall bs = some (.authEnabled enabled) := by
  obtain ⟨_, rfl⟩ := written_eq_some h
  cases enabled <;> decide

lemma decodeCall_alarm {action : AlarmAction} {alarmType : AlarmType} {memberId : UInt64}
    (h : encodeAlarm action alarmType memberId = some bs) :
    decodeCall bs = some (.alarm action alarmType memberId) := by
  obtain ⟨_, rfl⟩ := written_eq_some h
  have haction : action.code < 2 ^ 64 := by cases action <;> decide
  have htype : alarmType.code < 2 ^ 64 := by cases alarmType <;> decide
  have hcode : AlarmAction.ofCode action.code = some action := by cases action <;> rfl
  have hcode' : AlarmType.ofCode alarmType.code = some alarmType := by cases alarmType <;> rfl
  simp [decodeCall, decodeAlarmCall, readVarint_writeVarint _ haction, readVarint_writeVarint _ htype,
    readVarint_alone memberId.toNat_lt, hcode, hcode']

lemma decodeCall_authRoleGrantPerm {permType : PermType}
    (h : encodeAuthRoleGrantPerm role key permType rangeEnd = some bs) :
    decodeCall bs = some (.authRoleGrantPerm role key permType rangeEnd) ↔
      IsName role ∧ key.length < 256 ∧ rangeEnd.length < 256 := by
  unfold encodeAuthRoleGrantPerm at h
  split at h
  · cases h
  next hne =>
  obtain ⟨entry, hentry, hbs⟩ := bind_eq_some_iff.1 h
  obtain ⟨hend, rfl⟩ := withRangeEnd_eq_some hbs
  obtain ⟨_, hkey, _, hdecode⟩ := decodeCall_tagged hentry hne (by decide)
  have hperm : permType.code < 2 ^ 64 := by cases permType <;> decide
  have hcode : PermType.ofCode permType.code = some permType := by cases permType <;> rfl
  rw [hdecode]
  change decodeGrantPerm _ _ = _ ↔ _
  rw [decodeGrantPerm, readSlice_slice _ hkey]
  simp only [map_some, getD_some, readVarint_writeVarint _ hperm, hcode,
    bind_some, readRangeEnd_written hend]
  rw [← nameOf_eq_self_iff]
  by_cases hlong : 256 ≤ key.length
  · simp [hlong]
  by_cases hlong' : 256 ≤ rangeEnd.length
  · simp [hlong, hlong']
  simp [hlong, hlong', bind_eq_some_iff]
  omega

lemma decodeCall_authRoleRevokePerm (h : encodeAuthRoleRevokePerm role key rangeEnd = some bs) :
    decodeCall bs = some (.authRoleRevokePerm role key rangeEnd) ↔
      IsName role ∧ key.length < 256 ∧ rangeEnd.length < 256 := by
  unfold encodeAuthRoleRevokePerm at h
  split at h
  · cases h
  next hne =>
  obtain ⟨entry, hentry, hbs⟩ := bind_eq_some_iff.1 h
  obtain ⟨hend, rfl⟩ := withRangeEnd_eq_some hbs
  obtain ⟨_, hkey, _, hdecode⟩ := decodeCall_tagged hentry hne (by decide)
  rw [hdecode]
  change decodeRevokePerm _ _ = _ ↔ _
  have hsome : slice key ++ ((none : Option Nat).map writeVarint).getD [] ++
      (if rangeEnd = [] then [] else slice rangeEnd) ≠ [] := by
    simp [slice_ne_nil]
  rw [decodeRevokePerm, if_neg (by simpa using hsome), readSlice_slice _ hkey]
  simp only [map_none, getD_none, nil_append, readRangeEnd_written hend]
  rw [← nameOf_eq_self_iff]
  by_cases hlong' : 256 ≤ rangeEnd.length
  · simp [hlong']
  by_cases hlong : 256 ≤ key.length
  · simp [hlong, hlong']
  simp [hlong, hlong', map_eq_some_iff]
  omega

lemma decodeCall_encode {c : LogCall} (h : encode c = some bs) :
    decodeCall bs = some c ↔ c.Fits := by
  cases c with
  | put key value leaseId => exact iff_of_true (decodeCall_put h) trivial
  | delete key => exact iff_of_true (decodeCall_delete h) trivial
  | deleteRange key rangeEnd => exact iff_of_true (decodeCall_deleteRange h) trivial
  | memberAdd id isLearner addr port => exact decodeCall_memberAdd h
  | memberRemove id => exact iff_of_true (decodeCall_memberRemove h) trivial
  | memberPromote id => exact iff_of_true (decodeCall_memberPromote h) trivial
  | memberUpdate id addr port => exact decodeCall_memberUpdate h
  | leaveJoint =>
    cases h
    exact iff_of_true rfl trivial
  | leaseRevoke id => exact iff_of_true (decodeCall_leaseRevoke h) trivial
  | compact revision => exact iff_of_true (decodeCall_compact h) trivial
  | leaseGrant id ttl =>
    obtain ⟨rest, rfl, hrest⟩ := encodeLease_eq_some h .leaseGrant
    exact iff_of_true hrest trivial
  | leaseKeepalive id ttl =>
    obtain ⟨rest, rfl, hrest⟩ := encodeLease_eq_some h .leaseKeepalive
    exact iff_of_true hrest trivial
  | authUserAdd name hash =>
    have := decodeCall_pair h (by decide) (fun _ => rfl) fun heq => LogCall.authUserAdd.inj heq
    simpa [LogCall.Fits] using this
  | authEnabled enabled => exact iff_of_true (decodeCall_authEnabled h) trivial
  | authUserDelete name =>
    exact decodeCall_name h (by decide) (fun _ => rfl) fun _ _ heq => LogCall.authUserDelete.inj heq
  | authRoleAdd name =>
    exact decodeCall_name h (by decide) (fun _ => rfl) fun _ _ heq => LogCall.authRoleAdd.inj heq
  | authRoleDelete name =>
    exact decodeCall_name h (by decide) (fun _ => rfl) fun _ _ heq => LogCall.authRoleDelete.inj heq
  | authUserGrantRole user role =>
    rw [LogCall.Fits, ← @nameOf_eq_self_iff role]
    exact decodeCall_pair h (by decide) (fun _ => rfl) fun heq => LogCall.authUserGrantRole.inj heq
  | authUserRevokeRole user role =>
    rw [LogCall.Fits, ← @nameOf_eq_self_iff role]
    exact decodeCall_pair h (by decide) (fun _ => rfl) fun heq => LogCall.authUserRevokeRole.inj heq
  | authRoleGrantPerm role key permType rangeEnd => exact decodeCall_authRoleGrantPerm h
  | authRoleRevokePerm role key rangeEnd => exact decodeCall_authRoleRevokePerm h
  | authUserChangePass name hash =>
    have := decodeCall_pair h (by decide) (fun _ => rfl) fun heq => LogCall.authUserChangePass.inj heq
    simpa [LogCall.Fits] using this
  | alarm action alarmType memberId => exact iff_of_true (decodeCall_alarm h) trivial

/-! ## Entries -/

lemma performed_eq_iff {calls : List (Option LogCall)} :
    performed calls = (cs, true) ↔ calls = cs.map some := by
  induction calls generalizing cs with
  | nil => cases cs <;> simp [performed]
  | cons call calls ih =>
    cases call with
    | none => cases cs <;> simp [performed]
    | some c =>
      cases cs with
      | nil => simp [performed]
      | cons c' cs =>
        have := @ih cs
        rw [Prod.ext_iff] at this
        simp [performed, and_assoc, this]

/-- Bytes that start with the tag of an operation, which is not that of a batch. -/
def IsOp (bs : List UInt8) : Prop := ∃ tag rest, bs = tag :: rest ∧ tag.toNat ≠ 3

section

variable {bs : Bytes} {r : Option Bytes}

lemma isOp_written {cap : Nat} {tag : UInt8} {rest : Bytes}
    (h : written cap (tag :: rest) = some bs) (htag : tag.toNat ≠ 3) : IsOp bs :=
  ⟨tag, rest, (written_eq_some h).2.symm, htag⟩

lemma eq_some_of_unless {p : Prop} [Decidable p] (h : (if p then none else r) = some bs) :
    r = some bs := by
  split at h
  · cases h
  · exact h

lemma isOp_withRangeEnd {rangeEnd : Bytes} (hr : ∀ entry, r = some entry → IsOp entry)
    (h : r.bind (withRangeEnd rangeEnd) = some bs) : IsOp bs := by
  obtain ⟨entry, hentry, hbs⟩ := bind_eq_some_iff.1 h
  obtain ⟨tag, rest, rfl, htag⟩ := hr entry hentry
  exact ⟨tag, rest ++ _, (withRangeEnd_eq_some hbs).2, htag⟩

lemma isOp_encode {c : LogCall} (h : encode c = some bs) : IsOp bs := by
  cases c with
  | leaveJoint =>
    cases h
    exact ⟨9, [], rfl, by decide⟩
  | authEnabled enabled | alarm action alarmType memberId => exact isOp_written h (by decide)
  | authRoleGrantPerm role key permType rangeEnd | authRoleRevokePerm role key rangeEnd =>
    exact isOp_withRangeEnd (fun _ hentry => isOp_written hentry (by decide)) (eq_some_of_unless h)
  | _ => exact isOp_written (eq_some_of_unless h) (by decide)

end

lemma decodeCalls_encode (h : List.Forall₂ (fun c op => encode c = some op) cs ops)
    (hlen : ∀ op ∈ ops, op.length < 2 ^ 63) :
    decodeCalls ops.length (ops.flatMap slice) = cs.map some ↔ ∀ c ∈ cs, c.Fits := by
  induction h with
  | nil => simp [decodeCalls]
  | @cons c op cs ops hop _ ih =>
    obtain ⟨tag, rest, rfl, htag⟩ := isOp_encode hop
    rw [flatMap_cons, length_cons, decodeCalls, readSlice_slice _ (hlen _ mem_cons_self)]
    simp [htag, decodeCall_encode hop, ih fun op hop => hlen op (mem_cons_of_mem _ hop)]

lemma length_lt_of_sum {n : Nat} (h : (ops.map fun op => 10 + op.length).sum < n) :
    ∀ op ∈ ops, op.length < n := by
  intro op hop
  have := single_le_sum (fun _ _ => zero_le) _
    (mem_map_of_mem (f := fun op => 10 + op.length) hop)
  omega

lemma decodeAll_encodeBatch (hops : List.Forall₂ (fun c op => encode c = some op) cs ops)
    (h : encodeBatch ops = some bs) : decodeAll bs = cs.map some ↔ ∀ c ∈ cs, c.Fits := by
  unfold encodeBatch at h
  split at h
  · cases h
  next hcount =>
  split at h
  · next hone =>
    obtain ⟨op, rfl⟩ := length_eq_one_iff.1 hone
    obtain ⟨c, _, hop, hnil, rfl⟩ := forall₂_cons_right_iff.1 hops
    rw [forall₂_nil_right_iff] at hnil
    subst hnil
    obtain ⟨tag, rest, rfl, htag⟩ := isOp_encode hop
    simp only [flatten_cons, flatten_nil, append_nil, some.injEq] at h
    subst h
    simp [decodeAll, htag, decodeCall_encode hop]
  obtain ⟨hcap, rfl⟩ := written_eq_some h
  rw [decodeAll, if_pos (by decide), readVarint_writeVarint _ (by omega)]
  simp only [hcount, if_false]
  exact decodeCalls_encode hops (length_lt_of_sum (by omega))

/-- The bytes proposed for operations: each is encoded, and the batch of them. -/
def encodeAll (cs : List LogCall) : Option (List UInt8) := (cs.mapM encode).bind encodeBatch

/-- **The codec of log entries.** Applying the bytes of an operation, or of a batch of up to 128,
performs exactly these operations with these arguments if and only if the decoder's buffers hold the
names, addresses, permission keys and range ends. -/
theorem performs_encoded_iff (c : LogCall) (cs : List LogCall) :
    (∀ bs, encode c = some bs → (performs bs = ([c], true) ↔ c.Fits)) ∧
      ∀ bs, encodeAll cs = some bs → (performs bs = (cs, true) ↔ ∀ c ∈ cs, c.Fits) := by
  refine ⟨fun bs h => ?_, fun bs h => ?_⟩
  · have hone : encodeBatch [bs] = some bs := by simp [encodeBatch]
    rw [performs, performed_eq_iff, decodeAll_encodeBatch (.cons h .nil) hone]
    simp
  obtain ⟨ops, hops, hbs⟩ := bind_eq_some_iff.1 h
  rw [performs, performed_eq_iff]
  exact decodeAll_encodeBatch (Proto.mapM_eq_some_iff.1 hops) hbs

/-- A put with a lease, and the same with a delete in a batch. -/
theorem performs_put_delete : performs [1, 1, 97, 2, 98, 99, 7] = ([.put [97] [98, 99] 7], true) ∧
      performs [3, 2, 7, 1, 1, 97, 2, 98, 99, 7, 4, 2, 1, 97, 0] =
        ([.put [97] [98, 99] 7, .delete [97]], true) :=
  have h := performs_encoded_iff (.put [97] [98, 99] 7) [.put [97] [98, 99] 7, .delete [97]]
  ⟨(h.1 _ (by decide)).2 trivial, (h.2 _ (by decide)).2 (by simp [LogCall.Fits])⟩

def longAddr : Text := ⟨List.replicate 256 97, by decide⟩

/-- The member is added with 255 characters, and the last one as its port. -/
theorem memberAdd_port_shifted : (encode (.memberAdd 1 false longAddr 2379)).map performs =
        some ([.memberAdd 1 false ⟨List.replicate 255 97, by decide⟩ 97], true) ∧
      (encode (.memberAdd 1 false longAddr 2379)).map performs ≠
        some ([.memberAdd 1 false longAddr 2379], true) := by
  decide +kernel

end Cetcd.Apply
