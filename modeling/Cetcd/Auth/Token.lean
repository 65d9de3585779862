import Cetcd.Auth.Store

/-!
# Tokens

A simple token is a random key of a table. A JWT carries user name and expiry, signed with the key
of the server; the signature scheme is a parameter. Names are C strings.
-/

namespace Cetcd.Auth

open Lib Rpc List Option

/-! ## Texts -/

def text (s : String) : List UInt8 := s.toList.map fun c => UInt8.ofNat c.toNat

def b64urlChar (v : Nat) : UInt8 :=
  if v < 26 then UInt8.ofNat (65 + v)
  else if v < 52 then UInt8.ofNat (71 + v)
  else if v < 62 then UInt8.ofNat (v - 4)
  else if v = 62 then 45
  else 95

def b64urlEncode : List UInt8 → List UInt8
  | [] => []
  | [a] => [b64urlChar (a.toNat / 4), b64urlChar (a.toNat % 4 * 16)]
  | [a, b] =>
    [b64urlChar (a.toNat / 4), b64urlChar (a.toNat % 4 * 16 + b.toNat / 16),
      b64urlChar (b.toNat % 16 * 4)]
  | a :: b :: c :: rest =>
    b64urlChar (a.toNat / 4) :: b64urlChar (a.toNat % 4 * 16 + b.toNat / 16) ::
      b64urlChar (b.toNat % 16 * 4 + c.toNat / 64) :: b64urlChar (c.toNat % 64) :: b64urlEncode rest

def b64urlVal (c : UInt8) : Option Nat :=
  if 65 ≤ c ∧ c ≤ 90 then some (c.toNat - 65)
  else if 97 ≤ c ∧ c ≤ 122 then some (c.toNat - 71)
  else if 48 ≤ c ∧ c ≤ 57 then some (c.toNat + 4)
  else if c = 45 ∨ c = 43 then some 62
  else if c = 95 ∨ c = 47 then some 63
  else none

/-- The bytes of four characters; a third or fourth one not of the alphabet gives none. -/
def b64urlGroup (a b : Nat) (c d : Option Nat) : List UInt8 :=
  UInt8.ofNat (a * 4 + b / 16) ::
    ((c.map fun c => UInt8.ofNat (b % 16 * 16 + c / 4)).toList ++
      (d.map fun d => UInt8.ofNat (c.getD 3 % 4 * 64 + d)).toList)

inductive JwtAlg where
  | hs256
  | rs256
  | es256
  deriving DecidableEq

def JwtAlg.name : JwtAlg → List UInt8
  | .hs256 => text "HS256"
  | .rs256 => text "RS256"
  | .es256 => text "ES256"

structure Jwt where
  alg : JwtAlg
  sign : List UInt8 → Option (List UInt8)
  verify : List UInt8 → List UInt8 → Bool

/-- The text in a buffer of `cap` bytes; an empty one is refused too. -/
def encoded (cap : Nat) (bs : List UInt8) : Option (List UInt8) :=
  if b64urlEncode bs = [] ∨ cap < (b64urlEncode bs).length then none else some (b64urlEncode bs)

structure TokenEnt where
  username : Name
  expiresNs : UInt64
  deriving DecidableEq

structure Tokens where
  users : OrdMap Name User
  tokens : OrdMap (List UInt8) TokenEnt
  jwt : Option Jwt
  tokenSeq : UInt64
  tokenTtlNs : UInt64

def Tokens.ttl (t : Tokens) : UInt64 := if t.tokenTtlNs = 0 then 300000000000 else t.tokenTtlNs

lemma b64urlChar_ne_special {c : UInt8} (hc : c = 46 ∨ c = 61) (v : Nat) : c ≠ b64urlChar v := by
  intro h
  have hv := congrArg UInt8.toNat h
  unfold b64urlChar at hv
  obtain rfl | rfl := hc <;> split_ifs at hv <;> simp at hv <;> omega

lemma b64urlEncode_no_special {c : UInt8} (hc : c = 46 ∨ c = 61) (bs : Bytes) :
    c ∉ b64urlEncode bs := by
  have hne := b64urlChar_ne_special hc
  fun_induction b64urlEncode bs <;> simp_all

lemma length_le_length_b64urlEncode (bs : Bytes) : bs.length ≤ (b64urlEncode bs).length := by
  fun_induction b64urlEncode bs <;> simp_all
  omega

end Cetcd.Auth
