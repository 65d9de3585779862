import Cetcd.Auth.Token

/-!
# Decimal numbers and durations

The loops refuse a register above `(2 ^ 64 - 1) / 10` before they add a digit. At that very number
the digits 6 to 9 pass and the register wraps.
-/

namespace Cetcd.Auth

open Lib Rpc List

variable {s p t : Bytes} {total k f : Nat} {v w : UInt64} {parts : List (Bytes × Nat)}

end Cetcd.Auth
