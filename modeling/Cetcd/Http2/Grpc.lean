import Cetcd.Lib.Bytes

/-!
# gRPC frames

`cetcd_grpc_encode` and `cetcd_grpc_decode`: a flag, the length in four bytes, the message.
-/

namespace Cetcd.Http2

open Lib List

/-- `cetcd_grpc_encode`; `malloc` says whether the buffer is allocated. -/
def grpcEncode (malloc : Bool) (msg : Bytes) (compressed : Bool) : Except Int Bytes :=
  let n := msg.length
  if 2 ^ 32 - 1 < n ∨ 2 ^ 64 - 1 - 5 < n then .error (-9)
  else if !malloc then .error (-1)
  else
    .ok ((if compressed then 1 else 0) :: .ofNat (n / 2 ^ 24) :: .ofNat (n / 2 ^ 16) ::
      .ofNat (n / 2 ^ 8) :: .ofNat n :: msg)

/-- What `cetcd_grpc_decode` does; `outside` is a copy that goes past the end of the frame. -/
inductive GrpcResult
  | error (code : Int)
  | outside
  | ok (compressed : Bool) (msg : Bytes)
  deriving DecidableEq

def claimedLen (frame : Bytes) : Nat :=
  let b := fun i => (frame.getD i 0).toNat
  b 1 * 2 ^ 24 + b 2 * 2 ^ 16 + b 3 * 2 ^ 8 + b 4

/-- `cetcd_grpc_decode`.  The header and the length are added in 32 bits. -/
def grpcDecode (malloc : Bool) (frame : Bytes) : GrpcResult :=
  if frame.length < 5 then .error (-2)
  else
    let len := claimedLen frame
    if frame.length < (5 + len) % 2 ^ 32 then .error (-2)
    else if 0 < len ∧ !malloc then .error (-1)
    else if frame.length < 5 + len then .outside
    else .ok (frame.getD 0 0 ≠ 0) ((frame.drop 5).take len)

lemma claimedLen_lt (frame : Bytes) : claimedLen frame < 2 ^ 32 := by
  have hbyte := fun i => (frame.getD i 0).toNat_lt
  have h1 := hbyte 1
  have h2 := hbyte 2
  have h3 := hbyte 3
  have h4 := hbyte 4
  unfold claimedLen
  dsimp only
  omega

lemma claimedLen_encoded {n : Nat} (hn : n < 2 ^ 32) (flag : UInt8) (msg : Bytes) :
    claimedLen (flag :: .ofNat (n / 2 ^ 24) :: .ofNat (n / 2 ^ 16) :: .ofNat (n / 2 ^ 8) ::
      .ofNat n :: msg) = n := by
  simp only [claimedLen, getD_cons_succ, getD_cons_zero, UInt8.toNat_ofNat']
  omega

/-- A message comes back. A copy leaves a frame exactly if the frame is shorter than it claims and
the sum does not fit in 32 bits. -/
theorem grpc_frame_iff (msg : Bytes) (compressed : Bool) (hmsg : msg.length < 2 ^ 32)
    (malloc : Bool) (frame : Bytes) (hframe : 5 ≤ frame.length) :
    (∃ f, grpcEncode true msg compressed = .ok f ∧ grpcDecode true f = .ok compressed msg) ∧
      (∀ c m, grpcDecode malloc frame = .ok c m → m <+: frame.drop 5) ∧
      (grpcDecode malloc frame = .outside ↔
        malloc ∧ frame.length < 5 + claimedLen frame ∧ 2 ^ 32 ≤ 5 + claimedLen frame) := by
  refine ⟨?_, fun c m hok => ?_, ?_⟩
  · unfold grpcEncode
    dsimp only
    rw [if_neg (by omega), if_neg (by decide)]
    refine ⟨_, rfl, ?_⟩
    unfold grpcDecode
    rw [claimedLen_encoded hmsg]
    simp only [length_cons]
    rw [if_neg (by omega), if_neg (by omega), if_neg (by simp), if_neg (by omega)]
    cases compressed <;> simp
  · unfold grpcDecode at hok
    dsimp only at hok
    split_ifs at hok
    cases hok
    exact List.take_prefix _ _
  · -- the two tests of the length differ only where the sum wraps
    have hlt := claimedLen_lt frame
    unfold grpcDecode
    cases malloc
    all_goals
      simp only [Bool.not_true, Bool.not_false, Bool.false_eq_true, and_true, and_false, if_false]
      split_ifs <;> simp <;> omega

theorem grpc_frame_iff_three :
    (∃ f, grpcEncode true [1, 2, 3] true = .ok f ∧ grpcDecode true f = .ok true [1, 2, 3]) ∧
      grpcDecode true [1, 0, 0, 0, 3, 1, 2, 3] ≠ .outside := by
  have h := grpc_frame_iff [1, 2, 3] true (by decide) true [1, 0, 0, 0, 3, 1, 2, 3] (by decide)
  exact ⟨h.1, fun hout => absurd (h.2.2.1 hout) (by decide)⟩

/-- Five bytes that claim a length of `2 ^ 32 - 1`. -/
theorem grpc_copies_outside : grpcDecode true [0, 255, 255, 255, 255] = .outside := by
  decide

end Cetcd.Http2
