import Cetcd.Lib.Tokens
import Cetcd.Rpc.Txn

/-!
# The parsers of the requests

The request parsers are one loop with different fields: a tag of zero is skipped, known fields are
kept, others skipped by their wire type. All add a length to the cursor in 64 bits before they
compare the sum with the length of the request.
-/

namespace Cetcd.Rpc

open Lib.Wire Mvcc

/-! ## Fields -/

section

variable {σ : Type}

def toInt64 (v : Nat) : Int := if v < 2 ^ 63 then v else v - 2 ^ 64

def toInt32 (v : Nat) : Int :=
  if v % 2 ^ 32 < 2 ^ 31 then (v % 2 ^ 32 : Nat) else (v % 2 ^ 32 : Nat) - 2 ^ 32

def number (set : Nat → σ → σ) : Option (Nat → σ → Option σ) :=
  some fun v s => if v < 2 ^ 63 then some (set v s) else none

def anyNumber (set : Nat → σ → σ) : Option (Nat → σ → Option σ) := some fun v s => some (set v s)

/-- `malloc` refuses what is no object size; `extra` bytes are asked for on top. -/
def refuses (extra len : Nat) : Bool := 2 ^ 63 ≤ (len + extra) % 2 ^ 64

def copied (buf : Buffer) (extra : Nat) (set : List UInt8 → σ → σ) : Option (Handler σ) :=
  some (refuses extra, fun _ _ win s => do
    let bytes ← readBytes buf win
    pure (.more (set bytes s)))

/-- A message in the field is read by another loop. -/
def message (read : Arith → Nat → Window → σ → Parse (Next σ)) : Option (Handler σ) :=
  some (never, read)

def parse (A : Arith) (buf : Buffer) (S : Schema σ) (fuel : Nat) (w : Window) (s : σ) : Parse σ :=
  walk A buf S fuel w fuel 0 s

end

/-! ## Keys and values -/

def putSchema (buf : Buffer) : Schema PutReq where
  skipsZero := true
  varint
    | 0x18 => number fun v m => { m with lease := v }
    | 0x20 => number fun v m => { m with prevKv := v ≠ 0 }
    | 0x28 => number fun v m => { m with ignoreValue := v ≠ 0 }
    | 0x30 => number fun v m => { m with ignoreLease := v ≠ 0 }
    | _ => none
  ldelim
    | 0x0a => copied buf 0 fun b m => { m with key := b }
    | 0x12 => copied buf 0 fun b m => { m with value := b }
    | _ => none

def parsePutRequest (A : Arith) (buf : Buffer) (fuel : Nat) (w : Window) : Parse PutReq :=
  parse A buf (putSchema buf) fuel w { key := [] }

structure RangeMsg extends RangeReq where
  keysOnly : Bool := false
  deriving DecidableEq

/-- A negative order or target is a large number here; both are refused later. -/
def rangeSchema (buf : Buffer) : Schema RangeMsg where
  skipsZero := true
  varint
    | 0x18 => number fun v m => { m with limit := v }
    | 0x20 => number fun v m => { m with rev := v }
    | 0x28 => number fun v m => { m with sortOrder := v % 2 ^ 32 }
    | 0x30 => number fun v m => { m with sortTarget := v % 2 ^ 32 }
    | 0x38 => number fun v m => { m with serializable := v ≠ 0 }
    | 0x40 => number fun v m => { m with keysOnly := v ≠ 0 }
    | 0x48 => number fun v m => { m with countOnly := v ≠ 0 }
    | 0x50 => number fun v m => { m with minModRev := v }
    | 0x58 => number fun v m => { m with maxModRev := v }
    | 0x60 => number fun v m => { m with minCreateRev := v }
    | 0x68 => number fun v m => { m with maxCreateRev := v }
    | _ => none
  ldelim
    | 0x0a => copied buf 0 fun b m => { m with key := b }
    | 0x12 => copied buf 0 fun b m => { m with rangeEnd := b }
    | _ => none

def parseRangeRequest (A : Arith) (buf : Buffer) (fuel : Nat) (w : Window) : Parse RangeMsg :=
  parse A buf (rangeSchema buf) fuel w { key := [] }

def deleteSchema (buf : Buffer) : Schema DeleteReq where
  skipsZero := true
  varint
    | 0x18 => anyNumber fun v m => { m with prevKv := v ≠ 0 }
    | _ => none
  ldelim
    | 0x0a => copied buf 0 fun b m => { m with key := b }
    | 0x12 => copied buf 0 fun b m => { m with rangeEnd := b }
    | _ => none

def parseDeleteRangeRequest (A : Arith) (buf : Buffer) (fuel : Nat) (w : Window) :
    Parse DeleteReq :=
  parse A buf (deleteSchema buf) fuel w { key := [] }

structure CompactMsg where
  rev : Nat := 0
  physical : Bool := false
  deriving DecidableEq

def compactSchema : Schema CompactMsg where
  skipsZero := true
  varint
    | 0x08 => number fun v m => { m with rev := v }
    | 0x10 => anyNumber fun v m => { m with physical := v ≠ 0 }
    | _ => none
  ldelim := fun _ => none

/-! ## The permission test of a transaction -/

section

variable (buf : Buffer) (allowed : Bool → Option Key → Bool)

/-- The payload of an operation: the loop of `txn_op_check_perm_` stops at the first key. -/
def opKeySchema (wantWrite : Bool) : Schema Bool where
  skipsZero := true
  varint := fun _ => none
  ldelim
    | 0x0a => message fun _ _ win _ => do
        let key ← readBytes buf win
        if allowed wantWrite (some key) then pure (.stop true) else .failed
    | _ => none

def checkPayload (wantWrite : Bool) (A : Arith) (fuel : Nat) (win : Window) : Parse (Next Unit) := do
  let found ← parse A buf (opKeySchema buf allowed wantWrite) fuel win false
  if found || allowed wantWrite none then pure (.stop ()) else .failed

/-- `txn_op_check_perm_`; `nested` is the test of a transaction inside. -/
def opSchema (nested : Arith → Nat → Window → Parse Unit) : Schema Unit where
  skipsZero := true
  varint := fun _ => none
  ldelim
    | 0x0a => message fun A fuel win _ => checkPayload buf allowed false A fuel win
    | 0x12 => message fun A fuel win _ => checkPayload buf allowed true A fuel win
    | 0x1a => message fun A fuel win _ => checkPayload buf allowed true A fuel win
    | 0x22 => message fun A fuel win _ => do
        nested A fuel win
        pure (.stop ())
    | _ => none

/-- The loop over a comparison: every key is tested. -/
def compareKeySchema : Schema Unit where
  skipsZero := true
  varint := fun _ => none
  ldelim
    | 0x1a => message fun _ _ win _ => do
        let key ← readBytes buf win
        if allowed false (some key) then pure (.more ()) else .failed
    | _ => none

/-- The loop of `txn_request_check_perm_`. -/
def txnCheckSchema (nested : Arith → Nat → Window → Parse Unit) : Schema Unit where
  skipsZero := true
  varint := fun _ => none
  ldelim
    | 0x0a => message fun A fuel win _ => do
        parse A buf (compareKeySchema buf allowed) fuel win ()
        pure (.more ())
    | 0x12 => message fun A fuel win _ => do
        parse A buf (opSchema buf allowed nested) fuel win ()
        pure (.more ())
    | 0x1a => message fun A fuel win _ => do
        parse A buf (opSchema buf allowed nested) fuel win ()
        pure (.more ())
    | _ => none

/-- `txn_request_check_perm_`, with `left` levels left under `TXN_MAX_DEPTH`. -/
def txnRequestCheckPerm : (left : Nat) → Arith → Nat → Window → Parse Unit
  | 0 => fun A fuel w => parse A buf (txnCheckSchema buf allowed fun _ _ _ => .failed) fuel w ()
  | left + 1 => fun A fuel w =>
    parse A buf (txnCheckSchema buf allowed (txnRequestCheckPerm left)) fuel w ()

end

/-! ## Leases -/

structure LeaseGrantMsg where
  ttl : Nat := 0
  id : Nat := 0
  deriving DecidableEq

def leaseGrantSchema : Schema LeaseGrantMsg where
  skipsZero := true
  varint
    | 0x08 => number fun v m => { m with ttl := v }
    | 0x10 => number fun v m => { m with id := v }
    | _ => none
  ldelim := fun _ => none

structure LeaseIdMsg where
  id : Nat := 0
  keys : Bool := false
  deriving DecidableEq

def leaseIdSchema : Schema LeaseIdMsg where
  skipsZero := true
  varint
    | 0x08 => number fun v m => { m with id := v }
    | 0x10 => number fun v m => { m with keys := v ≠ 0 }
    | _ => none
  ldelim := fun _ => none

/-! ## Watches -/

structure WatchMsg where
  key : Key := []
  rangeEnd : Key := []
  startRev : Int := 0
  clientWatchId : Int := 0
  wantPrevKv : Int := 0
  wantProgressNotify : Int := 0
  filterNoput : Bool := false
  filterNodelete : Bool := false
  fragment : Int := 0
  isCreate : Bool := false
  isCancel : Bool := false
  isProgress : Bool := false
  cancelId : Int := 0
  deriving DecidableEq

/-- A filter: 0 is `NOPUT`, 1 is `NODELETE`. -/
def WatchMsg.filter (v : Nat) (m : WatchMsg) : WatchMsg :=
  if v = 0 then { m with filterNoput := true }
  else if v = 1 then { m with filterNodelete := true }
  else m

def filterLoop (buf : Buffer) (w : Window) : (rounds p : Nat) → WatchMsg → Parse WatchMsg
  | 0, _, _ => .spin
  | rounds + 1, p, m =>
    if p < w.len then do
      let (v, q) ← readVarint buf w p
      filterLoop buf w rounds q (m.filter v)
    else pure m

def watchCreateSchema (buf : Buffer) : Schema WatchMsg where
  skipsZero := true
  varint
    | 0x18 => anyNumber fun v m => { m with startRev := toInt64 v }
    | 0x20 => anyNumber fun v m => { m with wantProgressNotify := toInt32 v }
    | 0x28 => anyNumber WatchMsg.filter
    | 0x30 => anyNumber fun v m => { m with wantPrevKv := toInt32 v }
    | 0x38 => anyNumber fun v m => { m with clientWatchId := toInt64 v }
    | 0x40 => anyNumber fun v m => { m with fragment := toInt32 v }
    | _ => none
  ldelim
    | 0x0a => copied buf 0 fun b m => { m with key := b }
    | 0x12 => copied buf 0 fun b m => { m with rangeEnd := b }
    | 0x2a => message fun _ fuel win m => do
        let m ← filterLoop buf win fuel 0 m
        pure (.more m)
    | _ => none

def watchCancelSchema : Schema WatchMsg where
  skipsZero := true
  varint
    | 0x08 => anyNumber fun v m => { m with cancelId := toInt64 v }
    | _ => none
  ldelim := fun _ => none

def watchSchema (buf : Buffer) : Schema WatchMsg where
  skipsZero := true
  varint := fun _ => none
  ldelim
    | 0x0a => message fun A fuel win m => do
        let m ← parse A buf (watchCreateSchema buf) fuel win { m with isCreate := true }
        pure (.more m)
    | 0x12 => message fun A fuel win m => do
        let m ← parse A buf watchCancelSchema fuel win { m with isCancel := true }
        pure (.more m)
    | 0x1a => message fun _ _ _ m => pure (.more { m with isProgress := true })
    | _ => none

/-! ## Members -/

def memberListSchema : Schema Bool where
  skipsZero := true
  varint
    | 0x08 => anyNumber fun v _ => v ≠ 0
    | _ => none
  ldelim := fun _ => none

def memberIdSchema : Schema Nat where
  skipsZero := true
  varint
    | 0x08 => anyNumber fun v _ => v
    | _ => none
  ldelim := fun _ => none

structure MemberUpdateMsg where
  id : Nat := 0
  url : List UInt8 := []
  deriving DecidableEq

/-- With the 256 bytes of its caller: nothing is allocated, the URL is cut. -/
def memberUpdateSchema (buf : Buffer) : Schema MemberUpdateMsg where
  skipsZero := true
  varint
    | 0x08 => anyNumber fun v m => { m with id := v }
    | _ => none
  ldelim
    | 0x12 => message fun _ _ win m => do
        let url ← readBytes buf { win with len := min win.len 255 }
        pure (.more { m with url := url })
    | _ => none

structure MemberAddMsg where
  url : List UInt8 := []
  isLearner : Bool := false
  deriving DecidableEq

/-- `parse_member_add_request_`; the copy has room for a final zero. -/
def memberAddSchema (buf : Buffer) : Schema MemberAddMsg where
  skipsZero := true
  varint
    | 0x10 => anyNumber fun v m => { m with isLearner := v ≠ 0 }
    | _ => none
  ldelim
    | 0x0a => copied buf 1 fun b m => { m with url := b }
    | _ => none

/-! ## All of them -/

inductive RequestKind
  | put
  | range
  | deleteRange
  | compact
  /-- The test of a nested transaction, with the levels that are left. -/
  | txnCheck (allowed : Bool → Option Key → Bool) (left : Nat)
  | leaseGrant
  | leaseId
  | watch
  | memberList
  | memberId
  | memberUpdate
  | memberAdd

def parseRequest (A : Arith) (kind : RequestKind) (buf : Buffer) (fuel : Nat) : Parse Unit :=
  let w := buf.window
  match kind with
  | .put => do discard (parsePutRequest A buf fuel w)
  | .range => do discard (parseRangeRequest A buf fuel w)
  | .deleteRange => do discard (parseDeleteRangeRequest A buf fuel w)
  | .compact => do discard (parse A buf compactSchema fuel w {})
  | .txnCheck allowed left => txnRequestCheckPerm buf allowed left A fuel w
  | .leaseGrant => do discard (parse A buf leaseGrantSchema fuel w {})
  | .leaseId => do discard (parse A buf leaseIdSchema fuel w {})
  | .watch => do discard (parse A buf (watchSchema buf) fuel w {})
  | .memberList => do discard (parse A buf memberListSchema fuel w false)
  | .memberId => do discard (parse A buf memberIdSchema fuel w 0)
  | .memberUpdate => do discard (parse A buf (memberUpdateSchema buf) fuel w {})
  | .memberAdd => do discard (parse A buf (memberAddSchema buf) fuel w {})

/-! ## Parts that are copied -/

section

variable {buf : Buffer} {fuel : Nat}

lemma tracked_copied {σ : Type} (extra : Nat) (set : List UInt8 → σ → σ) :
    HandlerTracked buf fuel (copied buf extra set) :=
  fun _ _ hwin => (tracks_readBytes hwin).bind fun _ _ => tracks_pure _

lemma tracked_requests : (putSchema buf).Tracked buf fuel ∧ (rangeSchema buf).Tracked buf fuel ∧
    (deleteSchema buf).Tracked buf fuel := by
  refine ⟨fun tag => ?_, fun tag => ?_, fun tag => ?_⟩
  all_goals
    simp only [putSchema, rangeSchema, deleteSchema]
    split
  -- a copied part, or a tag that is skipped
  all_goals first
    | exact tracked_copied _ _
    | trivial

end

/-! ## The parsers with exact sums -/

section

variable {σ : Type} {buf : Buffer} {fuel : Nat} {w : Window} {S : Schema σ}

lemma tracks_parse (hS : S.Tracked buf fuel) (hw : buf.Has w)
    (hfuel : buf.bytes.length < fuel) (s : σ) :
    Tracks buf.bytes.length (parse .machine buf S fuel w s) (parse .exact buf S fuel w s) := by
  refine tracks_walk hS hw zero_le ?_ s
  have hin := hw
  unfold Buffer.Has at hin
  omega

lemma tracked_plain (hS : ∀ tag, S.ldelim tag = none) : S.Tracked buf fuel := by
  intro tag
  rw [hS tag]
  trivial

lemma tracked_memberAdd : (memberAddSchema buf).Tracked buf fuel := by
  intro tag
  unfold memberAddSchema
  dsimp only
  split
  · exact tracked_copied _ _
  · trivial

lemma tracked_memberUpdate : (memberUpdateSchema buf).Tracked buf fuel := by
  intro tag
  unfold memberUpdateSchema
  dsimp only
  split
  · intro win m hwin
    have hcut : buf.Has { win with len := min win.len 255 } :=
      (Nat.add_le_add_left (Nat.min_le_left _ _) _).trans hwin
    exact (tracks_readBytes hcut).bind fun _ _ => tracks_pure _
  · trivial

lemma tracks_filterLoop (hw : buf.Has w) {rounds p : Nat} (hle : p ≤ w.len)
    (hrounds : w.len < p + rounds) (m : WatchMsg) :
    Tracks buf.bytes.length (filterLoop buf w rounds p m) (filterLoop buf w rounds p m) := by
  induction rounds generalizing p m with
  | zero => exact absurd hrounds (Nat.not_lt.2 hle)
  | succ rounds ih =>
    unfold filterLoop
    by_cases hp : p < w.len
    · rw [if_pos hp]
      refine (tracks_readVarint hw p).bind ?_
      rintro ⟨v, q⟩ hread
      obtain ⟨-, hpq, hq⟩ := readVarint_ok hw hread
      exact ih hq (by omega) _
    rw [if_neg hp]
    exact tracks_pure m

lemma tracked_watchCreate (hfuel : buf.bytes.length < fuel) :
    (watchCreateSchema buf).Tracked buf fuel := by
  intro tag
  unfold watchCreateSchema
  dsimp only
  split
  · exact tracked_copied _ _
  · exact tracked_copied _ _
  · intro win m hwin
    have hin := hwin
    unfold Buffer.Has at hin
    exact (tracks_filterLoop hwin zero_le (by omega) m).bind fun _ _ => tracks_pure _
  · trivial

lemma tracked_watch (hfuel : buf.bytes.length < fuel) : (watchSchema buf).Tracked buf fuel := by
  intro tag
  unfold watchSchema
  dsimp only
  split
  · intro win m hwin
    exact (tracks_parse (tracked_watchCreate hfuel) hwin hfuel _).bind fun _ _ => tracks_pure _
  · intro win m hwin
    exact (tracks_parse (tracked_plain fun _ => rfl) hwin hfuel _).bind fun _ _ => tracks_pure _
  · intro win m _
    exact tracks_pure _
  · trivial

section

variable {allowed : Bool → Option Key → Bool} {nested : Arith → Nat → Window → Parse Unit}

lemma tracks_checkPayload (wantWrite : Bool) (hfuel : buf.bytes.length < fuel) (hw : buf.Has w) :
    Tracks buf.bytes.length (checkPayload buf allowed wantWrite .machine fuel w)
      (checkPayload buf allowed wantWrite .exact fuel w) := by
  have hkey : (opKeySchema buf allowed wantWrite).Tracked buf fuel := by
    intro tag
    unfold opKeySchema
    dsimp only
    split
    · intro win s hwin
      refine (tracks_readBytes hwin).bind fun key _ => ?_
      split
      · exact tracks_pure _
      · exact tracks_failed
    · trivial
  unfold checkPayload
  refine (tracks_parse hkey hw hfuel _).bind fun found _ => ?_
  split
  · exact tracks_pure _
  · exact tracks_failed

section

variable (hfuel : buf.bytes.length < fuel)
  (hnested : ∀ win, buf.Has win → Tracks buf.bytes.length (nested .machine fuel win) (nested .exact fuel win))

include hfuel hnested

lemma tracked_op : (opSchema buf allowed nested).Tracked buf fuel := by
  intro tag
  unfold opSchema
  dsimp only
  split
  · exact fun _ _ hwin => tracks_checkPayload _ hfuel hwin
  · exact fun _ _ hwin => tracks_checkPayload _ hfuel hwin
  · exact fun _ _ hwin => tracks_checkPayload _ hfuel hwin
  · exact fun win _ hwin => (hnested win hwin).bind fun _ _ => tracks_pure _
  · trivial

lemma tracked_txnCheck : (txnCheckSchema buf allowed nested).Tracked buf fuel := by
  have hcompare : (compareKeySchema buf allowed).Tracked buf fuel := by
    intro tag
    unfold compareKeySchema
    dsimp only
    split
    · intro win s hwin
      refine (tracks_readBytes hwin).bind fun key _ => ?_
      split
      · exact tracks_pure _
      · exact tracks_failed
    · trivial
  have hop := @tracked_op buf fuel allowed nested hfuel hnested
  intro tag
  unfold txnCheckSchema
  dsimp only
  split
  · exact fun win _ hwin => (tracks_parse hcompare hwin hfuel _).bind fun _ _ => tracks_pure _
  · exact fun win _ hwin => (tracks_parse hop hwin hfuel _).bind fun _ _ => tracks_pure _
  · exact fun win _ hwin => (tracks_parse hop hwin hfuel _).bind fun _ _ => tracks_pure _
  · trivial

end

lemma tracks_txnRequestCheckPerm (hfuel : buf.bytes.length < fuel) (hw : buf.Has w) (left : Nat) :
    Tracks buf.bytes.length (txnRequestCheckPerm buf allowed left .machine fuel w)
      (txnRequestCheckPerm buf allowed left .exact fuel w) := by
  induction left generalizing w with
  | zero => exact tracks_parse (tracked_txnCheck hfuel fun _ _ => tracks_failed) hw hfuel _
  | succ left ih => exact tracks_parse (tracked_txnCheck hfuel fun _ hwin => ih hwin) hw hfuel _

end

lemma tracks_discard {m e : Parse σ} {n : Nat} (h : Tracks n m e) :
    Tracks n (discard m) (discard e) :=
  h.bind fun _ _ => tracks_pure _

lemma tracks_parseRequest (hfuel : buf.bytes.length < fuel) (kind : RequestKind) :
    Tracks buf.bytes.length (parseRequest .machine kind buf fuel)
      (parseRequest .exact kind buf fuel) := by
  have hw := buf.has_window
  have hplain := fun {σ : Type} {S : Schema σ} (hS : ∀ tag, S.ldelim tag = none) (s : σ) =>
    tracks_discard (tracks_parse (tracked_plain hS) hw hfuel s)
  cases kind with
  | put => exact tracks_discard (tracks_parse tracked_requests.1 hw hfuel _)
  | range => exact tracks_discard (tracks_parse tracked_requests.2.1 hw hfuel _)
  | deleteRange => exact tracks_discard (tracks_parse tracked_requests.2.2 hw hfuel _)
  | compact | leaseGrant | leaseId | memberList | memberId => exact hplain (fun _ => rfl) _
  | txnCheck allowed left => exact tracks_txnRequestCheckPerm hfuel hw left
  | watch => exact tracks_discard (tracks_parse (tracked_watch hfuel) hw hfuel _)
  | memberUpdate => exact tracks_discard (tracks_parse tracked_memberUpdate hw hfuel _)
  | memberAdd => exact tracks_discard (tracks_parse tracked_memberAdd hw hfuel _)

end

/-- A parser ends and stays inside the request just if the lengths, summed exactly, stay below `2 ^
64`. -/
theorem parsers_safe_iff {buf : Buffer} {fuel : Nat} (hfuel : buf.bytes.length < fuel)
    (kind : RequestKind) :
    Safe buf.bytes.length (parseRequest .machine kind buf fuel) ↔
      (parseRequest .exact kind buf fuel).outcome ≠ .huge :=
  (tracks_parseRequest hfuel kind).safe_iff

def putBytes : Buffer := ⟨[0x0a, 1, 97, 0x12, 1, 98], by decide⟩

theorem parsers_safe_put :
    putBytes.bytes.length < 7 ∧ Safe putBytes.bytes.length (parseRequest .machine .put putBytes 7) :=
  ⟨by decide, (parsers_safe_iff (by decide) .put).2 (by decide)⟩

/-- An unknown field whose length leads back to its tag. -/
def loopBytes : Buffer :=
  ⟨[0x3a, 0xf5, 0xff, 0xff, 0xff, 0xff, 0xff, 0xff, 0xff, 0xff, 0x01], by decide⟩

def urlBytes : Buffer :=
  ⟨[0x12, 0xf5, 0xff, 0xff, 0xff, 0xff, 0xff, 0xff, 0xff, 0xff, 0x01], by decide⟩

lemma field_loopBytes (fuel : Nat) :
    field .machine loopBytes (putSchema loopBytes) fuel loopBytes.window 0 { key := [] } =
      ⟨[(11, 2 ^ 64 - 11)], .ok (0, .more { key := [] })⟩ :=
  rfl

/-- The put parser never ends, and the parser of a member update reads behind the request. -/
theorem parsers_unsafe : (parseRequest .machine .memberUpdate urlBytes 12).outcome = .fault ∧
      ∀ fuel, (parseRequest .machine .put loopBytes fuel).outcome = .spin := by
  refine ⟨by decide, fun fuel => ?_⟩
  have hwalk : ∀ rounds, (walk .machine loopBytes (putSchema loopBytes) fuel loopBytes.window rounds 0
      { key := [] }).outcome = .spin := by
    intro rounds
    induction rounds with
    | zero => rfl
    | succ rounds ih =>
      unfold walk
      rw [if_pos (by decide), field_loopBytes]
      exact ih
  change (discard (walk .machine loopBytes (putSchema loopBytes) fuel loopBytes.window fuel 0
    { key := [] })).outcome = _
  change (Parse.bind _ _).outcome = _
  unfold Parse.bind
  rw [hwalk fuel]

end Cetcd.Rpc
