import Cetcd.Rpc.Access
import Cetcd.Rpc.Parsers

/-!
# A transaction from its bytes

`kv_handle_txn` cuts the request into comparisons and operations, tests the permissions and runs one
branch, parsing an operation again. `txn_request_check_perm_` reads a nested transaction with rules
of its own: it stops at the first key of an operation, where the parsers keep the last one, and it
skips zero tags, where phase 1 takes them for a field.
-/

namespace Cetcd.Rpc

open Lib.Wire Mvcc List Parse

/-! ## Phase 1 -/

/-- A negative result or target is a large number here, which no switch knows. -/
def compareSchema (buf : Buffer) : Schema Compare where
  skipsZero := true
  varint
    | 0x08 => anyNumber fun v c => { c with result := v % 2 ^ 32 }
    | 0x10 => anyNumber fun v c => { c with target := v % 2 ^ 32 }
    | 0x20 => anyNumber fun v c => { c with version := toInt64 v }
    | 0x28 => anyNumber fun v c => { c with createRevision := toInt64 v }
    | 0x30 => anyNumber fun v c => { c with modRevision := toInt64 v }
    | 0x40 => anyNumber fun v c => { c with lease := toInt64 v }
    | _ => none
  ldelim
    | 0x1a => copied buf 0 fun b c => { c with key := b }
    | 0x3a => copied buf 0 fun b c => { c with value := b }
    | 0x4a => copied buf 0 fun b c => { c with rangeEnd := b }
    | _ => none

def parseTxnCompare (A : Arith) (buf : Buffer) (fuel : Nat) (w : Window) : Parse Compare :=
  parse A buf (compareSchema buf) fuel w { key := [] }

def txnMaxOps : Nat := 128

/-- What phase 1 collects, and how much it saw. -/
structure TxnParts where
  compares : List Compare := []
  success : List Window := []
  failure : List Window := []
  nCompares : Nat := 0
  nSuccess : Nat := 0
  nFailure : Nat := 0

/-- Phase 1 keeps no more than it sees. -/
def TxnParts.Counted (m : TxnParts) : Prop :=
  m.compares.length ≤ m.nCompares ∧ m.success.length ≤ m.nSuccess ∧ m.failure.length ≤ m.nFailure

/-- The loop of phase 1: zero is a tag like the others. -/
def txnSchema (buf : Buffer) : Schema TxnParts where
  skipsZero := false
  varint := fun _ => none
  ldelim
    | 0x0a => message fun A fuel win m =>
      if m.compares.length < txnMaxOps then do
        let c ← parseTxnCompare A buf fuel win
        pure (.more { m with compares := m.compares ++ [c], nCompares := m.nCompares + 1 })
      else pure (.more { m with nCompares := m.nCompares + 1 })
    | 0x12 => message fun _ _ win m =>
      pure (.more { m with
        success := if m.success.length < txnMaxOps then m.success ++ [win] else m.success
        nSuccess := m.nSuccess + 1 })
    | 0x1a => message fun _ _ win m =>
      pure (.more { m with
        failure := if m.failure.length < txnMaxOps then m.failure ++ [win] else m.failure
        nFailure := m.nFailure + 1 })
    | _ => none

/-! ## Running -/

/-- A key, and whether it is written. -/
abbrev Touch := Bool × Key

structure TxnRun where
  progress : Progress
  /-- The keys that were compared, read, written or deleted, or at which a range began. -/
  touched : List Touch

def TxnRun.refuse (r : TxnRun) : TxnRun := { r with progress := { r.progress with ok := false } }

/-- An operation as it is run: the first byte tells its kind. -/
inductive OpBytes
  | empty
  | put (r : PutReq)
  | range (r : RangeReq)
  | deleteRange (r : DeleteReq)
  | txn (w : Window)

def decodeOp (buf : Buffer) (fuel : Nat) (w : Window) : Parse OpBytes :=
  if w.len = 0 then pure .empty
  else do
    let tag ← readByte buf w 0
    if tag = 0x12 then do
      let (pl, _) ← take .machine buf never w 1
      let m ← parsePutRequest .machine buf fuel pl
      pure (.put m)
    else if tag = 0x1a then do
      let (pl, _) ← take .machine buf never w 1
      let m ← parseDeleteRangeRequest .machine buf fuel pl
      pure (.deleteRange m)
    else if tag = 0x0a then do
      let (pl, _) ← take .machine buf never w 1
      let m ← parseRangeRequest .machine buf fuel pl
      pure (.range m.toRangeReq)
    else if tag = 0x22 then do
      let (pl, _) ← take .machine buf never w 1
      pure (.txn pl)
    else .failed

/-- An empty key is refused before it is used. -/
def touch (wantWrite : Bool) (key : Key) : List Touch := if key = [] then [] else [(wantWrite, key)]

/-- A write that `reads` looks at the row before and returns it. -/
def touchWrite (reads : Bool) (key : Key) : List Touch :=
  touch true key ++ if reads then touch false key else []

/-- One round of the loop of phase 3. -/
def execOp (env : Env) (buf : Buffer) (fuel : Nat) (nested : Window → TxnRun → TxnRun) (w : Window)
    (r : TxnRun) : TxnRun :=
  match (decodeOp buf fuel w).outcome with
  | .ok .empty => r
  | .ok (.put m) =>
    { progress := putStep env r.progress m
      touched := r.touched ++ touchWrite m.reads m.key }
  | .ok (.range m) =>
    { progress :=
        match rangeRows env r.progress.site.world.store m with
        | none => { r.progress with ok := false }
        | some rows => r.progress.answer rows
      touched := r.touched ++ touch false m.key }
  | .ok (.deleteRange m) =>
    { progress := deleteStep env r.progress m
      touched := r.touched ++ touchWrite m.prevKv m.key }
  | .ok (.txn win) => nested win r
  | _ => r.refuse

def execOps (env : Env) (buf : Buffer) (fuel : Nat) (nested : Window → TxnRun → TxnRun) :
    List Window → TxnRun → TxnRun
  | [], r => r
  | w :: ws, r =>
    let r' := execOp env buf fuel nested w r
    if r'.progress.ok then execOps env buf fuel nested ws r' else r'

/-- The test of a nested transaction, with `left` levels left. -/
def nestedCheck (buf : Buffer) (allowed : Bool → Option Key → Bool) :
    Nat → Arith → Nat → Window → Parse Unit
  | 0 => fun _ _ _ => .failed
  | left + 1 => txnRequestCheckPerm buf allowed left

/-- `txn_op_check_perm_` passes. -/
def opPasses (env : Env) (buf : Buffer) (fuel left : Nat) (w : Window) : Bool :=
  (parse .machine buf (opSchema buf env.checkKeyPerm (nestedCheck buf env.checkKeyPerm left)) fuel w
    ()).outcome = .ok ()

/-- The tests in front of phase 2. -/
def TxnParts.admitted (env : Env) (buf : Buffer) (fuel left : Nat) (m : TxnParts) : Bool :=
  max m.nCompares (max m.nSuccess m.nFailure) ≤ min env.maxTxnOps txnMaxOps &&
    (m.compares.all fun c => c.key ≠ [] && env.checkKeyPerm false (some c.key)) &&
    m.success.all (opPasses env buf fuel left) && m.failure.all (opPasses env buf fuel left)

/-- The phases of `kv_handle_txn`; `nested` runs a transaction inside. -/
def execTxn (env : Env) (buf : Buffer) (fuel left : Nat) (nested : Window → TxnRun → TxnRun) (w : Window)
    (r : TxnRun) : TxnRun :=
  match (parse .machine buf (txnSchema buf) fuel w {}).outcome with
  | .ok m =>
    if m.admitted env buf fuel left then
      let ops :=
        if m.compares.all fun c => c.holds r.progress.site.world.store then m.success
        else m.failure
      execOps env buf fuel nested ops
        { r with touched := r.touched ++ m.compares.map fun c => (false, c.key) }
    else r.refuse
  | _ => r.refuse

/-- `kv_handle_txn` on the bytes of a request, with `left` levels left under `TXN_MAX_DEPTH`. -/
def handleTxnBytes (env : Env) (buf : Buffer) (fuel : Nat) : (left : Nat) → Window → TxnRun → TxnRun
  | 0 => execTxn env buf fuel 0 fun _ r => r.refuse
  | left + 1 => execTxn env buf fuel (left + 1) (handleTxnBytes env buf fuel left)

/-! ## What phase 1 keeps -/

section

variable {buf : Buffer} {fuel : Nat} {w : Window} {m : TxnParts}

lemma regular_txn : (txnSchema buf).Regular where
  varint := fun _ h => absurd rfl h
  ldelim := by
    intro t ht
    unfold txnSchema at ht
    dsimp only at ht
    split at ht <;> first | rfl | exact absurd rfl ht

lemma handle_txn {t : Token} {s : TxnParts} {r : Next TxnParts}
    (hr : (handle .machine (txnSchema buf) fuel t s).outcome = .ok r) :
    ∃ s₁, r = .more s₁ ∧ (s.Counted → s₁.Counted) := by
  obtain ⟨tag, value⟩ := t
  cases value with
  | number v =>
    cases hr
    exact ⟨s, rfl, id⟩
  | part win =>
    simp only [handle, txnSchema, message] at hr
    split at hr
    · cases hr
      exact ⟨s, rfl, id⟩
    rename_i f hf
    split at hf
    · -- a comparison: parsed and kept as long as the table has room, and counted always
      obtain ⟨rfl, rfl⟩ := Prod.mk.inj (Option.some.inj hf)
      dsimp only at hr
      split at hr
      · obtain ⟨c, hc, hr⟩ := bind_eq_ok hr
        cases hr
        exact ⟨_, rfl, fun h => ⟨by simpa using h.1, h.2⟩⟩
      cases hr
      exact ⟨_, rfl, fun h => ⟨h.1.trans (Nat.le_succ _), h.2⟩⟩
    · -- an operation of the success branch: the bytes are kept, to be parsed when they are run
      obtain ⟨rfl, rfl⟩ := Prod.mk.inj (Option.some.inj hf)
      cases hr
      refine ⟨_, rfl, fun h => ⟨h.1, ?_, h.2.2⟩⟩
      dsimp only
      split
      · simpa using h.2.1
      · exact h.2.1.trans (Nat.le_succ _)
    · -- and of the failure branch
      obtain ⟨rfl, rfl⟩ := Prod.mk.inj (Option.some.inj hf)
      cases hr
      refine ⟨_, rfl, fun h => ⟨h.1, h.2.1, ?_⟩⟩
      dsimp only
      split
      · simpa using h.2.2
      · exact h.2.2.trans (Nat.le_succ _)
    · cases hf

lemma onward_txn : (txnSchema buf).Onward fuel := by
  intro tag refuses f hf win s s' hr
  have hhandle : (handle .machine (txnSchema buf) fuel ⟨tag, .part win⟩ s).outcome =
      .ok (.stop s') := by
    simp only [handle, hf]
    exact hr
  obtain ⟨_, heq, -⟩ := handle_txn hhandle
  cases heq

lemma txn_counted (hparse : (parse .machine buf (txnSchema buf) fuel w {}).outcome = .ok m) :
    m.Counted := by
  obtain ⟨ts, hts⟩ := walk_tokens regular_txn onward_txn hparse
  refine folds_keep (walk_folds regular_txn hparse hts) onward_txn ?_ ⟨le_rfl, le_rfl, le_rfl⟩
  intro t s s₁ hr hs
  obtain ⟨_, heq, hcounted⟩ := handle_txn hr
  cases heq
  exact hcounted hs

end

/-- A comparison of `a`, and a nested transaction that puts `a`. -/
def nestedBytes : Buffer :=
  ⟨[0x0a, 3, 0x1a, 1, 97, 0x12, 9, 0x22, 7, 0x12, 5, 0x12, 3, 0x0a, 1, 97, 0x1a, 0], by decide⟩

end Cetcd.Rpc
