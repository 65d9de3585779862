import Cetcd.Rpc.TxnBytes

/-!
# The parsed transaction

`handleTxn` works on parsed operations, `handleTxnBytes` on the bytes. A transaction that succeeds
on the bytes does what the parsed one does once the permissions are granted.
-/

namespace Cetcd.Rpc

open Lib.Wire Mvcc List

/-! ## Decoding -/

def tokensOf (buf : Buffer) (fuel : Nat) (skipsZero : Bool) (w : Window) : List Token :=
  match (tokens .machine buf skipsZero w fuel 0).outcome with
  | .ok ts => ts
  | _ => []

def checkedKey (buf : Buffer) (fuel : Nat) (w : Window) : Option Key :=
  match (take .machine buf never w 1).outcome with
  | .ok (pl, _) => (partsOf 0x0a (tokensOf buf fuel true pl)).head?.map buf.slice
  | _ => none

/-- The keys of the comparisons of a nested transaction, all of which the test reads. -/
def comparedKeys (buf : Buffer) (fuel : Nat) (w : Window) : List Key :=
  (partsOf 0x0a (tokensOf buf fuel true w)).flatMap fun win =>
    (partsOf 0x1a (tokensOf buf fuel true win)).map buf.slice

/-- An operation that is not well formed; here only that it fails matters. -/
def badOp : TxnOp := .bad fun _ => true

def opOf (buf : Buffer) (fuel : Nat) (nested : Window → TxnOp) (w : Window) : TxnOp :=
  match (decodeOp buf fuel w).outcome with
  | .ok .empty => .empty
  | .ok (.put m) => .put (checkedKey buf fuel w) m
  | .ok (.range m) => .range (checkedKey buf fuel w) m
  | .ok (.deleteRange m) => .deleteRange (checkedKey buf fuel w) m
  | .ok (.txn win) => nested win
  | _ => badOp

/-- The operation in some bytes, with `left` levels left under `TXN_MAX_DEPTH`. -/
def decodeTxnOp (buf : Buffer) (fuel : Nat) : (left : Nat) → Window → TxnOp
  | 0 => opOf buf fuel fun _ => badOp
  | left + 1 => opOf buf fuel fun win =>
    match (parse .machine buf (txnSchema buf) fuel win {}).outcome with
    | .ok m =>
      .txn (comparedKeys buf fuel win) m.compares (m.success.map (decodeTxnOp buf fuel left))
        (m.failure.map (decodeTxnOp buf fuel left))
    | _ => badOp

def Env.granted (env : Env) : Env := { env with auth := { env.auth with enabled := false } }

/-! ## Granted permissions -/

section

variable {env : Env} {buf : Buffer} {fuel : Nat} {depth left : Nat}

lemma checkKeyPerm_granted (wantWrite : Bool) (key : Option Key) :
    env.granted.checkKeyPerm wantWrite key :=
  rfl

lemma checkOp_opOf {nested : Window → TxnOp}
    (hnested : ∀ win, checkOp env.granted depth (nested win)) (w : Window) :
    checkOp env.granted depth (opOf buf fuel nested w) := by
  unfold opOf
  split
  · simp [checkOp]
  · simp [checkOp, checkKeyPerm_granted]
  · simp [checkOp, checkKeyPerm_granted]
  · simp [checkOp, checkKeyPerm_granted]
  · exact hnested _
  · simp [badOp, checkOp]

lemma checkOps_map {f : Window → TxnOp} (h : ∀ w, checkOp env depth (f w)) (ws : List Window) :
    checkOps env depth (ws.map f) := by
  induction ws with
  | nil => simp [checkOps]
  | cons w ws ih =>
    rw [map_cons, checkOps, h w, Bool.true_and]
    exact ih

lemma checkOp_decodeTxnOp (hdepth : depth + left < txnMaxDepth) (w : Window) :
    checkOp env.granted depth (decodeTxnOp buf fuel left w) := by
  induction left generalizing depth w with
  | zero => exact checkOp_opOf (fun _ => by simp [badOp, checkOp]) w
  | succ left ih =>
    refine checkOp_opOf (fun win => ?_) w
    split
    · rw [checkOp]
      have hlevel : depth + 1 < txnMaxDepth := by omega
      have hops := checkOps_map (ih (show depth + 1 + left < txnMaxDepth by omega))
      simp [hlevel, hops, checkKeyPerm_granted]
    · simp [badOp, checkOp]

lemma admitted_granted (hdepth : depth + left < txnMaxDepth) {m : TxnParts} (hcounted : m.Counted)
    (h : m.admitted env buf fuel left) :
    admitted env.granted depth m.compares (m.success.map (decodeTxnOp buf fuel left))
      (m.failure.map (decodeTxnOp buf fuel left)) := by
  obtain ⟨hc, hs, hf⟩ := hcounted
  unfold TxnParts.admitted at h
  simp only [Bool.and_eq_true, all_eq_true, decide_eq_true_eq] at h
  obtain ⟨⟨⟨hmax, hkeys⟩, -⟩, -⟩ := h
  have hmax' : max m.nCompares (max m.nSuccess m.nFailure) ≤ min env.granted.maxTxnOps 128 := hmax
  have hops (ws : List Window) :
      checkOps env.granted depth (ws.map (decodeTxnOp buf fuel left)) :=
    checkOps_map (checkOp_decodeTxnOp hdepth) ws
  unfold admitted
  simp only [Bool.and_eq_true, all_eq_true, decide_eq_true_eq, length_map]
  refine ⟨⟨⟨⟨⟨?_, ?_⟩, ?_⟩, fun c hmem => ⟨(hkeys c hmem).1, rfl⟩⟩, hops _⟩, hops _⟩
  all_goals omega

end

/-! ## Runs that succeed -/

section

variable {env : Env} {buf : Buffer} {fuel depth : Nat} {run : Window → TxnRun → TxnRun}
  {nested : Window → TxnOp} {w : Window} {r : TxnRun} {left : Nat}

/-- A nested run that succeeds is that of its operation. -/
def Follows (env : Env) (depth : Nat) (run : Window → TxnRun → TxnRun) (nested : Window → TxnOp) : Prop :=
  ∀ win r, (run win r).progress.ok = true →
    (run win r).progress = runOp env.granted depth (nested win) r.progress

lemma execOp_granted (hnested : Follows env depth run nested)
    (hok : (execOp env buf fuel run w r).progress.ok) :
    (execOp env buf fuel run w r).progress =
      runOp env.granted depth (opOf buf fuel nested w) r.progress := by
  unfold execOp at hok ⊢
  unfold opOf
  cases ho : (decodeOp buf fuel w).outcome with
  | failed | fault | spin | huge =>
    -- bytes that do not decode refuse the run
    rw [ho] at hok
    exact absurd hok Bool.false_ne_true
  | ok o =>
    rw [ho] at hok
    -- the proposals and the reads do not look at the permissions, so the two sides unfold alike
    cases o with
    | empty => rw [runOp]
    | put m =>
      rw [runOp]
      rfl
    | range m =>
      rw [runOp]
      rfl
    | deleteRange m =>
      rw [runOp]
      rfl
    | txn win => exact hnested win r hok

lemma execOps_granted (hnested : Follows env depth run nested) {ws : List Window}
    (hok : (execOps env buf fuel run ws r).progress.ok) :
    (execOps env buf fuel run ws r).progress =
      runOps env.granted depth (ws.map (opOf buf fuel nested)) r.progress := by
  induction ws generalizing r with
  | nil =>
    rw [map_nil, runOps]
    rfl
  | cons w ws ih =>
    rw [map_cons, runOps]
    unfold execOps at hok ⊢
    dsimp only at hok ⊢
    split at hok
    · rename_i hfirst
      have hone := execOp_granted hnested hfirst
      rw [if_pos hfirst, ← hone, if_pos hfirst]
      exact ih hok
    rename_i hfirst
    -- a failed operation ends the run, and is its result
    exact absurd hok hfirst

/-- The run `p` is that of the parsed transaction with permissions granted. -/
def Granted (env : Env) (buf : Buffer) (fuel depth left : Nat) (w : Window) (r : TxnRun)
    (p : Progress) : Prop :=
  ∃ m, (parse .machine buf (txnSchema buf) fuel w {}).outcome = .ok m ∧
    admitted env.granted depth m.compares (m.success.map (decodeTxnOp buf fuel left))
      (m.failure.map (decodeTxnOp buf fuel left)) ∧
    p = runOps env.granted depth (branch r.progress.site.world.store m.compares
      (m.success.map (decodeTxnOp buf fuel left))
      (m.failure.map (decodeTxnOp buf fuel left))) r.progress

lemma execTxn_granted (hdepth : depth + left < txnMaxDepth)
    (hdecode : decodeTxnOp buf fuel left = opOf buf fuel nested)
    (hnested : Follows env depth run nested)
    (hok : (execTxn env buf fuel left run w r).progress.ok) :
    Granted env buf fuel depth left w r (execTxn env buf fuel left run w r).progress := by
  unfold execTxn at hok ⊢
  cases hparse : (parse .machine buf (txnSchema buf) fuel w {}).outcome with
  | failed | fault | spin | huge =>
    rw [hparse] at hok
    exact absurd hok Bool.false_ne_true
  | ok m =>
    rw [hparse] at hok
    dsimp only at hok ⊢
    split at hok
    · rename_i hadmitted
      refine ⟨m, hparse, admitted_granted hdepth (txn_counted hparse) hadmitted, ?_⟩
      rw [if_pos hadmitted, execOps_granted hnested hok, hdecode]
      unfold branch
      split <;> rfl
    · exact absurd hok Bool.false_ne_true

/-- By induction on the levels that are left. -/
lemma handleTxnBytes_granted (hdepth : depth + left < txnMaxDepth)
    (hok : (handleTxnBytes env buf fuel left w r).progress.ok) :
    Granted env buf fuel depth left w r (handleTxnBytes env buf fuel left w r).progress := by
  induction left generalizing depth w r with
  | zero =>
    refine execTxn_granted hdepth rfl ?_ hok
    intro win r' hrun
    -- no level is left: the nested transaction is refused
    exact absurd hrun Bool.false_ne_true
  | succ left ih =>
    refine execTxn_granted hdepth rfl ?_ hok
    intro win r' hrun
    have hbelow : depth + 1 + left < txnMaxDepth := by omega
    have hlevel : depth + 1 < txnMaxDepth := by omega
    obtain ⟨m, hparse, hadmitted, hprogress⟩ := ih hbelow hrun
    rw [hprogress]
    dsimp only
    rw [hparse]
    dsimp only
    rw [runOp, hadmitted, Bool.and_true, if_pos (decide_eq_true hlevel)]
    unfold branch
    split <;> rfl

end

/-- A transaction that succeeds on its bytes does what the parsed one does with permissions granted.
-/
theorem handleTxnBytes_eq_handleTxn {env : Env} {buf : Buffer} {fuel : Nat} {x : Site}
    (hok : (handleTxnBytes env buf fuel 15 buf.window ⟨.start x, []⟩).progress.ok) :
    ∃ m, (parse .machine buf (txnSchema buf) fuel buf.window {}).outcome = .ok m ∧
      (handleTxnBytes env buf fuel 15 buf.window ⟨.start x, []⟩).progress =
        handleTxn env.granted m.compares (m.success.map (decodeTxnOp buf fuel 15))
          (m.failure.map (decodeTxnOp buf fuel 15)) x := by
  have htop : 0 + 15 < txnMaxDepth := by decide
  obtain ⟨m, hparse, hadmitted, hprogress⟩ := handleTxnBytes_granted htop hok
  refine ⟨m, hparse, ?_⟩
  rw [hprogress]
  unfold handleTxn
  rw [if_pos hadmitted]
  rfl

theorem handleTxnBytes_eq_handleTxn_nested :
    ∃ m, (parse .machine nestedBytes (txnSchema nestedBytes) 20 nestedBytes.window {}).outcome =
        .ok m ∧
      (handleTxnBytes (openEnv true) nestedBytes 20 15 nestedBytes.window
          ⟨.start { world := Apply.World.fresh }, []⟩).progress =
        handleTxn (openEnv true).granted m.compares
          (m.success.map (decodeTxnOp nestedBytes 20 15))
          (m.failure.map (decodeTxnOp nestedBytes 20 15)) { world := Apply.World.fresh } := by
  have hok : (handleTxnBytes (openEnv true) nestedBytes 20 15 nestedBytes.window
      ⟨.start { world := Apply.World.fresh }, []⟩).progress.ok := by decide +kernel
  exact handleTxnBytes_eq_handleTxn hok

end Cetcd.Rpc
