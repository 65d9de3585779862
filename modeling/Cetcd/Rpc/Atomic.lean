import Cetcd.Apply.Effects
import Cetcd.Rpc.Txn

/-!
# What a transaction leaves behind

Every write of a transaction is an entry of its own. So the revision grows with each, and a
transaction that fails has applied the writes in front. It is one step only if these found nothing
to write, and if the backend takes the writes of one that succeeds.
-/

namespace Cetcd.Rpc

open Lib Mvcc Lease Apply List Option

/-! ## One write -/

/-- The entries that a transaction proposes. -/
def IsWrite : Op → Prop
  | .put key _ _ => key ≠ []
  | .delete key => key ≠ []
  | .deleteRange key _ => key ≠ []
  | _ => False

def callOf (w : World) : Op → Call
  | .put key value leaseId => .put key value leaseId
  | .deleteRange key rangeEnd =>
    if rangeEnd = [] then .delete key
    else .deleteKeys ((mvccRange w.store key rangeEnd).map Prod.fst)
  | .delete key => .delete key
  | _ => .deleteKeys []

section

variable {w : World} {op : Op} {s : Store}

lemma storeCall_of_isWrite (h : IsWrite op) : storeCall w op = some (callOf w op) := by
  cases op with
  | put key value leaseId | delete key => exact if_neg h
  | deleteRange key rangeEnd =>
    simp only [storeCall, callOf, if_neg (show key ≠ [] from h)]
    split <;> rfl
  | _ => exact absurd h id

lemma exec_store (h : IsWrite op) :
    (exec w op).2.store = ((callOf w op).run ⟨w.store, w.disk⟩).store := by
  rw [exec_storeCall, storeCall_of_isWrite h]
  rfl

lemma deleteEntries_subs (main : Nat) (keys : List Key) (sub : Nat) (s : Store) :
    ((deleteEntries main keys sub s).map fun e => e.rev.sub).Nodup ∧
      ∀ e ∈ deleteEntries main keys sub s, sub ≤ e.rev.sub := by
  induction keys generalizing sub s with
  | nil => exact ⟨nodup_nil, forall_mem_nil _⟩
  | cons k ks ih =>
    unfold deleteEntries
    cases s.index.find k with
    | none => exact ⟨(ih (sub + 1) s).1, fun e he => Nat.le_of_succ_le ((ih (sub + 1) s).2 e he)⟩
    | some kg =>
      dsimp only
      -- the sub-revisions of the others begin behind this one
      obtain ⟨hnodup, hle⟩ := ih (sub + 1) (s.push (deleteEntry k kg ⟨main, sub⟩))
      constructor
      · rw [map_cons, nodup_cons]
        refine ⟨fun hmem => ?_, hnodup⟩
        obtain ⟨e, he, heq⟩ := mem_map.1 hmem
        have hlt := hle e he
        simp only [deleteEntry] at heq
        omega
      intro e he
      obtain rfl | he := mem_cons.1 he
      · exact le_rfl
      · exact Nat.le_of_succ_le (hle e he)

/-- The keys that a write is for. -/
def writesKey : Op → Key → Prop
  | .put key _ _, k => k = key
  | .delete key, k => k = key
  | .deleteRange key rangeEnd, k => selects key rangeEnd k = true
  | _, _ => False

lemma deleteEntries_key {main sub : Nat} {keys : List Key} {e : RevisionEntry}
    (h : e ∈ deleteEntries main keys sub s) : e.key ∈ keys := by
  induction keys generalizing sub s with
  | nil => exact absurd h not_mem_nil
  | cons k ks ih =>
    unfold deleteEntries at h
    cases hfind : s.index.find k with
    | none =>
      rw [hfind] at h
      exact mem_cons_of_mem k (ih h)
    | some kg =>
      rw [hfind] at h
      obtain rfl | h := mem_cons.1 h
      · exact mem_cons_self
      · exact mem_cons_of_mem k (ih h)

/-- What a write adds to the history if it takes effect. -/
structure Adds (s : Store) (es : List RevisionEntry) : Prop where
  nonempty : es ≠ []
  main : ∀ e ∈ es, e.rev.main = s.mainRev + 1
  subs : (es.map fun e => e.rev.sub).Nodup

lemma exec_adds (h : IsWrite op) : (exec w op).2.store = w.store ∨
      ∃ es, Adds w.store es ∧ (exec w op).2.store = w.store.pushAll es ∧
        ∀ e ∈ es, writesKey op e.key := by
  rw [exec_store h, Call.run_eq]
  cases heffect : (callOf w op).effect w.store with
  | none => exact Or.inl rfl
  | some p =>
    simp only [Option.elim, Durable.commit]
    split
    · exact Or.inl rfl
    refine Or.inr ?_
    have hdelete : ∀ key, (Call.delete key).effect w.store = some p →
        ∃ es, Adds w.store es ∧ p.1 = w.store.pushAll es ∧ ∀ e ∈ es, e.key = key := by
      intro key hp
      obtain ⟨kg, _, rfl⟩ := map_eq_some_iff.1 hp
      exact ⟨[_], ⟨cons_ne_nil _ _, by simp [deleteEntry], by simp⟩, rfl, by simp [deleteEntry]⟩
    cases op with
    | put key value leaseId =>
      obtain rfl := some.inj heffect
      exact ⟨[_], ⟨cons_ne_nil _ _, by simp [putEntry], by simp⟩, rfl,
        by simp [putEntry, writesKey]⟩
    | delete key => exact hdelete key heffect
    | deleteRange key rangeEnd =>
      simp only [callOf] at heffect
      split at heffect
      · rename_i hend
        obtain ⟨es, hadds, hpush, hkey⟩ := hdelete key heffect
        exact ⟨es, hadds, hpush, fun e he => by simp [writesKey, selects, hend, hkey e he]⟩
      rename_i hend
      simp only [Call.effect] at heffect
      split at heffect
      · cases heffect
      rename_i hlive
      obtain rfl := some.inj heffect
      refine ⟨_, ⟨deleteEntries_ne_nil hlive fun k hk => (mem_liveKeys.1 hk).2.2,
        fun e he => (mem_deleteEntries he).1, (deleteEntries_subs _ _ _ _).1⟩, rfl, ?_⟩
      intro e he
      -- the key of the entry is that of a row of the range
      obtain ⟨row, hrow, hkey⟩ := mem_map.1 (mem_liveKeys.1 (deleteEntries_key he)).1
      simp only [writesKey, selects, if_neg hend, ← hkey]
      exact (mem_filter.1 hrow).2
    | _ => exact absurd h id

lemma Adds.mainRev {es : List RevisionEntry} (h : Adds s es) :
    (s.pushAll es).mainRev = s.mainRev + 1 :=
  pushAll_mainRev (Nat.le_succ _) h.nonempty h.main

end

/-! ## The writes of a transaction -/

mutual

/-- The entries that an operation asks for in a state of the server. -/
def opWrites (w : World) : TxnOp → List Op
  | .put _ r => (putOp w r).toList
  | .deleteRange _ r => (deleteOp r).toList
  | .txn _ compares success failure =>
    if compares.all fun c => c.holds w.store then opsWrites w success else opsWrites w failure
  | .range _ _ => []
  | .empty => []
  | .bad _ => []

/-- The entries of the operations of a branch, each in the state that those before it leave. -/
def opsWrites (w : World) : List TxnOp → List Op
  | [] => []
  | op :: ops => opWrites w op ++ opsWrites (w.execAll (opWrites w op)) ops

end

lemma execAll_append (w : World) (ops ops' : List Op) :
    w.execAll (ops ++ ops') = (w.execAll ops).execAll ops' :=
  foldl_append

lemma isWrite_putOp {w : World} {r : PutReq} : ∀ o ∈ putOp w r, IsWrite o := by
  intro o ho
  obtain ⟨hkey, value, lease, rfl⟩ := putOp_some ho
  exact hkey

lemma isWrite_deleteOp {r : DeleteReq} : ∀ o ∈ deleteOp r, IsWrite o := by
  intro o ho
  obtain ⟨hkey, -, rfl⟩ | ⟨hkey, -, rfl⟩ := deleteOp_some ho
  all_goals exact hkey

mutual

lemma isWrite_opWrites (w : World) (op : TxnOp) : ∀ o ∈ opWrites w op, IsWrite o := by
  match op with
  | .put _ r =>
    intro o ho
    rw [opWrites, mem_toList] at ho
    exact isWrite_putOp o ho
  | .deleteRange _ r =>
    intro o ho
    rw [opWrites, mem_toList] at ho
    exact isWrite_deleteOp o ho
  | .txn _ compares success failure =>
    rw [opWrites]
    split
    · exact isWrite_opsWrites w success
    · exact isWrite_opsWrites w failure
  | .range _ _ => simp [opWrites]
  | .empty => simp [opWrites]
  | .bad _ => simp [opWrites]

lemma isWrite_opsWrites (w : World) (ops : List TxnOp) : ∀ o ∈ opsWrites w ops, IsWrite o := by
  match ops with
  | [] => simp [opsWrites]
  | op :: ops =>
    intro o ho
    rw [opsWrites, mem_append] at ho
    exact ho.elim (isWrite_opWrites w op o) (isWrite_opsWrites _ ops o)

end

/-- From `p` to `p'` the entries `ops` were proposed and applied. -/
structure Made (p p' : Progress) (ops : List Op) : Prop where
  writes : p'.writes = p.writes ++ ops
  world : p'.site.world = p.site.world.execAll ops

section

variable {env : Env} {p p' p'' : Progress} {ops ops' : List Op}

lemma made_nil (hwrites : p'.writes = p.writes) (hsite : p'.site = p.site) : Made p p' [] :=
  ⟨by rw [hwrites, append_nil], by rw [hsite]; rfl⟩

lemma Made.trans (h : Made p p' ops) (h' : Made p' p'' ops') : Made p p'' (ops ++ ops') where
  writes := by rw [h'.writes, h.writes, append_assoc]
  world := by rw [h'.world, h.world, execAll_append]

lemma Made.answer (h : Made p p' ops) (rows : List KeyValue) : Made p (p'.answer rows) ops :=
  ⟨h.writes, h.world⟩

lemma made_proposeStep {op : Option Op} (hok : (proposeStep env p op).ok) :
    Made p (proposeStep env p op) op.toList := by
  cases op with
  | none => exact absurd hok Bool.false_ne_true
  | some op =>
    simp only [proposeStep, propose] at hok ⊢
    split at hok
    · exact absurd hok Bool.false_ne_true
    -- an entry that was not refused was applied
    rename_i hrefused
    rw [if_neg hrefused]
    dsimp only at hok ⊢
    rw [if_pos hok]
    exact ⟨rfl, rfl⟩

end

mutual

lemma made_runOp (env : Env) (depth : Nat) (op : TxnOp) (p : Progress)
    (hok : (runOp env depth op p).ok) :
    Made p (runOp env depth op p) (opWrites p.site.world op) := by
  match op with
  | .put _ r =>
    rw [runOp] at hok ⊢
    rw [opWrites]
    exact (made_proposeStep hok).answer _
  | .deleteRange _ r =>
    rw [runOp] at hok ⊢
    rw [opWrites]
    exact (made_proposeStep hok).answer _
  | .txn _ compares success failure =>
    rw [runOp] at hok ⊢
    rw [opWrites]
    split at hok
    · rename_i hadmitted
      rw [if_pos hadmitted]
      split at hok
      · rename_i hholds
        rw [if_pos hholds, if_pos hholds]
        exact made_runOps env (depth + 1) success p hok
      rename_i hholds
      rw [if_neg hholds, if_neg hholds]
      exact made_runOps env (depth + 1) failure p hok
    · exact absurd hok Bool.false_ne_true
  | .range _ r =>
    rw [runOp] at hok ⊢
    rw [opWrites]
    cases rangeRows env p.site.world.store r with
    | none | some rows => exact made_nil rfl rfl
  | .empty =>
    rw [runOp, opWrites]
    exact made_nil rfl rfl
  | .bad _ =>
    rw [runOp, opWrites]
    exact made_nil rfl rfl

lemma made_runOps (env : Env) (depth : Nat) (ops : List TxnOp) (p : Progress)
    (hok : (runOps env depth ops p).ok) :
    Made p (runOps env depth ops p) (opsWrites p.site.world ops) := by
  match ops with
  | [] =>
    rw [runOps, opsWrites]
    exact made_nil rfl rfl
  | op :: ops =>
    rw [runOps] at hok ⊢
    rw [opsWrites]
    split at hok
    · rename_i hfirst
      rw [if_pos hfirst]
      have hone := made_runOp env depth op p hfirst
      have hrest := made_runOps env depth ops (runOp env depth op p) hok
      rw [hone.world] at hrest
      exact hone.trans hrest
    rename_i hfirst
    exact absurd hok hfirst

end

/-! ## Revisions -/

def effects (w : World) : List Op → Nat
  | [] => 0
  | op :: ops =>
    (if (exec w op).2.store.mainRev = w.store.mainRev then 0 else 1) + effects (exec w op).2 ops

def OneRevision (s s' : Store) : Prop :=
  s'.mainRev = s.mainRev + 1 ∧
    ∃ es, s'.history = s.history ++ es ∧ (∀ e ∈ es, e.rev.main = s.mainRev + 1) ∧
      (es.map fun e => e.rev.sub).Nodup

section

variable {w : World} {op : Op} {ops : List Op}

section

variable (h : ∀ op ∈ ops, IsWrite op)

include h

lemma mainRev_execAll : (w.execAll ops).store.mainRev = w.store.mainRev + effects w ops := by
  induction ops generalizing w with
  | nil => rfl
  | cons op ops ih =>
    rw [forall_mem_cons] at h
    have hstep : (exec w op).2.store.mainRev = w.store.mainRev +
        if (exec w op).2.store.mainRev = w.store.mainRev then 0 else 1 := by
      obtain hsame | ⟨es, hadds, hpush, _⟩ := exec_adds h.1
      · rw [hsame, if_pos rfl]
        rfl
      have hmain := hadds.mainRev
      rw [hpush]
      split <;> omega
    calc (w.execAll (op :: ops)).store.mainRev
        = (exec w op).2.store.mainRev + effects (exec w op).2 ops := ih h.2
      _ = w.store.mainRev + effects w (op :: ops) := by
          rw [effects]
          omega

lemma store_execAll_of_effects_zero (hzero : effects w ops = 0) :
    (w.execAll ops).store = w.store := by
  induction ops generalizing w with
  | nil => rfl
  | cons op ops ih =>
    rw [forall_mem_cons] at h
    rw [effects, Nat.add_eq_zero_iff] at hzero
    have hstep : (exec w op).2.store = w.store := by
      obtain hsame | ⟨es, hadds, hpush, _⟩ := exec_adds h.1
      · exact hsame
      have hmain := hadds.mainRev
      rw [hpush] at hzero
      split at hzero <;> omega
    exact (ih h.2 hzero.2).trans hstep

lemma adds_execAll_of_effects_one (hone : effects w ops = 1) :
    ∃ es, Adds w.store es ∧ (w.execAll ops).store = w.store.pushAll es := by
  induction ops generalizing w with
  | nil => exact absurd hone Nat.zero_ne_one
  | cons op ops ih =>
    rw [forall_mem_cons] at h
    rw [effects] at hone
    obtain hsame | ⟨es, hadds, hpush, _⟩ := exec_adds h.1
    · rw [hsame, if_pos rfl, Nat.zero_add] at hone
      have hrest := ih h.2 hone
      rw [hsame] at hrest
      exact hrest
    refine ⟨es, hadds, ?_⟩
    have hmain := hadds.mainRev
    have hzero : effects (exec w op).2 ops = 0 := by
      rw [hpush] at hone
      split at hone <;> omega
    exact (store_execAll_of_effects_zero h.2 hzero).trans hpush

lemma oneRevision_iff : OneRevision w.store (w.execAll ops).store ↔ effects w ops = 1 := by
  constructor
  · intro hone
    have hmain := mainRev_execAll h (w := w)
    have hrev := hone.1
    omega
  intro hone
  obtain ⟨es, hadds, hpush⟩ := adds_execAll_of_effects_one h hone
  rw [hpush]
  exact ⟨hadds.mainRev, es, (push_history _ _).1, hadds.main, hadds.subs⟩

end

end

/-! ## Failures -/

/-- The operation is not proposed, its proposal is refused, or it fails where the answer tells. -/
def Refused (env : Env) (p : Progress) : Option Op → Prop
  | none => True
  | some op =>
    p.site.outcomes.head? = some false ∨ (env.raft = false ∧ ¬ Succeeds p.site.world op)

/-- The operation is not proposed or its proposal refused, or it leaves the store as it is. -/
def Spares (p : Progress) : Option Op → Prop
  | none => True
  | some op => p.site.outcomes.head? = some false ∨ KeepsStore p.site.world op

mutual

/-- An operation of a transaction fails in the state that those before it leave. -/
def OpFails (env : Env) (depth : Nat) : TxnOp → Progress → Prop
  | .put _ r, p => Refused env p (putOp p.site.world r)
  | .range _ r, p => rangeRows env p.site.world.store r = none
  | .deleteRange _ r, p => Refused env p (deleteOp r)
  | .txn _ compares success failure, p =>
    (depth + 1 < txnMaxDepth && admitted env (depth + 1) compares success failure) = false ∨
      if compares.all fun c => c.holds p.site.world.store then OpsFail env (depth + 1) success p
      else OpsFail env (depth + 1) failure p
  | .empty, _ => False
  | .bad _, _ => True

def OpsFail (env : Env) (depth : Nat) : List TxnOp → Progress → Prop
  | [], _ => False
  | op :: ops, p => OpFails env depth op p ∨ OpsFail env depth ops (runOp env depth op p)

end

mutual

/-- An operation of a transaction writes nothing to the store. -/
def OpSpares (env : Env) (depth : Nat) : TxnOp → Progress → Prop
  | .put _ r, p => Spares p (putOp p.site.world r)
  | .deleteRange _ r, p => Spares p (deleteOp r)
  | .txn _ compares success failure, p =>
    (depth + 1 < txnMaxDepth && admitted env (depth + 1) compares success failure) = true →
      if compares.all fun c => c.holds p.site.world.store then OpsSpare env (depth + 1) success p
      else OpsSpare env (depth + 1) failure p
  | .range _ _, _ => True
  | .empty, _ => True
  | .bad _, _ => True

/-- Up to the first that fails. -/
def OpsSpare (env : Env) (depth : Nat) : List TxnOp → Progress → Prop
  | [], _ => True
  | op :: ops, p =>
    OpSpares env depth op p ∧
      (¬ OpFails env depth op p → OpsSpare env depth ops (runOp env depth op p))

end

section

variable {env : Env} {p : Progress} {op : Option Op}

lemma proposeStep_fails_iff : (proposeStep env p op).ok = false ↔ Refused env p op := by
  cases op with
  | none => exact iff_of_true rfl trivial
  | some op =>
    simp only [proposeStep, propose, Refused, ← exec_succeeds_iff]
    split
    · next hrefused => simp [hrefused]
    · next hrefused => simp [hrefused]

lemma settles_proposeStep (op : Option Op) :
    Settles (Spares p op) p.site.world.store (proposeStep env p op).site.world.store := by
  cases op with
  | none => exact .refl trivial _
  | some op =>
    simp only [proposeStep, propose, Spares]
    split
    · next hrefused => exact .refl (.inl hrefused) _
    · next hrefused => exact (exec_settles _ op).congr (or_iff_right hrefused).symm

end

mutual

lemma runOp_fails_iff (env : Env) (depth : Nat) (op : TxnOp) (p : Progress) (hok : p.ok = true) :
    (runOp env depth op p).ok = false ↔ OpFails env depth op p := by
  match op with
  | .put _ r =>
    rw [runOp, OpFails]
    exact proposeStep_fails_iff
  | .deleteRange _ r =>
    rw [runOp, OpFails]
    exact proposeStep_fails_iff
  | .range _ r =>
    rw [runOp, OpFails]
    cases rangeRows env p.site.world.store r <;> simp [Progress.answer, hok]
  | .txn _ compares success failure =>
    rw [runOp, OpFails]
    split
    · next hadmitted =>
      rw [hadmitted, or_iff_right Bool.false_ne_true.symm]
      split
      · exact runOps_fails_iff env (depth + 1) success p hok
      · exact runOps_fails_iff env (depth + 1) failure p hok
    · next hadmitted => exact iff_of_true rfl (.inl (Bool.eq_false_iff.2 hadmitted))
  | .empty => simp [runOp, OpFails, hok]
  | .bad _ => simp [runOp, OpFails]

lemma runOps_fails_iff (env : Env) (depth : Nat) (ops : List TxnOp) (p : Progress)
    (hok : p.ok = true) : (runOps env depth ops p).ok = false ↔ OpsFail env depth ops p := by
  match ops with
  | [] => simp [runOps, OpsFail, hok]
  | op :: ops =>
    have hfirst := runOp_fails_iff env depth op p hok
    rw [runOps, OpsFail, ← hfirst]
    split
    · next hnext =>
      rw [runOps_fails_iff env depth ops _ hnext, hnext]
      simp
    · next hnext =>
      rw [Bool.not_eq_true] at hnext
      simp [hnext]

end

mutual

lemma settles_runOp (env : Env) (depth : Nat) (op : TxnOp) (p : Progress) (hok : p.ok = true) :
    Settles (OpSpares env depth op p) p.site.world.store
      (runOp env depth op p).site.world.store := by
  match op with
  | .put _ r =>
    rw [runOp, OpSpares]
    exact settles_proposeStep _
  | .deleteRange _ r =>
    rw [runOp, OpSpares]
    exact settles_proposeStep _
  | .range _ r =>
    rw [runOp, OpSpares]
    cases rangeRows env p.site.world.store r <;> exact .refl trivial _
  | .txn _ compares success failure =>
    rw [runOp, OpSpares]
    by_cases hadmitted :
        (depth + 1 < txnMaxDepth && admitted env (depth + 1) compares success failure) = true
    · rw [if_pos hadmitted, forall_prop_of_true hadmitted]
      split
      · exact settles_runOps env (depth + 1) success p hok
      · exact settles_runOps env (depth + 1) failure p hok
    · rw [if_neg hadmitted]
      exact .refl (fun h => absurd h hadmitted) _
  | .empty =>
    rw [runOp, OpSpares]
    exact .refl trivial _
  | .bad _ =>
    rw [runOp, OpSpares]
    exact .refl trivial _

lemma settles_runOps (env : Env) (depth : Nat) (ops : List TxnOp) (p : Progress)
    (hok : p.ok = true) :
    Settles (OpsSpare env depth ops p) p.site.world.store
      (runOps env depth ops p).site.world.store := by
  match ops with
  | [] =>
    rw [runOps, OpsSpare]
    exact .refl trivial _
  | op :: ops =>
    have hfirst := settles_runOp env depth op p hok
    rw [runOps, OpsSpare, ← runOp_fails_iff env depth op p hok]
    split
    · next hnext => exact (hfirst.trans (settles_runOps env depth ops _ hnext)).congr (by simp [hnext])
    · next hnext => exact hfirst.congr (by simp [Bool.eq_false_iff.2 hnext])

end

/-! ## Writes that are taken -/

/-- The world with a backend that takes every write. -/
def World.sure (w : World) : World := { w with disk := { w.disk with outcomes := [] } }

section

variable {w : World} {op : Op} {ops : List Op}

end

/-! ## Results -/

/-- A server without authentication, whose entries go through the log or not. -/
def openEnv (raft : Bool) : Env :=
  { auth := { enabled := false, users := [], roles := [] }, user := [], linearizable := true
    maxTxnOps := 128, raft := raft }

/-- A transaction that succeeds makes one revision just if one of its writes takes effect. -/
theorem txn_one_revision_iff (env : Env) (compares : List Compare) (success failure : List TxnOp)
    (x : Site) (hok : (handleTxn env compares success failure x).ok = true) :
    OneRevision x.world.store (handleTxn env compares success failure x).site.world.store ↔
      effects x.world (opsWrites x.world (branch x.world.store compares success failure)) = 1 := by
  unfold handleTxn at hok ⊢
  split at hok
  · rename_i hadmitted
    rw [if_pos hadmitted, (made_runOps env 0 _ (.start x) hok).world]
    exact oneRevision_iff (isWrite_opsWrites _ _)
  · cases hok

theorem txn_one_revision_put :
    let p := handleTxn (openEnv false) [] [.put (some [97]) { key := [97] }] []
      { world := World.fresh }
    effects World.fresh (opsWrites World.fresh [.put (some [97]) { key := [97] }]) = 1 ∧
      OneRevision World.fresh.store p.site.world.store := by
  have hone : effects World.fresh
      (opsWrites World.fresh [.put (some [97]) { key := [97] }]) = 1 := by
    decide +kernel
  exact ⟨hone, (txn_one_revision_iff (openEnv false) [] [.put (some [97]) { key := [97] }] []
    { world := World.fresh } (by decide +kernel)).2 hone⟩

theorem txn_two_revisions :
    let p := handleTxn (openEnv false) []
      [.put (some [97]) { key := [97] }, .put (some [98]) { key := [98] }] [] { world := World.fresh }
    p.ok = true ∧ p.site.world.store.mainRev = World.fresh.store.mainRev + 2 ∧
      p.site.world.store.history.map (fun e => e.rev) = [⟨1, 0⟩, ⟨2, 0⟩] := by
  decide +kernel

end Cetcd.Rpc
