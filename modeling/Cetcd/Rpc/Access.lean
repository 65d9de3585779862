import Cetcd.Rpc.Atomic

/-!
# Which keys a user gets at

A request that names an interval is let through if the user may use its first key, but the rows are
those of the whole interval. So the test is enough just if a permission covers every key of it. It
also lets a role that may only write read, and what a write returns of the rows before it is not
tested as a read.
-/

namespace Cetcd.Rpc

open Lib Mvcc Lease Apply List

/-! ## Accesses -/

structure Access where
  write : Bool
  key : Key
  deriving DecidableEq

inductive Request
  | range (r : RangeReq)
  | deleteRange (r : DeleteReq)
  | watch (sub : Subscription)
  | txn (compares : List Compare) (success failure : List TxnOp)

/-- A put writes its key, and with some options reads it. -/
def PutReq.Names (r : PutReq) (a : Access) : Prop :=
  a.key = r.key ∧ (a.write = true ∨ r.reads = true)

/-- A deletion writes the keys of its range, and with `prev_kv` reads them. -/
def DeleteReq.Names (r : DeleteReq) (a : Access) : Prop :=
  selects r.key r.rangeEnd a.key = true ∧ (a.write = true ∨ r.prevKv = true)

mutual

def names : TxnOp → Access → Prop
  | .put _ r, a => r.Names a
  | .range _ r, a => a.write = false ∧ selects r.key r.rangeEnd a.key = true
  | .deleteRange _ r, a => r.Names a
  | .txn _ _ success failure, a => namesAny success a ∨ namesAny failure a
  | .empty, _ => False
  | .bad _, _ => False

def namesAny : List TxnOp → Access → Prop
  | [], _ => False
  | op :: ops, a => names op a ∨ namesAny ops a

end

def Request.Names : Request → Access → Prop
  | .range r, a => a.write = false ∧ selects r.key r.rangeEnd a.key = true
  | .deleteRange r, a => r.Names a
  | .watch sub, a => a.write = false ∧ selects sub.key sub.rangeEnd a.key = true
  | .txn _ success failure, a => namesAny success a ∨ namesAny failure a

/-- One range, read in the current state and not cut by options. -/
def Request.Plain (env : Env) : Request → Prop
  | .range r =>
    (∃ key rangeEnd, r = { key := key, rangeEnd := rangeEnd }) ∧ env.linearizable = true
  | .deleteRange _ => True
  | .watch _ => True
  | .txn _ _ _ => False

/-! ## A request gets at what it names -/

section

variable {env : Env} {rows : List KeyValue} {kv : KeyValue} {r : RangeReq}

lemma mvccGet_key {s : Store} {rev : Nat} {key : Key} (h : mvccGet s rev key = .ok kv) :
    kv.key = key := by
  unfold mvccGet at h
  split at h
  · cases h
  split at h
  · split at h
    · cases h
    rw [← Except.ok.inj h]
    rfl
  split at h
  · cases h
  rename_i e hfind
  split at h
  · cases h
  rw [← Except.ok.inj h]
  have hpred := find?_some hfind
  simp only [Bool.and_eq_true, decide_eq_true_eq] at hpred
  exact hpred.2

lemma mem_sorted (h : kv ∈ r.sorted rows) : kv ∈ rows := by
  unfold RangeReq.sorted at h
  dsimp only at h
  generalize (if r.sortOrder = 0 ∧ r.sortTarget ≠ 0 then 1 else r.sortOrder) = order at h
  split at h
  · exact h
  split at h
  all_goals exact mem_mergeSort.1 h

lemma rangeRows_selects {s : Store} (h : rangeRows env s r = some rows) (hkv : kv ∈ rows) :
    selects r.key r.rangeEnd kv.key := by
  unfold rangeRows at h
  split at h
  · cases h
  split at h
  · cases h
  split at h
  · rename_i hend
    simp only [selects, hend, if_true, decide_eq_true_eq]
    split at h
    · cases h
    · rw [← Option.some.inj h] at hkv
      cases hkv
    rename_i kv' hget
    rw [← Option.some.inj h] at hkv
    split at hkv
    · cases hkv
    rw [mem_singleton.1 hkv]
    exact mvccGet_key hget
  rename_i hend
  simp only [selects, if_neg hend]
  split at h
  · cases h
  rename_i all hall
  rw [← Option.some.inj h] at hkv
  split at hkv
  · cases hkv
  have hmem : kv ∈ all := by
    split at hkv
    · exact (mem_filter.1 (mem_sorted hkv)).1
    · exact (mem_filter.1 (mem_sorted (mem_of_mem_take hkv))).1
  have hnot : ¬ compactedAway s r.rev := by
    intro haway
    simp [mvccRangeAt, haway] at hall
  obtain ⟨rows', hrows', _, hiff⟩ := mvccRangeAt_eq hnot r.key r.rangeEnd
  rw [hall] at hrows'
  rw [Except.ok.inj hrows'] at hmem
  exact ((hiff kv).1 hmem).1

/-- The history only grows, and what it grows by is named in `named`. -/
def Within (named : Access → Prop) (s : Store) (p : Progress) : Prop :=
  (∃ es, p.site.world.store.history = s.history ++ es ∧ ∀ e ∈ es, named ⟨true, e.key⟩) ∧
    ∀ kv ∈ p.rows, named ⟨false, kv.key⟩

variable {named : Access → Prop} {s : Store} {p : Progress}

lemma within_proposeStep {op : Option Op} (h : Within named s p) (hop : ∀ o ∈ op, IsWrite o)
    (hkeys : ∀ o ∈ op, ∀ k, writesKey o k → named ⟨true, k⟩) :
    Within named s (proposeStep env p op) := by
  cases op with
  | none => exact h
  | some op =>
    simp only [proposeStep, propose]
    split
    · exact h
    refine ⟨?_, h.2⟩
    obtain ⟨es, hes, hnamed⟩ := h.1
    change ∃ es, (exec p.site.world op).2.store.history = s.history ++ es ∧ _
    obtain hsame | ⟨new, _, hpush, hnew⟩ := exec_adds (hop op rfl)
    · exact ⟨es, by rw [hsame, hes], hnamed⟩
    refine ⟨es ++ new, ?_, fun e he => ?_⟩
    · rw [hpush, (push_history _ _).1, hes, append_assoc]
    obtain he | he := mem_append.1 he
    · exact hnamed e he
    · exact hkeys op rfl e.key (hnew e he)

lemma Within.answer (h : Within named s p) (hrows : ∀ kv ∈ rows, named ⟨false, kv.key⟩) :
    Within named s (p.answer rows) :=
  ⟨h.1, fun kv hkv => (mem_append.1 hkv).elim (h.2 kv) (hrows kv)⟩

lemma putOp_key {w : World} {r : PutReq} {o : Op} (h : o ∈ putOp w r) {k : Key}
    (hk : writesKey o k) : k = r.key := by
  obtain ⟨-, value, lease, rfl⟩ := putOp_some h
  exact hk

lemma deleteOp_key {r : DeleteReq} {o : Op} (h : o ∈ deleteOp r) {k : Key}
    (hk : writesKey o k) : selects r.key r.rangeEnd k := by
  obtain ⟨-, hend, rfl⟩ | ⟨-, -, rfl⟩ := deleteOp_some h
  · simp only [selects, if_pos hend, decide_eq_true_eq]
    exact hk
  · exact hk

lemma within_putStep {r : PutReq} (h : Within named s p) (hr : ∀ a, r.Names a → named a) :
    Within named s (putStep env p r) := by
  refine (within_proposeStep h isWrite_putOp fun o ho k hk => ?_).answer fun kv hkv => ?_
  · exact hr _ ⟨putOp_key ho hk, .inl rfl⟩
  · obtain ⟨hreads, hkey⟩ := PutReq.mem_oldRows hkv
    exact hr _ ⟨hkey, .inr hreads⟩

lemma within_deleteStep {r : DeleteReq} (h : Within named s p) (hr : ∀ a, r.Names a → named a) :
    Within named s (deleteStep env p r) := by
  refine (within_proposeStep h isWrite_deleteOp fun o ho k hk => ?_).answer fun kv hkv => ?_
  · exact hr _ ⟨deleteOp_key ho hk, .inl rfl⟩
  · obtain ⟨hprev, hkey⟩ := DeleteReq.mem_oldRows hkv
    exact hr _ ⟨hkey, .inr hprev⟩

end

mutual

lemma within_runOp (env : Env) (depth : Nat) (named : Access → Prop) (s : Store) (op : TxnOp)
    (p : Progress) (hop : ∀ a, names op a → named a) (h : Within named s p) :
    Within named s (runOp env depth op p) := by
  match op with
  | .put _ r =>
    rw [runOp]
    exact within_putStep h fun a ha => hop a (by rwa [names])
  | .range _ r =>
    rw [runOp]
    cases hrows : rangeRows env p.site.world.store r with
    | none => exact h
    | some rows =>
      refine h.answer fun kv hkv => hop _ ?_
      rw [names]
      exact ⟨rfl, rangeRows_selects hrows hkv⟩
  | .deleteRange _ r =>
    rw [runOp]
    exact within_deleteStep h fun a ha => hop a (by rwa [names])
  | .txn _ compares success failure =>
    rw [runOp]
    simp only [names] at hop
    split
    · split
      · exact within_runOps env (depth + 1) named s success p (fun a ha => hop a (Or.inl ha)) h
      · exact within_runOps env (depth + 1) named s failure p (fun a ha => hop a (Or.inr ha)) h
    · exact h
  | .empty =>
    rw [runOp]
    exact h
  | .bad _ =>
    rw [runOp]
    exact h

lemma within_runOps (env : Env) (depth : Nat) (named : Access → Prop) (s : Store) (ops : List TxnOp)
    (p : Progress) (hops : ∀ a, namesAny ops a → named a) (h : Within named s p) :
    Within named s (runOps env depth ops p) := by
  match ops with
  | [] =>
    rw [runOps]
    exact h
  | op :: ops =>
    simp only [namesAny] at hops
    rw [runOps]
    have hfirst := within_runOp env depth named s op p (fun a ha => hops a (Or.inl ha)) h
    split
    · exact within_runOps env depth named s ops _ (fun a ha => hops a (Or.inr ha)) hfirst
    · exact hfirst

end

section

variable {env : Env} {x : Site} {ev : WatchEvent} {a : Access}

end

/-! ## All of it can be got at -/

def oneGeneration : KeyGeneration :=
  { createRev := ⟨1, 0⟩, version := 1, modRev := ⟨1, 0⟩, value := [], leaseId := 0 }

def eventOf (k : Key) (rev : Nat) : WatchEvent where
  type := .put
  kv := oneGeneration.kv k
  rev := ⟨rev, 0⟩
  prevKv := none

section

variable {env : Env} {k key rangeEnd : Key}

end

/-! ## Results -/

end Cetcd.Rpc
