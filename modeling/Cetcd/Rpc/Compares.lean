import Cetcd.Rpc.Atomic

/-!
# The comparisons of a transaction

One key and a range are compared by different code. A `result` outside the enumeration is false for
one key, and true for a range that has a key.
-/

namespace Cetcd.Rpc

open Lib Mvcc Apply List

def Compare.at (c : Compare) (key : Key) : Compare := { c with key := key, rangeEnd := [] }

def Compare.rows (c : Compare) (s : Store) : List KeyValue :=
  (mvccRange s c.key c.rangeEnd).map fun e => e.2.kv e.1

/-- The comparisons pick the branch by their conjunction, a range with a key is compared by all its
keys, and a key as the range of it alone. -/
structure ComparedRight (s : Store) (cs : List Compare) : Prop where
  all : ∀ cs', cs' ~ cs → ∀ success failure,
    branch s cs' success failure = if ∀ c ∈ cs, c.holds s then success else failure
  range : ∀ c ∈ cs, c.rangeEnd ≠ [] → c.rows s ≠ [] →
    (c.holds s ↔ ∀ kv ∈ c.rows s, (c.at kv.key).holds s)
  point : ∀ c ∈ cs, c.rangeEnd = [] →
    c.holds s = ({ c with rangeEnd := c.key ++ [0] } : Compare).holds s

def Compare.present (c : Compare) (s : Store) : List KeyValue :=
  if c.rangeEnd = [] then found (mvccGet s 0 c.key) else c.rows s

section

variable {s : Store} {c : Compare} {kv : KeyValue}

lemma judge_eq (result : Nat) (ord : Ordering) (before : Bool) :
    judge result ord before = if 3 < result then before else judge result ord false := by
  match result with
  | 0 | 1 | 2 | 3 => rfl
  | n + 4 => exact (if_pos (by omega)).symm

lemma row_some (before : Bool) : c.row (some kv) before =
    if 3 < c.result then before else c.row (some kv) false := by
  unfold Compare.row
  by_cases htarget : c.target = 3
  · simp only [if_pos htarget]
    exact judge_eq ..
  · simp only [if_neg htarget]
    exact judge_eq ..

lemma holds_point (h : c.rangeEnd = []) :
    c.holds s = c.row (found (mvccGet s 0 c.key)).head? false := by
  unfold Compare.holds mvccGet
  rw [if_pos h, if_neg (not_compactedAway_zero s), if_pos rfl]
  cases s.index.find c.key <;> rfl

lemma holds_range (h : c.rangeEnd ≠ []) : c.holds s =
    if c.rows s = [] then c.row none false else (c.rows s).all fun kv => c.row (some kv) true := by
  unfold Compare.holds
  rw [if_neg h]
  unfold Compare.rows
  generalize (mvccRange s c.key c.rangeEnd).map (fun e => e.2.kv e.1) = rows
  cases rows <;> rfl

lemma holds_at (hkv : kv ∈ c.rows s) : (c.at kv.key).holds s = c.row (some kv) false := by
  obtain ⟨e, he, rfl⟩ := mem_map.1 hkv
  have hfind : s.index.find e.1 = some e.2 := OrdMap.find_eq_some.2 (mem_filter.1 he).1
  change c.row ((s.index.find e.1).map fun kg => kg.kv e.1) false = _
  rw [hfind]
  rfl

lemma rows_alone (hkey : c.key ≠ []) :
    ({ c with rangeEnd := c.key ++ [0] } : Compare).rows s = found (mvccGet s 0 c.key) := by
  have hzero := not_compactedAway_zero s
  have hrows := mvccRangeAt_found hzero hkey
  unfold mvccRangeAt at hrows
  rw [if_neg hzero, if_pos rfl] at hrows
  exact Except.ok.inj hrows

lemma holds_alone (hkey : c.key ≠ []) (hpoint : c.rangeEnd = []) :
    c.holds s = ({ c with rangeEnd := c.key ++ [0] } : Compare).holds s ↔
      (3 < c.result → c.present s = []) := by
  rw [holds_point hpoint, holds_range (by simp), rows_alone hkey, Compare.present, if_pos hpoint]
  cases mvccGet s 0 c.key with
  | error e => exact iff_of_true rfl fun _ => rfl
  | ok kv =>
    change c.row (some kv) false = (c.row (some kv) true && true) ↔ _
    rw [row_some true, row_some false]
    by_cases hres : 3 < c.result <;> simp [hres, found]

lemma holds_range_iff (hrange : c.rangeEnd ≠ []) :
    (c.rows s ≠ [] → (c.holds s ↔ ∀ kv ∈ c.rows s, (c.at kv.key).holds s)) ↔
      (3 < c.result → c.present s = []) := by
  rw [holds_range hrange, Compare.present, if_neg hrange]
  by_cases hrows : c.rows s = []
  · simp [hrows]
  have hat : (∀ kv ∈ c.rows s, (c.at kv.key).holds s) ↔ ∀ kv ∈ c.rows s, c.row (some kv) false :=
    forall₂_congr fun kv hkv => by rw [holds_at hkv]
  rw [hat, if_neg hrows, all_eq_true]
  obtain ⟨kv, hkv⟩ := exists_mem_of_ne_nil _ hrows
  by_cases hres : 3 < c.result
  · refine iff_of_false (fun h => ?_) fun h => hrows (h hres)
    have := (h hrows).1 (fun kv _ => by rw [row_some, if_pos hres]) kv hkv
    rw [row_some, if_pos hres] at this
    cases this
  · refine iff_of_true (fun _ => forall₂_congr fun kv _ => ?_) fun h => absurd h hres
    rw [row_some true, if_neg hres]

end

/-- The comparisons of an accepted request mean what they say if and only if none that finds a key
has a `result` outside the enumeration. -/
theorem txn_compares_iff {env : Env} {cs : List Compare} {success failure : List TxnOp}
    (hok : admitted env 0 cs success failure) (s : Store) :
    ComparedRight s cs ↔ ∀ c ∈ cs, 3 < c.result → c.present s = [] := by
  have hkey : ∀ c ∈ cs, c.key ≠ [] := by
    simp only [admitted, Bool.and_eq_true, all_eq_true, decide_eq_true_eq] at hok
    exact fun c hc => (hok.1.1.2 c hc).1
  refine ⟨fun h c hc => ?_, fun h => ⟨fun cs' hperm success failure => ?_, ?_, ?_⟩⟩
  · by_cases hend : c.rangeEnd = []
    · exact (holds_alone (hkey c hc) hend).1 (h.point c hc hend)
    · exact (holds_range_iff hend).1 (h.range c hc hend)
  · unfold branch
    simp only [all_eq_true, hperm.mem_iff]
  · exact fun c hc hend => (holds_range_iff hend).2 (h c hc)
  · exact fun c hc hend => (holds_alone (hkey c hc) hend).2 (h c hc)

/-- `a` is stored and `b` is not. -/
theorem txn_compares_stored : ComparedRight (mvccPut .new ⟨.empty, []⟩ [97] [1] 0).2.1
    [{ key := [97], version := 1 }, { key := [97], rangeEnd := [99], result := 3, version := 2 },
      { key := [98], result := 4 }] :=
  (@txn_compares_iff (openEnv true) _ [] [] (by decide) _).2 (by decide +kernel)

/-- A key whose version is 1, compared with the result 4. -/
theorem txn_compares_unknown_result : ∃ (s : Store) (c : Compare), c.rangeEnd = [] ∧
    c.holds s = false ∧ ({ c with rangeEnd := c.key ++ [0] } : Compare).holds s = true ∧
    ¬ ComparedRight s [c] := by
  refine ⟨(mvccPut .new ⟨.empty, []⟩ [97] [1] 0).2.1, { key := [97], result := 4 }, rfl,
    by decide +kernel, by decide +kernel, fun h => ?_⟩
  exact absurd (h.point _ (mem_singleton_self _) rfl) (by decide +kernel)

end Cetcd.Rpc
