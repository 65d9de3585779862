import Cetcd.Lib.SearchTree
import Cetcd.Mvcc.Backend

/-!
# The treap

`treap.c`: a search tree with a priority in each node, a hash of the key. Insertion rotates a child
of higher priority over its parent, deletion rotates the node down. None of this shows in the
in-order list, so a treap is the finite map of that list.
-/

namespace Cetcd.Mvcc

open Lib List OrdMap

variable {β : Type}

abbrev TreapNode (β : Type) := SearchTree Key β UInt32

def treapPrioFromKey (key : Key) : UInt32 :=
  key.foldl (fun h b => (h ^^^ b.toUInt32) * 0x01000193) 0x811c9dc5 ^^^ UInt32.ofNat key.length

/-- A node that is there and has a higher priority. -/
def TreapNode.outranks : TreapNode β → UInt32 → Bool
  | .nil, _ => false
  | .node _ _ _ p' _, p => p < p'

/-- `treap_insert_node_`, for a key that is not in the tree. -/
def treapInsertNode (key : Key) (value : β) (prio : UInt32) : TreapNode β → TreapNode β
  | .nil => .node .nil key value prio .nil
  | .node l k v p r =>
    if key < k then
      let l' := treapInsertNode key value prio l
      if l'.outranks p then (SearchTree.node l' k v p r).rotateRight else .node l' k v p r
    else
      let r' := treapInsertNode key value prio r
      if r'.outranks p then (SearchTree.node l k v p r').rotateLeft else .node l k v p r'

/-- `treap_delete_node_`, with the value that was removed. -/
def treapDeleteNode (key : Key) : TreapNode β → TreapNode β × Option β
  | .nil => (.nil, none)
  | .node l k v p r =>
    if key < k then
      match treapDeleteNode key l with
      | (l', out) => (.node l' k v p r, out)
    else if k < key then
      match treapDeleteNode key r with
      | (r', out) => (.node l k v p r', out)
    else
      match l, r with
      | .nil, .nil => (.nil, some v)
      | .node a k1 v1 p1 b, .node c k2 v2 p2 d =>
        -- the node goes below the child of higher priority and is met again there
        if p2 < p1 then
          match treapDeleteNode key (.node b k v p (.node c k2 v2 p2 d)) with
          | (r', _) => (.node a k1 v1 p1 r', some v)
        else
          match treapDeleteNode key (.node (.node a k1 v1 p1 b) k v p c) with
          | (l', _) => (.node l' k2 v2 p2 d, some v)
      | .node a k1 v1 p1 b, .nil => (.node a k1 v1 p1 b, some v)
      | .nil, .node c k2 v2 p2 d => (.node c k2 v2 p2 d, some v)
termination_by t => t.size
decreasing_by all_goals simp only [SearchTree.size]; omega

/-- The lookup loop of `cetcd_treap_get` and `cetcd_treap_put`. -/
def treapFind (key : Key) : TreapNode β → Option β
  | .nil => none
  | .node l k v _ r =>
    if key = k then some v else if key < k then treapFind key l else treapFind key r

/-- The value of a key that is there is replaced in place. -/
def treapReplace (key : Key) (value : β) : TreapNode β → TreapNode β
  | .nil => .nil
  | .node l k v p r =>
    if key = k then .node l k value p r
    else if key < k then .node (treapReplace key value l) k v p r
    else .node l k v p (treapReplace key value r)

/-- `treap_inorder_range_` with a callback that collects. -/
def treapInorderRange (lo hi : Key) : TreapNode β → List (Key × β)
  | .nil => []
  | .node l k v _ r =>
    treapInorderRange lo hi l ++ (if lo ≤ k ∧ (hi = [] ∨ k < hi) then [(k, v)] else []) ++
      treapInorderRange lo hi r

/-! ## The calls on lists -/

lemma toList_treapInsertNode {key : Key} {value : β} {prio : UInt32} {t : TreapNode β}
    (h : SortedKeys t.toList) (hkey : ∀ e ∈ t.toList, e.1 ≠ key) :
    (treapInsertNode key value prio t).toList = putKey t.toList key value := by
  induction t with
  | nil => rfl
  | node l k v p r ihl ihr =>
    obtain ⟨hl, hr, _, _⟩ := sortedKeys_node.1 h
    change ∀ e ∈ l.toList ++ (k, v) :: r.toList, e.1 ≠ key at hkey
    rw [forall_mem_append, forall_mem_cons] at hkey
    unfold treapInsertNode
    by_cases hlt : key < k
    · rw [if_pos hlt]
      have hlist : (SearchTree.node (treapInsertNode key value prio l) k v p r).toList =
          putKey (SearchTree.node l k v p r).toList key value := by
        change (treapInsertNode key value prio l).toList ++ _ = _
        rw [ihl hl hkey.1]
        exact (putKey_left h hlt).symm
      dsimp only
      split
      · rw [SearchTree.toList_rotateRight, hlist]
      · exact hlist
    have hgt : k < key := lt_of_le_of_ne (not_lt.1 hlt) hkey.2.1
    rw [if_neg hlt]
    have hlist : (SearchTree.node l k v p (treapInsertNode key value prio r)).toList =
        putKey (SearchTree.node l k v p r).toList key value := by
      change _ ++ _ :: (treapInsertNode key value prio r).toList = _
      rw [ihr hr hkey.2.2]
      exact (putKey_right h hgt).symm
    dsimp only
    split
    · rw [SearchTree.toList_rotateLeft, hlist]
    · exact hlist

lemma toList_treapReplace {key : Key} {value : β} {t : TreapNode β} (h : SortedKeys t.toList)
    (hkey : ∃ v, treapFind key t = some v) :
    (treapReplace key value t).toList = putKey t.toList key value := by
  induction t with
  | nil => exact absurd hkey.choose_spec (by simp [treapFind])
  | node l k v p r ihl ihr =>
    obtain ⟨hl, hr, _, _⟩ := sortedKeys_node.1 h
    unfold treapReplace
    unfold treapFind at hkey
    by_cases heq : key = k
    · subst heq
      rw [if_pos rfl]
      exact (putKey_here h).symm
    rw [if_neg heq] at hkey ⊢
    by_cases hlt : key < k
    · rw [if_pos hlt] at hkey ⊢
      refine (congrArg (· ++ _) (ihl hl hkey)).trans ?_
      exact (putKey_left h hlt).symm
    rw [if_neg hlt] at hkey ⊢
    refine (congrArg (fun x => l.toList ++ (k, v) :: x) (ihr hr hkey)).trans ?_
    exact (putKey_right h (lt_of_le_of_ne (not_lt.1 hlt) (Ne.symm heq))).symm

lemma toList_treapDeleteNode {key : Key} {t : TreapNode β} (h : SortedKeys t.toList) :
    (treapDeleteNode key t).1.toList = eraseKey t.toList key := by
  -- the recursion is the source's: after a rotation the node is looked for one level deeper
  fun_induction treapDeleteNode key t with
  | case1 => rfl
  | case2 l k v p r hlt l' out heq ih =>
    rw [heq] at ih
    exact (congrArg (· ++ _) (ih (sortedKeys_node.1 h).1)).trans (eraseKey_left h hlt).symm
  | case3 l k v p r _ hgt r' out heq ih =>
    rw [heq] at ih
    exact (congrArg (fun x => l.toList ++ (k, v) :: x) (ih (sortedKeys_node.1 h).2.1)).trans
      (eraseKey_right h hgt).symm
  | case4 k v p hle hge =>
    obtain rfl : key = k := le_antisymm (not_lt.1 hge) (not_lt.1 hle)
    exact (eraseKey_here h).symm
  | case5 k v p hle hge a k1 v1 p1 b c k2 v2 p2 d _ r' out heq ih =>
    obtain rfl : key = k := le_antisymm (not_lt.1 hge) (not_lt.1 hle)
    rw [heq] at ih
    have hlist : (SearchTree.node (.node a k1 v1 p1 b) key v p (.node c k2 v2 p2 d)).toList =
        a.toList ++ (k1, v1) :: (SearchTree.node b key v p (.node c k2 v2 p2 d)).toList := by
      simp [SearchTree.toList]
    rw [hlist] at h ⊢
    have hk1 : k1 < key := (sortedKeys_node.1 h).2.2.2 (key, v) (by simp [SearchTree.toList])
    rw [eraseKey_right h hk1, ← ih (sortedKeys_node.1 h).2.1]
    rfl
  | case6 k v p hle hge a k1 v1 p1 b c k2 v2 p2 d _ l' out heq ih =>
    obtain rfl : key = k := le_antisymm (not_lt.1 hge) (not_lt.1 hle)
    rw [heq] at ih
    have hlist : (SearchTree.node (.node a k1 v1 p1 b) key v p (.node c k2 v2 p2 d)).toList =
        (SearchTree.node (.node a k1 v1 p1 b) key v p c).toList ++ (k2, v2) :: d.toList := by
      simp [SearchTree.toList]
    rw [hlist] at h ⊢
    have hk2 : key < k2 := (sortedKeys_node.1 h).2.2.1 (key, v) (by simp [SearchTree.toList])
    rw [eraseKey_left h hk2, ← ih (sortedKeys_node.1 h).1]
    rfl
  | case7 k v p hle hge a k1 v1 p1 b =>
    obtain rfl : key = k := le_antisymm (not_lt.1 hge) (not_lt.1 hle)
    exact (append_nil _).symm.trans (eraseKey_here h).symm
  | case8 k v p hle hge c k2 v2 p2 d =>
    obtain rfl : key = k := le_antisymm (not_lt.1 hge) (not_lt.1 hle)
    exact (eraseKey_here h).symm

lemma treapFind_eq_some {key : Key} {t : TreapNode β} {v : β} (h : SortedKeys t.toList) :
    treapFind key t = some v ↔ (key, v) ∈ t.toList := by
  induction t with
  | nil => exact ⟨fun h => (nomatch h), fun h => nomatch h⟩
  | node l k w p r ihl ihr =>
    obtain ⟨hl, hr, hlt, hgt⟩ := sortedKeys_node.1 h
    unfold treapFind
    change _ ↔ (key, v) ∈ l.toList ++ (k, w) :: r.toList
    rw [mem_append, mem_cons, ← ihl hl, ← ihr hr]
    have hleft : treapFind key l = some v → key < k := fun hf => hlt _ ((ihl hl).1 hf)
    have hright : treapFind key r = some v → k < key := fun hf => hgt _ ((ihr hr).1 hf)
    obtain hk | rfl | hk := lt_trichotomy key k
    · rw [if_neg hk.ne, if_pos hk]
      refine ⟨Or.inl, ?_⟩
      rintro (hf | heq | hf)
      · exact hf
      · exact absurd (congrArg Prod.fst heq) hk.ne
      · exact absurd (hright hf) hk.not_gt
    · rw [if_pos rfl, Option.some_inj]
      refine ⟨fun heq => Or.inr (Or.inl (heq ▸ rfl)), ?_⟩
      rintro (hf | heq | hf)
      · exact absurd (hleft hf) (lt_irrefl _)
      · exact (congrArg Prod.snd heq).symm
      · exact absurd (hright hf) (lt_irrefl _)
    rw [if_neg hk.ne', if_neg hk.not_gt]
    refine ⟨fun hf => Or.inr (Or.inr hf), ?_⟩
    rintro (hf | heq | hf)
    · exact absurd (hleft hf) hk.not_gt
    · exact absurd (congrArg Prod.fst heq) hk.ne'
    · exact hf

lemma treapInorderRange_eq (lo hi : Key) (t : TreapNode β) :
    treapInorderRange lo hi t = t.toList.filter fun e => lo ≤ e.1 ∧ (hi = [] ∨ e.1 < hi) := by
  induction t with
  | nil => rfl
  | node l k v p r ihl ihr =>
    unfold treapInorderRange
    change _ = (l.toList ++ (k, v) :: r.toList).filter _
    rw [ihl, ihr, filter_append, filter_cons]
    split <;> simp_all

/-! ## Treaps -/

/-- A tree in the order of its keys. -/
structure Treap (β : Type) where
  root : TreapNode β
  sorted : SortedKeys root.toList

namespace Treap

def toMap (t : Treap β) : OrdMap Key β := ⟨t.root.toList, t.sorted⟩

def new : Treap β := ⟨.nil, List.Pairwise.nil⟩

def get (t : Treap β) (key : Key) : Option β := treapFind key t.root

def put (t : Treap β) (key : Key) (value : β) : Treap β :=
  match h : treapFind key t.root with
  | some _ =>
    { root := treapReplace key value t.root
      sorted := by
        rw [toList_treapReplace t.sorted ⟨_, h⟩]
        exact (t.toMap.insert key value).sorted }
  | none =>
    { root := treapInsertNode key value (treapPrioFromKey key) t.root
      sorted := by
        rw [toList_treapInsertNode t.sorted]
        · exact (t.toMap.insert key value).sorted
        rintro e he rfl
        rw [(treapFind_eq_some t.sorted).2 he] at h
        cases h }

def del (t : Treap β) (key : Key) : Treap β where
  root := (treapDeleteNode key t.root).1
  sorted := by
    rw [toList_treapDeleteNode t.sorted]
    exact (t.toMap.erase key).sorted

def range (t : Treap β) (lo hi : Key) : List (Key × β) := treapInorderRange lo hi t.root

lemma get_eq_find (t : Treap β) (key : Key) : t.get key = t.toMap.find key := by
  ext v
  rw [find_eq_some]
  exact treapFind_eq_some t.sorted

lemma toMap_put (t : Treap β) (key : Key) (value : β) :
    (t.put key value).toMap = t.toMap.insert key value := by
  refine ext_entries ?_
  unfold put
  split
  · rename_i w h
    exact toList_treapReplace t.sorted ⟨w, h⟩
  rename_i h
  refine toList_treapInsertNode t.sorted ?_
  rintro e he rfl
  rw [(treapFind_eq_some t.sorted).2 he] at h
  cases h

lemma root_put (t : Treap β) (key : Key) (value : β) : (t.put key value).root =
    if (t.get key).isSome then treapReplace key value t.root
    else treapInsertNode key value (treapPrioFromKey key) t.root := by
  unfold put get
  split <;> rename_i h <;> simp only [h] <;> rfl

lemma toMap_del (t : Treap β) (key : Key) : (t.del key).toMap = t.toMap.erase key :=
  ext_entries (toList_treapDeleteNode t.sorted)

end Treap

/-! ## The heap order -/

/-- No child has a higher priority than its parent. -/
def TreapNode.Heap : TreapNode β → Prop
  | .nil => True
  | .node l _ _ p r =>
    TreapNode.Heap l ∧ TreapNode.Heap r ∧ ¬ TreapNode.outranks l p ∧ ¬ TreapNode.outranks r p

/-- Once `key` is gone, nothing that can come to the root outranks `x`. -/
def TreapNode.Under (key : Key) (x : UInt32) : TreapNode β → Prop
  | .nil => True
  | .node l k _ p r =>
    ¬ TreapNode.outranks l x ∧ ¬ TreapNode.outranks r x ∧ (k ≠ key → p ≤ x)

section

variable {key : Key} {value : β} {prio x y : UInt32} {t : TreapNode β}

lemma outranks_node {l r : TreapNode β} {k : Key} {v : β} {p : UInt32} :
    ¬ TreapNode.outranks (.node l k v p r) x ↔ p ≤ x := by
  unfold TreapNode.outranks
  rw [decide_eq_true_iff, UInt32.not_lt]

lemma not_outranks_mono (h : ¬ t.outranks x) (hle : x ≤ y) : ¬ t.outranks y := by
  cases t with
  | nil => exact h
  | node l k v p r => exact outranks_node.2 (UInt32.le_trans (outranks_node.1 h) hle)

lemma TreapNode.Heap.under (h : t.Heap) (hx : ¬ t.outranks x) : t.Under key x := by
  cases t with
  | nil => trivial
  | node l k v p r =>
    have hp := outranks_node.1 hx
    exact ⟨not_outranks_mono h.2.2.1 hp, not_outranks_mono h.2.2.2 hp, fun _ => hp⟩

lemma heap_treapInsertNode (h : t.Heap) : (treapInsertNode key value prio t).Heap ∧
    ∀ x, ¬ t.outranks x → (treapInsertNode key value prio t).Under key x := by
  induction t with
  | nil => exact ⟨⟨h, h, nofun, nofun⟩, fun x _ => ⟨nofun, nofun, fun hne => absurd rfl hne⟩⟩
  | node l k v p r ihl ihr =>
    unfold treapInsertNode
    split
    · generalize treapInsertNode key value prio l = l' at ihl
      cases l' <;>
        grind [TreapNode.Heap, TreapNode.Under, TreapNode.outranks, not_outranks_mono,
          SearchTree.rotateRight]
    · generalize treapInsertNode key value prio r = r' at ihr
      cases r' <;>
        grind [TreapNode.Heap, TreapNode.Under, TreapNode.outranks, not_outranks_mono,
          SearchTree.rotateLeft]

lemma heap_treapDeleteNode (h : t.Heap) : (treapDeleteNode key t).1.Heap ∧
    ∀ x, t.Under key x → ¬ (treapDeleteNode key t).1.outranks x := by
  fun_induction treapDeleteNode key t with
  | case1 => exact ⟨h, fun _ _ => nofun⟩
  | case2 | case3 | case4 | case5 | case6 | case7 | case8 =>
    grind [TreapNode.Heap, TreapNode.Under, TreapNode.outranks, not_outranks_mono,
      TreapNode.Heap.under]

lemma treapReplace_keeps : (∀ x, (treapReplace key value t).outranks x = t.outranks x) ∧
    (treapReplace key value t).size = t.size ∧ (t.Heap → (treapReplace key value t).Heap) := by
  induction t with
  | nil => exact ⟨fun _ => rfl, rfl, id⟩
  | node l k v p r ihl ihr =>
    unfold treapReplace
    split_ifs <;> grind [TreapNode.Heap, TreapNode.outranks, SearchTree.size]

lemma size_treapInsertNode : (treapInsertNode key value prio t).size = t.size + 1 := by
  induction t with
  | nil => rfl
  | node l k v p r ihl ihr =>
    unfold treapInsertNode
    rw [← SearchTree.length_toList]
    dsimp only
    split_ifs <;>
      simp only [SearchTree.toList_rotateRight, SearchTree.toList_rotateLeft,
        SearchTree.length_toList, SearchTree.size, ihl, ihr] <;>
      omega

lemma size_treapDeleteNode (key : Key) (t : TreapNode β) : (treapDeleteNode key t).2 = treapFind key t ∧
    (treapDeleteNode key t).1.size + (if (treapFind key t).isSome then 1 else 0) = t.size := by
  fun_induction treapDeleteNode key t <;> grind [treapFind, SearchTree.size]

end

/-! ## Sequences of calls -/

/-- `struct cetcd_treap`: the tree and the counter of its keys. -/
structure SizedTreap (β : Type) where
  tree : Treap β
  size : Nat

inductive TreapOp (β : Type)
  | put (key : Key) (value : β)
  | get (key : Key)
  | del (key : Key)

namespace TreapOp

def run (t : SizedTreap β) : TreapOp β → SizedTreap β
  | put key value =>
    ⟨t.tree.put key value, if (t.tree.get key).isSome then t.size else t.size + 1⟩
  | get _ => t
  | del key =>
    ⟨t.tree.del key, if (treapDeleteNode key t.tree.root).2.isSome then t.size - 1 else t.size⟩

/-- The value of a key after the operation: the last one put, unless it was deleted since. -/
def last (key : Key) (v : Option β) : TreapOp β → Option β
  | put k w => if key = k then some w else v
  | get _ => v
  | del k => if key = k then none else v

end TreapOp

/-- The heap order, and the counter of the keys. -/
def SizedTreap.Sound (t : SizedTreap β) : Prop := t.tree.root.Heap ∧ t.size = t.tree.root.size

lemma SizedTreap.Sound.run {t : SizedTreap β} (h : t.Sound) (op : TreapOp β) : (op.run t).Sound := by
  cases op with
  | get key => exact h
  | put key value =>
    change (t.tree.put key value).root.Heap ∧ ite _ _ _ = (t.tree.put key value).root.size
    rw [Treap.root_put, h.2]
    split
    · exact ⟨treapReplace_keeps.2.2 h.1, treapReplace_keeps.2.1.symm⟩
    · exact ⟨(heap_treapInsertNode h.1).1, size_treapInsertNode.symm⟩
  | del key =>
    refine ⟨(heap_treapDeleteNode h.1).1, ?_⟩
    change ite _ _ _ = (treapDeleteNode key t.tree.root).1.size
    obtain ⟨hfound, hsize⟩ := size_treapDeleteNode key t.tree.root
    rw [hfound, h.2, ← hsize]
    split <;> rfl

lemma get_run (t : SizedTreap β) (op : TreapOp β) (key : Key) :
    (op.run t).tree.get key = op.last key (t.tree.get key) := by
  cases op with
  | get k => rfl
  | put k w =>
    change (t.tree.put k w).get key = ite _ _ _
    rw [Treap.get_eq_find, Treap.toMap_put, find_insert, Treap.get_eq_find]
    split_ifs <;> rfl
  | del k =>
    change (t.tree.del k).get key = ite _ _ _
    rw [Treap.get_eq_find, Treap.toMap_del, find_erase, Treap.get_eq_find]
    split_ifs <;> rfl

theorem treap_ordered_map (ops : List (TreapOp β)) :
    let t := ops.foldl TreapOp.run ⟨Treap.new, 0⟩
    SortedKeys t.tree.root.toList ∧ t.tree.root.Heap ∧ t.size = t.tree.root.toList.length ∧
      (∀ key, t.tree.get key = ops.foldl (TreapOp.last key) none) ∧
      ∀ lo hi, SortedKeys (t.tree.range lo hi) ∧ ∀ k v, (k, v) ∈ t.tree.range lo hi ↔
        t.tree.get k = some v ∧ lo ≤ k ∧ (hi = [] ∨ k < hi) := by
  have hsound : SizedTreap.Sound (ops.foldl TreapOp.run ⟨Treap.new, 0⟩) :=
    foldlRecOn ops _ ⟨trivial, rfl⟩ fun t h op _ => h.run op
  refine ⟨Treap.sorted _, hsound.1, hsound.2.trans (SearchTree.length_toList _).symm,
    fun key => ?_, fun lo hi => ?_⟩
  · exact (foldl_hom (fun t : SizedTreap β => t.tree.get key) fun t op =>
      (get_run t op key).symm).symm
  generalize ops.foldl TreapOp.run _ = t
  unfold Treap.range Treap.get
  rw [treapInorderRange_eq]
  refine ⟨t.tree.sorted.filter _, fun k v => ?_⟩
  rw [mem_filter, treapFind_eq_some t.tree.sorted, decide_eq_true_iff]

end Cetcd.Mvcc
