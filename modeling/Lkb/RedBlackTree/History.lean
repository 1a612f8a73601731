import Lkb.RedBlackTree.Insert

/-!
# Histories of insertions

What any sequence of calls of `insert` on distinct, unlinked nodes does to a heap (the run lemma is
`insertAll_returns`), and from it, for the calls that start from `RB_ROOT`:

* `search_after_insertAll`: `insert` and `search` implement a finite map in which the first node
  inserted under a key stays;
* `shape_after_insertAll`: the heap has the shape of a search tree, whose nodes are those that
  `insert` accepted, and no call ever changes a pointer that was not null.
-/

namespace Lkb.RedBlackTree

open Loop PointerTree SearchTree BinaryTree

variable {s s' : State} {t : BinaryTree Addr} {x y : Addr} {ts : List Addr}

/-- The tree after the insertion of the nodes of a list in turn. -/
def treeOf (data : Addr → Int32) : BinaryTree Addr → List Addr → BinaryTree Addr
  | t, [] => t
  | t, x :: ts => treeOf data (insertLeaf data x t) ts

/-- The values that the calls of `insert` return: 1 where the data of the node is in the tree. -/
def codes (data : Addr → Int32) : BinaryTree Addr → List Addr → List ℤ
  | _, [] => []
  | t, x :: ts =>
    (if (lookup data (data x) t).isSome then 1 else 0) :: codes data (insertLeaf data x t) ts

theorem mem_of_mem_insertLeaf {data : Addr → Int32} (h : y ∈ inorder (insertLeaf data x t)) :
    y = x ∨ y ∈ inorder t := by
  cases hx : lookup data (data x) t with
  | none => exact (mem_inorder_insertLeaf hx).1 h
  | some b =>
    rw [insertLeaf_eq_self hx] at h
    exact .inr h

theorem Inserted.code_eq {r : ℤ} (h : Inserted s t x r s') :
    r = if (lookup s.data (s.data x) t).isSome then 1 else 0 := by
  cases h with
  | linked _ _ hnone => simp [hnone]
  | present b hb => simp [hb]

/-- **A sequence of calls.** Every call returns, the heap then spans the tree with the nodes
inserted in turn, and neither the data nor a path to a node of the heap has changed. -/
theorem insertAll_returns (h : Holds s t) (hts : ts.Nodup) (hfresh : ∀ x ∈ ts, x ∉ inorder t)
    (hkids : ∀ x ∈ ts, ∀ d, s.kids d x = none) :
    ∃ s', Returns (fun n => insertAll n s ts) (codes s.data t ts, s') ∧
      Holds s' (treeOf s.data t ts) ∧ s'.data = s.data ∧
      (∀ q a, follow s.kids s.rbNode q = some a → follow s'.kids s'.rbNode q = some a) ∧
      ∀ y, y ∉ inorder t → y ∉ ts → ∀ d, s'.kids d y = s.kids d y := by
  induction ts generalizing s t with
  | nil => exact ⟨s, Returns.pure _, h, rfl, fun _ _ hq => hq, fun _ _ _ _ => rfl⟩
  | cons x ts ih =>
    obtain ⟨hxts, hts⟩ := List.nodup_cons.1 hts
    have hx := hfresh x List.mem_cons_self
    obtain ⟨r, s₁, hret, hins, hholds⟩ := insert_returns h hx (hkids x List.mem_cons_self)
    have hdata := hins.data_eq
    -- the nodes still to come are untouched by the first call
    have hfresh₁ : ∀ y ∈ ts, y ∉ inorder (insertLeaf s.data x t) := by
      intro y hy hmem
      obtain rfl | hmem := mem_of_mem_insertLeaf hmem
      · exact hxts hy
      · exact hfresh y (List.mem_cons_of_mem x hy) hmem
    have hkids₁ : ∀ y ∈ ts, ∀ d, s₁.kids d y = none := by
      intro y hy d
      rw [hins.kids_of_not_mem (hfresh y (List.mem_cons_of_mem x hy))]
      exact hkids y (List.mem_cons_of_mem x hy) d
    obtain ⟨s₂, hret₂, hholds₂, hdata₂, hpath₂, hframe₂⟩ := ih hholds hts hfresh₁ hkids₁
    rw [hdata] at hret₂ hholds₂ hdata₂
    refine ⟨s₂, ?_, hholds₂, hdata₂, fun q a hq => hpath₂ q a (hins.follow_eq hq), ?_⟩
    · rw [codes, ← hins.code_eq]
      refine hret.bind
        (g := fun n z => (insertAll n z.2 ts).bind fun w => some (z.1 :: w.1, w.2)) ?_
      exact hret₂.bind (g := fun _ w => some (r :: w.1, w.2)) (Returns.pure _)
    · intro y hy hyts d
      obtain ⟨hyx, hyts⟩ := List.ne_and_not_mem_of_not_mem_cons hyts
      rw [hframe₂ y (fun hmem => ?_) hyts, hins.kids_of_not_mem hy]
      obtain rfl | hmem := mem_of_mem_insertLeaf hmem
      · exact hyx rfl
      · exact hy hmem

/-- The lookup in the tree of a history: the first node inserted under the key. -/
theorem lookup_treeOf (data : Addr → Int32) (v : Int32) (t : BinaryTree Addr) (ts : List Addr) :
    lookup data v (treeOf data t ts) = (lookup data v t).or (ts.find? fun x => data x = v) := by
  induction ts generalizing t with
  | nil => simp [treeOf]
  | cons x ts ih =>
    rw [treeOf, ih, lookup_insertLeaf, Option.or_assoc, List.find?_cons]
    by_cases hx : data x = v
    · simp [hx]
    · simp [hx]

theorem length_codes (data : Addr → Int32) (t : BinaryTree Addr) (ts : List Addr) :
    (codes data t ts).length = ts.length := by
  induction ts generalizing t with
  | nil => rfl
  | cons x ts ih => rw [codes, List.length_cons, ih, List.length_cons]

/-- The call on the `i`-th node returns 1 when the nodes before it have its data. -/
theorem getElem?_codes (data : Addr → Int32) (t : BinaryTree Addr) (ts : List Addr) (i : ℕ)
    (hx : ts[i]? = some x) :
    (codes data t ts)[i]? =
      some (if (lookup data (data x) (treeOf data t (ts.take i))).isSome then 1 else 0) := by
  induction ts generalizing t i with
  | nil => simp at hx
  | cons z ts ih =>
    cases i with
    | zero =>
      obtain rfl : z = x := by simpa using hx
      rfl
    | succ i => exact ih (insertLeaf data z t) i hx

/-- The nodes of the tree of a history are those that `insert` returned 0 for. -/
theorem mem_treeOf (data : Addr → Int32) (t : BinaryTree Addr) (ts : List Addr) :
    y ∈ inorder (treeOf data t ts) ↔ y ∈ inorder t ∨ (y, 0) ∈ ts.zip (codes data t ts) := by
  induction ts generalizing t with
  | nil => simp [treeOf, codes]
  | cons x ts ih =>
    rw [treeOf, ih, codes, List.zip_cons_cons, List.mem_cons]
    cases hx : lookup data (data x) t with
    | none =>
      rw [mem_inorder_insertLeaf hx]
      simp only [Option.isSome_none, Bool.false_eq_true, if_false, Prod.mk.injEq, and_true]
      tauto
    | some b =>
      rw [insertLeaf_eq_self hx]
      simp

/-! ## From the empty tree -/

variable {mem : Addr → Tree}

/-- The nodes are as `start` sets them up: without children. -/
def Unlinked (mem : Addr → Tree) (ts : List Addr) : Prop :=
  ∀ t ∈ ts, (mem t).rbLeft = none ∧ (mem t).rbRight = none

instance (ts : List Addr) : Decidable (Unlinked mem ts) :=
  inferInstanceAs (Decidable (∀ t ∈ ts, _))

theorem Unlinked.kids (h : Unlinked mem ts) : ∀ x ∈ ts, ∀ d, (rbRoot mem).kids d x = none := by
  intro x hx d
  cases d with
  | left => exact (h x hx).1
  | right => exact (h x hx).2

/-- **`insert` and `search` are a finite map in which the first writer wins.** -/
theorem search_after_insertAll (mem : Addr → Tree) (ts : List Addr) (hts : ts.Nodup)
    (hnull : Unlinked mem ts) :
    ∃ rs s, Returns (fun n => insertAll n (rbRoot mem) ts) (rs, s) ∧
      (∀ v, Returns (fun n => search n s v) (ts.find? fun t => (mem t).data = v)) ∧
      rs.length = ts.length ∧
      ∀ i t, ts[i]? = some t →
        rs[i]? = some (if ∃ u ∈ ts.take i, (mem u).data = (mem t).data then 1 else 0) := by
  obtain ⟨s, hret, hholds, hdata, -, -⟩ :=
    insertAll_returns (holds_rbRoot mem) hts (fun _ _ => by simp) hnull.kids
  refine ⟨_, s, hret, fun v => ?_, length_codes _ _ _, fun i t ht => ?_⟩
  · have hsearch := search_returns hholds v
    rw [hdata, lookup_treeOf] at hsearch
    exact hsearch
  · rw [getElem?_codes _ _ _ i ht, lookup_treeOf]
    refine congrArg some (if_congr ?_ rfl rfl)
    rw [lookup, Option.none_or, List.find?_isSome]
    exact exists_congr fun u => and_congr_right fun _ => decide_eq_true_iff

/-- Memory with data 5 at the nodes 1 and 3, and data 3 at the node 2. -/
def sampleMem (a : Addr) : Tree := ⟨if a = 2 then 3 else 5, 0, none, none⟩

theorem search_after_insertAll_sample :
    ∃ rs s, Returns (fun n => insertAll n (rbRoot sampleMem) [1, 2, 3]) (rs, s) ∧
      Returns (fun n => search n s 5) (some 1) ∧ Returns (fun n => search n s 4) none ∧
      rs[2]? = some 1 := by
  obtain ⟨rs, s, hret, hsearch, -, hrs⟩ :=
    search_after_insertAll sampleMem [1, 2, 3] (by decide) (by decide)
  exact ⟨rs, s, hret, hsearch 5, hsearch 4, hrs 2 3 rfl⟩

namespace State

/-- The node that a path from `root->rb_node` leads to. -/
def nodeAt (s : State) (q : List Side) : Option Addr := follow s.kids s.rbNode q

/-- The node is reachable from `root->rb_node`. -/
def Reachable (s : State) (a : Addr) : Prop := ∃ q, s.nodeAt q = some a

/-- The pointer variable belongs to the tree: the root, or a child field of a reachable node. -/
def Owns (s : State) : Slot → Prop
  | .rbNode => True
  | .child _ a => s.Reachable a

end State

/-- The shape of the heap: one path to each reachable node, and increasing data from left to
right. -/
structure State.TreeShaped (s : State) : Prop where
  one_path : ∀ a, s.Reachable a → ∃! q, s.nodeAt q = some a
  increasing : ∀ q q' a b, LeftOf q q' → s.nodeAt q = some a → s.nodeAt q' = some b →
    s.data a < s.data b

theorem Holds.treeShaped (h : Holds s t) : s.TreeShaped where
  one_path := by
    rintro a ⟨q, hq⟩
    exact ⟨q, hq, fun q' hq' => h.spans.follow_inj h.ordered.nodup hq' hq⟩
  increasing _ _ _ _ hqq hq hq' := h.spans.rel_of_leftOf h.ordered hqq hq hq'

theorem Holds.reachable_iff (h : Holds s t) (a : Addr) : s.Reachable a ↔ a ∈ inorder t :=
  h.spans.exists_follow_iff

/-- **The representation invariant and the frame of `insert`.** After any history of calls: the
heap is tree-shaped, with the nodes that `insert` returned 0 for; a further call writes one pointer
of the tree, which was null, or writes nothing; and no further calls change the path to a node. -/
theorem shape_after_insertAll (mem : Addr → Tree) (ts : List Addr) (hts : ts.Nodup)
    (hnull : Unlinked mem ts) :
    ∃ rs s, Returns (fun n => insertAll n (rbRoot mem) ts) (rs, s) ∧
      s.TreeShaped ∧ (∀ a, s.Reachable a ↔ (a, 0) ∈ ts.zip rs) ∧
      (∀ x, x ∉ ts → Unlinked mem [x] → ∃ r s', Returns (fun n => insert n s x) (r, s') ∧
        ((r = 0 ∧ ∃ l, s.Owns l ∧ s.load l = none ∧ s' = s.store l (some x)) ∨
          (r = 1 ∧ s'.writes = s.writes ∧ s'.rbNode = s.rbNode ∧ s'.mem = s.mem))) ∧
      ∀ ts', (ts ++ ts').Nodup → Unlinked mem ts' →
        ∃ rs' s', Returns (fun n => insertAll n s ts') (rs', s') ∧
          ∀ q a, s.nodeAt q = some a → s'.nodeAt q = some a := by
  obtain ⟨s, hret, hholds, hdata, -, hframe⟩ :=
    insertAll_returns (holds_rbRoot mem) hts (fun _ _ => by simp) hnull.kids
  have hmem : ∀ a, a ∈ inorder (treeOf (rbRoot mem).data nil ts) ↔
      (a, 0) ∈ ts.zip (codes (rbRoot mem).data nil ts) := by
    intro a
    simp [mem_treeOf]
  have hsub : ∀ a, a ∉ ts → a ∉ inorder (treeOf (rbRoot mem).data nil ts) := by
    intro a ha hat
    exact ha (List.of_mem_zip ((hmem a).1 hat)).1
  have hkids : ∀ a, a ∉ ts → Unlinked mem [a] → ∀ d, s.kids d a = none := by
    intro a ha hnulla d
    rw [hframe a (by simp) ha]
    exact hnulla.kids a (by simp) d
  refine ⟨_, s, hret, hholds.treeShaped, fun a => (hholds.reachable_iff a).trans (hmem a), ?_, ?_⟩
  · intro x hx hnullx
    obtain ⟨r, s', hret', hins, -⟩ := insert_returns hholds (hsub x hx) (hkids x hx hnullx)
    refine ⟨r, s', hret', ?_⟩
    cases hins with
    | linked l hl _ hload =>
      refine .inl ⟨rfl, l, ?_, hload, rfl⟩
      obtain rfl | ⟨d, a, ha, rfl⟩ := hl
      · trivial
      · exact (hholds.reachable_iff a).2 ha
    | present b => exact .inr ⟨rfl, rfl, rfl, rfl⟩
  · intro ts' hts' hnull'
    obtain ⟨-, hnodup', hdis⟩ := List.nodup_append.1 hts'
    have hnot : ∀ a ∈ ts', a ∉ ts := fun a ha ha' => hdis a ha' a ha rfl
    obtain ⟨s', hret', -, -, hpath, -⟩ := insertAll_returns hholds hnodup'
      (fun a ha => hsub a (hnot a ha)) fun a ha =>
        hkids a (hnot a ha) fun b hb => hnull' b (List.mem_singleton.1 hb ▸ ha)
    exact ⟨_, s', hret', hpath⟩

theorem shape_after_insertAll_sample :
    ∃ rs s, Returns (fun n => insertAll n (rbRoot sampleMem) [1, 2, 3]) (rs, s) ∧
      s.TreeShaped ∧ ∀ a, s.Reachable a ↔ (a, 0) ∈ [1, 2, 3].zip rs := by
  obtain ⟨rs, s, hret, hshape, hreach, -⟩ :=
    shape_after_insertAll sampleMem [1, 2, 3] (by decide) (by decide)
  exact ⟨rs, s, hret, hshape, hreach⟩

end Lkb.RedBlackTree
