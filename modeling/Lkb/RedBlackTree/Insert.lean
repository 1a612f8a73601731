import Lkb.RedBlackTree.Basic
import Mathlib.Tactic.Common

/-!
# One call of `search` and of `insert`

`Holds s t` says that the heap of `s` spans the search tree `t`. On such a heap `search` returns
what `SearchTree.lookup` finds (`search_returns`), and `insert` returns with one of two effects
(`Inserted`): it links the node at a null pointer, or it finds its data and writes nothing
(`insert_returns`). Either way the heap then spans the tree with the node inserted.
-/

namespace Lkb.RedBlackTree

open Loop PointerTree SearchTree BinaryTree

variable {s s' : State} {t : BinaryTree Addr} {x y a : Addr} {p u : Option Addr} {r : ℤ}

namespace State

@[simp] theorem kids_print (m : Msg) : (s.print m).kids = s.kids := by
  funext d a
  cases d <;> rfl

@[simp] theorem rbNode_print (m : Msg) : (s.print m).rbNode = s.rbNode := rfl

@[simp] theorem kids_store_rbNode : (s.store .rbNode p).kids = s.kids := by
  funext d a
  cases d <;> rfl

@[simp] theorem rbNode_store_rbNode : (s.store .rbNode p).rbNode = p := rfl

@[simp] theorem rbNode_store_child (d : Side) : (s.store (.child d a) p).rbNode = s.rbNode := by
  cases d <;> rfl

theorem kids_store_child (d : Side) : (s.store (.child d a) (some x)).kids = link s.kids a d x := by
  funext e b
  by_cases hb : b = a
  · subst hb
    cases d <;> cases e <;> simp [store, kids, link]
  · cases d <;> cases e <;> simp [store, kids, link, hb]

@[simp] theorem data_store (l : Slot) : (s.store l p).data = s.data := by
  funext b
  rcases l with _ | ⟨_ | _, a⟩
  · rfl
  all_goals
    by_cases hb : b = a
    · subst hb
      simp [store, data]
    · simp [store, data, hb]

end State

/-- The heap spans the search tree `t`. -/
structure Holds (s : State) (t : BinaryTree Addr) : Prop where
  spans : Spans s.kids s.rbNode t
  ordered : Ordered s.data t

theorem holds_rbRoot (mem : Addr → Tree) : Holds (rbRoot mem) nil :=
  ⟨rfl, List.Pairwise.nil⟩

/-! ## `search` -/

theorem searchLoop_returns (v : Int32) (h : Spans s.kids p t) :
    Returns (fun n => loop (searchBody s v) n p) (lookup s.data v t) := by
  induction t generalizing p with
  | nil =>
    obtain rfl : p = none := h
    exact Returns.loop_leave rfl
  | node c l r ihl ihr =>
    obtain ⟨rfl, hl, hr⟩ := h
    by_cases hlt : v < s.data c
    · rw [lookup_node_of_lt hlt]
      exact Returns.loop_round (if_pos hlt) (ihl hl)
    · by_cases hgt : s.data c < v
      · rw [lookup_node_of_gt hgt]
        refine Returns.loop_round ?_ (ihr hr)
        rw [searchBody, if_neg hlt, if_pos hgt]
      · rw [lookup_node_of_eq (le_antisymm (not_lt.1 hgt) (not_lt.1 hlt))]
        refine Returns.loop_leave ?_
        rw [searchBody, if_neg hlt, if_neg hgt]

/-- **`search` terminates and finds what the tree holds.** -/
theorem search_returns (h : Holds s t) (v : Int32) :
    Returns (fun n => search n s v) (lookup s.data v t) :=
  searchLoop_returns v h.spans

/-! ## `insert` -/

/-- The variables of `insert` when it leaves its loop. -/
def leaveCursor (s : State) (x : Addr) (t : BinaryTree Addr) (u : Option Addr) : Cursor :=
  match lookup s.data (s.data x) t with
  | some b => ⟨some b, some b, some b⟩
  | none => ⟨none, lastVisited s.data (s.data x) t u, lastVisited s.data (s.data x) t u⟩

theorem insertLoop_returns (x : Addr) (h : Spans s.kids p t) (u : Option Addr) :
    Returns (fun n => loop (insertBody s x) n ⟨p, u, u⟩) (leaveCursor s x t u) := by
  induction t generalizing p u with
  | nil =>
    obtain rfl : p = none := h
    exact Returns.loop_leave rfl
  | node c l r ihl ihr =>
    obtain ⟨rfl, hl, hr⟩ := h
    by_cases hlt : s.data x < s.data c
    · have e : leaveCursor s x (node c l r) u = leaveCursor s x l (some c) := by
        simp only [leaveCursor, lookup_node_of_lt hlt, lastVisited, if_pos hlt]
      rw [e]
      exact Returns.loop_round (if_pos hlt) (ihl hl (some c))
    · by_cases hgt : s.data c < s.data x
      · have e : leaveCursor s x (node c l r) u = leaveCursor s x r (some c) := by
          simp only [leaveCursor, lookup_node_of_gt hgt, lastVisited, if_neg hlt, if_pos hgt]
        rw [e]
        refine Returns.loop_round ?_ (ihr hr (some c))
        simp only [insertBody, gt_iff_lt, if_neg hlt, if_pos hgt]
      · have heq : s.data x = s.data c := le_antisymm (not_lt.1 hgt) (not_lt.1 hlt)
        refine Returns.loop_leave ?_
        simp only [insertBody, gt_iff_lt, if_neg hlt, if_neg hgt, leaveCursor,
          lookup_node_of_eq heq]

/-- What a call `insert(x)` on a heap that spans `t` returns, and the state it leaves. -/
inductive Inserted (s : State) (t : BinaryTree Addr) (x : Addr) : ℤ → State → Prop
  /-- The node is linked at a pointer that was null: the root, or a child of a node of the tree. -/
  | linked (l : Slot) (hl : l = .rbNode ∨ ∃ d, ∃ a ∈ inorder t, l = .child d a)
      (hnone : lookup s.data (s.data x) t = none) (hnull : s.load l = none) :
      Inserted s t x 0 (s.store l (some x))
  /-- A node of the tree has the data of `x`. -/
  | present (b : Addr) (hb : lookup s.data (s.data x) t = some b) :
      Inserted s t x 1 (s.print .alreadyPresent)

/-- **One call of `insert`.** -/
theorem insert_returns (h : Holds s t) (hx : x ∉ inorder t) (hkids : ∀ d, s.kids d x = none) :
    ∃ r s', Returns (fun n => insert n s x) (r, s') ∧ Inserted s t x r s' ∧
      Holds s' (insertLeaf s.data x t) := by
  rcases t with _ | ⟨c, l, r⟩
  · -- an empty tree: the node becomes the root
    have hroot : s.rbNode = none := h.spans
    refine ⟨0, s.store .rbNode (some x), ?_, .linked .rbNode (.inl rfl) rfl hroot, ?_, ?_⟩
    · refine ⟨0, fun m _ => ?_⟩
      simp only [insert, hroot, Option.isNone_none, if_true]
    · rw [State.kids_store_rbNode, State.rbNode_store_rbNode]
      exact ⟨rfl, hkids _, hkids _⟩
    · rw [State.data_store]
      exact h.ordered.insertLeaf x
  · have hroot : s.rbNode = some c := h.spans.1
    have hreturns : ∀ {z : ℤ × State},
        insertAfter s x (leaveCursor s x (node c l r) none) = some z →
        Returns (fun n => insert n s x) z := by
      intro z hz
      have hloop := insertLoop_returns x h.spans none
      simpa only [insert, hroot, Option.isNone_some, Bool.false_eq_true, if_false] using
        hloop.bind (g := fun _ => insertAfter s x) ⟨0, fun _ _ => hz⟩
    cases hlook : lookup s.data (s.data x) (node c l r) with
    | some b =>
      refine ⟨1, s.print .alreadyPresent, hreturns ?_, .present b hlook, ?_, ?_⟩
      · simp [leaveCursor, hlook, insertAfter]
      · rw [insertLeaf_eq_self hlook, State.kids_print, State.rbNode_print]
        exact h.spans
      · rw [insertLeaf_eq_self hlook]
        exact h.ordered
    | none =>
      obtain ⟨a, ha, hlast, hnull, hspan⟩ :=
        h.spans.link h.ordered.nodup (by simp) hx hkids hlook none
      refine ⟨0, s.store (.child (sideOf s.data a x) a) (some x), hreturns ?_,
        .linked _ (.inr ⟨_, a, ha, rfl⟩) hlook hnull, ?_, ?_⟩
      · -- the comparison after the loop takes the side of the slot the loop stopped at
        by_cases hlt : s.data x < s.data a
        · simp [leaveCursor, hlook, insertAfter, hlast, sideOf, hlt]
        · simp [leaveCursor, hlook, insertAfter, hlast, sideOf, hlt]
      · rwa [State.kids_store_child, State.rbNode_store_child]
      · rw [State.data_store]
        exact h.ordered.insertLeaf x

namespace Inserted

variable (h : Inserted s t x r s')
include h

/-- No call changes the data of a node. -/
theorem data_eq : s'.data = s.data := by
  cases h with
  | linked l => exact State.data_store l
  | present b => rfl

/-- A call changes no child pointer of a node that is not in the tree. -/
theorem kids_of_not_mem (hy : y ∉ inorder t) (d : Side) : s'.kids d y = s.kids d y := by
  cases h with
  | linked l hl =>
    obtain rfl | ⟨d', a, ha, rfl⟩ := hl
    · rw [State.kids_store_rbNode]
    · rw [State.kids_store_child]
      exact link_of_ne fun e => hy (e ▸ ha)
  | present b => rw [State.kids_print]

/-- **A call changes no path to a node of the tree.** -/
theorem follow_eq {q : List Side} (hq : follow s.kids s.rbNode q = some a) :
    follow s'.kids s'.rbNode q = some a := by
  cases h with
  | linked l hl _ hnull =>
    obtain rfl | ⟨d, b, -, rfl⟩ := hl
    · have hroot : s.rbNode = none := hnull
      simp [hroot] at hq
    · rw [State.kids_store_child, State.rbNode_store_child]
      exact follow_link hnull hq
  | present b => rwa [State.kids_print, State.rbNode_print]

end Inserted

end Lkb.RedBlackTree
