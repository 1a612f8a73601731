import Mathlib.Data.List.Basic
import Mathlib.Data.List.Pairwise
import Mathlib.Data.Tree.Basic
import Mathlib.Order.Lattice

/-!
# Unbalanced search trees

Search trees over Mathlib's `BinaryTree`, ordered by a `key` of their elements. `insertLeaf` leaves
a tree alone that already holds the key, so the element inserted first under a key stays: this is
`lookup_insertLeaf`, which needs no order invariant, since the two descents compare alike. The
order itself is that of the in-order list (`Ordered`), and `insertLeaf` keeps it
(`Ordered.insertLeaf`).
-/

namespace Lkb.SearchTree

open BinaryTree

variable {α κ : Type*}

/-- The elements of a tree, from left to right. -/
def inorder : BinaryTree α → List α
  | nil => []
  | node a l r => inorder l ++ a :: inorder r

@[simp] theorem inorder_nil : inorder (nil : BinaryTree α) = [] := rfl

@[simp] theorem inorder_node (a : α) (l r : BinaryTree α) :
    inorder (node a l r) = inorder l ++ a :: inorder r := rfl

theorem mem_inorder_node {x a : α} {l r : BinaryTree α} :
    x ∈ inorder (node a l r) ↔ x ∈ inorder l ∨ x = a ∨ x ∈ inorder r := by
  simp

variable [LinearOrder κ] (key : α → κ)

/-- The element with key `v` that a descent from the root finds. -/
def lookup (v : κ) : BinaryTree α → Option α
  | nil => none
  | node a l r =>
    if v < key a then lookup v l else if key a < v then lookup v r else some a

/-- Insert `x` as a leaf, unless the descent finds its key. -/
def insertLeaf (x : α) : BinaryTree α → BinaryTree α
  | nil => node x nil nil
  | node a l r =>
    if key x < key a then node a (insertLeaf x l) r
    else if key a < key x then node a l (insertLeaf x r)
    else node a l r

/-- The last node that the descent for `v` visits, `p` on an empty tree. -/
def lastVisited (v : κ) : BinaryTree α → Option α → Option α
  | nil, p => p
  | node a l r, _ =>
    if v < key a then lastVisited v l (some a)
    else if key a < v then lastVisited v r (some a)
    else some a

/-- The elements of the tree are in increasing order of their keys, from left to right. -/
def Ordered (t : BinaryTree α) : Prop := (inorder t).Pairwise fun a b => key a < key b

variable {key} {v : κ} {x y : α} {t : BinaryTree α}

section

variable {a : α} {l r : BinaryTree α}

theorem lookup_node_of_lt (h : v < key a) : lookup key v (node a l r) = lookup key v l :=
  if_pos h

theorem lookup_node_of_gt (h : key a < v) : lookup key v (node a l r) = lookup key v r := by
  rw [lookup, if_neg h.not_gt, if_pos h]

theorem lookup_node_of_eq (h : v = key a) : lookup key v (node a l r) = some a := by
  rw [lookup, if_neg h.not_lt, if_neg h.not_gt]

end

/-- **The first element inserted under a key stays.** -/
theorem lookup_insertLeaf (v : κ) (x : α) (t : BinaryTree α) :
    lookup key v (insertLeaf key x t) =
      (lookup key v t).or (if key x = v then some x else none) := by
  induction t with
  | nil =>
    rcases lt_trichotomy v (key x) with h | h | h
    · simp [insertLeaf, lookup, h, h.ne']
    · simp [insertLeaf, lookup, h]
    · simp [insertLeaf, lookup, h, h.not_gt, h.ne]
  | node a l r ihl ihr =>
    rcases lt_trichotomy (key x) (key a) with hx | hx | hx
    · rw [insertLeaf, if_pos hx]
      rcases lt_trichotomy v (key a) with h | h | h
      · rw [lookup_node_of_lt h, lookup_node_of_lt h, ihl]
      · rw [lookup_node_of_eq h, lookup_node_of_eq h, Option.some_or]
      · rw [lookup_node_of_gt h, lookup_node_of_gt h, if_neg (hx.trans h).ne, Option.or_none]
    · rw [insertLeaf, if_neg hx.not_lt, if_neg hx.not_gt]
      by_cases h : v = key a
      · rw [lookup_node_of_eq h, Option.some_or]
      · rw [if_neg fun e => h (e.symm.trans hx), Option.or_none]
    · rw [insertLeaf, if_neg hx.not_gt, if_pos hx]
      rcases lt_trichotomy v (key a) with h | h | h
      · rw [lookup_node_of_lt h, lookup_node_of_lt h, if_neg (h.trans hx).ne', Option.or_none]
      · rw [lookup_node_of_eq h, lookup_node_of_eq h, Option.some_or]
      · rw [lookup_node_of_gt h, lookup_node_of_gt h, ihr]

theorem insertLeaf_eq_self (h : lookup key (key x) t = some y) : insertLeaf key x t = t := by
  induction t with
  | nil => simp [lookup] at h
  | node a l r ihl ihr =>
    simp only [lookup] at h
    simp only [insertLeaf]
    split_ifs at h ⊢ with h₁ h₂
    · rw [ihl h]
    · rw [ihr h]
    · rfl

/-- A key that the descent does not find is that of the new leaf, which joins the elements. -/
theorem mem_inorder_insertLeaf (h : lookup key (key x) t = none) :
    y ∈ inorder (insertLeaf key x t) ↔ y = x ∨ y ∈ inorder t := by
  induction t with
  | nil => simp [insertLeaf]
  | node a l r ihl ihr =>
    simp only [lookup] at h
    simp only [insertLeaf]
    split_ifs at h ⊢ with h₁ h₂
    · rw [mem_inorder_node, ihl h, mem_inorder_node, or_assoc]
    · rw [mem_inorder_node, ihr h, mem_inorder_node, or_left_comm (a := y = a),
        or_left_comm (a := y ∈ inorder l)]

theorem ordered_node {a : α} {l r : BinaryTree α} :
    Ordered key (node a l r) ↔ Ordered key l ∧ Ordered key r ∧
      (∀ b ∈ inorder l, key b < key a) ∧ ∀ b ∈ inorder r, key a < key b := by
  simp only [Ordered, inorder_node, List.pairwise_append, List.pairwise_cons, List.mem_cons]
  constructor
  · rintro ⟨hl, ⟨ha, hr⟩, hlr⟩
    exact ⟨hl, hr, fun b hb => hlr b hb a (.inl rfl), ha⟩
  · rintro ⟨hl, hr, hla, har⟩
    refine ⟨hl, ⟨har, hr⟩, fun b hb c hc => ?_⟩
    rcases hc with rfl | hc
    · exact hla b hb
    · exact (hla b hb).trans (har c hc)

/-- Insertion keeps the order. -/
theorem Ordered.insertLeaf (h : Ordered key t) (x : α) : Ordered key (insertLeaf key x t) := by
  cases hx : lookup key (key x) t with
  | some y => rwa [insertLeaf_eq_self hx]
  | none =>
    induction t with
    | nil => simp [SearchTree.insertLeaf, Ordered]
    | node a l r ihl ihr =>
      obtain ⟨hl, hr, hla, har⟩ := ordered_node.1 h
      simp only [lookup] at hx
      simp only [SearchTree.insertLeaf]
      split_ifs at hx ⊢ with h₁ h₂
      · refine ordered_node.2 ⟨ihl hl hx, hr, fun b hb => ?_, har⟩
        rcases (mem_inorder_insertLeaf hx).1 hb with rfl | hb
        · exact h₁
        · exact hla b hb
      · refine ordered_node.2 ⟨hl, ihr hr hx, hla, fun b hb => ?_⟩
        rcases (mem_inorder_insertLeaf hx).1 hb with rfl | hb
        · exact h₂
        · exact har b hb

theorem Ordered.nodup (h : Ordered key t) : (inorder t).Nodup :=
  List.Pairwise.imp (fun hab e => hab.ne (congrArg key e)) h

end Lkb.SearchTree
