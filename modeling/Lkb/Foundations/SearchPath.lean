import Lkb.Foundations.SearchTree
import Mathlib.Data.List.Induction
import Mathlib.Order.Interval.Set.UnorderedInterval

/-!
# The descents of an unbalanced search tree

`path key v t` lists the elements that the descent for `v` compares `v` with. A tree that is only
ever changed by `insertLeaf` is determined by the order of the insertions, and so is each descent:
the elements it meets are those that were inserted before every element whose key lies between
theirs and `v` (`mem_path_grow`), in the order of their insertion (`path_grow_sublist`).
-/

namespace Lkb.SearchTree

open BinaryTree

variable {α κ : Type*} [LinearOrder κ] {key : α → κ} {v : κ} {x y a : α} {t l r : BinaryTree α}

/-- The elements that the descent for `v` visits, from the root on. -/
def path (key : α → κ) (v : κ) : BinaryTree α → List α
  | nil => []
  | node a l r => a :: if v < key a then path key v l else if key a < v then path key v r else []

theorem path_node_of_lt (h : v < key a) : path key v (node a l r) = a :: path key v l := by
  rw [path, if_pos h]

theorem path_node_of_gt (h : key a < v) : path key v (node a l r) = a :: path key v r := by
  rw [path, if_neg h.not_gt, if_pos h]

theorem path_node_of_eq (h : v = key a) : path key v (node a l r) = [a] := by
  rw [path, if_neg h.not_lt, if_neg h.not_gt]

/-- The descents for `v` and for the key of `x` go the same way at `a`. -/
def SameWay (key : α → κ) (v : κ) (x a : α) : Prop := key a ∉ Set.uIcc (key x) v

instance : DecidableRel (SameWay key v) := fun x a =>
  inferInstanceAs (Decidable (¬(key x ⊓ v ≤ key a ∧ key a ≤ key x ⊔ v)))

theorem sameWay_iff : SameWay key v x a ↔
    (key a < v ∧ key a < key x) ∨ (v < key a ∧ key x < key a) := by
  rw [SameWay, Set.mem_uIcc]
  grind

/-- A new leaf joins the descents that it is not separated from. -/
theorem path_insertLeaf (key : α → κ) (v : κ) (x : α) (t : BinaryTree α) :
    path key v (insertLeaf key x t) =
      path key v t ++ if ∀ a ∈ path key v t, SameWay key v x a then [x] else [] := by
  induction t with
  | nil => simp [insertLeaf, path]
  | node a l r ihl ihr =>
    simp only [insertLeaf]
    rcases lt_trichotomy v (key a) with hv | hv | hv
    · rw [path_node_of_lt hv]
      by_cases hx : key x < key a
      · have ha : SameWay key v x a := sameWay_iff.2 (.inr ⟨hv, hx⟩)
        rw [if_pos hx, path_node_of_lt hv, ihl]
        simp [ha]
      · have ha : ¬SameWay key v x a := fun h => by
          rcases sameWay_iff.1 h with h | h
          · exact absurd h.1 hv.not_gt
          · exact hx h.2
        rw [if_neg hx]
        split_ifs <;> simp_all [path_node_of_lt hv]
    · have ha : ¬SameWay key v x a := fun h => by
        rcases sameWay_iff.1 h with h | h
        · exact h.1.ne hv.symm
        · exact h.1.ne hv
      rw [path_node_of_eq hv]
      split_ifs <;> simp_all [path_node_of_eq]
    · rw [path_node_of_gt hv]
      by_cases hx : key a < key x
      · have ha : SameWay key v x a := sameWay_iff.2 (.inl ⟨hv, hx⟩)
        rw [if_neg hx.not_gt, if_pos hx, path_node_of_gt hv, ihr]
        simp [ha]
      · have ha : ¬SameWay key v x a := fun h => by
          rcases sameWay_iff.1 h with h | h
          · exact hx h.2
          · exact absurd h.1 hv.not_gt
        rw [if_neg hx]
        split_ifs <;> simp_all [path_node_of_gt hv]

/-! ## Histories of insertions -/

variable {ts : List α}

/-- The tree that the insertion of the elements of a list in turn grows. -/
def grow (key : α → κ) (ts : List α) : BinaryTree α := ts.foldl (fun t x => insertLeaf key x t) nil

theorem grow_concat (key : α → κ) (ts : List α) (x : α) :
    grow key (ts ++ [x]) = insertLeaf key x (grow key ts) := by
  simp [grow]

theorem path_grow_sublist (key : α → κ) (v : κ) (ts : List α) :
    (path key v (grow key ts)).Sublist ts := by
  induction ts using List.reverseRecOn with
  | nil => exact List.Sublist.slnil
  | append_singleton ts x ih =>
    rw [grow_concat, path_insertLeaf]
    refine ih.append ?_
    split_ifs
    · exact List.Sublist.refl _
    · exact List.nil_sublist _

/-- A separation of `y` from `v` at `a` is one of `x` from `v`, when `y` separates `x` from `v`. -/
theorem not_sameWay_trans (hxy : ¬SameWay key v x y) (hya : ¬SameWay key v y a) :
    ¬SameWay key v x a := by
  have h : Set.uIcc (key y) v ⊆ Set.uIcc (key x) v :=
    Set.uIcc_subset_uIcc (not_not.1 hxy) Set.right_mem_uIcc
  exact not_not.2 (h (not_not.1 hya))

theorem not_sameWay_self (x : α) : ¬SameWay key v x x := not_not.2 Set.left_mem_uIcc

/-- The descent for `v` meets a node between `v` and every key that was inserted. -/
theorem exists_mem_path_grow (hy : y ∈ ts) :
    ∃ a ∈ path key v (grow key ts), ¬SameWay key v y a := by
  induction ts using List.reverseRecOn with
  | nil => simp at hy
  | append_singleton ts x ih =>
    rw [grow_concat, path_insertLeaf]
    rcases List.mem_append.1 hy with hy | hy
    · obtain ⟨a, ha, hya⟩ := ih hy
      exact ⟨a, List.mem_append_left _ ha, hya⟩
    · obtain rfl := List.mem_singleton.1 hy
      by_cases h : ∀ a ∈ path key v (grow key ts), SameWay key v y a
      · rw [if_pos h]
        exact ⟨y, by simp, not_sameWay_self y⟩
      · push Not at h
        obtain ⟨a, ha, hya⟩ := h
        exact ⟨a, List.mem_append_left _ ha, hya⟩

theorem forall_path_grow_iff :
    (∀ a ∈ path key v (grow key ts), SameWay key v x a) ↔ ∀ y ∈ ts, SameWay key v x y := by
  constructor
  · intro h y hy
    by_contra hxy
    obtain ⟨a, ha, hya⟩ := exists_mem_path_grow (v := v) hy
    exact not_sameWay_trans hxy hya (h a ha)
  · exact fun h a ha => h a ((path_grow_sublist key v ts).subset ha)

/-- **The descent for `v` meets the elements that were inserted before every element between them
and `v`.** -/
theorem mem_path_grow (hts : ts.Nodup) {i : ℕ} (hi : ts[i]? = some x) :
    x ∈ path key v (grow key ts) ↔ ∀ y ∈ ts.take i, SameWay key v x y := by
  induction ts using List.reverseRecOn generalizing i with
  | nil => simp at hi
  | append_singleton ts z ih =>
    obtain ⟨hts, -, hz⟩ := List.nodup_append.1 hts
    rw [grow_concat, path_insertLeaf, List.mem_append]
    rcases Nat.lt_or_ge i ts.length with hlt | hge
    · -- an earlier element: the last insertion does not touch it
      rw [List.getElem?_append_left hlt] at hi
      have hxz : x ≠ z := hz x (List.mem_of_getElem? hi) z (by simp)
      rw [ih hts hi, List.take_append_of_le_length hlt.le]
      constructor
      · rintro (h | h)
        · exact h
        · split_ifs at h <;> simp_all
      · exact .inl
    · have hlen : i < (ts ++ [z]).length := (List.getElem?_eq_some_iff.1 hi).1
      obtain rfl : i = ts.length := by
        rw [List.length_append, List.length_singleton] at hlen
        omega
      obtain rfl : z = x := by simpa using hi
      have hmem : z ∉ path key v (grow key ts) := fun h =>
        hz z ((path_grow_sublist key v ts).subset h) z (by simp) rfl
      simp only [List.take_left, or_iff_right hmem, List.mem_ite_nil_right, List.mem_singleton,
        and_true, forall_path_grow_iff]

/-- Elements that never separate a later one from `v` are all met. -/
theorem path_grow_of_pairwise (h : ts.Pairwise fun y x => SameWay key v x y) :
    path key v (grow key ts) = ts := by
  induction ts using List.reverseRecOn with
  | nil => rfl
  | append_singleton ts x ih =>
    obtain ⟨hts, -, hx⟩ := List.pairwise_append.1 h
    have hx : ∀ a ∈ path key v (grow key ts), SameWay key v x a :=
      forall_path_grow_iff.2 fun y hy => hx y hy x (by simp)
    rw [grow_concat, path_insertLeaf, if_pos hx, ih hts]

/-- A descent that has found its key meets no element that is inserted later. -/
theorem path_grow_append (ha : a ∈ path key v (grow key ts)) (hv : key a = v) (us : List α) :
    path key v (grow key (ts ++ us)) = path key v (grow key ts) := by
  induction us using List.reverseRecOn with
  | nil => rw [List.append_nil]
  | append_singleton us x ih =>
    have hx : ¬∀ b ∈ path key v (grow key ts), SameWay key v x b := fun h =>
      h a ha (hv ▸ Set.right_mem_uIcc)
    rw [← List.append_assoc, grow_concat, path_insertLeaf, ih, if_neg hx, List.append_nil]

end Lkb.SearchTree
