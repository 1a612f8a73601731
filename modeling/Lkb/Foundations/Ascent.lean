import Lkb.Foundations.PointerTree
import Mathlib.Data.List.Basic
import Mathlib.Logic.Relation

/-!
# The in-order successor in a pointer heap

A heap with child pointers `kids` and parent pointers `up`. The node after `a` in the in-order list
is the first one of the right subtree of `a`, where `a` has one (`Spans.followedBy_right`).
Otherwise it is found by an ascent: up, as long as the parent pointer leads back over a right link
(`RightUp`), and then up once more (`Ascends`).

The parent pointers may be anything. `Spans.rel_of_rightUp` is what an ascent says about the order
of the nodes, whatever they are; `Spans.ascends` is that the ascent is right where every parent
pointer leads to the parent.
-/

namespace Lkb.PointerTree

open BinaryTree SearchTree

variable {α κ : Type*}

/-! ## The next element of a list -/

/-- In the list `l`, the element `a` is followed by `o`, or is the last one. -/
def FollowedBy (l : List α) (a : α) (o : Option α) : Prop :=
  ∃ l₁ l₂, l = l₁ ++ a :: l₂ ∧ o = l₂.head?

variable {l l₁ l₂ : List α} {a b : α} {o : Option α}

theorem FollowedBy.mem (h : FollowedBy l a o) : a ∈ l := by
  obtain ⟨l₁, l₂, rfl, -⟩ := h
  simp

theorem FollowedBy.of_cons (h : FollowedBy (b :: l) a o) :
    a = b ∧ o = l.head? ∨ FollowedBy l a o := by
  obtain ⟨l₁, l₂, hl, rfl⟩ := h
  cases l₁ with
  | nil =>
    cases hl
    exact .inl ⟨rfl, rfl⟩
  | cons c l₁ =>
    cases hl
    exact .inr ⟨l₁, l₂, rfl, rfl⟩

theorem FollowedBy.append_left (h : FollowedBy l a o) (l' : List α) :
    FollowedBy (l' ++ l) a o := by
  obtain ⟨l₁, l₂, rfl, ho⟩ := h
  exact ⟨l' ++ l₁, l₂, (List.append_assoc _ _ _).symm, ho⟩

theorem FollowedBy.append_right (h : FollowedBy l a o) (l' : List α) :
    FollowedBy (l ++ l') a (o.or l'.head?) := by
  obtain ⟨l₁, l₂, rfl, rfl⟩ := h
  refine ⟨l₁, l₂ ++ l', by simp, ?_⟩
  cases l₂ <;> simp

theorem FollowedBy.unique {o' : Option α} (hl : l.Nodup) (h : FollowedBy l a o)
    (h' : FollowedBy l a o') : o = o' := by
  obtain ⟨l₁, l₂, rfl, rfl⟩ := h
  obtain ⟨l₁', l₂', heq, rfl⟩ := h'
  obtain ⟨-, hal₂, hdis⟩ := List.nodup_append.1 hl
  have hl₁ : a ∉ l₁ := fun ha => hdis a ha a (by simp) rfl
  have hl₂ : a ∉ l₂ := (List.nodup_cons.1 hal₂).1
  rw [((List.append_cons_inj_of_notMem hl₁ hl₂).1 heq).2.2]

section Ordered

variable [LinearOrder κ] {key : α → κ} (hl : l.Pairwise fun a b => key a < key b)
include hl

/-- In increasing order, an element is followed by the next greater one. -/
theorem followedBy_some_iff :
    FollowedBy l a (some b) ↔
      a ∈ l ∧ b ∈ l ∧ key a < key b ∧ ∀ c ∈ l, key c ≤ key a ∨ key b ≤ key c := by
  constructor
  · rintro ⟨l₁, l₂, rfl, hb⟩
    obtain ⟨l₂, rfl⟩ : ∃ l, l₂ = b :: l := List.head?_eq_some_iff.1 hb.symm
    obtain ⟨-, hab, hl₁⟩ := List.pairwise_append.1 hl
    obtain ⟨ha, hbl⟩ := List.pairwise_cons.1 hab
    refine ⟨by simp, by simp, ha b (by simp), fun c hc => ?_⟩
    rcases List.mem_append.1 hc with hc | hc
    · exact .inl (hl₁ c hc a (by simp)).le
    · rcases List.mem_cons.1 hc with rfl | hc
      · exact .inl le_rfl
      · rcases List.mem_cons.1 hc with rfl | hc
        · exact .inr le_rfl
        · exact .inr ((List.pairwise_cons.1 hbl).1 c hc).le
  · rintro ⟨ha, hb, hab, hbetween⟩
    obtain ⟨l₁, l₂, rfl⟩ := List.append_of_mem ha
    obtain ⟨-, hal, hl₁⟩ := List.pairwise_append.1 hl
    obtain ⟨ha₂, hl₂⟩ := List.pairwise_cons.1 hal
    -- the greater element is further on, and nothing is before it there
    have hb₂ : b ∈ l₂ := by
      rcases List.mem_append.1 hb with hb | hb
      · exact absurd hab (hl₁ b hb a (by simp)).not_gt
      · rcases List.mem_cons.1 hb with rfl | hb
        · exact absurd hab (lt_irrefl _)
        · exact hb
    refine ⟨l₁, l₂, rfl, ?_⟩
    cases l₂ with
    | nil => cases hb₂
    | cons c l₂ =>
      rcases List.mem_cons.1 hb₂ with rfl | hb₂
      · rfl
      · have hcb := (List.pairwise_cons.1 hl₂).1 b hb₂
        rcases hbetween c (by simp) with hc | hc
        · exact absurd (ha₂ c (by simp)) hc.not_gt
        · exact absurd hcb hc.not_gt

/-- In increasing order, the last element is the greatest. -/
theorem followedBy_none_iff :
    FollowedBy l a none ↔ a ∈ l ∧ ∀ c ∈ l, key c ≤ key a := by
  constructor
  · rintro ⟨l₁, l₂, rfl, hnone⟩
    obtain rfl : l₂ = [] := List.head?_eq_none_iff.1 hnone.symm
    refine ⟨by simp, fun c hc => ?_⟩
    rcases List.mem_append.1 hc with hc | hc
    · exact ((List.pairwise_append.1 hl).2.2 c hc a (by simp)).le
    · rw [List.mem_singleton.1 hc]
  · rintro ⟨ha, hmax⟩
    obtain ⟨l₁, l₂, rfl⟩ := List.append_of_mem ha
    refine ⟨l₁, l₂, rfl, ?_⟩
    cases l₂ with
    | nil => rfl
    | cons c l₂ =>
      have hac := (List.pairwise_cons.1 (List.pairwise_append.1 hl).2.1).1 c (by simp)
      exact absurd hac (hmax c (by simp)).not_gt

end Ordered

/-! ## Ascents -/

variable {kids : Side → α → Option α} {up : α → Option α} {p : Option α} {t : BinaryTree α}
  {q q' : List Side} {x : α}

/-- The parent pointer of `x` leads to a node that has `x` on its right. -/
def RightUp (kids : Side → α → Option α) (up : α → Option α) (x p : α) : Prop :=
  up x = some p ∧ kids .right p = some x

/-- The parent pointers lead from `a` over right links to a node, and from there to `o`. -/
def Ascends (kids : Side → α → Option α) (up : α → Option α) (a : α) (o : Option α) : Prop :=
  ∃ x, Relation.ReflTransGen (RightUp kids up) a x ∧ up x = o

theorem follow_append (p : Option α) (q q' : List Side) :
    follow kids p (q ++ q') = follow kids (follow kids p q) q' := by
  induction q generalizing p with
  | nil => simp
  | cons d q ih =>
    cases p with
    | none => simp
    | some c => exact ih (kids d c)

theorem leftOf_append_right (q q' : List Side) : LeftOf q (q ++ .right :: q') := by
  induction q with
  | nil => rfl
  | cons d q ih => cases d <;> exact ih

/-- Over right links, the parent pointers only lead to nodes that have the first one below. -/
theorem exists_follow_of_rightUp (h : Relation.ReflTransGen (RightUp kids up) a x) :
    ∃ q, follow kids (some x) q = some a := by
  induction h with
  | refl => exact ⟨[], by simp⟩
  | tail _ hstep ih =>
    obtain ⟨q, hq⟩ := ih
    refine ⟨.right :: q, ?_⟩
    rw [follow_some, hstep.2, hq]

/-- A node that has the end of an ascent over right links on its right comes before its start. -/
theorem Spans.rel_of_rightUp {R : α → α → Prop} (h : Spans kids p t) (hR : (inorder t).Pairwise R)
    (hb : b ∈ inorder t) (hx : kids .right b = some x)
    (hax : Relation.ReflTransGen (RightUp kids up) a x) : R b a := by
  obtain ⟨q, hq⟩ := h.exists_follow hb
  obtain ⟨q', hq'⟩ := exists_follow_of_rightUp hax
  refine h.rel_of_leftOf hR (leftOf_append_right q q') hq ?_
  rw [follow_append, hq, follow_some, hx, hq']

theorem Spans.eq_some_of_mem (h : Spans kids p t) (ha : a ∈ inorder t) : ∃ x, p = some x := by
  cases t with
  | nil => simp at ha
  | node c l r => exact ⟨c, h.1⟩

theorem isSome_head?_inorder (h : Spans kids (some x) t) : (inorder t).head?.isSome := by
  cases t with
  | nil => cases h
  | node c l r => simp

/-- The node after one with a right child is the first one of its right subtree. -/
theorem Spans.followedBy_right (h : Spans kids p t) (ha : a ∈ inorder t)
    (hx : kids .right a = some x) :
    ∃ r, Spans kids (some x) r ∧ FollowedBy (inorder t) a (inorder r).head? := by
  induction t generalizing p with
  | nil => simp at ha
  | node c l r ihl ihr =>
    obtain ⟨rfl, hl, hr⟩ := h
    rw [inorder_node]
    rcases mem_inorder_node.1 ha with ha | rfl | ha
    · obtain ⟨r', hr', hnext⟩ := ihl hl ha
      refine ⟨r', hr', ?_⟩
      have happ := hnext.append_right (c :: inorder r)
      rwa [Option.or_of_isSome (isSome_head?_inorder hr')] at happ
    · rw [hx] at hr
      exact ⟨r, hr, inorder l, inorder r, rfl, rfl⟩
    · obtain ⟨r', hr', hnext⟩ := ihr hr ha
      refine ⟨r', hr', ?_⟩
      exact (hnext.append_left [c]).append_left (inorder l)

/-- **The ascent finds the next node**, where every parent pointer of the tree leads to the
parent: from a node without a right child it leads to the node that follows, and from the last
node it leads over right links to the root. -/
theorem Spans.ascends (h : Spans kids p t)
    (hup : ∀ c ∈ inorder t, ∀ d x, kids d c = some x → up x = some c) (ha : a ∈ inorder t)
    (hright : kids .right a = none) :
    (∃ b, FollowedBy (inorder t) a (some b) ∧ Ascends kids up a (some b)) ∨
      FollowedBy (inorder t) a none ∧ ∀ c ∈ p, Relation.ReflTransGen (RightUp kids up) a c := by
  induction t generalizing p with
  | nil => simp at ha
  | node c l r ihl ihr =>
    obtain ⟨rfl, hl, hr⟩ := h
    have hupl : ∀ c ∈ inorder l, ∀ d x, kids d c = some x → up x = some c :=
      fun e he => hup e (mem_inorder_node.2 (.inl he))
    have hupr : ∀ c ∈ inorder r, ∀ d x, kids d c = some x → up x = some c :=
      fun e he => hup e (mem_inorder_node.2 (.inr (.inr he)))
    rw [inorder_node]
    rcases mem_inorder_node.1 ha with ha | rfl | ha
    · obtain ⟨b, hnext, hasc⟩ | ⟨hlast, hroot⟩ := ihl hl hupl ha
      · exact .inl ⟨b, hnext.append_right (c :: inorder r), hasc⟩
      · -- the last node on the left is followed by the root
        obtain ⟨x, hx⟩ := hl.eq_some_of_mem ha
        have hupx := hup c (by simp) .left x hx
        exact .inl ⟨c, hlast.append_right (c :: inorder r), x, hroot x hx, hupx⟩
    · refine .inr ⟨⟨inorder l, inorder r, rfl, ?_⟩, ?_⟩
      · cases r with
        | nil => rfl
        | node c' l' r' => exact absurd (hright.symm.trans hr.1) (by simp)
      · rintro c ⟨⟩
        exact .refl
    · obtain ⟨b, hnext, hasc⟩ | ⟨hlast, hroot⟩ := ihr hr hupr ha
      · exact .inl ⟨b, (hnext.append_left [c]).append_left (inorder l), hasc⟩
      · refine .inr ⟨(hlast.append_left [c]).append_left (inorder l), ?_⟩
        rintro c ⟨⟩
        obtain ⟨x, hx⟩ := hr.eq_some_of_mem ha
        exact (hroot x hx).tail ⟨hup c (by simp) .right x hx, hx⟩

end Lkb.PointerTree
