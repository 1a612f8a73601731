import Lkb.Foundations.SearchTree
import Mathlib.Tactic.Common

/-!
# Search trees in a pointer heap

A heap gives every node a left and a right child pointer, `kids : Side → α → Option α`, with `none`
for a null pointer. `follow kids p q` is the node that the path `q` leads to from the pointer `p`,
and `Spans kids p t` says that the pointers below `p` have the shape of the tree `t`.

* What a heap that spans a tree has of it: its reachable nodes (`exists_follow_iff`), the order of
  its paths (`Spans.rel_of_leftOf`), and one path to each node (`Spans.follow_inj`).
* `link kids a d x` sets one child pointer. Where that pointer was null, no path to a node changes
  (`follow_link`); where it is the slot at which the descent for the key of `x` leaves the tree,
  the heap spans the tree with `x` inserted (`Spans.link`).
-/

namespace Lkb.PointerTree

open BinaryTree SearchTree

variable {α κ : Type*}

/-- The two child pointers of a node. -/
inductive Side
  | left
  | right
  deriving DecidableEq

/-- The node that a path of child pointers leads to. -/
def follow (kids : Side → α → Option α) : Option α → List Side → Option α
  | p, [] => p
  | none, _ :: _ => none
  | some a, d :: q => follow kids (kids d a) q

/-- The path `q` leads to the left of where the path `q'` leads, in the in-order of nodes. -/
def LeftOf : List Side → List Side → Prop
  | [], [] => False
  | [], d :: _ => d = .right
  | d :: _, [] => d = .left
  | .left :: _, .right :: _ => True
  | .right :: _, .left :: _ => False
  | .left :: q, .left :: q' => LeftOf q q'
  | .right :: q, .right :: q' => LeftOf q q'

/-- The pointers below `p` have the shape of the tree. -/
def Spans (kids : Side → α → Option α) : Option α → BinaryTree α → Prop
  | p, nil => p = none
  | p, node a l r => p = some a ∧ Spans kids (kids .left a) l ∧ Spans kids (kids .right a) r

variable {kids : Side → α → Option α} {p : Option α} {t : BinaryTree α} {q q' : List Side} {a b : α}

@[simp] theorem follow_none (q : List Side) : follow kids none q = none := by
  cases q <;> rfl

@[simp] theorem follow_nil (p : Option α) : follow kids p [] = p := by
  cases p <;> rfl

@[simp] theorem follow_some (d : Side) (a : α) (q : List Side) :
    follow kids (some a) (d :: q) = follow kids (kids d a) q := rfl

theorem leftOf_trichotomy (q q' : List Side) : LeftOf q q' ∨ q = q' ∨ LeftOf q' q := by
  induction q generalizing q' with
  | nil => rcases q' with _ | ⟨_ | _, q'⟩ <;> simp [LeftOf]
  | cons d q ih =>
    rcases q' with _ | ⟨d', q'⟩
    · cases d <;> simp [LeftOf]
    · cases d <;> cases d' <;> simp [LeftOf, ih q']

/-- The path that leads to a node, where a heap spans a tree. -/
theorem Spans.mem_of_follow (h : Spans kids p t) (hq : follow kids p q = some a) :
    a ∈ inorder t := by
  induction t generalizing p q with
  | nil =>
    obtain rfl : p = none := h
    simp at hq
  | node c l r ihl ihr =>
    obtain ⟨rfl, hl, hr⟩ := h
    rw [mem_inorder_node]
    rcases q with _ | ⟨_ | _, q⟩
    · exact .inr (.inl (by simpa using hq.symm))
    · exact .inl (ihl hl hq)
    · exact .inr (.inr (ihr hr hq))

theorem Spans.exists_follow (h : Spans kids p t) (ha : a ∈ inorder t) :
    ∃ q, follow kids p q = some a := by
  induction t generalizing p with
  | nil => simp at ha
  | node c l r ihl ihr =>
    obtain ⟨rfl, hl, hr⟩ := h
    rcases mem_inorder_node.1 ha with ha | rfl | ha
    · obtain ⟨q, hq⟩ := ihl hl ha
      exact ⟨.left :: q, hq⟩
    · exact ⟨[], by simp⟩
    · obtain ⟨q, hq⟩ := ihr hr ha
      exact ⟨.right :: q, hq⟩

/-- The nodes that a path leads to are the elements of the tree. -/
theorem Spans.exists_follow_iff (h : Spans kids p t) :
    (∃ q, follow kids p q = some a) ↔ a ∈ inorder t :=
  ⟨fun ⟨_, hq⟩ => h.mem_of_follow hq, h.exists_follow⟩

/-- A relation that the in-order list respects holds between any two nodes on paths in order. -/
theorem Spans.rel_of_leftOf {R : α → α → Prop} (h : Spans kids p t) (hR : (inorder t).Pairwise R)
    (hqq : LeftOf q q') (hq : follow kids p q = some a) (hq' : follow kids p q' = some b) :
    R a b := by
  induction t generalizing p q q' with
  | nil =>
    obtain rfl : p = none := h
    simp at hq
  | node c l r ihl ihr =>
    obtain ⟨rfl, hl, hr⟩ := h
    rw [inorder_node, List.pairwise_append, List.pairwise_cons] at hR
    obtain ⟨hRl, ⟨hRc, hRr⟩, hRlr⟩ := hR
    rcases q with _ | ⟨_ | _, q⟩ <;> rcases q' with _ | ⟨_ | _, q'⟩ <;>
      simp only [LeftOf, reduceCtorEq, follow_nil, follow_some, Option.some.injEq] at hqq hq hq'
    · exact hq ▸ hRc b (hr.mem_of_follow hq')
    · exact hRlr a (hl.mem_of_follow hq) b (by simp [hq'])
    · exact ihl hl hRl hqq hq hq'
    · exact hRlr a (hl.mem_of_follow hq) b (List.mem_cons_of_mem _ (hr.mem_of_follow hq'))
    · exact ihr hr hRr hqq hq hq'

/-- **One path to each node**: a heap that spans a tree without repetition has neither sharing nor
a cycle. -/
theorem Spans.follow_inj (h : Spans kids p t) (hn : (inorder t).Nodup)
    (hq : follow kids p q = some a) (hq' : follow kids p q' = some a) : q = q' := by
  rcases leftOf_trichotomy q q' with hlt | heq | hgt
  · exact absurd rfl (h.rel_of_leftOf hn hlt hq hq')
  · exact heq
  · exact absurd rfl (h.rel_of_leftOf hn hgt hq' hq)

/-- The shape depends only on the pointers of the tree's own nodes. -/
theorem Spans.congr {kids' : Side → α → Option α} (h : Spans kids p t)
    (hk : ∀ a ∈ inorder t, ∀ d, kids' d a = kids d a) : Spans kids' p t := by
  induction t generalizing p with
  | nil => exact h
  | node c l r ihl ihr =>
    obtain ⟨rfl, hl, hr⟩ := h
    have hc := hk c (by simp)
    refine ⟨rfl, ?_, ?_⟩
    · rw [hc]
      exact ihl hl fun a ha => hk a (mem_inorder_node.2 (.inl ha))
    · rw [hc]
      exact ihr hr fun a ha => hk a (mem_inorder_node.2 (.inr (.inr ha)))

/-! ## Setting a child pointer -/

variable [DecidableEq α]

/-- Set the child pointer on side `d` of the node `a` to `x`. -/
def link (kids : Side → α → Option α) (a : α) (d : Side) (x : α) : Side → α → Option α :=
  fun d' a' => if a' = a ∧ d' = d then some x else kids d' a'

variable {d : Side} {x : α}

@[simp] theorem link_self : link kids a d x d a = some x := if_pos ⟨rfl, rfl⟩

theorem link_of_ne {d' : Side} {a' : α} (h : a' ≠ a) : link kids a d x d' a' = kids d' a' :=
  if_neg fun e => h e.1

theorem link_of_side_ne {d' : Side} (h : d' ≠ d) : link kids a d x d' a = kids d' a :=
  if_neg fun e => h e.2

/-- **A null pointer that is set changes no path to a node.** -/
theorem follow_link (hd : kids d a = none) (hq : follow kids p q = some b) :
    follow (link kids a d x) p q = some b := by
  induction q generalizing p with
  | nil => simpa using hq
  | cons e q ih =>
    rcases p with _ | c
    · simp at hq
    · rw [follow_some] at hq ⊢
      have hne : ¬(c = a ∧ e = d) := by
        rintro ⟨rfl, rfl⟩
        simp [hd] at hq
      rw [link, if_neg hne]
      exact ih hq

theorem Spans.link_of_not_mem (h : Spans kids p t) (ha : a ∉ inorder t) :
    Spans (link kids a d x) p t :=
  h.congr fun _ hc _ => link_of_ne fun e => ha (e ▸ hc)

/-- Linking below one subtree of the root `c` leaves the root as it is. -/
theorem Spans.node_link {c : α} {l r : BinaryTree α} (hca : c ≠ a)
    (hl : Spans (link kids a d x) (kids .left c) l)
    (hr : Spans (link kids a d x) (kids .right c) r) :
    Spans (link kids a d x) (some c) (node c l r) := by
  refine ⟨rfl, ?_, ?_⟩
  · rwa [link_of_ne hca]
  · rwa [link_of_ne hca]

/-- The fresh node `x` is a leaf below the node `a`. -/
theorem spans_leaf (hxa : x ≠ a) (hkids : ∀ d, kids d x = none) :
    Spans (link kids a d x) (link kids a d x d a) (node x nil nil) :=
  ⟨link_self, (link_of_ne hxa).trans (hkids _), (link_of_ne hxa).trans (hkids _)⟩

variable [LinearOrder κ] {key : α → κ}

/-- The side of the node `a` on which the key of `x` belongs. -/
def sideOf (key : α → κ) (a x : α) : Side := if key x < key a then .left else .right

/-- **Linking a new leaf.** Where the descent for the key of the fresh node `x` finds nothing, its
last node has a null pointer on the side of `x`, and setting it inserts `x` into the tree. -/
theorem Spans.link (h : Spans kids p t) (hn : (inorder t).Nodup) (ht : t ≠ nil)
    (hx : x ∉ inorder t) (hkids : ∀ d, kids d x = none) (hnone : lookup key (key x) t = none)
    (u : Option α) :
    ∃ a ∈ inorder t, lastVisited key (key x) t u = some a ∧ kids (sideOf key a x) a = none ∧
      Spans (link kids a (sideOf key a x) x) p (insertLeaf key x t) := by
  induction t generalizing p u with
  | nil => exact absurd rfl ht
  | node c l r ihl ihr =>
    obtain ⟨rfl, hl, hr⟩ := h
    rw [inorder_node, List.nodup_append] at hn
    obtain ⟨hnl, hncr, hdis⟩ := hn
    obtain ⟨hcr, hnr⟩ := List.nodup_cons.1 hncr
    have hcl : c ∉ inorder l := fun hc => hdis c hc c (by simp) rfl
    have hlr : ∀ b ∈ inorder l, b ∉ inorder r := fun b hb hb' =>
      hdis b hb b (List.mem_cons_of_mem _ hb') rfl
    simp only [mem_inorder_node, not_or] at hx
    obtain ⟨hxl, hxc, hxr⟩ := hx
    rcases lt_trichotomy (key x) (key c) with hlt | heq | hgt
    · rw [lookup_node_of_lt hlt] at hnone
      simp only [lastVisited, insertLeaf, if_pos hlt]
      rcases hl' : l with _ | ⟨e, l₁, r₁⟩
      · -- the descent ends at `c`, and the leaf goes to its left
        have hside : sideOf key c x = .left := if_pos hlt
        rw [hl'] at hl
        refine ⟨c, by simp, rfl, by rw [hside]; exact hl, ?_⟩
        rw [hside]
        refine ⟨rfl, spans_leaf hxc hkids, ?_⟩
        rw [link_of_side_ne (by simp)]
        exact hr.link_of_not_mem hcr
      · rw [← hl']
        obtain ⟨a, ha, hlast, hnull, hspan⟩ :=
          ihl hl hnl (by rw [hl']; simp) hxl hnone (some c)
        have hca : c ≠ a := fun e => hcl (e ▸ ha)
        exact ⟨a, mem_inorder_node.2 (.inl ha), hlast, hnull,
          Spans.node_link hca hspan (hr.link_of_not_mem (hlr a ha))⟩
    · rw [lookup_node_of_eq heq] at hnone
      cases hnone
    · rw [lookup_node_of_gt hgt] at hnone
      simp only [lastVisited, insertLeaf, if_neg hgt.not_gt, if_pos hgt]
      rcases hr' : r with _ | ⟨e, l₁, r₁⟩
      · -- the descent ends at `c`, and the leaf goes to its right
        have hside : sideOf key c x = .right := if_neg hgt.not_gt
        rw [hr'] at hr
        refine ⟨c, by simp, rfl, by rw [hside]; exact hr, ?_⟩
        rw [hside]
        refine ⟨rfl, ?_, spans_leaf hxc hkids⟩
        rw [link_of_side_ne (by simp)]
        exact hl.link_of_not_mem hcl
      · rw [← hr']
        obtain ⟨a, ha, hlast, hnull, hspan⟩ :=
          ihr hr hnr (by rw [hr']; simp) hxr hnone (some c)
        have hca : c ≠ a := fun e => hcr (e ▸ ha)
        exact ⟨a, mem_inorder_node.2 (.inr (.inr ha)), hlast, hnull,
          Spans.node_link hca (hl.link_of_not_mem fun h => hlr a h ha) hspan⟩

end Lkb.PointerTree
