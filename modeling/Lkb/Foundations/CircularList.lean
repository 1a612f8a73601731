import Mathlib.Data.List.Basic
import Mathlib.Logic.Function.Basic
import Mathlib.Logic.Relation
import Mathlib.Tactic.Common

/-!
# Circular doubly linked lists

The lists of `linux/list.h` and `linux/rculist.h` at the level of their pointers: memory is a `next`
and a `prev` link for every list head, and the operations are the writes of the kernel's inline
functions, in their order. A link that was poisoned is not an address, and an operation that would
dereference one has no result.

`IsRing m h l` says that from the head `h` the links run through the nodes `l` and back to `h`, in
both directions, without repetition. Each operation has one lemma that says which ring it leaves,
and, for the `_rcu` variants, which link the removed node keeps.
-/

namespace Lkb.CircularList

variable {α : Type*}

/-- The value of a link: an address, or `LIST_POISON1` or `LIST_POISON2`. -/
inductive Link (α : Type*)
  | node (a : α)
  | poison1
  | poison2
  deriving DecidableEq

/-- The link fields of all list heads. -/
structure Links (α : Type*) where
  next : α → Link α
  prev : α → Link α

/-- From `a`, the links run through `l` to `b`, and back. -/
def Linked (m : Links α) : α → List α → α → Prop
  | a, [], b => m.next a = .node b ∧ m.prev b = .node a
  | a, x :: l, b => m.next a = .node x ∧ m.prev x = .node a ∧ Linked m x l b

/-- The circular list at the head `h` has the nodes `l`, in the order of the `next` links. -/
structure IsRing (m : Links α) (h : α) (l : List α) : Prop where
  nodup : (h :: l).Nodup
  linked : Linked m h l h

/-- The `next` links lead from `a` to `b`. -/
def Reaches (m : Links α) : α → α → Prop :=
  Relation.ReflTransGen fun x y => m.next x = .node y

/-! ## Segments -/

section Segments

variable {m m' : Links α} {a b x y : α} {l l₁ l₂ : List α}

theorem linked_append :
    Linked m a (l₁ ++ x :: l₂) b ↔ Linked m a l₁ x ∧ Linked m x l₂ b := by
  induction l₁ generalizing a with
  | nil => simp [Linked, and_assoc]
  | cons c l₁ ih => simp [Linked, ih, and_assoc]

theorem Linked.next_eq (h : Linked m a l b) : m.next a = .node (l.headD b) := by
  cases l with
  | nil => exact h.1
  | cons c l => exact h.1

theorem Linked.prev_eq (h : Linked m a l b) : m.prev b = .node (l.getLastD a) := by
  induction l generalizing a with
  | nil => exact h.2
  | cons c l ih =>
    rw [ih h.2.2, List.getLastD_cons]

/-- A segment depends on the `next` links of all its heads but the last, and on the `prev` links of
all but the first. -/
theorem Linked.congr (h : Linked m a l b) (hn : ∀ z ∈ a :: l, m'.next z = m.next z)
    (hp : ∀ z ∈ b :: l, m'.prev z = m.prev z) : Linked m' a l b := by
  induction l generalizing a with
  | nil => exact ⟨(hn a (by simp)).trans h.1, (hp b (by simp)).trans h.2⟩
  | cons c l ih =>
    obtain ⟨h₁, h₂, h₃⟩ := h
    refine ⟨(hn a (by simp)).trans h₁, (hp c (by simp)).trans h₂, ih h₃ ?_ ?_⟩
    · exact fun z hz => hn z (List.mem_cons_of_mem a hz)
    · intro z hz
      obtain rfl | hz := List.mem_cons.1 hz
      · exact hp z (by simp)
      · exact hp z (by simp [hz])

/-- A segment whose first node is relinked to start from `y`. -/
theorem Linked.setFirst (h : Linked m a l b) (hnd : (b :: l).Nodup)
    (hny : m'.next y = .node (l.headD b)) (hpy : m'.prev (l.headD b) = .node y)
    (hn : ∀ z ∈ l, m'.next z = m.next z)
    (hp : ∀ z ∈ b :: l, z ≠ l.headD b → m'.prev z = m.prev z) : Linked m' y l b := by
  cases l with
  | nil => exact ⟨hny, hpy⟩
  | cons c l =>
    obtain ⟨-, -, h₃⟩ := h
    obtain ⟨hb, hnd⟩ := List.nodup_cons.1 hnd
    refine ⟨hny, hpy, h₃.congr hn ?_⟩
    intro z hz
    refine hp z ?_ ?_
    · obtain rfl | hz := List.mem_cons.1 hz
      · simp
      · simp [hz]
    · rintro rfl
      obtain hzb | hz := List.mem_cons.1 hz
      · exact hb (by simp [← hzb])
      · exact (List.nodup_cons.1 hnd).1 hz

/-- A segment whose last node is relinked to end at `y`. -/
theorem Linked.setLast (h : Linked m a l b) (hnd : (a :: l).Nodup)
    (hny : m'.next (l.getLastD a) = .node y) (hpy : m'.prev y = .node (l.getLastD a))
    (hn : ∀ z ∈ a :: l, z ≠ l.getLastD a → m'.next z = m.next z)
    (hp : ∀ z ∈ l, m'.prev z = m.prev z) : Linked m' a l y := by
  induction l generalizing a with
  | nil => exact ⟨hny, hpy⟩
  | cons c l ih =>
    obtain ⟨h₁, h₂, h₃⟩ := h
    obtain ⟨ha, hnd⟩ := List.nodup_cons.1 hnd
    rw [List.getLastD_cons] at hny hpy hn
    have hlast : l.getLastD c ∈ c :: l := List.getLastD_mem_cons
    refine ⟨(hn a (by simp) fun e => ha (e ▸ hlast)).trans h₁, (hp c (by simp)).trans h₂, ?_⟩
    exact ih h₃ hnd hny hpy (fun z hz => hn z (List.mem_cons_of_mem a hz))
      fun z hz => hp z (List.mem_cons_of_mem c hz)

theorem headD_mem_cons (l : List α) (b : α) : l.headD b ∈ b :: l := by
  cases l with
  | nil => simp
  | cons c l => simp

theorem Linked.reaches (h : Linked m a l b) (hx : x ∈ l) : Reaches m a x := by
  induction l generalizing a with
  | nil => cases hx
  | cons c l ih =>
    obtain ⟨hnext, -, h⟩ := h
    obtain rfl | hx := List.mem_cons.1 hx
    · exact .single hnext
    · exact .head hnext (ih h hx)

end Segments

/-! ## Rings -/

namespace IsRing

variable {m m' : Links α} {h x y : α} {l l₁ l₂ : List α}

theorem next_head (hr : IsRing m h l) : m.next h = .node (l.headD h) := hr.linked.next_eq

theorem next_eq (hr : IsRing m h (l₁ ++ x :: l₂)) : m.next x = .node (l₂.headD h) :=
  (linked_append.1 hr.linked).2.next_eq

theorem prev_eq (hr : IsRing m h (l₁ ++ x :: l₂)) : m.prev x = .node (l₁.getLastD h) :=
  (linked_append.1 hr.linked).1.prev_eq

/-- From the head, the links lead to the heads of the ring. -/
theorem reaches_iff (hr : IsRing m h l) : Reaches m h x ↔ x ∈ h :: l := by
  constructor
  · intro hx
    induction hx with
    | refl => exact List.mem_cons_self
    | @tail y z _ hnext ih =>
      obtain rfl | hy := List.mem_cons.1 ih
      · rw [Link.node.inj (hnext.symm.trans hr.next_head)]
        exact headD_mem_cons l y
      · obtain ⟨l₁, l₂, rfl⟩ := List.append_of_mem hy
        rw [Link.node.inj (hnext.symm.trans hr.next_eq)]
        obtain hz | hz := List.mem_cons.1 (headD_mem_cons l₂ h)
        · rw [hz]
          exact List.mem_cons_self
        · exact List.mem_cons_of_mem h (List.mem_append_right l₁ (List.mem_cons_of_mem y hz))
  · intro hx
    obtain rfl | hx := List.mem_cons.1 hx
    · exact .refl
    · exact hr.linked.reaches hx

/-- The links determine the list. -/
theorem unique {l' : List α} (hr : IsRing m h l) (hr' : IsRing m h l') : l = l' := by
  have hlinked : ∀ a, Linked m a l h → Linked m a l' h → h ∉ l → h ∉ l' → l = l' := by
    clear hr hr'
    induction l generalizing l' with
    | nil =>
      intro a hl hl' _ hh'
      cases l' with
      | nil => rfl
      | cons x l' =>
        obtain rfl : h = x := Link.node.inj (hl.1.symm.trans hl'.1)
        exact absurd List.mem_cons_self hh'
    | cons x l ih =>
      intro a hl hl' hh hh'
      cases l' with
      | nil =>
        obtain rfl : x = h := Link.node.inj (hl.1.symm.trans hl'.1)
        exact absurd List.mem_cons_self hh
      | cons y l' =>
        obtain rfl : x = y := Link.node.inj (hl.1.symm.trans hl'.1)
        rw [ih x hl.2.2 hl'.2.2 (fun hm => hh (List.mem_cons_of_mem x hm))
          (fun hm => hh' (List.mem_cons_of_mem x hm))]
  have hl : h ∉ l := (List.nodup_cons.1 hr.nodup).1
  have hl' : h ∉ l' := (List.nodup_cons.1 hr'.nodup).1
  exact hlinked h hr.linked hr'.linked hl hl'

/-- A new node `x`, linked in after the head. -/
theorem cons (hr : IsRing m h l) (hx : x ∉ h :: l)
    (hnh : m'.next h = .node x) (hpx : m'.prev x = .node h)
    (hnx : m'.next x = .node (l.headD h)) (hpf : m'.prev (l.headD h) = .node x)
    (hn : ∀ z, z ≠ h → z ≠ x → m'.next z = m.next z)
    (hp : ∀ z, z ≠ l.headD h → z ≠ x → m'.prev z = m.prev z) : IsRing m' h (x :: l) := by
  obtain ⟨hhl, -⟩ := List.nodup_cons.1 hr.nodup
  have hne : ∀ z ∈ h :: l, z ≠ x := fun z hz e => hx (e ▸ hz)
  refine ⟨?_, hnh, hpx, hr.linked.setFirst hr.nodup hnx hpf ?_ ?_⟩
  · have hxh : h ≠ x := hne h (by simp)
    have hnd := hr.nodup
    simp only [List.nodup_cons, List.mem_cons, not_or] at hnd hx ⊢
    exact ⟨⟨hxh, hnd.1⟩, hx.2, hnd.2⟩
  · exact fun z hz => hn z (fun e => hhl (e ▸ hz)) (hne z (List.mem_cons_of_mem h hz))
  · exact fun z hz hzf => hp z hzf (hne z hz)

/-- A new node `x`, linked in before the head. -/
theorem concat (hr : IsRing m h l) (hx : x ∉ h :: l)
    (hnl : m'.next (l.getLastD h) = .node x) (hpx : m'.prev x = .node (l.getLastD h))
    (hnx : m'.next x = .node h) (hph : m'.prev h = .node x)
    (hn : ∀ z, z ≠ l.getLastD h → z ≠ x → m'.next z = m.next z)
    (hp : ∀ z, z ≠ h → z ≠ x → m'.prev z = m.prev z) : IsRing m' h (l ++ [x]) := by
  obtain ⟨hhl, -⟩ := List.nodup_cons.1 hr.nodup
  have hne : ∀ z ∈ h :: l, z ≠ x := fun z hz e => hx (e ▸ hz)
  refine ⟨?_, linked_append.2 ⟨hr.linked.setLast hr.nodup hnl hpx ?_ ?_, hnx, hph⟩⟩
  · rw [← List.cons_append, List.nodup_append]
    refine ⟨hr.nodup, by simp, fun z hz w hw => ?_⟩
    obtain rfl := List.mem_singleton.1 hw
    exact hne z hz
  · exact fun z hz hzl => hn z hzl (hne z hz)
  · exact fun z hz => hp z (fun e => hhl (e ▸ hz)) (hne z (List.mem_cons_of_mem h hz))

theorem prev_head (hr : IsRing m h l) : m.prev h = .node (l.getLastD h) := hr.linked.prev_eq

/-- What the distinctness of the heads of a ring says around one of its nodes. -/
structure Around (h : α) (l₁ : List α) (x : α) (l₂ : List α) : Prop where
  nodup_before : (h :: l₁).Nodup
  nodup_after : (h :: l₂).Nodup
  before_ne : ∀ z ∈ h :: l₁, z ≠ x
  after_ne : ∀ z ∈ l₂, z ≠ x
  before_ne_after : ∀ z ∈ h :: l₁, ∀ w ∈ l₂, z ≠ w

theorem around (hr : IsRing m h (l₁ ++ x :: l₂)) : Around h l₁ x l₂ := by
  have hnd := hr.nodup
  rw [← List.cons_append, List.nodup_append] at hnd
  obtain ⟨hnd₁, hnd₂, hdis⟩ := hnd
  obtain ⟨hx₂, hnd₂⟩ := List.nodup_cons.1 hnd₂
  have hdis' : ∀ z ∈ h :: l₁, ∀ w ∈ l₂, z ≠ w := fun z hz w hw =>
    hdis z hz w (List.mem_cons_of_mem x hw)
  exact ⟨hnd₁, List.nodup_cons.2 ⟨fun hh => hdis' h (by simp) h hh rfl, hnd₂⟩,
    fun z hz => hdis z hz x (by simp), fun z hz e => hx₂ (e ▸ hz), hdis'⟩

namespace Around

variable (ha : Around h l₁ x l₂)
include ha

theorem before_ne_next {z : α} (hz : z ∈ l₁) : z ≠ l₂.headD h := by
  intro e
  obtain hh | hm := List.mem_cons.1 (e ▸ headD_mem_cons l₂ h)
  · exact (List.nodup_cons.1 ha.nodup_before).1 (hh ▸ hz)
  · exact ha.before_ne_after z (List.mem_cons_of_mem h hz) z hm rfl

theorem after_ne_prev {z : α} (hz : z ∈ l₂) : z ≠ l₁.getLastD h :=
  fun e => ha.before_ne_after _ List.getLastD_mem_cons z hz e.symm

theorem nodup : (h :: (l₁ ++ l₂)).Nodup := by
  rw [← List.cons_append, List.nodup_append]
  exact ⟨ha.nodup_before, (List.nodup_cons.1 ha.nodup_after).2, ha.before_ne_after⟩

end Around

theorem prev_ne (hr : IsRing m h (l₁ ++ x :: l₂)) : l₁.getLastD h ≠ x :=
  hr.around.before_ne _ List.getLastD_mem_cons

theorem next_ne (hr : IsRing m h (l₁ ++ x :: l₂)) : l₂.headD h ≠ x := by
  intro e
  obtain hh | hm := List.mem_cons.1 (headD_mem_cons l₂ h)
  · exact hr.around.before_ne h (by simp) (hh.symm.trans e)
  · exact hr.around.after_ne _ hm e

/-- The node `x` of a ring, unlinked; its own links do not matter. -/
theorem remove (hr : IsRing m h (l₁ ++ x :: l₂))
    (hnp : m'.next (l₁.getLastD h) = .node (l₂.headD h))
    (hpn : m'.prev (l₂.headD h) = .node (l₁.getLastD h))
    (hn : ∀ z, z ≠ l₁.getLastD h → z ≠ x → m'.next z = m.next z)
    (hp : ∀ z, z ≠ l₂.headD h → z ≠ x → m'.prev z = m.prev z) : IsRing m' h (l₁ ++ l₂) := by
  have ha := hr.around
  obtain ⟨hl₁, hl₂⟩ := linked_append.1 hr.linked
  have hseg : Linked m' h l₁ (l₂.headD h) :=
    hl₁.setLast ha.nodup_before hnp hpn (fun z hz hzl => hn z hzl (ha.before_ne z hz)) fun z hz =>
      hp z (ha.before_ne_next hz) (ha.before_ne z (List.mem_cons_of_mem h hz))
  refine ⟨ha.nodup, ?_⟩
  cases l₂ with
  | nil => simpa using hseg
  | cons c l₂ =>
    obtain ⟨-, hc⟩ := List.nodup_cons.1 ha.nodup_after
    refine linked_append.2 ⟨hseg, hl₂.2.2.congr (fun z hz => ?_) fun z hz => ?_⟩
    · exact hn z (ha.after_ne_prev hz) (ha.after_ne z hz)
    · obtain rfl | hz := List.mem_cons.1 hz
      · exact hp z (ha.before_ne_after z (by simp) c (by simp)) (ha.before_ne z (by simp))
      · refine hp z (fun e => (List.nodup_cons.1 hc).1 ?_) (ha.after_ne z (by simp [hz]))
        rw [List.headD_cons] at e
        exact e ▸ hz

/-- The node `x` of a ring, replaced by the new node `y`. -/
theorem replace (hr : IsRing m h (l₁ ++ x :: l₂)) (hy : y ∉ h :: (l₁ ++ l₂))
    (hnp : m'.next (l₁.getLastD h) = .node y) (hpy : m'.prev y = .node (l₁.getLastD h))
    (hny : m'.next y = .node (l₂.headD h)) (hpn : m'.prev (l₂.headD h) = .node y)
    (hn : ∀ z, z ≠ l₁.getLastD h → z ≠ x → z ≠ y → m'.next z = m.next z)
    (hp : ∀ z, z ≠ l₂.headD h → z ≠ x → z ≠ y → m'.prev z = m.prev z) :
    IsRing m' h (l₁ ++ y :: l₂) := by
  have ha := hr.around
  obtain ⟨hl₁, hl₂⟩ := linked_append.1 hr.linked
  simp only [List.mem_cons, List.mem_append, not_or] at hy
  obtain ⟨hyh, hy₁, hy₂⟩ := hy
  have hne₁ : ∀ z ∈ h :: l₁, z ≠ y := by
    rintro z hz rfl
    exact (List.mem_cons.1 hz).elim hyh hy₁
  have hne₂ : ∀ z ∈ l₂, z ≠ y := fun z hz e => hy₂ (e ▸ hz)
  refine ⟨?_, linked_append.2 ⟨?_, ?_⟩⟩
  · rw [← List.cons_append, List.nodup_append]
    refine ⟨ha.nodup_before, List.nodup_cons.2 ⟨hy₂, (List.nodup_cons.1 ha.nodup_after).2⟩, ?_⟩
    intro z hz w hw
    obtain rfl | hw := List.mem_cons.1 hw
    · exact hne₁ z hz
    · exact ha.before_ne_after z hz w hw
  · refine hl₁.setLast ha.nodup_before hnp hpy (fun z hz hzl => ?_) fun z hz => ?_
    · exact hn z hzl (ha.before_ne z hz) (hne₁ z hz)
    · have hz' := List.mem_cons_of_mem h hz
      exact hp z (ha.before_ne_next hz) (ha.before_ne z hz') (hne₁ z hz')
  · refine hl₂.setFirst ha.nodup_after hny hpn (fun z hz => ?_) fun z hz hzn => ?_
    · exact hn z (ha.after_ne_prev hz) (ha.after_ne z hz) (hne₂ z hz)
    · obtain rfl | hz := List.mem_cons.1 hz
      · exact hp z hzn (ha.before_ne z (by simp)) (hne₁ z (by simp))
      · exact hp z hzn (ha.after_ne z hz) (hne₂ z hz)

end IsRing

/-! ## The operations -/

section Operations

variable [DecidableEq α]

namespace Links

/-- Write a `next` link. -/
def setNext (m : Links α) (a : α) (v : Link α) : Links α :=
  { m with next := Function.update m.next a v }

/-- Write a `prev` link. -/
def setPrev (m : Links α) (a : α) (v : Link α) : Links α :=
  { m with prev := Function.update m.prev a v }

@[simp] theorem next_setNext (m : Links α) (a : α) (v : Link α) :
    (m.setNext a v).next = Function.update m.next a v := rfl

@[simp] theorem prev_setNext (m : Links α) (a : α) (v : Link α) :
    (m.setNext a v).prev = m.prev := rfl

@[simp] theorem next_setPrev (m : Links α) (a : α) (v : Link α) :
    (m.setPrev a v).next = m.next := rfl

@[simp] theorem prev_setPrev (m : Links α) (a : α) (v : Link α) :
    (m.setPrev a v).prev = Function.update m.prev a v := rfl

end Links

open Links

/-- `INIT_LIST_HEAD`, also the value of a `LIST_HEAD`: the head is linked to itself. -/
def initListHead (m : Links α) (h : α) : Links α := (m.setNext h (.node h)).setPrev h (.node h)

/-- `list_add`: insert `new` after `head`. -/
def listAdd (m : Links α) (new head : α) : Option (Links α) :=
  match m.next head with
  | .node next =>
    some ((((m.setPrev next (.node new)).setNext new (.node next)).setPrev new (.node head)).setNext
      head (.node new))
  | _ => none

/-- `list_add_tail`: insert `new` before `head`. -/
def listAddTail (m : Links α) (new head : α) : Option (Links α) :=
  match m.prev head with
  | .node prev =>
    some ((((m.setPrev head (.node new)).setNext new (.node head)).setPrev new (.node prev)).setNext
      prev (.node new))
  | _ => none

/-- `list_add_rcu`: the same links, published by the write to `head->next`. -/
def listAddRcu (m : Links α) (new head : α) : Option (Links α) :=
  match m.next head with
  | .node next =>
    some ((((m.setNext new (.node next)).setPrev new (.node head)).setNext head (.node new)).setPrev
      next (.node new))
  | _ => none

/-- `list_add_tail_rcu`: the links of `list_add_tail`, published by the write to `prev->next`. -/
def listAddTailRcu (m : Links α) (new head : α) : Option (Links α) :=
  match m.prev head with
  | .node prev =>
    some ((((m.setNext new (.node head)).setPrev new (.node prev)).setNext prev (.node new)).setPrev
      head (.node new))
  | _ => none

/-- `__list_del_entry`: link the neighbours of `entry` to each other. -/
def listDelEntry (m : Links α) (entry : α) : Option (Links α) :=
  match m.prev entry, m.next entry with
  | .node prev, .node next => some ((m.setPrev next (.node prev)).setNext prev (.node next))
  | _, _ => none

/-- `list_del`: unlink `entry` and poison both its links. -/
def listDel (m : Links α) (entry : α) : Option (Links α) :=
  (listDelEntry m entry).map fun m => (m.setNext entry .poison1).setPrev entry .poison2

/-- `list_del_rcu`: unlink `entry` and poison its `prev` link; readers may still follow `next`. -/
def listDelRcu (m : Links α) (entry : α) : Option (Links α) :=
  (listDelEntry m entry).map fun m => m.setPrev entry .poison2

/-- `list_replace_rcu`: put `new` in the place of `old`, which keeps its `next` link. -/
def listReplaceRcu (m : Links α) (old new : α) : Option (Links α) :=
  let m := (m.setNext new (m.next old)).setPrev new (m.prev old)
  match m.prev new, m.next new with
  | .node prev, .node next =>
    some (((m.setNext prev (.node new)).setPrev next (.node new)).setPrev old .poison2)
  | _, _ => none

variable {m : Links α} {h x y : α} {l l₁ l₂ : List α}

theorem isRing_initListHead (m : Links α) (h : α) : IsRing (initListHead m h) h [] :=
  ⟨by simp, by simp [initListHead], by simp [initListHead]⟩

/-- The two orders of the writes of `list_add` and `list_add_rcu` leave the same links. -/
theorem listAddRcu_eq (m : Links α) (hx : m.next h ≠ .node x) :
    listAddRcu m x h = listAdd m x h := by
  cases hn : m.next h with
  | node n =>
    have hne : x ≠ n := fun e => hx (e ▸ hn)
    simp only [listAdd, listAddRcu, hn, setNext, setPrev]
    rw [Function.update_comm hne.symm]
  | poison1 => simp only [listAdd, listAddRcu, hn]
  | poison2 => simp only [listAdd, listAddRcu, hn]

theorem listAdd_isRing (hr : IsRing m h l) (hx : x ∉ h :: l) :
    ∃ m', listAdd m x h = some m' ∧ IsRing m' h (x :: l) := by
  have hxh : x ≠ h := fun e => hx (by simp [e])
  have hxf : x ≠ l.headD h := fun e => hx (e ▸ headD_mem_cons l h)
  refine ⟨_, by rw [listAdd, hr.next_head], hr.cons hx ?_ ?_ ?_ ?_ ?_ ?_⟩
  · simp
  · simp
  · simp [hxh]
  · simp [-List.headD_eq_head?_getD, hxf.symm]
  · intro z hzh hzx
    simp [hzh, hzx]
  · intro z hzf hzx
    simp [-List.headD_eq_head?_getD, hzf, hzx]

theorem listAddTail_isRing (hr : IsRing m h l) (hx : x ∉ h :: l) :
    ∃ m', listAddTail m x h = some m' ∧ IsRing m' h (l ++ [x]) := by
  have hxh : x ≠ h := fun e => hx (by simp [e])
  have hxl : x ≠ l.getLastD h := by
    intro e
    have hm : l.getLastD h ∈ h :: l := List.getLastD_mem_cons
    exact hx (e ▸ hm)
  refine ⟨_, by rw [listAddTail, hr.prev_head], hr.concat hx ?_ ?_ ?_ ?_ ?_ ?_⟩
  · simp
  · simp
  · simp [-List.getLastD_eq_getLast?, hxl]
  · simp [hxh.symm]
  · intro z hzl hzx
    simp [-List.getLastD_eq_getLast?, hzl, hzx]
  · intro z hzh hzx
    simp [hzh, hzx]

theorem listAddRcu_isRing (hr : IsRing m h l) (hx : x ∉ h :: l) :
    ∃ m', listAddRcu m x h = some m' ∧ IsRing m' h (x :: l) := by
  rw [listAddRcu_eq]
  · exact listAdd_isRing hr hx
  · rw [hr.next_head]
    intro e
    obtain rfl := Link.node.inj e
    exact hx (headD_mem_cons l h)

/-- Besides the ring, this says that an entry which was taken off the list keeps its `next` link. -/
theorem listAddTailRcu_isRing (hr : IsRing m h l) (hx : x ∉ h :: l) :
    ∃ m', listAddTailRcu m x h = some m' ∧ IsRing m' h (l ++ [x]) ∧
      ∀ z ∉ h :: l, z ≠ x → m'.next z = m.next z := by
  have hxh : x ≠ h := fun e => hx (by simp [e])
  have hlast : l.getLastD h ∈ h :: l := List.getLastD_mem_cons
  have hxl : x ≠ l.getLastD h := fun e => hx (e ▸ hlast)
  refine ⟨_, by rw [listAddTailRcu, hr.prev_head], hr.concat hx ?_ ?_ ?_ ?_ ?_ ?_, ?_⟩
  · simp
  · simp [hxh]
  · simp [-List.getLastD_eq_getLast?, hxl]
  · simp
  · intro z hzl hzx
    simp [-List.getLastD_eq_getLast?, hzl, hzx]
  · intro z hzh hzx
    simp [hzh, hzx]
  · intro z hz hzx
    have hzl : z ≠ l.getLastD h := fun e => hz (e ▸ hlast)
    simp [-List.getLastD_eq_getLast?, hzl, hzx]

section Removal

variable (hr : IsRing m h (l₁ ++ x :: l₂))
include hr

theorem listDelEntry_eq : listDelEntry m x =
    some ((m.setPrev (l₂.headD h) (.node (l₁.getLastD h))).setNext (l₁.getLastD h)
      (.node (l₂.headD h))) := by
  rw [listDelEntry, hr.prev_eq, hr.next_eq]

theorem listDel_isRing : ∃ m', listDel m x = some m' ∧ IsRing m' h (l₁ ++ l₂) := by
  have hpx := hr.prev_ne
  have hnx := hr.next_ne
  refine ⟨_, by rw [listDel, listDelEntry_eq hr]; rfl, hr.remove ?_ ?_ ?_ ?_⟩
  · simp [-List.headD_eq_head?_getD, -List.getLastD_eq_getLast?, hpx]
  · simp [-List.headD_eq_head?_getD, -List.getLastD_eq_getLast?, hnx]
  · intro z hzp hzx
    simp [-List.getLastD_eq_getLast?, hzp, hzx]
  · intro z hzn hzx
    simp [-List.headD_eq_head?_getD, hzn, hzx]

theorem listDelRcu_isRing :
    ∃ m', listDelRcu m x = some m' ∧ IsRing m' h (l₁ ++ l₂) ∧ m'.next x = m.next x := by
  have hpx := hr.prev_ne
  have hnx := hr.next_ne
  refine ⟨_, by rw [listDelRcu, listDelEntry_eq hr]; rfl, hr.remove ?_ ?_ ?_ ?_, ?_⟩
  · simp [-List.headD_eq_head?_getD, -List.getLastD_eq_getLast?]
  · simp [-List.headD_eq_head?_getD, -List.getLastD_eq_getLast?, hnx]
  · intro z hzp hzx
    simp [-List.getLastD_eq_getLast?, hzp]
  · intro z hzn hzx
    simp [-List.headD_eq_head?_getD, hzn, hzx]
  · simp [-List.getLastD_eq_getLast?, hpx.symm]

/-- An entry off the list keeps its `next` link when another one is removed. -/
theorem listDelRcu_next {m' : Links α} (hm : listDelRcu m x = some m') {z : α}
    (hz : z ∉ h :: (l₁ ++ x :: l₂)) : m'.next z = m.next z := by
  have hlast : l₁.getLastD h ∈ h :: l₁ := List.getLastD_mem_cons
  have hzl : z ≠ l₁.getLastD h := by
    intro e
    rw [← List.cons_append] at hz
    exact hz (List.mem_append_left _ (e ▸ hlast))
  rw [listDelRcu, listDelEntry_eq hr] at hm
  obtain rfl := Option.some.inj hm
  simp [-List.getLastD_eq_getLast?, hzl]

/-- An entry off the list keeps its `next` link when another one is replaced. -/
theorem listReplaceRcu_next {m' : Links α} (hm : listReplaceRcu m x y = some m') {z : α}
    (hz : z ∉ h :: (l₁ ++ x :: l₂)) (hzy : z ≠ y) : m'.next z = m.next z := by
  have hlast : l₁.getLastD h ∈ h :: l₁ := List.getLastD_mem_cons
  have hzl : z ≠ l₁.getLastD h := by
    intro e
    rw [← List.cons_append] at hz
    exact hz (List.mem_append_left _ (e ▸ hlast))
  simp only [listReplaceRcu, prev_setPrev, next_setPrev, next_setNext, Function.update_self,
    hr.prev_eq, hr.next_eq, Option.some.injEq] at hm
  subst hm
  simp [-List.getLastD_eq_getLast?, hzl, hzy]

theorem listReplaceRcu_isRing (hy : y ∉ h :: (l₁ ++ x :: l₂)) :
    ∃ m', listReplaceRcu m x y = some m' ∧ IsRing m' h (l₁ ++ y :: l₂) ∧ m'.next x = m.next x := by
  have hpx := hr.prev_ne
  have hnx := hr.next_ne
  have hyx : y ≠ x := fun e => hy (by simp [e])
  have hyp : y ≠ l₁.getLastD h := by
    intro e
    have hm : l₁.getLastD h ∈ h :: l₁ := List.getLastD_mem_cons
    rw [← e] at hm
    exact hy (by rw [← List.cons_append]; exact List.mem_append_left _ hm)
  have hyn : y ≠ l₂.headD h := by
    intro e
    obtain hh | hm := List.mem_cons.1 (e ▸ headD_mem_cons l₂ h)
    · exact hy (by simp [hh])
    · exact hy (by simp [hm])
  have hy' : y ∉ h :: (l₁ ++ l₂) := by
    simp only [List.mem_cons, List.mem_append, not_or] at hy ⊢
    exact ⟨hy.1, hy.2.1, hy.2.2.2⟩
  have hprev : ((m.setNext y (m.next x)).setPrev y (m.prev x)).prev y = .node (l₁.getLastD h) := by
    rw [prev_setPrev, Function.update_self, hr.prev_eq]
  have hnext : ((m.setNext y (m.next x)).setPrev y (m.prev x)).next y = .node (l₂.headD h) := by
    rw [next_setPrev, next_setNext, Function.update_self, hr.next_eq]
  refine ⟨_, by rw [listReplaceRcu, hprev, hnext], hr.replace hy' ?_ ?_ ?_ ?_ ?_ ?_, ?_⟩
  · simp
  · rw [prev_setPrev, Function.update_of_ne hyx, prev_setPrev, Function.update_of_ne hyn,
      prev_setNext, hprev]
  · rw [next_setPrev, next_setPrev, next_setNext, Function.update_of_ne hyp, hnext]
  · rw [prev_setPrev, Function.update_of_ne hnx, prev_setPrev, Function.update_self]
  · intro z hzp hzx hzy
    simp [-List.getLastD_eq_getLast?, hzp, hzy]
  · intro z hzn hzx hzy
    simp [-List.headD_eq_head?_getD, hzn, hzx, hzy]
  · simp [-List.getLastD_eq_getLast?, hpx.symm, hyx.symm]

end Removal

end Operations

end Lkb.CircularList
