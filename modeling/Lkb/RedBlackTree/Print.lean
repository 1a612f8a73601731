import Lkb.Foundations.Ascent
import Lkb.RedBlackTree.History
import Mathlib.Data.List.Sort

/-!
# The traversal of `print`

`print` goes from `rb_first` on by `rb_next`, which reads the parent of a node without a right child
in its word `__rb_parent_color`. Neither `start` nor `insert` writes these words: after a history of
insertions they are what they were before it. `print_after_insertAll` says what they must be for
`print` to go through the tree in order (`Threaded`); `Holds.threaded` is that the parents would
do, if `insert` stored them.
-/

namespace Lkb.RedBlackTree

open Loop PointerTree SearchTree BinaryTree

variable {s : State} {t : BinaryTree Addr} {a b x : Addr} {o : Option Addr} {xs : List Addr}

/-! ## The nodes that `print` visits -/

/-- The nodes that the loop of `print` comes to from `tmp`. -/
def visitLoop : ℕ → State → Option Addr → Option (List Addr)
  | 0, _, _ => none
  | _ + 1, _, none => some []
  | fuel + 1, s, some tmp =>
    (rbNext fuel s tmp).bind fun next => (visitLoop fuel s next).map (tmp :: ·)

/-- The nodes whose data `print` prints, in turn. -/
def visits (fuel : ℕ) (s : State) : Option (List Addr) :=
  (rbFirst fuel s).bind (visitLoop fuel s)

/-- The state after the data of the nodes was printed. -/
def State.printData (s : State) (xs : List Addr) : State :=
  { s with log := s.log ++ xs.map fun a => .data (s.data a) }

theorem visitLoop_print (m : Msg) (fuel : ℕ) (o : Option Addr) :
    visitLoop fuel (s.print m) o = visitLoop fuel s o := by
  induction fuel generalizing o with
  | zero => rfl
  | succ fuel ih =>
    cases o with
    | none => rfl
    | some a =>
      have hnext : rbNext fuel (s.print m) a = rbNext fuel s a := rfl
      simp only [visitLoop, ih, hnext]

theorem printLoop_eq (fuel : ℕ) (o : Option Addr) :
    printLoop fuel s o = (visitLoop fuel s o).map s.printData := by
  induction fuel generalizing s o with
  | zero => rfl
  | succ fuel ih =>
    cases o with
    | none => simp [printLoop, visitLoop, State.printData]
    | some a =>
      simp only [printLoop, visitLoop, ih, visitLoop_print, Option.map_bind]
      refine congrArg _ (funext fun next => ?_)
      rw [Function.comp_apply, Option.map_map]
      refine congrArg₂ _ (funext fun xs => ?_) rfl
      simp [State.printData, State.print, State.data]

/-- `print` prints the data of the nodes that it visits. -/
theorem print_eq (fuel : ℕ) (s : State) : print fuel s = (visits fuel s).map s.printData := by
  rw [print, visits, Option.map_bind]
  exact congrArg _ (funext fun o => printLoop_eq fuel o)

/-! ## `rb_first` and `rb_next` -/

theorem leftmost_returns (h : Spans s.kids (some x) t) :
    ∃ y, (inorder t).head? = some y ∧ Returns (fun n => leftmost n s x) y := by
  induction t generalizing x with
  | nil => cases h
  | node c l r ihl ihr =>
    obtain ⟨hx, hl, -⟩ := h
    obtain rfl := Option.some.inj hx
    cases hleft : s.kids .left x with
    | none =>
      rw [hleft] at hl
      cases l with
      | nil => exact ⟨x, rfl, Returns.loop_leave (by simp [hleft])⟩
      | node c' l' r' => cases hl.1
    | some y =>
      rw [hleft] at hl
      obtain ⟨z, hz, hret⟩ := ihl hl
      refine ⟨z, by simp [hz], Returns.loop_round ?_ hret⟩
      simp [hleft]

theorem rbFirst_returns (h : Spans s.kids s.rbNode t) :
    Returns (fun n => rbFirst n s) (inorder t).head? := by
  unfold rbFirst
  cases hroot : s.rbNode with
  | none =>
    rw [hroot] at h
    cases t with
    | nil => exact Returns.pure none
    | node c l r => cases h.1
  | some x =>
    rw [hroot] at h
    obtain ⟨y, hy, hret⟩ := leftmost_returns h
    rw [hy]
    exact hret.map some

theorem steady_rbFirst (s : State) : Steady fun n => rbFirst n s := by
  unfold rbFirst
  cases s.rbNode with
  | none => exact steady_pure (some none)
  | some x => exact (steady_loop _ x).map some

theorem steady_rbNext (s : State) (a : Addr) : Steady fun n => rbNext n s a := by
  unfold rbNext
  split_ifs
  · exact steady_pure (some none)
  · cases s.kids .right a with
    | none => exact steady_loop _ a
    | some x => exact (steady_loop _ x).map some

/-- The climb of `rb_next` is an ascent. -/
theorem climb_returns_iff :
    Returns (fun n => loop (climbBody s) n a) o ↔
      ∃ x, Relation.ReflTransGen (RightUp s.kids (rbParent s)) a x ∧ rbParent s x = o ∧
        ∀ p ∈ o, s.kids .right p ≠ some x := by
  constructor
  · rintro ⟨n, hn⟩
    have hloop : loop (climbBody s) n a = some o := hn n le_rfl
    clear hn
    induction n generalizing a with
    | zero => cases hloop
    | succ n ih =>
      rw [loop] at hloop
      cases hp : rbParent s a with
      | none =>
        simp only [climbBody, hp, Option.some.injEq] at hloop
        subst hloop
        exact ⟨a, .refl, hp, by simp⟩
      | some p =>
        by_cases hright : s.kids .right p = some a
        · simp only [climbBody, hp, hright, if_true] at hloop
          obtain ⟨x, hax, hx⟩ := ih hloop
          exact ⟨x, .head ⟨hp, hright⟩ hax, hx⟩
        · simp only [climbBody, hp, hright, if_false, Option.some.injEq] at hloop
          subst hloop
          refine ⟨a, .refl, hp, ?_⟩
          rintro p ⟨⟩
          exact hright
  · rintro ⟨x, hax, hx, hright⟩
    induction hax using Relation.ReflTransGen.head_induction_on with
    | refl =>
      refine Returns.loop_leave ?_
      cases o with
      | none => simp [climbBody, hx]
      | some p => simp [climbBody, hx, hright p rfl]
    | head hstep _ ih =>
      refine Returns.loop_round ?_ ih
      simp [climbBody, hstep.1, hstep.2]

/-! ## The order of the visits -/

/-- The loop of `print` visits a list of nodes when `rb_next` leads from each of them to the one
that follows, and from the last one to `NULL`. -/
theorem visitLoop_returns_iff :
    Returns (fun n => visitLoop n s o) xs ↔
      o = xs.head? ∧ ∀ a o', FollowedBy xs a o' → Returns (fun n => rbNext n s a) o' := by
  induction xs generalizing o with
  | nil =>
    constructor
    · intro h
      cases o with
      | none => exact ⟨rfl, fun a o' h => absurd h.mem (by simp)⟩
      | some a =>
        obtain ⟨next, -, n, hn⟩ := Returns.of_bind (steady_rbNext s a) (returns_succ.2 h)
        simpa using hn n le_rfl
    · rintro ⟨rfl, -⟩
      exact returns_succ.1 (Returns.pure [])
  | cons y xs ih =>
    constructor
    · intro h
      cases o with
      | none =>
        have h' := returns_succ.2 h
        exact absurd (h'.unique (Returns.pure [])) (by simp)
      | some a =>
        obtain ⟨next, hnext, n, hn⟩ := Returns.of_bind (steady_rbNext s a) (returns_succ.2 h)
        have hrest : ∀ m, n ≤ m → visitLoop m s next = some xs ∧ a = y := by
          intro m hm
          obtain ⟨zs, hzs, heq⟩ := Option.map_eq_some_iff.1 (hn m hm)
          obtain ⟨rfl, rfl⟩ := List.cons.inj heq
          exact ⟨hzs, rfl⟩
        obtain rfl := (hrest n le_rfl).2
        obtain ⟨rfl, hxs⟩ := ih.1 ⟨n, fun m hm => (hrest m hm).1⟩
        refine ⟨rfl, fun b o' hb => ?_⟩
        obtain ⟨rfl, rfl⟩ | hb := hb.of_cons
        · exact hnext
        · exact hxs b o' hb
    · rintro ⟨rfl, hnext⟩
      have hy : Returns (fun n => rbNext n s y) xs.head? := hnext y _ ⟨[], xs, rfl, rfl⟩
      have hxs := ih.2 ⟨rfl, fun a o' h => hnext a o' (h.append_left [y])⟩
      refine returns_succ.1 (hy.bind ?_)
      exact hxs.map (y :: ·)

/-- The node after `a`, in the order of the data. -/
def State.Next (s : State) (a b : Addr) : Prop :=
  s.Reachable a ∧ s.Reachable b ∧ s.data a < s.data b ∧
    ∀ c, s.Reachable c → s.data c ≤ s.data a ∨ s.data b ≤ s.data c

/-- The last node, in the order of the data. -/
def State.Last (s : State) (a : Addr) : Prop :=
  s.Reachable a ∧ ∀ c, s.Reachable c → s.data c ≤ s.data a

/-- The words `__rb_parent_color` of the nodes make a thread through the tree. No node before the
last one has its own address in its word, and from one that has no right child the parent pointers
in the words lead, over right links and then once more, to the node that comes next; from the last
node they lead to `NULL`, if its word is not its own address. -/
structure Threaded (s : State) : Prop where
  next : ∀ a b, s.Next a b → (s.mem a).rbParentColor ≠ a ∧
    (s.kids .right a = none → Ascends s.kids (rbParent s) a (some b))
  last : ∀ a, s.Last a → (s.mem a).rbParentColor = a ∨ Ascends s.kids (rbParent s) a none

/-- `print` comes to its end, and prints the data of every node of the tree once, in increasing
order. -/
def PrintsTree (s : State) : Prop :=
  ∃ xs, Returns (fun n => visits n s) xs ∧ Returns (fun n => print n s) (s.printData xs) ∧
    (∀ a, a ∈ xs ↔ s.Reachable a) ∧ xs.Pairwise fun a b => s.data a < s.data b

section Holds

variable (h : Holds s t)
include h

theorem Holds.next_iff : s.Next a b ↔ FollowedBy (inorder t) a (some b) := by
  rw [followedBy_some_iff h.ordered]
  simp only [State.Next, h.reachable_iff]

theorem Holds.last_iff : s.Last a ↔ FollowedBy (inorder t) a none := by
  rw [followedBy_none_iff h.ordered]
  simp only [State.Last, h.reachable_iff]

theorem Holds.visits_returns_iff :
    Returns (fun n => visits n s) xs ↔
      (inorder t).head? = xs.head? ∧
        ∀ a o, FollowedBy xs a o → Returns (fun n => rbNext n s a) o := by
  rw [← visitLoop_returns_iff]
  have hfirst := rbFirst_returns h.spans
  constructor
  · intro hret
    obtain ⟨o, ho, hret⟩ := Returns.of_bind (steady_rbFirst s) hret
    rwa [hfirst.unique ho]
  · exact hfirst.bind

/-- When `print` goes through the tree in order: when `rb_next` leads from each node to the one that
follows in the tree. -/
theorem Holds.printsTree_iff :
    PrintsTree s ↔
      ∀ a o, FollowedBy (inorder t) a o → Returns (fun n => rbNext n s a) o := by
  constructor
  · rintro ⟨xs, hvisits, -, hmem, hsorted⟩
    have hirrefl : Std.Irrefl fun a b => s.data a < s.data b := ⟨fun a => lt_irrefl (s.data a)⟩
    have hasymm : Std.Antisymm fun a b => s.data a < s.data b :=
      ⟨fun a b hab hba => absurd hab hba.not_gt⟩
    obtain rfl : xs = inorder t :=
      hsorted.eq_of_mem_iff h.ordered fun a => (hmem a).trans (h.reachable_iff a)
    exact (h.visits_returns_iff.1 hvisits).2
  · intro hnext
    have hvisits := h.visits_returns_iff.2 ⟨rfl, hnext⟩
    refine ⟨inorder t, hvisits, ?_, fun a => (h.reachable_iff a).symm, h.ordered⟩
    simp only [print_eq]
    exact hvisits.map s.printData

/-- What makes `rb_next` lead to the node that follows. -/
theorem Holds.rbNext_returns_some_iff (hab : FollowedBy (inorder t) a (some b)) :
    Returns (fun n => rbNext n s a) (some b) ↔ (s.mem a).rbParentColor ≠ a ∧
      (s.kids .right a = none → Ascends s.kids (rbParent s) a (some b)) := by
  unfold rbNext
  by_cases hown : (s.mem a).rbParentColor = a
  · simp only [hown, if_true, ne_eq, not_true_eq_false, false_and, iff_false]
    intro hret
    cases hret.unique (Returns.pure none)
  · simp only [hown, if_false, ne_eq, not_false_eq_true, true_and]
    cases hx : s.kids .right a with
    | some x =>
      obtain ⟨r, hr, hnext⟩ := h.spans.followedBy_right hab.mem hx
      obtain ⟨y, hy, hret⟩ := leftmost_returns hr
      have hyb : some b = some y := hab.unique h.ordered.nodup (hy ▸ hnext)
      simp only [reduceCtorEq, false_implies, iff_true]
      rw [hyb]
      exact hret.map some
    | none =>
      simp only [true_implies, climb_returns_iff]
      constructor
      · rintro ⟨x, hax, hx, -⟩
        exact ⟨x, hax, hx⟩
      · rintro ⟨x, hax, hx⟩
        refine ⟨x, hax, hx, ?_⟩
        rintro p ⟨⟩ hright
        obtain ⟨-, hb, hlt, -⟩ := (followedBy_some_iff h.ordered).1 hab
        exact absurd (h.spans.rel_of_rightUp h.ordered hb hright hax) hlt.not_gt

/-- The last node has no right child. -/
theorem Holds.right_eq_none (ha : FollowedBy (inorder t) a none) : s.kids .right a = none := by
  cases hx : s.kids .right a with
  | none => rfl
  | some x =>
    obtain ⟨r, hr, hnext⟩ := h.spans.followedBy_right ha.mem hx
    have hsome := isSome_head?_inorder hr
    rw [← ha.unique h.ordered.nodup hnext] at hsome
    cases hsome

/-- What makes `rb_next` lead from the last node to `NULL`. -/
theorem Holds.rbNext_returns_none_iff (ha : FollowedBy (inorder t) a none) :
    Returns (fun n => rbNext n s a) none ↔ (s.mem a).rbParentColor = a ∨
      Ascends s.kids (rbParent s) a none := by
  unfold rbNext
  by_cases hown : (s.mem a).rbParentColor = a
  · simp only [hown, if_true, true_or, iff_true]
    exact Returns.pure none
  · simp only [hown, if_false, false_or]
    simp only [h.right_eq_none ha, climb_returns_iff]
    constructor
    · rintro ⟨x, hax, hx, -⟩
      exact ⟨x, hax, hx⟩
    · rintro ⟨x, hax, hx⟩
      exact ⟨x, hax, hx, nofun⟩

/-- The condition is exact on every heap with the shape of a search tree. -/
theorem Holds.printsTree_iff_threaded : PrintsTree s ↔ Threaded s := by
  rw [h.printsTree_iff]
  constructor
  · intro hnext
    refine ⟨fun a b hab => ?_, fun a ha => ?_⟩
    · have hab := h.next_iff.1 hab
      exact (h.rbNext_returns_some_iff hab).1 (hnext a _ hab)
    · have ha := h.last_iff.1 ha
      exact (h.rbNext_returns_none_iff ha).1 (hnext a _ ha)
  · intro hthread a o hao
    cases o with
    | none => exact (h.rbNext_returns_none_iff hao).2 (hthread.last a (h.last_iff.2 hao))
    | some b => exact (h.rbNext_returns_some_iff hao).2 (hthread.next a b (h.next_iff.2 hao))

/-! ## With the parents in the words -/

/-- Every word has the parent of its node, or none for the root, as `rb_link_node` would store
it. -/
structure Parented (s : State) : Prop where
  own : ∀ a, s.Reachable a → (s.mem a).rbParentColor ≠ a
  root : ∀ a ∈ s.rbNode, rbParent s a = none
  child : ∀ p, s.Reachable p → ∀ d a, s.kids d p = some a → rbParent s a = some p

/-- **`rb_next` is right where the words have the parents.** -/
theorem Holds.threaded (hp : Parented s) : Threaded s := by
  have hup : ∀ c ∈ inorder t, ∀ d x, s.kids d c = some x → rbParent s x = some c :=
    fun c hc => hp.child c ((h.reachable_iff c).2 hc)
  refine ⟨fun a b hab => ⟨hp.own a hab.1, fun hright => ?_⟩, fun a ha => .inr ?_⟩
  · have hab := h.next_iff.1 hab
    obtain ⟨b', hab', hasc⟩ | ⟨hlast, -⟩ := h.spans.ascends hup hab.mem hright
    · rwa [hab.unique h.ordered.nodup hab']
    · cases hab.unique h.ordered.nodup hlast
  · have ha := h.last_iff.1 ha
    obtain ⟨b, hab, -⟩ | ⟨-, hroot⟩ := h.spans.ascends hup ha.mem (h.right_eq_none ha)
    · cases ha.unique h.ordered.nodup hab
    · obtain ⟨c, hc⟩ := h.spans.eq_some_of_mem ha.mem
      exact ⟨c, hroot c hc, hp.root c hc⟩

end Holds

/-! ## After a history of insertions -/

theorem rbParentColor_store (l : Slot) (p : Option Addr) (a : Addr) :
    ((s.store l p).mem a).rbParentColor = (s.mem a).rbParentColor := by
  rcases l with _ | ⟨_ | _, b⟩
  · rfl
  all_goals
    by_cases hab : a = b
    · simp [State.store, hab]
    · simp [State.store, hab]

/-- `insert` leaves the words of all nodes as they are. -/
theorem insert_rbParentColor {fuel : ℕ} {r : ℤ} {s' : State}
    (hs : insert fuel s x = some (r, s')) (a : Addr) :
    (s'.mem a).rbParentColor = (s.mem a).rbParentColor := by
  unfold insert at hs
  split_ifs at hs
  · cases hs
    exact rbParentColor_store _ _ a
  · obtain ⟨c, -, hc⟩ := Option.bind_eq_some_iff.1 hs
    unfold insertAfter at hc
    split_ifs at hc
    · cases hc
      rfl
    · split at hc
      · split_ifs at hc
        all_goals
          cases hc
          exact rbParentColor_store _ _ a
      · cases hc

theorem insertAll_rbParentColor {fuel : ℕ} {ts : List Addr} {rs : List ℤ} {s' : State}
    (hs : insertAll fuel s ts = some (rs, s')) (a : Addr) :
    (s'.mem a).rbParentColor = (s.mem a).rbParentColor := by
  induction ts generalizing s rs with
  | nil =>
    cases hs
    rfl
  | cons x ts ih =>
    obtain ⟨⟨r, s₁⟩, hx, hs⟩ := Option.bind_eq_some_iff.1 hs
    obtain ⟨⟨rs, s₂⟩, hts, hs⟩ := Option.bind_eq_some_iff.1 hs
    cases hs
    exact (ih hts).trans (insert_rbParentColor hx a)

/-- **When `print` is a complete traversal in order.** After any history of insertions from
`RB_ROOT`, the words `__rb_parent_color` are those from before it, and `print` comes to its end and
prints the data of every node once, in increasing order, exactly when these words make a thread
through the tree. -/
theorem print_after_insertAll (mem : Addr → Tree) (ts : List Addr) (hts : ts.Nodup)
    (hnull : Unlinked mem ts) :
    ∃ rs s, Returns (fun n => insertAll n (rbRoot mem) ts) (rs, s) ∧
      (∀ a, (s.mem a).rbParentColor = (mem a).rbParentColor) ∧ (PrintsTree s ↔ Threaded s) := by
  obtain ⟨s, hret, hholds, -⟩ :=
    insertAll_returns (holds_rbRoot mem) hts (fun _ _ => by simp) hnull.kids
  obtain ⟨n, hn⟩ := hret
  refine ⟨_, s, ⟨n, hn⟩, ?_, hholds.printsTree_iff_threaded⟩
  exact insertAll_rbParentColor (hn n le_rfl)

/-! ## Two insertions -/

/-- Memory with data 3 at the node 16, whose word is `w`, and data 5 and the word 0 elsewhere. -/
def pairMem (w : ℕ) (a : Addr) : Tree :=
  ⟨if a = 16 then 3 else 5, if a = 16 then w else 0, none, none⟩

/-- The tree with the node 8 at its root and the node 16 to its left. -/
def pairState (w : ℕ) : State :=
  ((rbRoot (pairMem w)).store .rbNode (some 8)).store (.child .left 8) (some 16)

theorem steady_insert (s : State) (x : Addr) : Steady fun n => insert n s x := by
  unfold insert
  split_ifs
  · exact steady_pure _
  · exact (steady_loop _ _).bind fun c => steady_pure _

theorem steady_insertAll (s : State) (ts : List Addr) : Steady fun n => insertAll n s ts := by
  induction ts generalizing s with
  | nil => exact steady_pure _
  | cons x ts ih =>
    exact (steady_insert s x).bind fun z => (ih z.2).bind fun w => steady_pure _

theorem pair_returns (w : ℕ) :
    Returns (fun n => insertAll n (rbRoot (pairMem w)) [8, 16]) ([0, 0], pairState w) := by
  have h3 : insertAll 3 (rbRoot (pairMem w)) [8, 16] = some ([0, 0], pairState w) := rfl
  exact (steady_insertAll _ _).returns h3

theorem pair_holds (w : ℕ) : Holds (pairState w) (node 8 (node 16 nil nil) nil) := by
  have hlt : (pairState w).data 16 < (pairState w).data 8 := by
    have h16 : (pairState w).data 16 = 3 := rfl
    have h8 : (pairState w).data 8 = 5 := rfl
    rw [h16, h8]
    decide
  refine ⟨⟨rfl, ⟨rfl, rfl, rfl⟩, rfl⟩, ?_⟩
  simpa [Ordered] using hlt

theorem pair_rbParentColor (w : ℕ) (a : Addr) :
    ((pairState w).mem a).rbParentColor = if a = 16 then w else 0 := by
  rw [pairState, rbParentColor_store, rbParentColor_store]
  rfl

/-- Where the word of the node 16 has its parent, `print` prints the whole tree. -/
theorem print_after_insertAll_sample :
    ∃ rs s, Returns (fun n => insertAll n (rbRoot (pairMem 8)) [8, 16]) (rs, s) ∧
      PrintsTree s := by
  obtain ⟨rs, s, hret, -, hiff⟩ :=
    print_after_insertAll (pairMem 8) [8, 16] (by decide) (by simp [Unlinked, pairMem])
  obtain ⟨rfl, rfl⟩ := Prod.mk.inj (hret.unique (pair_returns 8))
  have hreach : ∀ a, (pairState 8).Reachable a → a = 16 ∨ a = 8 := by
    intro a ha
    simpa using ((pair_holds 8).reachable_iff a).1 ha
  refine ⟨_, _, hret, hiff.2 ((pair_holds 8).threaded ⟨?_, ?_, ?_⟩)⟩
  · intro a ha
    obtain rfl | rfl := hreach a ha
    · exact Nat.ne_of_beq_eq_false rfl
    · exact Nat.ne_of_beq_eq_false rfl
  · rintro a ⟨⟩
    rfl
  · intro p hp d a ha
    obtain rfl | rfl := hreach p hp
    · cases d <;> cases ha
    · cases d <;> cases ha
      rfl

/-- The node 16 is inserted below the node 8, which its word does not name: `print` prints 3 alone.
-/
theorem not_printed_without_parent :
    (print 5 (pairState 0)).map State.log = some [.data 3] ∧
      ¬∀ mem ts, ts.Nodup → Unlinked mem ts →
        ∃ rs s, Returns (fun n => insertAll n (rbRoot mem) ts) (rs, s) ∧ PrintsTree s := by
  refine ⟨by decide, fun hall => ?_⟩
  have hnull : Unlinked (pairMem 0) [8, 16] := by simp [Unlinked, pairMem]
  obtain ⟨rs, s, hret, hprints⟩ := hall (pairMem 0) [8, 16] (by decide) hnull
  obtain ⟨rfl, rfl⟩ := Prod.mk.inj (hret.unique (pair_returns 0))
  have hnext : (pairState 0).Next 16 8 := (pair_holds 0).next_iff.2 ⟨[], [8], rfl, rfl⟩
  have hthread := (pair_holds 0).printsTree_iff_threaded.1 hprints
  obtain ⟨x, -, hx⟩ := (hthread.next 16 8 hnext).2 rfl
  -- no word leads anywhere
  have hnone : rbParent (pairState 0) x = none := by
    simp [rbParent, pair_rbParentColor]
  cases hnone.symm.trans hx

end Lkb.RedBlackTree
