import Lkb.Foundations.Loop
import Lkb.Foundations.PointerTree
import Mathlib.Data.Nat.Basic
import Mathlib.Order.Defs.LinearOrder

/-!
# The tree of `red_black_tree`

The data model and the functions of `red_black_tree/code.c`: `insert`, `search` and `print` over a
pointer heap. The insertion is the hand-written descent of the source, without the rebalancing
that its comment leaves to do, so nothing here is coloured.

An address is that of a `struct TREE`, and of the `struct rb_node` in it: `rb_entry` is the
identity. A loop over the heap takes fuel (`Loop.loop`), since a heap may have a cycle.
-/

namespace Lkb.RedBlackTree

open Loop PointerTree

instance int32LinearOrder : LinearOrder Int32 where
  le_refl := Int32.le_refl
  le_trans _ _ _ := Int32.le_trans
  le_antisymm _ _ := Int32.le_antisymm
  le_total := Int32.le_total
  toDecidableLE := inferInstance
  lt_iff_le_not_ge a b := by
    rw [Int32.not_le]
    exact ⟨fun h => ⟨Int32.le_of_lt h, h⟩, fun h => h.2⟩

/-- The address of a `struct TREE`. -/
abbrev Addr := ℕ

/-- `struct TREE`, with the fields of its `struct rb_node`. -/
structure Tree where
  data : Int32
  rbParentColor : ℕ
  rbRight : Option Addr
  rbLeft : Option Addr

/-- A pointer variable that `insert` can write: `root->rb_node`, or a child field of a node. -/
inductive Slot
  | rbNode
  | child (d : Side) (a : Addr)
  deriving DecidableEq

/-- The lines that the module prints. -/
inductive Msg
  | start
  | alreadyPresent
  | notFound (data : Int32)
  | found (data : Int32)
  | data (data : Int32)
  deriving DecidableEq

/-- The memory: the root, the nodes, the pointer writes so far and the lines printed so far. -/
structure State where
  rbNode : Option Addr
  mem : Addr → Tree
  writes : List (Slot × Option Addr)
  log : List Msg

namespace State

/-- The child pointers of the heap. -/
def kids (s : State) : Side → Addr → Option Addr
  | .left, a => (s.mem a).rbLeft
  | .right, a => (s.mem a).rbRight

/-- The key of a node. -/
def data (s : State) (a : Addr) : Int32 := (s.mem a).data

/-- The value of a pointer variable. -/
def load (s : State) : Slot → Option Addr
  | .rbNode => s.rbNode
  | .child d a => s.kids d a

/-- Write a pointer variable. -/
def store (s : State) (l : Slot) (p : Option Addr) : State :=
  let s := { s with writes := s.writes ++ [(l, p)] }
  match l with
  | .rbNode => { s with rbNode := p }
  | .child .left a => { s with mem := Function.update s.mem a { s.mem a with rbLeft := p } }
  | .child .right a => { s with mem := Function.update s.mem a { s.mem a with rbRight := p } }

/-- Print a line. -/
def print (s : State) (m : Msg) : State := { s with log := s.log ++ [m] }

end State

/-- The memory before the first call: `root` is `RB_ROOT`. -/
def rbRoot (mem : Addr → Tree) : State := ⟨none, mem, [], []⟩

/-! ## `search` -/

/-- One round of the loop of `search`, at the node `n`. -/
def searchBody (s : State) (value : Int32) : Option Addr → Option Addr ⊕ Option Addr
  | none => .inl none
  | some n =>
    if s.data n > value then .inr (s.kids .left n)
    else if s.data n < value then .inr (s.kids .right n)
    else .inl (some n)

/-- `search`: the node with the given data, or `NULL`. -/
def search (fuel : ℕ) (s : State) (value : Int32) : Option (Option Addr) :=
  loop (searchBody s value) fuel s.rbNode

/-! ## `insert` -/

/-- The local variables of the loop of `insert`; `parent` and `tmpTree` start uninitialised. -/
structure Cursor where
  tmp : Option Addr
  parent : Option Addr
  tmpTree : Option Addr
  deriving DecidableEq

/-- One round of the loop of `insert`; it leaves with `tmp` null, or by the `break` with `tmp` the
node that holds the data of `t`. -/
def insertBody (s : State) (t : Addr) (c : Cursor) : Cursor ⊕ Cursor :=
  match c.tmp with
  | none => .inl c
  | some tmp =>
    let c : Cursor := { c with parent := some tmp, tmpTree := some tmp }
    if s.data tmp > s.data t then .inr { c with tmp := s.kids .left tmp }
    else if s.data tmp < s.data t then .inr { c with tmp := s.kids .right tmp }
    else .inl c

/-- What `insert` does after its loop. An uninitialised `parent` or `tmp_tree` is not read from. -/
def insertAfter (s : State) (t : Addr) (c : Cursor) : Option (ℤ × State) :=
  if c.tmp.isSome then some (1, s.print .alreadyPresent)
  else
    match c.tmpTree, c.parent with
    | some tmpTree, some parent =>
      if s.data tmpTree > s.data t then some (0, s.store (.child .left parent) (some t))
      else some (0, s.store (.child .right parent) (some t))
    | _, _ => none

/-- `insert`: link the node `t` below a leaf, unless its data is in the tree. -/
def insert (fuel : ℕ) (s : State) (t : Addr) : Option (ℤ × State) :=
  if s.rbNode.isNone then some (0, s.store .rbNode (some t))
  else (loop (insertBody s t) fuel ⟨s.rbNode, none, none⟩).bind (insertAfter s t)

/-- The calls `insert(t)` for the nodes of a list in turn, with the values they return. -/
def insertAll (fuel : ℕ) : State → List Addr → Option (List ℤ × State)
  | s, [] => some ([], s)
  | s, t :: ts =>
    (insert fuel s t).bind fun (r, s₁) =>
      (insertAll fuel s₁ ts).bind fun (rs, s₂) => some (r :: rs, s₂)

/-! ## `print` -/

/-- The leftmost node below a node: `while (n->rb_left) n = n->rb_left`. -/
def leftmost (fuel : ℕ) (s : State) (n : Addr) : Option Addr :=
  loop (fun n => match s.kids .left n with | none => .inl n | some l => .inr l) fuel n

/-- `rb_first`, the leftmost node of the tree. -/
def rbFirst (fuel : ℕ) (s : State) : Option (Option Addr) :=
  match s.rbNode with
  | none => some none
  | some n => (leftmost fuel s n).map some

/-- `rb_parent`: the word `__rb_parent_color` without its two colour bits. -/
def rbParent (s : State) (n : Addr) : Option Addr :=
  let p := (s.mem n).rbParentColor / 4 * 4
  if p = 0 then none else some p

/-- One round of the climb of `rb_next`: up, as long as the node is a right child. -/
def climbBody (s : State) (n : Addr) : Option Addr ⊕ Addr :=
  match rbParent s n with
  | none => .inl none
  | some parent => if s.kids .right parent = some n then .inr parent else .inl (some parent)

/-- `rb_next`: the leftmost node of the right subtree, or the first ancestor that is reached from
its left child. A node that is its own parent is in no tree. -/
def rbNext (fuel : ℕ) (s : State) (n : Addr) : Option (Option Addr) :=
  if (s.mem n).rbParentColor = n then some none
  else
    match s.kids .right n with
    | some r => (leftmost fuel s r).map some
    | none => loop (climbBody s) fuel n

/-- The loop of `print` over the node `tmp`, which reads the data of each node it comes to. -/
def printLoop : ℕ → State → Option Addr → Option State
  | 0, _, _ => none
  | _ + 1, s, none => some s
  | fuel + 1, s, some tmp =>
    (rbNext fuel s tmp).bind fun next => printLoop fuel (s.print (.data (s.data tmp))) next

/-- `print`: the data of the nodes, from `rb_first` on by `rb_next`. -/
def print (fuel : ℕ) (s : State) : Option State :=
  (rbFirst fuel s).bind (printLoop fuel s)

/-! ## `start` -/

/-- The size of the array `tree` of `start`. -/
def element : ℕ := 14

/-- The first loop of `start`, which sets up the array at `tree`. The parent word stays as the
stack has it. -/
def setup (tree : ℕ → Addr) (mem : Addr → Tree) : ℕ → Addr → Tree
  | 0 => mem
  | i + 1 =>
    let mem := setup tree mem i
    Function.update mem (tree i)
      { mem (tree i) with data := Int32.ofNat (i * 100), rbLeft := none, rbRight := none }

/-- `start`: set up the array, insert its nodes, look 200 up and print the tree. -/
def start (fuel : ℕ) (tree : ℕ → Addr) (s : State) : Option (ℤ × State) := do
  let s := s.print .start
  let s := { s with mem := setup tree s.mem element }
  let (_, s) ← insertAll fuel s ((List.range element).map tree)
  let searchData := 200
  let t ← search fuel s searchData
  let s := match t with
    | none => s.print (.notFound searchData)
    | some t => s.print (.found (s.data t))
  let s ← print fuel s
  return (0, s)

end Lkb.RedBlackTree
