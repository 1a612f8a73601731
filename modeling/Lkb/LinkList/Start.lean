import Lkb.Foundations.CircularList
import Lkb.Foundations.Run
import Mathlib.Data.Int.Notation

/-!
# The module `link_list`

`start` of `link_list/code.c`, statement by statement, with any bound `N` in the place of the 5 of
its loops and of its sequence of calls of `list_add`. It allocates the structures `fvar[i]`, adds
them at the front of the list at `mylist`, adds the local variable `temp` at the end, takes `temp`
and `fvar[0]` off the list again, and frees the structures. `print_list` is called three times.

Nothing else uses the list, so a run is what `kmalloc` answers, step by step. A step has no result
where the code would use a poisoned link or a structure that is not allocated.
-/

namespace Lkb.LinkList

open CircularList

/-- The list heads: `mylist`, and the field `list` of `*fvar[i]` and of `temp`. -/
inductive Node
  | mylist
  | fvar (i : ℕ)
  | temp
  deriving DecidableEq

/-- The three calls of `print_list`. -/
inductive Call
  | added
  | appended
  | deleted
  deriving DecidableEq

/-- The points of `start`: the statement that comes next, or the value it has returned. Inside
`print_list`, a point carries the entry `f` of the loop. -/
inductive Pc
  | initListHead
  | kmalloc (i : ℕ)
  | listAdd (i : ℕ)
  | first (c : Call)
  | visit (c : Call) (f : Node)
  | advance (c : Call) (f : Node)
  | bar (c : Call)
  | setTemp
  | addTemp
  | delTemp
  | delFirst
  | kfree (i : ℕ)
  | returned (ret : ℤ)
  deriving DecidableEq

/-- The lines that the module prints. -/
inductive Message
  | kmallocFailed (i : ℕ)
  | data (a : BitVec 32)
  | bar
  deriving DecidableEq

/-- The state of the module: the field `a` and the links of the nodes, and the indices `i` of the
structures `*fvar[i]` that are allocated. -/
structure State where
  pc : Pc
  a : Node → BitVec 32
  links : Links Node
  allocated : List ℕ
  log : List Message

/-- The value of `fvar[i]->a`, which is `i * 100` in the arithmetic of `int`. -/
def value (i : ℕ) : BitVec 32 := BitVec.ofNat 32 (i * 100)

namespace State

variable (s : State)

/-- Continue at a point. -/
def goto (pc : Pc) : State := { s with pc := pc }

/-- Print a line. -/
def prInfo (m : Message) : State := { s with log := s.log ++ [m] }

/-- Assign to the field `a` of a node. -/
def setA (x : Node) (v : BitVec 32) : State := { s with a := Function.update s.a x v }

/-- A successful `fvar[i] = kmalloc(...)`. -/
def kmalloc (i : ℕ) : State := { s with allocated := i :: s.allocated }

/-- `kfree(fvar[i])`. -/
def kfree (i : ℕ) : State := { s with allocated := s.allocated.erase i }

end State

/-- Where `start` goes on after each call of `print_list`. -/
def leave : Call → Pc
  | .added => .setTemp
  | .appended => .delTemp
  | .deleted => .kfree 0

/-- One step of `start`; `ok` says whether `kmalloc` finds memory, where the step calls it. -/
def step (N : ℕ) (s : State) (ok : Bool) : Option State :=
  match s.pc with
  | .initListHead => some { s.goto (.kmalloc 0) with links := initListHead s.links .mylist }
  | .kmalloc i =>
    if i < N then
      if ok then some (((s.kmalloc i).setA (.fvar i) (value i)).goto (.kmalloc (i + 1)))
      else some ((s.prInfo (.kmallocFailed i)).goto (.returned (-1)))
    else some (s.goto (.listAdd 0))
  | .listAdd i =>
    if i < N then
      (listAdd s.links (.fvar i) .mylist).map fun m =>
        { s.goto (.listAdd (i + 1)) with links := m }
    else some (s.goto (.first .added))
  | .first c =>
    match s.links.next .mylist with
    | .node f => some (s.goto (.visit c f))
    | _ => none
  | .visit c f =>
    if f = .mylist then some (s.goto (.bar c))
    else some ((s.prInfo (.data (s.a f))).goto (.advance c f))
  | .advance c f =>
    match s.links.next f with
    | .node next => some (s.goto (.visit c next))
    | _ => none
  | .bar c => some ((s.prInfo .bar).goto (leave c))
  | .setTemp => some ((s.setA .temp 1400).goto .addTemp)
  | .addTemp =>
    (listAddTail s.links .temp .mylist).map fun m => { s.goto (.first .appended) with links := m }
  | .delTemp => (listDel s.links .temp).map fun m => { s.goto .delFirst with links := m }
  | .delFirst =>
    if 0 ∈ s.allocated then
      (listDel s.links (.fvar 0)).map fun m => { s.goto (.first .deleted) with links := m }
    else none
  | .kfree i =>
    if i < N then some ((s.kfree i).goto (.kfree (i + 1))) else some (s.goto (.returned 0))
  | .returned _ => none

/-- The state when `start` is called, with the memory of the nodes as it is. -/
def load (a : Node → BitVec 32) (links : Links Node) : State := ⟨.initListHead, a, links, [], []⟩

/-! ## The steps -/

/-- The steps of `start`, each with the condition that the source checks. -/
inductive Moves (N : ℕ) (ok : Bool) (s : State) : State → Prop
  | initListHead (hpc : s.pc = .initListHead) :
    Moves N ok s { s.goto (.kmalloc 0) with links := initListHead s.links .mylist }
  | kmalloc {i : ℕ} (hpc : s.pc = .kmalloc i) (hi : i < N) :
    Moves N ok s (((s.kmalloc i).setA (.fvar i) (value i)).goto (.kmalloc (i + 1)))
  | kmallocFailed {i : ℕ} (hpc : s.pc = .kmalloc i) (hi : i < N) (hok : ok = false) :
    Moves N ok s ((s.prInfo (.kmallocFailed i)).goto (.returned (-1)))
  | filled {i : ℕ} (hpc : s.pc = .kmalloc i) (hi : ¬i < N) : Moves N ok s (s.goto (.listAdd 0))
  | listAdd {i : ℕ} {m : Links Node} (hpc : s.pc = .listAdd i) (hi : i < N)
    (hm : listAdd s.links (.fvar i) .mylist = some m) :
    Moves N ok s { s.goto (.listAdd (i + 1)) with links := m }
  | added {i : ℕ} (hpc : s.pc = .listAdd i) (hi : ¬i < N) : Moves N ok s (s.goto (.first .added))
  | first {c : Call} {f : Node} (hpc : s.pc = .first c) (hnext : s.links.next .mylist = .node f) :
    Moves N ok s (s.goto (.visit c f))
  | last {c : Call} (hpc : s.pc = .visit c .mylist) : Moves N ok s (s.goto (.bar c))
  | data {c : Call} {f : Node} (hpc : s.pc = .visit c f) (hf : f ≠ .mylist) :
    Moves N ok s ((s.prInfo (.data (s.a f))).goto (.advance c f))
  | advance {c : Call} {f next : Node} (hpc : s.pc = .advance c f)
    (hnext : s.links.next f = .node next) : Moves N ok s (s.goto (.visit c next))
  | bar {c : Call} (hpc : s.pc = .bar c) : Moves N ok s ((s.prInfo .bar).goto (leave c))
  | setTemp (hpc : s.pc = .setTemp) : Moves N ok s ((s.setA .temp 1400).goto .addTemp)
  | addTemp {m : Links Node} (hpc : s.pc = .addTemp)
    (hm : listAddTail s.links .temp .mylist = some m) :
    Moves N ok s { s.goto (.first .appended) with links := m }
  | delTemp {m : Links Node} (hpc : s.pc = .delTemp) (hm : listDel s.links .temp = some m) :
    Moves N ok s { s.goto .delFirst with links := m }
  | delFirst {m : Links Node} (hpc : s.pc = .delFirst) (hmem : 0 ∈ s.allocated)
    (hm : listDel s.links (.fvar 0) = some m) :
    Moves N ok s { s.goto (.first .deleted) with links := m }
  | kfree {i : ℕ} (hpc : s.pc = .kfree i) (hi : i < N) :
    Moves N ok s ((s.kfree i).goto (.kfree (i + 1)))
  | freed {i : ℕ} (hpc : s.pc = .kfree i) (hi : ¬i < N) : Moves N ok s (s.goto (.returned 0))

/-- **The steps of `start`.** -/
theorem step_moves {N : ℕ} {ok : Bool} {s s' : State} (hs : step N s ok = some s') :
    Moves N ok s s' := by
  unfold step at hs
  cases hpc : s.pc with
  | initListHead =>
    rw [hpc] at hs
    cases hs
    exact .initListHead hpc
  | kmalloc i =>
    simp only [hpc] at hs
    split_ifs at hs with hi hok
    · cases hs
      exact .kmalloc hpc hi
    · cases hs
      exact .kmallocFailed hpc hi (by simpa using hok)
    · cases hs
      exact .filled hpc hi
  | listAdd i =>
    simp only [hpc] at hs
    split_ifs at hs with hi
    · obtain ⟨m, hm, rfl⟩ := Option.map_eq_some_iff.1 hs
      exact .listAdd hpc hi hm
    · cases hs
      exact .added hpc hi
  | first c =>
    simp only [hpc] at hs
    split at hs
    next f hnext =>
      cases hs
      exact .first hpc hnext
    next => cases hs
  | visit c f =>
    simp only [hpc] at hs
    split_ifs at hs with hf
    · cases hs
      subst hf
      exact .last hpc
    · cases hs
      exact .data hpc hf
  | advance c f =>
    simp only [hpc] at hs
    split at hs
    next next hnext =>
      cases hs
      exact .advance hpc hnext
    next => cases hs
  | bar c =>
    rw [hpc] at hs
    cases hs
    exact .bar hpc
  | setTemp =>
    rw [hpc] at hs
    cases hs
    exact .setTemp hpc
  | addTemp =>
    simp only [hpc] at hs
    obtain ⟨m, hm, rfl⟩ := Option.map_eq_some_iff.1 hs
    exact .addTemp hpc hm
  | delTemp =>
    simp only [hpc] at hs
    obtain ⟨m, hm, rfl⟩ := Option.map_eq_some_iff.1 hs
    exact .delTemp hpc hm
  | delFirst =>
    simp only [hpc] at hs
    split_ifs at hs with hmem
    obtain ⟨m, hm, rfl⟩ := Option.map_eq_some_iff.1 hs
    exact .delFirst hpc hmem hm
  | kfree i =>
    simp only [hpc] at hs
    split_ifs at hs with hi
    · cases hs
      exact .kfree hpc hi
    · cases hs
      exact .freed hpc hi
  | returned ret =>
    rw [hpc] at hs
    cases hs

end Lkb.LinkList
