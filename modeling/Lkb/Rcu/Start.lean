import Lkb.Foundations.CircularList
import Mathlib.Algebra.Group.Nat.Defs
import Mathlib.Data.Int.Notation

/-!
# The function `start` of `rcu/code.c`

`start` statement by statement, for any value of the constant `element`. It allocates the nodes
`val[i]`, adds them to the list at `head_mylist`, and goes through the list five times: it prints
it, replaces the node with data 10 by the static `new_node`, prints it, deletes the node with data
20 and hands it to `call_rcu`, and prints it again. The hidden reads of `list_for_each_entry` are
steps of their own: `first` loads the first entry, `visit` compares the entry with the head, and
`advance` reads the `next` link of the entry it stands on.

A block that `kmalloc` returns is only ever known as `val[i]`, so nodes are named by the index `i`.
A step has no result where the code would follow a poisoned link.
-/

namespace Lkb.Rcu

open CircularList

/-- The constant `element`: a C `int` that is the size of an array. -/
structure Element where
  val : ℕ
  lt : val < 2 ^ 31

/-- The list heads: `head_mylist`, and the field `node` of `*val[i]` and of `new_node`. -/
inductive Node
  | head
  | val (i : ℕ)
  | newNode
  deriving DecidableEq

/-- The five traversals of the list. -/
inductive Loop
  | read0
  | update
  | read1
  | delete
  | read2
  deriving DecidableEq

/-- The points of `start`: the statement that comes next, or the value it has returned. -/
inductive Pc
  | hello
  | fill (i : ℕ)
  | add (i : ℕ)
  | addLink (i : ℕ)
  | addUnlock (i : ℕ)
  | synchronize (l : Loop)
  | clearFlag
  | lockDelete
  | first (l : Loop)
  | visit (l : Loop) (pos : Node)
  | readLock (l : Loop) (pos : Node)
  | print (l : Loop) (pos : Node)
  | testUpdate (pos : Node)
  | setNew (pos : Node)
  | updateLock (pos : Node)
  | replace (pos : Node)
  | updateUnlock (pos : Node)
  | readUnlock (l : Loop) (pos : Node)
  | testDelete (pos : Node)
  | setFlag (pos : Node)
  | delete (pos : Node)
  | deleteUnlock (pos : Node)
  | callRcu (pos : Node)
  | advance (l : Loop) (pos : Node)
  | checkFlag
  | returned (ret : ℤ)
  deriving DecidableEq

/-- The lines that the module prints. -/
inductive Message
  | hello
  | mallocFailed (i : ℕ)
  | value (l : Loop) (data : BitVec 32)
  | deletedOldReference
  | data (data : BitVec 32)
  | goodbye
  deriving DecidableEq

/-- A callback that was registered by `call_rcu`. It is `ready` once `start` has been outside every
read-side section at some point after the registration. -/
structure Callback where
  node : Node
  ready : Bool
  deriving DecidableEq

/-- The state of the module: the memory of the nodes, the locks, and the callbacks. `called` is
every node that was handed to `call_rcu` so far, and `freed` every node that
`destroy_old_structure` has freed. -/
structure State where
  pc : Pc
  data : Node → BitVec 32
  links : Links Node
  allocated : List Node
  freed : List Node
  lock : Bool
  readers : ℕ
  flag : ℤ
  called : List Node
  pending : List Callback
  running : List Node
  ended : Bool
  log : List Message

/-- The data of `*val[i]`, which is `10 * i` in the arithmetic of `int`. -/
def value (i : ℕ) : BitVec 32 := BitVec.ofNat 32 (10 * i)

namespace State

variable (s : State)

/-- Continue at a point. -/
def goto (pc : Pc) : State := { s with pc := pc }

/-- Print a line. -/
def printk (m : Message) : State := { s with log := s.log ++ [m] }

/-- Assign to the field `data` of a node. -/
def setData (x : Node) (v : BitVec 32) : State := { s with data := Function.update s.data x v }

/-- A successful `kmalloc` of `*val[i]`. -/
def kmalloc (x : Node) : State := { s with allocated := x :: s.allocated }

/-- `call_rcu(&x->rcu, destroy_old_structure)`. -/
def callRcu (x : Node) : State :=
  { s with called := s.called ++ [x], pending := s.pending ++ [⟨x, false⟩] }

/-- The callbacks that are pending while `start` is outside every read-side section become ready. -/
def quiesce : State :=
  if s.readers = 0 then { s with pending := s.pending.map fun c => { c with ready := true } } else s

end State

/-- Where a traversal goes on when it has come back to the head. -/
def leave : Loop → Pc
  | .read0 => .synchronize .update
  | .update => .synchronize .read1
  | .read1 => .clearFlag
  | .delete => .checkFlag
  | .read2 => .returned 0

/-- The first statement of the body of a traversal. -/
def enter : Loop → Node → Pc
  | .delete, pos => .testDelete pos
  | l, pos => .readLock l pos

/-- What a traversal does inside its read-side section. -/
def inside : Loop → Node → Pc
  | .update, pos => .testUpdate pos
  | l, pos => .print l pos

/-- One step of `start`; `ok` says whether `kmalloc` finds memory, where the step calls it. -/
def startStep (N : Element) (ok : Bool) (s : State) : Option State :=
  match s.pc with
  | .hello => some ((s.printk .hello).goto (.fill 0))
  | .fill i =>
    if i < N.val then
      if ok then some (((s.kmalloc (.val i)).setData (.val i) (value i)).goto (.fill (i + 1)))
      else some ((s.printk (.mallocFailed i)).goto (.returned (-1)))
    else some (s.goto (.add 0))
  | .add i =>
    if i < N.val then some { s.goto (.addLink i) with lock := true }
    else some (s.goto (.first .read0))
  | .addLink i =>
    (listAddRcu s.links (.val i) .head).map fun m => { s.goto (.addUnlock i) with links := m }
  | .addUnlock i => some { s.goto (.add (i + 1)) with lock := false }
  | .synchronize l => some (s.goto (.first l))
  | .clearFlag => some { s.goto .lockDelete with flag := 0 }
  | .lockDelete => some { s.goto (.first .delete) with lock := true }
  | .first l =>
    match s.links.next .head with
    | .node pos => some (s.goto (.visit l pos))
    | _ => none
  | .visit l pos => if pos = .head then some (s.goto (leave l)) else some (s.goto (enter l pos))
  | .readLock l pos => some { s.goto (inside l pos) with readers := s.readers + 1 }
  | .print l pos => some ((s.printk (.value l (s.data pos))).goto (.readUnlock l pos))
  | .testUpdate pos =>
    if s.data pos = 10 then some (s.goto (.setNew pos)) else some (s.goto (.readUnlock .update pos))
  | .setNew pos => some ((s.setData .newNode 1400).goto (.updateLock pos))
  | .updateLock pos => some { s.goto (.replace pos) with lock := true }
  | .replace pos =>
    (listReplaceRcu s.links pos .newNode).map fun m =>
      { s.goto (.updateUnlock pos) with links := m }
  | .updateUnlock pos => some { s.goto (.readUnlock .update pos) with lock := false }
  | .readUnlock l pos => some { s.goto (.advance l pos) with readers := s.readers - 1 }
  | .testDelete pos =>
    if s.data pos = 20 then some (s.goto (.setFlag pos)) else some (s.goto (.advance .delete pos))
  | .setFlag pos => some { s.goto (.delete pos) with flag := 1 }
  | .delete pos =>
    (listDelRcu s.links pos).map fun m => { s.goto (.deleteUnlock pos) with links := m }
  | .deleteUnlock pos => some { s.goto (.callRcu pos) with lock := false }
  | .callRcu pos => some ((s.callRcu pos).goto (.advance .delete pos))
  | .advance l pos =>
    match s.links.next pos with
    | .node next => some (s.goto (.visit l next))
    | _ => none
  | .checkFlag => some { s.goto (.first .read2) with lock := if s.flag = 0 then false else s.lock }
  | .returned _ => none

/-- What a step of `start` can do, one case for each way on from each point. -/
inductive Moves (N : Element) (ok : Bool) (s : State) : State → Prop
  | hello (hpc : s.pc = .hello) : Moves N ok s ((s.printk .hello).goto (.fill 0))
  | kmalloc {i : ℕ} (hpc : s.pc = .fill i) (hi : i < N.val) :
    Moves N ok s (((s.kmalloc (.val i)).setData (.val i) (value i)).goto (.fill (i + 1)))
  | mallocFailed {i : ℕ} (hpc : s.pc = .fill i) (hi : i < N.val) (hok : ok = false) :
    Moves N ok s ((s.printk (.mallocFailed i)).goto (.returned (-1)))
  | filled {i : ℕ} (hpc : s.pc = .fill i) (hi : ¬i < N.val) : Moves N ok s (s.goto (.add 0))
  | addLock {i : ℕ} (hpc : s.pc = .add i) (hi : i < N.val) :
    Moves N ok s { s.goto (.addLink i) with lock := true }
  | added {i : ℕ} (hpc : s.pc = .add i) (hi : ¬i < N.val) : Moves N ok s (s.goto (.first .read0))
  | addLink {i : ℕ} {m : Links Node} (hpc : s.pc = .addLink i)
    (hm : listAddRcu s.links (.val i) .head = some m) :
    Moves N ok s { s.goto (.addUnlock i) with links := m }
  | addUnlock {i : ℕ} (hpc : s.pc = .addUnlock i) :
    Moves N ok s { s.goto (.add (i + 1)) with lock := false }
  | synchronize {l : Loop} (hpc : s.pc = .synchronize l) : Moves N ok s (s.goto (.first l))
  | clearFlag (hpc : s.pc = .clearFlag) : Moves N ok s { s.goto .lockDelete with flag := 0 }
  | lockDelete (hpc : s.pc = .lockDelete) :
    Moves N ok s { s.goto (.first .delete) with lock := true }
  | first {l : Loop} {pos : Node} (hpc : s.pc = .first l) (hnext : s.links.next .head = .node pos) :
    Moves N ok s (s.goto (.visit l pos))
  | leave {l : Loop} (hpc : s.pc = .visit l .head) : Moves N ok s (s.goto (leave l))
  | enter {l : Loop} {pos : Node} (hpc : s.pc = .visit l pos) (hpos : pos ≠ .head) :
    Moves N ok s (s.goto (enter l pos))
  | readLock {l : Loop} {pos : Node} (hpc : s.pc = .readLock l pos) :
    Moves N ok s { s.goto (inside l pos) with readers := s.readers + 1 }
  | print {l : Loop} {pos : Node} (hpc : s.pc = .print l pos) :
    Moves N ok s ((s.printk (.value l (s.data pos))).goto (.readUnlock l pos))
  | update {pos : Node} (hpc : s.pc = .testUpdate pos) (hdata : s.data pos = 10) :
    Moves N ok s (s.goto (.setNew pos))
  | noUpdate {pos : Node} (hpc : s.pc = .testUpdate pos) (hdata : s.data pos ≠ 10) :
    Moves N ok s (s.goto (.readUnlock .update pos))
  | setNew {pos : Node} (hpc : s.pc = .setNew pos) :
    Moves N ok s ((s.setData .newNode 1400).goto (.updateLock pos))
  | updateLock {pos : Node} (hpc : s.pc = .updateLock pos) :
    Moves N ok s { s.goto (.replace pos) with lock := true }
  | replace {pos : Node} {m : Links Node} (hpc : s.pc = .replace pos)
    (hm : listReplaceRcu s.links pos .newNode = some m) :
    Moves N ok s { s.goto (.updateUnlock pos) with links := m }
  | updateUnlock {pos : Node} (hpc : s.pc = .updateUnlock pos) :
    Moves N ok s { s.goto (.readUnlock .update pos) with lock := false }
  | readUnlock {l : Loop} {pos : Node} (hpc : s.pc = .readUnlock l pos) :
    Moves N ok s { s.goto (.advance l pos) with readers := s.readers - 1 }
  | match20 {pos : Node} (hpc : s.pc = .testDelete pos) (hdata : s.data pos = 20) :
    Moves N ok s (s.goto (.setFlag pos))
  | noMatch {pos : Node} (hpc : s.pc = .testDelete pos) (hdata : s.data pos ≠ 20) :
    Moves N ok s (s.goto (.advance .delete pos))
  | setFlag {pos : Node} (hpc : s.pc = .setFlag pos) :
    Moves N ok s { s.goto (.delete pos) with flag := 1 }
  | delete {pos : Node} {m : Links Node} (hpc : s.pc = .delete pos)
    (hm : listDelRcu s.links pos = some m) :
    Moves N ok s { s.goto (.deleteUnlock pos) with links := m }
  | deleteUnlock {pos : Node} (hpc : s.pc = .deleteUnlock pos) :
    Moves N ok s { s.goto (.callRcu pos) with lock := false }
  | callRcu {pos : Node} (hpc : s.pc = .callRcu pos) :
    Moves N ok s ((s.callRcu pos).goto (.advance .delete pos))
  | advance {l : Loop} {pos next : Node} (hpc : s.pc = .advance l pos)
    (hnext : s.links.next pos = .node next) : Moves N ok s (s.goto (.visit l next))
  | checkFlag (hpc : s.pc = .checkFlag) :
    Moves N ok s { s.goto (.first .read2) with lock := if s.flag = 0 then false else s.lock }

/-- **The steps of `start`.** -/
theorem startStep_moves {N : Element} {ok : Bool} {s s' : State}
    (hs : startStep N ok s = some s') : Moves N ok s s' := by
  unfold startStep at hs
  cases hpc : s.pc with
  | fill i =>
    simp only [hpc] at hs
    split_ifs at hs with hi hok
    · cases hs
      exact .kmalloc hpc hi
    · cases hs
      exact .mallocFailed hpc hi (by simpa using hok)
    · cases hs
      exact .filled hpc hi
  | add i =>
    simp only [hpc] at hs
    split_ifs at hs with hi
    · cases hs
      exact .addLock hpc hi
    · cases hs
      exact .added hpc hi
  | addLink i =>
    simp only [hpc, Option.map_eq_some_iff] at hs
    obtain ⟨m, hm, rfl⟩ := hs
    exact .addLink hpc hm
  | first l =>
    simp only [hpc] at hs
    split at hs
    next pos hnext =>
      cases hs
      exact .first hpc hnext
    next => cases hs
  | visit l pos =>
    simp only [hpc] at hs
    split_ifs at hs with hhead
    · cases hs
      exact .leave (hhead ▸ hpc)
    · cases hs
      exact .enter hpc hhead
  | testUpdate pos =>
    simp only [hpc] at hs
    split_ifs at hs with hdata
    · cases hs
      exact .update hpc hdata
    · cases hs
      exact .noUpdate hpc hdata
  | replace pos =>
    simp only [hpc, Option.map_eq_some_iff] at hs
    obtain ⟨m, hm, rfl⟩ := hs
    exact .replace hpc hm
  | testDelete pos =>
    simp only [hpc] at hs
    split_ifs at hs with hdata
    · cases hs
      exact .match20 hpc hdata
    · cases hs
      exact .noMatch hpc hdata
  | delete pos =>
    simp only [hpc, Option.map_eq_some_iff] at hs
    obtain ⟨m, hm, rfl⟩ := hs
    exact .delete hpc hm
  | advance l pos =>
    simp only [hpc] at hs
    split at hs
    next next hnext =>
      cases hs
      exact .advance hpc hnext
    next => cases hs
  | returned ret =>
    rw [hpc] at hs
    cases hs
  | _ =>
    rw [hpc] at hs
    cases hs
    constructor
    exact hpc

/-- The nodes that a link points to. -/
def pointee : Link Node → List Node
  | .node x => [x]
  | _ => []

/-- The nodes whose memory the next step of `start` works on, the neighbours that a list operation
relinks included. -/
def State.touches (s : State) : List Node :=
  match s.pc with
  | .addLink i => [.val i, .head] ++ pointee (s.links.next .head)
  | .first _ => [.head]
  | .print _ pos | .testUpdate pos | .testDelete pos | .callRcu pos | .advance _ pos => [pos]
  | .fill i => [.val i]
  | .setNew _ => [.newNode]
  | .replace pos => [pos, .newNode] ++ pointee (s.links.prev pos) ++ pointee (s.links.next pos)
  | .delete pos => [pos] ++ pointee (s.links.prev pos) ++ pointee (s.links.next pos)
  | _ => []

end Lkb.Rcu
