import Lkb.Foundations.CircularList
import Lkb.Foundations.Run
import Mathlib.Data.Int.Notation

/-!
# The module `thread01`

`km_init` of `thread01/code.c`, for any value of the constant `ELEMENTS`, allocates the work
structures `g_work[i]` and creates a kernel thread for each, adds them to the list at `gwl`, and
goes through the list to wake the threads up. Every thread runs `mfoo` until it is told to stop.
`km_exit` goes through the same list, stops one thread after the other, and frees the work
structures.

One process runs `km_init` and later `km_exit`, statement by statement; the threads run interleaved
with it. What the kernel does here is part of the model: a thread that was created does not run
before it is woken up, it then returns at once when it should stop already, and `kthread_stop` sets
the flag of the thread, wakes it up and waits until it has exited. What `kmalloc` and
`kthread_create` answer is part of the event.

A block that `kmalloc` returns is only ever known as `g_work[i]`, so the blocks are named by the
index `i`; the threads are named by the order in which they were created.
-/

namespace Lkb.Thread01

open CircularList

/-- The error number of a thread that was told to stop before it ran. -/
def EINTR : ℤ := 4

/-- The list heads: `gwl`, and the field `list` of `*g_work[i]`. -/
inductive Node
  | head
  | work (i : ℕ)
  deriving DecidableEq

/-- The points of a kernel thread: `ready` is before the call of `mfoo`, and the others are the
statements of `mfoo`. -/
inductive ThreadPc
  | notCreated
  | created
  | ready
  | shouldStop
  | prInfo
  | msleep
  | leave
  | exited (ret : ℤ)
  deriving DecidableEq

/-- A kernel thread, with its flag `KTHREAD_SHOULD_STOP`. -/
structure Thread where
  pc : ThreadPc
  stop : Bool
  deriving DecidableEq

/-- The lines that the module prints. -/
inductive Message
  | kmallocFailed (i : ℕ)
  | kthreadFailed (i : ℕ)
  | allTaskCreated
  | data (i : ℕ)
  | bar
  | running
  | threadStopped (i : ℕ)
  | goodbye
  deriving DecidableEq

/-- The two traversals of the list, in `start_mythread` and in `km_exit`. -/
inductive Loop
  | wake
  | stop
  deriving DecidableEq

/-- The points of `km_init` and `km_exit`. Inside a loop over the list, a point carries the index of
the entry `work`; `waitExit` is the wait inside `kthread_stop`, for the thread `t`. -/
inductive Pc
  | kmalloc (i : ℕ)
  | kthreadCreate (i : ℕ)
  | allCreated
  | initListHead
  | listAdd (i : ℕ)
  | first (l : Loop)
  | visit (l : Loop) (pos : Node)
  | data (i : ℕ)
  | wakeUp (i : ℕ)
  | msleep (i : ℕ)
  | kthreadStop (i : ℕ)
  | waitExit (i t : ℕ)
  | stopped (i : ℕ) (ret : ℤ)
  | advance (l : Loop) (i : ℕ)
  | bar
  | returned (ret : ℤ)
  | kfree (i : ℕ)
  | goodbye
  | unloaded
  deriving DecidableEq

/-- The state of the module. `task i` is the thread that `g_work[i]->task` points to, `created` is
how many threads were created, and `i` is the counter of `start_mythread` and of `km_exit`. `stops`
is every thread that `kthread_stop` was called for, and `frees` every index whose `g_work[i]` was
given to `kfree`, both in the order of the calls. -/
structure State where
  pc : Pc
  links : Links Node
  task : ℕ → ℕ
  allocated : List ℕ
  created : ℕ
  threads : ℕ → Thread
  i : ℕ
  stops : List ℕ
  frees : List ℕ
  log : List Message

/-- A step of the process that loads and unloads the module, with what the kernel answers; the call
of `km_exit`; or a step of a thread. -/
inductive Event
  | main (ok : Bool)
  | rmmod
  | thread (t : ℕ)
  deriving DecidableEq

namespace Thread

/-- The next step of a thread. A thread that was not woken up takes none. -/
def step (t : Thread) : Option Thread :=
  match t.pc with
  | .notCreated | .created => none
  | .ready => some { t with pc := if t.stop then .exited (-EINTR) else .shouldStop }
  | .shouldStop => some { t with pc := if t.stop then .leave else .prInfo }
  | .prInfo => some { t with pc := .msleep }
  | .msleep => some { t with pc := .shouldStop }
  | .leave => some { t with pc := .exited 0 }
  | .exited _ => none

/-- The lines that the next step of a thread prints. -/
def prints (t : Thread) : List Message :=
  match t.pc with
  | .prInfo => [.running]
  | _ => []

/-- `wake_up_process`. -/
def wakeUp (t : Thread) : Thread := if t.pc = .created then { t with pc := .ready } else t

end Thread

namespace State

variable (s : State)

/-- Continue at a point. -/
def goto (pc : Pc) : State := { s with pc := pc }

/-- Print a line. -/
def printk (m : Message) : State := { s with log := s.log ++ [m] }

/-- A change of the thread `t`. -/
def setThread (t : ℕ) (th : Thread) : State := { s with threads := Function.update s.threads t th }

/-- A successful `g_work[i] = kmalloc(...)`. -/
def kmalloc (i : ℕ) : State := { s with allocated := i :: s.allocated }

/-- A successful `g_work[i]->task = kthread_create(mfoo, ...)`. -/
def kthreadCreate (i : ℕ) : State :=
  { s.setThread s.created ⟨.created, false⟩ with
    task := Function.update s.task i s.created, created := s.created + 1 }

/-- `wake_up_process(t)`. -/
def wakeUpProcess (t : ℕ) : State := s.setThread t (s.threads t).wakeUp

/-- `kthread_stop(t)`, up to its wait. -/
def kthreadStop (t : ℕ) : State :=
  { s.setThread t ({ s.threads t with stop := true } : Thread).wakeUp with
    stops := s.stops ++ [t] }

/-- `kfree(g_work[i])`. -/
def kfree (i : ℕ) : State :=
  { s with allocated := s.allocated.erase i, frees := s.frees ++ [i] }

end State

/-- Where a traversal goes on when it has come back to the head. -/
def leave : Loop → Pc
  | .wake => .bar
  | .stop => .kfree 0

/-- The first statement of the body of a traversal. -/
def enter : Loop → ℕ → Pc
  | .wake, i => .data i
  | .stop, i => .msleep i

/-- One statement of `km_init`, of `start_mythread` or of `km_exit`; `ok` says whether `kmalloc`
finds memory and whether `kthread_create` creates a thread, where the step calls them. -/
def mainStep (N : ℕ) (ok : Bool) (s : State) : Option State :=
  match s.pc with
  | .kmalloc i =>
    if i < N then
      if ok then some ((s.kmalloc i).goto (.kthreadCreate i))
      else some ((s.printk (.kmallocFailed i)).goto (.returned (-1)))
    else some (s.goto .allCreated)
  | .kthreadCreate i =>
    if ok then some ((s.kthreadCreate i).goto (.kmalloc (i + 1)))
    else some ((s.printk (.kthreadFailed i)).goto (.returned (-1)))
  | .allCreated => some ((s.printk .allTaskCreated).goto .initListHead)
  | .initListHead => some { s.goto (.listAdd 0) with links := initListHead s.links .head }
  | .listAdd i =>
    if i < N then
      (listAdd s.links (.work i) .head).map fun m => { s.goto (.listAdd (i + 1)) with links := m }
    else some { s.goto (.first .wake) with i := 0 }
  | .first l =>
    match s.links.next .head with
    | .node pos => some (s.goto (.visit l pos))
    | _ => none
  | .visit l .head => some (s.goto (leave l))
  | .visit l (.work i) => some (s.goto (enter l i))
  | .data i => some { (s.printk (.data s.i)).goto (.wakeUp i) with i := s.i + 1 }
  | .wakeUp i => some ((s.wakeUpProcess (s.task i)).goto (.advance .wake i))
  | .msleep i => some (s.goto (.kthreadStop i))
  | .kthreadStop i => some ((s.kthreadStop (s.task i)).goto (.waitExit i (s.task i)))
  | .waitExit i t =>
    match (s.threads t).pc with
    | .exited ret => some (s.goto (.stopped i ret))
    | _ => none
  | .stopped i ret =>
    if ret = 0 then
      some { (s.printk (.threadStopped s.i)).goto (.advance .stop i) with i := s.i + 1 }
    else some (s.goto (.advance .stop i))
  | .advance l i =>
    match s.links.next (.work i) with
    | .node next => some (s.goto (.visit l next))
    | _ => none
  | .bar => some ((s.printk .bar).goto (.returned 0))
  | .returned _ => none
  | .kfree i => if i < N then some ((s.kfree i).goto (.kfree (i + 1))) else some (s.goto .goodbye)
  | .goodbye => some ((s.printk .goodbye).goto .unloaded)
  | .unloaded => none

/-- A step of the thread `t`. -/
def threadStep (t : ℕ) (s : State) : Option State :=
  (s.threads t).step.map fun th => { s.setThread t th with log := s.log ++ (s.threads t).prints }

/-- One step of the module. `km_exit` is called at any time after `km_init` has returned 0. -/
def step (N : ℕ) (s : State) : Event → Option State
  | .main ok => mainStep N ok s
  | .rmmod => if s.pc = .returned 0 then some { s.goto (.first .stop) with i := 0 } else none
  | .thread t => threadStep t s

/-- The state when `km_init` is called, with the memory of the list heads as it is. -/
def load (links : Links Node) : State where
  pc := .kmalloc 0
  links := links
  task := fun _ => 0
  allocated := []
  created := 0
  threads := fun _ => ⟨.notCreated, false⟩
  i := 0
  stops := []
  frees := []
  log := []

/-! ## The steps -/

/-- The steps of `km_init`, `start_mythread` and `km_exit`, each with the condition that the source
checks. -/
inductive Moves (N : ℕ) (ok : Bool) (s : State) : State → Prop
  | kmalloc {i : ℕ} (hpc : s.pc = .kmalloc i) (hi : i < N) :
    Moves N ok s ((s.kmalloc i).goto (.kthreadCreate i))
  | kmallocFailed {i : ℕ} (hpc : s.pc = .kmalloc i) (hi : i < N) (hok : ok = false) :
    Moves N ok s ((s.printk (.kmallocFailed i)).goto (.returned (-1)))
  | filled {i : ℕ} (hpc : s.pc = .kmalloc i) (hi : ¬i < N) : Moves N ok s (s.goto .allCreated)
  | kthreadCreate {i : ℕ} (hpc : s.pc = .kthreadCreate i) :
    Moves N ok s ((s.kthreadCreate i).goto (.kmalloc (i + 1)))
  | kthreadFailed {i : ℕ} (hpc : s.pc = .kthreadCreate i) (hok : ok = false) :
    Moves N ok s ((s.printk (.kthreadFailed i)).goto (.returned (-1)))
  | allCreated (hpc : s.pc = .allCreated) :
    Moves N ok s ((s.printk .allTaskCreated).goto .initListHead)
  | initListHead (hpc : s.pc = .initListHead) :
    Moves N ok s { s.goto (.listAdd 0) with links := initListHead s.links .head }
  | listAdd {i : ℕ} {m : Links Node} (hpc : s.pc = .listAdd i) (hi : i < N)
    (hm : listAdd s.links (.work i) .head = some m) :
    Moves N ok s { s.goto (.listAdd (i + 1)) with links := m }
  | added {i : ℕ} (hpc : s.pc = .listAdd i) (hi : ¬i < N) :
    Moves N ok s { s.goto (.first .wake) with i := 0 }
  | first {l : Loop} {pos : Node} (hpc : s.pc = .first l) (hnext : s.links.next .head = .node pos) :
    Moves N ok s (s.goto (.visit l pos))
  | leave {l : Loop} (hpc : s.pc = .visit l .head) : Moves N ok s (s.goto (leave l))
  | enter {l : Loop} {i : ℕ} (hpc : s.pc = .visit l (.work i)) : Moves N ok s (s.goto (enter l i))
  | data {i : ℕ} (hpc : s.pc = .data i) :
    Moves N ok s { (s.printk (.data s.i)).goto (.wakeUp i) with i := s.i + 1 }
  | wakeUp {i : ℕ} (hpc : s.pc = .wakeUp i) :
    Moves N ok s ((s.wakeUpProcess (s.task i)).goto (.advance .wake i))
  | msleep {i : ℕ} (hpc : s.pc = .msleep i) : Moves N ok s (s.goto (.kthreadStop i))
  | kthreadStop {i : ℕ} (hpc : s.pc = .kthreadStop i) :
    Moves N ok s ((s.kthreadStop (s.task i)).goto (.waitExit i (s.task i)))
  | waitExit {i t : ℕ} {ret : ℤ} (hpc : s.pc = .waitExit i t)
    (hret : (s.threads t).pc = .exited ret) : Moves N ok s (s.goto (.stopped i ret))
  | stopped {i : ℕ} (hpc : s.pc = .stopped i 0) :
    Moves N ok s { (s.printk (.threadStopped s.i)).goto (.advance .stop i) with i := s.i + 1 }
  | notRun {i : ℕ} {ret : ℤ} (hpc : s.pc = .stopped i ret) (hret : ret ≠ 0) :
    Moves N ok s (s.goto (.advance .stop i))
  | advance {l : Loop} {i : ℕ} {next : Node} (hpc : s.pc = .advance l i)
    (hnext : s.links.next (.work i) = .node next) : Moves N ok s (s.goto (.visit l next))
  | bar (hpc : s.pc = .bar) : Moves N ok s ((s.printk .bar).goto (.returned 0))
  | kfree {i : ℕ} (hpc : s.pc = .kfree i) (hi : i < N) :
    Moves N ok s ((s.kfree i).goto (.kfree (i + 1)))
  | freed {i : ℕ} (hpc : s.pc = .kfree i) (hi : ¬i < N) : Moves N ok s (s.goto .goodbye)
  | goodbye (hpc : s.pc = .goodbye) : Moves N ok s ((s.printk .goodbye).goto .unloaded)

/-- **The steps of `km_init` and `km_exit`.** -/
theorem mainStep_moves {N : ℕ} {ok : Bool} {s s' : State} (hs : mainStep N ok s = some s') :
    Moves N ok s s' := by
  unfold mainStep at hs
  cases hpc : s.pc with
  | kmalloc i =>
    simp only [hpc] at hs
    split_ifs at hs with hi hok
    · cases hs
      exact .kmalloc hpc hi
    · cases hs
      exact .kmallocFailed hpc hi (by simpa using hok)
    · cases hs
      exact .filled hpc hi
  | kthreadCreate i =>
    simp only [hpc] at hs
    split_ifs at hs with hok
    · cases hs
      exact .kthreadCreate hpc
    · cases hs
      exact .kthreadFailed hpc (by simpa using hok)
  | allCreated =>
    rw [hpc] at hs
    cases hs
    exact .allCreated hpc
  | initListHead =>
    rw [hpc] at hs
    cases hs
    exact .initListHead hpc
  | listAdd i =>
    simp only [hpc] at hs
    split_ifs at hs with hi
    · obtain ⟨m, hm, rfl⟩ := Option.map_eq_some_iff.1 hs
      exact .listAdd hpc hi hm
    · cases hs
      exact .added hpc hi
  | first l =>
    simp only [hpc] at hs
    split at hs
    next pos hnext =>
      cases hs
      exact .first hpc hnext
    next => cases hs
  | visit l pos =>
    rw [hpc] at hs
    cases pos with
    | head =>
      cases hs
      exact .leave hpc
    | work i =>
      cases hs
      exact .enter hpc
  | data i =>
    rw [hpc] at hs
    cases hs
    exact .data hpc
  | wakeUp i =>
    rw [hpc] at hs
    cases hs
    exact .wakeUp hpc
  | msleep i =>
    rw [hpc] at hs
    cases hs
    exact .msleep hpc
  | kthreadStop i =>
    rw [hpc] at hs
    cases hs
    exact .kthreadStop hpc
  | waitExit i t =>
    simp only [hpc] at hs
    split at hs
    next ret hret =>
      cases hs
      exact .waitExit hpc hret
    next => cases hs
  | stopped i ret =>
    simp only [hpc] at hs
    split_ifs at hs with hret
    · cases hs
      subst hret
      exact .stopped hpc
    · cases hs
      exact .notRun hpc hret
  | advance l i =>
    simp only [hpc] at hs
    split at hs
    next next hnext =>
      cases hs
      exact .advance hpc hnext
    next => cases hs
  | bar =>
    rw [hpc] at hs
    cases hs
    exact .bar hpc
  | returned ret | unloaded =>
    rw [hpc] at hs
    cases hs
  | kfree i =>
    simp only [hpc] at hs
    split_ifs at hs with hi
    · cases hs
      exact .kfree hpc hi
    · cases hs
      exact .freed hpc hi
  | goodbye =>
    rw [hpc] at hs
    cases hs
    exact .goodbye hpc

end Lkb.Thread01
