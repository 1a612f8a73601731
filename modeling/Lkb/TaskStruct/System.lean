import Lkb.Foundations.CircularList
import Lkb.Foundations.Run
import Mathlib.Data.Int.Notation

/-!
# The module `task_struct`

`start` of `task_struct/code.c` goes through the list of all processes with `for_each_process` and
prints the name and the pid of each one. The list is not its own: while it is on its way, processes
fork, exit, and call `exec` from a thread that is not the leader, which puts another `task_struct`
in the place of the one on the list. The kernel does all three with the `_rcu` operations on lists,
and frees a `task_struct` that was taken off the list only after a grace period.

`start` does not call `rcu_read_lock`. In a kernel without preemption this makes no difference: a
grace period does not end while `start` is in its loop, which never sleeps. In a preemptible kernel
it may end there.

The processes are numbered in the order in which they were forked. A `task_struct` is given by the
process and by how often it was replaced before, so no name is used twice.
-/

namespace Lkb.TaskStruct

open CircularList

/-- A `task_struct` on the list of processes: `init_task`, which is the head of the list, or one of
a process. -/
inductive Task
  | initTask
  | leader (process generation : ℕ)
  deriving DecidableEq

/-- The number of the process. -/
def Task.process : Task → ℕ
  | .initTask => 0
  | .leader p _ => p

/-- How often the `task_struct` of the process was replaced before. -/
def Task.generation : Task → ℕ
  | .initTask => 0
  | .leader _ g => g

/-- The points of `start`. In the loop, a point carries `task`: `next` is before the evaluation of
`next_task(task)`, and `visit` before the test and the body. -/
inductive Pc
  | hello
  | next (task : Task)
  | visit (task : Task)
  | returned (ret : ℤ)
  deriving DecidableEq

/-- The lines that the module prints: `process` is the one with the name and the pid of a task. -/
inductive Message
  | hello
  | process (task : Task)
  deriving DecidableEq

/-- The state of the kernel, as far as the list of processes goes, and of `start`. `alive` are the
tasks on the list, `forked` is how many processes there were; a task that was taken off the list is
`waiting` until the end of a grace period, then `ready` to be freed. -/
structure State where
  pc : Pc
  links : Links Task
  alive : List Task
  forked : ℕ
  waiting : List Task
  ready : List Task
  freed : List Task
  log : List Message

/-- A step of `start`, of a process, or of the grace-period machinery. -/
inductive Event
  | start
  | fork
  | exit (task : Task)
  | exec (task : Task)
  | gracePeriod
  | free (task : Task)
  deriving DecidableEq

namespace State

variable (s : State)

/-- Continue at a point. -/
def goto (pc : Pc) : State := { s with pc := pc }

/-- Print a line. -/
def prInfo (m : Message) : State := { s with log := s.log ++ [m] }

end State

/-- `start` is in its loop. -/
def Pc.inLoop : Pc → Bool
  | .next _ | .visit _ => true
  | _ => false

/-- The task that the next step of `start` reads from. -/
def Pc.reads : Pc → Option Task
  | .next task => some task
  | .visit .initTask => none
  | .visit task => some task
  | _ => none

/-- One step of `start`. -/
def startStep (s : State) : Option State :=
  match s.pc with
  | .hello => some ((s.prInfo .hello).goto (.next .initTask))
  | .next task =>
    match s.links.next task with
    | .node next => some (s.goto (.visit next))
    | _ => none
  | .visit .initTask => some (s.goto (.returned 0))
  | .visit task => some ((s.prInfo (.process task)).goto (.next task))
  | .returned _ => none

/-- The `task_struct` that takes the place of this one when a thread of the process calls `exec`. -/
def Task.replacement : Task → Task
  | .initTask => .initTask
  | .leader p g => .leader p (g + 1)

/-- One step of the system; `preempt` says whether the kernel is preemptible. -/
def step (preempt : Bool) (s : State) : Event → Option State
  | .start => startStep s
  | .fork =>
    (listAddTailRcu s.links (.leader s.forked 0) .initTask).map fun m =>
      { s with links := m, alive := s.alive ++ [.leader s.forked 0], forked := s.forked + 1 }
  | .exit task =>
    if task ∈ s.alive then
      (listDelRcu s.links task).map fun m =>
        { s with links := m, alive := s.alive.erase task, waiting := task :: s.waiting }
    else none
  | .exec task =>
    if task ∈ s.alive then
      (listReplaceRcu s.links task task.replacement).map fun m =>
        { s with
          links := m
          alive := s.alive.map fun t => if t = task then task.replacement else t
          waiting := task :: s.waiting }
    else none
  | .gracePeriod =>
    if preempt ∨ s.pc.inLoop = false then
      some { s with waiting := [], ready := s.waiting ++ s.ready }
    else none
  | .free task =>
    if task ∈ s.ready then
      some { s with ready := s.ready.erase task, freed := task :: s.freed }
    else none

/-- The state at boot: `init_task` alone, linked to itself, before the module is loaded. -/
def boot (links : Links Task) : State where
  pc := .hello
  links := initListHead links .initTask
  alive := []
  forked := 0
  waiting := []
  ready := []
  freed := []
  log := []

/-- The tasks whose lines were printed. -/
def State.printed (s : State) : List Task :=
  s.log.filterMap fun
    | .process task => some task
    | .hello => none

end Lkb.TaskStruct
