import Lkb.Foundations.Run
import Lkb.Foundations.WaitEvent

/-!
# The module `wait_queue`

`start` of `wait_queue/code.c` creates a kernel thread that runs `mfoo`, and wakes it up; `mfoo`
waits on `wq` until `condition` is positive. After that `start` twice assigns to `condition` and
wakes the queue up, at first with 0 and then with 1, with nothing but sleeps in between. The two run
interleaved, statement by statement. A sleep lets any time pass, and so does every other statement;
spurious wake-ups of the thread come at any time. What `kthread_create` answers is part of the
event. `stops` prints a line and does nothing else.
-/

namespace Lkb.WaitQueue

open WaitEvent

/-- The points of `start`: the statement that comes next, or the value it has returned. -/
inductive StartPc
  | initWaitqueueHead
  | kthreadCreate
  | hello
  | wakeUpProcess
  | sleepRunning
  | clearCondition
  | attempt1
  | wakeUp1
  | sleepAttempt1
  | setCondition
  | attempt2
  | wakeUp2
  | wakeUpDone
  | sleepExit
  | done
  | returned (ret : ℤ)
  deriving DecidableEq

/-- The points of `mfoo`, and of its thread before it runs. -/
inductive MfooPc
  | notCreated
  | created
  | goingToSleep
  | waitEvent
  | runningAgain
  | returned
  deriving DecidableEq

/-- The lines that the module prints. -/
inductive Message
  | kthreadFailed
  | hello
  | attempt1
  | attempt2
  | wakeUpDone
  | done
  | goingToSleep
  | runningAgain
  | cleaningUp
  deriving DecidableEq

/-- The state of the module. `waiter` is `mfoo` in its wait on `wq`, and `stopped` says that `stops`
has returned. -/
structure State where
  start : StartPc
  mfoo : MfooPc
  waiter : Waiter
  condition : ℤ
  stopped : Bool
  log : List Message
  deriving DecidableEq

/-- A step of one of the parties, with what `kthread_create` answers. -/
inductive Event
  | start (ok : Bool)
  | mfoo
  | spurious
  | stops
  deriving DecidableEq

namespace State

variable (s : State)

/-- Print a line. -/
def printk (m : Message) : State := { s with log := s.log ++ [m] }

/-- A wake-up of the thread before it has run. -/
def wakeUpProcess : State := if s.mfoo = .created then { s with mfoo := .goingToSleep } else s

/-- `wake_up_interruptible(&wq)`. -/
def wakeUpInterruptible : State := { s with waiter := s.waiter.wakeUp }

end State

/-- The next statement of `start`. -/
def startStep (ok : Bool) (s : State) : Option State :=
  match s.start with
  | .initWaitqueueHead => some { s with waiter := .begin, start := .kthreadCreate }
  | .kthreadCreate =>
    if ok then some { s with mfoo := .created, start := .hello }
    else some { s.printk .kthreadFailed with start := .returned (-1) }
  | .hello => some { s.printk .hello with start := .wakeUpProcess }
  | .wakeUpProcess => some { s.wakeUpProcess with start := .sleepRunning }
  | .sleepRunning => some { s with start := .clearCondition }
  | .clearCondition => some { s with condition := 0, start := .attempt1 }
  | .attempt1 => some { s.printk .attempt1 with start := .wakeUp1 }
  | .wakeUp1 => some { s.wakeUpInterruptible with start := .sleepAttempt1 }
  | .sleepAttempt1 => some { s with start := .setCondition }
  | .setCondition => some { s with condition := 1, start := .attempt2 }
  | .attempt2 => some { s.printk .attempt2 with start := .wakeUp2 }
  | .wakeUp2 => some { s.wakeUpInterruptible with start := .wakeUpDone }
  | .wakeUpDone => some { s.printk .wakeUpDone with start := .sleepExit }
  | .sleepExit => some { s with start := .done }
  | .done => some { s.printk .done with start := .returned 0 }
  | .returned _ => none

/-- The next statement of `mfoo`. A kernel thread has no pending signal. -/
def mfooStep (s : State) : Option State :=
  match s.mfoo with
  | .notCreated | .created => none
  | .goingToSleep => some { s.printk .goingToSleep with mfoo := .waitEvent }
  | .waitEvent =>
    (s.waiter.step (decide (s.condition > 0)) false).map fun w =>
      { s with waiter := w, mfoo := if w.pc.inLoop then .waitEvent else .runningAgain }
  | .runningAgain => some { s.printk .runningAgain with mfoo := .returned }
  | .returned => none

/-- One step of the module. `stops` is called at any time after `start` has returned 0. -/
def step (s : State) : Event → Option State
  | .start ok => startStep ok s
  | .mfoo => mfooStep s
  | .spurious => some { s.wakeUpProcess with waiter := s.waiter.spurious }
  | .stops =>
    if s.start = .returned 0 ∧ s.stopped = false then
      some { s.printk .cleaningUp with stopped := true }
    else none

/-- The state of the module when `start` is called. -/
def load : State := ⟨.initWaitqueueHead, .notCreated, .begin, 0, false, []⟩

/-- `start` has created the thread. -/
def StartPc.created : StartPc → Bool
  | .initWaitqueueHead | .kthreadCreate => false
  | .returned ret => ret = 0
  | _ => true

/-- `start` has woken the thread up. -/
def StartPc.woken : StartPc → Bool
  | .hello | .wakeUpProcess => false
  | pc => pc.created

/-- `start` has executed the assignment `condition = 1`. -/
def StartPc.assigned : StartPc → Bool
  | .attempt2 | .wakeUp2 | .wakeUpDone | .sleepExit | .done => true
  | .returned ret => ret = 0
  | _ => false

/-- `start` is past the second `wake_up_interruptible`. -/
def StartPc.pastWakeUp : StartPc → Bool
  | .wakeUpDone | .sleepExit | .done => true
  | .returned ret => ret = 0
  | _ => false

/-- `mfoo` has gone past its wait. -/
def MfooPc.pastWait : MfooPc → Bool
  | .runningAgain | .returned => true
  | _ => false

end Lkb.WaitQueue
