import Lkb.Foundations.Run
import Lkb.Foundations.WaitEvent

/-!
# The module `work_queue_global`

`start` of `work_queue_global/code.c` allocates `my_data`, schedules its work item on the global
queue and waits on the wait queue inside `my_data` until `condition` is set. The worker runs
`do_work_handler` once, which sleeps for any time, sets `condition`, wakes the queue up and frees
`my_data`. The two run interleaved, statement by statement, with spurious wake-ups at any time;
what `kmalloc` and the check for a pending signal answer is part of the event. `stops` does
nothing.
-/

namespace Lkb.WorkQueueGlobal

open WaitEvent

/-- The points of `start`: the statement that comes next, or the value it has returned. -/
inductive StartPc
  | kmalloc
  | setData
  | initWork
  | initWaitqueueHead
  | scheduleWork
  | prInfo
  | waitEvent
  | printk
  | returned (ret : ℤ)
  deriving DecidableEq

/-- The points of `do_work_handler`, before it is scheduled, while it is pending, and in its run. -/
inductive HandlerPc
  | notScheduled
  | pending
  | prInfo
  | msleep
  | setCondition
  | wakeUp
  | kfree
  | finished
  deriving DecidableEq

/-- The memory that `my_data` points to. -/
inductive Memory
  | unallocated
  | allocated
  | freed
  deriving DecidableEq

/-- The lines that the module prints. -/
inductive Message
  | kmallocFailed
  | goingToSleep (condition : ℤ)
  | insideWorkHandler (value : ℤ)
  | wokenUp (condition : ℤ)
  deriving DecidableEq

/-- The state of the module. `waiter` is `start` in its wait on `my_data->my_wq`, and `data` is
`my_data->data`. -/
structure State where
  start : StartPc
  waiter : Waiter
  handler : HandlerPc
  condition : ℤ
  data : ℤ
  memory : Memory
  stopped : Bool
  log : List Message
  deriving DecidableEq

/-- A step of one of the parties, with what the kernel answers. -/
inductive Event
  | start (reply : Bool)
  | handler
  | spurious
  | stops
  deriving DecidableEq

/-- The next statement of `start`. The reply is whether `kmalloc` finds memory, and whether a signal
is pending. -/
def startStep (reply : Bool) (s : State) : Option State :=
  match s.start with
  | .kmalloc =>
    if reply then some { s with memory := .allocated, start := .setData }
    else some { s with log := s.log ++ [.kmallocFailed], start := .returned (-1) }
  | .setData => some { s with data := 1400, start := .initWork }
  | .initWork => some { s with start := .initWaitqueueHead }
  | .initWaitqueueHead => some { s with waiter := .begin, start := .scheduleWork }
  | .scheduleWork => some { s with handler := .pending, start := .prInfo }
  | .prInfo => some { s with log := s.log ++ [.goingToSleep s.condition], start := .waitEvent }
  | .waitEvent =>
    (s.waiter.step (decide (s.condition ≠ 0)) reply).map fun w =>
      { s with waiter := w, start := if w.pc.inLoop then .waitEvent else .printk }
  | .printk => some { s with log := s.log ++ [.wokenUp s.condition], start := .returned 0 }
  | .returned _ => none

/-- The next statement of `do_work_handler`. -/
def handlerStep (s : State) : Option State :=
  match s.handler with
  | .notScheduled => none
  | .pending => some { s with handler := .prInfo }
  | .prInfo => some { s with log := s.log ++ [.insideWorkHandler s.data], handler := .msleep }
  | .msleep => some { s with handler := .setCondition }
  | .setCondition => some { s with condition := 5, handler := .wakeUp }
  | .wakeUp => some { s with waiter := s.waiter.wakeUp, handler := .kfree }
  | .kfree => some { s with memory := .freed, handler := .finished }
  | .finished => none

/-- One step of the module. -/
def step (s : State) : Event → Option State
  | .start reply => startStep reply s
  | .handler => handlerStep s
  | .spurious => some { s with waiter := s.waiter.spurious }
  | .stops =>
    if s.start = .returned 0 ∧ s.stopped = false then some { s with stopped := true } else none

/-- The state of the module when `start` is called. -/
def load : State := ⟨.kmalloc, .begin, .notScheduled, 0, 0, .unallocated, false, []⟩

variable {s s' : State} {e : Event}

/-! ## What a step changes -/

/-- The statement of `start` that comes next works on `*my_data`. -/
def State.touches (s : State) : Bool :=
  match s.start with
  | .setData | .initWork | .initWaitqueueHead | .scheduleWork => true
  | .waitEvent => s.waiter.pc.onQueue
  | _ => false

/-- `start` is in the loop of its wait: its first test was false, and it has not left the queue. -/
def State.InWait (s : State) : Prop := s.start = .waitEvent ∧ s.waiter.pc.inLoop

/-- `start` has not scheduled the work item yet. -/
def StartPc.early : StartPc → Bool
  | .kmalloc | .setData | .initWork | .initWaitqueueHead | .scheduleWork => true
  | _ => false

/-- The handler has set the condition. -/
def HandlerPc.late : HandlerPc → Bool
  | .wakeUp | .kfree | .finished => true
  | _ => false

end Lkb.WorkQueueGlobal
