import Lkb.Foundations.Run
import Lkb.WorkQueueDedicated.Handler

/-!
# The module `work_queue_dedicated`

The parties of `work_queue_dedicated/code.c` and their steps: `start` and `stops`, any number of
invocations of `my_interrupt` on the shared line, and the worker of the dedicated queue, which runs
`work_handler` one invocation at a time. A step is an `Event`, so that a run is a list of events
in any order (`Run.Runs step`).

The kernel's part is its contract. `queue_work` on a pending work item is a no-op; an invocation of
the interrupt handler begins only while it is registered; `free_irq` returns when no invocation is
left; `flush_workqueue` returns when all work queued before it has finished; `destroy_workqueue`
drains the queue and then invalidates it; `kmalloc` returns `NULL` or an address that is not
allocated. A call outside the contract (`queue_work` without a queue, or with a work item that was
not initialised) and a fault in the handler set `oops`, after which nothing is modelled.
-/

namespace Lkb.WorkQueueDedicated

open CircularList

/-- The points of `start`: the call that comes next, or that it has returned 0 or `-EIO`. -/
inductive StartPc
  | requestIrq
  | createWorkqueue
  | initWork
  | returned
  | failed
  deriving DecidableEq

/-- The points of `stops`. A call that waits has a second point, at which it waits. -/
inductive StopsPc
  | notBegun
  | synchronizeIrq
  | freeIrq
  | freeIrqWait
  | flush
  | flushWait (queued : ℕ)
  | drain
  | invalidate
  | returned
  deriving DecidableEq

/-- The variable `wq`: `NULL`, a queue, or a pointer to a queue that was destroyed. -/
inductive Wq
  | null
  | created
  | destroyed
  deriving DecidableEq

/-- The state of the module. `entered` and `leaving` count the invocations of `my_interrupt` before
and after their call of `queue_work`; `queued` and `finished` count the runs of the work item. -/
structure State where
  start : StartPc
  stops : StopsPc
  registered : Bool
  entered : ℕ
  leaving : ℕ
  wq : Wq
  workInit : Bool
  pending : Bool
  handler : HandlerPc
  queued : ℕ
  finished : ℕ
  oops : Bool
  data : Data

/-- A step of one of the parties, with what the kernel returns to it. -/
inductive Event
  | requestIrq (ok : Bool)
  | createWorkqueue (ok : Bool)
  | initWork
  | irqEnter
  | irqQueueWork
  | irqReturn
  | workerRun
  | handler (mem : Option Addr)
  | stopsBegin
  | synchronizeIrq
  | freeIrq
  | freeIrqReturn
  | flushWorkqueue
  | flushReturn
  | drain
  | invalidate
  deriving DecidableEq

namespace State

/-- No invocation of `my_interrupt` is in progress. -/
def irqQuiet (s : State) : Prop := s.entered = 0 ∧ s.leaving = 0

instance (s : State) : Decidable s.irqQuiet := inferInstanceAs (Decidable (_ ∧ _))

/-- The queue has neither a pending nor a running work item. -/
def drained (s : State) : Prop := s.pending = false ∧ s.handler = .idle

instance (s : State) : Decidable s.drained := inferInstanceAs (Decidable (_ ∧ _))

/-- `queue_work(wq, &work)`. -/
def queueWork (s : State) : State :=
  if s.wq = .created ∧ s.workInit = true then
    if s.pending then s else { s with pending := true, queued := s.queued + 1 }
  else { s with oops := true }

/-- One step of the running handler. -/
def runHandler (s : State) (mem : Option Addr) : State :=
  match handlerStep mem s.handler s.data with
  | none => { s with oops := true }
  | some (pc, d) =>
    { s with
      handler := pc, data := d, finished := if pc = .idle then s.finished + 1 else s.finished }

end State

/-- What a step needs in order to be taken: who is where, and whether a call that waits may
return. -/
def enabled (s : State) : Event → Prop
  | .requestIrq _ => s.start = .requestIrq
  | .createWorkqueue _ => s.start = .createWorkqueue
  | .initWork => s.start = .initWork
  | .irqEnter => s.registered = true
  | .irqQueueWork => 0 < s.entered
  | .irqReturn => 0 < s.leaving
  | .workerRun => s.wq = .created ∧ s.pending = true ∧ s.handler = .idle
  | .handler mem => s.handler ≠ .idle ∧ (s.handler = .kmalloc → Fresh s.data.live mem)
  | .stopsBegin => s.start = .returned ∧ s.stops = .notBegun
  | .synchronizeIrq => s.stops = .synchronizeIrq ∧ s.irqQuiet
  | .freeIrq => s.stops = .freeIrq
  | .freeIrqReturn => s.stops = .freeIrqWait ∧ s.irqQuiet
  | .flushWorkqueue => s.stops = .flush
  | .flushReturn => ∃ n ≤ s.finished, s.stops = .flushWait n
  | .drain => s.stops = .drain ∧ s.drained
  | .invalidate => s.stops = .invalidate

instance (s : State) : (e : Event) → Decidable (enabled s e)
  | .requestIrq _ | .createWorkqueue _ | .initWork | .irqEnter | .freeIrq | .flushWorkqueue
  | .invalidate => inferInstanceAs (Decidable (_ = _))
  | .irqQueueWork | .irqReturn => inferInstanceAs (Decidable (_ < _))
  | .workerRun => inferInstanceAs (Decidable (_ ∧ _ ∧ _))
  | .stopsBegin | .synchronizeIrq | .freeIrqReturn | .drain => inferInstanceAs (Decidable (_ ∧ _))
  | .handler _ => inferInstanceAs (Decidable (_ ∧ (_ → _)))
  | .flushReturn => inferInstanceAs (Decidable (∃ n ≤ s.finished, s.stops = .flushWait n))

/-- The state after a step. -/
def effect (s : State) : Event → State
  | .requestIrq true => { s with registered := true, start := .createWorkqueue }
  | .requestIrq false => { s with start := .failed }
  | .createWorkqueue ok => { s with wq := if ok then .created else .null, start := .initWork }
  | .initWork => { s with workInit := true, start := .returned }
  | .irqEnter => { s with entered := s.entered + 1 }
  | .irqQueueWork => { s with entered := s.entered - 1, leaving := s.leaving + 1 }.queueWork
  | .irqReturn => { s with leaving := s.leaving - 1 }
  | .workerRun => { s with pending := false, handler := .lock }
  | .handler mem => s.runHandler mem
  | .stopsBegin => { s with stops := .synchronizeIrq }
  | .synchronizeIrq => { s with stops := .freeIrq }
  | .freeIrq => { s with registered := false, stops := .freeIrqWait }
  | .freeIrqReturn => { s with stops := .flush }
  | .flushWorkqueue => { s with stops := .flushWait s.queued }
  | .flushReturn => { s with stops := .drain }
  | .drain => { s with stops := .invalidate }
  | .invalidate => { s with wq := .destroyed, stops := .returned }

/-- One step of the module. -/
def step (s : State) (e : Event) : Option State :=
  if s.oops = false ∧ enabled s e then some (effect s e) else none

/-- The data of the module when it is loaded: `moving_val` is 0, `f` is all `NULL` and the list is
the `LIST_HEAD`; the other memory is as it is. -/
def Data.load (value : Addr → ℤ) (links : Links Head) : Data :=
  ⟨0, fun _ => none, value, initListHead links .head, [], 0, [], []⟩

/-- The state of the module when `start` is called. -/
def load (d : Data) : State :=
  ⟨.requestIrq, .notBegun, false, 0, 0, .null, false, false, .idle, 0, 0, false, d⟩

theorem step_eq_some {s s' : State} {e : Event} :
    step s e = some s' ↔ s.oops = false ∧ enabled s e ∧ s' = effect s e := by
  rw [step]
  split_ifs with h
  · simp [h, eq_comm]
  · simp only [false_iff]
    exact fun h' => h ⟨h'.1, h'.2.1⟩

end Lkb.WorkQueueDedicated
