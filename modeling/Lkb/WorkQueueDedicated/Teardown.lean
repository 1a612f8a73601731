import Lkb.WorkQueueDedicated.System

/-!
# Unloading `work_queue_dedicated`

From a state in which `start` has completed with a created queue (`Started`), the control state of
the module keeps the invariant `Control`: it links the registration of the interrupt handler, the
invocations in progress, the pending bit and the life of the queue to the point that `stops` has
reached. `stops_quiescent` is what the order of the calls in `stops` is for.
-/

namespace Lkb.WorkQueueDedicated

open Run

/-- How far `stops` has come. -/
def StopsPc.rank : StopsPc → ℕ
  | .notBegun => 0
  | .synchronizeIrq => 1
  | .freeIrq => 2
  | .freeIrqWait => 3
  | .flush => 4
  | .flushWait _ => 5
  | .drain => 6
  | .invalidate => 7
  | .returned => 8

/-- `start` has returned 0 with a created queue, and `stops` was not called. -/
structure Started (s : State) : Prop where
  start : s.start = .returned
  workInit : s.workInit = true
  wq : s.wq = .created
  stops : s.stops = .notBegun
  oops : s.oops = false

/-- The control invariant of the loaded module. -/
structure Control (s : State) : Prop where
  start : s.start = .returned
  workInit : s.workInit = true
  /-- the interrupt handler is registered only until `free_irq` is called -/
  unregistered : 3 ≤ s.stops.rank → s.registered = false
  /-- no invocation is left once `free_irq` has returned -/
  quiet : 4 ≤ s.stops.rank → s.irqQuiet
  wq_created : s.stops.rank ≤ 7 → s.wq = .created
  wq_destroyed : 8 ≤ s.stops.rank → s.wq = .destroyed
  /-- nothing is queued again once the queue was drained -/
  drained : 7 ≤ s.stops.rank → s.drained

theorem Started.control {s : State} (h : Started s) : Control s := by
  have hrank : s.stops.rank = 0 := by rw [h.stops]; rfl
  constructor <;> intros <;> first | exact h.start | exact h.workInit | exact h.wq | omega

variable {s s' : State} {e : Event}

/-- With the queue and the work item set up, `queue_work` sets the pending bit and does nothing
else that matters here. -/
theorem State.queueWork_eq (hwq : s.wq = .created) (hwork : s.workInit = true) :
    ∃ n, s.queueWork = { s with pending := true, queued := n } := by
  rw [State.queueWork, if_pos ⟨hwq, hwork⟩]
  cases hp : s.pending with
  | true => exact ⟨s.queued, by rw [← hp]; simp⟩
  | false => exact ⟨s.queued + 1, by simp⟩

/-- A step of the handler touches no variable of the other parties. -/
theorem State.runHandler_eq (s : State) (mem : Option Addr) :
    ∃ pc d n o,
      s.runHandler mem = { s with handler := pc, data := d, finished := n, oops := o } := by
  cases h : handlerStep mem s.handler s.data with
  | none => exact ⟨s.handler, s.data, s.finished, true, by simp [runHandler, h]⟩
  | some z => exact ⟨z.1, z.2, _, s.oops, by simp only [runHandler, h]; rfl⟩

/-- While an invocation of `my_interrupt` is in progress, `free_irq` has not returned. -/
theorem Control.rank_of_entered (h : Control s) (hpos : 0 < s.entered) : s.stops.rank < 4 := by
  by_contra hr
  have hq := (h.quiet (by omega)).1
  omega

/-- `stops` goes on to its next point, other than by `free_irq` or by invalidating the queue. -/
theorem Control.advance (h : Control s) (pc : StopsPc) (hpc : pc.rank = s.stops.rank + 1)
    (h3 : pc.rank ≠ 3) (h4 : pc.rank = 4 → s.irqQuiet) (h7 : pc.rank = 7 → s.drained)
    (h8 : pc.rank ≠ 8) : Control { s with stops := pc } where
  start := h.start
  workInit := h.workInit
  unregistered hr := h.unregistered (by simp only at hr; omega)
  quiet hr := by
    by_cases hq : pc.rank = 4
    · exact h4 hq
    · exact h.quiet (by simp only at hr; omega)
  wq_created hr := h.wq_created (by simp only at hr; omega)
  wq_destroyed hr := h.wq_destroyed (by simp only at hr; omega)
  drained hr := by
    by_cases hd : pc.rank = 7
    · exact h7 hd
    · exact h.drained (by simp only at hr; omega)

/-- **Every step keeps the control invariant.** -/
theorem Control.preserved (h : Control s) (hs : step s e = some s') : Control s' := by
  obtain ⟨-, hen, rfl⟩ := step_eq_some.1 hs
  cases e with
  | requestIrq ok => simp [enabled, h.start] at hen
  | createWorkqueue ok => simp [enabled, h.start] at hen
  | initWork => simp [enabled, h.start] at hen
  | irqEnter =>
    refine ⟨h.start, h.workInit, h.unregistered, fun h4 => ?_, h.wq_created, h.wq_destroyed,
      h.drained⟩
    have hu := h.unregistered (by simp only [effect] at h4; omega)
    simp [enabled, hu] at hen
  | irqQueueWork =>
    have hr := h.rank_of_entered hen
    obtain ⟨n, hn⟩ := State.queueWork_eq
      (s := { s with entered := s.entered - 1, leaving := s.leaving + 1 })
      (h.wq_created (by omega)) h.workInit
    rw [effect, hn]
    exact ⟨h.start, h.workInit, h.unregistered, fun h4 => absurd h4 (by simpa using hr),
      h.wq_created, h.wq_destroyed, fun h7 => absurd h7 (by simp only; omega)⟩
  | irqReturn =>
    refine ⟨h.start, h.workInit, h.unregistered, fun h4 => ?_, h.wq_created, h.wq_destroyed,
      h.drained⟩
    obtain ⟨h₁, h₂⟩ := h.quiet h4
    exact ⟨h₁, by simp [effect, h₂]⟩
  | workerRun =>
    refine ⟨h.start, h.workInit, h.unregistered, h.quiet, h.wq_created, h.wq_destroyed, ?_⟩
    intro h7
    exact absurd hen.2.1 (by simp [(h.drained h7).1])
  | handler mem =>
    obtain ⟨pc, d, n, o, hr⟩ := s.runHandler_eq mem
    rw [effect, hr]
    refine ⟨h.start, h.workInit, h.unregistered, h.quiet, h.wq_created, h.wq_destroyed, ?_⟩
    intro h7
    exact absurd (h.drained h7).2 hen.1
  | stopsBegin =>
    exact h.advance .synchronizeIrq (by rw [hen.2]; rfl) (by decide) nofun nofun (by decide)
  | synchronizeIrq =>
    exact h.advance .freeIrq (by rw [hen.1]; rfl) (by decide) nofun nofun (by decide)
  | freeIrq =>
    have hr : s.stops.rank = 2 := by rw [hen]; rfl
    exact ⟨h.start, h.workInit, fun _ => rfl, nofun, fun _ => h.wq_created (by omega), nofun, nofun⟩
  | freeIrqReturn =>
    -- the call has waited for the invocations in progress, and none can begin
    exact h.advance .flush (by rw [hen.1]; rfl) (by decide) (fun _ => hen.2) nofun (by decide)
  | flushWorkqueue =>
    exact h.advance (.flushWait s.queued) (by rw [hen]; rfl) nofun nofun nofun nofun
  | flushReturn =>
    obtain ⟨n, -, hen⟩ := hen
    exact h.advance .drain (by rw [hen]; rfl) (by decide) nofun nofun (by decide)
  | drain =>
    exact h.advance .invalidate (by rw [hen.1]; rfl) (by decide) nofun (fun _ => hen.2) (by decide)
  | invalidate =>
    have hr : s.stops.rank = 7 := by rw [hen]; rfl
    exact ⟨h.start, h.workInit, fun _ => h.unregistered (by omega), fun _ => h.quiet (by omega),
      nofun, fun _ => rfl, fun _ => h.drained (by omega)⟩

/-- **Unloading is quiescent.** From every state in which `start` has completed with a created
queue, in every run: `queue_work` is never called on the destroyed queue, and when `stops` has
returned, no work item is pending and no handler is running. -/
theorem stops_quiescent {es : List Event} (h : Started s) (hrun : Runs step s es s') :
    Along step (fun s e => e = .irqQueueWork → s.wq ≠ .destroyed) s es ∧
      (s'.stops = .returned → s'.pending = false ∧ s'.handler = .idle) := by
  constructor
  · refine Along.of_invariant (I := Control) (G := fun _ _ => True) ?_ (along_true s es) h.control
    intro s e s' hc _ hs
    refine ⟨hc.preserved hs, ?_⟩
    rintro rfl hd
    obtain ⟨-, hen, -⟩ := step_eq_some.1 hs
    have hwq := hc.wq_created (by have := hc.rank_of_entered hen; omega)
    simp [hwq] at hd
  · intro hret
    have hc : Control s' := hrun.invariant' (fun _ _ _ hc hs => hc.preserved hs) h.control
    exact hc.drained (by rw [hret]; decide)

/-- The module after `start`, in a load without interrupts in between. -/
def startedSample : State :=
  { load (Data.load (fun _ => 0) ⟨fun a => .node a, fun a => .node a⟩) with
    start := .returned, registered := true, wq := .created, workInit := true }

/-- One interrupt, whose work runs (without memory) while `stops` waits in `flush_workqueue`. -/
def unloadSample : List Event :=
  [.irqEnter, .irqQueueWork, .irqReturn, .stopsBegin, .synchronizeIrq, .freeIrq, .freeIrqReturn,
    .flushWorkqueue, .workerRun, .handler none, .handler none, .flushReturn, .drain, .invalidate]

theorem stops_quiescent_sample :
    ∃ s', Runs step startedSample unloadSample s' ∧ s'.stops = .returned ∧ s'.finished = 1 ∧
      s'.pending = false ∧ s'.handler = .idle := by
  have h : Started startedSample := ⟨rfl, rfl, rfl, rfl, rfl⟩
  obtain ⟨s', hrun⟩ : ∃ s', Runs step startedSample unloadSample s' := ⟨_, rfl⟩
  have hret : s'.stops = .returned ∧ s'.finished = 1 := by
    cases hrun
    exact ⟨rfl, rfl⟩
  exact ⟨s', hrun, hret.1, hret.2, (stops_quiescent h hrun).2 hret.1⟩

end Lkb.WorkQueueDedicated
