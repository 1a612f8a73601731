import Lkb.WorkQueueDedicated.Teardown

/-!
# Loading `work_queue_dedicated`

`start` registers the interrupt handler before it creates the queue and initialises the work item,
and does not look at what `create_singlethread_workqueue` returned. `Ready` is what an invocation of
`my_interrupt` needs. It fails on some runs (`not_ready_early`), and it holds throughout a run
exactly when no interrupt is delivered too early, or after a failed creation (`ready_iff`).
-/

namespace Lkb.WorkQueueDedicated

open Run

variable {s s' : State} {e : Event}

/-- As long as `stops` was not called: while an invocation of `my_interrupt` is in progress, `wq` is
a created queue and `work` was initialised. -/
def Ready (s : State) : Prop :=
  s.stops = .notBegun → 0 < s.entered + s.leaving → s.wq = .created ∧ s.workInit = true

/-- The condition on a step: before `stops`, an interrupt is delivered only after the `INIT_WORK`
with which `start` ends, and not when `create_singlethread_workqueue` returned `NULL`. -/
def OnTime (s : State) (e : Event) : Prop :=
  e = .irqEnter → s.stops = .notBegun → s.start = .returned ∧ s.wq ≠ .null

/-- The invariant of a load whose interrupts are on time. -/
structure Loading (s : State) : Prop where
  work_iff : s.workInit = true ↔ s.start = .returned
  begun : s.stops ≠ .notBegun → s.start = .returned
  not_destroyed : s.stops = .notBegun → s.wq ≠ .destroyed
  ready : Ready s

theorem loading_load (d : Data) : Loading (load d) :=
  ⟨by simp [load], by simp [load], by simp [load], by simp [Ready, load]⟩

/-- While `start` has not returned, `stops` was not called and no invocation is in progress. -/
theorem Loading.of_start_ne (h : Loading s) (hs : s.start ≠ .returned) :
    s.stops = .notBegun ∧ s.workInit = false ∧ s.entered + s.leaving = 0 := by
  have hstops : s.stops = .notBegun := by
    by_contra hb
    exact hs (h.begun hb)
  have hwork : s.workInit = false := by
    by_contra hw
    exact hs (h.work_iff.1 (by simpa using hw))
  refine ⟨hstops, hwork, ?_⟩
  by_contra hq
  simp [(h.ready hstops (by omega)).2] at hwork

/-- A step of `start` keeps the invariant, since no invocation is in progress. -/
theorem Loading.start_step (h : Loading s) (hs : s.start ≠ .returned) {pc : StartPc} {r w : Bool}
    {q : Wq} (hw : w = true ↔ pc = .returned) (hq : q ≠ .destroyed) :
    Loading { s with start := pc, registered := r, wq := q, workInit := w } where
  work_iff := hw
  begun hb := absurd (h.of_start_ne hs).1 hb
  not_destroyed _ := hq
  ready _ hpos := absurd hpos (by have := (h.of_start_ne hs).2.2; simp only; omega)

/-- Once `stops` has begun there is nothing left to keep. -/
theorem Loading.of_begun (h : Loading s) (hs : s.start = .returned) {pc : StopsPc} {r : Bool}
    {q : Wq} (hpc : pc ≠ .notBegun) : Loading { s with stops := pc, registered := r, wq := q } :=
  ⟨h.work_iff, fun _ => hs, fun hb => absurd hb hpc, fun hb => absurd hb hpc⟩

theorem Loading.preserved (h : Loading s) (hs : step s e = some s') (hG : OnTime s e) :
    Loading s' := by
  obtain ⟨-, hen, rfl⟩ := step_eq_some.1 hs
  have hbegun : ∀ {pc}, s.stops = pc → pc ≠ .notBegun → s.start = .returned :=
    fun hpc hne => h.begun (hpc ▸ hne)
  cases e with
  | requestIrq ok =>
    have hne : s.start ≠ .returned := by rw [hen]; decide
    obtain ⟨hstops, hwork, -⟩ := h.of_start_ne hne
    cases ok
    · exact h.start_step hne (r := s.registered) (by simp [hwork]) (h.not_destroyed hstops)
    · exact h.start_step hne (by simp [hwork]) (h.not_destroyed hstops)
  | createWorkqueue ok =>
    have hne : s.start ≠ .returned := by rw [hen]; decide
    exact h.start_step hne (r := s.registered) (by simp [(h.of_start_ne hne).2.1])
      (by cases ok <;> simp)
  | initWork =>
    have hne : s.start ≠ .returned := by rw [hen]; decide
    exact h.start_step hne (r := s.registered) (by simp) (h.not_destroyed (h.of_start_ne hne).1)
  | irqEnter =>
    refine ⟨h.work_iff, h.begun, h.not_destroyed, fun hstops _ => ?_⟩
    obtain ⟨hstart, hnull⟩ := hG rfl hstops
    refine ⟨?_, h.work_iff.2 hstart⟩
    have hd := h.not_destroyed hstops
    cases hwq : s.wq <;> simp_all [effect]
  | irqQueueWork =>
    have hready : s.stops = .notBegun → s.wq = .created ∧ s.workInit = true := by
      intro hstops
      exact h.ready hstops (by simp only [enabled] at hen; omega)
    rw [effect, State.queueWork]
    split_ifs
    · exact ⟨h.work_iff, h.begun, h.not_destroyed, fun hstops _ => hready hstops⟩
    · exact ⟨h.work_iff, h.begun, h.not_destroyed, fun hstops _ => hready hstops⟩
    · exact ⟨h.work_iff, h.begun, h.not_destroyed, fun hstops _ => hready hstops⟩
  | irqReturn =>
    refine ⟨h.work_iff, h.begun, h.not_destroyed, fun hstops hpos => h.ready hstops ?_⟩
    simp only [effect] at hpos
    omega
  | workerRun => exact ⟨h.work_iff, h.begun, h.not_destroyed, h.ready⟩
  | handler mem =>
    obtain ⟨pc, d, n, o, hr⟩ := s.runHandler_eq mem
    rw [effect, hr]
    exact ⟨h.work_iff, h.begun, h.not_destroyed, h.ready⟩
  | stopsBegin => exact h.of_begun (r := s.registered) (q := s.wq) hen.1 (by simp)
  | synchronizeIrq =>
    exact h.of_begun (r := s.registered) (q := s.wq) (hbegun hen.1 (by simp)) (by simp)
  | freeIrq => exact h.of_begun (q := s.wq) (hbegun hen (by simp)) (by simp)
  | freeIrqReturn =>
    exact h.of_begun (r := s.registered) (q := s.wq) (hbegun hen.1 (by simp)) (by simp)
  | flushWorkqueue =>
    exact h.of_begun (r := s.registered) (q := s.wq) (hbegun hen (by simp)) (by simp)
  | flushReturn =>
    obtain ⟨n, -, hen⟩ := hen
    exact h.of_begun (r := s.registered) (q := s.wq) (hbegun hen (by simp)) (by simp)
  | drain => exact h.of_begun (r := s.registered) (q := s.wq) (hbegun hen.1 (by simp)) (by simp)
  | invalidate => exact h.of_begun (r := s.registered) (hbegun hen (by simp)) (by simp)

/-- A step that leads to a ready state is on time. -/
theorem Loading.onTime (h : Loading s) (hs : step s e = some s') (hr : Ready s') : OnTime s e := by
  rintro rfl hstops
  obtain ⟨-, -, rfl⟩ := step_eq_some.1 hs
  obtain ⟨hwq, hwork⟩ := hr hstops (by simp only [effect]; omega)
  refine ⟨h.work_iff.1 hwork, ?_⟩
  rw [show s.wq = .created from hwq]
  decide

/-- **When `my_interrupt` finds its queue.** In a run from the load of the module, whenever
`my_interrupt` runs before `stops`, `wq` is a created queue and `work` is initialised, exactly when
every interrupt before `stops` is delivered after the `INIT_WORK` of a `start` that has created the
queue. -/
theorem ready_iff (d : Data) (es : List Event) :
    Always step Ready (load d) es ↔ Along step OnTime (load d) es := by
  refine always_iff_along (I := Loading) (fun s h => h.ready) (fun s e s' h hs => ?_)
    (loading_load d)
  exact ⟨⟨h.onTime hs, fun hG => (h.preserved hs hG).ready⟩, h.preserved hs⟩

/-- An interrupt between `request_irq` and the creation of the queue, and one after a load whose
creation of the queue failed. -/
theorem not_ready_early :
    ¬Always step Ready (load (Data.load (fun _ => 0) ⟨.node, .node⟩))
      [.requestIrq true, .irqEnter] ∧
    ¬Always step Ready (load (Data.load (fun _ => 0) ⟨.node, .node⟩))
      [.requestIrq true, .createWorkqueue false, .initWork, .irqEnter] := by
  constructor
  · rintro ⟨-, -, h⟩
    cases (h rfl (by decide)).1
  · rintro ⟨-, -, -, -, h⟩
    cases (h rfl (by decide)).1

end Lkb.WorkQueueDedicated
