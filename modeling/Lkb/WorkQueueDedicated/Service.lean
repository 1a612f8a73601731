import Lkb.WorkQueueDedicated.Runs

/-!
# The work that `work_queue_dedicated` defers

An invocation of `my_interrupt` only queues the work item, and queueing an item that is already
pending does nothing: several interrupts may share one run of `work_handler`. No interrupt is left
without one (`served_before_flush_returns`): since `stops` calls `free_irq` first, nothing is queued
after `flush_workqueue` was called, and the queue is empty when that call returns.

Nor can `stops` hang. From the call of `free_irq` on, every step of any party is one less to come
(`rank`), and some step can be taken until `stops` has returned (`stops_returns`).
-/

namespace Lkb.WorkQueueDedicated

open CircularList Run

variable {s s' : State} {e : Event} {es : List Event} {d : Data}

/-! ## Every interrupt is served -/

/-- The number of runs of the handler in progress. -/
def HandlerPc.running : HandlerPc → ℕ
  | .idle => 0
  | _ => 1

theorem HandlerPc.running_of_ne {pc : HandlerPc} (h : pc ≠ .idle) : pc.running = 1 := by
  cases pc <;> first | rfl | exact absurd rfl h

/-- The runs of the work item that were queued and have not finished. -/
def State.outstanding (s : State) : ℕ := s.pending.toNat + s.handler.running

/-- The account of the queue, in every run of the module. -/
structure Serving (s : State) : Prop where
  begun : s.stops ≠ .notBegun → s.start = .returned
  queued : s.queued = s.finished + s.outstanding
  unregistered : 3 ≤ s.stops.rank → s.registered = false
  quiet : 4 ≤ s.stops.rank → s.irqQuiet
  waiting : ∀ n, s.stops = .flushWait n → n = s.queued
  drained : 6 ≤ s.stops.rank → s.drained
  oops : 6 ≤ s.stops.rank → s.oops = false

theorem State.outstanding_eq_zero : s.outstanding = 0 ↔ s.drained := by
  rw [outstanding, State.drained]
  cases hpc : s.handler <;> simp [HandlerPc.running]

/-- Outside `flush_workqueue`, a step of `stops` keeps the account. -/
theorem Serving.advance (h : Serving s) (ho : s.oops = false) (pc : StopsPc)
    (hpc : pc.rank = s.stops.rank + 1) (hstart : s.start = .returned) {r : Bool} {q : Wq}
    (h3 : pc.rank = 3 → r = false) (hr : pc.rank ≠ 3 → r = s.registered)
    (h4 : pc.rank = 4 → s.irqQuiet) (h5 : ∀ n, pc = .flushWait n → n = s.queued)
    (h6 : pc.rank = 6 → s.drained) :
    Serving { s with stops := pc, registered := r, wq := q } where
  begun _ := hstart
  queued := h.queued
  unregistered hle := by
    by_cases h3' : pc.rank = 3
    · exact h3 h3'
    · exact (hr h3').trans (h.unregistered (by simp only at hle; omega))
  quiet hle := by
    by_cases h4' : pc.rank = 4
    · exact h4 h4'
    · exact h.quiet (by simp only at hle; omega)
  waiting := h5
  drained hle := by
    by_cases h6' : pc.rank = 6
    · exact h6 h6'
    · exact h.drained (by simp only at hle; omega)
  oops _ := ho

/-- Before `free_irq` has returned there is only the count of the runs to keep. -/
theorem Serving.of_rank_lt (hb : s.stops ≠ .notBegun → s.start = .returned)
    (hq : s.queued = s.finished + s.outstanding) (hu : 3 ≤ s.stops.rank → s.registered = false)
    (hr : s.stops.rank < 4) : Serving s where
  begun := hb
  queued := hq
  unregistered := hu
  quiet h4 := absurd h4 (by omega)
  waiting n hn := absurd hr (by simp [hn, StopsPc.rank])
  drained h6 := absurd h6 (by omega)
  oops h6 := absurd h6 (by omega)

theorem serving_load (d : Data) : Serving (load d) :=
  .of_rank_lt (fun h => absurd rfl h) rfl (fun h => absurd h (by simp [load, StopsPc.rank]))
    (by simp [load, StopsPc.rank])

/-- Before `flush_workqueue` has returned, the worker may change its own state, as long as the
count of the runs stays right. -/
theorem Serving.worker (h : Serving s) (hr : s.stops.rank < 6) {p o : Bool} {pc : HandlerPc}
    {n : ℕ} {d : Data}
    (hq : { s with pending := p, handler := pc, finished := n, data := d, oops := o }.queued =
      n + { s with pending := p, handler := pc, finished := n, data := d, oops := o }.outstanding) :
    Serving { s with pending := p, handler := pc, finished := n, data := d, oops := o } where
  begun := h.begun
  queued := hq
  unregistered := h.unregistered
  quiet := h.quiet
  waiting := h.waiting
  drained h6 := absurd h6 (by simp only; omega)
  oops h6 := absurd h6 (by simp only; omega)

/-- While an invocation of `my_interrupt` is in progress, `free_irq` has not returned. -/
theorem Serving.rank_of_entered (h : Serving s) (hpos : 0 < s.entered) : s.stops.rank < 4 := by
  by_contra hr
  have hq := (h.quiet (by omega)).1
  omega

/-- While there is something in the queue, `flush_workqueue` has not returned. -/
theorem Serving.rank_of_outstanding (h : Serving s) (hd : ¬s.drained) : s.stops.rank < 6 := by
  by_contra hr
  exact hd (h.drained (by omega))

/-- **Every step keeps the account of the queue.** -/
theorem Serving.preserved (h : Serving s) (hs : step s e = some s') : Serving s' := by
  obtain ⟨ho, hen, rfl⟩ := step_eq_some.1 hs
  have hq := h.queued
  -- a step of `start` comes before `stops` is called
  have hstart : s.start ≠ .returned → s.stops = .notBegun := by
    intro hne
    by_contra hb
    exact hne (h.begun hb)
  have hfront : s.start ≠ .returned → ∀ {pc : StartPc} {r w : Bool} {q : Wq},
      Serving { s with start := pc, registered := r, wq := q, workInit := w } := by
    intro hne pc r w q
    have hstops := hstart hne
    exact .of_rank_lt (fun hb => absurd hstops hb) hq
      (fun h3 => absurd h3 (by simp [hstops, StopsPc.rank])) (by simp [hstops, StopsPc.rank])
  have hbegun : ∀ {pc}, s.stops = pc → pc ≠ .notBegun → s.start = .returned :=
    fun hpc hne => h.begun (hpc ▸ hne)
  cases e with
  | requestIrq ok =>
    have hne : s.start ≠ .returned := by rw [hen]; decide
    cases ok
    · exact hfront hne (r := s.registered) (w := s.workInit) (q := s.wq)
    · exact hfront hne (w := s.workInit) (q := s.wq)
  | createWorkqueue ok =>
    exact hfront (by rw [hen]; decide) (r := s.registered) (w := s.workInit)
  | initWork => exact hfront (by rw [hen]; decide) (r := s.registered) (q := s.wq)
  | irqEnter =>
    have hr : s.stops.rank < 3 := by
      by_contra hr
      rw [enabled, h.unregistered (by omega)] at hen
      cases hen
    exact .of_rank_lt h.begun hq h.unregistered (by simp only [effect]; omega)
  | irqQueueWork =>
    have hr := h.rank_of_entered hen
    rw [effect, State.queueWork]
    split_ifs with hready hp
    · exact .of_rank_lt h.begun hq h.unregistered hr
    · replace hp : s.pending = false := by simpa using hp
      refine .of_rank_lt h.begun ?_ h.unregistered hr
      simp only [State.outstanding, hp, Bool.toNat_false, Bool.toNat_true] at hq ⊢
      omega
    · exact .of_rank_lt h.begun hq h.unregistered hr
  | irqReturn =>
    refine ⟨h.begun, hq, h.unregistered, fun h4 => ?_, h.waiting, h.drained, h.oops⟩
    obtain ⟨h₁, h₂⟩ := h.quiet h4
    exact ⟨h₁, by simp [effect, h₂]⟩
  | workerRun =>
    obtain ⟨-, hp, hidle⟩ := hen
    refine h.worker (h.rank_of_outstanding (by simp [State.drained, hp])) (o := s.oops) ?_
    simpa [State.outstanding, HandlerPc.running, hp, hidle] using hq
  | handler mem =>
    have hr := h.rank_of_outstanding fun hd => hen.1 hd.2
    rw [effect, State.runHandler]
    split
    · exact h.worker hr (p := s.pending) hq
    next pc d hstep =>
      refine h.worker hr (p := s.pending) (o := s.oops) ?_
      simp only [State.outstanding, HandlerPc.running_of_ne hen.1] at hq ⊢
      split_ifs with hpc
      · simp only [hpc, HandlerPc.running]
        omega
      · simp only [HandlerPc.running_of_ne hpc]
        omega
  | stopsBegin =>
    exact h.advance ho .synchronizeIrq (by rw [hen.2]; rfl) hen.1 (q := s.wq)
      (by simp [StopsPc.rank]) (fun _ => rfl) (by simp [StopsPc.rank]) (by simp)
      (by simp [StopsPc.rank])
  | synchronizeIrq =>
    exact h.advance ho .freeIrq (by rw [hen.1]; rfl) (hbegun hen.1 (by simp)) (q := s.wq)
      (by simp [StopsPc.rank]) (fun _ => rfl) (by simp [StopsPc.rank]) (by simp)
      (by simp [StopsPc.rank])
  | freeIrq =>
    exact h.advance ho .freeIrqWait (by rw [hen]; rfl) (hbegun hen (by simp)) (q := s.wq)
      (fun _ => rfl) (fun h3 => absurd rfl h3) (by simp [StopsPc.rank]) (by simp)
      (by simp [StopsPc.rank])
  | freeIrqReturn =>
    exact h.advance ho .flush (by rw [hen.1]; rfl) (hbegun hen.1 (by simp)) (q := s.wq)
      (by simp [StopsPc.rank]) (fun _ => rfl) (fun _ => hen.2) (by simp) (by simp [StopsPc.rank])
  | flushWorkqueue =>
    exact h.advance ho (.flushWait s.queued) (by rw [hen]; rfl) (hbegun hen (by simp)) (q := s.wq)
      (by simp [StopsPc.rank]) (fun _ => rfl) (by simp [StopsPc.rank]) (by simp [eq_comm])
      (by simp [StopsPc.rank])
  | flushReturn =>
    obtain ⟨n, hle, hen⟩ := hen
    have hn := h.waiting n hen
    have hdrained : s.drained := State.outstanding_eq_zero.1 (by omega)
    exact h.advance ho .drain (by rw [hen]; rfl) (hbegun hen (by simp)) (q := s.wq)
      (by simp [StopsPc.rank]) (fun _ => rfl) (by simp [StopsPc.rank]) (by simp) (fun _ => hdrained)
  | drain =>
    exact h.advance ho .invalidate (by rw [hen.1]; rfl) (hbegun hen.1 (by simp)) (q := s.wq)
      (by simp [StopsPc.rank]) (fun _ => rfl) (by simp [StopsPc.rank]) (by simp)
      (by simp [StopsPc.rank])
  | invalidate =>
    exact h.advance ho .returned (by rw [hen]; rfl) (hbegun hen (by simp)) (by simp [StopsPc.rank])
      (fun _ => rfl) (by simp [StopsPc.rank]) (by simp) (by simp [StopsPc.rank])

/-- The runs of the handler that have begun. -/
def State.begun (s : State) : ℕ := s.finished + s.handler.running

/-- The worker begins a run of the handler at each `workerRun`, and the interrupt handler queues
one at most. -/
theorem counts_of_step (hs : step s e = some s') :
    s'.begun = s.begun + [e].count .workerRun ∧ s'.queued ≤ s.queued + [e].count .irqQueueWork := by
  obtain ⟨-, hen, rfl⟩ := step_eq_some.1 hs
  cases e with
  | requestIrq ok => cases ok <;> exact ⟨rfl, Nat.le_add_right _ _⟩
  | irqQueueWork =>
    rw [effect, State.queueWork]
    split_ifs
    · exact ⟨rfl, Nat.le_add_right _ _⟩
    · exact ⟨rfl, Nat.le_refl _⟩
    · exact ⟨rfl, Nat.le_add_right _ _⟩
  | workerRun =>
    obtain ⟨-, -, hidle⟩ := hen
    simp [effect, State.begun, HandlerPc.running, hidle]
  | handler mem =>
    rw [effect, State.runHandler]
    split
    · exact ⟨rfl, Nat.le_add_right _ _⟩
    · simp only [State.begun, HandlerPc.running_of_ne hen.1]
      split_ifs with hpc
      · simp [hpc, HandlerPc.running]
      · simp [HandlerPc.running_of_ne hpc]
  | _ => exact ⟨rfl, Nat.le_add_right _ _⟩

theorem counts_of_runs (hrun : Runs step s es s') :
    s'.begun = s.begun + es.count .workerRun ∧ s'.queued ≤ s.queued + es.count .irqQueueWork := by
  induction es generalizing s with
  | nil =>
    obtain rfl := runs_nil.1 hrun
    simp
  | cons e es ih =>
    obtain ⟨t, ht, hrun⟩ := runs_cons.1 hrun
    obtain ⟨hb, hq⟩ := counts_of_step ht
    obtain ⟨hb', hq'⟩ := ih hrun
    rw [List.count_singleton] at hb hq
    rw [List.count_cons, List.count_cons]
    omega

/-- A pending work item stays pending until the worker takes it. -/
theorem pending_of_runs (hrun : Runs step s es s') (hp : s.pending = true)
    (hes : .workerRun ∉ es) : s'.pending = true := by
  refine hrun.invariant (I := fun s => s.pending = true) (G := fun _ e => e ≠ .workerRun)
    (fun s e s' hp hne hs => ?_) (along_of_forall fun e he => ?_) hp
  · obtain ⟨-, -, rfl⟩ := step_eq_some.1 hs
    cases e with
    | requestIrq ok => cases ok <;> exact hp
    | irqQueueWork =>
      rw [effect, State.queueWork]
      split_ifs
      · exact hp
      · exact hp
    | workerRun => exact absurd rfl hne
    | handler mem =>
      obtain ⟨pc, d, n, o, hr⟩ := s.runHandler_eq mem
      rw [effect, hr]
      exact hp
    | _ => exact hp
  · rintro rfl
    exact hes he

/-- A call of `queue_work` that does not fault leaves the work item pending. -/
theorem pending_of_queueWork (hs : step s .irqQueueWork = some s') (ho : s'.oops = false) :
    s'.pending = true := by
  obtain ⟨-, -, rfl⟩ := step_eq_some.1 hs
  rw [effect, State.queueWork] at ho ⊢
  split_ifs at ho ⊢ with hready hp
  · exact hp
  · rfl

/-- **No interrupt is lost, and none is served twice.** In every run from the load of the module in
which `flush_workqueue` has returned: after each call of `queue_work` the worker has begun a run of
the handler; all runs that it began have finished, and there were at most as many as interrupts that
queued the work; and nothing is left in the queue that `destroy_workqueue` is about to drain. -/
theorem served_before_flush_returns (hrun : Runs step (load d) es s')
    (hflush : 6 ≤ s'.stops.rank) :
    (∀ es₁ es₂, es = es₁ ++ .irqQueueWork :: es₂ → .workerRun ∈ es₂) ∧
      s'.finished = es.count .workerRun ∧ es.count .workerRun ≤ es.count .irqQueueWork ∧
      s'.pending = false ∧ s'.handler = .idle := by
  have h : Serving s' := hrun.invariant' (fun _ _ _ h hs => h.preserved hs) (serving_load d)
  obtain ⟨hp, hidle⟩ := h.drained hflush
  have hq := h.queued
  rw [State.outstanding_eq_zero.2 ⟨hp, hidle⟩] at hq
  obtain ⟨hbegun, hqueued⟩ := counts_of_runs hrun
  simp only [State.begun, HandlerPc.running, hidle, load, Nat.add_zero, Nat.zero_add]
    at hbegun hqueued
  refine ⟨?_, hbegun, by omega, hp, hidle⟩
  rintro es₁ es₂ rfl
  obtain ⟨t, -, hrun⟩ := runs_append.1 hrun
  obtain ⟨u, hu, hrun⟩ := runs_cons.1 hrun
  by_contra hw
  -- a fault would have stopped the module before `stops`
  have ho : u.oops = false := by
    cases es₂ with
    | nil => exact runs_nil.1 hrun ▸ h.oops hflush
    | cons e es₂ =>
      obtain ⟨v, hv, -⟩ := runs_cons.1 hrun
      exact (step_eq_some.1 hv).1
  have hp' := pending_of_runs hrun (pending_of_queueWork hu ho) hw
  rw [hp] at hp'
  cases hp'

/-- Two interrupts that share a run of the handler, and one that comes while it runs. -/
def sharedSample : List Event :=
  [.requestIrq true, .createWorkqueue true, .initWork, .irqEnter, .irqEnter, .irqQueueWork,
    .irqQueueWork, .workerRun, .handler none, .irqEnter, .irqQueueWork, .handler none,
    .irqReturn, .irqReturn, .stopsBegin, .irqReturn, .synchronizeIrq, .freeIrq, .freeIrqReturn,
    .flushWorkqueue, .workerRun, .handler none, .handler none, .flushReturn]

theorem served_before_flush_returns_sample :
    ∃ s', Runs step (load (Data.load (fun _ => 0) ⟨.node, .node⟩)) sharedSample s' ∧
      s'.stops = .drain ∧ s'.finished = 2 ∧ sharedSample.count .irqQueueWork = 3 := by
  obtain ⟨s', hrun⟩ : ∃ s', Runs step (load (Data.load (fun _ => 0) ⟨.node, .node⟩))
      sharedSample s' := ⟨_, rfl⟩
  have hstops : s'.stops = .drain := by
    cases hrun
    rfl
  obtain ⟨-, hfin, -⟩ := served_before_flush_returns hrun (by rw [hstops]; decide)
  exact ⟨s', hrun, hstops, hfin.trans (by decide), by decide⟩

/-! ## Unloading comes to an end -/

/-- A bound for the steps that a run of the handler has left. -/
def HandlerPc.rank : HandlerPc → ℕ
  | .idle => 0
  | .unlock => 1
  | .add => 2
  | .kmalloc => 3
  | .delete i => 2 + (batch - i)
  | .print _ seen => 17 + (batch - seen.length)
  | .flush => 32
  | .lock => 33

/-- The list that `print_list` walks has 14 nodes. -/
theorem Inv.seen_lt {a : Addr} {seen : List (Addr × ℤ)} (h : Inv (.print (.data a) seen) d) :
    seen.length < batch := by
  obtain ⟨-, nodes, -, hlen, -, l₁, l₂, hsplit, rfl, hpos⟩ := h.agrees
  cases l₂ with
  | nil => cases hpos
  | cons b l₂ =>
    have hl := congrArg List.length hsplit
    simp only [List.length_reverse, List.length_append, List.length_cons] at hl
    rw [List.length_map]
    omega

/-- **Whatever `kmalloc` returns, the handler comes to its end.** -/
theorem Inv.rank_lt {mem : Option Addr} {pc pc' : HandlerPc} {d' : Data} (h : Inv pc d)
    (hs : handlerStep mem pc d = some (pc', d')) : pc'.rank < pc.rank := by
  cases handlerStep_moves hs with
  | @print _ a _ seen _ =>
    have hseen := h.seen_lt
    simp only [HandlerPc.rank, List.length_append, List.length_singleton]
    omega
  | @printed _ seen =>
    simp only [HandlerPc.rank, batch]
    omega
  | @delete _ i _ _ hi _ _ =>
    simp only [HandlerPc.rank]
    omega
  | @deleted _ i hi =>
    simp only [HandlerPc.rank]
    omega
  | flush _ => simp [HandlerPc.rank, batch]
  | _ => simp [HandlerPc.rank]

/-- A bound for the steps that all parties have left, once no interrupt can arrive: each invocation
of `my_interrupt` may yet queue a run of the handler. -/
def State.rank (s : State) : ℕ :=
  (8 - s.stops.rank) + 36 * s.entered + s.leaving + 34 * s.pending.toNat + s.handler.rank

/-- What holds from the call of `free_irq` on. -/
structure Unloading (s : State) : Prop where
  working : Working s
  serving : Serving s
  called : 3 ≤ s.stops.rank

/-- From the call of `free_irq` on, every step of any party lowers the rank. -/
theorem Unloading.step_lt (h : Unloading s) (hs : step s e = some s') :
    Unloading s' ∧ s'.rank < s.rank := by
  have hw := h.working.preserved hs
  have hserving := h.serving.preserved hs
  have hc := h.working.control
  have hcalled := h.called
  suffices hlt : 3 ≤ s'.stops.rank ∧ s'.rank < s.rank from ⟨⟨hw, hserving, hlt.1⟩, hlt.2⟩
  obtain ⟨-, hen, rfl⟩ := step_eq_some.1 hs
  cases e with
  | requestIrq ok => simp [enabled, hc.start] at hen
  | createWorkqueue ok => simp [enabled, hc.start] at hen
  | initWork => simp [enabled, hc.start] at hen
  | irqEnter => simp [enabled, hc.unregistered hcalled] at hen
  | irqQueueWork =>
    have hr := hc.rank_of_entered hen
    obtain ⟨n, hn⟩ := State.queueWork_eq
      (s := { s with entered := s.entered - 1, leaving := s.leaving + 1 })
      (hc.wq_created (by omega)) hc.workInit
    rw [effect, hn]
    refine ⟨hcalled, ?_⟩
    simp only [enabled, State.rank, Bool.toNat_true] at hen ⊢
    omega
  | irqReturn =>
    refine ⟨hcalled, ?_⟩
    simp only [enabled, effect, State.rank] at hen ⊢
    omega
  | workerRun =>
    obtain ⟨-, hp, hidle⟩ := hen
    refine ⟨hcalled, ?_⟩
    simp only [effect, State.rank, hp, hidle, HandlerPc.rank, Bool.toNat_true, Bool.toNat_false]
    omega
  | handler mem =>
    obtain ⟨pc', d', hstep, -⟩ := h.working.inv.preserved hen.1 hen.2
    have hlt := h.working.inv.rank_lt hstep
    simp only [effect, State.runHandler, hstep]
    refine ⟨hcalled, ?_⟩
    simp only [State.rank]
    omega
  | stopsBegin => simp [hen.2, StopsPc.rank] at hcalled
  | synchronizeIrq => simp [hen.1, StopsPc.rank] at hcalled
  | freeIrq => simp [show s.stops = .freeIrq from hen, StopsPc.rank] at hcalled
  | freeIrqReturn => simp [effect, State.rank, hen.1, StopsPc.rank]
  | flushWorkqueue => simp [effect, State.rank, show s.stops = .flush from hen, StopsPc.rank]
  | flushReturn =>
    obtain ⟨n, -, hen⟩ := hen
    simp [effect, State.rank, hen, StopsPc.rank]
  | drain => simp [effect, State.rank, hen.1, StopsPc.rank]
  | invalidate => simp [effect, State.rank, show s.stops = .invalidate from hen, StopsPc.rank]

/-- While there is something in the queue, the worker can go on. -/
theorem Unloading.worker_step (h : Unloading s) (hd : ¬s.drained) : ∃ e s', step s e = some s' := by
  have hrank := h.serving.rank_of_outstanding hd
  have hwq := h.working.control.wq_created (by omega)
  by_cases hidle : s.handler = .idle
  · have hp : s.pending = true := by
      by_contra hp
      exact hd ⟨by simpa using hp, hidle⟩
    exact ⟨.workerRun, _, step_eq_some.2 ⟨h.working.oops, ⟨hwq, hp, hidle⟩, rfl⟩⟩
  · exact ⟨.handler none, _, step_eq_some.2 ⟨h.working.oops, ⟨hidle, fun _ => trivial⟩, rfl⟩⟩

/-- From the call of `free_irq` on, the module is never stuck before `stops` has returned. -/
theorem Unloading.exists_step (h : Unloading s) (hret : s.stops ≠ .returned) :
    ∃ e s', step s e = some s' := by
  have ho := h.working.oops
  have hcalled := h.called
  cases hpc : s.stops with
  | notBegun => simp [hpc, StopsPc.rank] at hcalled
  | synchronizeIrq => simp [hpc, StopsPc.rank] at hcalled
  | freeIrq => simp [hpc, StopsPc.rank] at hcalled
  | freeIrqWait =>
    -- the call waits for the invocations in progress, each of which can go on
    by_cases hen : 0 < s.entered
    · exact ⟨.irqQueueWork, _, step_eq_some.2 ⟨ho, hen, rfl⟩⟩
    · by_cases hle : 0 < s.leaving
      · exact ⟨.irqReturn, _, step_eq_some.2 ⟨ho, hle, rfl⟩⟩
      · exact ⟨.freeIrqReturn, _, step_eq_some.2 ⟨ho, ⟨hpc, by omega, by omega⟩, rfl⟩⟩
  | flush => exact ⟨.flushWorkqueue, _, step_eq_some.2 ⟨ho, hpc, rfl⟩⟩
  | flushWait n =>
    by_cases hd : s.drained
    · have hn := h.serving.waiting n hpc
      have hq := h.serving.queued
      rw [State.outstanding_eq_zero.2 hd] at hq
      exact ⟨.flushReturn, _, step_eq_some.2 ⟨ho, ⟨n, by omega, hpc⟩, rfl⟩⟩
    · exact h.worker_step hd
  | drain =>
    have hd := h.serving.drained (by rw [hpc]; decide)
    exact ⟨.drain, _, step_eq_some.2 ⟨ho, ⟨hpc, hd⟩, rfl⟩⟩
  | invalidate => exact ⟨.invalidate, _, step_eq_some.2 ⟨ho, hpc, rfl⟩⟩
  | returned => exact absurd hpc hret

/-- A load of the module: until `start` returns, the queue and the data are untouched, and then the
module works, if it has a queue. -/
structure Loads (d : Data) (s : State) : Prop where
  before : s.start ≠ .returned → s.handler = .idle ∧ s.pending = false ∧ s.data = d ∧
    s.workInit = false ∧ s.stops = .notBegun
  after : s.start = .returned → s.wq = .created → Working s

theorem loads_load (d : Data) : Loads d (load d) :=
  ⟨fun _ => ⟨rfl, rfl, rfl, rfl, rfl⟩, fun h => by cases h⟩

/-- When `start` has returned, no step changes that, and none creates a queue. -/
theorem wq_of_step (hstart : s.start = .returned) (hs : step s e = some s') :
    s'.start = .returned ∧ (s'.wq = .created → s.wq = .created) := by
  obtain ⟨-, hen, rfl⟩ := step_eq_some.1 hs
  cases e with
  | requestIrq ok => simp [enabled, hstart] at hen
  | createWorkqueue ok => simp [enabled, hstart] at hen
  | initWork => simp [enabled, hstart] at hen
  | irqQueueWork =>
    rw [effect, State.queueWork]
    split_ifs <;> exact ⟨hstart, id⟩
  | handler mem =>
    obtain ⟨pc, d, n, o, hr⟩ := s.runHandler_eq mem
    rw [effect, hr]
    exact ⟨hstart, id⟩
  | invalidate => exact ⟨hstart, fun h => by cases h⟩
  | _ => exact ⟨hstart, id⟩

theorem Loads.preserved (hd : Inv .idle d) (h : Loads d s) (hs : step s e = some s') :
    Loads d s' := by
  by_cases hstart : s.start = .returned
  · obtain ⟨hstart', hwq⟩ := wq_of_step hstart hs
    exact ⟨fun hne => absurd hstart' hne, fun _ hc => (h.after hstart (hwq hc)).preserved hs⟩
  · obtain ⟨hidle, hp, hdata, hwork, hstops⟩ := h.before hstart
    have hkeep : ∀ {pc : StartPc} {r : Bool} {q : Wq} {i j : ℕ} {o : Bool}, pc ≠ .returned →
        Loads d { s with start := pc, registered := r, wq := q, entered := i, leaving := j,
                         oops := o } :=
      fun hpc => ⟨fun _ => ⟨hidle, hp, hdata, hwork, hstops⟩, fun hr => absurd hr hpc⟩
    obtain ⟨ho, hen, rfl⟩ := step_eq_some.1 hs
    cases e with
    | requestIrq ok =>
      cases ok
      · exact hkeep (r := s.registered) (q := s.wq) (i := s.entered) (j := s.leaving)
          (o := s.oops) (by decide)
      · exact hkeep (q := s.wq) (i := s.entered) (j := s.leaving) (o := s.oops) (by decide)
    | createWorkqueue ok =>
      exact hkeep (r := s.registered) (i := s.entered) (j := s.leaving) (o := s.oops) (by decide)
    | initWork =>
      refine ⟨fun hne => absurd rfl hne, fun _ hc => ?_⟩
      have hstarted : Started { s with workInit := true, start := .returned } :=
        ⟨rfl, rfl, hc, hstops, ho⟩
      exact ⟨hstarted.control, by simpa only [effect, hidle, hdata] using hd, ho⟩
    | irqEnter =>
      exact hkeep (r := s.registered) (q := s.wq) (j := s.leaving) (o := s.oops) hstart
    | irqQueueWork =>
      -- the work item is not initialised
      rw [effect, State.queueWork, if_neg (by simp [hwork])]
      exact hkeep (r := s.registered) (q := s.wq) hstart
    | irqReturn =>
      exact hkeep (r := s.registered) (q := s.wq) (i := s.entered) (o := s.oops) hstart
    | workerRun => simp [enabled, hp] at hen
    | handler mem => exact absurd hidle hen.1
    | stopsBegin => exact absurd hen.1 hstart
    | flushReturn =>
      obtain ⟨n, -, hen⟩ := hen
      simp [hstops] at hen
    | _ => simp [enabled, hstops] at hen

/-- **Unloading comes to an end.** From any state that the module reaches after `stops` has called
`free_irq`, with the queue that `start` has created: all parties together can take only so many
steps more, in whatever order and whatever `kmalloc` returns; and as long as `stops` has not
returned, one of them can take one. So every run that is not cut short ends with `stops`
returned. -/
theorem stops_returns {value : Addr → ℤ} {links : Links Head} {es' : List Event}
    (hrun : Runs step (load (Data.load value links)) es s) (hwq : s.wq = .created)
    (hcalled : 3 ≤ s.stops.rank) (hrest : Runs step s es' s') :
    es'.length ≤ 72 + 36 * s.entered + s.leaving ∧
      ((∀ e, step s' e = none) → s'.stops = .returned) := by
  have hload : Inv .idle (Data.load value links) :=
    ⟨⟨[], Batch.nil _, rfl, isRing_initListHead links .head⟩, .nil⟩
  have hserving : Serving s := hrun.invariant' (fun _ _ _ h hs => h.preserved hs) (serving_load _)
  have hloads : Loads _ s := hrun.invariant' (fun _ _ _ h hs => h.preserved hload hs) (loads_load _)
  have hstart : s.start = .returned := hserving.begun fun hn => by
    rw [hn] at hcalled
    simp [StopsPc.rank] at hcalled
  have h : Unloading s := ⟨hloads.after hstart hwq, hserving, hcalled⟩
  constructor
  · have hlen := hrest.length_le_of_rank State.rank (fun _ _ _ h hs => h.step_lt hs) h
    have hp : s.pending.toNat ≤ 1 := Bool.toNat_le _
    have hpc : s.handler.rank ≤ 33 := by
      cases s.handler <;> simp only [HandlerPc.rank, batch] <;> omega
    simp only [State.rank] at hlen
    omega
  · intro hstuck
    have h' : Unloading s' := hrest.invariant' (fun _ _ _ h hs => (h.step_lt hs).1) h
    by_contra hret
    obtain ⟨e, t, ht⟩ := h'.exists_step hret
    rw [hstuck e] at ht
    cases ht

theorem stops_returns_sample :
    ∃ s s', Runs step (load (Data.load (fun _ => 0) ⟨.node, .node⟩)) (sharedSample.take 18) s ∧
      Runs step s (sharedSample.drop 18) s' ∧ (sharedSample.drop 18).length ≤ 72 := by
  obtain ⟨s, hrun⟩ : ∃ s, Runs step (load (Data.load (fun _ => 0) ⟨.node, .node⟩))
      (sharedSample.take 18) s := ⟨_, rfl⟩
  have hs : s.wq = .created ∧ s.stops = .freeIrqWait ∧ s.entered = 0 ∧ s.leaving = 0 := by
    cases hrun
    exact ⟨rfl, rfl, rfl, rfl⟩
  obtain ⟨hwq, hstops, hen, hle⟩ := hs
  obtain ⟨s', hrest⟩ : ∃ s', Runs step s (sharedSample.drop 18) s' := by
    cases hrun
    exact ⟨_, rfl⟩
  have hlen := (stops_returns hrun hwq (by rw [hstops]; decide) hrest).1
  rw [hen, hle] at hlen
  exact ⟨s, s', hrun, hrest, hlen⟩

end Lkb.WorkQueueDedicated
