import Lkb.WorkQueueGlobal.System

/-!
# The wake-up of `work_queue_global`

As long as no signal ends its wait, `start` goes past `wait_event_interruptible` only when
`do_work_handler` has set the condition, and the wake-up of the handler is not lost: `start` has
enqueued before it tests the condition, and the handler sets the condition before it wakes the queue
up. So `start` does not sleep when the handler comes to `kfree`, and from there it comes to its
return by its own steps. The values that the two print are those that the other one has written.
-/

namespace Lkb.WorkQueueGlobal

open WaitEvent Run

variable {s s' : State} {e : Event} {reply : Bool}

/-- No signal is pending when `start` looks for one in its wait. -/
def NoSignal (s : State) (e : Event) : Prop := e = .start true → s.start ≠ .waitEvent

instance (s : State) (e : Event) : Decidable (NoSignal s e) := inferInstanceAs (Decidable (_ → _))

/-- `start` has gone past its wait. -/
def StartPc.pastWait : StartPc → Bool
  | .printk => true
  | .returned ret => ret = 0
  | _ => false

/-- `start` has assigned `my_data->data`. -/
def StartPc.assigned : StartPc → Bool
  | .kmalloc | .setData => false
  | .returned ret => ret = 0
  | _ => true

/-- The handler has woken the queue up. -/
def HandlerPc.woke : HandlerPc → Bool
  | .kfree | .finished => true
  | _ => false

/-- `start` sleeps on the queue, and nothing has woken it up. -/
def State.Sleeping (s : State) : Prop :=
  s.start = .waitEvent ∧ s.waiter.pc = .asleep ∧ s.waiter.runnable = false

/-- The values that a line may show. -/
def Message.Sensible : Message → Prop
  | .kmallocFailed => True
  | .goingToSleep c => c = 0 ∨ c = 5
  | .insideWorkHandler v => v = 1400
  | .wokenUp c => c = 5

/-- What holds in every state of a run without signals. -/
structure Inv (s : State) : Prop where
  early : s.start.early → s.handler = .notScheduled
  condition : s.condition = if s.handler.late then 5 else 0
  waiter : s.waiter.Sound s.handler.late
  waiting : s.start.pastWait = false → ∀ ret, s.waiter.pc ≠ .done ret
  pastWait : s.start.pastWait → s.handler.late
  awake : s.handler.woke → s.waiter.Awake
  data : s.start.assigned → s.data = 1400
  scheduled : s.handler ≠ .notScheduled → s.start.assigned
  log : ∀ x ∈ s.log, x.Sensible

theorem inv_load : Inv load where
  early := fun _ => rfl
  condition := rfl
  waiter := Waiter.sound_begin false
  waiting := fun _ => nofun
  pastWait := nofun
  awake := nofun
  data := nofun
  scheduled := fun h => absurd rfl h
  log := nofun

theorem HandlerPc.late_of_woke {pc : HandlerPc} (h : pc.woke) : pc.late := by
  cases pc with
  | kfree | finished => rfl
  | _ => cases h

theorem Inv.decide_condition (h : Inv s) : decide (s.condition ≠ 0) = s.handler.late := by
  rw [h.condition]
  cases s.handler.late <;> rfl

/-- One more sensible line. -/
theorem Inv.log_concat (h : Inv s) {x : Message} (hx : x.Sensible) :
    ∀ y ∈ s.log ++ [x], y.Sensible := by
  intro y hy
  obtain hy | hy := List.mem_append.1 hy
  · exact h.log y hy
  · obtain rfl := List.mem_singleton.1 hy
    exact hx

theorem Inv.wait_step (h : Inv s) {w : Waiter} (hpc : s.start = .waitEvent)
    (hw : s.waiter.step (decide (s.condition ≠ 0)) false = some w) :
    Inv { s with waiter := w, start := if w.pc.inLoop then .waitEvent else .printk } := by
  rw [h.decide_condition] at hw
  have hsound := h.waiter.step hw
  have hdata : s.data = 1400 := h.data (by rw [hpc]; rfl)
  cases hloop : w.pc.inLoop with
  | true =>
    refine ⟨nofun, h.condition, hsound, fun _ ret hret => ?_, nofun, fun hwoke => ?_,
      fun _ => hdata, fun _ => rfl, h.log⟩
    · rw [hret] at hloop
      cases hloop
    · rw [HandlerPc.late_of_woke hwoke] at hw
      exact ((h.awake hwoke).step hw).1
  | false =>
    refine ⟨nofun, h.condition, hsound, nofun, fun _ => ?_, fun hwoke => ?_, fun _ => hdata,
      fun _ => rfl, h.log⟩
    · exact hsound.passed (.inr (Waiter.done_of_step hw hloop))
    · rw [HandlerPc.late_of_woke hwoke] at hw
      exact ((h.awake hwoke).step hw).1

theorem Inv.start_step (h : Inv s) (hG : NoSignal s (.start reply))
    (hs : startStep reply s = some s') : Inv s' := by
  unfold startStep at hs
  cases hpc : s.start with
  | kmalloc =>
    have hnot := h.early (by rw [hpc]; rfl)
    have hwaiting := h.waiting (by rw [hpc]; rfl)
    simp only [hpc] at hs
    split_ifs at hs
    · cases hs
      exact ⟨fun _ => hnot, h.condition, h.waiter, fun _ => hwaiting, nofun, h.awake, nofun,
        fun hne => absurd hnot hne, h.log⟩
    · cases hs
      exact ⟨nofun, h.condition, h.waiter, fun _ => hwaiting, nofun, h.awake, nofun,
        fun hne => absurd hnot hne, h.log_concat trivial⟩
  | setData | initWork =>
    have hnot := h.early (by rw [hpc]; rfl)
    have hwaiting := h.waiting (by rw [hpc]; rfl)
    have hdata := h.data
    rw [hpc] at hs hdata
    cases hs
    exact ⟨fun _ => hnot, h.condition, h.waiter, fun _ => hwaiting, nofun, h.awake,
      fun _ => by first | rfl | exact hdata rfl, fun _ => rfl, h.log⟩
  | initWaitqueueHead =>
    have hnot := h.early (by rw [hpc]; rfl)
    have hdata := h.data (by rw [hpc]; rfl)
    rw [hpc] at hs
    cases hs
    refine ⟨fun _ => hnot, h.condition, Waiter.sound_begin _, fun _ => nofun, nofun,
      fun hwoke => ?_, fun _ => hdata, fun _ => rfl, h.log⟩
    rw [hnot] at hwoke
    cases hwoke
  | scheduleWork =>
    have hnot := h.early (by rw [hpc]; rfl)
    have hdata := h.data (by rw [hpc]; rfl)
    have hwaiting := h.waiting (by rw [hpc]; rfl)
    have hcondition := h.condition
    have hwaiter := h.waiter
    rw [hnot] at hcondition hwaiter
    rw [hpc] at hs
    cases hs
    exact ⟨nofun, hcondition, hwaiter, fun _ => hwaiting, nofun, nofun, fun _ => hdata,
      fun _ => rfl, h.log⟩
  | prInfo =>
    have hdata := h.data (by rw [hpc]; rfl)
    have hwaiting := h.waiting (by rw [hpc]; rfl)
    have hvalue : s.condition = 0 ∨ s.condition = 5 := by
      rw [h.condition]
      cases s.handler.late <;> simp
    rw [hpc] at hs
    cases hs
    exact ⟨nofun, h.condition, h.waiter, fun _ => hwaiting, nofun, h.awake, fun _ => hdata,
      fun _ => rfl, h.log_concat hvalue⟩
  | waitEvent =>
    have hreply : reply = false := by
      by_contra hreply
      exact hG (by simpa using hreply) hpc
    rw [hpc, hreply] at hs
    obtain ⟨w, hw, rfl⟩ := Option.map_eq_some_iff.1 hs
    exact h.wait_step hpc hw
  | printk =>
    have hdata := h.data (by rw [hpc]; rfl)
    have hlate := h.pastWait (by rw [hpc]; rfl)
    have hvalue : s.condition = 5 := by rw [h.condition, if_pos hlate]
    rw [hpc] at hs
    cases hs
    exact ⟨nofun, h.condition, h.waiter, nofun, fun _ => hlate, h.awake, fun _ => hdata,
      fun _ => rfl, h.log_concat hvalue⟩
  | returned ret =>
    rw [hpc] at hs
    cases hs

theorem Inv.handler_step (h : Inv s) (hs : handlerStep s = some s') : Inv s' := by
  have hassigned : s.handler ≠ .notScheduled → s.start.assigned := h.scheduled
  have hnotEarly : s.handler ≠ .notScheduled → ¬s.start.early := mt h.early
  have hcondition := h.condition
  have hwaiter := h.waiter
  have hpast := h.pastWait
  have hawake := h.awake
  unfold handlerStep at hs
  cases hpc : s.handler with
  | notScheduled | finished =>
    rw [hpc] at hs
    cases hs
  | pending | msleep =>
    rw [hpc] at hs hassigned hnotEarly hcondition hwaiter hpast hawake
    cases hs
    exact ⟨fun he => absurd he (hnotEarly (by simp)), hcondition, hwaiter, h.waiting, hpast, hawake,
      h.data, fun _ => hassigned (by simp), h.log⟩
  | prInfo =>
    rw [hpc] at hs hassigned hnotEarly hcondition hwaiter hpast hawake
    have hdata : s.data = 1400 := h.data (hassigned (by simp))
    cases hs
    exact ⟨fun he => absurd he (hnotEarly (by simp)), hcondition, hwaiter, h.waiting, hpast, hawake,
      h.data, fun _ => hassigned (by simp), h.log_concat hdata⟩
  | setCondition =>
    rw [hpc] at hs hassigned hnotEarly hwaiter
    cases hs
    exact ⟨fun he => absurd he (hnotEarly (by simp)), rfl, hwaiter.mono, h.waiting, fun _ => rfl,
      nofun, h.data, fun _ => hassigned (by simp), h.log⟩
  | wakeUp =>
    rw [hpc] at hs hassigned hnotEarly hcondition hwaiter
    cases hs
    refine ⟨fun he => absurd he (hnotEarly (by simp)), hcondition, hwaiter.wakeUp, fun hp ret => ?_,
      fun _ => rfl, fun _ => hwaiter.awake_wakeUp, h.data, fun _ => hassigned (by simp), h.log⟩
    rw [Waiter.wakeUp_pc]
    exact h.waiting hp ret
  | kfree =>
    rw [hpc] at hs hassigned hnotEarly hcondition hwaiter hawake
    cases hs
    exact ⟨fun he => absurd he (hnotEarly (by simp)), hcondition, hwaiter, h.waiting, fun _ => rfl,
      fun _ => hawake rfl, h.data, fun _ => hassigned (by simp), h.log⟩

theorem Inv.preserved (h : Inv s) (hG : NoSignal s e) (hs : step s e = some s') : Inv s' := by
  cases e with
  | start reply => exact h.start_step hG hs
  | handler => exact h.handler_step hs
  | spurious =>
    cases hs
    exact ⟨h.early, h.condition, h.waiter.spurious, h.waiting, h.pastWait,
      fun _ => Waiter.awake_spurious s.waiter, h.data, h.scheduled, h.log⟩
  | stops =>
    simp only [step, Option.ite_none_right_eq_some, Option.some.injEq] at hs
    obtain ⟨-, rfl⟩ := hs
    exact ⟨h.early, h.condition, h.waiter, h.waiting, h.pastWait, h.awake, h.data, h.scheduled,
      h.log⟩

/-- **The wake-up is neither early nor lost.** In every interleaving of `start` with the handler,
with spurious wake-ups at any time but without a signal: `start` is past its wait only when the
handler has set the condition; it does not sleep any more when the handler has woken the queue up;
and the lines show what was assigned: 1400 in the handler, and 5 after the wait. -/
theorem woken_up_by_handler {es : List Event} (h : Along step NoSignal load es) :
    Always step (fun s => (s.start.pastWait → s.handler.late) ∧ ¬(s.handler.woke ∧ s.Sleeping) ∧
      ∀ x ∈ s.log, x.Sensible) load es := by
  refine Always.of_invariant (I := Inv) (fun s e s' h hG hs => h.preserved hG hs) (fun s h => ?_) h
    inv_load
  refine ⟨h.pastWait, ?_, h.log⟩
  rintro ⟨hwoke, -, hpc, hrun⟩
  have hawake := h.awake hwoke (.inr hpc)
  rw [hrun] at hawake
  cases hawake

/-- `start` sleeps when the handler sets the condition and wakes it up. -/
theorem woken_up_by_handler_sample :
    Always step (fun s => (s.start.pastWait → s.handler.late) ∧ ¬(s.handler.woke ∧ s.Sleeping) ∧
      ∀ x ∈ s.log, x.Sensible) load
      (.start true :: List.replicate 9 (.start false) ++ List.replicate 5 .handler ++
        List.replicate 5 (.start false)) :=
  woken_up_by_handler (by decide)

/-! ## After the wake-up -/

/-- How many steps `start` is away from its return. -/
def rank (s : State) : ℕ :=
  match s.start with
  | .kmalloc => 13
  | .setData => 12
  | .initWork => 11
  | .initWaitqueueHead => 10
  | .scheduleWork => 9
  | .prInfo => 8
  | .waitEvent => s.waiter.pc.rank + 2
  | .printk => 1
  | .returned _ => 0

/-- After the wake-up, `start` can take its next step, and comes closer to its return. -/
theorem Inv.progress (h : Inv s) (hwoke : s.handler.woke) (hret : ∀ ret, s.start ≠ .returned ret) :
    ∃ s', step s (.start false) = some s' ∧ s'.handler = s.handler ∧ rank s' < rank s := by
  have hlate := HandlerPc.late_of_woke hwoke
  have hnotEarly : ¬s.start.early := by
    intro he
    rw [h.early he] at hwoke
    cases hwoke
  cases hpc : s.start with
  | kmalloc | setData | initWork | initWaitqueueHead | scheduleWork =>
    exact absurd (by rw [hpc]; rfl) hnotEarly
  | prInfo =>
    have hs : step s (.start false) = some { s with
        log := s.log ++ [.goingToSleep s.condition], start := .waitEvent } := by
      simp only [step, startStep, hpc]
    have hle : s.waiter.pc.rank ≤ 5 := by
      cases s.waiter.pc <;> simp [Pc.rank]
    refine ⟨_, hs, rfl, ?_⟩
    simp only [rank, hpc]
    omega
  | waitEvent =>
    have hawake := h.awake hwoke
    obtain ⟨w, hw⟩ : ∃ w, s.waiter.step true false = some w :=
      hawake.exists_step (h.waiting (by rw [hpc]; rfl))
    have hlt := (hawake.step hw).2
    have hs : step s (.start false) = some { s with
        waiter := w, start := if w.pc.inLoop then .waitEvent else .printk } := by
      simp only [step, startStep, hpc, h.decide_condition, hlate, hw, Option.map_some]
    refine ⟨_, hs, rfl, ?_⟩
    cases hloop : w.pc.inLoop with
    | true => simpa [rank, hpc, hloop] using hlt
    | false =>
      simp only [rank, hpc, Bool.false_eq_true, if_false]
      omega
  | printk =>
    have hs : step s (.start false) = some { s with
        log := s.log ++ [.wokenUp s.condition], start := .returned 0 } := by
      simp only [step, startStep, hpc]
    exact ⟨_, hs, rfl, by simp [rank, hpc]⟩
  | returned ret => exact absurd hpc (hret ret)

/-- **The wake-up is enough.** In a run without signals, whenever the handler has woken the queue up
and has not freed the memory yet, `start` returns 0 by its own steps, before the memory is freed. -/
theorem start_returns_before_kfree {es : List Event} (hrun : Runs step load es s)
    (hG : Along step NoSignal load es) (hkfree : s.handler = .kfree) :
    ∃ n s', Runs step s (List.replicate n (.start false)) s' ∧ s'.start = .returned 0 ∧
      s'.handler = .kfree := by
  have hI : Inv s := hrun.invariant (fun s e s' h hG hs => h.preserved hG hs) hG inv_load
  have hcloser : ∀ s, (Inv s ∧ s.handler = .kfree) → ¬(∃ ret, s.start = .returned ret) →
      ∃ e s', e = .start false ∧ step s e = some s' ∧ (Inv s' ∧ s'.handler = .kfree) ∧
        rank s' < rank s := by
    rintro s ⟨h, hkfree⟩ hret
    obtain ⟨s', hs, hhandler, hlt⟩ :=
      h.progress (by rw [hkfree]; rfl) fun ret hpc => hret ⟨ret, hpc⟩
    have hG : NoSignal s (.start false) := fun he => absurd he (by simp)
    exact ⟨.start false, s', rfl, hs, ⟨h.preserved hG hs, hhandler.trans hkfree⟩, hlt⟩
  obtain ⟨es', s', hes', hrun', ⟨hI', hkfree'⟩, ret, hret⟩ :=
    Runs.exists_of_rank rank hcloser ⟨hI, hkfree⟩
  rw [List.eq_replicate_of_mem hes'] at hrun'
  refine ⟨es'.length, s', hrun', ?_, hkfree'⟩
  have hzero := hI'.scheduled (by simp [hkfree'])
  rw [hret] at hzero ⊢
  rw [of_decide_eq_true hzero]

/-- `start` sleeps when it is woken up. -/
theorem start_returns_before_kfree_sample :
    ∃ s n s', Runs step load (.start true :: List.replicate 9 (.start false) ++
        List.replicate 5 .handler) s ∧ s.waiter.pc = .asleep ∧
      Runs step s (List.replicate n (.start false)) s' ∧ s'.start = .returned 0 := by
  have hrun : ∃ s, Runs step load (.start true :: List.replicate 9 (.start false) ++
      List.replicate 5 .handler) s ∧ s.waiter.pc = .asleep ∧ s.handler = .kfree :=
    ⟨_, rfl, rfl, rfl⟩
  obtain ⟨s, hrun, hpc, hkfree⟩ := hrun
  obtain ⟨n, s', hrun', hret, -⟩ := start_returns_before_kfree hrun (by decide) hkfree
  exact ⟨s, n, s', hrun, hpc, hrun', hret⟩

end Lkb.WorkQueueGlobal
