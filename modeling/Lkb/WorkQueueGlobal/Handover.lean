import Lkb.WorkQueueGlobal.System

/-!
# Who owns `my_data` in `work_queue_global`

`do_work_handler` frees the memory that holds the wait queue on which `start` waits. A waiter that
is woken up goes back to the queue before it tests the condition again, so `start` works on freed
memory whenever the `kfree` finds it inside its wait (`not_safe_in_wait`).

`no_use_after_free`: a run in which every `kfree` finds `start` before its first test or past the
end of its wait has no access of `start` to freed memory; and a run in which `start` returns
without such an access has met that condition.
-/

namespace Lkb.WorkQueueGlobal

open WaitEvent Run

variable {s s' : State} {e : Event} {reply : Bool}

/-- The step is not an access of `start` to `*my_data` after `kfree(my_data)`. -/
def NoUseAfterFree (s : State) : Event → Prop
  | .start _ => s.touches = true → s.memory ≠ .freed
  | _ => True

/-- The condition on a step: `kfree(my_data)` does not run while `start` is in the loop of its
wait. -/
def FreedOutsideWait (s : State) : Event → Prop
  | .handler => s.handler = .kfree → ¬s.InWait
  | _ => True

instance (s : State) : (e : Event) → Decidable (NoUseAfterFree s e)
  | .start _ => inferInstanceAs (Decidable (_ → _))
  | .handler | .spurious | .stops => isTrue trivial

instance (s : State) : (e : Event) → Decidable (FreedOutsideWait s e)
  | .handler => inferInstanceAs (Decidable (_ → ¬(_ ∧ _)))
  | .start _ | .spurious | .stops => isTrue trivial

/-- The invariant of a run that meets the condition. -/
structure Handover (s : State) : Prop where
  early : s.start.early → s.handler = .notScheduled
  set : s.handler.late → s.condition ≠ 0
  wait : s.waiter.pc.inLoop → s.start = .waitEvent
  freed : s.memory = .freed → s.handler = .finished ∧ s.waiter.pc.inLoop = false

theorem handover_load : Handover load := ⟨fun _ => rfl, nofun, nofun, nofun⟩

/-- `start` is not in its wait while it is at another statement. -/
theorem Handover.inLoop_eq_false (h : Handover s) (hs : s.start ≠ .waitEvent) :
    s.waiter.pc.inLoop = false := by
  by_contra hloop
  exact hs (h.wait (by simpa using hloop))

/-- Before the work item is scheduled, nothing is freed. -/
theorem Handover.not_freed_of_early (h : Handover s) (hs : s.start.early) : s.memory ≠ .freed := by
  intro hfreed
  have hfinished := (h.freed hfreed).1
  rw [h.early hs] at hfinished
  cases hfinished

/-- A step of `start` outside its wait keeps the invariant. -/
theorem Handover.start_step (h : Handover s) (hs : s.start ≠ .waitEvent) {pc : StartPc} {d : ℤ}
    {l : List Message} (hpc : pc.early → s.start.early) :
    Handover { s with start := pc, data := d, log := l } where
  early hearly := h.early (hpc hearly)
  set := h.set
  wait hloop := absurd hloop (by simp [h.inLoop_eq_false hs])
  freed := h.freed

/-- The step of `start` in its wait keeps the invariant: once the memory is freed, the condition is
set and a first test is true. -/
theorem Handover.wait_step (h : Handover s) {w : Waiter}
    (hw : s.waiter.step (decide (s.condition ≠ 0)) reply = some w) :
    Handover { s with waiter := w, start := if w.pc.inLoop then .waitEvent else .printk } where
  early hearly := by
    dsimp only at hearly
    split_ifs at hearly <;> cases hearly
  set := h.set
  wait hloop := if_pos hloop
  freed hfreed := by
    obtain ⟨hfinished, hloop⟩ := h.freed hfreed
    have hset : s.condition ≠ 0 := h.set (by rw [hfinished]; rfl)
    rw [decide_eq_true hset] at hw
    exact ⟨hfinished, Waiter.step_first hw hloop⟩

theorem Handover.start_preserved (h : Handover s) (hs : startStep reply s = some s') :
    Handover s' := by
  unfold startStep at hs
  cases hpc : s.start with
  | waitEvent =>
    rw [hpc] at hs
    obtain ⟨w, hw, rfl⟩ := Option.map_eq_some_iff.1 hs
    exact h.wait_step hw
  | kmalloc =>
    have hearly : s.start.early := by rw [hpc]; rfl
    have hloop := h.inLoop_eq_false (by simp [hpc])
    rw [hpc] at hs
    cases reply with
    | true =>
      cases hs
      exact ⟨fun _ => h.early hearly, h.set, fun hl => absurd hl (by simp [hloop]), nofun⟩
    | false =>
      cases hs
      exact h.start_step (d := s.data) (by simp [hpc]) nofun
  | initWaitqueueHead =>
    have hearly : s.start.early := by rw [hpc]; rfl
    rw [hpc] at hs
    cases hs
    exact ⟨fun _ => h.early hearly, h.set, nofun, fun hf => absurd hf (h.not_freed_of_early hearly)⟩
  | scheduleWork =>
    have hearly : s.start.early := by rw [hpc]; rfl
    have hloop := h.inLoop_eq_false (by simp [hpc])
    rw [hpc] at hs
    cases hs
    exact ⟨nofun, nofun, fun hl => absurd hl (by simp [hloop]),
      fun hf => absurd hf (h.not_freed_of_early hearly)⟩
  | setData =>
    rw [hpc] at hs
    cases hs
    exact h.start_step (l := s.log) (by simp [hpc]) (fun _ => by rw [hpc]; rfl)
  | initWork =>
    rw [hpc] at hs
    cases hs
    exact h.start_step (d := s.data) (l := s.log) (by simp [hpc]) (fun _ => by rw [hpc]; rfl)
  | prInfo =>
    rw [hpc] at hs
    cases hs
    exact h.start_step (d := s.data) (by simp [hpc]) nofun
  | printk =>
    rw [hpc] at hs
    cases hs
    exact h.start_step (d := s.data) (by simp [hpc]) nofun
  | returned ret =>
    rw [hpc] at hs
    cases hs

/-- A handler that has begun was scheduled, so `start` is past that. -/
theorem Handover.not_early (h : Handover s) (hh : s.handler ≠ .notScheduled) :
    s.start.early = false := by
  by_contra hearly
  exact hh (h.early (by simpa using hearly))

/-- Unless the handler has finished, nothing is freed. -/
theorem Handover.not_freed_of_handler (h : Handover s) (hh : s.handler ≠ .finished) :
    s.memory ≠ .freed :=
  fun hfreed => hh (h.freed hfreed).1

/-- A step of the handler that neither frees the memory nor has anything to do with the condition.
-/
theorem Handover.handler_step (h : Handover s) (hh : s.handler ≠ .notScheduled)
    (hf : s.handler ≠ .finished) {pc : HandlerPc} {l : List Message} (hpc : pc.late = false) :
    Handover { s with handler := pc, log := l } where
  early hearly := absurd hearly (by simp [h.not_early hh])
  set hlate := absurd hlate (by simp [hpc])
  wait := h.wait
  freed hfreed := absurd hfreed (h.not_freed_of_handler hf)

theorem Handover.handler_preserved (h : Handover s) (hG : FreedOutsideWait s .handler)
    (hs : handlerStep s = some s') : Handover s' := by
  unfold handlerStep at hs
  cases hpc : s.handler with
  | notScheduled | finished =>
    rw [hpc] at hs
    cases hs
  | pending =>
    rw [hpc] at hs
    cases hs
    exact h.handler_step (l := s.log) (by simp [hpc]) (by simp [hpc]) rfl
  | prInfo | msleep =>
    rw [hpc] at hs
    cases hs
    exact h.handler_step (by simp [hpc]) (by simp [hpc]) rfl
  | setCondition =>
    have hearly := h.not_early (by simp [hpc])
    have hfreed := h.not_freed_of_handler (by simp [hpc])
    have hfive : (5 : ℤ) ≠ 0 := by decide
    rw [hpc] at hs
    cases hs
    exact ⟨fun he => absurd he (by simp [hearly]), fun _ => hfive, h.wait,
      fun hf => absurd hf hfreed⟩
  | wakeUp =>
    have hearly := h.not_early (by simp [hpc])
    have hfreed := h.not_freed_of_handler (by simp [hpc])
    have hset := h.set (by rw [hpc]; rfl)
    rw [hpc] at hs
    cases hs
    exact ⟨fun he => absurd he (by simp [hearly]), fun _ => hset,
      fun hl => h.wait (by simpa using hl), fun hf => absurd hf hfreed⟩
  | kfree =>
    have hearly := h.not_early (by simp [hpc])
    have hset := h.set (by rw [hpc]; rfl)
    -- the condition on the run: `start` is not in its wait
    have hloop : s.waiter.pc.inLoop = false := by
      by_contra hl
      have hl : s.waiter.pc.inLoop := by simpa using hl
      exact hG hpc ⟨h.wait hl, hl⟩
    rw [hpc] at hs
    cases hs
    exact ⟨fun he => absurd he (by simp [hearly]), fun _ => hset, h.wait, fun _ => ⟨rfl, hloop⟩⟩

theorem Handover.preserved (h : Handover s) (hG : FreedOutsideWait s e) (hs : step s e = some s') :
    Handover s' := by
  cases e with
  | start reply => exact h.start_preserved hs
  | handler => exact h.handler_preserved hG hs
  | spurious =>
    cases hs
    exact ⟨h.early, h.set, h.wait, h.freed⟩
  | stops =>
    simp only [step, Option.ite_none_right_eq_some, Option.some.injEq] at hs
    obtain ⟨-, rfl⟩ := hs
    exact ⟨h.early, h.set, h.wait, h.freed⟩

/-- In a state of the invariant, `start` does not work on freed memory. -/
theorem Handover.noUseAfterFree (h : Handover s) (e : Event) : NoUseAfterFree s e := by
  cases e with
  | start reply =>
    intro htouch hfreed
    obtain ⟨-, hloop⟩ := h.freed hfreed
    unfold State.touches at htouch
    cases hpc : s.start with
    | waitEvent =>
      rw [hpc] at htouch
      simp [Pc.inLoop_of_onQueue htouch] at hloop
    | setData | initWork | initWaitqueueHead | scheduleWork =>
      exact h.not_freed_of_early (by rw [hpc]; rfl) hfreed
    | _ => simp [hpc] at htouch
  | _ => trivial

/-! ## The way back -/

/-- `start` is in the loop of its wait on freed memory. -/
def Trapped (s : State) : Prop := s.memory = .freed ∧ s.InWait

/-- Only a step on the queue leads `start` out of the trap. -/
theorem Trapped.preserved (h : Trapped s) (hD : NoUseAfterFree s e) (hs : step s e = some s') :
    Trapped s' := by
  obtain ⟨hfreed, hstart, hloop⟩ := h
  cases e with
  | start reply =>
    have hq : s.waiter.pc.onQueue = false := by
      by_contra hq
      exact hD (by simpa [State.touches, hstart] using hq) hfreed
    simp only [step, startStep, hstart] at hs
    obtain ⟨w, hw, rfl⟩ := Option.map_eq_some_iff.1 hs
    have hw' := Waiter.step_inLoop hw hloop hq
    exact ⟨hfreed, if_pos hw', hw'⟩
  | handler =>
    simp only [step, handlerStep] at hs
    cases hpc : s.handler with
    | notScheduled | finished => simp [hpc] at hs
    | wakeUp =>
      rw [hpc] at hs
      cases hs
      exact ⟨hfreed, hstart, by simpa using hloop⟩
    | kfree =>
      rw [hpc] at hs
      cases hs
      exact ⟨rfl, hstart, hloop⟩
    | _ =>
      rw [hpc] at hs
      cases hs
      exact ⟨hfreed, hstart, hloop⟩
  | spurious =>
    cases hs
    exact ⟨hfreed, hstart, hloop⟩
  | stops => simp [step, hstart] at hs

/-- A step that does not meet the condition leads into the trap. -/
theorem trapped_of_not (hG : ¬FreedOutsideWait s e) (hs : step s e = some s') : Trapped s' := by
  cases e with
  | handler =>
    simp only [FreedOutsideWait, not_forall, not_not] at hG
    obtain ⟨hpc, hwait⟩ := hG
    simp only [step, handlerStep, hpc, Option.some.injEq] at hs
    subst hs
    exact ⟨rfl, hwait⟩
  | _ => exact absurd trivial hG

/-- **When `start` stays off freed memory.** In a run of the module in which every `kfree(my_data)`
finds `start` outside the loop of its wait, `start` never accesses `*my_data` after that `kfree`.
Conversely, a run in which `start` returns without such an access has met this condition. -/
theorem no_use_after_free (es : List Event) :
    (Along step FreedOutsideWait load es → Along step NoUseAfterFree load es) ∧
    ∀ s ret, Runs step load es s → s.start = .returned ret →
      Along step NoUseAfterFree load es → Along step FreedOutsideWait load es := by
  constructor
  · intro hG
    refine Along.of_invariant (I := Handover) (fun s e s' h hG hs => ?_) hG handover_load
    exact ⟨h.preserved hG hs, h.noUseAfterFree e⟩
  · intro s ret hruns hret hD
    refine Along.of_trap (T := Trapped) (fun s e s' hs _ hG => trapped_of_not hG hs)
      (fun s e s' hT hD hs => hT.preserved hD hs) hruns hD ?_
    rintro ⟨-, hstart, -⟩
    rw [hret] at hstart
    cases hstart

/-- The worker is fast: the handler has freed the memory before `start` makes its first test. -/
theorem no_use_after_free_sample :
    Along step NoUseAfterFree load
      ([.start true, .start false, .start false, .start false, .start false] ++
        List.replicate 6 .handler ++ List.replicate 3 (.start false)) :=
  (no_use_after_free _).1 (by decide)

/-- `start` is about to enqueue, or already asleep, when the handler sets the condition, wakes the
queue up and frees the memory; then `start` enqueues, on freed memory. -/
theorem not_safe_in_wait :
    ¬Along step NoUseAfterFree load
      (.start true :: List.replicate 6 (.start false) ++ List.replicate 6 .handler ++
        [.start false]) ∧
    ¬Along step NoUseAfterFree load
      (.start true :: List.replicate 9 (.start false) ++ List.replicate 6 .handler ++
        [.start false, .start false]) := by
  decide

end Lkb.WorkQueueGlobal
