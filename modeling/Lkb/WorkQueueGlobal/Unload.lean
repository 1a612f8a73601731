import Lkb.WorkQueueGlobal.System

/-!
# Unloading `work_queue_global`

`start` returns 0 whether its wait has ended by the handler's wake-up or by a signal, and `stops` is
empty. So when `stops` returns, `do_work_handler` may still be pending, or anywhere between its
first statement and its last (`not_idle_when_stopped`). `stops_after_handler_iff` says exactly when
it is neither.
-/

namespace Lkb.WorkQueueGlobal

open WaitEvent Run

variable {s s' : State} {e : Event} {reply : Bool}

/-- `do_work_handler` is neither pending nor running. -/
def HandlerPc.idle : HandlerPc → Bool
  | .notScheduled | .finished => true
  | _ => false

/-- `start` has scheduled the work item. -/
def StartPc.scheduled : StartPc → Bool
  | .prInfo | .waitEvent | .printk => true
  | .returned ret => ret = 0
  | _ => false

/-- The handler was scheduled when `start` says so, and `stops` comes after `start`. -/
structure Loaded (s : State) : Prop where
  scheduled : s.start.scheduled → s.handler ≠ .notScheduled
  stopped : s.stopped → s.start = .returned 0

theorem loaded_load : Loaded load := ⟨nofun, nofun⟩

/-- A step of `start` does not change the handler, unless it schedules it. -/
theorem startStep_frame (hs : startStep reply s = some s') :
    s'.stopped = s.stopped ∧ (∀ ret, s.start ≠ .returned ret) ∧
      (s'.handler = .pending ∨
        s'.handler = s.handler ∧ (s'.start.scheduled → s.start.scheduled)) := by
  unfold startStep at hs
  cases hpc : s.start with
  | kmalloc =>
    simp only [hpc] at hs
    split_ifs at hs
    · cases hs
      exact ⟨rfl, nofun, .inr ⟨rfl, id⟩⟩
    · cases hs
      exact ⟨rfl, nofun, .inr ⟨rfl, by simp [StartPc.scheduled]⟩⟩
  | waitEvent =>
    simp only [hpc] at hs
    obtain ⟨w, -, rfl⟩ := Option.map_eq_some_iff.1 hs
    exact ⟨rfl, nofun, .inr ⟨rfl, fun _ => rfl⟩⟩
  | scheduleWork =>
    rw [hpc] at hs
    cases hs
    exact ⟨rfl, nofun, .inl rfl⟩
  | returned ret =>
    rw [hpc] at hs
    cases hs
  | _ =>
    rw [hpc] at hs
    cases hs
    exact ⟨rfl, nofun, .inr ⟨rfl, id⟩⟩

theorem handlerStep_frame (hs : handlerStep s = some s') :
    s'.stopped = s.stopped ∧ s'.start = s.start ∧ s.handler.idle = false ∧
      s'.handler ≠ .notScheduled := by
  unfold handlerStep at hs
  cases hpc : s.handler with
  | notScheduled | finished =>
    rw [hpc] at hs
    cases hs
  | _ =>
    rw [hpc] at hs
    cases hs
    exact ⟨rfl, rfl, rfl, nofun⟩

/-- A step other than the call of `stops` comes before it, or leaves an idle handler idle. -/
theorem Loaded.frame (h : Loaded s) (hs : step s e = some s') (he : e ≠ .stops) :
    Loaded s' ∧ s'.stopped = s.stopped ∧ (s.stopped → s.handler.idle → s'.handler.idle) := by
  cases e with
  | start reply =>
    obtain ⟨hstopped, hret, hhandler⟩ := startStep_frame hs
    have hnot : ¬s.stopped := fun hst => hret 0 (h.stopped hst)
    refine ⟨⟨fun hsch => ?_, fun hst => absurd (hstopped ▸ hst) hnot⟩, hstopped,
      fun hst => absurd hst hnot⟩
    obtain hp | ⟨hp, hmono⟩ := hhandler
    · rw [hp]
      nofun
    · rw [hp]
      exact h.scheduled (hmono hsch)
  | handler =>
    obtain ⟨hstopped, hstart, hidle, hne⟩ := handlerStep_frame hs
    refine ⟨⟨fun _ => hne, fun hst => hstart.trans (h.stopped (hstopped ▸ hst))⟩, hstopped,
      fun _ hi => ?_⟩
    rw [hidle] at hi
    cases hi
  | spurious =>
    cases hs
    exact ⟨⟨h.scheduled, h.stopped⟩, rfl, fun _ => id⟩
  | stops => exact absurd rfl he

/-- The call of `stops` finds the handler scheduled. -/
theorem Loaded.stops (h : Loaded s) (hs : step s .stops = some s') :
    Loaded s' ∧ s'.stopped ∧ (s'.handler.idle ↔ s.handler = .finished) := by
  simp only [step, Option.ite_none_right_eq_some, Option.some.injEq] at hs
  obtain ⟨⟨hret, -⟩, rfl⟩ := hs
  have hsch : s.handler ≠ .notScheduled := h.scheduled (by rw [hret]; rfl)
  refine ⟨⟨h.scheduled, fun _ => hret⟩, rfl, ?_⟩
  cases hpc : s.handler with
  | notScheduled => exact absurd hpc hsch
  | _ => simp [HandlerPc.idle]

/-- **When the module can be unloaded.** `stops` does not wait for the handler: in a run of the
module, `do_work_handler` is neither pending nor running in every state in which `stops` has
returned, exactly when `stops` is called only after the handler has returned. -/
theorem stops_after_handler_iff (es : List Event) :
    Always step (fun s => s.stopped → s.handler.idle) load es ↔
      Along step (fun s e => e = .stops → s.handler = .finished) load es := by
  refine always_iff_along_of_mark (J := Loaded) (fun s e s' h hs => ?_) (fun s e s' h hs he => ?_)
    (fun s e s' h hs he => ?_) loaded_load nofun
  · by_cases he : e = .stops
    · exact (h.stops (he ▸ hs)).1
    · exact (h.frame hs he).1
  · exact (h.stops (he ▸ hs)).2
  · obtain ⟨-, hstopped, hidle⟩ := h.frame hs he
    exact ⟨by rw [hstopped], hidle⟩

/-- A signal ends the wait of `start` while the work is still pending; and the handler has woken
`start` up, but is not done. -/
theorem not_idle_when_stopped :
    ¬Always step (fun s => s.stopped → s.handler.idle) load
      (List.replicate 12 (.start true) ++ [.stops]) ∧
    ¬Always step (fun s => s.stopped → s.handler.idle) load
      (List.replicate 6 (.start true) ++ List.replicate 5 .handler ++
        List.replicate 2 (.start true) ++ [.stops]) := by
  constructor
  · decide
  · decide

end Lkb.WorkQueueGlobal
