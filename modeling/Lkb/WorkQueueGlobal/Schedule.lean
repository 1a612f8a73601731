import Lkb.Foundations.Fairness
import Lkb.WorkQueueGlobal.Wakeup

/-!
# `start` of `work_queue_global` returns under every fair schedule

`start` waits for the handler that it has scheduled, and the handler sleeps for any time before it
sets the condition. In an infinite run without signals that is fair to the process that loads the
module and to the worker, `start` returns (`start_returns`). First `start` itself brings this
closer, until it has scheduled the work item; then the handler does, whatever `start` does in its
wait; and once the handler has woken the queue up, `start` does again.
-/

namespace Lkb.WorkQueueGlobal

open Run WaitEvent

variable {s s' : State} {e : Event} {reply : Bool}

/-- One step of the module, where no signal is sent to the process that loads it. -/
def calmStep (s : State) (e : Event) : Option State := if NoSignal s e then step s e else none

theorem calmStep_eq_some : calmStep s e = some s' ↔ NoSignal s e ∧ step s e = some s' := by
  simp [calmStep]

/-- The parties: the process that loads the module, and the worker. -/
inductive Party
  | start
  | handler
  deriving DecidableEq

/-- The steps of a party. -/
def party : Party → Event → Prop
  | .start, .start _ => True
  | .handler, .handler => True
  | _, _ => False

/-- `start` waits for the handler, which has not woken the queue up yet. -/
def State.Awaits (s : State) : Bool := !s.start.early && !s.handler.woke

/-- Who brings the return of `start` closer. -/
def helpful (s : State) : Party := if s.Awaits then .handler else .start

/-- How many statements the handler has left up to the wake-up. -/
def HandlerPc.left : HandlerPc → ℕ
  | .notScheduled => 6
  | .pending => 5
  | .prInfo => 4
  | .msleep => 3
  | .setCondition => 2
  | .wakeUp => 1
  | .kfree | .finished => 0

/-- What is known of a run without signals: its invariant, and that the work item is scheduled when
`start` is past the call. -/
structure Reached (s : State) : Prop where
  inv : Inv s
  scheduled : s.start.early = false → (∃ ret, s.start = .returned ret) ∨ s.handler ≠ .notScheduled

theorem Reached.preserved (h : Reached s) (hs : calmStep s e = some s') : Reached s' := by
  obtain ⟨hG, hs⟩ := calmStep_eq_some.1 hs
  refine ⟨h.inv.preserved hG hs, ?_⟩
  have hsched := h.scheduled
  cases e with
  | start reply =>
    have hs : startStep reply s = some s' := hs
    unfold startStep at hs
    cases hpc : s.start with
    | kmalloc =>
      simp only [hpc] at hs
      split_ifs at hs <;> cases hs
      · exact fun hearly => by cases hearly
      · exact fun _ => .inl ⟨_, rfl⟩
    | waitEvent =>
      simp only [hpc] at hs
      obtain ⟨w, -, rfl⟩ := Option.map_eq_some_iff.1 hs
      intro _
      exact .inr ((hsched (by rw [hpc]; rfl)).resolve_left (by simp [hpc]))
    | returned ret =>
      rw [hpc] at hs
      cases hs
    | scheduleWork =>
      rw [hpc] at hs
      cases hs
      exact fun _ => .inr (by simp)
    | setData | initWork | initWaitqueueHead =>
      rw [hpc] at hs
      cases hs
      exact fun hearly => by cases hearly
    | prInfo =>
      rw [hpc] at hs hsched
      cases hs
      exact fun _ => .inr ((hsched rfl).resolve_left (by simp))
    | printk =>
      rw [hpc] at hs
      cases hs
      exact fun _ => .inl ⟨_, rfl⟩
  | handler =>
    have hs : handlerStep s = some s' := hs
    unfold handlerStep at hs
    cases hpc : s.handler <;> rw [hpc] at hs <;> cases hs <;>
      exact fun hearly => (hsched hearly).imp_right fun _ => by simp
  | spurious =>
    cases hs
    exact hsched
  | stops =>
    simp only [step, Option.ite_none_right_eq_some, Option.some.injEq] at hs
    obtain ⟨-, rfl⟩ := hs
    exact hsched

/-- Who is helpful can go on. -/
theorem exists_helpful_step (h : Reached s) (hret : ¬∃ ret, s.start = .returned ret) :
    ∃ e, party (helpful s) e ∧ (calmStep s e).isSome := by
  have hcalm : NoSignal s (.start false) := fun he => by cases he
  cases hearly : s.start.early with
  | true =>
    refine ⟨.start false, by simp [helpful, State.Awaits, hearly, party], ?_⟩
    rw [calmStep, if_pos hcalm, step, startStep]
    cases hpc : s.start <;> simp [hpc, StartPc.early] at hearly ⊢
  | false =>
    cases hwoke : s.handler.woke with
    | true =>
      obtain ⟨s', hs, -⟩ := h.inv.progress hwoke fun ret hpc => hret ⟨ret, hpc⟩
      refine ⟨.start false, by simp [helpful, State.Awaits, hwoke, party], ?_⟩
      rw [calmStep, if_pos hcalm, hs]
      rfl
    | false =>
      have hsched := (h.scheduled hearly).resolve_left hret
      refine ⟨.handler, by simp [helpful, State.Awaits, hearly, hwoke, party], ?_⟩
      have hcalm : NoSignal s .handler := fun he => by cases he
      rw [calmStep, if_pos hcalm, step, handlerStep]
      cases hpc : s.handler <;> simp [hpc, HandlerPc.woke] at hsched hwoke ⊢

end Lkb.WorkQueueGlobal
