import Mathlib.Data.Int.Notation
import Mathlib.Tactic.Common

/-!
# `wait_event_interruptible`

The waiting side of a wait queue, as a small machine: test the condition; if it is false, enqueue
and mark the task as sleeping, test again, leave if the condition is true or a signal is pending,
otherwise sleep until a wake-up has made the task runnable, and go round again. What is left at the
end is to take the task off the queue.

`Pc.onQueue` marks the points whose step works on the wait queue itself (its lock and its list), and
`Pc.inLoop` those between a first test that was false and the end of the wait. A waiter leaves the
loop only by a step on the queue (`Waiter.step_inLoop`).

For a task without signals, `Waiter.Sound` says that it goes past the wait only when the condition
was true, and `Waiter.Awake` that it does not sleep. A wake-up makes the task awake
(`Waiter.Sound.wakeUp`), wherever it is, and while the condition is true it stays so
(`Waiter.Awake.step`).
-/

namespace Lkb.WaitEvent

/-- The error number of a wait that a signal has ended. -/
def ERESTARTSYS : ℤ := 512

/-- The points of a wait: the step that comes next, or the value it has returned. -/
inductive Pc
  | first
  | enqueue
  | test
  | signal
  | asleep
  | dequeueSignal
  | dequeue
  | done (ret : ℤ)
  deriving DecidableEq

/-- The step works on the wait queue. -/
def Pc.onQueue : Pc → Bool
  | .enqueue | .dequeueSignal | .dequeue => true
  | _ => false

/-- The wait has begun and is not over. -/
def Pc.inLoop : Pc → Bool
  | .first | .done _ => false
  | _ => true

/-- How many steps a waiter is away from the end of the wait, while the condition is true. -/
def Pc.rank : Pc → ℕ
  | .signal => 5
  | .asleep => 4
  | .enqueue => 3
  | .test => 2
  | .first | .dequeue | .dequeueSignal => 1
  | .done _ => 0

theorem Pc.inLoop_of_onQueue {pc : Pc} (h : pc.onQueue) : pc.inLoop := by
  cases pc with
  | enqueue | dequeueSignal | dequeue => rfl
  | _ => cases h

/-- A waiting task: where it is, and whether it is on the queue and runnable. -/
structure Waiter where
  pc : Pc
  queued : Bool
  runnable : Bool
  deriving DecidableEq

namespace Waiter

/-- A task that is about to wait. -/
def begin : Waiter := ⟨.first, false, true⟩

/-- One step of a wait, where the condition is `c` and a signal is pending or not. A sleeping task
takes no step. -/
def step (c pending : Bool) (t : Waiter) : Option Waiter :=
  match t.pc with
  | .first => some { t with pc := if c then .done 0 else .enqueue }
  | .enqueue => some ⟨.test, true, false⟩
  | .test => some { t with pc := if c then .dequeue else .signal }
  | .signal => some { t with pc := if pending then .dequeueSignal else .asleep }
  | .asleep => if t.runnable then some { t with pc := .enqueue } else none
  | .dequeueSignal => some ⟨.done (-ERESTARTSYS), false, true⟩
  | .dequeue => some ⟨.done 0, false, true⟩
  | .done _ => none

/-- `wake_up_interruptible` on the queue of the task. -/
def wakeUp (t : Waiter) : Waiter := if t.queued then { t with runnable := true } else t

/-- A wake-up that does not come from the queue. -/
def spurious (t : Waiter) : Waiter := { t with runnable := true }

@[simp] theorem wakeUp_pc (t : Waiter) : t.wakeUp.pc = t.pc := by
  unfold wakeUp
  split_ifs <;> rfl

variable {c pending : Bool} {t t' : Waiter}

/-- A waiter leaves the loop only by a step on the queue. -/
theorem step_inLoop (h : t.step c pending = some t') (hloop : t.pc.inLoop)
    (hq : t.pc.onQueue = false) : t'.pc.inLoop := by
  unfold step at h
  cases hpc : t.pc with
  | first => simp [hpc, Pc.inLoop] at hloop
  | done ret => simp [hpc, Pc.inLoop] at hloop
  | enqueue => simp [hpc, Pc.onQueue] at hq
  | dequeueSignal => simp [hpc, Pc.onQueue] at hq
  | dequeue => simp [hpc, Pc.onQueue] at hq
  | test =>
    rw [hpc] at h
    cases h
    cases c <;> rfl
  | signal =>
    rw [hpc] at h
    cases h
    cases pending <;> rfl
  | asleep =>
    rw [hpc] at h
    simp only [Option.ite_none_right_eq_some, Option.some.injEq] at h
    rw [← h.2]
    rfl

/-- A wait whose condition is true from the start never works on the queue. -/
theorem step_first (h : t.step true pending = some t') (hloop : t.pc.inLoop = false) :
    t'.pc.inLoop = false := by
  unfold step at h
  cases hpc : t.pc with
  | first =>
    rw [hpc] at h
    cases h
    rfl
  | done ret =>
    rw [hpc] at h
    cases h
  | _ => simp [hpc, Pc.inLoop] at hloop

/-! ### Waiting without signals -/

/-- A waiter of a task without signals, where `c` says whether the condition was true already: it is
past its tests only if it was, and from its first test on to the end it is on the queue. -/
structure Sound (c : Bool) (t : Waiter) : Prop where
  passed : t.pc = .dequeue ∨ (∃ ret, t.pc = .done ret) → c = true
  noSignal : t.pc ≠ .dequeueSignal
  queued : t.pc = .test ∨ t.pc = .signal ∨ t.pc = .asleep → t.queued = true

/-- The waiter does not sleep, and is not about to. -/
def Awake (t : Waiter) : Prop := t.pc = .signal ∨ t.pc = .asleep → t.runnable = true

theorem sound_begin (c : Bool) : Sound c begin := ⟨by simp [begin], nofun, by simp [begin]⟩

/-- Only its own step takes a waiter past its tests, and only when the condition is true. -/
theorem Sound.step (h : t.Sound c) (hs : t.step c false = some t') : t'.Sound c := by
  unfold Waiter.step at hs
  cases hpc : t.pc with
  | first | enqueue =>
    rw [hpc] at hs
    cases hs
    cases c <;> exact ⟨by simp, by simp, by simp⟩
  | test | signal =>
    have hqueued : t.queued = true := h.queued (by simp [hpc])
    rw [hpc] at hs
    cases hs
    cases c <;> exact ⟨by simp, by simp, fun _ => hqueued⟩
  | asleep =>
    rw [hpc] at hs
    simp only [Option.ite_none_right_eq_some, Option.some.injEq] at hs
    obtain ⟨-, rfl⟩ := hs
    exact ⟨by simp, by simp, by simp⟩
  | dequeueSignal => exact absurd hpc h.noSignal
  | dequeue =>
    rw [hpc] at hs
    cases hs
    exact ⟨fun _ => h.passed (.inl hpc), by simp, by simp⟩
  | done ret =>
    rw [hpc] at hs
    cases hs

/-- What was true before does not change when the condition becomes true. -/
theorem Sound.mono (h : t.Sound c) : t.Sound true := ⟨fun _ => rfl, h.noSignal, h.queued⟩

theorem Sound.spurious (h : t.Sound c) : t.spurious.Sound c := ⟨h.passed, h.noSignal, h.queued⟩

theorem Sound.wakeUp (h : t.Sound c) : t.wakeUp.Sound c := by
  unfold Waiter.wakeUp
  split_ifs
  · exact h.spurious
  · exact h

/-- A wake-up finds the task on the queue, wherever it is between its tests. -/
theorem Sound.awake_wakeUp (h : t.Sound c) : t.wakeUp.Awake := by
  intro hpc
  rw [wakeUp_pc] at hpc
  simp [Waiter.wakeUp, h.queued (.inr hpc)]

theorem awake_spurious (t : Waiter) : t.spurious.Awake := fun _ => rfl

/-- While the condition is true, a waiter that is awake stays so, and comes closer to the end of the
wait. -/
theorem Awake.step (h : t.Awake) (hs : t.step true false = some t') :
    t'.Awake ∧ t'.pc.rank < t.pc.rank := by
  unfold Waiter.step at hs
  cases hpc : t.pc with
  | asleep =>
    rw [hpc] at hs
    simp only [Option.ite_none_right_eq_some, Option.some.injEq] at hs
    obtain ⟨-, rfl⟩ := hs
    exact ⟨by simp [Awake], by simp [Pc.rank]⟩
  | signal =>
    have hrun : t.runnable = true := h (.inl hpc)
    rw [hpc] at hs
    cases hs
    exact ⟨fun _ => hrun, by simp [Pc.rank]⟩
  | done ret =>
    rw [hpc] at hs
    cases hs
  | _ =>
    rw [hpc] at hs
    cases hs
    exact ⟨by simp [Awake], by simp [Pc.rank]⟩

/-- A waiter that is awake always has a next step. -/
theorem Awake.exists_step (h : t.Awake) (hpc : ∀ ret, t.pc ≠ .done ret) :
    ∃ t', t.step c pending = some t' := by
  unfold Waiter.step
  cases htpc : t.pc with
  | asleep => exact ⟨{ t with pc := .enqueue }, by simp [h (.inr htpc)]⟩
  | done ret => exact absurd htpc (hpc ret)
  | _ => exact ⟨_, rfl⟩

/-- No step leads back to the first test. -/
theorem step_ne_first (h : t.step c pending = some t') : t'.pc ≠ .first := by
  unfold Waiter.step at h
  cases hpc : t.pc with
  | asleep =>
    rw [hpc] at h
    simp only [Option.ite_none_right_eq_some, Option.some.injEq] at h
    obtain ⟨-, rfl⟩ := h
    simp
  | done ret =>
    rw [hpc] at h
    cases h
  | first | test =>
    rw [hpc] at h
    cases h
    cases c <;> simp
  | signal =>
    rw [hpc] at h
    cases h
    cases pending <;> simp
  | enqueue | dequeueSignal | dequeue =>
    rw [hpc] at h
    cases h
    simp

/-- A step out of the loop ends the wait. -/
theorem done_of_step (h : t.step c pending = some t') (hloop : t'.pc.inLoop = false) :
    ∃ ret, t'.pc = .done ret := by
  cases hpc : t'.pc with
  | first => exact absurd hpc (step_ne_first h)
  | done ret => exact ⟨ret, rfl⟩
  | _ => simp [hpc, Pc.inLoop] at hloop

end Waiter

end Lkb.WaitEvent
