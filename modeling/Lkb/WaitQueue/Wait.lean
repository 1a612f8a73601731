import Lkb.WaitQueue.System

/-!
# The wait of `mfoo`

`start` writes `condition` before it wakes the queue up, and `mfoo` enqueues before it tests
`condition`, so the second wake-up cannot fall between the test and the sleep: a task that has
tested too early is on the queue by then. The invariant is `Inv`; `no_early_pass_no_lost_wakeup` is
the main result, and `mfoo_can_return` says that after the second wake-up nothing holds `mfoo` up.

Nothing of the kind holds when the module is unloaded: `stops` does not wait for the thread
(`stops_after_mfoo_iff`).
-/

namespace Lkb.WaitQueue

open Run WaitEvent

variable {s s' : State} {e : Event} {ok : Bool}

theorem StartPc.pastWakeUp_le {pc : StartPc} (h : pc.pastWakeUp) :
    pc.assigned ∧ pc.created ∧ pc.woken := by
  cases pc with
  | wakeUpDone | sleepExit | done => exact ⟨rfl, rfl, rfl⟩
  | returned ret => exact ⟨h, h, h⟩
  | _ => cases h

/-- What holds of every state. The condition is positive exactly when `start` has executed the
assignment; `mfoo` is not past a test before that; after the second wake-up `mfoo` does not sleep.
-/
structure Inv (s : State) : Prop where
  condition : s.condition = if s.start.assigned then 1 else 0
  waiter : s.waiter.Sound s.start.assigned
  pastWait : s.mfoo.pastWait → s.start.assigned
  awake : s.start.pastWakeUp → s.waiter.Awake

/-- The thread is there when `start` has created it, runs when `start` has woken it up, and is in
its wait until the wait is over. -/
structure Thread (s : State) : Prop where
  created : s.mfoo = .notCreated ↔ s.start.created = false
  woken : s.start.woken → s.mfoo ≠ .created
  waiting : s.mfoo.pastWait = false → ∀ ret, s.waiter.pc ≠ .done ret

theorem inv_load : Inv load := ⟨rfl, Waiter.sound_begin false, nofun, nofun⟩

theorem Inv.decide_condition (h : Inv s) : decide (s.condition > 0) = s.start.assigned := by
  rw [h.condition]
  cases s.start.assigned <;> rfl

theorem State.wakeUpProcess_frame :
    s.wakeUpProcess.start = s.start ∧ s.wakeUpProcess.waiter = s.waiter ∧
      s.wakeUpProcess.condition = s.condition ∧ s.wakeUpProcess.stopped = s.stopped ∧
      (s.wakeUpProcess.mfoo.pastWait = s.mfoo.pastWait) := by
  unfold State.wakeUpProcess
  split_ifs with h
  · exact ⟨rfl, rfl, rfl, rfl, by rw [h]; rfl⟩
  · exact ⟨rfl, rfl, rfl, rfl, rfl⟩

theorem Inv.start_step (h : Inv s) (hs : startStep ok s = some s') : Inv s' := by
  unfold startStep at hs
  obtain ⟨hcond, hwaiter, hpast, hawake⟩ := h
  cases hpc : s.start with
  | returned ret =>
    rw [hpc] at hs
    cases hs
  | initWaitqueueHead =>
    rw [hpc] at hs hcond hpast
    cases hs
    exact ⟨hcond, Waiter.sound_begin false, hpast, nofun⟩
  | kthreadCreate =>
    rw [hpc] at hcond hwaiter hpast
    simp only [hpc] at hs
    split_ifs at hs
    · cases hs
      exact ⟨hcond, hwaiter, nofun, nofun⟩
    · cases hs
      exact ⟨hcond, hwaiter, hpast, nofun⟩
  | wakeUpProcess =>
    rw [hpc] at hs hcond hwaiter hpast
    cases hs
    obtain ⟨-, hw, hc, -, hm⟩ := s.wakeUpProcess_frame
    exact ⟨hc.trans hcond, hw.symm ▸ hwaiter, fun hp => hpast (hm ▸ hp), nofun⟩
  | clearCondition =>
    rw [hpc] at hs hwaiter hpast
    cases hs
    exact ⟨rfl, hwaiter, hpast, nofun⟩
  | setCondition =>
    rw [hpc] at hs hwaiter
    cases hs
    exact ⟨rfl, hwaiter.mono, fun _ => rfl, nofun⟩
  | wakeUp1 =>
    rw [hpc] at hs hcond hwaiter hpast
    cases hs
    exact ⟨hcond, hwaiter.wakeUp, hpast, nofun⟩
  | wakeUp2 =>
    rw [hpc] at hs hcond hwaiter hpast
    cases hs
    exact ⟨hcond, hwaiter.wakeUp, hpast, fun _ => hwaiter.awake_wakeUp⟩
  | hello | sleepRunning | attempt1 | sleepAttempt1 | attempt2 =>
    rw [hpc] at hs hcond hwaiter hpast
    cases hs
    exact ⟨hcond, hwaiter, hpast, nofun⟩
  | wakeUpDone | sleepExit | done =>
    rw [hpc] at hs hcond hwaiter hpast hawake
    cases hs
    exact ⟨hcond, hwaiter, hpast, hawake⟩

theorem Inv.mfoo_step (h : Inv s) (hs : mfooStep s = some s') : Inv s' := by
  unfold mfooStep at hs
  cases hpc : s.mfoo with
  | notCreated | created | returned =>
    rw [hpc] at hs
    cases hs
  | goingToSleep =>
    rw [hpc] at hs
    cases hs
    exact ⟨h.condition, h.waiter, nofun, h.awake⟩
  | waitEvent =>
    simp only [hpc, h.decide_condition] at hs
    obtain ⟨w, hw, rfl⟩ := Option.map_eq_some_iff.1 hs
    have hsound := h.waiter.step hw
    refine ⟨h.condition, hsound, fun hpast => ?_, fun hpast => ?_⟩
    · cases hloop : w.pc.inLoop with
      | true => simp [hloop, MfooPc.pastWait] at hpast
      | false => exact hsound.passed (.inr (Waiter.done_of_step hw hloop))
    · rw [(StartPc.pastWakeUp_le hpast).1] at hw
      exact ((h.awake hpast).step hw).1
  | runningAgain =>
    have hassigned := h.pastWait (by rw [hpc]; rfl)
    rw [hpc] at hs
    cases hs
    exact ⟨h.condition, h.waiter, fun _ => hassigned, h.awake⟩

theorem Inv.preserved (h : Inv s) (hs : step s e = some s') : Inv s' := by
  cases e with
  | start ok => exact h.start_step hs
  | mfoo => exact h.mfoo_step hs
  | spurious =>
    cases hs
    obtain ⟨hstart, -, hc, -, hm⟩ := s.wakeUpProcess_frame
    refine ⟨?_, ?_, ?_, fun _ => Waiter.awake_spurious s.waiter⟩
    · rw [hc, hstart]
      exact h.condition
    · rw [hstart]
      exact h.waiter.spurious
    · rw [hstart, hm]
      exact h.pastWait
  | stops =>
    simp only [step, Option.ite_none_right_eq_some, Option.some.injEq] at hs
    obtain ⟨-, rfl⟩ := hs
    exact ⟨h.condition, h.waiter, h.pastWait, h.awake⟩

/-- `mfoo` is asleep on `wq`, and nothing has woken it up. -/
def State.Sleeping (s : State) : Prop :=
  s.mfoo = .waitEvent ∧ s.waiter.pc = .asleep ∧ s.waiter.runnable = false

/-- **No early pass and no lost wake-up.** In every interleaving of `start` with `mfoo`, with
spurious wake-ups at any time: `mfoo` is past its wait only when `start` has executed
`condition = 1`, and never is `start` past the second `wake_up_interruptible` while `mfoo` sleeps.
-/
theorem no_early_pass_no_lost_wakeup (es : List Event) :
    Always step (fun s => (s.mfoo.pastWait → s.start.assigned) ∧
      ¬(s.start.pastWakeUp ∧ s.Sleeping)) load es := by
  refine Always.of_invariant (I := Inv) (fun s e s' h _ hs => h.preserved hs) (fun s h => ?_)
    (along_true load es) inv_load
  refine ⟨h.pastWait, ?_⟩
  rintro ⟨hpast, -, hpc, hrun⟩
  have hawake := h.awake hpast (.inr hpc)
  rw [hrun] at hawake
  cases hawake

/-! ## After the second wake-up -/

theorem thread_load : Thread load := ⟨⟨fun _ => rfl, fun _ => rfl⟩, nofun, fun _ => nofun⟩

theorem State.wakeUpProcess_mfoo :
    s.wakeUpProcess.mfoo ≠ .created ∧
      (s.wakeUpProcess.mfoo = .notCreated ↔ s.mfoo = .notCreated) := by
  unfold State.wakeUpProcess
  split_ifs with h
  · exact ⟨nofun, by simp [h]⟩
  · exact ⟨h, Iff.rfl⟩

theorem Thread.start_step (h : Thread s) (hs : startStep ok s = some s') : Thread s' := by
  unfold startStep at hs
  obtain ⟨hcreated, hwoken, hwaiting⟩ := h
  cases hpc : s.start with
  | returned ret =>
    rw [hpc] at hs
    cases hs
  | initWaitqueueHead =>
    rw [hpc] at hs hcreated
    cases hs
    exact ⟨hcreated, nofun, fun _ => nofun⟩
  | kthreadCreate =>
    rw [hpc] at hcreated
    have hmfoo : s.mfoo = .notCreated := hcreated.2 rfl
    simp only [hpc] at hs
    split_ifs at hs
    · cases hs
      exact ⟨⟨nofun, nofun⟩, nofun, fun _ => hwaiting (by rw [hmfoo]; rfl)⟩
    · cases hs
      exact ⟨hcreated, nofun, hwaiting⟩
  | wakeUpProcess =>
    rw [hpc] at hs hcreated
    cases hs
    obtain ⟨-, hwaiter, -, -, hpast⟩ := s.wakeUpProcess_frame
    obtain ⟨hne, hiff⟩ := s.wakeUpProcess_mfoo
    exact ⟨hiff.trans hcreated, fun _ => hne, fun he => hwaiter ▸ hwaiting (hpast ▸ he)⟩
  | wakeUp1 | wakeUp2 =>
    rw [hpc] at hs hcreated hwoken
    cases hs
    refine ⟨hcreated, hwoken, fun he => ?_⟩
    simpa [State.wakeUpInterruptible] using hwaiting he
  | _ =>
    rw [hpc] at hs hcreated hwoken
    cases hs
    exact ⟨hcreated, hwoken, hwaiting⟩

theorem Thread.mfoo_step (h : Thread s) (hs : mfooStep s = some s') : Thread s' := by
  have hcreated : s.mfoo ≠ .notCreated → s.start.created ≠ false := mt h.created.2
  unfold mfooStep at hs
  cases hpc : s.mfoo with
  | notCreated | created | returned =>
    rw [hpc] at hs
    cases hs
  | goingToSleep =>
    have hwaiting := h.waiting (by rw [hpc]; rfl)
    rw [hpc] at hs hcreated
    cases hs
    refine ⟨⟨fun he => ?_, fun he => absurd he (hcreated (by simp))⟩, fun _ he => ?_,
      fun _ => hwaiting⟩
    · cases he
    · cases he
  | waitEvent =>
    rw [hpc] at hcreated
    simp only [hpc] at hs
    obtain ⟨w, hw, rfl⟩ := Option.map_eq_some_iff.1 hs
    refine ⟨⟨fun he => ?_, fun he => absurd he (hcreated (by simp))⟩, fun _ he => ?_,
      fun he ret hret => ?_⟩
    · dsimp only at he
      split_ifs at he
    · dsimp only at he
      split_ifs at he
    · have hret : w.pc = .done ret := hret
      simp [hret, Pc.inLoop, MfooPc.pastWait] at he
  | runningAgain =>
    rw [hpc] at hs hcreated
    cases hs
    refine ⟨⟨fun he => ?_, fun he => absurd he (hcreated (by simp))⟩, fun _ he => ?_, fun he => ?_⟩
    · cases he
    · cases he
    · cases he

theorem Thread.preserved (h : Thread s) (hs : step s e = some s') : Thread s' := by
  cases e with
  | start ok => exact h.start_step hs
  | mfoo => exact h.mfoo_step hs
  | spurious =>
    cases hs
    obtain ⟨hstart, -, -, -, hpast⟩ := s.wakeUpProcess_frame
    obtain ⟨hne, hiff⟩ := s.wakeUpProcess_mfoo
    refine ⟨?_, fun _ => hne, fun he => h.waiting (hpast ▸ he)⟩
    rw [hstart]
    exact hiff.trans h.created
  | stops =>
    simp only [step, Option.ite_none_right_eq_some, Option.some.injEq] at hs
    obtain ⟨-, rfl⟩ := hs
    exact ⟨h.created, h.woken, h.waiting⟩

/-- How many steps `mfoo` is away from its end. -/
def rank (s : State) : ℕ :=
  match s.mfoo with
  | .goingToSleep => s.waiter.pc.rank + 2
  | .waitEvent => s.waiter.pc.rank + 1
  | .runningAgain => 1
  | _ => 0

/-- After the second wake-up, `mfoo` can take its next step, and comes closer to its end. -/
theorem Inv.progress (h : Inv s) (ht : Thread s) (hpast : s.start.pastWakeUp)
    (hend : s.mfoo ≠ .returned) :
    ∃ s', step s .mfoo = some s' ∧ s'.start = s.start ∧ rank s' < rank s := by
  obtain ⟨hassigned, hcreated, hwoken⟩ := StartPc.pastWakeUp_le hpast
  cases hpc : s.mfoo with
  | notCreated =>
    rw [ht.created.1 hpc] at hcreated
    cases hcreated
  | created => exact absurd hpc (ht.woken hwoken)
  | goingToSleep =>
    have hs : step s .mfoo = some { s.printk .goingToSleep with mfoo := .waitEvent } := by
      simp only [step, mfooStep, hpc]
    exact ⟨_, hs, rfl, by simp [rank, hpc, State.printk]⟩
  | waitEvent =>
    have hawake := h.awake hpast
    obtain ⟨w, hw⟩ : ∃ w, s.waiter.step true false = some w :=
      hawake.exists_step (ht.waiting (by rw [hpc]; rfl))
    have hlt := (hawake.step hw).2
    have hs : step s .mfoo = some { s with
        waiter := w, mfoo := if w.pc.inLoop then .waitEvent else .runningAgain } := by
      simp only [step, mfooStep, hpc, h.decide_condition, hassigned, hw, Option.map_some]
    refine ⟨_, hs, rfl, ?_⟩
    cases hloop : w.pc.inLoop with
    | true => simpa [rank, hpc, hloop] using hlt
    | false =>
      simp only [rank, hpc, Bool.false_eq_true, if_false]
      omega
  | runningAgain =>
    have hs : step s .mfoo = some { s.printk .runningAgain with mfoo := .returned } := by
      simp only [step, mfooStep, hpc]
    exact ⟨_, hs, rfl, by simp [rank, hpc]⟩
  | returned => exact absurd hpc hend

/-- **The second wake-up is enough.** From every state of every run in which `start` is past its
second `wake_up_interruptible`, the steps of `mfoo` alone lead to its return. -/
theorem mfoo_can_return {es : List Event} (h : Runs step load es s) (hpast : s.start.pastWakeUp) :
    ∃ es' s', (∀ e ∈ es', e = .mfoo) ∧ Runs step s es' s' ∧ s'.mfoo = .returned := by
  have hI : Inv s ∧ Thread s := h.invariant' (I := fun s => Inv s ∧ Thread s)
    (fun s e s' hI hs => ⟨hI.1.preserved hs, hI.2.preserved hs⟩) ⟨inv_load, thread_load⟩
  have hcloser : ∀ s, (Inv s ∧ Thread s ∧ s.start.pastWakeUp) → ¬s.mfoo = .returned →
      ∃ e s', e = .mfoo ∧ step s e = some s' ∧ (Inv s' ∧ Thread s' ∧ s'.start.pastWakeUp) ∧
        rank s' < rank s := by
    rintro s ⟨h, ht, hpast⟩ hend
    obtain ⟨s', hs, hstart, hlt⟩ := h.progress ht hpast hend
    exact ⟨.mfoo, s', rfl, hs, ⟨h.preserved hs, ht.preserved hs, hstart ▸ hpast⟩, hlt⟩
  obtain ⟨es', s', hmfoo, hrun, -, hend⟩ :=
    Runs.exists_of_rank rank hcloser ⟨hI.1, hI.2, hpast⟩
  exact ⟨es', s', hmfoo, hrun, hend⟩

/-! ## Unloading -/

theorem startStep_stopped (hs : startStep ok s = some s') : s'.stopped = s.stopped := by
  unfold startStep at hs
  cases hpc : s.start with
  | returned ret =>
    rw [hpc] at hs
    cases hs
  | kthreadCreate =>
    simp only [hpc] at hs
    split_ifs at hs <;> cases hs <;> rfl
  | wakeUpProcess =>
    rw [hpc] at hs
    cases hs
    exact s.wakeUpProcess_frame.2.2.2.1
  | _ =>
    rw [hpc] at hs
    cases hs
    rfl

theorem mfooStep_frame (hs : mfooStep s = some s') :
    s.mfoo ≠ .returned ∧ s'.start = s.start ∧ s'.stopped = s.stopped := by
  unfold mfooStep at hs
  cases hpc : s.mfoo with
  | notCreated | created | returned =>
    rw [hpc] at hs
    cases hs
  | waitEvent =>
    simp only [hpc] at hs
    obtain ⟨w, -, rfl⟩ := Option.map_eq_some_iff.1 hs
    exact ⟨nofun, rfl, rfl⟩
  | goingToSleep | runningAgain =>
    rw [hpc] at hs
    cases hs
    exact ⟨nofun, rfl, rfl⟩

/-- `stops` is called after `start` has returned, and then nothing moves but the thread. -/
theorem stopped_frame (hstart : s.stopped → s.start = .returned 0) (hs : step s e = some s')
    (he : e ≠ .stops) : s'.stopped = s.stopped ∧ (s.stopped → s'.start = .returned 0) ∧
      (s.stopped → s.mfoo = .returned → s'.mfoo = .returned) := by
  cases e with
  | start ok =>
    have hnot : ¬s.stopped := by
      intro hstopped
      simp [step, startStep, hstart hstopped] at hs
    exact ⟨startStep_stopped hs, fun h => absurd h hnot, fun h => absurd h hnot⟩
  | mfoo =>
    obtain ⟨hne, hst, hstopped⟩ := mfooStep_frame hs
    exact ⟨hstopped, fun h => hst.trans (hstart h), fun _ h => absurd h hne⟩
  | spurious =>
    cases hs
    obtain ⟨hst, -, -, hstopped, -⟩ := s.wakeUpProcess_frame
    refine ⟨hstopped, fun h => hst.trans (hstart h), fun _ h => ?_⟩
    simp [State.wakeUpProcess, h]
  | stops => exact absurd rfl he

/-- **When the module can be unloaded.** `stops` does not wait for the thread: in a run of the
module, `mfoo` has returned in every state in which `stops` has, exactly when `stops` is called only
at a time when `mfoo` has returned. -/
theorem stops_after_mfoo_iff (es : List Event) :
    Always step (fun s => s.stopped → s.mfoo = .returned) load es ↔
      Along step (fun s e => e = .stops → s.mfoo = .returned) load es := by
  have hstops : ∀ s s', step s .stops = some s' →
      s'.stopped ∧ s'.start = .returned 0 ∧ s'.mfoo = s.mfoo := by
    intro s s' hs
    simp only [step, Option.ite_none_right_eq_some, Option.some.injEq] at hs
    obtain ⟨⟨hret, -⟩, rfl⟩ := hs
    exact ⟨rfl, hret, rfl⟩
  refine always_iff_along_of_mark (J := fun s => s.stopped → s.start = .returned 0)
    (fun s e s' hJ hs => ?_) (fun s e s' _ hs he => ?_) (fun s e s' hJ hs he => ?_) nofun nofun
  · by_cases he : e = .stops
    · exact fun _ => (hstops s s' (he ▸ hs)).2.1
    · obtain ⟨hstopped, hstart, -⟩ := stopped_frame hJ hs he
      exact fun h => hstart (hstopped ▸ h)
  · obtain ⟨hstopped, -, hmfoo⟩ := hstops s s' (he ▸ hs)
    exact ⟨hstopped, by rw [hmfoo]⟩
  · obtain ⟨hstopped, -, hmfoo⟩ := stopped_frame hJ hs he
    exact ⟨by rw [hstopped], hmfoo⟩

/-- The thread is not scheduled before the module is unloaded. -/
theorem not_returned_when_stopped :
    ¬Always step (fun s => s.stopped → s.mfoo = .returned) load
      (List.replicate 15 (.start true) ++ [.stops]) := by
  decide

end Lkb.WaitQueue
