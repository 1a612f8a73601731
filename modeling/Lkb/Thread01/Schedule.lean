import Lkb.Foundations.Fairness
import Lkb.Thread01.Exit

/-!
# `km_exit` returns under every fair schedule

The threads that were not yet told to stop may run for ever, and `km_exit` waits for one thread
after the other. It still comes to its end in every infinite run that is fair to the process that
unloads the module and to every thread (`km_exit_returns`): while `kthread_stop` waits for a thread
that has not exited, this thread brings the end closer, and otherwise `km_exit` itself does.
-/

namespace Lkb.Thread01

open CircularList Run

variable {N t : ℕ} {s s' : State} {e : Event} {ok : Bool}

/-- The parties: the process that loads and unloads the module, and the threads. -/
def party : Option ℕ → Event → Prop
  | none, .main _ => True
  | some t, .thread t' => t' = t
  | _, _ => False

/-- Who brings the end of `km_exit` closer. -/
def helpful (s : State) : Option ℕ :=
  match s.pc with
  | .waitExit _ t => if (s.threads t).pc.hasExited then none else some t
  | _ => none

theorem helpful_eq_some (h : helpful s = some t) :
    (∃ i, s.pc = .waitExit i t) ∧ (s.threads t).pc.hasExited = false := by
  unfold helpful at h
  cases hpc : s.pc with
  | waitExit i t' =>
    simp only [hpc, Option.ite_none_left_eq_some, Option.some.injEq] at h
    obtain ⟨hexited, rfl⟩ := h
    exact ⟨⟨i, rfl⟩, by simpa using hexited⟩
  | _ => simp [hpc] at h

/-- The steps of `km_exit` do not depend on what the kernel answers. -/
theorem mainStep_eq (h : s.pc.exiting) (ok ok' : Bool) : mainStep N ok s = mainStep N ok' s := by
  cases hpc : s.pc with
  | kmalloc i | kthreadCreate i => simp [hpc, Pc.exiting] at h
  | visit l pos => cases pos <;> simp only [mainStep, hpc]
  | _ => simp only [mainStep, hpc]

/-- The thread that `km_exit` waits for should stop. -/
theorem Inv.stop_of_waitExit (h : Inv N s) {i : ℕ} (hpc : s.pc = .waitExit i t) :
    (s.threads t).stop := by
  have hat := h.control
  rw [hpc] at hat
  obtain ⟨rfl, l₁, l₂, hstand⟩ := hat
  have hstops : s.stops = l₁ ++ [t] := hstand.stops
  exact (h.flag t).2 (by simp [hstops])

/-- A step of a thread changes the rank only if `km_exit` waits for the thread. -/
theorem thread_step_rank (h : Inv N s) (hs : step N s (.thread t) = some s') :
    s'.pc = s.pc ∧ ((helpful s = some t ∧ rank N s' < rank N s) ∨
      helpful s ≠ some t ∧ rank N s' = rank N s ∧ helpful s' = helpful s) := by
  obtain ⟨th, hth, rfl⟩ := Option.map_eq_some_iff.1 hs
  refine ⟨rfl, ?_⟩
  cases hpc : s.pc with
  | waitExit i t' =>
    by_cases htt : t' = t
    · subst htt
      obtain ⟨-, -, hexited, -⟩ := (h.thread t').step hth
      have hhelp : helpful s = some t' := by simp [helpful, hpc, hexited]
      have hlt := Thread.step_rank (h.stop_of_waitExit hpc) hth
      exact .inl ⟨hhelp, by simpa [rank, hpc, State.setThread] using hlt⟩
    · have hhelp : helpful s ≠ some t := fun he => by
        obtain ⟨⟨i', hpc'⟩, -⟩ := helpful_eq_some he
        rw [hpc] at hpc'
        cases hpc'
        exact htt rfl
      refine .inr ⟨hhelp, ?_, ?_⟩
      · simp [rank, hpc, State.setThread, htt]
      · simp [helpful, hpc, State.setThread, htt]
  | _ =>
    refine .inr ⟨by simp [helpful, hpc], ?_, ?_⟩
    · simp [rank, hpc, State.setThread]
    · simp [helpful, hpc, State.setThread]

/-- Every step of `km_exit` brings it closer to its end. -/
theorem main_step_rank (h : Inv N s) (hexit : s.pc.exiting) (hs : step N s (.main ok) = some s') :
    s'.pc.exiting ∧ rank N s' < rank N s := by
  have hend : s.pc ≠ .unloaded := fun hpc => by simp [step, mainStep, hpc] at hs
  obtain ⟨e, s₁, hs₁, hexit₁, hlt⟩ := h.progress hexit hend
  cases e with
  | main ok' =>
    have heq : some s₁ = some s' := by
      rw [← hs₁, ← hs]
      exact mainStep_eq hexit ok' ok
    cases heq
    exact ⟨hexit₁, hlt⟩
  | rmmod =>
    simp only [step, Option.ite_none_right_eq_some] at hs₁
    simp [hs₁.1, Pc.exiting] at hexit
  | thread t =>
    -- the step of a thread that helps: `km_exit` is waiting, and takes no step
    rcases (thread_step_rank h hs₁).2 with ⟨hhelp, -⟩ | ⟨-, heq, -⟩
    · obtain ⟨⟨i, hpc⟩, hexited⟩ := helpful_eq_some hhelp
      simp only [step, mainStep, hpc] at hs
      split at hs
      next ret hret => simp [hret, ThreadPc.hasExited] at hexited
      next => cases hs
    · exact absurd heq (Nat.ne_of_lt hlt)

/-- Who is helpful can go on. -/
theorem exists_helpful_step (h : Inv N s) (hexit : s.pc.exiting) (hend : s.pc ≠ .unloaded) :
    ∃ e, party (helpful s) e ∧ (step N s e).isSome := by
  cases hhelp : helpful s with
  | some t =>
    obtain ⟨⟨i, hpc⟩, hexited⟩ := helpful_eq_some hhelp
    refine ⟨.thread t, rfl, ?_⟩
    cases hth : (s.threads t).step with
    | some th => simp [step, threadStep, hth]
    | none =>
      have hwoken := (h.thread t).woken_of_stop (h.stop_of_waitExit hpc)
      obtain ⟨ret, hret⟩ := Thread.exited_of_step_eq_none hwoken hth
      simp [hret, ThreadPc.hasExited] at hexited
  | none =>
    obtain ⟨e, s₁, hs₁, -, hlt⟩ := h.progress hexit hend
    cases e with
    | main ok => exact ⟨.main ok, trivial, by rw [hs₁]; rfl⟩
    | rmmod =>
      simp only [step, Option.ite_none_right_eq_some] at hs₁
      simp [hs₁.1, Pc.exiting] at hexit
    | thread t =>
      rcases (thread_step_rank h hs₁).2 with ⟨ht, -⟩ | ⟨-, heq, -⟩
      · simp [hhelp] at ht
      · exact absurd heq (Nat.ne_of_lt hlt)

theorem km_exit_approaches (N : ℕ) :
    Approaches (step N) party (fun s => Inv N s ∧ s.pc.exiting) (fun s => s.pc = .unloaded) helpful
      (rank N) where
  invariant s e s' := by
    rintro ⟨h, hexit⟩ hs
    refine ⟨h.preserved hs, ?_⟩
    cases e with
    | main ok => exact (main_step_rank h hexit hs).1
    | rmmod =>
      simp only [step, Option.ite_none_right_eq_some] at hs
      simp [hs.1, Pc.exiting] at hexit
    | thread t =>
      rw [(thread_step_rank h hs).1]
      exact hexit
  enabled s h hend := exists_helpful_step h.1 h.2 hend
  closer s e s' := by
    rintro ⟨h, hexit⟩ - hparty hs
    cases e with
    | main ok => exact (main_step_rank h hexit hs).2
    | rmmod => cases hhelp : helpful s <;> simp [hhelp, party] at hparty
    | thread t =>
      have hhelp : helpful s = some t := by
        cases hhelp : helpful s with
        | none => simp [hhelp, party] at hparty
        | some t' =>
          rw [hhelp] at hparty
          rw [show t = t' from hparty]
      exact ((thread_step_rank h hs).2.resolve_right fun hne => hne.1 hhelp).2
  keeps s e s' := by
    rintro ⟨h, hexit⟩ - hs
    cases e with
    | main ok => exact .inl (main_step_rank h hexit hs).2
    | rmmod =>
      simp only [step, Option.ite_none_right_eq_some] at hs
      simp [hs.1, Pc.exiting] at hexit
    | thread t => exact (thread_step_rank h hs).2.imp And.right And.right

/-- **`km_exit` returns under every fair schedule.** From every state of every run in which
`km_exit` was called, an infinite run in which neither the unloading process nor a thread is kept
from its steps for ever comes to the end of `km_exit`, whatever the threads that still run do. -/
theorem km_exit_returns (N : ℕ) (links : Links Node) (es : List Event) (s : State)
    (hrun : Runs (step N) (load links) es s) (hexit : s.pc.exiting) (ρ : ℕ → State)
    (l : ℕ → Option Event) (hfair : Fair (step N) party ρ l) (hρ : ρ 0 = s) :
    ∃ n, (ρ n).pc = .unloaded := by
  have h : Inv N s := hrun.invariant' (fun _ _ _ h hs => h.preserved hs) (inv_load N links)
  exact hfair.eventually (km_exit_approaches N) (hρ ▸ ⟨h, hexit⟩)

/-! ## The module at rest -/

/-- The threads that were not created do not run. -/
def Absent (s : State) : Prop := ∀ t, s.created ≤ t → (s.threads t).pc = .notCreated

theorem Absent.setThread {th : Thread} (h : Absent s)
    (hth : (s.threads t).pc = .notCreated → th.pc = .notCreated) : Absent (s.setThread t th) :=
  forall_setThread (P := fun t' th => s.created ≤ t' → th.pc = .notCreated) (fun t' _ => h t')
    fun ht => hth (h t ht)

theorem Thread.wakeUp_notCreated {th : Thread} (h : th.pc = .notCreated) :
    th.wakeUp.pc = .notCreated := by
  simp [Thread.wakeUp, h]

theorem Absent.preserved (h : Absent s) (hs : step N s e = some s') : Absent s' := by
  cases e with
  | main ok =>
    obtain ⟨hthreads, -, hcreated, -⟩ | ⟨i, -, rfl⟩ | ⟨i, -, rfl⟩ | ⟨i, -, rfl⟩ := mainStep_frame hs
    · rw [Absent, hthreads, hcreated]
      exact h
    · refine forall_setThread (P := fun t th => s.created + 1 ≤ t → th.pc = .notCreated)
        (fun t _ ht => h t (by omega)) fun ht => ?_
      omega
    · exact h.setThread Thread.wakeUp_notCreated
    · exact h.setThread fun hpc => Thread.wakeUp_notCreated hpc
  | rmmod =>
    simp only [step, Option.ite_none_right_eq_some, Option.some.injEq] at hs
    obtain ⟨-, rfl⟩ := hs
    exact h
  | thread t =>
    obtain ⟨th, hth, rfl⟩ := Option.map_eq_some_iff.1 hs
    refine h.setThread fun hpc => ?_
    simp [Thread.step, hpc] at hth

/-- When `km_exit` has returned, nobody takes a step any more. -/
theorem Inv.rest (h : Inv N s) (habsent : Absent s) (hcreated : s.created ≤ N)
    (hpc : s.pc = .unloaded) : step N s e = none := by
  cases e with
  | main ok => simp [step, mainStep, hpc]
  | rmmod => simp [step, hpc]
  | thread t =>
    have hstep : (s.threads t).step = none := by
      by_cases ht : t < N
      · have hat := h.control
        rw [hpc] at hat
        have hstops : s.stops = indices N := hat.1
        have hexited := h.exited (by simp [hpc]) t (hstops ▸ mem_indices.2 ht)
        cases hth : (s.threads t).pc with
        | exited ret => simp [Thread.step, hth]
        | _ => simp [hth, ThreadPc.hasExited] at hexited
      · simp [Thread.step, habsent t (by omega)]
    simp [step, threadStep, hstep]

/-- A thread that is told to stop before it has run, and one that is told so in its loop. -/
theorem km_exit_returns_sample :
    ∃ s, Runs (step 2) (load ⟨.node, .node⟩) loadSample s ∧
      ∃ n, (path (step 2) s exitSample n).pc = .unloaded := by
  have hend : (loadSample.foldlM (step 2) (load ⟨.node, .node⟩)).bind (fun s =>
      (exitSample.foldlM (step 2) s).map fun s' => (s.pc, s'.pc, s'.created)) =
        some (.first .stop, .unloaded, 2) := by
    decide +kernel
  obtain ⟨s, hload, hrun⟩ := Option.bind_eq_some_iff.1 hend
  obtain ⟨s', hrun, hpcs⟩ := Option.map_eq_some_iff.1 hrun
  simp only [Prod.mk.injEq] at hpcs
  obtain ⟨hpc, hpc', hcreated⟩ := hpcs
  have hruns : Runs (step 2) (load ⟨.node, .node⟩) (loadSample ++ exitSample) s' :=
    runs_append.2 ⟨s, hload, hrun⟩
  have hinv : Inv 2 s' := hruns.invariant' (fun _ _ _ h hs => h.preserved hs) (inv_load 2 _)
  have habsent : Absent s' :=
    hruns.invariant' (fun _ _ _ h hs => h.preserved hs) (fun _ _ => rfl)
  exact ⟨s, hload, km_exit_returns 2 ⟨.node, .node⟩ loadSample s hload (by rw [hpc]; rfl) _ _
    (Runs.fair hrun fun _ _ _ => hinv.rest habsent (Nat.le_of_eq hcreated) hpc') (path_zero s _)⟩

end Lkb.Thread01
