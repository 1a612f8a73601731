import Lkb.WorkQueueDedicated.Ledger

/-!
# The failure path of `work_handler`

When `kmalloc` fails, the handler returns at once, between its `spin_lock` and its `spin_unlock`.
Such an invocation leaves the counter, the list and the array as they were, but the preemption depth
of the worker one higher (`FailedInvocation.kept`). Nothing undoes this: between two invocations the
depth is the number of the invocations so far that failed (`Depth`). So the worker can be preempted
between the invocations of a run exactly when none of them fails (`preemptible_iff`).
-/

namespace Lkb.WorkQueueDedicated

open CircularList Run

variable {d d' : Data} {pc pc' : HandlerPc} {mem : Option Addr} {s s' : State} {e : Event}
  {es : List Event}

/-! ## The preemption depth -/

/-- The locks that the invocation holds at each point. -/
def held : HandlerPc → ℕ
  | .idle | .lock => 0
  | _ => 1

/-- The preemption depth of the worker: a failed invocation has left its lock behind. -/
def Depth (pc : HandlerPc) (d : Data) : Prop := d.preempt = d.done.count .failed + held pc

/-- A step of the handler keeps the account of the locks. -/
theorem Depth.preserved (h : Depth pc d) (hs : handlerStep mem pc d = some (pc', d')) :
    Depth pc' d' := by
  unfold Depth at h ⊢
  cases handlerStep_moves hs with
  | lockAdd => simpa [held] using h
  | lockFlush => simpa [held] using h
  | failed => simpa [held, Data.record, Data.say] using h
  | add => simpa [held, Data.record] using h
  | printed => simpa [held, Data.record] using h
  | unlock =>
    simp only [held] at h ⊢
    omega
  | _ => exact h

/-- Every step of the module keeps the account of the locks. -/
theorem Depth.step (h : Depth s.handler s.data) (hs : step s e = some s') :
    Depth s'.handler s'.data := by
  obtain ⟨hpc, hdata⟩ | ⟨-, hidle, hlock, hdata⟩ | ⟨mem, -, -, hstep⟩ := step_handler hs
  · rw [hpc, hdata]
    exact h
  · rw [hidle] at h
    rw [hlock, hdata]
    exact h
  · exact h.preserved hstep

/-! ## A failed invocation -/

/-- Only the first statement of the handler leads to its call of `kmalloc`. -/
theorem handlerStep_to_kmalloc (hs : handlerStep mem pc d = some (pc', d')) :
    pc' ≠ .lock ∧ (pc' = .kmalloc → pc = .lock ∧ d' = { d with preempt := d.preempt + 1 }) := by
  cases handlerStep_moves hs with
  | lockAdd => exact ⟨nofun, fun _ => ⟨rfl, rfl⟩⟩
  | _ => exact ⟨nofun, nofun⟩

/-- In the run `es` from `s` there is an invocation of the handler whose `kmalloc` fails: it begins
with the data `d` and returns with `d'`. -/
def FailedInvocation (s : State) (es : List Event) (d d' : Data) : Prop :=
  ∃ es₁ es₂ es₃ s₁ s₂ s₃, es = (es₁ ++ .workerRun :: es₂) ++ .handler none :: es₃ ∧
    Runs step s es₁ s₁ ∧ Runs step s₁ (.workerRun :: es₂) s₂ ∧ .workerRun ∉ es₂ ∧
    s₂.handler = .kmalloc ∧ step s₂ (.handler none) = some s₃ ∧ s₁.data = d ∧ s₃.data = d'

/-- `moving_val`, the list at `head` and `f[0], …, f[moving_val - 1]` are the same. -/
structure Kept (d d' : Data) : Prop where
  movingVal : d'.movingVal = d.movingVal
  links : d'.links = d.links
  f_eq : ∀ i : ℕ, i < d.movingVal → d'.f i = d.f i

/-- The preemption depth is the same, too. -/
structure Restored (d d' : Data) : Prop extends Kept d d' where
  preempt : d'.preempt = d.preempt

/-- What the handler has changed when it comes to `kmalloc`. -/
def Entering (d : Data) (s : State) : Prop :=
  (s.handler = .lock → s.data = d) ∧
    (s.handler = .kmalloc → s.data = { d with preempt := d.preempt + 1 })

theorem Entering.step (h : Entering d s) (he : e ≠ .workerRun) (hs : step s e = some s') :
    Entering d s' := by
  obtain ⟨hpc, hdata⟩ | ⟨hrun, -⟩ | ⟨mem, -, -, hstep⟩ := step_handler hs
  · rw [Entering, hpc, hdata]
    exact h
  · exact absurd hrun he
  · obtain ⟨hlock, hkmalloc⟩ := handlerStep_to_kmalloc hstep
    refine ⟨fun hpc => absurd hpc hlock, fun hpc => ?_⟩
    obtain ⟨hpc, hdata⟩ := hkmalloc hpc
    rw [hdata, h.1 hpc]

/-- The failing call of `kmalloc` ends the invocation. -/
theorem Working.failed_step (h : Working s) (hpc : s.handler = .kmalloc)
    (hs : step s (.handler none) = some s') :
    s'.handler = .idle ∧ Kept s.data s'.data ∧ s'.data.preempt = s.data.preempt := by
  have hinv := h.inv.agrees
  rw [hpc] at hinv
  obtain ⟨nodes, hn, hlen⟩ := hinv
  have hidx : index s.data.movingVal = some nodes.length := by
    rw [hn.movingVal, index_natCast hlen]
  obtain ⟨-, -, rfl⟩ := step_eq_some.1 hs
  simp only [effect, State.runHandler, hpc, handlerStep, hidx, Option.map_some]
  refine ⟨trivial, ⟨rfl, rfl, fun i hi => ?_⟩, rfl⟩
  rw [hn.movingVal] at hi
  exact Function.update_of_ne (by omega) _ _

/-- **What a failed invocation leaves behind.** -/
theorem FailedInvocation.kept (hw : Working s) (h : FailedInvocation s es d d') :
    Kept d d' ∧ d'.preempt = d.preempt + 1 := by
  obtain ⟨es₁, es₂, es₃, s₁, s₂, s₃, -, hrun₁, hrun₂, hno, hpc, hs, rfl, rfl⟩ := h
  have hw₁ : Working s₁ := hrun₁.invariant' (fun _ _ _ h hs => h.preserved hs) hw
  have hw₂ : Working s₂ := hrun₂.invariant' (fun _ _ _ h hs => h.preserved hs) hw₁
  have hdata : s₂.data = { s₁.data with preempt := s₁.data.preempt + 1 } := by
    obtain ⟨t, ht, hrun⟩ := runs_cons.1 hrun₂
    obtain ⟨-, -, rfl⟩ := step_eq_some.1 ht
    have hbegin : Entering s₁.data (effect s₁ .workerRun) := ⟨fun _ => rfl, nofun⟩
    have hlabels : Along step (fun _ e => e ≠ .workerRun) (effect s₁ .workerRun) es₂ :=
      along_of_forall fun e he h => hno (h ▸ he)
    exact (hrun.invariant (fun _ _ _ h he hs => h.step he hs) hlabels hbegin).2 hpc
  obtain ⟨-, hkept, hpreempt⟩ := hw₂.failed_step hpc hs
  rw [hdata] at hkept hpreempt
  exact ⟨⟨hkept.movingVal, hkept.links, hkept.f_eq⟩, hpreempt⟩

/-! ## Whole runs -/

/-- The call of `kmalloc`, where the step makes one, does not fail. -/
def KmallocSucceeds (s : State) (e : Event) : Prop := e = .handler none → s.handler ≠ .kmalloc

instance (s : State) (e : Event) : Decidable (KmallocSucceeds s e) :=
  inferInstanceAs (Decidable (_ → _))

/-- The invariant of the module as long as no invocation has failed. -/
structure Balanced (s : State) : Prop where
  working : Working s
  depth : Depth s.handler s.data
  unfailed : .failed ∉ s.data.done

theorem Balanced.preempt (h : Balanced s) (hidle : s.handler = .idle) : s.data.preempt = 0 := by
  have hdepth := h.depth
  rw [Depth, hidle, List.count_eq_zero.2 h.unfailed] at hdepth
  exact hdepth

theorem unfailed_step (h : .failed ∉ d.done) (hok : pc = .kmalloc → mem ≠ none)
    (hs : handlerStep mem pc d = some (pc', d')) : .failed ∉ d'.done := by
  cases handlerStep_moves hs with
  | failed _ hmem => exact absurd hmem (hok rfl)
  | add => simpa [Data.record] using h
  | printed => simpa [Data.record] using h
  | _ => exact h

theorem Balanced.preserved (h : Balanced s) (hok : KmallocSucceeds s e)
    (hs : step s e = some s') : Balanced s' := by
  refine ⟨h.working.preserved hs, h.depth.step hs, ?_⟩
  have hunfailed := h.unfailed
  obtain ⟨-, hdata⟩ | ⟨-, -, -, hdata⟩ | ⟨mem, rfl, -, hstep⟩ := step_handler hs
  · rwa [hdata]
  · rwa [hdata]
  · exact unfailed_step hunfailed (fun hpc hmem => hok (hmem ▸ rfl) hpc) hstep

/-- A failure leaves the depth at 1. -/
theorem Balanced.preempt_of_failed (h : Balanced s) (hok : ¬KmallocSucceeds s e)
    (hs : step s e = some s') : s'.handler = .idle ∧ s'.data.preempt = 1 := by
  obtain ⟨rfl, hpc⟩ := Classical.not_imp.1 hok
  obtain ⟨hidle, -, hpreempt⟩ := h.working.failed_step (not_not.1 hpc) hs
  refine ⟨hidle, ?_⟩
  have hdepth := h.depth
  rwa [Depth, not_not.1 hpc, List.count_eq_zero.2 h.unfailed, ← hpreempt] at hdepth

/-- The failures add up: between two invocations, the preemption depth is the number of those that
have failed. -/
theorem preempt_eq_count_failed {value : Addr → ℤ} {links : Links Head} (hidle : s.handler = .idle)
    (hdata : s.data = Data.load value links) (hrun : Runs step s es s')
    (hidle' : s'.handler = .idle) : s'.data.preempt = s'.data.done.count .failed := by
  have hload : Depth s.handler s.data := by
    rw [hidle, hdata]
    rfl
  have hdepth : Depth s'.handler s'.data :=
    hrun.invariant' (I := fun s => Depth s.handler s.data) (fun _ _ _ h hs => h.step hs) hload
  rwa [hidle'] at hdepth

/-- **When a failure is contained.** From the state after `start`, in every run of interrupts,
worker and `stops`, for every result of `kmalloc`: an invocation of the handler whose `kmalloc`
fails leaves the counter, the list and the array as they were, and the preemption depth one higher;
and all such invocations restore the depth, which is 0 between any two invocations, exactly when
there is no such invocation. -/
theorem preemptible_iff {value : Addr → ℤ} {links : Links Head} (es : List Event) (h : Started s)
    (hidle : s.handler = .idle) (hdata : s.data = Data.load value links) :
    (∀ d d', FailedInvocation s es d d' → Kept d d' ∧ d'.preempt = d.preempt + 1) ∧
      ((∀ d d', FailedInvocation s es d d' → Restored d d') ∧
          Always step (fun s => s.handler = .idle → s.data.preempt = 0) s es ↔
        Along step KmallocSucceeds s es) := by
  have hw : Working s := (books_started h hidle hdata).working
  have hbalanced : Balanced s := by
    refine ⟨hw, ?_, ?_⟩
    · rw [hidle, hdata]
      rfl
    · rw [hdata]
      nofun
  have hiff : Always step (fun s => s.handler = .idle → s.data.preempt = 0) s es ↔
      Along step KmallocSucceeds s es := by
    refine always_iff_along (fun s h => h.preempt) (fun s e s' h hs => ?_) hbalanced
    refine ⟨⟨fun hP => ?_, fun hok => (h.preserved hok hs).preempt⟩, fun hok => h.preserved hok hs⟩
    by_contra hok
    obtain ⟨hidle, hone⟩ := h.preempt_of_failed hok hs
    exact absurd (hP hidle) (by omega)
  refine ⟨fun d d' hd => hd.kept hw, fun hall => hiff.1 hall.2, fun hok => ⟨?_, hiff.2 hok⟩⟩
  rintro d d' ⟨es₁, es₂, es₃, s₁, s₂, s₃, rfl, hrun₁, hrun₂, -, hpc, hs, -⟩
  have hrun : Runs step s (es₁ ++ .workerRun :: es₂) s₂ := runs_append.2 ⟨s₁, hrun₁, hrun₂⟩
  exact absurd hpc (hok.at hrun hs rfl)

/-- Every `kmalloc` of the fifteen invocations succeeds. -/
theorem preemptible_iff_sample :
    Along step KmallocSucceeds startedSample flushSample ∧
      Always step (fun s => s.handler = .idle → s.data.preempt = 0) startedSample flushSample := by
  have hok : Along step KmallocSucceeds startedSample flushSample := by
    decide +kernel
  exact ⟨hok, ((preemptible_iff _ ⟨rfl, rfl, rfl, rfl, rfl⟩ rfl rfl).2.2 hok).2⟩

/-- An interrupt and the run of the handler that it queues, whose `kmalloc` fails. -/
def failureSample : List Event :=
  [.irqEnter, .irqQueueWork, .irqReturn, .workerRun, .handler none, .handler none]

/-- After a failure in the first invocation, the worker is left with preemption disabled. -/
theorem not_preemptible_after_failure :
    (∃ d d', FailedInvocation startedSample failureSample d d' ∧ ¬Restored d d') ∧
      ¬Always step (fun s => s.handler = .idle → s.data.preempt = 0) startedSample
        failureSample := by
  have hfailed : ∃ d d', FailedInvocation startedSample failureSample d d' ∧
      d'.preempt = 1 ∧ d.preempt = 0 :=
    ⟨_, _, ⟨[.irqEnter, .irqQueueWork, .irqReturn], [.handler none], [], _, _, _, rfl, rfl, rfl,
      by decide, rfl, rfl, rfl, rfl⟩, rfl, rfl⟩
  obtain ⟨d, d', hd, hone, hzero⟩ := hfailed
  refine ⟨⟨d, d', hd, fun h => ?_⟩, by decide +kernel⟩
  exact absurd (hone.symm.trans (h.preempt.trans hzero)) (by decide)

end Lkb.WorkQueueDedicated
