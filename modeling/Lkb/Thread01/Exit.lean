import Lkb.Thread01.Stop
import Mathlib.Data.List.Nodup

/-!
# The end of `km_exit`

What the invariant of the module says about `km_exit`: whom it stops, what it frees, and that it
always comes to its end. The last needs a rank. While `kthread_stop` waits, the thread it waits for
comes closer to its exit with every step, and with every other step `km_exit` itself goes on; the
steps of the other threads are not counted.

`km_exit_stops_and_frees` is the main result.
-/

namespace Lkb.Thread01

open CircularList Run

variable {N i t : ℕ} {s s' : State} {th th' : Thread} {e : Event} {ok : Bool}

/-! ## The rank -/

/-- How many steps a thread is away from its exit when it should stop. -/
def ThreadPc.rank : ThreadPc → ℕ
  | .notCreated | .created | .exited _ => 0
  | .ready | .leave => 1
  | .shouldStop => 2
  | .msleep => 3
  | .prInfo => 4

theorem ThreadPc.rank_le (pc : ThreadPc) : pc.rank ≤ 4 := by
  cases pc <;> simp [rank]

/-- A thread that should stop comes closer to its exit. -/
theorem Thread.step_rank (hstop : th.stop) (hs : th.step = some th') :
    th'.pc.rank < th.pc.rank := by
  obtain ⟨pc, stop⟩ := th
  obtain rfl : stop = true := hstop
  cases pc with
  | notCreated | created | exited ret => cases hs
  | _ =>
    cases hs
    simp [ThreadPc.rank]

/-- `km_exit` was called. -/
def Pc.exiting : Pc → Bool
  | .first .stop | .visit .stop _ | .msleep _ | .kthreadStop _ | .waitExit _ _ | .stopped _ _
  | .advance .stop _ | .kfree _ | .goodbye | .unloaded => true
  | _ => false

/-- How far `km_exit` is from its end: ten steps at most for each thread that is left to stop, and
one for each work structure that is left to free. -/
def rank (N : ℕ) (s : State) : ℕ :=
  let left := 10 * (N - s.stops.length) + N
  match s.pc with
  | .waitExit _ t => left + 6 + (s.threads t).pc.rank
  | .stopped _ _ => left + 5
  | .advance _ _ | .first _ => left + 4
  | .visit _ _ => left + 3
  | .msleep _ => left + 2
  | .kthreadStop _ => left + 1
  | .kfree k => N - k + 2
  | .goodbye => 1
  | _ => 0

/-- The call of `kthread_stop` leaves one thread less to stop. -/
theorem Stand.kthreadStop_progress {l₁ l₂ : List ℕ} (h : Stand N s.control .stop l₁ (i :: l₂))
    (hpc : s.pc = .kthreadStop i) :
    ∃ e s', step N s e = some s' ∧ s'.pc.exiting ∧ rank N s' < rank N s := by
  set s' := (s.kthreadStop (s.task i)).goto (.waitExit i (s.task i)) with hs'
  have hs : step N s (.main true) = some s' := by simp only [step, mainStep, hpc, hs']
  refine ⟨_, _, hs, rfl, ?_⟩
  have hstops : s.stops = l₁ := h.stops
  have hstops' : s'.stops.length = l₁.length + 1 := by
    simp [hs', State.kthreadStop, State.goto, hstops]
  have hpc' : s'.pc = .waitExit i (s.task i) := rfl
  have hlen : N = l₁.length + (l₂.length + 1) := by
    simpa [indices] using congrArg List.length h.split
  have hle := (s'.threads (s.task i)).pc.rank_le
  simp only [rank, hpc, hpc', hstops, hstops']
  omega

/-- While `kthread_stop` waits for a thread, either the thread can go on, or the wait is over. -/
theorem Inv.waitExit_progress (h : Inv N s) (hpc : s.pc = .waitExit i t) (ht : t ∈ s.stops) :
    ∃ e s', step N s e = some s' ∧ s'.pc.exiting ∧ rank N s' < rank N s := by
  have hflag : (s.threads t).stop := (h.flag t).2 ht
  cases hthread : (s.threads t).step with
  | some th =>
    have hlt := Thread.step_rank hflag hthread
    have hs : step N s (.thread t) =
        some { s.setThread t th with log := s.log ++ (s.threads t).prints } := by
      simp only [step, threadStep, hthread, Option.map_some]
    refine ⟨_, _, hs, ?_, ?_⟩
    · simp [State.setThread, hpc, Pc.exiting]
    · simpa [rank, hpc, State.setThread] using hlt
  | none =>
    obtain ⟨ret, hret⟩ : ∃ ret, (s.threads t).pc = .exited ret :=
      Thread.exited_of_step_eq_none ((h.thread t).woken_of_stop hflag) hthread
    have hs : step N s (.main true) = some (s.goto (.stopped i ret)) := by
      simp only [step, mainStep, hpc, hret]
    refine ⟨_, _, hs, rfl, ?_⟩
    simp only [rank, hpc, State.goto]
    omega

/-- **`km_exit` is never stuck.** As long as it has not come to its end, some step brings it closer:
its own next one, or one of the thread that it waits for. -/
theorem Inv.progress (h : Inv N s) (hexit : s.pc.exiting) (hend : s.pc ≠ .unloaded) :
    ∃ e s', step N s e = some s' ∧ s'.pc.exiting ∧ rank N s' < rank N s := by
  have hat := h.control
  cases hpc : s.pc with
  | first l =>
    rw [hpc] at hat
    have hnext : s.links.next .head = _ := (Stand.ring hat).next_head
    cases l with
    | wake => simp [hpc, Pc.exiting] at hexit
    | stop =>
      have hs : step N s (.main true) = some (s.goto (.visit .stop ((nodes N).headD .head))) := by
        simp only [step, mainStep, hpc, hnext]
      exact ⟨_, _, hs, rfl, by simp [rank, hpc, State.goto]⟩
  | visit l pos =>
    cases l with
    | wake => simp [hpc, Pc.exiting] at hexit
    | stop =>
      cases pos with
      | head =>
        have hs : step N s (.main true) = some (s.goto (.kfree 0)) := by
          simp only [step, mainStep, hpc, leave]
        refine ⟨_, _, hs, rfl, ?_⟩
        simp only [rank, hpc, State.goto]
        omega
      | work i =>
        have hs : step N s (.main true) = some (s.goto (.msleep i)) := by
          simp only [step, mainStep, hpc, enter]
        exact ⟨_, _, hs, rfl, by simp [rank, hpc, State.goto]⟩
  | msleep i =>
    have hs : step N s (.main true) = some (s.goto (.kthreadStop i)) := by
      simp only [step, mainStep, hpc]
    exact ⟨_, _, hs, rfl, by simp [rank, hpc, State.goto]⟩
  | kthreadStop i =>
    rw [hpc] at hat
    obtain ⟨l₁, l₂, hstand⟩ := hat
    exact hstand.kthreadStop_progress hpc
  | waitExit i t =>
    rw [hpc] at hat
    obtain ⟨rfl, l₁, l₂, hstand⟩ := hat
    have hstops : s.stops = l₁ ++ [t] := hstand.stops
    exact h.waitExit_progress hpc (by simp [hstops])
  | stopped i ret =>
    by_cases hret : ret = 0
    · have hs : step N s (.main true) = some { (s.printk (.threadStopped s.i)).goto
          (.advance .stop i) with i := s.i + 1 } := by
        simp only [step, mainStep, hpc, if_pos hret]
      exact ⟨_, _, hs, rfl, by simp [rank, hpc, State.goto, State.printk]⟩
    · have hs : step N s (.main true) = some (s.goto (.advance .stop i)) := by
        simp only [step, mainStep, hpc, if_neg hret]
      exact ⟨_, _, hs, rfl, by simp [rank, hpc, State.goto]⟩
  | advance l i =>
    rw [hpc] at hat
    obtain ⟨l₁, l₂, hstand⟩ := hat
    have hnext : s.links.next (.work i) = _ := hstand.next
    cases l with
    | wake => simp [hpc, Pc.exiting] at hexit
    | stop =>
      have hs : step N s (.main true) =
          some (s.goto (.visit .stop ((l₂.map Node.work).headD .head))) := by
        simp only [step, mainStep, hpc, hnext]
      exact ⟨_, _, hs, rfl, by simp [rank, hpc, State.goto]⟩
  | kfree i =>
    by_cases hlt : i < N
    · have hs : step N s (.main true) = some ((s.kfree i).goto (.kfree (i + 1))) := by
        simp only [step, mainStep, hpc, if_pos hlt]
      refine ⟨_, _, hs, rfl, ?_⟩
      simp only [rank, hpc, State.goto]
      omega
    · have hs : step N s (.main true) = some (s.goto .goodbye) := by
        simp only [step, mainStep, hpc, if_neg hlt]
      refine ⟨_, _, hs, rfl, ?_⟩
      simp only [rank, hpc, State.goto]
      omega
  | goodbye =>
    have hs : step N s (.main true) = some ((s.printk .goodbye).goto .unloaded) := by
      simp only [step, mainStep, hpc]
    exact ⟨_, _, hs, rfl, by simp [rank, hpc, State.goto]⟩
  | unloaded => exact absurd hpc hend
  | _ => simp [hpc, Pc.exiting] at hexit

/-- From every state in which `km_exit` was called or can be, the module can be unloaded. -/
theorem Inv.exists_unloaded (h : Inv N s) (hpc : s.pc = .returned 0 ∨ s.pc.exiting) :
    ∃ es s', Runs (step N) s es s' ∧ s'.pc = .unloaded := by
  have hexit : ∀ s, Inv N s → s.pc.exiting →
      ∃ es s', Runs (step N) s es s' ∧ s'.pc = .unloaded := by
    intro s h hexit
    have hcloser : ∀ s, (Inv N s ∧ s.pc.exiting) → ¬s.pc = .unloaded → ∃ e s', True ∧
        step N s e = some s' ∧ (Inv N s' ∧ s'.pc.exiting) ∧ rank N s' < rank N s := by
      rintro s ⟨h, hexit⟩ hend
      obtain ⟨e, s', hs, hexit', hlt⟩ := h.progress hexit hend
      exact ⟨e, s', trivial, hs, ⟨h.preserved hs, hexit'⟩, hlt⟩
    obtain ⟨es, s', -, hrun, -, hend⟩ :=
      Runs.exists_of_rank (G := fun _ => True) (rank N) hcloser ⟨h, hexit⟩
    exact ⟨es, s', hrun, hend⟩
  obtain hret | hpc := hpc
  · have hs : step N s .rmmod = some { s.goto (.first .stop) with i := 0 } := by
      simp [step, hret]
    obtain ⟨es, s', hrun, hend⟩ := hexit _ (h.preserved hs) rfl
    exact ⟨.rmmod :: es, s', runs_cons.2 ⟨_, hs, hrun⟩, hend⟩
  · exact hexit s h hpc

/-! ## What `km_exit` does -/

/-- `kthread_stop` is called only for a thread that was created and has not exited, and `kfree` only
for a work structure that is allocated, when all threads have exited. -/
structure Orderly (N : ℕ) (s : State) (e : Event) : Prop where
  stop : ∀ ok i, e = .main ok → s.pc = .kthreadStop i →
    s.task i < s.created ∧ (s.threads (s.task i)).pc.hasExited = false
  free : ∀ ok i, e = .main ok → s.pc = .kfree i → i < N →
    i ∈ s.allocated ∧ ∀ t < N, (s.threads t).pc.hasExited

/-- The calls of `kthread_stop` and of `kfree` so far: the threads in the order of the list, each
once, and the work structures in the order of the array, each once; all of them when `km_exit` has
returned. As long as `km_exit` has not returned, it can come to its end. -/
structure Accounted (N : ℕ) (s : State) : Prop where
  stops : s.stops <+: indices N
  frees : s.frees <+: List.range N
  unloaded : s.pc = .unloaded → s.stops = indices N ∧ s.frees = List.range N ∧ s.allocated = []
  ends : s.pc = .returned 0 ∨ s.pc.exiting → ∃ es s', Runs (step N) s es s' ∧ s'.pc = .unloaded

/-- The threads that were stopped so far are the first ones of the list. -/
theorem At.stops_isPrefix {c : Control} {pc : Pc} (h : At N c pc) : c.stops <+: indices N := by
  have hnil : c.stops = [] → c.stops <+: indices N := fun hc => hc ▸ List.nil_prefix
  have hstand : ∀ l l₁ l₂, Stand N c l l₁ l₂ → c.stops <+: indices N := by
    intro l l₁ l₂ hstand
    cases l with
    | wake => exact hnil hstand.stops
    | stop => exact ⟨l₂, by rw [hstand.stops, hstand.split, called]⟩
  cases pc with
  | kmalloc i | kthreadCreate i => exact hnil h.2.stops
  | allCreated | initListHead => exact hnil (Made.stops h)
  | listAdd i => exact hnil h.2.1.stops
  | first l | bar => exact hstand _ _ _ h
  | visit l pos =>
    obtain ⟨l₁, l₂, h, -⟩ := h
    exact hstand _ _ _ h
  | data i | wakeUp i | msleep i | kthreadStop i =>
    obtain ⟨l₁, l₂, h⟩ := h
    exact hstand _ _ _ h
  | waitExit i t =>
    obtain ⟨-, l₁, l₂, h⟩ := h
    exact hstand _ _ _ h
  | stopped i ret =>
    obtain ⟨l₁, l₂, h⟩ := h
    exact hstand _ _ _ h
  | advance l i =>
    obtain ⟨l₁, l₂, h⟩ := h
    exact hstand _ _ _ h
  | returned ret => exact hnil h.1
  | kfree k => exact h.2.1 ▸ List.prefix_rfl
  | goodbye | unloaded => exact h.1 ▸ List.prefix_rfl

/-- The work structures that were freed so far are the first ones of the array. -/
theorem At.frees_isPrefix {c : Control} {pc : Pc} (h : At N c pc) : c.frees <+: List.range N := by
  have hnil : c.frees = [] → c.frees <+: List.range N := fun hc => hc ▸ List.nil_prefix
  cases pc with
  | kmalloc i | kthreadCreate i => exact hnil h.2.frees
  | allCreated | initListHead => exact hnil (Made.frees h)
  | listAdd i => exact hnil h.2.1.frees
  | first l | bar => exact hnil (Stand.frees h)
  | visit l pos =>
    obtain ⟨l₁, l₂, h, -⟩ := h
    exact hnil h.frees
  | data i | wakeUp i | msleep i | kthreadStop i =>
    obtain ⟨l₁, l₂, h⟩ := h
    exact hnil h.frees
  | waitExit i t =>
    obtain ⟨-, l₁, l₂, h⟩ := h
    exact hnil h.frees
  | stopped i ret =>
    obtain ⟨l₁, l₂, h⟩ := h
    exact hnil h.frees
  | advance l i =>
    obtain ⟨l₁, l₂, h⟩ := h
    exact hnil h.frees
  | returned ret => exact hnil h.2.1
  | kfree k =>
    obtain ⟨hk, -, hfrees, -⟩ := h
    have hpre := List.take_prefix k (List.range N)
    rwa [List.take_range, Nat.min_eq_left hk, ← hfrees] at hpre
  | goodbye | unloaded => exact h.2.1 ▸ List.prefix_rfl

theorem Inv.accounted (h : Inv N s) : Accounted N s where
  stops := h.control.stops_isPrefix
  frees := h.control.frees_isPrefix
  unloaded := by
    intro hpc
    have hcontrol := h.control
    rw [hpc] at hcontrol
    exact hcontrol
  ends := h.exists_unloaded

theorem Inv.orderly (h : Inv N s) (e : Event) : Orderly N s e where
  stop := by
    rintro ok i - hpc
    have hcontrol := h.control
    rw [hpc] at hcontrol
    obtain ⟨l₁, l₂, hstand⟩ := hcontrol
    have htask : s.task i = i := hstand.task i hstand.lt
    have hcreated : s.created = N := hstand.created
    refine ⟨by rw [htask, hcreated]; exact hstand.lt, h.not_exited ?_⟩
    have hstops : s.stops = l₁ := hstand.stops
    have hnodup : (l₁ ++ i :: l₂).Nodup := hstand.split ▸ List.nodup_reverse.2 List.nodup_range
    rw [htask, hstops]
    exact fun hmem => (List.nodup_append.1 hnodup).2.2 i hmem i List.mem_cons_self rfl
  free := by
    rintro ok i - hpc hi
    have hcontrol := h.control
    rw [hpc] at hcontrol
    obtain ⟨-, hstops, -, hlive⟩ := hcontrol
    have hstops : s.stops = indices N := hstops
    refine ⟨(hlive.mem_iff i).2 ⟨Nat.le_refl i, hi⟩, fun t ht => ?_⟩
    exact h.exited (by simp [hpc]) t (hstops ▸ mem_indices.2 ht)

/-- **How `km_exit` stops the threads and frees their work structures.** For every value `N` of
`ELEMENTS` and every interleaving of `km_init` and `km_exit` with the threads, at every point of the
run: `kthread_stop` was called for the threads `N - 1`, `N - 2`, … in this order, each once, and
never for one that had exited; a work structure was freed only when all `N` threads had exited, and
each of them once; when `km_exit` has returned, all threads were stopped and all work structures
were freed; and from every point after `km_init` has returned 0 the run can go on until `km_exit`
returns. -/
theorem km_exit_stops_and_frees (N : ℕ) (links : Links Node) (es : List Event) :
    Along (step N) (Orderly N) (load links) es ∧ Always (step N) (Accounted N) (load links) es := by
  have hG : Along (step N) (fun _ _ => True) (load links) es := along_true (load links) es
  constructor
  · refine Along.of_invariant (I := Inv N) (fun s e s' h _ hs => ?_) hG (inv_load N links)
    exact ⟨h.preserved hs, h.orderly e⟩
  · refine Always.of_invariant (I := Inv N) (fun s e s' h _ hs => ?_) (fun s h => ?_) hG
      (inv_load N links)
    · exact h.preserved hs
    · exact h.accounted

/-- `km_init` for two threads, and the call of `km_exit`. -/
def loadSample : List Event := List.replicate 21 (Event.main true) ++ [Event.rmmod]

/-- A run of `km_exit` in which the thread 1 is told to stop before it has run, and the thread 0 in
its loop. -/
def exitSample : List Event :=
  List.replicate 4 (Event.main true) ++ [Event.thread 1] ++ List.replicate 3 (Event.main true) ++
    List.replicate 3 (Event.thread 0) ++ List.replicate 3 (Event.main true) ++
    List.replicate 3 (Event.thread 0) ++ List.replicate 8 (Event.main true)

theorem km_exit_stops_and_frees_sample :
    ((loadSample ++ exitSample).foldlM (step 2) (load ⟨.node, .node⟩)).map
        (fun s => (s.pc, s.stops, s.frees)) = some (.unloaded, [1, 0], [0, 1]) ∧
      Along (step 2) (Orderly 2) (load ⟨.node, .node⟩) (loadSample ++ exitSample) ∧
      Always (step 2) (Accounted 2) (load ⟨.node, .node⟩) (loadSample ++ exitSample) :=
  ⟨by decide +kernel, km_exit_stops_and_frees 2 ⟨.node, .node⟩ (loadSample ++ exitSample)⟩

end Lkb.Thread01
