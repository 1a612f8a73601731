import Lkb.Thread01.Stop

/-!
# What `thread01` prints

The lines of `km_init` and `km_exit`, among those that the threads print at any time. `km_init`
numbers the work structures in the order of the list, from 0 up to `N - 1`. `km_exit` numbers only
the threads that return 0: one that was told to stop before it first ran returns `-EINTR`, and is
passed over without a line. So the numbers of the lines "Thread stopped" say how many threads ran,
and not which (`km_exit_counts`).
-/

namespace Lkb.Thread01

open CircularList Run

variable {N i t : ℕ} {s s' : State} {th th' : Thread} {e : Event} {ok : Bool} {l₁ l₂ : List ℕ}

/-! ## The counter of the first loop -/

theorem indices_succ (n : ℕ) : indices (n + 1) = n :: indices n := by
  simp [indices, List.range_succ]

/-- The list counts down: what follows an index, and how many come before it. -/
theorem indices_split (h : indices N = l₁ ++ i :: l₂) : l₂ = indices i ∧ l₁.length + i + 1 = N := by
  induction N generalizing l₁ with
  | zero => simp [indices] at h
  | succ n ih =>
    rw [indices_succ] at h
    cases l₁ with
    | nil =>
      obtain ⟨rfl, rfl⟩ := List.cons.inj h
      exact ⟨rfl, by simp⟩
    | cons j l₁ =>
      obtain ⟨-, htail⟩ := List.cons.inj h
      obtain ⟨hl₂, hlen⟩ := ih htail
      exact ⟨hl₂, by rw [List.length_cons]; omega⟩

/-! ## The lines -/

/-- The thread has exited with 0. -/
def ThreadPc.succeeded (pc : ThreadPc) : Bool := pc = .exited 0

/-- The threads that `kthread_stop` has returned for, and whose return value was looked at. -/
def State.settled (s : State) : List ℕ :=
  match s.pc with
  | .waitExit _ _ | .stopped _ _ => s.stops.dropLast
  | _ => s.stops

/-- What `km_init` prints when it succeeds. -/
def started (N : ℕ) : List Message :=
  .allTaskCreated :: ((List.range N).map .data ++ [.bar])

/-- What `km_init` and `km_exit` have printed before each of their points, when the counter of
their loop is `i`. -/
def output (N i : ℕ) : Pc → List Message
  | .kmalloc _ | .kthreadCreate _ | .allCreated => []
  | .initListHead | .listAdd _ => [.allTaskCreated]
  | .first .wake | .visit .wake _ | .data _ | .wakeUp _ | .advance .wake _ | .bar =>
    .allTaskCreated :: (List.range i).map .data
  | .returned _ => started N
  | .unloaded => started N ++ (List.range i).map .threadStopped ++ [.goodbye]
  | _ => started N ++ (List.range i).map .threadStopped

/-- What the counter is at each point. -/
def Counted (N : ℕ) (s : State) : Prop :=
  match s.pc with
  | .kmalloc _ | .kthreadCreate _ | .allCreated | .initListHead | .listAdd _ | .returned _ => True
  | .first .wake => s.i = 0
  | .visit .wake .head | .bar => s.i = N
  | .visit .wake (.work j) | .data j => s.i + j + 1 = N
  | .wakeUp j | .advance .wake j => s.i + j = N
  | .stopped j ret => (s.threads j).pc = .exited ret ∧
    s.i = s.settled.countP fun t => (s.threads t).pc.succeeded
  | _ => s.i = s.settled.countP fun t => (s.threads t).pc.succeeded

/-- The lines that are not of the threads. -/
def State.mainLog (s : State) : List Message := s.log.filter (· ≠ .running)

/-- What was printed so far. -/
structure Printed (N : ℕ) (s : State) : Prop where
  inv : Inv N s
  settled : ∀ t ∈ s.settled, (s.threads t).pc.hasExited
  counted : Counted N s
  log : (∀ ret, s.pc = .returned ret → ret = 0) → s.mainLog = output N s.i s.pc
  failed : ∀ ret, s.pc = .returned ret → ret ≠ 0 →
    ∃ i < N, s.mainLog = [.kmallocFailed i] ∨ s.mainLog = [.kthreadFailed i]

theorem printed_load (N : ℕ) (links : Links Node) : Printed N (load links) where
  inv := inv_load N links
  settled _ ht := nomatch ht
  counted := trivial
  log _ := rfl
  failed _ h := nomatch h

theorem mainLog_append {l : List Message} (h : s'.log = s.log ++ l) :
    s'.mainLog = s.mainLog ++ l.filter (· ≠ .running) := by
  rw [State.mainLog, h, List.filter_append, State.mainLog]

/-! ## The steps of the threads -/

theorem Thread.wakeUp_succeeded (th : Thread) : th.wakeUp.pc.succeeded = th.pc.succeeded := by
  unfold Thread.wakeUp
  split_ifs with h
  · rw [h]
    rfl
  · rfl

/-- The counter depends on the threads that have exited, and these do not change. -/
theorem Counted.congr (h : Counted N s) (hpc : s'.pc = s.pc) (hi : s'.i = s.i)
    (hstops : s'.stops = s.stops)
    (hthreads : ∀ t, (s.threads t).pc.hasExited → s'.threads t = s.threads t)
    (hsettled : ∀ t ∈ s.settled, (s.threads t).pc.hasExited) : Counted N s' := by
  have hsame : s'.settled = s.settled := by rw [State.settled, State.settled, hpc, hstops]
  have hcount : (s'.settled.countP fun t => (s'.threads t).pc.succeeded) =
      s.settled.countP fun t => (s.threads t).pc.succeeded := by
    rw [hsame]
    refine List.countP_congr fun t ht => ?_
    rw [hthreads t (hsettled t ht)]
  unfold Counted at h ⊢
  rw [hpc, hi, hcount]
  split at h
  all_goals first | exact h | skip
  next j ret hj => exact ⟨(hthreads j (by rw [h.1]; rfl)) ▸ h.1, h.2⟩

theorem Printed.thread_step (h : Printed N s) (hs : threadStep t s = some s') : Printed N s' := by
  have hinv := h.inv.thread_step hs
  obtain ⟨th, hth, rfl⟩ := Option.map_eq_some_iff.1 hs
  obtain ⟨-, -, hexited, -⟩ := (h.inv.thread t).step hth
  have hthreads : ∀ t', (s.threads t').pc.hasExited →
      (s.setThread t th).threads t' = s.threads t' := by
    intro t' ht'
    have hne : t' ≠ t := by
      rintro rfl
      rw [hexited] at ht'
      cases ht'
    exact Function.update_of_ne hne _ _
  have hlog : { s.setThread t th with log := s.log ++ (s.threads t).prints }.mainLog =
      s.mainLog := by
    rw [mainLog_append (s := s) (l := (s.threads t).prints) rfl]
    cases hpc : (s.threads t).pc <;> simp [Thread.prints, hpc]
  refine ⟨hinv, fun t' ht' => ?_, h.counted.congr rfl rfl rfl hthreads h.settled, ?_, ?_⟩
  · have hex := h.settled t' ht'
    rw [show State.threads _ t' = _ from hthreads t' hex]
    exact hex
  · rw [hlog]
    exact h.log
  · rw [hlog]
    exact h.failed

/-! ## The steps of `km_init` and `km_exit` -/

/-- Outside the wait of `kthread_stop`, all threads that were told to stop have exited. -/
theorem Inv.settled_exited (h : Inv N s) (hpc : ∀ i t, s.pc ≠ .waitExit i t) :
    ∀ t ∈ s.settled, (s.threads t).pc.hasExited := by
  intro t ht
  refine h.exited hpc t ?_
  unfold State.settled at ht
  split at ht
  · exact List.dropLast_subset _ ht
  · exact List.dropLast_subset _ ht
  · exact ht

/-- A statement that prints the lines between two points. -/
theorem Printed.of_step (h : Printed N s) (hs : mainStep N ok s = some s')
    (hwait : ∀ i t, s'.pc ≠ .waitExit i t) (hzero : ∀ ret, s'.pc = .returned ret → ret = 0)
    (hc : Counted N s') (log : List Message) (hlog : s'.log = s.log ++ log)
    (hmain : ∀ x ∈ log, x ≠ .running)
    (hout : output N s'.i s'.pc = output N s.i s.pc ++ log) : Printed N s' := by
  have hinv := h.inv.main_step hs
  have hret : ∀ ret, s.pc = .returned ret → ret = 0 := by
    intro ret hpc
    simp [mainStep, hpc] at hs
  refine ⟨hinv, hinv.settled_exited hwait, hc, fun _ => ?_, fun ret hpc hne => ?_⟩
  · rw [mainLog_append hlog, h.log hret, hout, List.filter_eq_self.2 (by simpa using hmain)]
  · exact absurd (hzero ret hpc) hne

/-- A statement that prints nothing. -/
theorem Printed.of_silent (h : Printed N s) (hs : mainStep N ok s = some s')
    (hwait : ∀ i t, s'.pc ≠ .waitExit i t) (hzero : ∀ ret, s'.pc = .returned ret → ret = 0)
    (hc : Counted N s') (hlog : s'.log = s.log)
    (hout : output N s'.i s'.pc = output N s.i s.pc) : Printed N s' :=
  h.of_step hs hwait hzero hc [] (by rw [hlog, List.append_nil]) (by simp)
    (by rw [hout, List.append_nil])

/-- A failed allocation, or creation of a thread, in the first loop of `km_init`. -/
theorem Printed.fail (h : Printed N s) (hs : mainStep N ok s = some s') {m : Message}
    (hs' : s' = (s.printk m).goto (.returned (-1))) (hout : output N s.i s.pc = [])
    (hi : i < N) (hm : m = .kmallocFailed i ∨ m = .kthreadFailed i) : Printed N s' := by
  have hinv := h.inv.main_step hs
  have hret : ∀ ret, s.pc = .returned ret → ret = 0 := by
    intro ret hpc
    simp [mainStep, hpc] at hs
  subst hs'
  have hlog : ((s.printk m).goto (.returned (-1))).mainLog = [m] := by
    have hne : m ≠ .running := by rintro rfl; simp at hm
    rw [mainLog_append (s := s) (l := [m]) rfl, h.log hret, hout]
    simp [hne]
  refine ⟨hinv, hinv.settled_exited (by simp [State.goto]), trivial, fun hz => ?_, fun _ _ _ => ?_⟩
  · exact absurd (hz (-1) rfl) (by decide)
  · refine ⟨i, hi, ?_⟩
    rw [hlog]
    obtain rfl | rfl := hm
    · exact .inl rfl
    · exact .inr rfl

/-- The counter of `start_mythread` when it comes to an entry of the list, or back to the head. -/
theorem Stand.counted_visit (h : Stand N s.control .wake l₁ l₂) (hi : s.i = l₁.length) :
    Counted N (s.goto (.visit .wake ((l₂.map Node.work).headD .head))) := by
  cases l₂ with
  | nil =>
    have hlen := congrArg List.length h.split
    simp only [indices, List.length_reverse, List.length_range, List.append_nil] at hlen
    exact hi.trans hlen.symm
  | cons j l₂ =>
    have hlen := (indices_split h.split).2
    show s.i + j + 1 = N
    omega

/-- `kthread_stop` does not change which of the threads before it have exited with 0. -/
theorem Printed.kthreadStop (h : Printed N s) (hpc : s.pc = .kthreadStop i)
    (hinv : Inv N ((s.kthreadStop t).goto (.waitExit i t))) :
    Printed N ((s.kthreadStop t).goto (.waitExit i t)) := by
  have hc := h.counted
  simp only [Counted, State.settled, hpc] at hc
  have hsettled : ((s.kthreadStop t).goto (.waitExit i t)).settled = s.stops := by
    simp [State.settled, State.goto, State.kthreadStop]
  have hexited : ∀ t' ∈ s.stops, (s.threads t').pc.hasExited := h.inv.exited (by simp [hpc])
  have hkeep : ∀ t', (((s.kthreadStop t).goto (.waitExit i t)).threads t').pc.succeeded =
        (s.threads t').pc.succeeded ∧
      (((s.kthreadStop t).goto (.waitExit i t)).threads t').pc.hasExited =
        (s.threads t').pc.hasExited := by
    refine forall_setThread (P := fun t' th => th.pc.succeeded = (s.threads t').pc.succeeded ∧
      th.pc.hasExited = (s.threads t').pc.hasExited) (fun _ _ => ⟨rfl, rfl⟩) ?_
    exact ⟨Thread.wakeUp_succeeded _, Thread.wakeUp_hasExited _⟩
  refine ⟨hinv, fun t' ht' => ?_, ?_, fun _ => ?_, fun _ hret => by cases hret⟩
  · rw [hsettled] at ht'
    rw [(hkeep t').2]
    exact hexited t' ht'
  · show s.i = _
    rw [hsettled, hc]
    exact List.countP_congr fun t' _ => by rw [(hkeep t').1]
  · have hlog := h.log (by simp [hpc])
    rw [hpc] at hlog
    exact hlog

/-- `km_exit` looks at what `kthread_stop` has returned. -/
theorem Stand.settled_concat {ret : ℤ} (h : Stand N s.control .stop (l₁ ++ [i]) l₂)
    (hpc : s.pc = .stopped i ret) : s.stops = s.settled ++ [i] := by
  have hstops : s.stops = l₁ ++ [i] := h.stops
  simp [State.settled, hpc, hstops]

theorem Printed.main_step (h : Printed N s) (hs : mainStep N ok s = some s') : Printed N s' := by
  have hat := h.inv.control
  have hc := h.counted
  cases mainStep_moves hs with
  | kmalloc hpc | filled hpc | kthreadCreate hpc | initListHead hpc | listAdd hpc =>
    exact h.of_silent hs (by simp [State.goto]) (by simp [State.goto]) trivial rfl
        (by rw [hpc]; rfl)
  | kmallocFailed hpc hi => exact h.fail hs rfl (by rw [hpc]; rfl) hi (.inl rfl)
  | kthreadFailed hpc =>
    rw [hpc] at hat
    exact h.fail hs rfl (by rw [hpc]; rfl) hat.1 (.inr rfl)
  | allCreated hpc =>
    exact h.of_step hs (by simp [State.goto]) (by simp [State.goto]) trivial [.allTaskCreated]
      rfl (by simp) (by rw [hpc]; rfl)
  | added hpc =>
    exact h.of_silent hs (by simp [State.goto]) (by simp [State.goto]) rfl rfl
        (by rw [hpc]; rfl)
  | @first l pos hpc hnext =>
    rw [hpc] at hat
    have hstand : Stand N s.control l [] (indices N) := hat
    obtain rfl : pos = (nodes N).headD .head :=
      Link.node.inj (hnext.symm.trans hstand.ring.next_head)
    cases l with
    | wake =>
      simp only [Counted, hpc] at hc
      exact h.of_silent hs (by simp [State.goto]) (by simp [State.goto])
        (hstand.counted_visit hc) rfl (by rw [hpc]; rfl)
    | stop =>
      simp only [Counted, State.settled, hpc] at hc
      exact h.of_silent hs (by simp [State.goto]) (by simp [State.goto]) hc rfl
        (by rw [hpc]; rfl)
  | @leave l hpc =>
    cases l with
    | wake =>
      simp only [Counted, hpc] at hc
      exact h.of_silent hs (by simp [State.goto, leave]) (by simp [State.goto, leave]) hc rfl
        (by rw [hpc]; rfl)
    | stop =>
      simp only [Counted, State.settled, hpc] at hc
      exact h.of_silent hs (by simp [State.goto, leave]) (by simp [State.goto, leave]) hc rfl
        (by rw [hpc]; rfl)
  | @enter l i hpc =>
    cases l with
    | wake =>
      simp only [Counted, hpc] at hc
      exact h.of_silent hs (by simp [State.goto, enter]) (by simp [State.goto, enter]) hc rfl
        (by rw [hpc]; rfl)
    | stop =>
      simp only [Counted, State.settled, hpc] at hc
      exact h.of_silent hs (by simp [State.goto, enter]) (by simp [State.goto, enter]) hc rfl
        (by rw [hpc]; rfl)
  | @data i hpc =>
    simp only [Counted, hpc] at hc
    have hc' : s.i + 1 + i = N := by omega
    exact h.of_step hs (by simp [State.goto]) (by simp [State.goto]) hc' [.data s.i] rfl (by simp)
      (by simp [hpc, State.goto, output, List.range_succ])
  | wakeUp hpc =>
    simp only [Counted, hpc] at hc
    exact h.of_silent hs (by simp [State.goto]) (by simp [State.goto]) hc rfl
        (by rw [hpc]; rfl)
  | msleep hpc | kfree hpc | freed hpc =>
    simp only [Counted, State.settled, hpc] at hc
    exact h.of_silent hs (by simp [State.goto]) (by simp [State.goto]) hc rfl
        (by rw [hpc]; rfl)
  | kthreadStop hpc => exact h.kthreadStop hpc (h.inv.main_step hs)
  | @waitExit i t ret hpc hret =>
    rw [hpc] at hat
    obtain ⟨rfl, -⟩ := hat
    simp only [Counted, State.settled, hpc] at hc
    exact h.of_silent hs (by simp [State.goto]) (by simp [State.goto]) ⟨hret, hc⟩ rfl
        (by rw [hpc]; rfl)
  | @stopped i hpc =>
    rw [hpc] at hat
    obtain ⟨l₁, l₂, hstand⟩ := hat
    simp only [Counted, hpc] at hc
    have hc' : s.i + 1 = s.stops.countP fun t => (s.threads t).pc.succeeded := by
      rw [hstand.settled_concat hpc, List.countP_append, ← hc.2]
      simp [ThreadPc.succeeded, hc.1]
    exact h.of_step hs (by simp [State.goto]) (by simp [State.goto]) hc' [.threadStopped s.i] rfl
      (by simp) (by simp [hpc, State.goto, output, List.range_succ])
  | @notRun i ret hpc hret =>
    rw [hpc] at hat
    obtain ⟨l₁, l₂, hstand⟩ := hat
    simp only [Counted, hpc] at hc
    have hc' : s.i = s.stops.countP fun t => (s.threads t).pc.succeeded := by
      rw [hstand.settled_concat hpc, List.countP_append, ← hc.2]
      simp [ThreadPc.succeeded, hc.1, hret]
    exact h.of_silent hs (by simp [State.goto]) (by simp [State.goto]) hc' rfl (by rw [hpc]; rfl)
  | @advance l i next hpc hnext =>
    rw [hpc] at hat
    obtain ⟨l₁, l₂, hstand⟩ := hat
    obtain rfl : next = _ := Link.node.inj (hnext.symm.trans hstand.next)
    cases l with
    | wake =>
      simp only [Counted, hpc] at hc
      have hsplit : indices N = l₁ ++ i :: l₂ := by
        rw [hstand.split, List.append_assoc]
        rfl
      have hlen := (indices_split hsplit).2
      exact h.of_silent hs (by simp [State.goto]) (by simp [State.goto])
        (hstand.counted_visit (by simp; omega)) rfl (by rw [hpc]; rfl)
    | stop =>
      simp only [Counted, State.settled, hpc] at hc
      exact h.of_silent hs (by simp [State.goto]) (by simp [State.goto]) hc rfl
        (by rw [hpc]; rfl)
  | bar hpc =>
    simp only [Counted, hpc] at hc
    exact h.of_step hs (by simp [State.goto]) (by simp [State.goto]) trivial [.bar] rfl (by simp)
      (by simp [hpc, State.goto, output, started, hc])
  | goodbye hpc =>
    simp only [Counted, State.settled, hpc] at hc
    exact h.of_step hs (by simp [State.goto]) (by simp [State.goto]) hc [.goodbye] rfl (by simp)
      (by rw [hpc]; rfl)

theorem Printed.preserved (h : Printed N s) (hs : step N s e = some s') : Printed N s' := by
  cases e with
  | main ok => exact h.main_step hs
  | thread t => exact h.thread_step hs
  | rmmod =>
    have hinv := h.inv.preserved hs
    simp only [step, Option.ite_none_right_eq_some, Option.some.injEq] at hs
    obtain ⟨hpc, rfl⟩ := hs
    have hat := h.inv.control
    rw [hpc] at hat
    have hnil : s.stops = [] := hat.1
    have hlog := h.log (by simp [hpc])
    rw [hpc] at hlog
    refine ⟨hinv, hinv.settled_exited (by simp [State.goto]), ?_, fun _ => ?_,
      fun _ hret => by cases hret⟩
    · simp [Counted, State.settled, State.goto, hnil]
    · simpa [State.mainLog, State.goto, output] using hlog

/-! ## Whole runs -/

/-- The number of threads that have returned 0. -/
def State.succeeded (N : ℕ) (s : State) : ℕ :=
  (List.range N).countP fun t => (s.threads t).pc.succeeded

/-- What the log holds, besides the lines of the threads, when `km_init` and `km_exit` have
returned. -/
structure Logged (N : ℕ) (s : State) : Prop where
  failed : s.pc = .returned (-1) →
    ∃ i < N, s.mainLog = [.kmallocFailed i] ∨ s.mainLog = [.kthreadFailed i]
  loaded : s.pc = .returned 0 →
    s.mainLog = .allTaskCreated :: ((List.range N).map .data ++ [.bar])
  unloaded : s.pc = .unloaded →
    s.mainLog = .allTaskCreated :: ((List.range N).map .data ++ [.bar] ++
      (List.range (s.succeeded N)).map .threadStopped ++ [.goodbye])

theorem Printed.logged (h : Printed N s) : Logged N s where
  failed hpc := h.failed _ hpc (by decide)
  loaded hpc := by
    have hlog := h.log (by simp [hpc])
    rw [hpc] at hlog
    exact hlog
  unloaded hpc := by
    have hlog := h.log (by simp [hpc])
    have hat := h.inv.control
    have hc := h.counted
    simp only [Counted, State.settled, hpc] at hc
    rw [hpc] at hlog hat
    have hstops : s.stops = (List.range N).reverse := hat.1
    rw [hstops, List.countP_reverse] at hc
    rw [hlog, hc]
    simp [output, started, State.succeeded]

/-- **What `km_init` and `km_exit` print.** For every value of `ELEMENTS`, every result of `kmalloc`
and `kthread_create` and every interleaving with the threads: `km_init` prints one line for the
failure, or the numbers of all work structures; and `km_exit` adds one line for each thread that
has returned 0, numbered in the order of these lines, whatever the threads print in between. -/
theorem km_exit_counts (N : ℕ) (links : Links Node) (es : List Event) :
    Always (step N) (Logged N) (load links) es :=
  Always.of_invariant (I := Printed N) (G := fun _ _ => True) (fun _ _ _ h _ hs => h.preserved hs)
    (fun _ h => h.logged) (along_true _ _) (printed_load N links)

end Lkb.Thread01
