import Lkb.WaitQueue.Wait
import Mathlib.Data.List.Infix
import Mathlib.Tactic.IntervalCases

/-!
# What `wait_queue` prints

`start`, `stops` and `mfoo` print their own lines in their own order. How the two sequences are
merged is up to the scheduler, with one exception: `mfoo` says that it is running again only after
the first attempt, which has not met the condition. `Output` says just this of a list of lines, and
`log_iff_output` is the main result: these lists, and the one line of a failed `kthread_create`, are
exactly what the module can have printed, at any time of any run.

For the converse direction, every such list is printed by a run that goes from one of the states
`pause n m` to the next, where `start` and `stops` have printed `n` lines and `mfoo` has printed
`m`.
-/

namespace Lkb.WaitQueue

open Run WaitEvent

variable {s s' : State} {e : Event} {ok : Bool} {l : List Message} {x : Message} {n m : ℕ}

/-- The line is one of `mfoo`. -/
def Message.ofMfoo : Message → Bool
  | .goingToSleep | .runningAgain => true
  | _ => false

/-- The lines of `start` and `stops`, in their order. -/
def mainLines : List Message := [.hello, .attempt1, .attempt2, .wakeUpDone, .done, .cleaningUp]

/-- The lines of `mfoo`, in their order. -/
def mfooLines : List Message := [.goingToSleep, .runningAgain]

/-- The lines of `start` and `stops` in a list of lines. -/
def mainPart (l : List Message) : List Message := l.filter fun x => !x.ofMfoo

/-- The lines of `mfoo` in a list of lines. -/
def mfooPart (l : List Message) : List Message := l.filter Message.ofMfoo

/-- The two sequences of lines, as far as they were printed, are merged in any way, but `mfoo` is
running again only after the first attempt. -/
structure Output (l : List Message) : Prop where
  main : mainPart l <+: mainLines
  mfoo : mfooPart l <+: mfooLines
  order : ∀ p, p ++ [.runningAgain] <+: l → .attempt1 ∈ p

/-! ## The lists of lines -/

theorem output_nil : Output [] := by
  refine ⟨List.nil_prefix, List.nil_prefix, fun p hp => ?_⟩
  simp at hp

theorem mainPart_concat (l : List Message) (x : Message) :
    mainPart (l ++ [x]) = if x.ofMfoo then mainPart l else mainPart l ++ [x] := by
  cases h : x.ofMfoo <;> simp [mainPart, h]

theorem mfooPart_concat (l : List Message) (x : Message) :
    mfooPart (l ++ [x]) = if x.ofMfoo then mfooPart l ++ [x] else mfooPart l := by
  cases h : x.ofMfoo <;> simp [mfooPart, h]

/-- One more line. -/
theorem output_concat : Output (l ++ [x]) ↔ Output l ∧ (x = .runningAgain → .attempt1 ∈ l) ∧
    if x.ofMfoo then mfooPart l ++ [x] <+: mfooLines else mainPart l ++ [x] <+: mainLines := by
  constructor
  · rintro ⟨hmain, hmfoo, horder⟩
    rw [mainPart_concat] at hmain
    rw [mfooPart_concat] at hmfoo
    have horder' : ∀ p, p ++ [.runningAgain] <+: l → .attempt1 ∈ p :=
      fun p hp => horder p (hp.trans (List.prefix_append l [x]))
    refine ⟨⟨?_, ?_, horder'⟩, ?_, ?_⟩
    · split_ifs at hmain with h
      · exact hmain
      · exact (List.prefix_append _ [x]).trans hmain
    · split_ifs at hmfoo with h
      · exact (List.prefix_append _ [x]).trans hmfoo
      · exact hmfoo
    · rintro rfl
      exact horder l (List.prefix_refl _)
    · split_ifs with h
      · rwa [if_pos h] at hmfoo
      · rwa [if_neg h] at hmain
  · rintro ⟨⟨hmain, hmfoo, horder⟩, hlast, hx⟩
    refine ⟨?_, ?_, fun p hp => ?_⟩
    · rw [mainPart_concat]
      split_ifs with h
      · exact hmain
      · rwa [if_neg h] at hx
    · rw [mfooPart_concat]
      split_ifs with h
      · rwa [if_pos h] at hx
      · exact hmfoo
    · obtain heq | hp := List.prefix_concat_iff.1 hp
      · obtain ⟨rfl, hsingle⟩ := List.append_inj' heq rfl
        exact hlast (List.singleton_inj.1 hsingle).symm
      · exact horder p hp

/-- The next line of a sequence. -/
theorem take_concat_prefix {ls : List Message} (hx : ls[n]? = some x) :
    ls.take n ++ [x] = ls.take (n + 1) := by
  rw [List.take_add_one, hx]
  rfl

/-! ## Every run -/

/-- How many lines `start` has printed. -/
def StartPc.lines : StartPc → ℕ
  | .initWaitqueueHead | .kthreadCreate | .hello => 0
  | .wakeUpProcess | .sleepRunning | .clearCondition | .attempt1 => 1
  | .wakeUp1 | .sleepAttempt1 | .setCondition | .attempt2 => 2
  | .wakeUp2 | .wakeUpDone => 3
  | .sleepExit | .done => 4
  | .returned _ => 5

/-- How many lines `mfoo` has printed. -/
def MfooPc.lines : MfooPc → ℕ
  | .notCreated | .created | .goingToSleep => 0
  | .waitEvent | .runningAgain => 1
  | .returned => 2

/-- The log, as long as `kthread_create` has not failed. -/
structure Logged (s : State) : Prop where
  output : Output s.log
  main : mainPart s.log = mainLines.take (s.start.lines + if s.stopped then 1 else 0)
  mfoo : mfooPart s.log = mfooLines.take s.mfoo.lines
  stopped : s.stopped → s.start = .returned 0

theorem logged_load : Logged load := ⟨output_nil, rfl, rfl, nofun⟩

/-- A step that prints nothing. -/
theorem Logged.silent (h : Logged s) (hlog : s'.log = s.log)
    (hstart : s'.start.lines = s.start.lines) (hmfoo : s'.mfoo.lines = s.mfoo.lines)
    (hstopped : s'.stopped = s.stopped) (hret : s.stopped → s'.start = .returned 0) :
    Logged s' := by
  refine ⟨by rw [hlog]; exact h.output, ?_, ?_, ?_⟩
  · rw [hlog, hstart, hstopped]
    exact h.main
  · rw [hlog, hmfoo]
    exact h.mfoo
  · rw [hstopped]
    exact hret

/-- A step that prints a line of `start` or `stops`. -/
theorem Logged.print_main (h : Logged s) (hlog : s'.log = s.log ++ [x]) (hx : x.ofMfoo = false)
    (hline : mainLines[s.start.lines + if s.stopped then 1 else 0]? = some x)
    (hlines : (s'.start.lines + if s'.stopped then 1 else 0) =
      (s.start.lines + if s.stopped then 1 else 0) + 1)
    (hmfoo : s'.mfoo = s.mfoo) (hstopped : s'.stopped → s'.start = .returned 0) : Logged s' := by
  have hmain : mainPart s.log ++ [x] =
      mainLines.take ((s.start.lines + if s.stopped then 1 else 0) + 1) := by
    rw [h.main, take_concat_prefix hline]
  refine ⟨?_, ?_, ?_, hstopped⟩
  · rw [hlog, output_concat, if_neg (by simp [hx]), hmain]
    refine ⟨h.output, fun hr => ?_, List.take_prefix _ _⟩
    rw [hr] at hx
    cases hx
  · rw [hlog, mainPart_concat, if_neg (by simp [hx]), hmain, hlines]
  · rw [hlog, mfooPart_concat, if_neg (by simp [hx]), hmfoo]
    exact h.mfoo

/-- A step that prints a line of `mfoo`. -/
theorem Logged.print_mfoo (h : Logged s) (hlog : s'.log = s.log ++ [x]) (hx : x.ofMfoo)
    (hline : mfooLines[s.mfoo.lines]? = some x) (hlines : s'.mfoo.lines = s.mfoo.lines + 1)
    (hstart : s'.start = s.start) (hstopped : s'.stopped = s.stopped)
    (horder : x = .runningAgain → 2 ≤ s.start.lines) : Logged s' := by
  have hmfoo : mfooPart s.log ++ [x] = mfooLines.take (s.mfoo.lines + 1) := by
    rw [h.mfoo, take_concat_prefix hline]
  refine ⟨?_, ?_, ?_, by rw [hstopped, hstart]; exact h.stopped⟩
  · rw [hlog, output_concat, if_pos hx, hmfoo]
    refine ⟨h.output, fun hr => ?_, List.take_prefix _ _⟩
    have hmem : .attempt1 ∈ mainPart s.log := by
      rw [h.main]
      have hprefix : mainLines.take 2 <+: mainLines.take
          (s.start.lines + if s.stopped then 1 else 0) :=
        List.take_prefix_take_left (Nat.le_trans (horder hr) (Nat.le_add_right _ _))
      exact hprefix.subset (by decide)
    exact List.mem_of_mem_filter hmem
  · rw [hlog, mainPart_concat, if_pos hx, hstart, hstopped]
    exact h.main
  · rw [hlog, mfooPart_concat, if_pos hx, hmfoo, hlines]

theorem StartPc.two_le_lines {pc : StartPc} (h : pc.assigned) : 2 ≤ pc.lines := by
  cases pc with
  | attempt2 | wakeUp2 | wakeUpDone | sleepExit | done | returned => simp [StartPc.lines]
  | _ => cases h

/-- `kthread_create` has failed. -/
def Failed (s : State) : Prop :=
  s.start = .returned (-1) ∧ s.mfoo = .notCreated ∧ s.log = [.kthreadFailed]

/-- Nothing was printed before the thread is created. -/
theorem Logged.log_eq_nil (h : Logged s) (ht : Thread s) (hpc : s.start = .kthreadCreate) :
    s.mfoo = .notCreated ∧ s.log = [] := by
  have hmfoo : s.mfoo = .notCreated := ht.created.2 (by rw [hpc]; rfl)
  have hstopped : ¬s.stopped := fun hst => by
    have := h.stopped hst
    rw [hpc] at this
    cases this
  have hmain := h.main
  have hpart := h.mfoo
  rw [hpc, if_neg hstopped] at hmain
  rw [hmfoo] at hpart
  refine ⟨hmfoo, List.eq_nil_iff_forall_not_mem.2 fun x hx => ?_⟩
  cases hof : x.ofMfoo with
  | true =>
    have hmem : x ∈ mfooPart s.log := List.mem_filter.2 ⟨hx, hof⟩
    rw [hpart] at hmem
    cases hmem
  | false =>
    have hmem : x ∈ mainPart s.log := List.mem_filter.2 ⟨hx, by simp [hof]⟩
    rw [hmain] at hmem
    cases hmem

theorem State.wakeUpProcess_log : s.wakeUpProcess.log = s.log ∧
    s.wakeUpProcess.mfoo.lines = s.mfoo.lines := by
  unfold State.wakeUpProcess
  split_ifs with h
  · exact ⟨rfl, by rw [h]; rfl⟩
  · exact ⟨rfl, rfl⟩

theorem Logged.start_step (h : Logged s) (ht : Thread s) (hs : startStep ok s = some s') :
    Logged s' ∨ Failed s' := by
  have hrunning : ∀ ret, s.start ≠ .returned ret := by
    intro ret hpc
    simp [startStep, hpc] at hs
  have hstopped : s.stopped = false := by
    by_contra hst
    exact hrunning 0 (h.stopped (by simpa using hst))
  unfold startStep at hs
  cases hpc : s.start with
  | returned ret => exact absurd hpc (hrunning ret)
  | kthreadCreate =>
    obtain ⟨hmfoo, hlog⟩ := h.log_eq_nil ht hpc
    simp only [hpc] at hs
    split_ifs at hs
    · cases hs
      refine .inl (h.silent rfl (by rw [hpc]; rfl) (by rw [hmfoo]; rfl) rfl ?_)
      simp [hstopped]
    · cases hs
      exact .inr ⟨rfl, hmfoo, by simp [State.printk, hlog]⟩
  | wakeUpProcess =>
    rw [hpc] at hs
    cases hs
    obtain ⟨hlog, hlines⟩ := s.wakeUpProcess_log
    have hst : s.wakeUpProcess.stopped = s.stopped := s.wakeUpProcess_frame.2.2.2.1
    exact .inl (h.silent hlog (by rw [hpc]; rfl) hlines hst (by simp [hstopped]))
  | initWaitqueueHead | sleepRunning | clearCondition | wakeUp1 | sleepAttempt1 | setCondition
  | wakeUp2 | sleepExit =>
    rw [hpc] at hs
    cases hs
    exact .inl (h.silent rfl (by rw [hpc]; rfl) rfl rfl (by simp [hstopped]))
  | hello | attempt1 | attempt2 | wakeUpDone | done =>
    rw [hpc] at hs
    cases hs
    refine .inl (h.print_main rfl rfl ?_ ?_ rfl ?_)
    · rw [hpc, hstopped]
      rfl
    · rw [hpc]
      simp [State.printk, hstopped, StartPc.lines]
    · intro hst
      have hst : s.stopped := hst
      simp [hstopped] at hst

theorem Logged.mfoo_step (h : Logged s) (hI : Inv s) (hs : mfooStep s = some s') : Logged s' := by
  unfold mfooStep at hs
  cases hpc : s.mfoo with
  | notCreated | created | returned =>
    rw [hpc] at hs
    cases hs
  | goingToSleep =>
    rw [hpc] at hs
    cases hs
    refine h.print_mfoo rfl rfl ?_ ?_ rfl rfl nofun
    · rw [hpc]
      rfl
    · rw [hpc]
      rfl
  | waitEvent =>
    simp only [hpc] at hs
    obtain ⟨w, -, rfl⟩ := Option.map_eq_some_iff.1 hs
    refine h.silent rfl rfl ?_ rfl h.stopped
    rw [hpc]
    dsimp only
    split_ifs <;> rfl
  | runningAgain =>
    have hassigned := hI.pastWait (by rw [hpc]; rfl)
    rw [hpc] at hs
    cases hs
    refine h.print_mfoo rfl rfl ?_ ?_ rfl rfl fun _ => StartPc.two_le_lines hassigned
    · rw [hpc]
      rfl
    · rw [hpc]
      rfl

theorem Logged.preserved (h : Logged s) (hI : Inv s) (ht : Thread s) (hs : step s e = some s') :
    Logged s' ∨ Failed s' := by
  cases e with
  | start ok => exact h.start_step ht hs
  | mfoo => exact .inl (h.mfoo_step hI hs)
  | spurious =>
    cases hs
    obtain ⟨hlog, hlines⟩ := s.wakeUpProcess_log
    obtain ⟨hstart, -, -, hst, -⟩ := s.wakeUpProcess_frame
    refine .inl (h.silent hlog ?_ hlines hst fun hstopped => hstart.trans (h.stopped hstopped))
    exact congrArg StartPc.lines hstart
  | stops =>
    simp only [step, Option.ite_none_right_eq_some, Option.some.injEq] at hs
    obtain ⟨⟨hret, hst⟩, rfl⟩ := hs
    refine .inl (h.print_main rfl rfl ?_ ?_ rfl fun _ => hret)
    · rw [hret, hst]
      rfl
    · simp [State.printk, hret, hst, StartPc.lines]

theorem Failed.preserved (h : Failed s) (hs : step s e = some s') : Failed s' := by
  obtain ⟨hstart, hmfoo, hlog⟩ := h
  cases e with
  | start ok => simp [step, startStep, hstart] at hs
  | mfoo => simp [step, mfooStep, hmfoo] at hs
  | spurious =>
    cases hs
    have hwake : s.wakeUpProcess = s := if_neg (by simp [hmfoo])
    rw [hwake]
    exact ⟨hstart, hmfoo, hlog⟩
  | stops => simp [step, hstart] at hs

/-! ## Every output -/

/-- The state in which `start` and `stops` have printed `n` lines and `mfoo` has printed `m`, and
each is about to print its next one. -/
def pause (n m : ℕ) (l : List Message) : State where
  start :=
    match n with
    | 0 => .hello
    | 1 => .attempt1
    | 2 => .attempt2
    | 3 => .wakeUpDone
    | 4 => .done
    | _ => .returned 0
  mfoo :=
    match m with
    | 0 => if n = 0 then .created else .goingToSleep
    | 1 => .waitEvent
    | _ => .returned
  waiter := if m < 2 then .begin else { Waiter.begin with pc := .done 0 }
  condition := if n < 2 then 0 else 1
  stopped := n = 6
  log := l

/-- What `start` and `stops` do from one line to the next. -/
def mainRun : ℕ → List Event
  | 0 | 1 => List.replicate 4 (.start true)
  | 2 | 3 => List.replicate 2 (.start true)
  | 4 => [.start true]
  | _ => [.stops]

/-- What `mfoo` does from one line to the next. It is woken up if it was not yet. -/
def mfooRun (n : ℕ) : ℕ → List Event
  | 0 => if n = 0 then [.spurious, .mfoo] else [.mfoo]
  | _ => [.mfoo, .mfoo]

theorem pause_main (hx : mainLines[n]? = some x) (hm : m ≤ 2) (l : List Message) :
    Runs step (pause n m l) (mainRun n) (pause (n + 1) m (l ++ [x])) := by
  have hn : n < 6 := (List.getElem?_eq_some_iff.1 hx).1
  interval_cases n <;> interval_cases m <;> cases hx <;> rfl

theorem pause_mfoo (hx : mfooLines[m]? = some x) (hn : n ≤ 6) (horder : m = 1 → 2 ≤ n)
    (l : List Message) :
    Runs step (pause n m l) (mfooRun n m) (pause n (m + 1) (l ++ [x])) := by
  have hm : m < 2 := (List.getElem?_eq_some_iff.1 hx).1
  interval_cases m
  · interval_cases n <;> cases hx <;> rfl
  · have := horder rfl
    interval_cases n <;> cases hx <;> rfl

/-- The next line after a prefix of a sequence. -/
theorem getElem?_of_concat_prefix {p ls : List Message} (h : p ++ [x] <+: ls) :
    ls[p.length]? = some x := by
  obtain ⟨rest, rfl⟩ := h
  simp

/-- A list of lines with the first attempt in it has two lines of `start`. -/
theorem Output.two_le_length (h : Output l) (hmem : .attempt1 ∈ l) : 2 ≤ (mainPart l).length := by
  have hmem : .attempt1 ∈ mainPart l := List.mem_filter.2 ⟨hmem, rfl⟩
  rw [List.prefix_iff_eq_take.1 h.main] at hmem
  by_contra hlt
  have hlt : (mainPart l).length < 2 := Nat.lt_of_not_le hlt
  interval_cases (mainPart l).length <;> exact absurd hmem (by decide)

theorem Output.exists_runs (h : Output l) :
    ∃ es, Runs step load es (pause (mainPart l).length (mfooPart l).length l) := by
  induction l using List.reverseRecOn with
  | nil => exact ⟨[.start true, .start true], rfl⟩
  | append_singleton l x ih =>
    obtain ⟨hl, horder, hx⟩ := output_concat.1 h
    obtain ⟨es, hrun⟩ := ih hl
    have hn : (mainPart l).length ≤ 6 := hl.main.length_le
    have hm : (mfooPart l).length ≤ 2 := hl.mfoo.length_le
    rw [mainPart_concat, mfooPart_concat]
    split_ifs at hx ⊢ with hof
    · have hline := getElem?_of_concat_prefix hx
      rw [List.length_append, List.length_singleton]
      refine ⟨_, runs_append.2 ⟨_, hrun, pause_mfoo hline hn (fun hone => ?_) l⟩⟩
      rw [hone] at hline
      exact hl.two_le_length (horder (Option.some.inj hline).symm)
    · have hline := getElem?_of_concat_prefix hx
      rw [List.length_append, List.length_singleton]
      exact ⟨_, runs_append.2 ⟨_, hrun, pause_main hline hm l⟩⟩

/-- **What `wait_queue` can print.** The lists of lines that the module can have printed at some
time of some run, with any interleaving of `start`, `mfoo`, `stops` and spurious wake-ups, are those
that `Output` describes, and the line of a failed `kthread_create`. -/
theorem log_iff_output (l : List Message) :
    (∃ es s, Runs step load es s ∧ s.log = l) ↔ Output l ∨ l = [.kthreadFailed] := by
  constructor
  · rintro ⟨es, s, hrun, rfl⟩
    have hI : Inv s ∧ Thread s ∧ (Logged s ∨ Failed s) := by
      refine hrun.invariant' (I := fun s => Inv s ∧ Thread s ∧ (Logged s ∨ Failed s))
        (fun s e s' h hs => ?_) ⟨inv_load, thread_load, .inl logged_load⟩
      obtain ⟨hI, ht, h⟩ := h
      refine ⟨hI.preserved hs, ht.preserved hs, ?_⟩
      obtain h | h := h
      · exact h.preserved hI ht hs
      · exact .inr (h.preserved hs)
    exact hI.2.2.imp (fun h => h.output) fun h => h.2.2
  · rintro (h | rfl)
    · obtain ⟨es, hrun⟩ := h.exists_runs
      exact ⟨es, _, hrun, rfl⟩
    · exact ⟨[.start true, .start false], _, rfl, rfl⟩

end Lkb.WaitQueue
