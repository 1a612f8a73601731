import Lkb.Foundations.Callback
import Mathlib.Tactic.Common

/-!
# The module `interrupt01`

`code_init` puts `my_interrupt` on a shared interrupt line, where it prints a line whenever the line
is raised, and `code_cleanup` takes it off again: `synchronize_irq` waits until no handler of the
line is running, and `free_irq` removes the handler and waits once more.

`free_irq_is_final` is about the end: the wait of `free_irq` is over under every schedule, and
nothing of the module runs after `code_cleanup` or a failed `code_init`. This is the work of
`free_irq` alone. `log_iff_interrupts` says what the module can print: any number of interrupts is
observed after the line of `code_cleanup` too, and the logs are the same ones without the call of
`synchronize_irq`.
-/

namespace Lkb.Interrupt01

open Run Callback

/-- The points of `code_init` and `code_cleanup`; `free_irq` is its two parts. -/
inductive Pc
  | hello
  | requestIrq
  | requestFailed
  | loaded
  | cleaningUp
  | synchronizeIrq
  | unlinkAction
  | waitForHandler
  | returned (ret : ℤ)
  deriving DecidableEq

/-- The points of `my_interrupt`. -/
inductive HandlerPc
  | printk
  | irqNone
  deriving DecidableEq

/-- The lines that the module prints. -/
inductive Message
  | hello
  | requestFailed (irq : ℕ)
  | insideInterrupt
  | cleaningUp
  deriving DecidableEq

/-- `SIRQ`, the interrupt line. -/
def sirq : ℕ := 19

/-- `EIO`. -/
def eio : ℤ := 5

/-- The module, with or without the call of `synchronize_irq`. The kernel runs the handlers of a
line on one processor at a time. -/
def irqModule (synchronize : Bool) : Code Pc HandlerPc Message where
  main
    | .hello => .print .hello .requestIrq
    | .requestIrq => .register .loaded .requestFailed
    | .requestFailed => .print (.requestFailed sirq) (.returned (-eio))
    | .loaded => .loaded .cleaningUp
    | .cleaningUp => .print .cleaningUp (if synchronize then .synchronizeIrq else .unlinkAction)
    | .synchronizeIrq => .drain .unlinkAction
    | .unlinkAction => .disarm .waitForHandler
    | .waitForHandler => .drain (.returned 0)
    | .returned ret => .returned ret
  entry := .printk
  line
    | .printk => some .insideInterrupt
    | .irqNone => none
  next
    | .printk => some .irqNone
    | .irqNone => none
  serial := true

/-- `interrupt01/code.c`. -/
def interrupt01 : Code Pc HandlerPc Message := irqModule true

/-- The state of the module. -/
abbrev State := Callback.State Pc HandlerPc Message

/-- The module is about to be loaded. -/
def load : State := init .hello

variable {sync : Bool} {s s' : State} {e : Event} {es : List Event}

/-! ## Unloading -/

/-- The stages of the points. -/
def stage : Pc → Stage
  | .loaded | .cleaningUp | .synchronizeIrq | .unlinkAction => .live
  | .waitForHandler => .draining
  | _ => .quiet

theorem staged : Staged (irqModule sync) stage := by
  intro pc
  cases pc with
  | cleaningUp => cases sync <;> simp [StagedAt, irqModule, stage]
  | synchronizeIrq | waitForHandler => simp [StagedAt, irqModule, stage, Stage.drained, Stage.level]
  | _ => simp [StagedAt, irqModule, stage, Stage.level]

/-- How far the unloading is from its end. -/
def rank : Pc → ℕ
  | .waitForHandler => 2
  | .returned 0 => 1
  | _ => 0

/-- How many steps an invocation of the handler has left. -/
def depth : HandlerPc → ℕ
  | .printk => 2
  | .irqNone => 1

theorem unloads : Unloads (irqModule sync) stage rank depth where
  disarmed pc hpos := by
    cases pc <;> simp [rank, stage] at hpos ⊢
  rank_lt pc hpos := by
    cases pc <;> simp [rank, irqModule, Stmt.next] at hpos ⊢
  depth_lt b := by
    cases b <;> simp [irqModule, depth]

theorem depth_le (b : HandlerPc) : depth b ≤ 2 := by
  cases b <;> simp [depth]

/-- The unloading returns 0. -/
theorem eq_returned_zero {pc : Pc} {ret : ℤ} (h : (irqModule sync).main pc = .returned ret)
    (hpos : 0 < rank pc) : pc = .returned 0 := by
  cases pc with
  | returned r =>
    by_cases h0 : r = 0
    · rw [h0]
    · simp [rank, h0] at hpos
  | cleaningUp => cases sync <;> simp [irqModule] at h
  | _ => simp [irqModule] at h

/-- At most one invocation runs at a time. -/
theorem length_running_le (hrun : Runs (step (irqModule sync)) load es s) :
    s.running.length ≤ 1 := by
  refine hrun.invariant' (I := fun s => s.running.length ≤ 1) (fun s e s' h hs => ?_)
    (Nat.zero_le 1)
  rcases (step_moves hs).thread_or_callback with ⟨-, hrun⟩ | ⟨-, hserial, rfl⟩ | ⟨k, b, hb, rfl⟩
  · rw [hrun]
    exact h
  · simp [State.invoke, hserial rfl]
  · simp only [State.advance]
    split
    · simpa using h
    · exact Nat.le_trans (List.length_eraseIdx_le _ _) h

/-- **`free_irq` is final.** When it has removed the handler, every run has at most three more
steps, and ends with the return of `code_cleanup`; and when `code_cleanup` has returned, or
`code_init` has failed, the handler is not running and nothing of the module ever runs again. -/
theorem free_irq_is_final (es : List Event) (s : State) (hrun : Runs (step interrupt01) load es s) :
    (s.pc = .waitForHandler → ∀ es' s', Runs (step interrupt01) s es' s' →
      es'.length ≤ 3 ∧ ((∀ e, step interrupt01 s' e = none) → s'.pc = .returned 0)) ∧
    ∀ ret, s.pc = .returned ret → s.running = [] ∧ ∀ e, step interrupt01 s e = none := by
  have hstage := staged.holds hrun
  constructor
  · intro hpc es' s' hrun'
    obtain ⟨hpos, hlen, hend⟩ := unloads.ends staged hstage (by simp [hpc, rank]) hrun'
    constructor
    · have hsum := sum_depth_le depth_le s.running
      have hle := length_running_le hrun
      simp only [State.left, hpc, rank] at hlen
      omega
    · intro hnone
      obtain ⟨ret, hret⟩ := hend hnone
      exact eq_returned_zero hret hpos
  · intro ret hpc
    have hret : interrupt01.main s.pc = .returned ret := by rw [hpc]; rfl
    exact staged.step_eq_none hrun hret

/-- A run in which `free_irq` waits for the handler. -/
def waitingRun : List Event :=
  [.main true, .main true, .main true, .main true, .main true, .begin, .main true]

/-- The state that it leads to. -/
def waiting : State := ⟨.waitForHandler, false, [.printk], [.hello, .cleaningUp]⟩

theorem free_irq_is_final_waiting :
    Runs (step interrupt01) load waitingRun waiting ∧
    ∀ es' s', Runs (step interrupt01) waiting es' s' →
      es'.length ≤ 3 ∧ ((∀ e, step interrupt01 s' e = none) → s'.pc = .returned 0) :=
  ⟨rfl, (free_irq_is_final waitingRun waiting rfl).1 rfl⟩

/-! ## The lines -/

/-- The lines of `n` interrupts. -/
def interrupts (n : ℕ) : List Message := List.replicate n .insideInterrupt

theorem interrupts_concat (n : ℕ) : interrupts n ++ [.insideInterrupt] = interrupts (n + 1) :=
  List.replicate_succ'.symm

/-- What the module prints. -/
inductive Output : List Message → Prop
  | nothing : Output []
  | failed : Output [.hello, .requestFailed 19]
  | loaded (n : ℕ) : Output (.hello :: interrupts n)
  | unloading (n m : ℕ) : Output (.hello :: interrupts n ++ .cleaningUp :: interrupts m)

/-- The log at a point of the module. -/
def Logged (l : List Message) : Pc → Prop
  | .hello => l = []
  | .requestIrq | .requestFailed => l = [.hello]
  | .loaded | .cleaningUp => ∃ n, l = .hello :: interrupts n
  | .synchronizeIrq | .unlinkAction | .waitForHandler =>
    ∃ n m, l = .hello :: interrupts n ++ .cleaningUp :: interrupts m
  | .returned _ => Output l

theorem Logged.output {l : List Message} {pc : Pc} (h : Logged l pc) : Output l := by
  cases pc with
  | hello =>
    obtain rfl : l = [] := h
    exact .nothing
  | requestIrq | requestFailed =>
    obtain rfl : l = [.hello] := h
    exact .loaded 0
  | loaded | cleaningUp =>
    obtain ⟨n, rfl⟩ := h
    exact .loaded n
  | synchronizeIrq | unlinkAction | waitForHandler =>
    obtain ⟨n, m, rfl⟩ := h
    exact .unloading n m
  | returned ret => exact h

/-- One more interrupt, at a point where the handler may be running. -/
theorem Logged.interrupt {l : List Message} {pc : Pc} (h : Logged l pc) (hpc : stage pc ≠ .quiet) :
    Logged (l ++ [.insideInterrupt]) pc := by
  cases pc with
  | loaded | cleaningUp =>
    obtain ⟨n, rfl⟩ := h
    exact ⟨n + 1, by rw [← interrupts_concat]; rfl⟩
  | synchronizeIrq | unlinkAction | waitForHandler =>
    obtain ⟨n, m, rfl⟩ := h
    exact ⟨n, m + 1, by rw [← interrupts_concat]; simp⟩
  | _ => exact absurd rfl hpc

theorem Logged.preserved (h : Logged s.log s.pc) (hst : (stage s.pc).Holds s)
    (hs : step (irqModule sync) s e = some s') : Logged s'.log s'.pc := by
  cases step_moves hs with
  | print hstmt =>
    cases hpc : s.pc <;> rw [hpc] at h hstmt <;> cases hstmt
    · have hnil : s.log = [] := h
      simp [State.print, Logged, hnil]
    · have hlog : s.log = [.hello] := h
      simp only [State.print, hlog]
      exact .failed
    · obtain ⟨n, hlog⟩ := h
      simp only [State.print, hlog]
      cases sync <;> exact ⟨n, 0, rfl⟩
  | @goto next hstmt =>
    change Logged s.log next
    rcases hstmt with hstmt | ⟨_, hstmt | hstmt⟩ | ⟨_, hstmt⟩ <;> cases hpc : s.pc <;>
      rw [hpc] at h hstmt <;> cases hstmt
    · exact h
    · exact h
  | register hstmt =>
    cases hpc : s.pc <;> rw [hpc] at h hstmt <;> cases hstmt
    exact ⟨0, h⟩
  | disarm hstmt =>
    cases hpc : s.pc <;> rw [hpc] at h hstmt <;> cases hstmt
    exact h
  | drain hstmt _ =>
    cases hpc : s.pc <;> rw [hpc] at h hstmt <;> cases hstmt
    · exact h
    · exact h.output
  | invoke _ _ => exact h
  | @advance k b hb =>
    have hlive : stage s.pc ≠ .quiet := fun hq => by simp [hst.rests hq] at hb
    cases b with
    | printk => exact h.interrupt hlive
    | irqNone => simpa [State.advance, irqModule] using h

/-! ## Every output -/

/-- An interrupt, at a time when the handler is registered and not running. -/
theorem runs_interrupt (pc : Pc) (l : List Message) :
    Runs (step (irqModule sync)) ⟨pc, true, [], l⟩ [.begin, .run 0, .run 0]
      ⟨pc, true, [], l ++ [.insideInterrupt]⟩ := by
  simp [Runs, step, irqModule, State.invoke, State.advance]

theorem exists_runs_interrupts (sync : Bool) (pc : Pc) (l : List Message) (n : ℕ) :
    ∃ es, Runs (step (irqModule sync)) ⟨pc, true, [], l⟩ es ⟨pc, true, [], l ++ interrupts n⟩ := by
  induction n with
  | zero => exact ⟨[], by simp [interrupts]⟩
  | succ n ih =>
    obtain ⟨es, hrun⟩ := ih
    rw [← interrupts_concat, ← List.append_assoc]
    exact ⟨_, runs_append.2 ⟨_, hrun, runs_interrupt pc _⟩⟩

theorem exists_runs_loaded (sync : Bool) (n : ℕ) :
    ∃ es, Runs (step (irqModule sync)) load es ⟨.loaded, true, [], .hello :: interrupts n⟩ := by
  obtain ⟨es, hrun⟩ := exists_runs_interrupts sync .loaded [.hello] n
  have hload : Runs (step (irqModule sync)) load [.main true, .main true]
      ⟨.loaded, true, [], [.hello]⟩ := rfl
  exact ⟨_, runs_append.2 ⟨_, hload, hrun⟩⟩

/-- What `code_cleanup` does until it is about to remove the handler. -/
def cleanupRun (sync : Bool) : List Event :=
  if sync then List.replicate 3 (.main true) else List.replicate 2 (.main true)

theorem runs_cleanup (sync : Bool) (l : List Message) :
    Runs (step (irqModule sync)) ⟨.loaded, true, [], l⟩ (cleanupRun sync)
      ⟨.unlinkAction, true, [], l ++ [.cleaningUp]⟩ := by
  cases sync <;> rfl

theorem log_iff_output_of (sync : Bool) (l : List Message) :
    (∃ es s, Runs (step (irqModule sync)) load es s ∧ s.log = l) ↔ Output l := by
  constructor
  · rintro ⟨es, s, hrun, rfl⟩
    have hI : (stage s.pc).Holds s ∧ Logged s.log s.pc := by
      refine hrun.invariant' (I := fun s => (stage s.pc).Holds s ∧ Logged s.log s.pc)
        (fun s e s' h hs => ?_) ⟨⟨fun _ => rfl, fun _ => rfl⟩, rfl⟩
      exact ⟨staged.preserved h.1 hs, h.2.preserved h.1 hs⟩
    exact hI.2.output
  · intro h
    cases h with
    | nothing => exact ⟨[], load, runs_nil.2 rfl, rfl⟩
    | failed => exact ⟨[.main true, .main false, .main true], _, rfl, rfl⟩
    | loaded n =>
      obtain ⟨es, hrun⟩ := exists_runs_loaded sync n
      exact ⟨es, _, hrun, rfl⟩
    | unloading n m =>
      obtain ⟨es, hrun⟩ := exists_runs_loaded sync n
      obtain ⟨es', hrun'⟩ := exists_runs_interrupts sync .unlinkAction
        (.hello :: interrupts n ++ [.cleaningUp]) m
      refine ⟨_, _, runs_append.2 ⟨_, hrun, runs_append.2 ⟨_, runs_cleanup sync _, hrun'⟩⟩, ?_⟩
      simp

/-- **What the module can print**, at any time of any run: the interrupts it observes come before
and after the line of `code_cleanup`, any number of them, and the call of `synchronize_irq` makes no
difference to what can be printed. -/
theorem log_iff_interrupts (l : List Message) :
    ((∃ es s, Runs (step interrupt01) load es s ∧ s.log = l) ↔ Output l) ∧
    ((∃ es s, Runs (step (irqModule false)) load es s ∧ s.log = l) ↔ Output l) :=
  ⟨log_iff_output_of true l, log_iff_output_of false l⟩

end Lkb.Interrupt01
