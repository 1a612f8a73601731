import Lkb.Foundations.Callback
import Mathlib.Combinatorics.Enumerative.DyckWord
import Mathlib.Tactic.Common

/-!
# The modules `kprobe` and `kprobe1`

Both modules put a probe on `submit_bio`. On every hit the kernel calls `pre_handler`, runs the
probed instruction, and calls `post_handler`; hits on several processors overlap in any way. The
module `kprobe` has the address in its text; `kprobe1` looks it up, and fails to load when there is
none. Neither looks at what `register_kprobe` answers, so a module that is loaded may have no probe,
and `unregister_kprobe` then does nothing.

`log_iff_hits` says what the two can print, at any time of any run: the hit lines between those of
`start` and of `stops` are the initial segments of the Dyck words, and whole Dyck words once `stops`
has printed its line. `unregister_is_final` is about the end: `unregister_kprobe` returns under
every schedule, and nothing of the module runs after `stops` or a failed `start`.
-/

namespace Lkb.Kprobe

open Run Callback

/-- The points of `start` and `stops`. The assignments to `kp` are one with the call that uses them,
and `unregister_kprobe` is its two parts. -/
inductive Pc
  | entering
  | kallsymsLookupName
  | failed
  | registerKprobe
  | loaded
  | disarmKprobe
  | synchronizeRcu
  | exiting
  | returned (ret : ℤ)
  deriving DecidableEq

/-- The points of a hit of the probe. -/
inductive HitPc
  | preHandler
  | singleStep
  | postHandler
  | resume
  deriving DecidableEq

/-- The lines that the modules print. -/
inductive Message
  | entering
  | failed
  | pre
  | post
  | exiting
  deriving DecidableEq

/-- The two modules; `dynamic` says whether the address of `submit_bio` is looked up. -/
def probeModule (dynamic : Bool) : Code Pc HitPc Message where
  main
    | .entering => .print .entering (if dynamic then .kallsymsLookupName else .registerKprobe)
    | .kallsymsLookupName => .lookUp .registerKprobe .failed
    | .failed => .print .failed (.returned (-1))
    -- the result is ignored
    | .registerKprobe => .register .loaded .loaded
    | .loaded => .loaded .disarmKprobe
    | .disarmKprobe => .disarm .synchronizeRcu
    | .synchronizeRcu => .drain .exiting
    | .exiting => .print .exiting (.returned 0)
    | .returned ret => .returned ret
  entry := .preHandler
  line
    | .preHandler => some .pre
    | .postHandler => some .post
    | .singleStep | .resume => none
  next
    | .preHandler => some .singleStep
    | .singleStep => some .postHandler
    | .postHandler => some .resume
    | .resume => none
  serial := false

/-- `kprobe/code.c`. -/
def kprobe : Code Pc HitPc Message := probeModule false

/-- `kprobe1/code.c`. -/
def kprobe1 : Code Pc HitPc Message := probeModule true

/-- The state of the modules. -/
abbrev State := Callback.State Pc HitPc Message

/-- The module is about to be loaded. -/
def load : State := init .entering

variable {dynamic : Bool} {s s' : State} {e : Event} {es : List Event}

/-! ## Unloading -/

/-- The stages of the points. -/
def stage : Pc → Stage
  | .loaded | .disarmKprobe => .live
  | .synchronizeRcu => .draining
  | _ => .quiet

theorem staged : Staged (probeModule dynamic) stage := by
  intro pc
  cases pc with
  | entering => cases dynamic <;> simp [StagedAt, probeModule, stage]
  | synchronizeRcu => simp [StagedAt, probeModule, stage, Stage.drained, Stage.level]
  | _ => simp [StagedAt, probeModule, stage, Stage.level]

/-- How far the unloading is from its end. -/
def rank : Pc → ℕ
  | .synchronizeRcu => 3
  | .exiting => 2
  | .returned 0 => 1
  | _ => 0

/-- How many steps a hit has left. -/
def depth : HitPc → ℕ
  | .preHandler => 4
  | .singleStep => 3
  | .postHandler => 2
  | .resume => 1

theorem unloads : Unloads (probeModule dynamic) stage rank depth where
  disarmed pc hpos := by
    cases pc <;> simp [rank, stage] at hpos ⊢
  rank_lt pc hpos := by
    cases pc <;> simp [rank, probeModule, Stmt.next] at hpos ⊢
  depth_lt b := by
    cases b <;> simp [probeModule, depth]

theorem depth_le (b : HitPc) : depth b ≤ 4 := by
  cases b <;> simp [depth]

/-- The unloading returns 0. -/
theorem eq_returned_zero {pc : Pc} {ret : ℤ} (h : (probeModule dynamic).main pc = .returned ret)
    (hpos : 0 < rank pc) : pc = .returned 0 := by
  cases pc with
  | returned r =>
    by_cases h0 : r = 0
    · rw [h0]
    · simp [rank, h0] at hpos
  | entering => cases dynamic <;> simp [probeModule] at h
  | _ => simp [probeModule] at h

/-- **`unregister_kprobe` is final.** When it has disarmed the probe, every run is bounded by the
hits that are still running, and ends with the return of `stops`; and when `stops` has returned, or
`start` has failed, no handler is running and nothing of the module ever runs again. -/
theorem unregister_is_final (dynamic : Bool) (es : List Event) (s : State)
    (hrun : Runs (step (probeModule dynamic)) load es s) :
    (s.pc = .synchronizeRcu → ∀ es' s', Runs (step (probeModule dynamic)) s es' s' →
      es'.length ≤ 2 + 4 * s.running.length ∧
      ((∀ e, step (probeModule dynamic) s' e = none) → s'.pc = .returned 0)) ∧
    ∀ ret, s.pc = .returned ret →
      s.running = [] ∧ ∀ e, step (probeModule dynamic) s e = none := by
  have hstage := staged.holds hrun
  constructor
  · intro hpc es' s' hrun'
    obtain ⟨hpos, hlen, hend⟩ := unloads.ends staged hstage (by simp [hpc, rank]) hrun'
    constructor
    · have hsum := sum_depth_le depth_le s.running
      simp only [State.left, hpc, rank] at hlen
      omega
    · intro hnone
      obtain ⟨ret, hret⟩ := hend hnone
      exact eq_returned_zero hret hpos
  · intro ret hpc
    have hret : (probeModule dynamic).main s.pc = .returned ret := by rw [hpc]; rfl
    exact staged.step_eq_none hrun hret

/-- A run of `kprobe` in which `unregister_kprobe` waits for a hit. -/
def waitingRun : List Event := [.main true, .main true, .begin, .run 0, .main true, .main true]

/-- The state that it leads to. -/
def waiting : State := ⟨.synchronizeRcu, false, [.singleStep], [.entering, .pre]⟩

theorem unregister_is_final_waiting :
    Runs (step kprobe) load waitingRun waiting ∧
    ∀ es' s', Runs (step kprobe) waiting es' s' →
      es'.length ≤ 6 ∧ ((∀ e, step kprobe s' e = none) → s'.pc = .returned 0) :=
  ⟨rfl, (unregister_is_final false waitingRun waiting rfl).1 rfl⟩

/-! ## The lines -/

open DyckStep

/-- The line of a handler: a hit opens with the one of `pre_handler` and closes with the other. -/
def hitLine : DyckStep → Message
  | U => .pre
  | D => .post

/-- Hits that were opened, and some of them closed. -/
def Ballot (w : List DyckStep) : Prop := ∀ i, (w.take i).count D ≤ (w.take i).count U

/-- What a module prints that has found its address. -/
inductive Output : List Message → Prop
  | nothing : Output []
  | loaded (w : List DyckStep) (h : Ballot w) : Output (.entering :: w.map hitLine)
  | unloaded (w : DyckWord) : Output (.entering :: w.toList.map hitLine ++ [.exiting])

theorem ballot_nil : Ballot [] := by
  simp [Ballot]

theorem ballot_concat {w : List DyckStep} {x : DyckStep} :
    Ballot (w ++ [x]) ↔ Ballot w ∧ (w ++ [x]).count D ≤ (w ++ [x]).count U := by
  constructor
  · intro h
    refine ⟨fun i => ?_, by simpa only [List.take_length] using h (w ++ [x]).length⟩
    rcases Nat.le_total i w.length with hi | hi
    · simpa [List.take_append_of_le_length hi] using h i
    · simpa [List.take_of_length_le hi] using h w.length
  · rintro ⟨h, hlast⟩ i
    rcases Nat.lt_or_ge w.length i with hi | hi
    · rwa [List.take_of_length_le (by simpa using Nat.succ_le_of_lt hi)]
    · rw [List.take_append_of_le_length hi]
      exact h i

/-- The weight of a line: the hits it opens, less those it closes. -/
def Message.weight : Message → ℤ
  | .pre => 1
  | .post => -1
  | _ => 0

/-- The weight of a hit: whether it is open. -/
def HitPc.weight : HitPc → ℤ
  | .singleStep | .postHandler => 1
  | .preHandler | .resume => 0

theorem weighted : Weighted (probeModule dynamic) Message.weight HitPc.weight where
  main pc m next h := by
    cases pc <;> simp [probeModule] at h <;> rw [← h.1] <;> rfl
  entry := rfl
  next b := by cases b <;> rfl

theorem sum_weight_hitLine (w : List DyckStep) :
    ((w.map hitLine).map Message.weight).sum = (w.count U : ℤ) - w.count D := by
  induction w with
  | nil => rfl
  | cons x w ih =>
    rw [List.map_cons, List.map_cons, List.sum_cons, ih]
    cases x with
    | U =>
      simp [hitLine, Message.weight]
      omega
    | D =>
      simp [hitLine, Message.weight]
      omega

theorem sum_weight_nonneg (l : List HitPc) : 0 ≤ (l.map HitPc.weight).sum := by
  induction l with
  | nil => rfl
  | cons b l ih =>
    have hb : 0 ≤ b.weight := by cases b <;> simp [HitPc.weight]
    rw [List.map_cons, List.sum_cons]
    omega

/-- The log at a point of the module. -/
def Logged (dynamic : Bool) (l : List Message) : Pc → Prop
  | .entering => l = []
  | .registerKprobe => l = [.entering]
  | .kallsymsLookupName | .failed => dynamic ∧ l = [.entering]
  | .loaded | .disarmKprobe | .synchronizeRcu | .exiting =>
    ∃ w, Ballot w ∧ l = .entering :: w.map hitLine
  | .returned _ =>
    (∃ w : DyckWord, l = .entering :: w.toList.map hitLine ++ [.exiting]) ∨
      dynamic ∧ l = [.entering, .failed]

theorem logged_of_live {l : List Message} {pc : Pc} (h : stage pc ≠ .quiet) :
    Logged dynamic l pc ↔ ∃ w, Ballot w ∧ l = .entering :: w.map hitLine := by
  cases pc with
  | loaded | disarmKprobe | synchronizeRcu => rfl
  | _ => exact absurd rfl h

/-- The log of a run, with the stage of the point and the balance of the hits. -/
structure Inv (dynamic : Bool) (s : State) : Prop where
  holds : (stage s.pc).Holds s
  balance : (s.log.map Message.weight).sum = (s.running.map HitPc.weight).sum
  logged : Logged dynamic s.log s.pc

/-- One more line of a hit. -/
theorem Logged.concat {w : List DyckStep} {x : DyckStep} (hw : Ballot w)
    (hlog : s.log = .entering :: w.map hitLine ++ [hitLine x])
    (hbal : (s.log.map Message.weight).sum = (s.running.map HitPc.weight).sum) :
    ∃ w, Ballot w ∧ s.log = .entering :: w.map hitLine := by
  have heq : s.log = .entering :: (w ++ [x]).map hitLine := by simp [hlog]
  refine ⟨w ++ [x], ballot_concat.2 ⟨hw, ?_⟩, heq⟩
  have hsum : ((w ++ [x]).count U : ℤ) - (w ++ [x]).count D = (s.running.map HitPc.weight).sum := by
    rw [← hbal, heq, List.map_cons, List.sum_cons, sum_weight_hitLine]
    simp [Message.weight]
  have := sum_weight_nonneg s.running
  omega

theorem Inv.preserved (h : Inv dynamic s) (hs : step (probeModule dynamic) s e = some s') :
    Inv dynamic s' := by
  have hbal := weighted.preserved h.balance hs
  refine ⟨staged.preserved h.holds hs, hbal, ?_⟩
  obtain ⟨hholds, hbalance, hlogged⟩ := h
  cases step_moves hs with
  | print hstmt =>
    cases hpc : s.pc with
    | entering =>
      rw [hpc] at hlogged hstmt
      cases hstmt
      have hnil : s.log = [] := hlogged
      cases dynamic <;> simp [State.print, Logged, hnil]
    | failed =>
      rw [hpc] at hlogged hstmt
      cases hstmt
      exact .inr ⟨hlogged.1, by simp [State.print, hlogged.2]⟩
    | exiting =>
      rw [hpc] at hlogged hstmt hholds
      cases hstmt
      obtain ⟨w, hw, hlog⟩ := hlogged
      -- nothing is running any more, so every hit is closed
      have hclosed : w.count U = w.count D := by
        rw [hholds.rests rfl, hlog, List.map_cons, List.sum_cons, sum_weight_hitLine] at hbalance
        simp only [Message.weight, List.map_nil, List.sum_nil] at hbalance
        omega
      exact .inl ⟨⟨w, hclosed, hw⟩, by simp [State.print, hlog]⟩
    | _ =>
      rw [hpc] at hstmt
      cases hstmt
  | @goto next hstmt =>
    change Logged dynamic s.log next
    rcases hstmt with hstmt | ⟨_, hstmt | hstmt⟩ | ⟨_, hstmt⟩ <;> cases hpc : s.pc <;>
      rw [hpc] at hlogged hstmt <;> cases hstmt
    · exact hlogged
    · exact hlogged.2
    · exact hlogged
    · exact ⟨[], ballot_nil, hlogged⟩
  | register hstmt =>
    cases hpc : s.pc <;> rw [hpc] at hlogged hstmt <;> cases hstmt
    exact ⟨[], ballot_nil, hlogged⟩
  | disarm hstmt =>
    cases hpc : s.pc <;> rw [hpc] at hlogged hstmt <;> cases hstmt
    exact hlogged
  | drain hstmt _ =>
    cases hpc : s.pc <;> rw [hpc] at hlogged hstmt <;> cases hstmt
    exact hlogged
  | invoke _ _ => exact hlogged
  | @advance k b hb =>
    have hlive : stage s.pc ≠ .quiet := fun hq => by simp [hholds.rests hq] at hb
    refine (logged_of_live hlive).2 ?_
    obtain ⟨w, hw, hlog⟩ := (logged_of_live hlive).1 hlogged
    cases b with
    | preHandler => exact Logged.concat (x := U) hw (by rw [← hlog]; rfl) hbal
    | postHandler => exact Logged.concat (x := D) hw (by rw [← hlog]; rfl) hbal
    | singleStep | resume => exact ⟨w, hw, by simp [State.advance, probeModule, hlog]⟩

theorem Inv.output (h : Inv dynamic s) : Output s.log ∨ dynamic ∧ s.log = [.entering, .failed] := by
  have hlogged := h.logged
  cases hpc : s.pc with
  | entering =>
    rw [hpc] at hlogged
    exact .inl (hlogged ▸ .nothing)
  | registerKprobe =>
    rw [hpc] at hlogged
    exact .inl (hlogged ▸ .loaded [] ballot_nil)
  | kallsymsLookupName | failed =>
    rw [hpc] at hlogged
    exact .inl (hlogged.2 ▸ .loaded [] ballot_nil)
  | loaded | disarmKprobe | synchronizeRcu | exiting =>
    rw [hpc] at hlogged
    obtain ⟨w, hw, hlog⟩ := hlogged
    exact .inl (hlog ▸ .loaded w hw)
  | returned ret =>
    rw [hpc] at hlogged
    exact hlogged.imp_left fun ⟨w, hlog⟩ => hlog ▸ .unloaded w

/-! ## Every output -/

/-- The module is loaded, has printed the lines of `w`, and `k` hits are open. -/
def midway (k : ℕ) (w : List DyckStep) : State :=
  ⟨.loaded, true, List.replicate k .postHandler, .entering :: w.map hitLine⟩

/-- The steps of `start`, when every call succeeds. -/
def startRun (dynamic : Bool) : List Event :=
  if dynamic then List.replicate 3 (.main true) else List.replicate 2 (.main true)

theorem start_runs : Runs (step (probeModule dynamic)) load (startRun dynamic) (midway 0 []) := by
  cases dynamic <;> rfl

/-- A hit is opened. -/
theorem midway_open (k : ℕ) (w : List DyckStep) :
    Runs (step (probeModule dynamic)) (midway k w) [.begin, .run 0, .run 0]
      (midway (k + 1) (w ++ [U])) := by
  simp [Runs, step, midway, probeModule, State.invoke, State.advance, hitLine, List.replicate_succ]

/-- A hit is closed. -/
theorem midway_close (k : ℕ) (w : List DyckStep) :
    Runs (step (probeModule dynamic)) (midway (k + 1) w) [.run 0, .run 0]
      (midway k (w ++ [D])) := by
  simp [Runs, step, midway, probeModule, State.advance, hitLine, List.replicate_succ]

theorem Ballot.exists_runs {w : List DyckStep} (h : Ballot w) (dynamic : Bool) :
    ∃ es, Runs (step (probeModule dynamic)) load es (midway (w.count U - w.count D) w) := by
  induction w using List.reverseRecOn with
  | nil => exact ⟨_, start_runs⟩
  | append_singleton w x ih =>
    obtain ⟨hw, hle⟩ := ballot_concat.1 h
    obtain ⟨es, hrun⟩ := ih hw
    have hlew : w.count D ≤ w.count U := by simpa using hw w.length
    cases x with
    | U =>
      have hk : (w ++ [U]).count U - (w ++ [U]).count D = w.count U - w.count D + 1 := by
        simp
        omega
      rw [hk]
      exact ⟨_, runs_append.2 ⟨_, hrun, midway_open _ w⟩⟩
    | D =>
      obtain ⟨k, hk⟩ : ∃ k, w.count U - w.count D = k + 1 := by
        simp at hle
        exact ⟨w.count U - w.count D - 1, by omega⟩
      have hk' : (w ++ [D]).count U - (w ++ [D]).count D = k := by
        simp
        omega
      rw [hk] at hrun
      rw [hk']
      exact ⟨_, runs_append.2 ⟨_, hrun, midway_close k w⟩⟩

/-- The steps of `stops`. -/
theorem midway_unload (w : List DyckStep) :
    Runs (step (probeModule dynamic)) (midway 0 w) (List.replicate 4 (.main true))
      ⟨.returned 0, false, [], .entering :: w.map hitLine ++ [.exiting]⟩ := by
  simp [Runs, step, midway, probeModule, State.goto, State.setArmed, State.print,
    List.replicate_succ]

theorem log_iff_output_of (dynamic : Bool) (l : List Message) :
    (∃ es s, Runs (step (probeModule dynamic)) load es s ∧ s.log = l) ↔
      Output l ∨ dynamic ∧ l = [.entering, .failed] := by
  constructor
  · rintro ⟨es, s, hrun, rfl⟩
    have hinit : Inv dynamic load := ⟨⟨fun _ => rfl, fun _ => rfl⟩, rfl, rfl⟩
    exact (hrun.invariant' (fun _ _ _ h hs => h.preserved hs) hinit).output
  · rintro (h | ⟨rfl, rfl⟩)
    · cases h with
      | nothing => exact ⟨[], load, runs_nil.2 rfl, rfl⟩
      | loaded w hw =>
        obtain ⟨es, hrun⟩ := hw.exists_runs dynamic
        exact ⟨es, _, hrun, rfl⟩
      | unloaded w =>
        obtain ⟨es, hrun⟩ := Ballot.exists_runs w.count_D_le_count_U dynamic
        rw [w.count_U_eq_count_D, Nat.sub_self] at hrun
        exact ⟨_, _, runs_append.2 ⟨_, hrun, midway_unload _⟩, rfl⟩
    · exact ⟨[.main true, .main false, .main true], _, rfl, rfl⟩

/-- **What the two modules can print**, at any time of any run, with any number of hits on any
number of processors and any answers of the calls: the lines of the hits are opened and closed like
brackets, all of them closed when `stops` prints its line, and only the module that looks the
address up can fail to load. -/
theorem log_iff_hits (l : List Message) :
    ((∃ es s, Runs (step kprobe) load es s ∧ s.log = l) ↔ Output l) ∧
    ((∃ es s, Runs (step kprobe1) load es s ∧ s.log = l) ↔
      Output l ∨ l = [.entering, .failed]) := by
  constructor
  · simpa [kprobe] using log_iff_output_of false l
  · simpa [kprobe1] using log_iff_output_of true l

end Lkb.Kprobe
