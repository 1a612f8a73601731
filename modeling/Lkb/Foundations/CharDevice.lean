import Lkb.Foundations.Run

/-!
# Character devices and the module that drives them

The kernel's side of a character device, for an arbitrary driver: clients open files of the device,
make requests on them, and close them; a file is released when it is closed and nothing maps it any
more. Opening takes a reference on the module that `file_operations.owner` names, if it names one,
and the release gives it back. The exit function of the module begins when nothing refers to the
module; the owner can then not be referred to any more, so that a device which names it can not be
opened. Otherwise the device can be opened until the exit function has taken it away, and the files
that are open then stay as they are.

The question is whether a method of the driver is called after its exit function has run. When no
file is in use at its end, it is not (`safe_of_idle`); a run that leaves no file in use and is safe
has met this condition (`idle_of_safe`). A driver that names its owner always meets it
(`safe_of_owner`). For one that does not, the removal is never refused, and it is safe for all that
may come exactly when no file is in use (`removal_of_not_owner`).
-/

namespace Lkb.CharDevice

open Run

/-- A driver with the state `σ` and the requests `ι`: whether `file_operations.owner` is set, its
methods, and the exit function of its module, up to `unregister_chrdev` and from there on. A request
says whether it leaves a mapping of the file behind. -/
structure Driver (σ ι : Type*) where
  owner : Bool
  «open» : σ → σ
  request : ℕ → ι → σ → σ × Bool
  release : σ → σ
  exit : σ → σ
  unregister : σ → σ

/-- The points of the exit function. -/
inductive ExitPc
  | notBegun
  | unregister
  | returned
  deriving DecidableEq

/-- The state of a device: the driver, the references on its module, the exit function, the files
that are open and those that are closed and not yet released, and for each mapping its file. -/
structure State (σ : Type*) where
  driver : σ
  refs : ℕ
  exit : ExitPc
  opened : List ℕ
  closed : List ℕ
  mappings : List ℕ
  deriving DecidableEq

/-- A step of a client, or of the removal of the module. -/
inductive Event (ι : Type*)
  | open (f : ℕ)
  | request (f : ℕ) (r : ι)
  | unmap (k : ℕ)
  | close (f : ℕ)
  | release (f : ℕ)
  | rmmod
  | unregister

variable {σ ι : Type*} {D : Driver σ ι} {s s' : State σ} {e : Event ι}

/-- The references that a file of the driver holds on the module. -/
def Driver.pins (D : Driver σ ι) : ℕ := if D.owner then 1 else 0

/-- What a step needs in order to be taken. -/
def enabled (D : Driver σ ι) (s : State σ) : Event ι → Prop
  | .open f =>
    s.exit ≠ .returned ∧ (D.owner → s.exit = .notBegun) ∧ f ∉ s.opened ∧ f ∉ s.closed
  | .request f _ => f ∈ s.opened
  | .unmap k => k < s.mappings.length
  | .close f => f ∈ s.opened
  | .release f => f ∈ s.closed ∧ f ∉ s.mappings
  | .rmmod => s.exit = .notBegun ∧ s.refs = 0
  | .unregister => s.exit = .unregister

instance (D : Driver σ ι) (s : State σ) : (e : Event ι) → Decidable (enabled D s e)
  | .open _ => inferInstanceAs (Decidable (_ ∧ (_ → _) ∧ _ ∧ _))
  | .request _ _ | .close _ => inferInstanceAs (Decidable (_ ∈ _))
  | .unmap _ => inferInstanceAs (Decidable (_ < _))
  | .release _ | .rmmod => inferInstanceAs (Decidable (_ ∧ _))
  | .unregister => inferInstanceAs (Decidable (_ = _))

/-- The state after a step. -/
def effect (D : Driver σ ι) (s : State σ) : Event ι → State σ
  | .open f =>
    { s with driver := D.open s.driver, refs := s.refs + D.pins, opened := f :: s.opened }
  | .request f r =>
    let (d, maps) := D.request f r s.driver
    { s with driver := d, mappings := if maps then f :: s.mappings else s.mappings }
  | .unmap k => { s with mappings := s.mappings.eraseIdx k }
  | .close f => { s with opened := s.opened.erase f, closed := f :: s.closed }
  | .release f =>
    { s with driver := D.release s.driver, refs := s.refs - D.pins, closed := s.closed.erase f }
  | .rmmod => { s with driver := D.exit s.driver, exit := .unregister }
  | .unregister => { s with driver := D.unregister s.driver, exit := .returned }

/-- One step of a client or of the kernel. -/
def step (D : Driver σ ι) (s : State σ) (e : Event ι) : Option (State σ) :=
  if enabled D s e then some (effect D s e) else none

/-- The device after a successful load of the module, with the driver in the state `d`. -/
def load (d : σ) : State σ := ⟨d, 0, .notBegun, [], [], []⟩

/-- The step calls a method of the driver on an open file. -/
def Event.dispatches : Event ι → Bool
  | .request _ _ | .release _ => true
  | _ => false

/-- No method of the driver is called after its exit function. -/
def NoDispatchAfterExit (s : State σ) (e : Event ι) : Prop := e.dispatches → s.exit ≠ .returned

/-- No file of the device is in use: none is open, and none that was closed is left to be
released. -/
def State.Idle (s : State σ) : Prop := s.opened = [] ∧ s.closed = []

/-- The exit function takes the device away only while no file is in use. -/
def ExitWhenIdle (s : State σ) : Event ι → Prop
  | .unregister => s.Idle
  | _ => True

instance (s : State σ) (e : Event ι) : Decidable (NoDispatchAfterExit s e) :=
  inferInstanceAs (Decidable (_ → _))

instance (s : State σ) : Decidable s.Idle := inferInstanceAs (Decidable (_ ∧ _))

instance (s : State σ) : (e : Event ι) → Decidable (ExitWhenIdle s e)
  | .unregister => inferInstanceAs (Decidable s.Idle)
  | .open _ | .request _ _ | .unmap _ | .close _ | .release _ | .rmmod => isTrue trivial

theorem step_eq_some : step D s e = some s' ↔ enabled D s e ∧ s' = effect D s e := by
  unfold step
  split_ifs with h
  · simp [h, eq_comm]
  · simp [h]

/-! ## Removal of an idle module -/

/-- Once the exit function has run, no file is in use. -/
theorem idle_preserved (h : s.exit = .returned → s.Idle) (hG : ExitWhenIdle s e)
    (hs : step D s e = some s') : s'.exit = .returned → s'.Idle := by
  obtain ⟨hen, rfl⟩ := step_eq_some.1 hs
  intro hexit
  cases e with
  | «open» f => exact absurd hexit hen.1
  | request f r => exact h hexit
  | unmap k => exact h hexit
  | close f =>
    have hopen : f ∈ s.opened := hen
    rw [(h hexit).1] at hopen
    cases hopen
  | release f =>
    have hclosed : f ∈ s.closed := hen.1
    rw [(h hexit).2] at hclosed
    cases hclosed
  | rmmod => cases hexit
  | unregister => exact hG

/-- A device without files in use dispatches nothing. -/
theorem noDispatch_of_idle (h : s.exit = .returned → s.Idle) (hs : step D s e = some s') :
    NoDispatchAfterExit s e := by
  intro hd hexit
  obtain ⟨hopened, hclosed⟩ := h hexit
  obtain ⟨hen, -⟩ := step_eq_some.1 hs
  cases e with
  | request f r =>
    have hmem : f ∈ s.opened := hen
    rw [hopened] at hmem
    cases hmem
  | release f =>
    have hmem : f ∈ s.closed := hen.1
    rw [hclosed] at hmem
    cases hmem
  | _ => cases hd

/-- **Safe removal.** When the exit function takes the device away only while no file is in use, no
method of the driver is called after it. -/
theorem safe_of_idle {d : σ} {es : List (Event ι)}
    (hG : Along (step D) ExitWhenIdle (load d) es) :
    Along (step D) NoDispatchAfterExit (load d) es := by
  refine Along.of_invariant (I := fun s => s.exit = .returned → s.Idle) (fun s e s' h hG hs => ?_)
    hG nofun
  exact ⟨idle_preserved h hG hs, noDispatch_of_idle h hs⟩

/-! ## The way back -/

/-- The module is gone, and some file is still in use. -/
def State.Dangling (s : State σ) : Prop := s.exit = .returned ∧ ¬s.Idle

/-- Only the release of the file, which calls the driver, takes it out of use. -/
theorem State.Dangling.preserved (h : s.Dangling) (hD : NoDispatchAfterExit s e)
    (hs : step D s e = some s') : s'.Dangling := by
  obtain ⟨hexit, hbusy⟩ := h
  obtain ⟨hen, rfl⟩ := step_eq_some.1 hs
  cases e with
  | «open» f => exact absurd hexit hen.1
  | request f r => exact absurd hexit (hD rfl)
  | unmap k => exact ⟨hexit, hbusy⟩
  | close f => exact ⟨hexit, fun hidle => by cases hidle.2⟩
  | release f => exact absurd hexit (hD rfl)
  | rmmod =>
    have hnot : s.exit = .notBegun := hen.1
    rw [hexit] at hnot
    cases hnot
  | unregister => exact ⟨rfl, hbusy⟩

/-- **Only safe removal.** A run that leaves no file in use, and in which no method of the driver is
called after the exit function, has taken the device away only while no file was in use. -/
theorem idle_of_safe {d : σ} {es : List (Event ι)} (hruns : Runs (step D) (load d) es s)
    (hidle : s.Idle) (hD : Along (step D) NoDispatchAfterExit (load d) es) :
    Along (step D) ExitWhenIdle (load d) es := by
  refine Along.of_trap (T := State.Dangling) (fun s e s' hs _ hG => ?_)
    (fun s e s' hT hD hs => hT.preserved hD hs) hruns hD fun h => h.2 hidle
  obtain ⟨-, rfl⟩ := step_eq_some.1 hs
  cases e with
  | unregister => exact ⟨rfl, hG⟩
  | _ => exact absurd trivial hG

/-! ## A driver that does not name its owner -/

/-- No file of it refers to the module. -/
theorem refs_of_not_owner (howner : D.owner = false) {d : σ} {es : List (Event ι)}
    (hrun : Runs (step D) (load d) es s) : s.refs = 0 := by
  have hpins : D.pins = 0 := by simp [Driver.pins, howner]
  refine hrun.invariant' (I := fun s => s.refs = 0) (fun s e s' h hs => ?_) rfl
  obtain ⟨-, rfl⟩ := step_eq_some.1 hs
  cases e with
  | «open» f => simp [effect, hpins, h]
  | release f => simp [effect, hpins, h]
  | request f r | unmap k | close f | rmmod | unregister => exact h

/-- A client can give up all mappings, whatever else has happened. -/
theorem runs_unmap (D : Driver σ ι) (s : State σ) :
    Runs (step D) s (List.replicate s.mappings.length (.unmap 0)) { s with mappings := [] } := by
  induction hm : s.mappings generalizing s with
  | nil =>
    refine runs_nil.2 ?_
    rw [← hm]
  | cons f l ih =>
    rw [List.length_cons, List.replicate_succ]
    refine runs_cons.2 ⟨{ s with mappings := l }, ?_, ih _ rfl⟩
    refine step_eq_some.2 ⟨?_, ?_⟩
    · simp [enabled, hm]
    · simp [effect, hm]

/-- The release of a file that was closed before the module has gone calls the driver. -/
theorem dispatch_of_closed {f : ℕ} (hexit : s.exit = .returned) (hf : f ∈ s.closed) :
    ∃ es, ¬Along (step D) NoDispatchAfterExit s es := by
  refine ⟨List.replicate s.mappings.length (.unmap 0) ++ [.release f], fun h => ?_⟩
  have hen : enabled D { s with mappings := [] } (.release f) := ⟨hf, List.not_mem_nil⟩
  exact h.at (runs_unmap D s) (step_eq_some.2 ⟨hen, rfl⟩) rfl hexit

/-- A file that is in use when the module has gone leads to a call of the driver. -/
theorem dispatch_of_dangling (h : s.Dangling) :
    ∃ es, ¬Along (step D) NoDispatchAfterExit s es := by
  obtain ⟨hexit, hbusy⟩ := h
  by_cases hclosed : s.closed = []
  · have hopened : s.opened ≠ [] := fun hopened => hbusy ⟨hopened, hclosed⟩
    obtain ⟨f, hf⟩ := List.exists_mem_of_ne_nil _ hopened
    have hclose : step D s (.close f) = some (effect D s (.close f)) := step_eq_some.2 ⟨hf, rfl⟩
    obtain ⟨es, hes⟩ := dispatch_of_closed (D := D) (s := effect D s (.close f)) (f := f) hexit
      List.mem_cons_self
    exact ⟨.close f :: es, fun h => hes ((along_cons hclose).1 h).2⟩
  · obtain ⟨f, hf⟩ := List.exists_mem_of_ne_nil _ hclosed
    exact dispatch_of_closed hexit hf

/-- Once the exit function has run and no file is in use, nothing is called for ever. -/
theorem noDispatch_of_gone (hexit : s.exit = .returned) (hidle : s.Idle) (es : List (Event ι)) :
    Along (step D) NoDispatchAfterExit s es := by
  refine Along.of_invariant (I := fun s => s.exit = .returned ∧ s.Idle) (G := fun _ _ => True)
    (fun s e s' h _ hs => ?_) (along_true _ _) ⟨hexit, hidle⟩
  have hexit' : s'.exit = .returned := by
    obtain ⟨hen, rfl⟩ := step_eq_some.1 hs
    cases e with
    | rmmod => exact absurd (h.1.symm.trans hen.1) (by decide)
    | unregister => rfl
    | «open» f | request f r | unmap k | close f | release f => exact h.1
  have hG : ExitWhenIdle s e := by
    cases e with
    | unregister => exact h.2
    | _ => trivial
  exact ⟨⟨hexit', idle_preserved (fun _ => h.2) hG hs hexit'⟩,
    noDispatch_of_idle (fun _ => h.2) hs⟩

/-- **Removal is never refused.** Whatever clients have done, a module that is not named as the
owner can be removed at once; and no method of the driver is called after that, whatever clients do
then, exactly when no file is in use. -/
theorem removal_of_not_owner (howner : D.owner = false) {d : σ} {es : List (Event ι)}
    (hrun : Runs (step D) (load d) es s) (hexit : s.exit = .notBegun) :
    ∃ s', Runs (step D) s [.rmmod, .unregister] s' ∧
      ((∀ es', Along (step D) NoDispatchAfterExit s' es') ↔ s.Idle) := by
  have hrmmod : step D s .rmmod = some (effect D s .rmmod) :=
    step_eq_some.2 ⟨⟨hexit, refs_of_not_owner howner hrun⟩, rfl⟩
  let gone := effect D (effect D s .rmmod) .unregister
  have hunregister : step D (effect D s .rmmod) .unregister = some gone :=
    step_eq_some.2 ⟨rfl, rfl⟩
  refine ⟨gone, runs_cons.2 ⟨_, hrmmod, runs_cons.2 ⟨_, hunregister, runs_nil.2 rfl⟩⟩,
    fun hall => ?_, fun hidle es' => noDispatch_of_gone (s := gone) rfl hidle es'⟩
  by_contra hbusy
  obtain ⟨es', hes'⟩ := dispatch_of_dangling (D := D) (s := gone) ⟨rfl, hbusy⟩
  exact hes' (hall es')

/-! ## A driver that names its owner -/

/-- Every file in use holds a reference, and none is in use once the exit function has begun. -/
structure Pinned (s : State σ) : Prop where
  refs : s.refs = s.opened.length + s.closed.length
  idle : s.exit ≠ .notBegun → s.Idle

theorem Pinned.preserved (howner : D.owner) (h : Pinned s) (hs : step D s e = some s') :
    Pinned s' := by
  have hpins : D.pins = 1 := by simp [Driver.pins, howner]
  have hrefs := h.refs
  obtain ⟨hen, rfl⟩ := step_eq_some.1 hs
  cases e with
  | «open» f =>
    refine ⟨?_, fun hexit => absurd (hen.2.1 howner) hexit⟩
    simp only [effect, hpins, List.length_cons]
    omega
  | request f r => exact ⟨hrefs, h.idle⟩
  | unmap k => exact ⟨hrefs, h.idle⟩
  | close f =>
    have hpos : 0 < s.opened.length := List.length_pos_of_mem hen
    refine ⟨?_, fun hexit => ?_⟩
    · simp only [effect, List.length_cons, List.length_erase_of_mem hen]
      omega
    · rw [(h.idle hexit).1] at hpos
      cases hpos
  | release f =>
    have hpos : 0 < s.closed.length := List.length_pos_of_mem hen.1
    refine ⟨?_, fun hexit => ?_⟩
    · simp only [effect, hpins, List.length_erase_of_mem hen.1]
      omega
    · rw [(h.idle hexit).2] at hpos
      cases hpos
  | rmmod =>
    have hzero : s.opened.length + s.closed.length = 0 := hrefs.symm.trans hen.2
    refine ⟨hrefs, fun _ => ⟨?_, ?_⟩⟩
    · exact List.eq_nil_of_length_eq_zero (l := s.opened) (by omega)
    · exact List.eq_nil_of_length_eq_zero (l := s.closed) (by omega)
  | unregister =>
    have hbegun : s.exit = .unregister := hen
    exact ⟨hrefs, fun _ => h.idle (by rw [hbegun]; decide)⟩

/-- **A driver that names its owner is pinned.** No method of it is ever called after its exit
function. -/
theorem safe_of_owner (howner : D.owner) (d : σ) (es : List (Event ι)) :
    Along (step D) NoDispatchAfterExit (load d) es := by
  refine Along.of_invariant (I := Pinned) (G := fun _ _ => True) (fun s e s' h _ hs => ?_)
    (along_true _ _) ⟨rfl, nofun⟩
  exact ⟨h.preserved howner hs, noDispatch_of_idle (fun hexit => h.idle (by simp [hexit])) hs⟩

end Lkb.CharDevice
