import Mathlib.Data.List.Basic

/-!
# Finite runs of a labelled step function

A system is a step function `step : σ → ε → Option σ`: every choice the environment has (which
party moves, what a call into other code returns) is in the label, and `none` says that the step
is not enabled. A run is a list of labels, so "for every interleaving" is a quantifier over lists.

* `Runs step s es s'`: the steps `es` lead from `s` to `s'`.
* `Along step P s es`: every step of the run is taken from a state in which `P` holds of it.
* `Always step P s es`: every state of the run satisfies `P`.

`Runs.invariant` and `Along.of_invariant` are the induction rules; `along_and_always_iff` and
`Along.of_trap` compare properties of a run with a condition on its steps; `Runs.exists_of_rank`
builds a run that reaches its goal, and `Runs.length_le_of_rank` bounds every run.
-/

namespace Lkb.Run

variable {σ ε : Type*} {step : σ → ε → Option σ} {s s' : σ} {e : ε} {es : List ε}

/-- The steps `es` are enabled in turn from `s` and lead to `s'`. -/
def Runs (step : σ → ε → Option σ) (s : σ) (es : List ε) (s' : σ) : Prop :=
  es.foldlM step s = some s'

/-- Every step of the run `es` from `s` is taken from a state in which `P` holds of it. The run
ends where a step is not enabled. -/
def Along (step : σ → ε → Option σ) (P : σ → ε → Prop) : σ → List ε → Prop
  | _, [] => True
  | s, e :: es =>
    match step s e with
    | none => True
    | some s' => P s e ∧ Along step P s' es

/-- Every state that the run `es` from `s` visits satisfies `P`, the first and the last included. -/
def Always (step : σ → ε → Option σ) (P : σ → Prop) : σ → List ε → Prop
  | s, [] => P s
  | s, e :: es =>
    P s ∧
      match step s e with
      | none => True
      | some s' => Always step P s' es

instance (s s' : σ) [DecidableEq σ] : Decidable (Runs step s es s') :=
  inferInstanceAs (Decidable (_ = _))

@[simp] theorem runs_nil : Runs step s [] s' ↔ s = s' := by
  simp [Runs]

theorem runs_cons : Runs step s (e :: es) s' ↔ ∃ t, step s e = some t ∧ Runs step t es s' := by
  simp [Runs, List.foldlM_cons, Option.bind_eq_some_iff]

theorem runs_append {es₁ es₂ : List ε} :
    Runs step s (es₁ ++ es₂) s' ↔ ∃ t, Runs step s es₁ t ∧ Runs step t es₂ s' := by
  simp [Runs, List.foldlM_append, Option.bind_eq_some_iff]

theorem along_cons {P : σ → ε → Prop} (h : step s e = some s') :
    Along step P s (e :: es) ↔ P s e ∧ Along step P s' es := by
  simp [Along, h]

theorem always_cons {P : σ → Prop} (h : step s e = some s') :
    Always step P s (e :: es) ↔ P s ∧ Always step P s' es := by
  simp [Always, h]

instance Along.instDecidable {P : σ → ε → Prop} [∀ s e, Decidable (P s e)] :
    (s : σ) → (es : List ε) → Decidable (Along step P s es)
  | _, [] => isTrue trivial
  | s, e :: es =>
    match h : step s e with
    | none => isTrue (by simp [Along, h])
    | some s' =>
      have : Decidable (Along step P s' es) := Along.instDecidable s' es
      decidable_of_iff (P s e ∧ Along step P s' es) (along_cons h).symm

instance Always.instDecidable {P : σ → Prop} [∀ s, Decidable (P s)] :
    (s : σ) → (es : List ε) → Decidable (Always step P s es)
  | s, [] => inferInstanceAs (Decidable (P s))
  | s, e :: es =>
    match h : step s e with
    | none => decidable_of_iff (P s) (by simp [Always, h])
    | some s' =>
      have : Decidable (Always step P s' es) := Always.instDecidable s' es
      decidable_of_iff (P s ∧ Always step P s' es) (always_cons h).symm

/-- **The invariant rule.** What every step preserves, along a run whose steps all meet `G`, holds
at the end of the run. -/
theorem Runs.invariant {I : σ → Prop} {G : σ → ε → Prop}
    (hstep : ∀ s e s', I s → G s e → step s e = some s' → I s')
    (h : Runs step s es s') (hG : Along step G s es) (hI : I s) : I s' := by
  induction es generalizing s with
  | nil => exact runs_nil.1 h ▸ hI
  | cons e es ih =>
    obtain ⟨t, ht, h⟩ := runs_cons.1 h
    obtain ⟨hGe, hG⟩ := (along_cons ht).1 hG
    exact ih h hG (hstep s e t hI hGe ht)

/-- Every run meets a condition that holds of no step in particular. -/
theorem along_true (s : σ) (es : List ε) : Along step (fun _ _ => True) s es := by
  induction es generalizing s with
  | nil => trivial
  | cons e es ih =>
    cases h : step s e with
    | none => simp [Along, h]
    | some t => exact (along_cons h).2 ⟨trivial, ih t⟩

/-- A condition on the labels alone is one on the list. -/
theorem along_of_forall {P : ε → Prop} (h : ∀ e ∈ es, P e) :
    Along step (fun _ e => P e) s es := by
  induction es generalizing s with
  | nil => trivial
  | cons e es ih =>
    cases hs : step s e with
    | none => simp [Along, hs]
    | some t =>
      refine (along_cons hs).2 ⟨h e List.mem_cons_self, ih fun e' he' => ?_⟩
      exact h e' (List.mem_cons_of_mem e he')

/-- The condition holds of every step that the run takes. -/
theorem Along.at {P : σ → ε → Prop} {es₁ es₂ : List ε} {t t' : σ}
    (h : Along step P s (es₁ ++ e :: es₂)) (hrun : Runs step s es₁ t) (hs : step t e = some t') :
    P t e := by
  induction es₁ generalizing s with
  | nil =>
    obtain rfl := runs_nil.1 hrun
    exact ((along_cons hs).1 h).1
  | cons e' es₁ ih =>
    obtain ⟨u, hu, hrun⟩ := runs_cons.1 hrun
    exact ih ((along_cons hu).1 h).2 hrun

/-- The invariant rule for runs without a condition on their steps. -/
theorem Runs.invariant' {I : σ → Prop} (hstep : ∀ s e s', I s → step s e = some s' → I s')
    (h : Runs step s es s') (hI : I s) : I s' :=
  h.invariant (G := fun _ _ => True) (fun s e s' hI _ => hstep s e s' hI) (along_true s es) hI

/-- A property of the enabled steps that an invariant implies holds along every run. -/
theorem Along.of_invariant {I : σ → Prop} {G P : σ → ε → Prop}
    (hstep : ∀ s e s', I s → G s e → step s e = some s' → I s' ∧ P s e)
    (hG : Along step G s es) (hI : I s) : Along step P s es := by
  induction es generalizing s with
  | nil => trivial
  | cons e es ih =>
    cases h : step s e with
    | none => simp [Along, h]
    | some t =>
      obtain ⟨hGe, hG⟩ := (along_cons h).1 hG
      obtain ⟨hI', hP⟩ := hstep s e t hI hGe h
      exact (along_cons h).2 ⟨hP, ih hG hI'⟩

/-- A property of the states that an invariant implies holds throughout every run. -/
theorem Always.of_invariant {I P : σ → Prop} {G : σ → ε → Prop}
    (hstep : ∀ s e s', I s → G s e → step s e = some s' → I s') (hP : ∀ s, I s → P s)
    (hG : Along step G s es) (hI : I s) : Always step P s es := by
  induction es generalizing s with
  | nil => exact hP s hI
  | cons e es ih =>
    refine ⟨hP s hI, ?_⟩
    cases h : step s e with
    | none => trivial
    | some t =>
      obtain ⟨hGe, hG⟩ := (along_cons h).1 hG
      exact ih hG (hstep s e t hI hGe h)

theorem Always.head {P : σ → Prop} (h : Always step P s es) : P s := by
  cases es with
  | nil => exact h
  | cons e es => exact h.1

theorem Always.last {P : σ → Prop} (h : Always step P s es) (hrun : Runs step s es s') : P s' := by
  induction es generalizing s with
  | nil => exact runs_nil.1 hrun ▸ h
  | cons e es ih =>
    obtain ⟨t, ht, hrun⟩ := runs_cons.1 hrun
    exact ih ((always_cons ht).1 h).2 hrun

/-- **A condition that is exact for a property of runs.** Suppose that from a state of the invariant
a step meets `D` and leads to a state with `P` exactly when it meets `G`, and that it then keeps the
invariant. Then a run has the properties `D` and `P` throughout exactly when all its steps meet
`G`. -/
theorem along_and_always_iff {I P : σ → Prop} {D G : σ → ε → Prop} (hIP : ∀ s, I s → P s)
    (hstep : ∀ s e s', I s → step s e = some s' → (D s e ∧ P s' ↔ G s e) ∧ (G s e → I s'))
    (hI : I s) : Along step D s es ∧ Always step P s es ↔ Along step G s es := by
  induction es generalizing s with
  | nil => exact ⟨fun _ => trivial, fun _ => ⟨trivial, hIP s hI⟩⟩
  | cons e es ih =>
    cases h : step s e with
    | none => simp [Always, Along, h, hIP s hI]
    | some t =>
      obtain ⟨hPG, hI'⟩ := hstep s e t hI h
      rw [always_cons h, along_cons h, along_cons h]
      constructor
      · rintro ⟨⟨hD, hDs⟩, -, hA⟩
        have hG := hPG.1 ⟨hD, hA.head⟩
        exact ⟨hG, (ih (hI' hG)).1 ⟨hDs, hA⟩⟩
      · rintro ⟨hG, hGs⟩
        obtain ⟨hDs, hA⟩ := (ih (hI' hG)).2 hGs
        exact ⟨⟨(hPG.2 hG).1, hDs⟩, hIP s hI, hA⟩

/-- The rule for a property of the states alone. -/
theorem always_iff_along {I P : σ → Prop} {G : σ → ε → Prop} (hIP : ∀ s, I s → P s)
    (hstep : ∀ s e s', I s → step s e = some s' → (P s' ↔ G s e) ∧ (G s e → I s'))
    (hI : I s) : Always step P s es ↔ Along step G s es := by
  rw [← along_and_always_iff (D := fun _ _ => True) hIP (by simpa using hstep) hI]
  exact (and_iff_right (along_true s es)).symm

/-- **A property from a certain event on.** The steps in `E` mark the state with `u`, which nothing
else does, and `Q` holds after them exactly when `G` held before; in a marked state, `Q` stays true.
Then `Q` holds in every marked state of a run exactly when the steps in `E` come only while `G`
holds. -/
theorem always_iff_along_of_mark {J u Q G : σ → Prop} {E : σ → ε → Prop}
    (hJ : ∀ s e s', J s → step s e = some s' → J s')
    (hmark : ∀ s e s', J s → step s e = some s' → E s e → u s' ∧ (Q s' ↔ G s))
    (hkeep : ∀ s e s', J s → step s e = some s' → ¬E s e → (u s' ↔ u s) ∧ (u s → Q s → Q s'))
    (hI : J s) (hu : ¬u s) :
    Always step (fun s => u s → Q s) s es ↔ Along step (fun s e => E s e → G s) s es := by
  refine always_iff_along (I := fun s => J s ∧ (u s → Q s)) (fun s h => h.2)
    (fun s e s' ⟨hJs, hQ⟩ hs => ?_) ⟨hI, fun h => absurd h hu⟩
  have hJ' := hJ s e s' hJs hs
  by_cases hE : E s e
  · obtain ⟨hu', hiff⟩ := hmark s e s' hJs hs hE
    refine ⟨⟨fun h _ => hiff.1 (h hu'), fun h _ => hiff.2 (h hE)⟩, fun h => ⟨hJ', fun _ => ?_⟩⟩
    exact hiff.2 (h hE)
  · obtain ⟨hiff, hstay⟩ := hkeep s e s' hJs hs hE
    have hQ' : u s' → Q s' := fun h => hstay (hiff.1 h) (hQ (hiff.1 h))
    exact ⟨⟨fun _ h => absurd h hE, fun _ => hQ'⟩, fun _ => ⟨hJ', hQ'⟩⟩

/-- **A run that does not end in the trap has met the condition.** Suppose that a step which meets
`D` but not `G` leads into the trap, and that no step which meets `D` leaves it. -/
theorem Along.of_trap {T : σ → Prop} {D G : σ → ε → Prop}
    (henter : ∀ s e s', step s e = some s' → D s e → ¬G s e → T s')
    (hkeep : ∀ s e s', T s → D s e → step s e = some s' → T s')
    (h : Runs step s es s') (hD : Along step D s es) (hT : ¬T s') : Along step G s es := by
  induction es generalizing s with
  | nil => trivial
  | cons e es ih =>
    obtain ⟨t, ht, h⟩ := runs_cons.1 h
    obtain ⟨hDe, hD⟩ := (along_cons ht).1 hD
    refine (along_cons ht).2 ⟨?_, ih h hD⟩
    by_contra hG
    exact hT (h.invariant hkeep hD (henter s e t ht hDe hG))

/-- **The rank rule.** Suppose that from every state of the invariant that is not a goal, a step
with a label in `G` keeps the invariant and lowers the rank. Then a run with labels in `G` reaches
a goal. -/
theorem Runs.exists_of_rank {I D : σ → Prop} {G : ε → Prop} (rank : σ → ℕ)
    (hstep : ∀ s, I s → ¬D s → ∃ e s', G e ∧ step s e = some s' ∧ I s' ∧ rank s' < rank s)
    (hI : I s) : ∃ es s', (∀ e ∈ es, G e) ∧ Runs step s es s' ∧ I s' ∧ D s' := by
  induction hn : rank s using Nat.strongRecOn generalizing s with
  | ind n ih =>
    by_cases hD : D s
    · exact ⟨[], s, nofun, runs_nil.2 rfl, hI, hD⟩
    · obtain ⟨e, t, hG, ht, hIt, hlt⟩ := hstep s hI hD
      obtain ⟨es, s', hGs, hrun, hI', hD'⟩ := ih (rank t) (hn ▸ hlt) hIt rfl
      refine ⟨e :: es, s', ?_, runs_cons.2 ⟨t, ht, hrun⟩, hI', hD'⟩
      intro e' he'
      obtain rfl | he' := List.mem_cons.1 he'
      · exact hG
      · exact hGs e' he'

/-- **The termination rule.** Where every step from a state of the invariant lowers the rank, a run
has at most as many steps as the rank of its first state. -/
theorem Runs.length_le_of_rank {I : σ → Prop} (rank : σ → ℕ)
    (hstep : ∀ s e s', I s → step s e = some s' → I s' ∧ rank s' < rank s)
    (h : Runs step s es s') (hI : I s) : es.length + rank s' ≤ rank s := by
  induction es generalizing s with
  | nil =>
    obtain rfl := runs_nil.1 h
    simp
  | cons e es ih =>
    obtain ⟨t, ht, h⟩ := runs_cons.1 h
    obtain ⟨hIt, hlt⟩ := hstep s e t hI ht
    have hle := ih h hIt
    rw [List.length_cons]
    omega

end Lkb.Run
