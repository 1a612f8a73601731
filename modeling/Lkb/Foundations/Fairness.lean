import Lkb.Foundations.Run

/-!
# Infinite runs that are fair

An infinite run is a sequence of states in which each one comes from the one before it by a step, or
by no step at all, so that a system that has come to rest goes on. A run is fair to a party when the
party does not stay able to take a step for ever without taking one.

`Fair.eventually` is the rule for proving that a goal is reached: while it is not, some party is
helpful. A step of it brings the goal closer, and a step of any other party does so too, or leaves
the distance and the helpful party as they are.

A finite run after which no party can take a step is fair, followed by no step for ever
(`Runs.fair`).
-/

namespace Lkb.Run

variable {σ ε κ : Type*} {step : σ → ε → Option σ}

/-- The states `ρ` with the labels `l` are an infinite run. -/
def Infinite (step : σ → ε → Option σ) (ρ : ℕ → σ) (l : ℕ → Option ε) : Prop :=
  ∀ n,
    match l n with
    | some e => step (ρ n) e = some (ρ (n + 1))
    | none => ρ (n + 1) = ρ n

/-- From every time on, a step with a label in `G` is taken, or none is enabled. -/
def FairTo (step : σ → ε → Option σ) (G : ε → Prop) (ρ : ℕ → σ) (l : ℕ → Option ε) : Prop :=
  ∀ n, ∃ m, n ≤ m ∧ ((∃ e, G e ∧ l m = some e) ∨ ∀ e, G e → step (ρ m) e = none)

/-- An infinite run that is fair to every party. -/
structure Fair (step : σ → ε → Option σ) (party : κ → ε → Prop) (ρ : ℕ → σ) (l : ℕ → Option ε) :
    Prop where
  run : Infinite step ρ l
  fair : ∀ k, FairTo step (party k) ρ l

variable {ρ : ℕ → σ} {l : ℕ → Option ε} {party : κ → ε → Prop}

theorem Infinite.step_or_stay (h : Infinite step ρ l) (n : ℕ) :
    (∃ e, l n = some e ∧ step (ρ n) e = some (ρ (n + 1))) ∨ l n = none ∧ ρ (n + 1) = ρ n := by
  have hn := h n
  cases hl : l n with
  | none =>
    rw [hl] at hn
    exact .inr ⟨rfl, hn⟩
  | some e =>
    rw [hl] at hn
    exact .inl ⟨e, rfl, hn⟩

/-- The invariant rule for infinite runs. -/
theorem Infinite.invariant {I : σ → Prop} (h : Infinite step ρ l)
    (hstep : ∀ s e s', I s → step s e = some s' → I s') (hI : I (ρ 0)) (n : ℕ) : I (ρ n) := by
  induction n with
  | zero => exact hI
  | succ n ih =>
    rcases h.step_or_stay n with ⟨e, -, hs⟩ | ⟨-, hstay⟩
    · exact hstep _ _ _ ih hs
    · rw [hstay]
      exact ih

/-! ## Finite runs -/

/-- The states of a finite run, and then its last state for ever. -/
def path (step : σ → ε → Option σ) : σ → List ε → ℕ → σ
  | s, [], _ => s
  | s, _ :: _, 0 => s
  | s, e :: es, n + 1 => path step ((step s e).getD s) es n

variable {s s' t : σ} {e : ε} {es : List ε}

@[simp] theorem path_zero (s : σ) (es : List ε) : path step s es 0 = s := by
  cases es with
  | nil => rfl
  | cons e es => rfl

theorem path_succ (hs : step s e = some t) (n : ℕ) :
    path step s (e :: es) (n + 1) = path step t es n := by
  rw [path, hs, Option.getD_some]

theorem Runs.path_eq (h : Runs step s es s') {n : ℕ} (hn : es.length ≤ n) :
    path step s es n = s' := by
  induction es generalizing s n with
  | nil => exact runs_nil.1 h
  | cons e es ih =>
    obtain ⟨t, hs, h⟩ := runs_cons.1 h
    cases n with
    | zero => cases hn
    | succ n =>
      rw [path_succ hs]
      exact ih h (Nat.le_of_succ_le_succ hn)

theorem Runs.infinite (h : Runs step s es s') : Infinite step (path step s es) fun n => es[n]? := by
  intro n
  induction es generalizing s n with
  | nil => rfl
  | cons e es ih =>
    obtain ⟨t, hs, h⟩ := runs_cons.1 h
    rw [path_succ hs]
    cases n with
    | zero => simpa using hs
    | succ n =>
      rw [path_succ hs]
      exact ih h n

/-- A run that has come to rest is fair. -/
theorem Runs.fair (h : Runs step s es s') (hrest : ∀ k e, party k e → step s' e = none) :
    Fair step party (path step s es) fun n => es[n]? := by
  refine ⟨h.infinite, fun k n => ⟨n + es.length, Nat.le_add_right n _, .inr fun e he => ?_⟩⟩
  rw [h.path_eq (Nat.le_add_left _ n)]
  exact hrest k e he

/-! ## Goals that are reached -/

section

variable {I D : σ → Prop} {helpful : σ → κ} {rank : σ → ℕ}

/-- What brings a goal `D` closer: the helpful party can take a step, its steps lower the rank, and
no other step raises the rank, or changes the helpful party at the same rank. -/
structure Approaches (step : σ → ε → Option σ) (party : κ → ε → Prop) (I D : σ → Prop)
    (helpful : σ → κ) (rank : σ → ℕ) : Prop where
  invariant : ∀ s e s', I s → step s e = some s' → I s'
  enabled : ∀ s, I s → ¬D s → ∃ e, party (helpful s) e ∧ (step s e).isSome
  closer : ∀ s e s', I s → ¬D s → party (helpful s) e → step s e = some s' → rank s' < rank s
  keeps : ∀ s e s', I s → ¬D s → step s e = some s' →
    rank s' < rank s ∨ rank s' = rank s ∧ helpful s' = helpful s

/-- As long as neither the goal nor a lower rank is reached, the helpful party is the same one. -/
theorem Approaches.helpful_eq (h : Approaches step party I D helpful rank)
    (hrun : Infinite step ρ l) (hI : ∀ n, I (ρ n)) {n : ℕ}
    (hnot : ∀ m, ¬D (ρ m) ∧ ¬rank (ρ m) < rank (ρ n)) (m : ℕ) :
    rank (ρ (n + m)) = rank (ρ n) ∧ helpful (ρ (n + m)) = helpful (ρ n) := by
  induction m with
  | zero => exact ⟨rfl, rfl⟩
  | succ m ih =>
    obtain ⟨hrank, hhelp⟩ := ih
    rcases hrun.step_or_stay (n + m) with ⟨e, -, hs⟩ | ⟨-, hstay⟩
    · rcases h.keeps _ _ _ (hI _) (hnot (n + m)).1 hs with hlt | ⟨hr, hh⟩
      · exact absurd (hrank ▸ hlt) (hnot (n + m + 1)).2
      · exact ⟨hr.trans hrank, hh.trans hhelp⟩
    · rw [← Nat.add_assoc, hstay]
      exact ⟨hrank, hhelp⟩

/-- In a fair run, the goal or a lower rank is reached. -/
theorem Approaches.exists_closer (h : Approaches step party I D helpful rank)
    (hfair : Fair step party ρ l) (hI : ∀ n, I (ρ n)) (n : ℕ) :
    ∃ m, D (ρ m) ∨ rank (ρ m) < rank (ρ n) := by
  by_contra hnone
  have hnot : ∀ m, ¬D (ρ m) ∧ ¬rank (ρ m) < rank (ρ n) := fun m =>
    not_or.1 fun hm => hnone ⟨m, hm⟩
  obtain ⟨m, hm, hturn⟩ := hfair.fair (helpful (ρ n)) n
  obtain ⟨k, rfl⟩ := Nat.exists_eq_add_of_le hm
  obtain ⟨hrank, hhelp⟩ := h.helpful_eq hfair.run hI hnot k
  rcases hturn with ⟨e, hG, hl⟩ | hdis
  · have hs := hfair.run (n + k)
    rw [hl] at hs
    have hlt := h.closer _ _ _ (hI _) (hnot _).1 (hhelp ▸ hG) hs
    exact absurd (hrank ▸ hlt) (hnot _).2
  · obtain ⟨e, hG, hsome⟩ := h.enabled _ (hI (n + k)) (hnot _).1
    rw [hdis e (hhelp ▸ hG)] at hsome
    cases hsome

/-- **The rule for fair runs.** A goal that the helpful party of each state approaches is
reached. -/
theorem Fair.eventually (hfair : Fair step party ρ l)
    (h : Approaches step party I D helpful rank) (hI : I (ρ 0)) : ∃ n, D (ρ n) := by
  have hI := hfair.run.invariant h.invariant hI
  have hrec : ∀ r n, rank (ρ n) = r → ∃ m, D (ρ m) := by
    intro r
    induction r using Nat.strongRecOn with
    | ind r ih =>
      intro n hn
      obtain ⟨m, hm | hlt⟩ := h.exists_closer hfair hI n
      · exact ⟨m, hm⟩
      · exact ih (rank (ρ m)) (hn ▸ hlt) m rfl
  exact hrec _ 0 rfl

end

end Lkb.Run
