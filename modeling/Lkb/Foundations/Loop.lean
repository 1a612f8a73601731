import Mathlib.Data.Nat.Basic

/-!
# Loops that may not return

`loop body fuel s` is a `while` loop cut off after `fuel` rounds: each round either leaves the loop
with a result or goes on with a new state. `Returns f r` says that the computation `f`, which
takes the fuel its loops may use, returns `r` once it has enough. Where more fuel does not change a
result (`Steady`), what a computation in sequence returns comes from a result of its first part
(`Returns.of_bind`). `Rounds body s xs r` says which rounds a loop goes through, which is what it
costs (`Rounds.loop_eq`).
-/

namespace Lkb.Loop

variable {σ ρ ρ' : Type*}

/-- The loop with the given body: `.inl r` leaves it with `r`, `.inr s` goes round with `s`. -/
def loop (body : σ → ρ ⊕ σ) : ℕ → σ → Option ρ
  | 0, _ => none
  | n + 1, s =>
    match body s with
    | .inl r => some r
    | .inr s' => loop body n s'

/-- The computation returns `r`, with every sufficient amount of fuel. -/
def Returns (f : ℕ → Option ρ) (r : ρ) : Prop :=
  ∃ n, ∀ m, n ≤ m → f m = some r

theorem Returns.pure (r : ρ) : Returns (fun _ => some r) r := ⟨0, fun _ _ => rfl⟩

/-- Sequencing: a computation that goes on from the result of another. -/
theorem Returns.bind {f : ℕ → Option ρ} {g : ℕ → ρ → Option ρ'} {r : ρ} {r' : ρ'}
    (hf : Returns f r) (hg : Returns (fun n => g n r) r') :
    Returns (fun n => (f n).bind (g n)) r' := by
  obtain ⟨n, hn⟩ := hf
  obtain ⟨n', hn'⟩ := hg
  refine ⟨max n n', fun m hm => ?_⟩
  have hr := hn m (by omega)
  simpa only [hr, Option.bind_some] using hn' m (by omega)

theorem Returns.map {f : ℕ → Option ρ} {r : ρ} (hf : Returns f r) (g : ρ → ρ') :
    Returns (fun n => (f n).map g) (g r) := by
  obtain ⟨n, hn⟩ := hf
  exact ⟨n, fun m hm => by simp only [hn m hm, Option.map_some]⟩

/-- A round that leaves the loop. -/
theorem Returns.loop_leave {body : σ → ρ ⊕ σ} {s : σ} {r : ρ} (h : body s = .inl r) :
    Returns (fun n => loop body n s) r := by
  refine ⟨1, fun m hm => ?_⟩
  obtain ⟨m, rfl⟩ := Nat.exists_eq_add_of_le' hm
  simp [loop, h]

/-- A round that goes on. -/
theorem Returns.loop_round {body : σ → ρ ⊕ σ} {s s' : σ} {r : ρ} (h : body s = .inr s')
    (hs : Returns (fun n => loop body n s') r) : Returns (fun n => loop body n s) r := by
  obtain ⟨n, hn⟩ := hs
  refine ⟨n + 1, fun m hm => ?_⟩
  obtain ⟨k, rfl⟩ := Nat.exists_eq_add_of_le' hm
  have hk := hn (k + n) (by omega)
  simpa [loop, h, show k + (n + 1) = (k + n) + 1 by omega] using hk

/-! ## Results that do not depend on the fuel -/

variable {f : ℕ → Option ρ} {r r' : ρ}

theorem Returns.unique (h : Returns f r) (h' : Returns f r') : r = r' := by
  obtain ⟨n, hn⟩ := h
  obtain ⟨n', hn'⟩ := h'
  have hr := hn (max n n') (by omega)
  exact Option.some.inj (hr.symm.trans (hn' (max n n') (by omega)))

/-- More fuel does not change a result. -/
def Steady (f : ℕ → Option ρ) : Prop := ∀ n m r, n ≤ m → f n = some r → f m = some r

theorem Steady.returns (h : Steady f) {n : ℕ} (hn : f n = some r) : Returns f r :=
  ⟨n, fun m hm => h n m r hm hn⟩

theorem steady_pure (r : Option ρ) : Steady fun _ => r := fun _ _ _ _ h => h

theorem steady_loop (body : σ → ρ ⊕ σ) (s : σ) : Steady fun n => loop body n s := by
  intro n
  induction n generalizing s with
  | zero => nofun
  | succ n ih =>
    intro m r hm h
    obtain ⟨k, rfl⟩ := Nat.exists_eq_add_of_le' hm
    rw [← Nat.add_assoc] at hm ⊢
    simp only [loop] at h ⊢
    split at h
    next r' hr => simpa only [hr] using h
    next s' hs => simpa only [hs] using ih s' (k + n) r (by omega) h

theorem Steady.map (h : Steady f) (g : ρ → ρ') : Steady fun n => (f n).map g := by
  intro n m r hm hr
  obtain ⟨r, hn, rfl⟩ := Option.map_eq_some_iff.1 hr
  exact Option.map_eq_some_iff.2 ⟨r, h n m r hm hn, rfl⟩

theorem Steady.bind {g : ℕ → ρ → Option ρ'} (hf : Steady f) (hg : ∀ r, Steady fun n => g n r) :
    Steady fun n => (f n).bind (g n) := by
  intro n m r' hm h
  obtain ⟨r, hr, hr'⟩ := Option.bind_eq_some_iff.1 h
  exact Option.bind_eq_some_iff.2 ⟨r, hf n m r hm hr, hg r n m r' hm hr'⟩

/-- The result of a computation in sequence comes from a result of its first part. -/
theorem Returns.of_bind {g : ℕ → ρ → Option ρ'} {r' : ρ'} (hf : Steady f)
    (h : Returns (fun n => (f n).bind (g n)) r') :
    ∃ r, Returns f r ∧ Returns (fun n => g n r) r' := by
  obtain ⟨n, hn⟩ := h
  obtain ⟨r, hr, -⟩ := Option.bind_eq_some_iff.1 (hn n le_rfl)
  refine ⟨r, hf.returns hr, n, fun m hm => ?_⟩
  have hm' := hn m hm
  simpa only [hf n m r hm hr, Option.bind_some] using hm'

/-- A computation that spends one unit of fuel before it goes on. -/
theorem returns_succ : Returns (fun n => f (n + 1)) r ↔ Returns f r := by
  constructor
  · rintro ⟨n, hn⟩
    refine ⟨n + 1, fun m hm => ?_⟩
    obtain ⟨k, rfl⟩ := Nat.exists_eq_add_of_le' hm
    exact hn (k + n) (by omega)
  · rintro ⟨n, hn⟩
    exact ⟨n, fun m hm => hn (m + 1) (by omega)⟩

/-! ## The rounds of a loop -/

/-- The loop from `s` goes through rounds that begin in the states `xs`, and leaves with `r`. -/
inductive Rounds (body : σ → ρ ⊕ σ) : σ → List σ → ρ → Prop
  | leave {s : σ} {r : ρ} (h : body s = .inl r) : Rounds body s [s] r
  | round {s s' : σ} {xs : List σ} {r : ρ} (h : body s = .inr s') (hs : Rounds body s' xs r) :
      Rounds body s (s :: xs) r

/-- A loop returns once it may go through all of its rounds. -/
theorem Rounds.loop_eq {body : σ → ρ ⊕ σ} {s : σ} {xs : List σ} (h : Rounds body s xs r) (n : ℕ) :
    loop body n s = if xs.length ≤ n then some r else none := by
  induction h generalizing n with
  | leave h =>
    cases n with
    | zero => rfl
    | succ n => simp [loop, h]
  | round h _ ih =>
    cases n with
    | zero => rfl
    | succ n => simp [loop, h, ih]

end Lkb.Loop
