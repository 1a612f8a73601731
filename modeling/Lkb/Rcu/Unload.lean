import Lkb.Rcu.Walk
import Mathlib.Data.List.Perm.Basic

/-!
# Unloading `rcu`

Every node that was handed to `call_rcu` is the node of a callback that is pending, of one that is
running, or of one that has run (`Accounted`). When `start` has returned 0, the node `val[2]` was
handed over, provided that there is one, and no other. Nothing in `end` waits for its callback, so
after the unload the callback may still be pending or running (`not_quiet_when_ended`);
`end_after_callback_iff` says exactly when it is not.
-/

namespace Lkb.Rcu

open CircularList Run

variable {N : Element} {s s' : State} {e : Event} {ok : Bool} {x : Node}

/-! ## The callbacks -/

/-- A registered callback is pending, is running, or has run. -/
def Accounted (s : State) : Prop :=
  ∀ x, (s.pending.map Callback.node).count x + s.running.count x + s.freed.count x =
    s.called.count x

theorem accounted_load (data : Node → BitVec 32) (links : Links Node) :
    Accounted (load data links) := fun _ => rfl

/-- The count of an element of a list, and of the list without it. -/
theorem count_eraseIdx {l : List Node} {k : ℕ} (h : l[k]? = some x) (y : Node) :
    l.count y = (l.eraseIdx k).count y + [x].count y := by
  obtain ⟨hk, rfl⟩ := List.getElem?_eq_some_iff.1 h
  rw [← (List.getElem_cons_eraseIdx_perm hk).count_eq y, List.count_cons, List.count_singleton]

theorem Accounted.start_step (h : Accounted s) (hs : startStep N ok s = some s') :
    Accounted s' := by
  intro x
  have hx := h x
  obtain ⟨hf, hr, -, ⟨hc, hp⟩ | ⟨pos, -, hc, hp⟩⟩ := startStep_frame hs
  · rw [hf, hr, hc, hp]
    exact hx
  · have hpending : s'.pending.map Callback.node = s.pending.map Callback.node ++ [pos] := by
      simp [hp]
    rw [hf, hr, hc, hpending, List.count_append, List.count_append]
    omega

theorem Accounted.quiesce (h : Accounted s) : Accounted s.quiesce := by
  have hnode : (s.quiesce.pending.map Callback.node) = s.pending.map Callback.node := by
    unfold State.quiesce
    split_ifs
    · rw [List.map_map]
      rfl
    · rfl
  obtain ⟨hmem, -, hfreed, hrunning, -⟩ := s.quiesce_frame
  have hcalled : s.quiesce.called = s.called := congrArg Memory.called hmem
  intro x
  rw [hnode, hrunning, hfreed, hcalled]
  exact h x

theorem Accounted.preserved (h : Accounted s) (hs : step N s e = some s') : Accounted s' := by
  cases e with
  | start ok =>
    obtain ⟨t, ht, rfl⟩ := Option.map_eq_some_iff.1 hs
    exact (h.start_step ht).quiesce
  | callback k =>
    simp only [step] at hs
    split at hs
    next x hk =>
      cases hs
      intro y
      have hy := h y
      have hnode : (s.pending.map Callback.node)[k]? = some x := by simp [hk]
      rw [count_eraseIdx hnode y] at hy
      dsimp only
      rw [List.count_append, ← List.eraseIdx_map]
      omega
    next => cases hs
  | destroy k =>
    obtain ⟨x, hk, rfl⟩ := Option.map_eq_some_iff.1 hs
    intro y
    have hy := h y
    rw [count_eraseIdx hk y] at hy
    simp only [destroyOldStructure, State.printk, List.count_append]
    omega
  | endModule =>
    simp only [step, Option.ite_none_right_eq_some, Option.some.injEq] at hs
    obtain ⟨-, rfl⟩ := hs
    exact h

/-! ## What was handed over -/

/-- The deletion hands `val[2]` over, if there is one. -/
theorem handed_read2 (N : Element) (l : List Node) :
    handed N .read2 l = if N.val ≤ 2 then [] else [.val 2] := by
  have hbuilt : ∀ n, ((built n).flatMap (keep .update)).filter (· = .val 2) =
      if n ≤ 2 then [] else [Node.val 2] := by
    intro n
    induction n with
    | zero => rfl
    | succ n ih =>
      rw [built, List.flatMap_cons, List.filter_append, ih]
      by_cases h1 : n = 1
      · simp [h1, keep]
      · by_cases h2 : n = 2
        · simp [h2, keep]
        · have hle : n ≤ 2 ↔ n + 1 ≤ 2 := by omega
          simp [keep, h1, h2, hle]
  exact hbuilt N.val

/-- What is known when `start` has returned 0: the nodes on the list, and the ones that were handed
over. -/
theorem At.returned (h : At N s.memory s.pc) (hpc : s.pc = .returned 0) :
    IsRing s.links .head (input N .read2) ∧ s.called = if N.val ≤ 2 then [] else [.val 2] := by
  rw [hpc] at h
  obtain ⟨-, hstand⟩ | ⟨hret, -⟩ := h
  · have hring := hstand.shape.ring
    rw [List.append_nil, flatMap_keep (l := .read2) nofun nofun] at hring
    rw [← handed_read2 N]
    exact ⟨hring, hstand.called⟩
  · cases hret

/-- No callback is pending or running. -/
def State.Quiet (s : State) : Prop := s.pending = [] ∧ s.running = []

instance : DecidablePred State.Quiet := fun s =>
  inferInstanceAs (Decidable (s.pending = [] ∧ s.running = []))

theorem Accounted.quiet_iff (h : Accounted s) :
    s.Quiet ↔ ∀ x, s.freed.count x = s.called.count x := by
  constructor
  · rintro ⟨hp, hr⟩ x
    have hx := h x
    rw [hp, hr] at hx
    simpa using hx
  · intro hfreed
    have hzero : ∀ x, (s.pending.map Callback.node).count x = 0 ∧ s.running.count x = 0 := by
      intro x
      have hx := h x
      rw [hfreed x] at hx
      omega
    constructor
    · have hnil : s.pending.map Callback.node = [] :=
        List.eq_nil_iff_forall_not_mem.2 fun x => List.count_eq_zero.1 (hzero x).1
      exact List.map_eq_nil_iff.1 hnil
    · exact List.eq_nil_iff_forall_not_mem.2 fun x => List.count_eq_zero.1 (hzero x).2

/-- What is known when the module can be unloaded. -/
structure Loaded (N : Element) (s : State) : Prop where
  walk : At N s.memory s.pc
  accounted : Accounted s
  ended : s.ended → s.pc = .returned 0

/-- When `start` has returned 0, no callback is outstanding exactly when the one for `val[2]` has
run or there is no `val[2]`. -/
theorem Loaded.quiet_iff (h : Loaded N s) (hpc : s.pc = .returned 0) :
    s.Quiet ↔ N.val ≤ 2 ∨ .val 2 ∈ s.freed := by
  have hcalled := (h.walk.returned hpc).2
  rw [h.accounted.quiet_iff, hcalled]
  by_cases hN : N.val ≤ 2
  · refine iff_of_true (fun x => ?_) (.inl hN)
    have hx := h.accounted x
    rw [hcalled, if_pos hN] at hx
    rw [if_pos hN]
    simp only [List.count_nil] at hx ⊢
    omega
  · rw [if_neg hN]
    constructor
    · intro hfreed
      refine .inr (List.count_pos_iff.1 ?_)
      rw [hfreed]
      simp
    · rintro (hle | hmem) x
      · exact absurd hle hN
      · have hx := h.accounted x
        rw [hcalled, if_neg hN] at hx
        by_cases hxv : x = .val 2
        · have hpos : 0 < s.freed.count x := List.count_pos_iff.2 (hxv ▸ hmem)
          rw [hxv] at hx hpos ⊢
          simp only [List.count_singleton_self] at hx ⊢
          omega
        · have hzero : [Node.val 2].count x = 0 := by simp [Ne.symm hxv]
          omega

theorem loaded_load (N : Element) (data : Node → BitVec 32) (links : Links Node) :
    Loaded N (load data links) :=
  ⟨at_load N data links, accounted_load data links, nofun⟩

/-- A step other than the call of `end` comes before it, or finds no callback to run. -/
theorem Loaded.frame (h : Loaded N s) (hs : step N s e = some s') (he : e ≠ .endModule) :
    s'.ended = s.ended ∧ (s.ended → s'.pc = .returned 0) ∧ (s.ended → s.Quiet → s'.Quiet) := by
  cases e with
  | start ok =>
    obtain ⟨t, ht, rfl⟩ := Option.map_eq_some_iff.1 hs
    obtain ⟨-, -, hended, -⟩ := startStep_frame ht
    obtain ⟨-, -, -, -, hquiesce, -⟩ := t.quiesce_frame
    have hnot : ¬s.ended := fun hend => by simp [startStep, h.ended hend] at ht
    exact ⟨hquiesce.trans hended, fun hend => absurd hend hnot, fun hend => absurd hend hnot⟩
  | callback k =>
    simp only [step] at hs
    split at hs
    next x hk =>
      cases hs
      refine ⟨rfl, h.ended, fun _ hquiet => ?_⟩
      rw [hquiet.1] at hk
      cases hk
    next => cases hs
  | destroy k =>
    obtain ⟨x, hk, rfl⟩ := Option.map_eq_some_iff.1 hs
    refine ⟨rfl, h.ended, fun _ hquiet => ?_⟩
    rw [hquiet.2] at hk
    cases hk
  | endModule => exact absurd rfl he

/-- **When the module can be unloaded.** `end` does not wait for the callbacks: for every value of
`element` and in every run of the module, no callback is pending or running in every state in which
`end` has returned, exactly when `end` is called only after the callback for `val[2]` has freed its
node, or `element` is at most 2. -/
theorem end_after_callback_iff (N : Element) (data : Node → BitVec 32) (links : Links Node)
    (es : List Event) :
    Always (step N) (fun s => s.ended → s.Quiet) (load data links) es ↔
      Along (step N) (fun s e => e = .endModule → N.val ≤ 2 ∨ .val 2 ∈ s.freed)
        (load data links) es := by
  have hend : ∀ s s', step N s .endModule = some s' →
      s.pc = .returned 0 ∧ s'.pc = .returned 0 ∧ s'.ended ∧ (s'.Quiet ↔ s.Quiet) := by
    intro s s' hs
    simp only [step, Option.ite_none_right_eq_some, Option.some.injEq] at hs
    obtain ⟨⟨hret, -⟩, rfl⟩ := hs
    exact ⟨hret, hret, rfl, Iff.rfl⟩
  refine always_iff_along_of_mark (J := Loaded N) (fun s e s' h hs => ?_)
    (fun s e s' h hs he => ?_) (fun s e s' h hs he => ?_) (loaded_load N data links)
    Bool.false_ne_true
  · refine ⟨h.walk.preserved hs, h.accounted.preserved hs, ?_⟩
    by_cases he : e = .endModule
    · exact fun _ => (hend s s' (he ▸ hs)).2.1
    · obtain ⟨hended, hpc, -⟩ := h.frame hs he
      exact fun hend => hpc (hended ▸ hend)
  · obtain ⟨hret, -, hended, hquiet⟩ := hend s s' (he ▸ hs)
    exact ⟨hended, hquiet.trans (h.quiet_iff hret)⟩
  · obtain ⟨hended, -, hquiet⟩ := h.frame hs he
    exact ⟨by rw [hended], hquiet⟩

/-- The module is unloaded before the callback has run, with the value of `element` in the source.
-/
theorem not_quiet_when_ended :
    ¬Always (step ⟨5, by decide⟩) (fun s => s.ended → s.Quiet) (load (fun _ => 0) ⟨.node, .node⟩)
      (List.replicate 156 (.start true) ++ [.endModule]) := by
  decide +kernel

end Lkb.Rcu
