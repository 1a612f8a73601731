import Lkb.LinkList.Output
import Lkb.Rcu.System
import Lkb.Thread01.Stop

/-!
# Initialisers that fail

`km_init` of `thread01`, `start` of `rcu` and `start` of `link_list` ask the kernel for one thing
after the other, and return -1 at the first request that is refused. None of them gives back what it
was granted before, and since the module is then not loaded, its exit function never runs. So what
is live when they return -1 is what was live before the call only if nothing was granted: the
refused request was the very first one (`released_iff`, for each of the three).
-/

open Lkb.CircularList Lkb.Run

/-! ## `thread01` -/

namespace Lkb.Thread01

variable {N i : ℕ} {s s' : State} {e : Event} {ok : Bool}

/-- The step is a request of `km_init` that the kernel refuses. -/
def Refused (N : ℕ) (s : State) (e : Event) : Prop :=
  e = .main false ∧ ((∃ i < N, s.pc = .kmalloc i) ∨ ∃ i, s.pc = .kthreadCreate i)

/-- No structure is allocated, and no thread that was created still exists. -/
def State.Released (s : State) : Prop :=
  s.allocated = [] ∧ ∀ t < s.created, (s.threads t).pc.hasExited

instance (s : State) : Decidable s.Released := inferInstanceAs (Decidable (_ ∧ _))

/-- `km_init` returns -1 only where a request is refused. -/
theorem mainStep_to_returned (hs : mainStep N ok s = some s') (hpc' : s'.pc = .returned (-1)) :
    Refused N s (.main ok) := by
  cases mainStep_moves hs with
  | @kmallocFailed i hpc hi hok => exact ⟨by rw [hok], .inl ⟨i, hi, hpc⟩⟩
  | @kthreadFailed i hpc hok => exact ⟨by rw [hok], .inr ⟨i, hpc⟩⟩
  | @leave l => cases l <;> cases hpc'
  | @enter l i => cases l <;> cases hpc'
  | _ => cases hpc'

/-- What `km_init` was granted so far is nothing only before the first structure is allocated. -/
theorem Made.released_iff {n m : ℕ} (h : Made s.control n m) (hn : n ≤ m) :
    s.Released ↔ m = 0 := by
  constructor
  · rintro ⟨halloc, -⟩
    by_contra hm
    have hmem : 0 ∈ s.allocated := (h.live.mem_iff 0).2 ⟨Nat.le_refl 0, Nat.pos_of_ne_zero hm⟩
    rw [halloc] at hmem
    cases hmem
  · rintro rfl
    have hcreated : s.created = n := h.created
    refine ⟨List.eq_nil_iff_forall_not_mem.2 fun j hj => ?_, fun t ht => by omega⟩
    have := (h.live.mem_iff j).1 hj
    omega

/-- A refused request leaves what was granted before. -/
theorem Inv.refused (h : Inv N s) (he : Refused N s e) (hs : step N s e = some s') :
    s'.pc = .returned (-1) ∧ (s'.Released ↔ s.pc = .kmalloc 0) := by
  have hat := h.control
  obtain ⟨rfl, ⟨i, hi, hpc⟩ | ⟨i, hpc⟩⟩ := he
  · rw [hpc] at hat
    simp only [step, mainStep, hpc, if_pos hi] at hs
    cases hs
    refine ⟨rfl, (hat.2.released_iff (Nat.le_refl i)).trans ?_⟩
    rw [hpc, Pc.kmalloc.injEq]
  · rw [hpc] at hat
    simp only [step, mainStep, hpc] at hs
    cases hs
    refine ⟨rfl, (hat.2.released_iff (Nat.le_succ i)).trans ?_⟩
    rw [hpc]
    exact iff_of_false (Nat.succ_ne_zero i) fun hpc => by cases hpc

/-- The other steps neither lead to a failure nor away from it. -/
theorem Inv.keeps_failure (h : Inv N s) (he : ¬Refused N s e) (hs : step N s e = some s') :
    (s'.pc = .returned (-1) ↔ s.pc = .returned (-1)) ∧
      (s.pc = .returned (-1) → s.Released → s'.Released) := by
  cases e with
  | main ok =>
    have hpc : s.pc ≠ .returned (-1) := by
      intro hpc
      simp only [step, mainStep, hpc] at hs
      cases hs
    exact ⟨iff_of_false (fun hpc' => he (mainStep_to_returned hs hpc')) hpc, (absurd · hpc)⟩
  | rmmod =>
    simp only [step, Option.ite_none_right_eq_some, Option.some.injEq] at hs
    obtain ⟨hpc, rfl⟩ := hs
    rw [hpc]
    exact ⟨iff_of_false (fun hpc => by cases hpc) (by decide), (absurd · (by decide))⟩
  | thread t =>
    obtain ⟨th, hth, rfl⟩ := Option.map_eq_some_iff.1 hs
    refine ⟨Iff.rfl, fun _ hrel => ⟨hrel.1, fun t' ht' => ?_⟩⟩
    have hne : t' ≠ t := by
      rintro rfl
      obtain ⟨-, -, hrunning, -⟩ := (h.thread t').step hth
      exact absurd (hrel.2 t' ht') (by simp [hrunning])
    simpa [State.setThread, Function.update_of_ne hne] using hrel.2 t' ht'

/-- `km_init` fails without a trace exactly when its first `kmalloc` fails. -/
theorem released_iff (N : ℕ) (links : Links Node) (es : List Event) :
    Always (step N) (fun s => s.pc = .returned (-1) → s.Released) (load links) es ↔
      Along (step N) (fun s e => Refused N s e → s.pc = .kmalloc 0) (load links) es := by
  exact always_iff_along_of_mark (J := Inv N) (fun s e s' h hs => h.preserved hs)
    (fun s e s' h hs he => h.refused he hs) (fun s e s' h hs he => h.keeps_failure he hs)
    (inv_load N links) nofun

end Lkb.Thread01

/-! ## `rcu` -/

namespace Lkb.Rcu

variable {N : Element} {n i : ℕ} {s s' : State} {e : Event} {ok : Bool}

/-- The step is a request of `start` that the kernel refuses. -/
def Refused (N : Element) (s : State) (e : Event) : Prop :=
  e = .start false ∧ ∃ i < N.val, s.pc = .fill i

/-- `n` nodes were allocated, and no callback is registered. -/
structure Granted (n : ℕ) (s : State) : Prop where
  allocated : s.allocated.length = n
  pending : s.pending = []
  running : s.running = []

/-- What holds while `start` allocates the nodes. -/
structure Filling (s : State) : Prop where
  hello : s.pc = .hello → Granted 0 s
  fill : ∀ i, s.pc = .fill i → Granted i s

theorem filling_load (data : Node → BitVec 32) (links : Links Node) : Filling (load data links) :=
  ⟨fun _ => ⟨rfl, rfl, rfl⟩, nofun⟩

theorem Granted.quiesce (h : Granted n s) : Granted n s.quiesce := by
  unfold State.quiesce
  split_ifs
  · exact ⟨h.allocated, by simp [h.pending], h.running⟩
  · exact h

theorem Filling.start_step (h : Filling s) (hs : startStep N ok s = some s') : Filling s' := by
  obtain ⟨hpc, rfl⟩ | ⟨i, hpc, rfl⟩ | ⟨i, -, -, -, rfl⟩ | hearly := startStep_front hs
  · refine ⟨fun hj => ?_, fun j hj => ?_⟩
    · cases hj
    · obtain rfl : 0 = j := Pc.fill.inj hj
      exact ⟨(h.hello hpc).allocated, (h.hello hpc).pending, (h.hello hpc).running⟩
  · refine ⟨fun hj => ?_, fun j hj => ?_⟩
    · cases hj
    · obtain rfl : i + 1 = j := Pc.fill.inj hj
      have hi := h.fill i hpc
      exact ⟨congrArg (· + 1) hi.allocated, hi.pending, hi.running⟩
  · refine ⟨fun hj => ?_, fun j hj => ?_⟩
    · cases hj
    · cases hj
  · refine ⟨fun hj => ?_, fun j hj => ?_⟩
    · simp [hj, Pc.early] at hearly
    · simp [hj, Pc.early] at hearly

/-- While the nodes are allocated, no callback begins or runs. -/
theorem Granted.start_only (h : Granted n s) (hs : step N s e = some s')
    (hpc : s.pc ≠ .returned 0) : ∃ ok, e = .start ok := by
  cases e with
  | start ok => exact ⟨ok, rfl⟩
  | callback k => simp [step, h.pending] at hs
  | destroy k => simp [step, h.running] at hs
  | endModule => simp [step, hpc] at hs

/-- The callbacks and `end` leave `start` where it is, and allocate nothing. -/
theorem step_of_ne_start (hs : step N s e = some s') (he : ∀ ok, e ≠ .start ok) :
    s'.pc = s.pc ∧ (s.allocated = [] → s'.allocated = []) := by
  cases e with
  | start ok => exact absurd rfl (he ok)
  | callback k =>
    simp only [step] at hs
    split at hs
    · cases hs
      exact ⟨rfl, id⟩
    · cases hs
  | destroy k =>
    obtain ⟨x, -, rfl⟩ := Option.map_eq_some_iff.1 hs
    refine ⟨rfl, fun halloc => ?_⟩
    show s.allocated.erase x = []
    rw [halloc, List.erase_nil]
  | endModule =>
    simp only [step, Option.ite_none_right_eq_some, Option.some.injEq] at hs
    obtain ⟨-, rfl⟩ := hs
    exact ⟨rfl, id⟩

theorem quiesce_pc_allocated (s : State) :
    s.quiesce.pc = s.pc ∧ s.quiesce.allocated = s.allocated := by
  unfold State.quiesce
  split_ifs <;> exact ⟨rfl, rfl⟩

theorem Filling.preserved (h : Filling s) (hs : step N s e = some s') : Filling s' := by
  by_cases he : ∃ ok, e = .start ok
  · obtain ⟨ok, rfl⟩ := he
    obtain ⟨t, ht, rfl⟩ := Option.map_eq_some_iff.1 hs
    have ht' := h.start_step ht
    have hpc := (quiesce_pc_allocated t).1
    exact ⟨fun hj => (ht'.hello (hpc ▸ hj)).quiesce, fun j hj => (ht'.fill j (hpc ▸ hj)).quiesce⟩
  · have hpc : s'.pc = s.pc := (step_of_ne_start hs fun ok hok => he ⟨ok, hok⟩).1
    refine ⟨fun hj => absurd ?_ he, fun j hj => absurd ?_ he⟩
    · rw [hpc] at hj
      exact (h.hello hj).start_only hs (by simp [hj])
    · rw [hpc] at hj
      exact (h.fill j hj).start_only hs (by simp [hj])

/-- A refused request leaves what was granted before. -/
theorem Filling.refused (h : Filling s) (he : Refused N s e) (hs : step N s e = some s') :
    s'.pc = .returned (-1) ∧ (s'.allocated = [] ↔ s.pc = .fill 0) := by
  obtain ⟨rfl, i, hi, hpc⟩ := he
  simp only [step, startStep, hpc, if_pos hi] at hs
  cases hs
  obtain ⟨hpc', halloc⟩ :=
    quiesce_pc_allocated ((s.printk (.mallocFailed i)).goto (.returned (-1)))
  refine ⟨hpc', ?_⟩
  have hlen : s.allocated.length = i := (h.fill i hpc).allocated
  rw [halloc, hpc, Pc.fill.injEq, ← hlen]
  exact List.length_eq_zero_iff.symm

/-- The other steps neither lead to a failure nor away from it. -/
theorem step_keeps_failure (he : ¬Refused N s e) (hs : step N s e = some s') :
    (s'.pc = .returned (-1) ↔ s.pc = .returned (-1)) ∧
      (s.pc = .returned (-1) → s.allocated = [] → s'.allocated = []) := by
  by_cases hstart : ∃ ok, e = .start ok
  · obtain ⟨ok, rfl⟩ := hstart
    obtain ⟨t, ht, rfl⟩ := Option.map_eq_some_iff.1 hs
    have hpc : s.pc ≠ .returned (-1) := by
      intro hpc
      simp only [startStep, hpc] at ht
      cases ht
    refine ⟨iff_of_false (fun hpc' => ?_) hpc, (absurd · hpc)⟩
    rw [(quiesce_pc_allocated t).1] at hpc'
    obtain ⟨-, rfl⟩ | ⟨i, -, rfl⟩ | ⟨i, hi, hfill, rfl, -⟩ | hearly := startStep_front ht
    · cases hpc'
    · cases hpc'
    · exact he ⟨rfl, i, hi, hfill⟩
    · simp [hpc', Pc.early] at hearly
  · obtain ⟨hpc, halloc⟩ := step_of_ne_start hs fun ok hok => hstart ⟨ok, hok⟩
    exact ⟨by rw [hpc], fun _ => halloc⟩

/-- `start` fails without a trace exactly when its first `kmalloc` fails. -/
theorem released_iff (N : Element) (data : Node → BitVec 32) (links : Links Node)
    (es : List Event) :
    Always (step N) (fun s => s.pc = .returned (-1) → s.allocated = []) (load data links) es ↔
      Along (step N) (fun s e => Refused N s e → s.pc = .fill 0) (load data links) es := by
  exact always_iff_along_of_mark (J := Filling) (fun s e s' h hs => h.preserved hs)
    (fun s e s' h hs he => h.refused he hs) (fun s e s' _ hs he => step_keeps_failure he hs)
    (filling_load data links) nofun

end Lkb.Rcu

/-! ## `link_list` -/

namespace Lkb.LinkList

variable {N i : ℕ} {s s' : State} {ok : Bool}

/-- The step is a request of `start` that the kernel refuses. -/
def Refused (N : ℕ) (s : State) (ok : Bool) : Prop := ok = false ∧ ∃ i < N, s.pc = .kmalloc i

/-- `start` fails without a trace exactly when its first `kmalloc` fails. -/
theorem released_iff (N : ℕ) (a : Node → BitVec 32) (links : Links Node) (oks : List Bool) :
    Always (step N) (fun s => s.pc = .returned (-1) → s.allocated = []) (load a links) oks ↔
      Along (step N) (fun s ok => Refused N s ok → s.pc = .kmalloc 0) (load a links) oks := by
  refine always_iff_along_of_mark (J := fun s => At N s.memory s.log s.pc)
    (fun s ok s' h hs => h.step hs) (fun s ok s' h hs hok => ?_) (fun s ok s' h hs hok => ?_)
    (at_load N a links) nofun
  · obtain ⟨rfl, i, hi, hpc⟩ := hok
    rw [hpc] at h
    simp only [step, hpc, if_pos hi] at hs
    cases hs
    have halloc : s.allocated = blocks 0 i := h.2.1.allocated
    refine ⟨rfl, ?_⟩
    show s.allocated = [] ↔ _
    rw [halloc, hpc, Pc.kmalloc.injEq]
    simp [blocks]
  · have hpc : s.pc ≠ .returned (-1) := by
      intro hpc
      simp only [step, hpc] at hs
      cases hs
    exact ⟨iff_of_false (fun hpc' => hok (step_to_returned hs hpc')) hpc, (absurd · hpc)⟩

end Lkb.LinkList

namespace Lkb.Initialisers

/-- **When a failure is atomic.** For every bound of the loops and in every run, for every answer of
the kernel: when the initialiser has returned -1, nothing that it was granted is left, exactly when
the only request that is refused is the very first one. This is so for `km_init` of `thread01`,
with its structures and its threads, for `start` of `rcu`, and for `start` of `link_list`. -/
theorem failure_atomic_iff (ELEMENTS : ℕ) (gwl : Links Thread01.Node)
    (threadRun : List Thread01.Event) (element : Rcu.Element) (data : Rcu.Node → BitVec 32)
    (headMylist : Links Rcu.Node) (rcuRun : List Rcu.Event) (bound : ℕ)
    (a : LinkList.Node → BitVec 32) (mylist : Links LinkList.Node) (oks : List Bool) :
    (Always (Thread01.step ELEMENTS) (fun s => s.pc = .returned (-1) → s.Released)
        (Thread01.load gwl) threadRun ↔
      Along (Thread01.step ELEMENTS)
        (fun s e => Thread01.Refused ELEMENTS s e → s.pc = .kmalloc 0)
        (Thread01.load gwl) threadRun) ∧
    (Always (Rcu.step element) (fun s => s.pc = .returned (-1) → s.allocated = [])
        (Rcu.load data headMylist) rcuRun ↔
      Along (Rcu.step element) (fun s e => Rcu.Refused element s e → s.pc = .fill 0)
        (Rcu.load data headMylist) rcuRun) ∧
    (Always (LinkList.step bound) (fun s => s.pc = .returned (-1) → s.allocated = [])
        (LinkList.load a mylist) oks ↔
      Along (LinkList.step bound) (fun s ok => LinkList.Refused bound s ok → s.pc = .kmalloc 0)
        (LinkList.load a mylist) oks) :=
  ⟨Thread01.released_iff ELEMENTS gwl threadRun, Rcu.released_iff element data headMylist rcuRun,
    LinkList.released_iff bound a mylist oks⟩

/-- With the five elements of the sources: `km_init` is refused its second structure, and `start` of
`rcu` and of `link_list` their second node. -/
theorem not_atomic_second :
    ¬Always (Thread01.step 5) (fun s => s.pc = .returned (-1) → s.Released)
        (Thread01.load ⟨.node, .node⟩) [.main true, .main true, .main false] ∧
      ¬Always (Rcu.step ⟨5, by decide⟩) (fun s => s.pc = .returned (-1) → s.allocated = [])
        (Rcu.load (fun _ => 0) ⟨.node, .node⟩) [.start true, .start true, .start false] ∧
      ¬Always (LinkList.step 5) (fun s => s.pc = .returned (-1) → s.allocated = [])
        (LinkList.load (fun _ => 0) ⟨.node, .node⟩) [true, true, false] := by
  decide +kernel

end Lkb.Initialisers
