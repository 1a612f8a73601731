import Lkb.Mmap.System

/-!
# Who frees the buffer of `mmap/code.c`

The buffer is allocated once per load, but freed by every `dev_release` and by `mmap_example_exit`.

* `freed_once_iff`: a load that ends with `mmap_example_exit` frees the buffer exactly once, and
  never free memory, exactly when no client has released a file of the device.
* `reaches_live_iff`: in a run of the module and its clients, `dev_mmap` is dispatched on an
  allocated buffer only, and every mapping stays backed by an allocated block, exactly when no
  mapping is asked for before the allocation or after a `kfree`, and no `kfree` happens under a
  mapping.
-/

namespace Lkb.Mmap

open Paging Run

variable {M : Machine} {s s' : State M} {e : Event M} {es : List (Event M)}

/-! ## The number of frees -/

/-- The step is one of a client. -/
def Event.isClient : Event M → Bool
  | .open _ | .mmap _ _ _ | .munmap _ | .close _ | .release _ => true
  | _ => false

/-- The step is a `dev_release`. -/
def Event.isRelease : Event M → Bool
  | .release _ => true
  | _ => false

/-- Every `kfree` was applied to a pointer that was allocated at that moment, and the buffer was
freed exactly once. -/
def FreedOnce (b : Buffer M) (s : State M) : Prop :=
  (∀ x ∈ s.frees, x.2 = true) ∧ (s.frees.map Prod.fst).count b.addr = 1

theorem State.frees_freeBuffer (hb : s.buffer ≠ 0) :
    s.freeBuffer.frees.length = s.frees.length + 1 ∧ s.freeBuffer.buffer = s.buffer := by
  rw [State.freeBuffer, if_pos hb]
  exact ⟨List.length_append, rfl⟩

/-- A step of a client frees the buffer exactly when it is a release. -/
theorem frees_step (hb : s.buffer ≠ 0) (he : e.isClient) (hs : step s e = some s') :
    s'.frees.length = s.frees.length + (if e.isRelease then 1 else 0) ∧ s'.buffer = s.buffer := by
  obtain ⟨-, rfl⟩ := step_eq_some.1 hs
  cases e with
  | release f => exact State.frees_freeBuffer hb
  | «open» f => exact ⟨rfl, rfl⟩
  | mmap f vma remapped => exact ⟨rfl, rfl⟩
  | munmap i => exact ⟨rfl, rfl⟩
  | close f => exact ⟨rfl, rfl⟩
  | registerChrdev ret => cases he
  | kmalloc mem => cases he
  | exitKfree => cases he
  | unregisterChrdev => cases he

/-- The clients free the buffer as often as they release a file. -/
theorem frees_run (hb : s.buffer ≠ 0) (hes : ∀ e ∈ es, e.isClient) (h : Runs step s es s') :
    s'.frees.length = s.frees.length + es.countP Event.isRelease ∧ s'.buffer = s.buffer := by
  induction es generalizing s with
  | nil =>
    obtain rfl := runs_nil.1 h
    exact ⟨rfl, rfl⟩
  | cons e es ih =>
    obtain ⟨t, ht, h⟩ := runs_cons.1 h
    obtain ⟨hlen, hbuf⟩ := frees_step hb (hes e List.mem_cons_self) ht
    obtain ⟨hlen', hbuf'⟩ :=
      ih (hbuf ▸ hb) (fun e' he' => hes e' (List.mem_cons_of_mem e he')) h
    refine ⟨?_, hbuf'.trans hbuf⟩
    rw [hlen', hlen, List.countP_cons]
    omega

/-- The events of a load: a successful `mmap_example_init`, the clients, and `mmap_example_exit`. -/
def wholeRun (ret : ℤ) (b : Buffer M) (es : List (Event M)) : List (Event M) :=
  [.registerChrdev ret, .kmalloc (some b)] ++ es ++ [.exitKfree, .unregisterChrdev]

/-- After a load, `kfree` was called once for every release and once by `mmap_example_exit`. -/
theorem frees_wholeRun {ret : ℤ} {b : Buffer M} (hes : ∀ e ∈ es, e.isClient)
    (h : Runs step (load M) (wholeRun ret b es) s) :
    s.frees.length = es.countP Event.isRelease + 1 ∧ s.buffer = b.addr := by
  obtain ⟨s₂, h, hexit⟩ := runs_append.1 h
  obtain ⟨s₁, hinit, hclients⟩ := runs_append.1 h
  -- the two steps of `mmap_example_init`
  obtain ⟨t, ht, hinit⟩ := runs_cons.1 hinit
  obtain ⟨u, hu, hinit⟩ := runs_cons.1 hinit
  obtain rfl := runs_nil.1 hinit
  obtain ⟨-, rfl⟩ := step_eq_some.1 ht
  obtain ⟨-, rfl⟩ := step_eq_some.1 hu
  obtain ⟨hlen, hbuf⟩ := frees_run b.ne_null hes hclients
  -- the two steps of `mmap_example_exit`
  obtain ⟨t, ht, hexit⟩ := runs_cons.1 hexit
  obtain ⟨u, hu, hexit⟩ := runs_cons.1 hexit
  obtain rfl := runs_nil.1 hexit
  obtain ⟨-, rfl⟩ := step_eq_some.1 ht
  obtain ⟨-, rfl⟩ := step_eq_some.1 hu
  have hbuf' : s₂.buffer = b.addr := hbuf
  obtain ⟨hlen', hbuf''⟩ := State.frees_freeBuffer (s := s₂) (hbuf' ▸ b.ne_null)
  refine ⟨?_, hbuf''.trans hbuf'⟩
  have hnone : (effect (load M) (.registerChrdev ret)).frees.length = 0 := by
    rw [effect]
    split_ifs <;> rfl
  calc s₂.freeBuffer.frees.length = s₂.frees.length + 1 := hlen'
    _ = es.countP Event.isRelease + 1 := by
      rw [hlen]
      simpa [effect] using hnone

/-- **When the buffer is freed once.** A load that ends with `mmap_example_exit` has freed the
buffer exactly once, and applied `kfree` to allocated memory only, exactly when no client has
released a file of the device. -/
theorem freed_once_iff {ret : ℤ} {b : Buffer M} (hes : ∀ e ∈ es, e.isClient)
    (h : Runs step (load M) (wholeRun ret b es) s) :
    FreedOnce b s ↔ ∀ f, Event.release f ∉ es := by
  obtain ⟨hlen, hbuf⟩ := frees_wholeRun hes h
  have hphase : Phase s :=
    h.invariant' (fun _ _ _ hp hs => hp.preserved hs) phase_load
  have hnone : (∀ f, Event.release f ∉ es) ↔ es.countP Event.isRelease = 0 := by
    rw [List.countP_eq_zero]
    constructor
    · intro hf e he hr
      cases e with
      | release f => exact hf f he
      | _ => cases hr
    · intro hz f hf
      exact hz _ hf rfl
  rw [hnone]
  cases hphase with
  | unallocated _ _ _ frees => simp [frees] at hlen
  | live _ _ _ frees => simp [frees] at hlen
  | freed n _ _ _ frees =>
    rw [frees, List.length_cons, List.length_replicate] at hlen
    rw [FreedOnce, frees, hbuf]
    constructor
    · rintro ⟨-, hcount⟩
      simp only [List.map_cons, List.map_replicate, List.count_cons_self,
        List.count_replicate_self] at hcount
      omega
    · intro hz
      obtain rfl : n = 0 := by omega
      simp

/-- Two clients open the device and one of them maps it; both files are still held at the end. -/
def twoClients : List (Event x8664) := [.open 0, .mmap 0 .twoPages 0, .open 1, .close 0]

theorem freed_once_iff_sample :
    ∃ s, Runs step (load x8664) (wholeRun 0 .sample twoClients) s ∧ FreedOnce .sample s := by
  have hes : ∀ e ∈ twoClients, e.isClient := by simp [twoClients, Event.isClient]
  have hruns : Runs step (load x8664) (wholeRun 0 .sample twoClients) _ := rfl
  exact ⟨_, hruns, (freed_once_iff hes hruns).2 (by simp [twoClients])⟩

/-- One client opens and closes the device before the module is unloaded: a double free. -/
theorem not_freed_once :
    ∃ s, Runs step (load x8664) (wholeRun 0 .sample [.open 0, .close 0, .release 0]) s ∧
      ¬FreedOnce .sample s := by
  refine ⟨_, rfl, fun h => ?_⟩
  have hsecond := h.1 (Buffer.sample.addr, false) (List.mem_cons_of_mem _ List.mem_cons_self)
  cases hsecond

/-! ## Clients and live memory -/

/-- When `dev_mmap` is dispatched, `buffer` is not `NULL` and points to an allocated block. -/
def DispatchLive (s : State M) : Event M → Prop
  | .mmap _ _ _ => s.buffer ≠ 0 ∧ s.buffer ∈ s.allocated
  | _ => True

/-- The block of every established mapping is allocated. -/
def MappingsLive (s : State M) : Prop := ∀ m ∈ s.mappings, m.block ∈ s.allocated

/-- The condition on a step: `dev_mmap` is dispatched only after `mmap_example_init` has returned 0
and before the first `kfree`, and neither `dev_release` nor the `kfree` of `mmap_example_exit` runs
while a mapping is established. -/
def InOrder (s : State M) : Event M → Prop
  | .mmap _ _ _ => s.init = .returned 0 ∧ s.frees = []
  | .release _ | .exitKfree => s.mappings = []
  | _ => True

/-- Freeing the buffer leaves every mapping live exactly when there is none. -/
theorem Phase.mappingsLive_freeBuffer (h : Phase s) :
    MappingsLive s.freeBuffer ↔ s.mappings = [] := by
  have hmap : s.freeBuffer.mappings = s.mappings := by
    unfold State.freeBuffer
    split_ifs <;> rfl
  rw [MappingsLive, hmap, h.freeBuffer.2, List.eq_nil_iff_forall_not_mem]
  simp

/-- From live mappings, a step is dispatched on live memory and leads to live mappings exactly when
it is in order. -/
theorem Phase.inOrder_iff (h : Phase s) (hlive : MappingsLive s) (hs : step s e = some s') :
    DispatchLive s e ∧ MappingsLive s' ↔ InOrder s e := by
  obtain ⟨hen, rfl⟩ := step_eq_some.1 hs
  cases e with
  | mmap f vma remapped =>
    have hmmap : DispatchLive s (.mmap f vma remapped) ↔ InOrder s (.mmap f vma remapped) :=
      h.allocated_iff
    rw [← hmmap, and_iff_left_iff_imp]
    intro hd m hm
    obtain hm | hm := List.mem_append.1 hm
    · exact hlive m hm
    · -- the new mapping is one of the allocated buffer
      obtain ⟨m', -, rfl⟩ := List.mem_map.1 hm
      exact hd.2
  | release f => exact (and_iff_right trivial).trans h.mappingsLive_freeBuffer
  | exitKfree => exact (and_iff_right trivial).trans h.mappingsLive_freeBuffer
  | registerChrdev ret =>
    refine iff_of_true ⟨trivial, ?_⟩ trivial
    rw [effect]
    split_ifs <;> exact hlive
  | kmalloc mem =>
    refine iff_of_true ⟨trivial, fun m hm => ?_⟩ trivial
    cases mem with
    | none => exact hlive m hm
    | some b => exact List.mem_cons_of_mem _ (hlive m hm)
  | munmap i =>
    exact iff_of_true ⟨trivial, fun m hm => hlive m (List.mem_of_mem_eraseIdx hm)⟩ trivial
  | «open» f => exact iff_of_true ⟨trivial, hlive⟩ trivial
  | close f => exact iff_of_true ⟨trivial, hlive⟩ trivial
  | unregisterChrdev => exact iff_of_true ⟨trivial, hlive⟩ trivial

/-- **When clients reach live memory only.** In a run of the module and its clients, `dev_mmap` is
always dispatched on an allocated buffer and every established mapping always refers to an
allocated block, exactly when all steps of the run are in order. -/
theorem reaches_live_iff (es : List (Event M)) :
    Along step DispatchLive (load M) es ∧ Always step MappingsLive (load M) es ↔
      Along step InOrder (load M) es := by
  refine along_and_always_iff (I := fun s => Phase s ∧ MappingsLive s) (fun s h => h.2)
    (fun s e s' h hs => ?_) ⟨phase_load, nofun⟩
  have hiff := h.1.inOrder_iff h.2 hs
  exact ⟨hiff, fun hG => ⟨h.1.preserved hs, (hiff.2 hG).2⟩⟩

/-- Runs that reach memory which is not allocated: a mapping is asked for before the buffer is
allocated, after the allocation has failed, and after another client has released its file; and a
mapping is established when another client releases its file, and when the module is unloaded. -/
theorem not_reaches_live :
    ¬Along step DispatchLive (load x8664) [.registerChrdev 0, .open 0, .mmap 0 .twoPages 0] ∧
    ¬Along step DispatchLive (load x8664)
      [.registerChrdev 0, .kmalloc none, .open 0, .mmap 0 .twoPages 0] ∧
    ¬Along step DispatchLive (load x8664)
      [.registerChrdev 0, .kmalloc (some .sample), .open 0, .close 0, .release 0, .open 1,
        .mmap 1 .twoPages 0] ∧
    ¬Always step MappingsLive (load x8664)
      [.registerChrdev 0, .kmalloc (some .sample), .open 0, .mmap 0 .twoPages 0, .open 1, .close 1,
        .release 1] ∧
    ¬Always step MappingsLive (load x8664)
      [.registerChrdev 0, .kmalloc (some .sample), .open 0, .mmap 0 .twoPages 0, .exitKfree] := by
  refine ⟨?_, ?_, ?_, ?_, ?_⟩
  · rintro ⟨-, -, h, -⟩
    exact h.1 rfl
  · rintro ⟨-, -, -, h, -⟩
    exact h.1 rfl
  · rintro ⟨-, -, -, -, -, -, h, -⟩
    cases h.2
  · rintro ⟨-, -, -, -, -, -, -, h⟩
    cases h _ List.mem_cons_self
  · rintro ⟨-, -, -, -, -, h⟩
    cases h _ List.mem_cons_self

end Lkb.Mmap
