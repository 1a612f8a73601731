import Lkb.Foundations.Run
import Lkb.Mmap.Driver

/-!
# The character device of `mmap/code.c` and its clients

The steps of `mmap_example_init` and `mmap_example_exit`, and of any number of clients that open the
device, map it, unmap, and close. Clients reach the methods of the driver as long as the device is
registered. A file is released when its descriptor is closed and no mapping of it is left; the
mappings of other files do not hold it back.

`kfree` records each pointer that it is applied to, with whether that pointer was allocated at that
moment. The code never clears `buffer`, and `Phase` is what that comes to in every state of every
run: after the first `kfree` of the buffer, every further one is a double free.
-/

namespace Lkb.Mmap

open Paging Run

variable {M : Machine}

/-- The points of `mmap_example_init`: the call that comes next, or the value it has returned. -/
inductive InitPc
  | registerChrdev
  | kmalloc
  | returned (ret : ℤ)
  deriving DecidableEq

/-- The points of `mmap_example_exit`. -/
inductive ExitPc
  | notBegun
  | unregister
  | returned
  deriving DecidableEq

/-- A `struct file` of the device: not in use, open, or with its descriptor closed and not yet
released. -/
inductive FileState
  | unused
  | opened
  | closed
  deriving DecidableEq

/-- A mapping that `dev_mmap` has established: its file, the block that `buffer` pointed to, and the
frames. -/
structure Established (M : Machine) where
  file : ℕ
  block : M.Word
  frames : Mapping M

/-- The state of the module and its clients. -/
structure State (M : Machine) where
  init : InitPc
  exit : ExitPc
  registered : Bool
  buffer : M.Word
  allocated : List M.Word
  frees : List (M.Word × Bool)
  files : ℕ → FileState
  mappings : List (Established M)
  log : List (Message M)

/-- A step of the module or of a client, with what the kernel returns to it. -/
inductive Event (M : Machine)
  | registerChrdev (ret : ℤ)
  | kmalloc (mem : Option (Buffer M))
  | open (f : ℕ)
  | mmap (f : ℕ) (vma : VmAreaStruct M) (remapped : ℤ)
  | munmap (i : ℕ)
  | close (f : ℕ)
  | release (f : ℕ)
  | exitKfree
  | unregisterChrdev

/-- The global `majorNumber`. -/
def majorNumber : ℤ := 150

namespace State

variable (s : State M)

/-- `printk`. -/
def printk (msgs : List (Message M)) : State M := { s with log := s.log ++ msgs }

/-- `kfree(p)`. -/
def kfree (p : M.Word) : State M :=
  { s with frees := s.frees ++ [(p, decide (p ∈ s.allocated))], allocated := s.allocated.erase p }

/-- `if (buffer) kfree(buffer)`, which both `dev_release` and `mmap_example_exit` do. -/
def freeBuffer : State M := if s.buffer ≠ 0 then s.kfree s.buffer else s

/-- The file changes its state. -/
def setFile (f : ℕ) (st : FileState) : State M := { s with files := Function.update s.files f st }

/-- The dispatch of `dev_mmap`. -/
def dispatchMmap (f : ℕ) (vma : VmAreaStruct M) (remapped : ℤ) : State M :=
  let r := devMmap s.buffer vma remapped
  { s.printk r.log with
    mappings := s.mappings ++ r.mapping.toList.map fun m => ⟨f, s.buffer, m⟩ }

end State

/-- What a step needs in order to be taken. -/
def enabled (s : State M) : Event M → Prop
  | .registerChrdev _ => s.init = .registerChrdev
  | .kmalloc mem => s.init = .kmalloc ∧ ∀ b ∈ mem, b.addr ∉ s.allocated
  | .open f => s.registered = true ∧ s.files f = .unused
  | .mmap f _ _ => s.registered = true ∧ s.files f = .opened
  | .munmap i => i < s.mappings.length
  | .close f => s.files f = .opened
  | .release f => s.registered = true ∧ s.files f = .closed ∧ ∀ m ∈ s.mappings, m.file ≠ f
  | .exitKfree => s.init = .returned 0 ∧ s.exit = .notBegun
  | .unregisterChrdev => s.exit = .unregister

instance (s : State M) : (e : Event M) → Decidable (enabled s e)
  | .registerChrdev _ | .close _ | .unregisterChrdev => inferInstanceAs (Decidable (_ = _))
  | .kmalloc none => decidable_of_iff (s.init = .kmalloc) (by simp [enabled])
  | .kmalloc (some b) =>
    decidable_of_iff (s.init = .kmalloc ∧ b.addr ∉ s.allocated) (by simp [enabled])
  | .open _ | .mmap _ _ _ | .exitKfree => inferInstanceAs (Decidable (_ ∧ _))
  | .munmap _ => inferInstanceAs (Decidable (_ < _))
  | .release f => inferInstanceAs (Decidable (_ ∧ _ ∧ ∀ m ∈ s.mappings, m.file ≠ f))

/-- The state after a step. -/
def effect (s : State M) : Event M → State M
  | .registerChrdev ret =>
    if ret < 0 then { s.printk [.registerFailed ret] with init := .returned ret }
    else { s.printk [.registered majorNumber] with init := .kmalloc, registered := true }
  | .kmalloc none => { s.printk [.allocateFailed] with buffer := 0, init := .returned (-1) }
  | .kmalloc (some b) =>
    { s with buffer := b.addr, allocated := b.addr :: s.allocated, init := .returned 0 }
  | .open f => (s.setFile f .opened).printk [.deviceOpened]
  | .mmap f vma remapped => s.dispatchMmap f vma remapped
  | .munmap i => { s with mappings := s.mappings.eraseIdx i }
  | .close f => s.setFile f .closed
  | .release f => (s.freeBuffer.setFile f .unused).printk [.deviceClosed]
  | .exitKfree => { s.freeBuffer with exit := .unregister }
  | .unregisterChrdev => { s.printk [.goodbye] with registered := false, exit := .returned }

/-- One step of the module or of a client. -/
def step (s : State M) (e : Event M) : Option (State M) :=
  if enabled s e then some (effect s e) else none

/-- The state when the module is loaded. -/
def load (M : Machine) : State M :=
  ⟨.registerChrdev, .notBegun, false, 0, [], [], fun _ => .unused, [], []⟩

variable {s s' : State M} {e : Event M}

theorem step_eq_some : step s e = some s' ↔ enabled s e ∧ s' = effect s e := by
  unfold step
  split_ifs with h
  · simp [h, eq_comm]
  · simp [h]

/-! ## The life of the buffer -/

/-- The phases of a run. `buffer` is `NULL` until `mmap_example_init` returns 0; then it points to
the allocated block, until some `kfree` frees it; from then on it points to free memory, and every
`kfree` but the first is applied to free memory. -/
inductive Phase (s : State M) : Prop
  | unallocated (init : s.init ≠ .returned 0) (buffer : s.buffer = 0)
      (allocated : s.allocated = []) (frees : s.frees = [])
  | live (init : s.init = .returned 0) (buffer : s.buffer ≠ 0)
      (allocated : s.allocated = [s.buffer]) (frees : s.frees = [])
  | freed (n : ℕ) (init : s.init = .returned 0) (buffer : s.buffer ≠ 0)
      (allocated : s.allocated = [])
      (frees : s.frees = (s.buffer, true) :: List.replicate n (s.buffer, false))

theorem phase_load : Phase (load M) := .unallocated nofun rfl rfl rfl

/-- The phase does not depend on anything but the buffer and the frees of it. -/
theorem Phase.congr (h : Phase s) (hi : s'.init = s.init) (hb : s'.buffer = s.buffer)
    (ha : s'.allocated = s.allocated) (hf : s'.frees = s.frees) : Phase s' := by
  cases h with
  | unallocated init buffer allocated frees =>
    exact .unallocated (hi ▸ init) (hb.trans buffer) (ha.trans allocated) (hf.trans frees)
  | live init buffer allocated frees =>
    exact .live (hi.trans init) (hb ▸ buffer) (by rw [ha, hb, allocated]) (hf.trans frees)
  | freed n init buffer allocated frees =>
    exact .freed n (hi.trans init) (hb ▸ buffer) (ha.trans allocated) (by rw [hf, hb, frees])

/-- While `mmap_example_init` has not returned 0, nothing is allocated. -/
theorem Phase.of_init (h : Phase s) (hi : s.init ≠ .returned 0) :
    s.buffer = 0 ∧ s.allocated = [] ∧ s.frees = [] := by
  cases h with
  | unallocated _ buffer allocated frees => exact ⟨buffer, allocated, frees⟩
  | live init => exact absurd init hi
  | freed _ init => exact absurd init hi

/-- The block is allocated exactly from the return of `mmap_example_init` with 0 to the first
`kfree`. -/
theorem Phase.allocated_iff (h : Phase s) :
    s.buffer ≠ 0 ∧ s.buffer ∈ s.allocated ↔ s.init = .returned 0 ∧ s.frees = [] := by
  cases h with
  | unallocated init buffer => simp [init, buffer]
  | live init buffer allocated frees =>
    have hmem : s.buffer ∈ s.allocated := by simp [allocated]
    exact iff_of_true ⟨buffer, hmem⟩ ⟨init, frees⟩
  | freed n init buffer allocated frees => simp [allocated, frees]

/-- `if (buffer) kfree(buffer)` leaves nothing allocated. -/
theorem Phase.freeBuffer (h : Phase s) : Phase s.freeBuffer ∧ s.freeBuffer.allocated = [] := by
  unfold State.freeBuffer State.kfree
  cases h with
  | unallocated init buffer allocated frees =>
    simp only [buffer, ne_eq, not_true_eq_false, if_false]
    exact ⟨.unallocated init buffer allocated frees, allocated⟩
  | live init buffer allocated frees =>
    simp only [buffer, ne_eq, not_false_eq_true, if_true]
    exact ⟨.freed 0 init buffer (by simp [allocated]) (by simp [allocated, frees]),
      by simp [allocated]⟩
  | freed n init buffer allocated frees =>
    simp only [buffer, ne_eq, not_false_eq_true, if_true]
    refine ⟨.freed (n + 1) init buffer (by simp [allocated]) ?_, by simp [allocated]⟩
    simp [allocated, frees, List.replicate_succ']

/-- Every step keeps the phases. -/
theorem Phase.preserved (h : Phase s) (hs : step s e = some s') : Phase s' := by
  obtain ⟨hen, rfl⟩ := step_eq_some.1 hs
  cases e with
  | registerChrdev ret =>
    have hne : s.init ≠ .returned 0 := by rw [hen]; decide
    obtain ⟨hb, ha, hf⟩ := h.of_init hne
    rw [effect]
    split_ifs with hret
    · refine .unallocated (fun hi => ?_) hb ha hf
      cases hi
      omega
    · exact .unallocated nofun hb ha hf
  | kmalloc mem =>
    have hne : s.init ≠ .returned 0 := by rw [hen.1]; decide
    obtain ⟨-, ha, hf⟩ := h.of_init hne
    cases mem with
    | none => exact .unallocated (by simp [effect]) rfl ha hf
    | some b => exact .live rfl b.ne_null (by simp [effect, ha]) hf
  | release f => exact h.freeBuffer.1.congr rfl rfl rfl rfl
  | exitKfree => exact h.freeBuffer.1.congr rfl rfl rfl rfl
  | «open» f => exact h.congr rfl rfl rfl rfl
  | mmap f vma remapped => exact h.congr rfl rfl rfl rfl
  | munmap i => exact h.congr rfl rfl rfl rfl
  | close f => exact h.congr rfl rfl rfl rfl
  | unregisterChrdev => exact h.congr rfl rfl rfl rfl

end Lkb.Mmap
