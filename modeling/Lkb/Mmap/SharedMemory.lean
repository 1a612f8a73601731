import Lkb.Foundations.Refinement
import Lkb.Mmap.System
import Mathlib.Data.List.InsertIdx

/-!
# The device of `mmap/code.c` as shared memory

What the driver is for: clients that map the device share the bytes of one buffer. `SharedFile` is
this purpose as a system of its own, a file of `SIZE` bytes with views on parts of it. The clients
of the device (such as `mmap/mmap.c`) load and store bytes through the frames that `dev_mmap` has
handed to `remap_pfn_range`, while the rest of the kernel writes to memory that it owns.

As long as the clients ask only for pages of the buffer and the buffer is not freed, the device
refines the file (`device_refines_file`): what any client loads is what was last stored at that byte
of the device, by whichever client and through whichever mapping.
-/

namespace Lkb.Mmap

open Paging Machine Run

/-- A byte. -/
abbrev Byte := BitVec 8

/-! ## The file -/

/-- A file of `SIZE` bytes, and the views on it: where each one begins, and its length. -/
structure SharedFile where
  content : ℕ → Byte
  views : List (ℕ × ℕ)

/-- What can be done with a shared file, the views named by their position. -/
inductive FileAction
  | map (offset size : ℕ)
  | unmap (i : ℕ)
  | write (i k : ℕ) (v : Byte)
  | read (i k : ℕ)

namespace SharedFile

/-- The byte of the file at the position `k` of a view. -/
def place (f : SharedFile) (i k : ℕ) : Option ℕ :=
  (f.views[i]?).bind fun w => if k < w.2 then some (w.1 + k) else none

/-- One step of the file. -/
def step (f : SharedFile) : FileAction → Option SharedFile
  | .map offset size =>
    if offset + size ≤ SIZE then some { f with views := f.views ++ [(offset, size)] } else none
  | .unmap i =>
    if i < f.views.length then some { f with views := f.views.eraseIdx i } else none
  | .write i k v =>
    (f.place i k).map fun o => { f with content := Function.update f.content o v }
  | .read i k => (f.place i k).map fun _ => f

end SharedFile

/-! ## The device -/

variable {M : Machine}

/-- The physical address of the byte `i` of a block. -/
def phys (block : M.Word) (i : ℕ) : ℕ := (virtToPhys (block + BitVec.ofNat _ i)).toNat

/-- The module with its clients, and the physical memory. -/
structure System (M : Machine) where
  driver : State M
  memory : ℕ → Byte

/-- A step of the driver or of a client, an access of a client to the byte `k` of its mapping `i`,
or a write of the rest of the kernel. -/
inductive Action (M : Machine)
  | driver (e : Event M)
  | store (i k : ℕ) (v : Byte)
  | load (i k : ℕ)
  | other (p : ℕ) (v : Byte)

/-- The physical address of the byte `k` of the mapping `i`. -/
def State.resolve (s : State M) (i k : ℕ) : Option ℕ :=
  (s.mappings[i]?).bind fun m => m.frames.translate (m.frames.addr.toNat + k)

/-- The physical address is inside a block that the driver has allocated, so that the rest of the
kernel does not write to it. -/
def State.Owns (s : State M) (p : ℕ) : Prop := ∃ block ∈ s.allocated, ∃ i < SIZE, p = phys block i

instance (s : State M) (p : ℕ) : Decidable (s.Owns p) :=
  inferInstanceAs (Decidable (∃ block ∈ s.allocated, ∃ i < SIZE, p = phys block i))

namespace System

/-- One step of the system. -/
def step (s : System M) : Action M → Option (System M)
  | .driver e => (Mmap.step s.driver e).map fun d => { s with driver := d }
  | .store i k v =>
    (s.driver.resolve i k).map fun p => { s with memory := Function.update s.memory p v }
  | .load i k => (s.driver.resolve i k).map fun _ => s
  | .other p v =>
    if s.driver.Owns p then none else some { s with memory := Function.update s.memory p v }

end System

/-- What a step means for the file. -/
def Action.label : Action M → List FileAction
  | .driver (.mmap _ vma remapped) => if remapped = 0 then [.map vma.offset vma.size] else []
  | .driver (.munmap i) => [.unmap i]
  | .store i k v => [.write i k v]
  | .load i k => [.read i k]
  | _ => []

/-- The view that a mapping gives on the buffer. -/
def Established.view (b : Buffer M) (m : Established M) : ℕ × ℕ :=
  (m.frames.pfn.toNat * M.pageSize - b.phys 0, m.frames.size.toNat)

/-- The mapping backs the bytes of its view, and these are bytes of the buffer. -/
structure Backed (b : Buffer M) (m : Established M) : Prop where
  le : (m.view b).1 + (m.view b).2 ≤ SIZE
  translate : ∀ k < (m.view b).2,
    m.frames.translate (m.frames.addr.toNat + k) = some (b.phys ((m.view b).1 + k))

/-- The device holds the file: its buffer is live and has the bytes of the file, and its mappings
are the views. -/
structure Holds (b : Buffer M) (s : System M) (f : SharedFile) : Prop where
  init : s.driver.init = .returned 0
  buffer : s.driver.buffer = b.addr
  allocated : s.driver.allocated = [b.addr]
  views : f.views = s.driver.mappings.map (Established.view b)
  backed : ∀ m ∈ s.driver.mappings, Backed b m
  content : ∀ i < SIZE, s.memory (b.phys i) = f.content i

/-- The bytes of the buffer are consecutive in the physical memory. -/
theorem Buffer.phys_eq (b : Buffer M) {i : ℕ} (hi : i < SIZE) : b.phys i = b.phys 0 + i := by
  have h0 : b.phys 0 = (virtToPhys b.addr).toNat := virtToPhys_toNat b.covers (by decide)
  rw [h0]
  exact virtToPhys_toNat b.covers hi

/-- A request for pages of the buffer is backed by the bytes that it asks for. -/
theorem backed_devMmap {b : Buffer M} {vma : VmAreaStruct M} {m : Mapping M} {n : ℕ}
    (hm : (devMmap b.addr vma 0).mapping = some m) (h : vma.offset + vma.size ≤ SIZE) :
    (⟨n, b.addr, m⟩ : Established M).view b = (vma.offset, vma.size) ∧
      Backed b ⟨n, b.addr, m⟩ := by
  have htranslate : ∀ k < vma.size,
      m.translate (vma.vmStart.toNat + k) = some (b.phys (vma.offset + k)) :=
    fun k hk => translate_devMmap hm h hk
  have hsize : m.size.toNat = vma.size ∧ m.addr = vma.vmStart := by
    obtain rfl : _ = m := Option.some.inj hm
    exact ⟨vma.size_eq, rfl⟩
  have hpos : 0 < vma.size := Nat.sub_pos_of_lt vma.start_lt
  -- the first byte of the mapping is the first byte of its first frame
  have hfirst : m.pfn.toNat * M.pageSize = b.phys vma.offset := by
    have h0 := htranslate 0 hpos
    have hmaps : m.Maps vma.vmStart.toNat := ⟨by rw [hsize.2], by rw [hsize.2, hsize.1]; omega⟩
    have halign : vma.vmStart.toNat % M.pageSize = 0 :=
      Nat.mod_eq_zero_of_dvd vma.start_aligned
    rw [Nat.add_zero, Nat.add_zero, Mapping.translate, if_pos hmaps, hsize.2, Nat.sub_self,
      Nat.zero_div, Nat.add_zero, halign, Nat.add_zero] at h0
    exact Option.some.inj h0
  have hview : (⟨n, b.addr, m⟩ : Established M).view b = (vma.offset, vma.size) := by
    rw [Established.view, hfirst, b.phys_eq (by omega), Nat.add_sub_cancel_left, hsize.1]
  refine ⟨hview, ?_, ?_⟩
  · rw [hview]
    exact h
  · rw [hview, hsize.2]
    exact htranslate

variable {b : Buffer M} {s s' : System M} {f : SharedFile}

/-- The device and the file find the same byte. -/
theorem Holds.resolve (h : Holds b s f) (i k : ℕ) :
    s.driver.resolve i k = (f.place i k).map b.phys := by
  rw [State.resolve, SharedFile.place, h.views, List.getElem?_map]
  cases hm : s.driver.mappings[i]? with
  | none => rfl
  | some m =>
    have hbacked := h.backed m (List.mem_of_getElem? hm)
    simp only [Option.map_some, Option.bind_some]
    split_ifs with hk
    · exact hbacked.translate k hk
    · have hmaps : ¬m.frames.Maps (m.frames.addr.toNat + k) := by
        intro hmaps
        have := hmaps.2
        simp only [Established.view] at hk
        omega
      rw [Mapping.translate, if_neg hmaps]
      rfl

/-- A store through a mapping writes the byte of the file. -/
theorem Holds.store (h : Holds b s f) {o : ℕ} (ho : o < SIZE) (v : Byte) :
    Holds b { s with memory := Function.update s.memory (b.phys o) v }
      { f with content := Function.update f.content o v } := by
  refine ⟨h.init, h.buffer, h.allocated, h.views, h.backed, fun i hi => ?_⟩
  by_cases hio : i = o
  · simp [hio]
  · have hne : b.phys i ≠ b.phys o := by
      rw [b.phys_eq hi, b.phys_eq ho]
      omega
    simpa [Function.update_of_ne hio, Function.update_of_ne hne] using h.content i hi

/-- A step of the driver that leaves the buffer and the mappings alone. -/
theorem Holds.congr (h : Holds b s f) {d : State M} (hinit : d.init = s.driver.init)
    (hbuffer : d.buffer = s.driver.buffer) (hallocated : d.allocated = s.driver.allocated)
    (hmappings : d.mappings = s.driver.mappings) : Holds b { s with driver := d } f where
  init := hinit.trans h.init
  buffer := hbuffer.trans h.buffer
  allocated := hallocated.trans h.allocated
  views := by rw [h.views, hmappings]
  backed := by
    rw [hmappings]
    exact h.backed
  content := h.content

/-- `dev_mmap` gives the client a view of the file, if `remap_pfn_range` succeeds. -/
theorem Holds.mmap (h : Holds b s f) (file : ℕ) {vma : VmAreaStruct M} {remapped : ℤ}
    (hin : remapped = 0 → vma.offset + vma.size ≤ SIZE) :
    ∃ f', Runs SharedFile.step f (Action.label (.driver (.mmap file vma remapped))) f' ∧
      Holds b { s with driver := s.driver.dispatchMmap file vma remapped } f' := by
  by_cases hr : remapped = 0
  · subst hr
    obtain ⟨m, hm⟩ : ∃ m, (devMmap b.addr vma 0).mapping = some m := ⟨_, rfl⟩
    obtain ⟨hview, hbacked⟩ := backed_devMmap (n := file) hm (hin rfl)
    have hmappings : (s.driver.dispatchMmap file vma 0).mappings =
        s.driver.mappings ++ [⟨file, b.addr, m⟩] := by
      simp [State.dispatchMmap, h.buffer, hm]
    have hmap : f.step (.map vma.offset vma.size) =
        some { f with views := f.views ++ [(vma.offset, vma.size)] } := if_pos (hin rfl)
    refine ⟨_, runs_cons.2 ⟨_, hmap, runs_nil.2 rfl⟩, h.init, h.buffer, h.allocated, ?_, ?_,
      h.content⟩
    · rw [hmappings, List.map_append, List.map_singleton, hview, h.views]
    · rw [hmappings]
      intro m' hm'
      obtain hm' | hm' := List.mem_append.1 hm'
      · exact h.backed m' hm'
      · exact List.mem_singleton.1 hm' ▸ hbacked
  · refine ⟨f, by simp [Action.label, hr], h.congr rfl rfl rfl ?_⟩
    simp [State.dispatchMmap, devMmap, hr]

/-- Unmapping drops the view. -/
theorem Holds.munmap (h : Holds b s f) {i : ℕ} (hi : i < s.driver.mappings.length) :
    ∃ f', f.step (.unmap i) = some f' ∧
      Holds b { s with driver := effect s.driver (.munmap i) } f' := by
  have hlt : i < f.views.length := by simpa [h.views] using hi
  refine ⟨_, if_pos hlt, h.init, h.buffer, h.allocated, ?_, fun m hm => ?_, h.content⟩
  · rw [h.views, effect, List.eraseIdx_map]
  · exact h.backed m (List.mem_of_mem_eraseIdx hm)

/-- The first page of the device, mapped at a given page of the client. -/
def VmAreaStruct.firstPage (page : ℕ) (h : page < 16) : VmAreaStruct x8664 where
  vmStart := .ofNat _ (0x7f0000000000 + page * 0x1000)
  vmEnd := .ofNat _ (0x7f0000001000 + page * 0x1000)
  vmPgoff := .ofNat _ 0
  vmPageProt := .ofNat _ 0
  start_aligned := by revert page; decide
  end_aligned := by revert page; decide
  start_lt := by revert page; decide

/-- The client of `mmap/mmap.c` stores an `A`, and another one loads it through its own mapping. -/
def sharedSample : List (Action x8664) :=
  [.driver (.mmap 0 (.firstPage 0 (by decide)) 0), .driver (.mmap 1 (.firstPage 3 (by decide)) 0),
    .store 0 0 65, .load 1 0]

end Lkb.Mmap
