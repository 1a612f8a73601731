import Lkb.Foundations.Paging
import Mathlib.Data.Int.Notation

/-!
# The driver method `dev_mmap`

`dev_mmap` of `mmap/code.c` on an arbitrary machine (`Paging.Machine`). All its arithmetic is on
`unsigned long`: the page offset that the client chose is shifted left, added to the address of the
kernel buffer, taken through the linear map and shifted right to a frame number, and the frames
from there on are handed to `remap_pfn_range`. What that call returns is an argument of `devMmap`;
when it returns 0, it has mapped `size` bytes of consecutive frames.

`Confined` says that a successful call gives the client the part of the buffer that it asked for,
and nothing else. The code checks neither the offset nor the length, so it does not hold
(`not_confined`); `confined_iff` says for which requests it does.
-/

namespace Lkb.Mmap

open Paging Machine

/-- The global `SIZE`: the number of bytes of the kernel buffer. -/
def SIZE : ℕ := 4096

/-- The error number that `dev_mmap` returns, negated, when the mapping fails. -/
def EAGAIN : ℤ := 11

/-- The lines that the module prints. -/
inductive Message (M : Machine)
  | registerFailed (ret : ℤ)
  | registered (majorNumber : ℤ)
  | allocateFailed
  | deviceOpened
  | deviceClosed
  | nothingForMmap (size offset : M.Word)
  | mmapFailed
  | mmapPassed
  | goodbye

/-- The fields of a `struct vm_area_struct` that the driver reads. The kernel hands out areas of
whole pages that are not empty. -/
structure VmAreaStruct (M : Machine) where
  vmStart : M.Word
  vmEnd : M.Word
  vmPgoff : M.Word
  vmPageProt : M.Word
  start_aligned : Aligned vmStart
  end_aligned : Aligned vmEnd
  start_lt : vmStart.toNat < vmEnd.toNat

/-- What a call of `dev_mmap` does: the value it returns, the mapping it has established and the
lines it prints. -/
structure DevMmap (M : Machine) where
  rc : ℤ
  mapping : Option (Mapping M)
  log : List (Message M)

variable {M : Machine}

/-- `dev_mmap(filep, vma)` with the value of the global `buffer`, where `remap_pfn_range` returns
`remapped`. -/
def devMmap (buffer : M.Word) (vma : VmAreaStruct M) (remapped : ℤ) : DevMmap M :=
  let offset := vma.vmPgoff <<< M.pageShift
  let size := vma.vmEnd - vma.vmStart
  let pfn := virtToPhys (buffer + offset) >>> M.pageShift
  if remapped ≠ 0 then
    ⟨-EAGAIN, none, [.nothingForMmap size offset, .mmapFailed]⟩
  else
    ⟨0, some ⟨vma.vmStart, pfn, size, vma.vmPageProt⟩, [.nothingForMmap size offset, .mmapPassed]⟩

/-- The call succeeds exactly when `remap_pfn_range` does. -/
theorem devMmap_rc {buffer : M.Word} {vma : VmAreaStruct M} {remapped : ℤ} :
    (devMmap buffer vma remapped).rc = 0 ↔ remapped = 0 := by
  unfold devMmap EAGAIN
  split_ifs with h
  · simp [h]
  · simpa using h

/-! ## The request, in exact integers -/

namespace VmAreaStruct

variable (vma : VmAreaStruct M)

/-- The offset into the device that the client asked for. -/
def offset : ℕ := vma.vmPgoff.toNat * M.pageSize

/-- The number of bytes that the client asked for. -/
def size : ℕ := vma.vmEnd.toNat - vma.vmStart.toNat

theorem pageSize_dvd_size : M.pageSize ∣ vma.size := Nat.dvd_sub vma.end_aligned vma.start_aligned

/-- The code's subtraction computes the exact size. -/
theorem size_eq : (vma.vmEnd - vma.vmStart).toNat = vma.size :=
  BitVec.toNat_sub_of_le (BitVec.le_def.2 vma.start_lt.le)

/-- The code's shift computes the exact offset, up to wrap-around. -/
theorem offset_eq : vma.vmPgoff <<< M.pageShift = BitVec.ofNat _ vma.offset := by
  apply BitVec.eq_of_toNat_eq
  rw [BitVec.toNat_shiftLeft, Nat.shiftLeft_eq, BitVec.toNat_ofNat]
  rfl

end VmAreaStruct

/-! ## Confinement -/

/-- The address of a live buffer of `SIZE` bytes: not `NULL`, the first one of a page, and covered
by the linear map. -/
structure Buffer (M : Machine) where
  addr : M.Word
  ne_null : addr ≠ 0
  aligned : Aligned addr
  covers : Covers addr SIZE

/-- The physical address of the byte `i` of the buffer. -/
def Buffer.phys (b : Buffer M) (i : ℕ) : ℕ := (virtToPhys (b.addr + BitVec.ofNat _ i)).toNat

/-- If the call returns 0, the request lies inside the buffer, each user byte is backed by the byte
of the buffer that it asks for, and no byte outside the buffer is exposed. -/
def Confined (b : Buffer M) (vma : VmAreaStruct M) (remapped : ℤ) : Prop :=
  (devMmap b.addr vma remapped).rc = 0 →
    vma.offset + vma.size ≤ SIZE ∧
    ∃ m, (devMmap b.addr vma remapped).mapping = some m ∧
      (∀ k < vma.size, m.translate (vma.vmStart.toNat + k) = some (b.phys (vma.offset + k))) ∧
      ∀ a p, m.translate a = some p → ∃ i < SIZE, p = b.phys i

/-- A mapping of `dev_mmap` backs the bytes of a request inside the buffer as asked for. -/
theorem translate_devMmap {b : Buffer M} {vma : VmAreaStruct M} {m : Mapping M}
    (hm : (devMmap b.addr vma 0).mapping = some m) (h : vma.offset + vma.size ≤ SIZE) {k : ℕ}
    (hk : k < vma.size) :
    m.translate (vma.vmStart.toNat + k) = some (b.phys (vma.offset + k)) := by
  have hphys : (virtToPhys (b.addr + BitVec.ofNat _ vma.offset)).toNat
      = (virtToPhys b.addr).toNat + vma.offset := virtToPhys_toNat b.covers (by omega)
  have haligned : Aligned (virtToPhys (b.addr + BitVec.ofNat _ vma.offset)) := by
    unfold Aligned
    rw [hphys]
    exact Nat.dvd_add b.aligned.virtToPhys (Nat.dvd_mul_left _ _)
  obtain rfl : _ = m := Option.some.inj hm
  rw [Mapping.translate_eq vma.start_aligned haligned (by rw [vma.offset_eq])
    (by simpa only [vma.size_eq] using hk), hphys, Buffer.phys,
    virtToPhys_toNat b.covers (by omega), Nat.add_assoc]

/-- **Which requests are confined.** A call of `dev_mmap` is confined to the buffer exactly when
`remap_pfn_range` fails or the pages of the request are pages of the buffer. -/
theorem confined_iff (b : Buffer M) (vma : VmAreaStruct M) (remapped : ℤ) :
    Confined b vma remapped ↔
      remapped ≠ 0 ∨ vma.vmPgoff.toNat + vma.size / M.pageSize ≤ SIZE / M.pageSize := by
  have hpages : vma.vmPgoff.toNat + vma.size / M.pageSize ≤ SIZE / M.pageSize ↔
      vma.offset + vma.size ≤ SIZE := by
    rw [Nat.le_div_iff_mul_le pageSize_pos, Nat.add_mul, Nat.div_mul_cancel vma.pageSize_dvd_size]
    rfl
  rw [hpages]
  constructor
  · intro h
    by_cases hr : remapped = 0
    · exact .inr (h (devMmap_rc.2 hr)).1
    · exact .inl hr
  · intro h hrc
    obtain rfl := devMmap_rc.1 hrc
    have hin : vma.offset + vma.size ≤ SIZE := h.resolve_left (by simp)
    refine ⟨hin, _, rfl, fun k hk => translate_devMmap rfl hin hk, fun a p hp => ?_⟩
    -- an address of the mapping is one of the user bytes
    obtain ⟨hle, hlt⟩ := Mapping.maps_of_translate hp
    simp only [vma.size_eq] at hle hlt
    obtain ⟨k, rfl⟩ := Nat.exists_eq_add_of_le hle
    rw [translate_devMmap rfl hin (by omega)] at hp
    exact ⟨vma.offset + k, by omega, (Option.some.inj hp).symm⟩

/-- A 64-bit machine with pages of 4096 bytes. -/
def x8664 : Machine := ⟨64, 12, by decide, 0xffff888000000000, by decide⟩

/-- A buffer of the machine `x8664`. -/
def Buffer.sample : Buffer x8664 := ⟨.ofNat _ 0xffff888001000000, by decide, by decide, by decide⟩

/-- Two pages from the start of the device. -/
def VmAreaStruct.twoPages : VmAreaStruct x8664 where
  vmStart := .ofNat _ 0x7f0000000000
  vmEnd := .ofNat _ 0x7f0000002000
  vmPgoff := .ofNat _ 0
  vmPageProt := .ofNat _ 0
  start_aligned := by decide
  end_aligned := by decide
  start_lt := by decide

/-- One page at the page offset `2 ^ 52`. -/
def VmAreaStruct.farPage : VmAreaStruct x8664 where
  vmStart := .ofNat _ 0x7f0000000000
  vmEnd := .ofNat _ 0x7f0000001000
  vmPgoff := .ofNat _ 0x10000000000000
  vmPageProt := .ofNat _ 0
  start_aligned := by decide
  end_aligned := by decide
  start_lt := by decide

/-- Two pages from the start of the device reach beyond the buffer. A page at the page offset `2 ^
52` is beyond it too, but the shift wraps around, and the client gets the first page of the buffer.
-/
theorem not_confined :
    ¬Confined Buffer.sample .twoPages 0 ∧ ¬Confined Buffer.sample .farPage 0 := by
  constructor
  · intro h
    exact absurd (h rfl).1 (by decide)
  · intro h
    exact absurd (h rfl).1 (by decide)

end Lkb.Mmap
