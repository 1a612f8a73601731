import Mathlib.Data.BitVec
import Mathlib.Tactic.Ring

/-!
# Pages, the linear map and mappings of frames

A machine has words of some width and pages of `2 ^ pageShift` bytes. The kernel sees the memory
that it allocates through a linear map, so that `virtToPhys` subtracts a constant. A `Mapping` gives
a range of user addresses the bytes of consecutive page frames.

* `virtToPhys_toNat`: inside a block that the linear map covers, physical addresses are consecutive;
* `Mapping.translate_eq`: a mapping of the frames of a page-aligned physical address backs the
  user bytes, in order, by the bytes at that address.
-/

namespace Lkb.Paging

/-- A machine: the width of its words, the size of its pages and its linear map. -/
structure Machine where
  width : ℕ
  pageShift : ℕ
  pageShift_lt : pageShift < width
  pageOffset : BitVec width
  pageOffset_aligned : 2 ^ pageShift ∣ pageOffset.toNat

namespace Machine

variable (M : Machine)

/-- A machine word: an address, a size or a frame number. -/
abbrev Word := BitVec M.width

/-- The number of bytes of a page. -/
def pageSize : ℕ := 2 ^ M.pageShift

variable {M}

theorem pageSize_pos : 0 < M.pageSize := Nat.two_pow_pos _

theorem pageSize_dvd : M.pageSize ∣ 2 ^ M.width := pow_dvd_pow 2 M.pageShift_lt.le

/-- The address is the first one of a page. -/
def Aligned (x : M.Word) : Prop := M.pageSize ∣ x.toNat

instance (x : M.Word) : Decidable (Aligned x) := inferInstanceAs (Decidable (_ ∣ _))

/-- The physical address of an address of the linear map. -/
def virtToPhys (x : M.Word) : M.Word := x - M.pageOffset

theorem Aligned.virtToPhys {x : M.Word} (h : Aligned x) : Aligned (virtToPhys x) := by
  unfold Aligned Machine.virtToPhys
  have hsub : M.pageSize ∣ 2 ^ M.width - M.pageOffset.toNat :=
    Nat.dvd_sub pageSize_dvd M.pageOffset_aligned
  rw [BitVec.toNat_sub]
  exact (Nat.dvd_mod_iff pageSize_dvd).2 (Nat.dvd_add hsub h)

theorem virtToPhys_add (x y : M.Word) : virtToPhys (x + y) = virtToPhys x + y := by
  unfold virtToPhys
  ring

/-- The physical addresses of a block do not wrap around. -/
def Covers (x : M.Word) (size : ℕ) : Prop := (virtToPhys x).toNat + size ≤ 2 ^ M.width

instance (x : M.Word) (size : ℕ) : Decidable (Covers x size) := inferInstanceAs (Decidable (_ ≤ _))

/-- The bytes of a block have consecutive physical addresses. -/
theorem virtToPhys_toNat {x : M.Word} {size i : ℕ} (h : Covers x size) (hi : i < size) :
    (virtToPhys (x + BitVec.ofNat _ i)).toNat = (virtToPhys x).toNat + i := by
  unfold Covers at h
  rw [virtToPhys_add, BitVec.toNat_add, BitVec.toNat_ofNat, Nat.add_mod_mod]
  exact Nat.mod_eq_of_lt (by omega)

end Machine

variable {M : Machine}

open Machine

/-- A user mapping of consecutive frames: `size` bytes from the address `addr` on are backed by the
frames from `pfn` on, with the protection `prot`. -/
structure Mapping (M : Machine) where
  addr : M.Word
  pfn : M.Word
  size : M.Word
  prot : M.Word

namespace Mapping

/-- The address is inside the mapping. -/
def Maps (m : Mapping M) (a : ℕ) : Prop := m.addr.toNat ≤ a ∧ a < m.addr.toNat + m.size.toNat

instance (m : Mapping M) (a : ℕ) : Decidable (m.Maps a) := inferInstanceAs (Decidable (_ ∧ _))

/-- The physical address that backs a user address. -/
def translate (m : Mapping M) (a : ℕ) : Option ℕ :=
  if m.Maps a then
    some ((m.pfn.toNat + (a - m.addr.toNat) / M.pageSize) * M.pageSize + a % M.pageSize)
  else none

theorem maps_of_translate {m : Mapping M} {a p : ℕ} (h : m.translate a = some p) : m.Maps a := by
  by_contra hm
  rw [translate, if_neg hm] at h
  cases h

/-- A mapping of the frames of a page-aligned physical address backs the user bytes, in order, by
the bytes at that address. -/
theorem translate_eq {m : Mapping M} (haddr : Aligned m.addr) {p : M.Word} (hp : Aligned p)
    (hpfn : m.pfn = p >>> M.pageShift) {k : ℕ} (hk : k < m.size.toNat) :
    m.translate (m.addr.toNat + k) = some (p.toNat + k) := by
  obtain ⟨q, hq⟩ := hp
  obtain ⟨r, hr⟩ := haddr
  have hframe : m.pfn.toNat = q := by
    rw [hpfn, BitVec.toNat_ushiftRight, Nat.shiftRight_eq_div_pow, hq]
    exact Nat.mul_div_cancel_left q pageSize_pos
  have hmaps : m.Maps (m.addr.toNat + k) := ⟨by omega, by omega⟩
  have hsplit := Nat.div_add_mod k M.pageSize
  rw [translate, if_pos hmaps, hframe, Nat.add_sub_cancel_left, hr, Nat.mul_add_mod, hq]
  congr 1
  calc (q + k / M.pageSize) * M.pageSize + k % M.pageSize
      = M.pageSize * q + (M.pageSize * (k / M.pageSize) + k % M.pageSize) := by ring
    _ = M.pageSize * q + k := by rw [hsplit]

end Mapping

end Lkb.Paging
