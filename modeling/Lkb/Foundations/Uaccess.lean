import Mathlib.Algebra.Group.Nat.Defs
import Mathlib.Data.Nat.Notation
import Mathlib.Tactic.Common

/-!
# Access to user memory

The memory that a system call reaches through `copy_from_user` and `copy_to_user`, byte by byte, on
a 64-bit machine: for each address a byte, and whether the process may read and write there. Words
are stored in little-endian order.

What the two calls do is known by their contract (`Copies`). They return how many bytes they have
not copied, and have copied all the bytes before those and no others; the process had access to what
was copied; and if it has access to everything, they copy everything. Where it has not, they may
give up early.
-/

namespace Lkb.Uaccess

/-- The memory of a process. -/
structure UserMemory where
  byte : BitVec 64 → BitVec 8
  readable : BitVec 64 → Bool
  writable : BitVec 64 → Bool

/-- The bytes of a word, the lowest first. -/
def toBytes (w : BitVec 64) : List (BitVec 8) :=
  (List.range 8).map fun i => w.extractLsb' (8 * i) 8

/-- The number that a list of bytes stands for, the lowest first. -/
def ofBytes : List (BitVec 8) → ℕ
  | [] => 0
  | b :: bs => b.toNat + 256 * ofBytes bs

namespace UserMemory

/-- The memory with the given bytes stored from an address on. -/
def store (m : UserMemory) (a : BitVec 64) : List (BitVec 8) → UserMemory
  | [] => m
  | b :: bs => { m with byte := Function.update m.byte a b }.store (a + 1) bs

/-- The `n` bytes from an address on. -/
def bytesAt (m : UserMemory) (a : BitVec 64) (n : ℕ) : List (BitVec 8) :=
  (List.range n).map fun i => m.byte (a + BitVec.ofNat 64 i)

/-- The `n` bytes from an address on can be read. -/
def ReadableAt (m : UserMemory) (a : BitVec 64) (n : ℕ) : Prop :=
  ∀ i < n, m.readable (a + BitVec.ofNat 64 i)

instance (m : UserMemory) (a : BitVec 64) (n : ℕ) : Decidable (m.ReadableAt a n) :=
  inferInstanceAs (Decidable (∀ i < n, _))

/-- The `n` bytes from an address on can be written. -/
def WritableAt (m : UserMemory) (a : BitVec 64) (n : ℕ) : Prop :=
  ∀ i < n, m.writable (a + BitVec.ofNat 64 i)

instance (m : UserMemory) (a : BitVec 64) (n : ℕ) : Decidable (m.WritableAt a n) :=
  inferInstanceAs (Decidable (∀ i < n, _))

end UserMemory

/-- The two calls of the kernel, and what they guarantee. `copyFromUser m a n` is the bytes that
were copied, and how many of the `n` were not; `copyToUser m a bs` is the memory after the call, and
how many of the bytes `bs` were not copied. -/
structure Copies where
  copyFromUser : UserMemory → BitVec 64 → ℕ → List (BitVec 8) × ℕ
  copyToUser : UserMemory → BitVec 64 → List (BitVec 8) → UserMemory × ℕ
  from_bytes : ∀ (m : UserMemory) (a : BitVec 64) (n : ℕ),
    (copyFromUser m a n).1 = m.bytesAt a (n - (copyFromUser m a n).2)
  from_readable : ∀ (m : UserMemory) (a : BitVec 64) (n : ℕ),
    m.ReadableAt a (n - (copyFromUser m a n).2)
  from_complete : ∀ (m : UserMemory) (a : BitVec 64) (n : ℕ),
    m.ReadableAt a n → (copyFromUser m a n).2 = 0
  to_store : ∀ (m : UserMemory) (a : BitVec 64) (bs : List (BitVec 8)),
    (copyToUser m a bs).1 = m.store a (bs.take (bs.length - (copyToUser m a bs).2))
  to_writable : ∀ (m : UserMemory) (a : BitVec 64) (bs : List (BitVec 8)),
    m.WritableAt a (bs.length - (copyToUser m a bs).2)
  to_complete : ∀ (m : UserMemory) (a : BitVec 64) (bs : List (BitVec 8)),
    m.WritableAt a bs.length → (copyToUser m a bs).2 = 0

/-! ## Numbers -/

variable {l l' l₁ l₂ : List (BitVec 8)}

theorem ofBytes_append : ofBytes (l₁ ++ l₂) = ofBytes l₁ + 256 ^ l₁.length * ofBytes l₂ := by
  induction l₁ with
  | nil => simp [ofBytes]
  | cons b l₁ ih =>
    rw [List.cons_append, ofBytes, ih, ofBytes, List.length_cons, Nat.pow_succ', Nat.mul_add,
      Nat.mul_assoc, Nat.add_assoc]

theorem ofBytes_lt : ofBytes l < 256 ^ l.length := by
  induction l with
  | nil => simp [ofBytes]
  | cons b l ih =>
    have hb : b.toNat < 256 := b.isLt
    rw [ofBytes, List.length_cons, Nat.pow_succ]
    omega

/-- The number determines the bytes. -/
theorem ofBytes_inj (hlen : l.length = l'.length) : ofBytes l = ofBytes l' ↔ l = l' := by
  refine ⟨fun h => ?_, fun h => by rw [h]⟩
  induction l generalizing l' with
  | nil => exact (List.length_eq_zero_iff.1 hlen.symm).symm
  | cons b l ih =>
    cases l' with
    | nil => cases hlen
    | cons b' l' =>
      have hb : b.toNat < 256 := b.isLt
      have hb' : b'.toNat < 256 := b'.isLt
      simp only [ofBytes] at h
      obtain rfl : b = b' := BitVec.eq_of_toNat_eq (by omega)
      rw [ih (Nat.succ.inj hlen) (by omega)]

/-! ## Addresses -/

theorem add_ofNat_succ (a : BitVec 64) (i : ℕ) :
    a + BitVec.ofNat 64 (i + 1) = a + 1 + BitVec.ofNat 64 i := by
  rw [Nat.add_comm, BitVec.ofNat_add, BitVec.add_assoc]
  rfl

theorem add_ofNat_add (a : BitVec 64) (i j : ℕ) :
    a + BitVec.ofNat 64 (i + j) = a + BitVec.ofNat 64 i + BitVec.ofNat 64 j := by
  rw [BitVec.ofNat_add, BitVec.add_assoc]

/-- A property of a range of addresses, as one of its two parts. -/
theorem forall_range_add {P : BitVec 64 → Prop} {a : BitVec 64} {n k : ℕ} :
    (∀ i < n + k, P (a + BitVec.ofNat 64 i)) ↔
      (∀ i < n, P (a + BitVec.ofNat 64 i)) ∧
        ∀ i < k, P (a + BitVec.ofNat 64 n + BitVec.ofNat 64 i) := by
  constructor
  · refine fun h => ⟨fun i hi => h i (by omega), fun i hi => ?_⟩
    rw [← add_ofNat_add]
    exact h (n + i) (by omega)
  · rintro ⟨h, h'⟩ i hi
    by_cases hin : i < n
    · exact h i hin
    · obtain ⟨j, rfl⟩ := Nat.exists_eq_add_of_le (Nat.le_of_not_lt hin)
      rw [add_ofNat_add]
      exact h' j (by omega)

theorem add_ofNat_inj {a : BitVec 64} {i j : ℕ} (hi : i < 2 ^ 64) (hj : j < 2 ^ 64) :
    a + BitVec.ofNat 64 i = a + BitVec.ofNat 64 j ↔ i = j := by
  rw [BitVec.add_right_inj, ← BitVec.toNat_inj, BitVec.toNat_ofNat, BitVec.toNat_ofNat,
    Nat.mod_eq_of_lt hi, Nat.mod_eq_of_lt hj]

/-! ## Copies -/

namespace UserMemory

variable {m : UserMemory} {a x : BitVec 64} {n k i : ℕ} {bs : List (BitVec 8)}

@[simp] theorem length_bytesAt (m : UserMemory) (a : BitVec 64) (n : ℕ) :
    (m.bytesAt a n).length = n := by
  simp [bytesAt]

theorem bytesAt_add (m : UserMemory) (a : BitVec 64) (n k : ℕ) :
    m.bytesAt a (n + k) = m.bytesAt a n ++ m.bytesAt (a + BitVec.ofNat 64 n) k := by
  simp [bytesAt, List.range_add, add_ofNat_add]

theorem readableAt_add : m.ReadableAt a (n + k) ↔
    m.ReadableAt a n ∧ m.ReadableAt (a + BitVec.ofNat 64 n) k :=
  forall_range_add (P := fun x => m.readable x)

theorem writableAt_add : m.WritableAt a (n + k) ↔
    m.WritableAt a n ∧ m.WritableAt (a + BitVec.ofNat 64 n) k :=
  forall_range_add (P := fun x => m.writable x)

/-- The bytes outside of what is stored. -/
theorem byte_store_of_ne (h : ∀ i < bs.length, x ≠ a + BitVec.ofNat 64 i) :
    (m.store a bs).byte x = m.byte x := by
  induction bs generalizing m a with
  | nil => rfl
  | cons b bs ih =>
    have hx : x ≠ a := by simpa using h 0 (Nat.succ_pos _)
    refine (ih fun i hi => ?_).trans (Function.update_of_ne hx _ _)
    rw [← add_ofNat_succ]
    exact h (i + 1) (Nat.succ_lt_succ hi)

/-- The bytes that are stored. -/
theorem byte_store (hlen : bs.length ≤ 2 ^ 64) (hi : i < bs.length) :
    (m.store a bs).byte (a + BitVec.ofNat 64 i) = bs[i] := by
  induction bs generalizing m a i with
  | nil => cases hi
  | cons b bs ih =>
    rw [store]
    rw [List.length_cons] at hlen
    cases i with
    | zero =>
      rw [byte_store_of_ne]
      · simp
      · intro i hi h
        rw [← add_ofNat_succ, add_ofNat_inj (by omega) (by omega)] at h
        omega
    | succ i =>
      rw [add_ofNat_succ]
      exact ih (by omega) (Nat.lt_of_succ_lt_succ hi)

end UserMemory

namespace Copies

variable (U : Copies) {m : UserMemory} {a : BitVec 64} {n : ℕ} {bs : List (BitVec 8)}

/-- A complete `copy_from_user`. -/
theorem copyFromUser_of_readableAt (h : m.ReadableAt a n) :
    U.copyFromUser m a n = (m.bytesAt a n, 0) := by
  have hleft := U.from_complete m a n h
  have hbytes := U.from_bytes m a n
  rw [hleft, Nat.sub_zero] at hbytes
  exact Prod.ext hbytes hleft

/-- A `copy_from_user` that is not complete says so. -/
theorem copyFromUser_of_not (h : ¬m.ReadableAt a n) : (U.copyFromUser m a n).2 ≠ 0 := by
  intro hleft
  have hreadable := U.from_readable m a n
  rw [hleft] at hreadable
  exact h hreadable

/-- The calls that copy everything or nothing. -/
def allOrNothing : Copies where
  copyFromUser m a n := if m.ReadableAt a n then (m.bytesAt a n, 0) else ([], n)
  copyToUser m a bs := if m.WritableAt a bs.length then (m.store a bs, 0) else (m, bs.length)
  from_bytes m a n := by
    split_ifs with h
    · rfl
    · simp [UserMemory.bytesAt]
  from_readable m a n := by
    split_ifs with h
    · exact h
    · simp [UserMemory.ReadableAt]
  from_complete m a n h := by rw [if_pos h]
  to_store m a bs := by
    split_ifs with h
    · simp
    · simp [UserMemory.store]
  to_writable m a bs := by
    split_ifs with h
    · exact h
    · simp [UserMemory.WritableAt]
  to_complete m a bs h := by rw [if_pos h]

theorem allOrNothing_copyToUser_of_not (h : ¬m.WritableAt a bs.length) :
    allOrNothing.copyToUser m a bs = (m, bs.length) := if_neg h

end Copies

end Lkb.Uaccess
