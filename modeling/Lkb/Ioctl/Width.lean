import Lkb.Ioctl.Driver

/-!
# The width of the variable of `ioctl`

The client of `ioctl/ioctl.c` passes the address of an `int`, and the driver copies an
`unsigned long`. So `QUERY_SET_VARIABLES` also reads the four bytes behind the `int`, and
`QUERY_GET_VARIABLES` also writes them. The two sides agree exactly when these bytes are such that
one does not notice (`agrees_iff_clear`). Where the bytes behind the `int` can not be written, the
kernel does not have to write to the `int` either.
-/

namespace Lkb.Ioctl

open Uaccess

/-- The size of an `int`. -/
def sizeofInt : ℕ := 4

variable {U : Copies} {m m' : UserMemory} {arg : BitVec 64}

/-- The `int` at an address. -/
def intAt (m : UserMemory) (arg : BitVec 64) : BitVec 32 :=
  BitVec.ofNat 32 (ofBytes (m.bytesAt arg sizeofInt))

/-- An `int` lives at the address, in memory that the process may read and write. -/
structure Lives (m : UserMemory) (arg : BitVec 64) : Prop where
  readable : m.ReadableAt arg sizeofInt
  writable : m.WritableAt arg sizeofInt

/-- The address behind the `int`. -/
def past (arg : BitVec 64) : BitVec 64 := arg + BitVec.ofNat 64 sizeofInt

/-- The four bytes behind the `int`, if the process may read them all. -/
def behind (m : UserMemory) (arg : BitVec 64) : Option (List (BitVec 8)) :=
  if m.ReadableAt (past arg) sizeofInt then some (m.bytesAt (past arg) sizeofInt) else none

/-- The client and the driver agree on the width of the variable, in the memory `m` of the client:
`QUERY_SET_VARIABLES` returns and receives the same as in the memory `m'`, and receives the value of
the `int`; `QUERY_GET_VARIABLES` writes to the `int` alone, and writes the variable `a` to it. -/
structure Agrees (U : Copies) (m m' : UserMemory) (arg : BitVec 64) : Prop where
  set_rc : (devIoctl U QUERY_SET_VARIABLES arg m).rc = (devIoctl U QUERY_SET_VARIABLES arg m').rc
  set_x : (devIoctl U QUERY_SET_VARIABLES arg m).x = (devIoctl U QUERY_SET_VARIABLES arg m').x
  set_int : 0 ≤ (intAt m arg).toInt →
    ∃ x, (devIoctl U QUERY_SET_VARIABLES arg m).x = some x ∧ (x.toNat : ℤ) = (intAt m arg).toInt
  get_frame : ∀ y, (∀ i < sizeofInt, y ≠ arg + BitVec.ofNat 64 i) →
    (devIoctl U QUERY_GET_VARIABLES arg m).user.byte y = m.byte y
  get_int : (intAt (devIoctl U QUERY_GET_VARIABLES arg m).user arg).toInt = a.toNat

/-- What the two sides need of the bytes behind the `int`: they are the same in the other memory;
they can be read and are 0, unless the `int` is negative; and they can be written and are 0, unless
the `int` is what would be written. -/
structure Clear (m m' : UserMemory) (arg : BitVec 64) : Prop where
  same : behind m arg = behind m' arg
  zero : 0 ≤ (intAt m arg).toInt → behind m arg = some [0, 0, 0, 0]
  stored : m.WritableAt (past arg) sizeofInt ∧ m.bytesAt (past arg) sizeofInt = [0, 0, 0, 0] ∨
    (intAt m arg).toInt = a.toNat

/-! ## `QUERY_SET_VARIABLES` -/

/-- What the driver receives, by the bytes behind the `int`. -/
def received (n : ℕ) : Option (List (BitVec 8)) → ℤ × Option (BitVec 64)
  | none => (-EACCES, none)
  | some t => (0, some (BitVec.ofNat 64 (n + 2 ^ 32 * ofBytes t)))

theorem set_eq_received (h : m.ReadableAt arg sizeofInt) :
    ((devIoctl U QUERY_SET_VARIABLES arg m).rc, (devIoctl U QUERY_SET_VARIABLES arg m).x) =
      received (ofBytes (m.bytesAt arg sizeofInt)) (behind m arg) := by
  have hrange : m.ReadableAt arg sizeofLong ↔ m.ReadableAt (past arg) sizeofInt :=
    (UserMemory.readableAt_add (n := sizeofInt) (k := sizeofInt)).trans (and_iff_right h)
  rw [devIoctl, if_neg (by decide), if_neg (by decide), if_pos rfl, behind]
  by_cases hbehind : m.ReadableAt (past arg) sizeofInt
  · have hbytes : m.bytesAt arg sizeofLong =
        m.bytesAt arg sizeofInt ++ m.bytesAt (past arg) sizeofInt :=
      m.bytesAt_add arg sizeofInt sizeofInt
    rw [U.copyFromUser_of_readableAt (hrange.2 hbehind), hbytes, if_pos hbehind]
    simp only [received, ofBytes_append, UserMemory.length_bytesAt]
    rfl
  · have hleft := U.copyFromUser_of_not (mt hrange.1 hbehind)
    generalize U.copyFromUser m arg sizeofLong = r at hleft ⊢
    obtain ⟨bytes, left⟩ := r
    rw [if_neg hbehind]
    simp only [if_pos (show left ≠ 0 from hleft), received]

/-- The driver tells all different bytes behind the `int` apart. -/
theorem received_inj {n : ℕ} {t t' : Option (List (BitVec 8))} (hn : n < 2 ^ 32)
    (ht : ∀ l ∈ t, l.length = sizeofInt) (ht' : ∀ l ∈ t', l.length = sizeofInt) :
    received n t = received n t' ↔ t = t' := by
  refine ⟨fun h => ?_, fun h => by rw [h]⟩
  cases t with
  | none =>
    cases t' with
    | none => rfl
    | some l' => cases h
  | some l =>
    cases t' with
    | none => cases h
    | some l' =>
      have hl := ht l rfl
      have hl' := ht' l' rfl
      have hlt := ofBytes_lt (l := l)
      have hlt' := ofBytes_lt (l := l')
      rw [hl] at hlt
      rw [hl'] at hlt'
      simp only [received, Prod.mk.injEq, Option.some.injEq, true_and] at h
      have hnat := congrArg BitVec.toNat h
      simp only [sizeofInt] at hlt hlt'
      rw [BitVec.toNat_ofNat, BitVec.toNat_ofNat, Nat.mod_eq_of_lt (by omega),
        Nat.mod_eq_of_lt (by omega)] at hnat
      rw [(ofBytes_inj (hl.trans hl'.symm)).1 (by omega)]

theorem length_of_mem_behind : ∀ l ∈ behind m arg, l.length = sizeofInt := by
  intro l hl
  rw [behind] at hl
  split_ifs at hl
  · obtain rfl := Option.some.inj hl
    exact m.length_bytesAt (past arg) sizeofInt
  · cases hl

theorem ofBytes_int_lt (m : UserMemory) (arg : BitVec 64) :
    ofBytes (m.bytesAt arg sizeofInt) < 2 ^ 32 := by
  have hlt := ofBytes_lt (l := m.bytesAt arg sizeofInt)
  rwa [UserMemory.length_bytesAt] at hlt

theorem toNat_intAt (m : UserMemory) (arg : BitVec 64) :
    (intAt m arg).toNat = ofBytes (m.bytesAt arg sizeofInt) := by
  rw [intAt, BitVec.toNat_ofNat, Nat.mod_eq_of_lt (ofBytes_int_lt m arg)]

/-- The result depends on the `int` alone exactly when the bytes behind it are the same. -/
theorem set_eq_iff (h : Lives m arg) (h' : Lives m' arg)
    (hint : m.bytesAt arg sizeofInt = m'.bytesAt arg sizeofInt) :
    (devIoctl U QUERY_SET_VARIABLES arg m).rc = (devIoctl U QUERY_SET_VARIABLES arg m').rc ∧
        (devIoctl U QUERY_SET_VARIABLES arg m).x = (devIoctl U QUERY_SET_VARIABLES arg m').x ↔
      behind m arg = behind m' arg := by
  rw [← Prod.mk.injEq, set_eq_received h.readable, set_eq_received h'.readable, ← hint]
  exact received_inj (ofBytes_int_lt m arg) length_of_mem_behind length_of_mem_behind

/-- The driver receives the `int` exactly when the bytes behind it can be read and are 0. -/
theorem set_int_iff (h : Lives m arg) (hnonneg : 0 ≤ (intAt m arg).toInt) :
    (∃ x, (devIoctl U QUERY_SET_VARIABLES arg m).x = some x ∧ (x.toNat : ℤ) = (intAt m arg).toInt) ↔
      behind m arg = some [0, 0, 0, 0] := by
  have hx : (devIoctl U QUERY_SET_VARIABLES arg m).x =
      (received (intAt m arg).toNat (behind m arg)).2 := by
    rw [toNat_intAt, ← set_eq_received h.readable]
  have hint : (intAt m arg).toInt = (intAt m arg).toNat := by
    rw [BitVec.toInt_eq_toNat_cond] at hnonneg ⊢
    split_ifs at hnonneg ⊢ <;> omega
  have hlen : ∀ l ∈ behind m arg, l.length = sizeofInt := length_of_mem_behind
  rw [hx, hint]
  cases hb : behind m arg with
  | none => simp [received]
  | some t =>
    have ht : t.length = sizeofInt := hlen t hb
    have hlt := ofBytes_lt (l := t)
    have hint_lt : (intAt m arg).toNat < 2 ^ 32 := (intAt m arg).isLt
    rw [ht] at hlt
    simp only [sizeofInt] at hlt
    have hzero : ofBytes t = ofBytes [0, 0, 0, 0] ↔ t = [0, 0, 0, 0] := ofBytes_inj ht
    simp only [received, Option.some.injEq, exists_eq_left', BitVec.toNat_ofNat, Int.natCast_inj]
    rw [Nat.mod_eq_of_lt (by omega), ← hzero, show ofBytes [0, 0, 0, 0] = 0 from rfl]
    omega

/-! ## `QUERY_GET_VARIABLES` -/

/-- The number of bytes of the variable `a` that reach the client. -/
def copied (U : Copies) (m : UserMemory) (arg : BitVec 64) : ℕ :=
  sizeofLong - (U.copyToUser m arg (toBytes a)).2

theorem get_user (U : Copies) (arg : BitVec 64) (m : UserMemory) :
    (devIoctl U QUERY_GET_VARIABLES arg m).user =
      m.store arg ((toBytes a).take (copied U m arg)) := by
  refine Eq.trans ?_ (U.to_store m arg (toBytes a))
  rw [devIoctl, if_pos rfl]
  obtain ⟨user, left⟩ := U.copyToUser m arg (toBytes a)
  simp only
  split_ifs <;> rfl

theorem copied_of_writable (U : Copies) (h : Lives m arg)
    (hw : m.WritableAt (past arg) sizeofInt) : copied U m arg = sizeofLong := by
  have hw' : m.WritableAt arg (toBytes a).length :=
    (UserMemory.writableAt_add (n := sizeofInt) (k := sizeofInt)).2 ⟨h.writable, hw⟩
  rw [copied, U.to_complete m arg (toBytes a) hw', Nat.sub_zero]

/-- An implementation that gives up at once, where it can not copy everything. -/
theorem copied_allOrNothing (hw : ¬m.WritableAt (past arg) sizeofInt) :
    copied .allOrNothing m arg = 0 := by
  have hw' : ¬m.WritableAt arg (toBytes a).length := fun h =>
    hw ((UserMemory.writableAt_add (n := sizeofInt) (k := sizeofInt)).1 h).2
  rw [copied, Copies.allOrNothing_copyToUser_of_not hw']
  rfl

/-- The bytes from the `int` on after the call. -/
theorem byte_get {i : ℕ} (hi : i < sizeofLong) :
    (devIoctl U QUERY_GET_VARIABLES arg m).user.byte (arg + BitVec.ofNat 64 i) =
      if i < copied U m arg then if i = 0 then 14 else 0 else m.byte (arg + BitVec.ofNat 64 i) := by
  have hbytes : ∀ i (hi : i < (toBytes a).length), (toBytes a)[i] = if i = 0 then 14 else 0 := by
    decide
  have hlen : ((toBytes a).take (copied U m arg)).length = copied U m arg := by
    rw [List.length_take, Nat.min_eq_left]
    exact Nat.sub_le _ _
  have hlong : copied U m arg ≤ 8 := Nat.sub_le _ _
  rw [sizeofLong] at hi
  rw [get_user]
  split_ifs with hreach h0
  · rw [UserMemory.byte_store (by omega) (by omega), List.getElem_take, hbytes, if_pos h0]
  · rw [UserMemory.byte_store (by omega) (by omega), List.getElem_take, hbytes, if_neg h0]
  · refine UserMemory.byte_store_of_ne fun j hj he => ?_
    rw [add_ofNat_inj (by omega) (by omega)] at he
    omega

/-- All other bytes after the call. -/
theorem byte_get_of_ne {y : BitVec 64} (hy : ∀ i < sizeofLong, y ≠ arg + BitVec.ofNat 64 i) :
    (devIoctl U QUERY_GET_VARIABLES arg m).user.byte y = m.byte y := by
  rw [get_user]
  refine UserMemory.byte_store_of_ne fun i hi => hy i ?_
  rw [List.length_take] at hi
  exact Nat.lt_of_lt_of_le hi (Nat.min_le_right _ _)

/-- The `int` is the variable of the driver. -/
theorem intAt_eq_a_iff :
    (intAt m arg).toInt = a.toNat ↔
      ∀ i < sizeofInt, m.byte (arg + BitVec.ofNat 64 i) = if i = 0 then 14 else 0 := by
  have hint : (intAt m arg).toInt = a.toNat ↔ m.bytesAt arg sizeofInt = [14, 0, 0, 0] := by
    have hbytes : ofBytes (m.bytesAt arg sizeofInt) = ofBytes [14, 0, 0, 0] ↔
        m.bytesAt arg sizeofInt = [14, 0, 0, 0] := ofBytes_inj (m.length_bytesAt arg sizeofInt)
    rw [← hbytes, ← toNat_intAt, BitVec.toInt_eq_toNat_cond]
    have hlt := (intAt m arg).isLt
    simp only [show ofBytes [14, 0, 0, 0] = 14 from rfl, show a.toNat = 14 from rfl]
    split_ifs <;> omega
  rw [hint, UserMemory.bytesAt, show [14, 0, 0, 0] =
    (List.range sizeofInt).map fun i => if i = 0 then (14 : BitVec 8) else 0 from rfl,
    List.map_inj_left]
  simp only [List.mem_range]

/-- The bytes behind the `int`, one by one. -/
theorem bytesAt_past_eq_zero_iff :
    m.bytesAt (past arg) sizeofInt = [0, 0, 0, 0] ↔
      ∀ i < sizeofInt, m.byte (arg + BitVec.ofNat 64 (sizeofInt + i)) = 0 := by
  rw [UserMemory.bytesAt, show [0, 0, 0, 0] =
    (List.range sizeofInt).map fun _ => (0 : BitVec 8) from rfl, List.map_inj_left]
  simp only [List.mem_range, past, add_ofNat_add]

/-- The client finds the variable of the driver in its `int`, if all of it was copied or it was
there before. -/
theorem get_int (h : copied U m arg = sizeofLong ∨ (intAt m arg).toInt = a.toNat) :
    (intAt (devIoctl U QUERY_GET_VARIABLES arg m).user arg).toInt = a.toNat := by
  rw [intAt_eq_a_iff] at h ⊢
  intro i hi
  rw [byte_get (by rw [sizeofLong]; rw [sizeofInt] at hi; omega)]
  rcases h with hall | hbefore
  · rw [if_pos]
    rw [hall, sizeofLong]
    rw [sizeofInt] at hi
    omega
  · rw [hbefore i hi, ite_self]

/-- Where nothing was copied, it must have been there before. -/
theorem int_of_get_int (h : copied U m arg = 0)
    (hget : (intAt (devIoctl U QUERY_GET_VARIABLES arg m).user arg).toInt = a.toNat) :
    (intAt m arg).toInt = a.toNat := by
  rwa [get_user, h] at hget

/-- Nothing but the `int` is changed, if the bytes behind it are 0. -/
theorem get_frame (hzero : m.bytesAt (past arg) sizeofInt = [0, 0, 0, 0]) {y : BitVec 64}
    (hy : ∀ i < sizeofInt, y ≠ arg + BitVec.ofNat 64 i) :
    (devIoctl U QUERY_GET_VARIABLES arg m).user.byte y = m.byte y := by
  rw [bytesAt_past_eq_zero_iff] at hzero
  by_cases hreach : ∃ i < sizeofLong, y = arg + BitVec.ofNat 64 i
  · obtain ⟨i, hi, rfl⟩ := hreach
    have hle : sizeofInt ≤ i := Nat.le_of_not_lt fun hlt => hy i hlt rfl
    obtain ⟨j, rfl⟩ := Nat.exists_eq_add_of_le hle
    have hne : sizeofInt + j ≠ 0 := by rw [sizeofInt]; omega
    rw [byte_get hi, if_neg hne]
    rw [sizeofLong, sizeofInt] at hi
    rw [hzero j (by rw [sizeofInt]; omega), ite_self]
  · exact byte_get_of_ne fun i hi he => hreach ⟨i, hi, he⟩

/-- Where everything was copied, they must be. -/
theorem zero_of_get_frame (h : copied U m arg = sizeofLong)
    (hframe : ∀ y, (∀ i < sizeofInt, y ≠ arg + BitVec.ofNat 64 i) →
      (devIoctl U QUERY_GET_VARIABLES arg m).user.byte y = m.byte y) :
    m.bytesAt (past arg) sizeofInt = [0, 0, 0, 0] := by
  rw [bytesAt_past_eq_zero_iff]
  intro i hi
  rw [sizeofInt] at hi
  have hne : ∀ j < sizeofInt,
      arg + BitVec.ofNat 64 (sizeofInt + i) ≠ arg + BitVec.ofNat 64 j := by
    intro j hj he
    rw [sizeofInt] at hj he
    rw [add_ofNat_inj (by omega) (by omega)] at he
    omega
  have hlong : sizeofInt + i < sizeofLong := by rw [sizeofLong, sizeofInt]; omega
  rw [← hframe _ hne, byte_get hlong, h, if_pos hlong, if_neg (by rw [sizeofInt]; omega)]

/-! ## The two sides -/

/-- In either case, the bytes behind the `int` are 0. -/
theorem Clear.bytesAt_past (h : Clear m m' arg) :
    m.bytesAt (past arg) sizeofInt = [0, 0, 0, 0] := by
  rcases h.stored with ⟨-, hzero⟩ | hint
  · exact hzero
  · have hbehind := h.zero (by rw [hint]; exact Int.natCast_nonneg _)
    rw [behind] at hbehind
    split_ifs at hbehind
    exact Option.some.inj hbehind

theorem Clear.agrees (h : Lives m arg) (h' : Lives m' arg)
    (hint : m.bytesAt arg sizeofInt = m'.bytesAt arg sizeofInt) (hclear : Clear m m' arg)
    (U : Copies) : Agrees U m m' arg := by
  obtain ⟨hrc, hx⟩ := (set_eq_iff h h' hint).2 hclear.same
  exact ⟨hrc, hx, fun hnonneg => (set_int_iff h hnonneg).2 (hclear.zero hnonneg),
    fun y hy => get_frame hclear.bytesAt_past hy,
    get_int (hclear.stored.imp_left fun hw => copied_of_writable U h hw.1)⟩

/-- An agreement gives what `QUERY_SET_VARIABLES` needs; the rest is what `QUERY_GET_VARIABLES`
does. -/
theorem Agrees.clear (h : Lives m arg) (h' : Lives m' arg)
    (hint : m.bytesAt arg sizeofInt = m'.bytesAt arg sizeofInt) (hag : Agrees U m m' arg)
    (hstored : m.WritableAt (past arg) sizeofInt ∧
        m.bytesAt (past arg) sizeofInt = [0, 0, 0, 0] ∨ (intAt m arg).toInt = a.toNat) :
    Clear m m' arg :=
  ⟨(set_eq_iff h h' hint).1 ⟨hag.set_rc, hag.set_x⟩,
    fun hnonneg => (set_int_iff h hnonneg).1 (hag.set_int hnonneg), hstored⟩

theorem Agrees.stored_of_writable (h : Lives m arg) (hag : Agrees U m m' arg)
    (hw : m.WritableAt (past arg) sizeofInt) :
    m.WritableAt (past arg) sizeofInt ∧ m.bytesAt (past arg) sizeofInt = [0, 0, 0, 0] :=
  ⟨hw, zero_of_get_frame (copied_of_writable U h hw) hag.get_frame⟩

/-- **When the widths agree.** For all memories of the client in which its `int` lives at the
address and has the same bytes: the client and the driver agree on the width of the variable, on
every kernel, exactly when the four bytes behind the `int` do not matter. Where these can be
written, this holds of each kernel alone. -/
theorem agrees_iff_clear (m m' : UserMemory) (arg : BitVec 64) (h : Lives m arg)
    (h' : Lives m' arg) (hint : m.bytesAt arg sizeofInt = m'.bytesAt arg sizeofInt) :
    ((∀ U, Agrees U m m' arg) ↔ Clear m m' arg) ∧
      (m.WritableAt (past arg) sizeofInt → ∀ U, Agrees U m m' arg ↔ Clear m m' arg) := by
  refine ⟨⟨fun hall => ?_, fun hclear => hclear.agrees h h' hint⟩, fun hw U => ⟨fun hag => ?_,
    fun hclear => hclear.agrees h h' hint U⟩⟩
  · have hag := hall .allOrNothing
    refine hag.clear h h' hint ?_
    by_cases hw : m.WritableAt (past arg) sizeofInt
    · exact .inl (hag.stored_of_writable h hw)
    · exact .inr (int_of_get_int (copied_allOrNothing hw) hag.get_int)
  · exact hag.clear h h' hint (.inl (hag.stored_of_writable h hw))

/-- The memory of a client whose `int` at the address 4096 is 140, with the given byte behind it. -/
def clientSample (next : BitVec 8) : UserMemory where
  byte y := if y = 4096 then 140 else if y = 4100 then next else 0
  readable _ := true
  writable _ := true

theorem lives_clientSample (next : BitVec 8) : Lives (clientSample next) 4096 :=
  ⟨fun _ _ => rfl, fun _ _ => rfl⟩

/-- The bytes behind the `int` are 0. -/
theorem agrees_iff_clear_sample :
    Agrees .allOrNothing (clientSample 0) (clientSample 0) 4096 := by
  have hiff := agrees_iff_clear (clientSample 0) (clientSample 0) 4096 (lives_clientSample 0)
    (lives_clientSample 0) rfl
  exact hiff.1.2 ⟨rfl, fun _ => by decide +kernel, .inl ⟨fun _ _ => rfl, by decide +kernel⟩⟩ _

/-- The byte behind the `int` is 1: the driver receives 4294967436, and sets the byte to 0. -/
theorem not_agrees_dirty :
    (Lives (clientSample 1) 4096 ∧ Lives (clientSample 0) 4096 ∧
        (clientSample 1).bytesAt 4096 sizeofInt = (clientSample 0).bytesAt 4096 sizeofInt) ∧
      ∀ U, (devIoctl U QUERY_SET_VARIABLES 4096 (clientSample 1)).x = some 4294967436 ∧
        (devIoctl U QUERY_GET_VARIABLES 4096 (clientSample 1)).user.byte 4100 = 0 ∧
        ¬Agrees U (clientSample 1) (clientSample 0) 4096 := by
  refine ⟨⟨lives_clientSample 1, lives_clientSample 0, by decide +kernel⟩, fun U => ?_⟩
  have hx : ∀ next, (devIoctl U QUERY_SET_VARIABLES 4096 (clientSample next)).x =
      (received 140 (behind (clientSample next) 4096)).2 := by
    intro next
    exact congrArg Prod.snd (set_eq_received (lives_clientSample next).readable)
  have hx1 : (devIoctl U QUERY_SET_VARIABLES 4096 (clientSample 1)).x = some 4294967436 := by
    rw [hx]
    decide +kernel
  have hx0 : (devIoctl U QUERY_SET_VARIABLES 4096 (clientSample 0)).x = some 140 := by
    rw [hx]
    decide +kernel
  have hcopied : copied U (clientSample 1) 4096 = sizeofLong :=
    copied_of_writable U (lives_clientSample 1) fun _ _ => rfl
  refine ⟨hx1, ?_, fun h => ?_⟩
  · have hbyte : (devIoctl U QUERY_GET_VARIABLES 4096 (clientSample 1)).user.byte
        (4096 + BitVec.ofNat 64 4) = _ := byte_get (by decide)
    rwa [hcopied] at hbyte
  · have hsame := h.set_x
    rw [hx1, hx0] at hsame
    cases hsame

end Lkb.Ioctl
