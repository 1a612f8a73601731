import Lkb.Foundations.CircularList

/-!
# Reading a list without its lock

The entries of the list at `h` have keys that grow along the list. A reader goes from entry to entry
along the `next` links while others add entries at the end, take entries off, or put an entry in the
place of another one, with the `_rcu` variants of the operations. An entry that was taken off keeps
its `next` link, so a reader that stands on it finds its way back.

`Trail m h key K l gone` is what such a reader relies on: the list has the entries `l`, and from
every entry that is on the list or in `gone`, the `next` link leads to the head, or to an entry of
the two with a greater key (`Trail.next`). Among the entries with a key below `K`, it does not lead
past one that is still on the list (`Trail.covers`). Each operation has one lemma.
-/

namespace Lkb.RcuList

open CircularList

variable {α : Type*} {m m' : Links α} {h x y : α} {key : α → ℕ} {K : ℕ} {l l₁ l₂ gone : List α}

/-- From `x`, the `next` link leads to the head or forward, to one of the entries. -/
def Ahead (m : Links α) (h : α) (key : α → ℕ) (entries : List α) (x : α) : Prop :=
  ∃ y, m.next x = .node y ∧ (y = h ∨ y ∈ entries ∧ key x < key y)

/-- From `x`, the `next` link does not lead past an entry of `l` with a key below `K`. -/
def Covers (m : Links α) (h : α) (key : α → ℕ) (K : ℕ) (l : List α) (x : α) : Prop :=
  ∀ y ∈ l, key y < K → key x < key y → ∃ z, m.next x = .node z ∧ z ≠ h ∧ key z ≤ key y

/-- The list has the entries `l`, and a reader that stands on one of them or on one of `gone` finds
its way. -/
structure Trail (m : Links α) (h : α) (key : α → ℕ) (K : ℕ) (l gone : List α) : Prop where
  ring : IsRing m h l
  sorted : l.Pairwise fun x y => key x < key y
  off : ∀ x ∈ gone, x ∉ h :: l
  ahead : ∀ x ∈ gone, Ahead m h key (l ++ gone) x
  covered : ∀ x ∈ gone, Covers m h key K l x

/-- A list that nothing was taken off. -/
theorem trail_nil (hr : IsRing m h l) (hs : l.Pairwise fun x y => key x < key y) :
    Trail m h key K l [] :=
  ⟨hr, hs, nofun, nofun, nofun⟩

/-- The reader may forget the entries that were taken off before it began. -/
theorem Trail.forget (ht : Trail m h key K l gone) {K' : ℕ} : Trail m h key K' l [] :=
  trail_nil ht.ring ht.sorted

/-! ## The links along the list -/

theorem Trail.first (ht : Trail m h key K l gone) :
    ∃ y, m.next h = .node y ∧ (y = h ∨ y ∈ l) := by
  refine ⟨_, ht.ring.next_head, ?_⟩
  exact List.mem_cons.1 (headD_mem_cons l h)

/-- The entry that the head is linked to has the least key. -/
theorem Trail.first_le (ht : Trail m h key K l gone) (hy : y ∈ l) :
    ∃ z, m.next h = .node z ∧ z ≠ h ∧ key z ≤ key y := by
  cases l with
  | nil => cases hy
  | cons z l =>
    refine ⟨z, ht.ring.next_head, fun e => ?_, ?_⟩
    · exact (List.nodup_cons.1 ht.ring.nodup).1 (e ▸ List.mem_cons_self)
    · obtain rfl | hy := List.mem_cons.1 hy
      · exact Nat.le_refl _
      · exact Nat.le_of_lt (List.rel_of_pairwise_cons ht.sorted hy)

/-- From an entry of the list, the link leads forward. -/
theorem ahead_of_mem (hr : IsRing m h l) (hs : l.Pairwise fun x y => key x < key y) (hx : x ∈ l) :
    Ahead m h key l x := by
  obtain ⟨l₁, l₂, rfl⟩ := List.append_of_mem hx
  refine ⟨_, hr.next_eq, ?_⟩
  cases l₂ with
  | nil => exact .inl rfl
  | cons y l₂ =>
    refine .inr ⟨by simp, ?_⟩
    have hs := (List.pairwise_append.1 hs).2.1
    exact List.rel_of_pairwise_cons hs List.mem_cons_self

/-- From an entry of the list, the link does not lead past another one. -/
theorem covers_of_mem (hr : IsRing m h l) (hs : l.Pairwise fun x y => key x < key y) (hx : x ∈ l) :
    Covers m h key K l x := by
  obtain ⟨l₁, l₂, rfl⟩ := List.append_of_mem hx
  intro y hy _ hlt
  obtain ⟨-, hs₂, hs₁₂⟩ := List.pairwise_append.1 hs
  have hy₂ : y ∈ l₂ := by
    obtain hy | hy := List.mem_append.1 hy
    · have := hs₁₂ y hy x List.mem_cons_self
      omega
    · obtain rfl | hy := List.mem_cons.1 hy
      · omega
      · exact hy
  refine ⟨_, hr.next_eq, ?_⟩
  cases l₂ with
  | nil => cases hy₂
  | cons z l₂ =>
    refine ⟨fun e => ?_, ?_⟩
    · have hz : z ∈ l₁ ++ x :: z :: l₂ := by simp
      exact (List.nodup_cons.1 hr.nodup).1 (e ▸ hz)
    · obtain rfl | hy₂ := List.mem_cons.1 hy₂
      · exact Nat.le_refl _
      · exact Nat.le_of_lt (List.rel_of_pairwise_cons (List.pairwise_cons.1 hs₂).2 hy₂)

theorem Ahead.mono {entries entries' : List α} (ha : Ahead m h key entries x)
    (hsub : entries ⊆ entries') : Ahead m h key entries' x := by
  obtain ⟨y, hnext, hy⟩ := ha
  exact ⟨y, hnext, hy.imp_right fun hy => ⟨hsub hy.1, hy.2⟩⟩

/-- **The next entry.** Wherever the reader stands, it comes to the head or goes forward. -/
theorem Trail.next (ht : Trail m h key K l gone) (hx : x ∈ l ++ gone) :
    Ahead m h key (l ++ gone) x := by
  obtain hx | hx := List.mem_append.1 hx
  · exact (ahead_of_mem ht.ring ht.sorted hx).mono (List.subset_append_left l gone)
  · exact ht.ahead x hx

/-- **No entry is passed over.** Wherever the reader stands. -/
theorem Trail.covers (ht : Trail m h key K l gone) (hx : x ∈ l ++ gone) :
    Covers m h key K l x := by
  obtain hx | hx := List.mem_append.1 hx
  · exact covers_of_mem ht.ring ht.sorted hx
  · exact ht.covered x hx

/-- The entries before and after `x`, and `x` itself. -/
theorem not_mem_of_isRing (hr : IsRing m h (l₁ ++ x :: l₂)) : x ∉ h :: (l₁ ++ l₂) := by
  intro hm
  rw [← List.cons_append] at hm
  obtain hm | hm := List.mem_append.1 hm
  · exact hr.around.before_ne x hm rfl
  · exact hr.around.after_ne x hm rfl

/-- **An entry leaves the list.** The list goes from `l` to `l'`, and all entries that are off it
keep their links. -/
theorem Trail.leave {l' : List α} (ht : Trail m h key K l gone) (hx : x ∈ l)
    (hring : IsRing m' h l') (hsorted : l'.Pairwise fun x y => key x < key y)
    (hnext : ∀ z ∈ x :: gone, m'.next z = m.next z) (hoff : ∀ z ∈ x :: gone, z ∉ h :: l')
    (hsub : l ⊆ x :: l') (hkeys : ∀ y ∈ l', ∃ y' ∈ l, key y' = key y) :
    Trail m' h key K l' (x :: gone) := by
  have hmem : ∀ z ∈ x :: gone, z ∈ l ++ gone := by
    intro z hz
    obtain rfl | hz := List.mem_cons.1 hz
    · exact List.mem_append_left gone hx
    · exact List.mem_append_right l hz
  refine ⟨hring, hsorted, hoff, fun z hz => ?_, fun z hz y hy hyK hlt => ?_⟩
  · obtain ⟨y, hy, hforward⟩ := ht.next (hmem z hz)
    refine ⟨y, (hnext z hz).trans hy, hforward.imp_right fun ⟨hy, hlt⟩ => ⟨?_, hlt⟩⟩
    obtain hy | hy := List.mem_append.1 hy
    · obtain rfl | hy := List.mem_cons.1 (hsub hy)
      · exact List.mem_append_right l' List.mem_cons_self
      · exact List.mem_append_left _ hy
    · exact List.mem_append_right l' (List.mem_cons_of_mem x hy)
  · obtain ⟨y', hy', hkey⟩ := hkeys y hy
    rw [← hkey] at hyK hlt ⊢
    obtain ⟨w, hw, hrest⟩ := ht.covers (hmem z hz) y' hy' hyK hlt
    exact ⟨w, (hnext z hz).trans hw, hrest⟩

/-! ## The operations -/

section Operations

variable [DecidableEq α]

/-- A new entry at the end of the list, with a greater key than all entries and at least `K`. -/
theorem Trail.addTail (ht : Trail m h key K l gone) (hx : x ∉ h :: (l ++ gone))
    (hkey : ∀ y ∈ l, key y < key x) (hK : K ≤ key x) :
    ∃ m', listAddTailRcu m x h = some m' ∧ Trail m' h key K (l ++ [x]) gone := by
  have hxl : x ∉ h :: l := by
    intro hm
    exact hx (List.cons_subset_cons h (List.subset_append_left l gone) hm)
  have hxg : ∀ z ∈ gone, z ≠ x := by
    rintro z hz rfl
    exact hx (List.mem_cons_of_mem h (List.mem_append_right l hz))
  obtain ⟨m', hm', hring, hnext⟩ := listAddTailRcu_isRing ht.ring hxl
  refine ⟨m', hm', hring, ?_, ?_, ?_, ?_⟩
  · refine List.pairwise_append.2 ⟨ht.sorted, List.pairwise_singleton _ _, fun y hy z hz => ?_⟩
    obtain rfl := List.mem_singleton.1 hz
    exact hkey y hy
  · intro z hz hm
    rw [← List.cons_append] at hm
    obtain hm | hm := List.mem_append.1 hm
    · exact ht.off z hz hm
    · exact hxg z hz (List.mem_singleton.1 hm)
  · intro z hz
    obtain ⟨y, hy, hforward⟩ := ht.ahead z hz
    refine ⟨y, (hnext z (ht.off z hz) (hxg z hz)).trans hy, hforward.imp_right fun hf => ⟨?_, hf.2⟩⟩
    rw [List.append_assoc]
    exact List.mem_append.2 ((List.mem_append.1 hf.1).imp_right (List.mem_append_right [x]))
  · intro z hz y hy hyK hlt
    have hyl : y ∈ l := by
      obtain hy | hy := List.mem_append.1 hy
      · exact hy
      · obtain rfl := List.mem_singleton.1 hy
        omega
    obtain ⟨w, hw, hrest⟩ := ht.covered z hz y hyl hyK hlt
    exact ⟨w, (hnext z (ht.off z hz) (hxg z hz)).trans hw, hrest⟩

/-- An entry is taken off the list. -/
theorem Trail.del (ht : Trail m h key K (l₁ ++ x :: l₂) gone) :
    ∃ m', listDelRcu m x = some m' ∧ Trail m' h key K (l₁ ++ l₂) (x :: gone) := by
  have hsub : l₁ ++ l₂ ⊆ l₁ ++ x :: l₂ := by simp
  obtain ⟨m', hm', hring, hnextx⟩ := listDelRcu_isRing ht.ring
  refine ⟨m', hm', ht.leave (by simp) hring (ht.sorted.sublist (by simp)) ?_ ?_ ?_ ?_⟩
  · intro z hz
    obtain rfl | hz := List.mem_cons.1 hz
    · exact hnextx
    · exact listDelRcu_next ht.ring hm' (ht.off z hz)
  · intro z hz hm
    obtain rfl | hz := List.mem_cons.1 hz
    · exact not_mem_of_isRing ht.ring hm
    · exact ht.off z hz (List.cons_subset_cons h hsub hm)
  · intro z hz
    simp only [List.mem_append, List.mem_cons] at hz ⊢
    tauto
  · exact fun y hy => ⟨y, hsub hy, rfl⟩

/-- An entry is replaced by a new one with the same key. -/
theorem Trail.replace (ht : Trail m h key K (l₁ ++ x :: l₂) gone)
    (hy : y ∉ h :: ((l₁ ++ x :: l₂) ++ gone)) (hkey : key y = key x) :
    ∃ m', listReplaceRcu m x y = some m' ∧ Trail m' h key K (l₁ ++ y :: l₂) (x :: gone) := by
  have hyl : y ∉ h :: (l₁ ++ x :: l₂) := fun hm => hy (by
    rw [← List.cons_append]
    exact List.mem_append_left gone hm)
  have hyx : x ≠ y := by
    rintro rfl
    exact hyl (by simp)
  have hyg : ∀ z ∈ gone, z ≠ y := by
    rintro z hz rfl
    exact hy (List.mem_cons_of_mem h (List.mem_append_right _ hz))
  obtain ⟨m', hm', hring, hnextx⟩ := listReplaceRcu_isRing ht.ring hyl
  refine ⟨m', hm', ht.leave (by simp) hring ?_ ?_ ?_ ?_ ?_⟩
  · have hsorted : (l₁ ++ x :: l₂).Pairwise fun x y => key x < key y := ht.sorted
    rw [List.pairwise_append, List.pairwise_cons] at hsorted ⊢
    simp only [List.mem_cons, forall_eq_or_imp, hkey] at hsorted ⊢
    exact hsorted
  · intro z hz
    obtain rfl | hz := List.mem_cons.1 hz
    · exact hnextx
    · exact listReplaceRcu_next ht.ring hm' (ht.off z hz) (hyg z hz)
  · intro z hz hm
    have hcases : z = y ∨ z ∈ h :: (l₁ ++ l₂) := by
      simp only [List.mem_append, List.mem_cons] at hm ⊢
      tauto
    obtain rfl | hz := List.mem_cons.1 hz
    · exact hcases.elim hyx (not_mem_of_isRing ht.ring)
    · refine hcases.elim (hyg z hz) fun hm => ht.off z hz (List.cons_subset_cons h ?_ hm)
      simp
  · intro z hz
    simp only [List.mem_append, List.mem_cons] at hz ⊢
    tauto
  · intro z hz
    obtain rfl | hz : z = y ∨ z ∈ l₁ ++ l₂ := by
      simp only [List.mem_append, List.mem_cons] at hz ⊢
      tauto
    · exact ⟨x, by simp, hkey.symm⟩
    · have hsub : l₁ ++ l₂ ⊆ l₁ ++ x :: l₂ := by simp
      exact ⟨z, hsub hz, rfl⟩

end Operations

end Lkb.RcuList
