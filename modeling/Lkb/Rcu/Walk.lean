import Lkb.Rcu.System
import Mathlib.Data.Nat.ModEq

/-!
# The list of `rcu` while `start` goes through it

What every state of `start` looks like. A traversal takes the list it finds (`input`) and leaves,
in the place of each node, the nodes that it keeps (`keep`): the update keeps `new_node` for
`val[1]`, the deletion keeps nothing for `val[2]`, and the readers keep every node. Between two
statements the iterator has some nodes behind it and some before it, and the list consists of what
was kept of the former, and of the latter (`Stand`); when the body of a traversal is done with a
node, that node may be off the list, but its `next` link still leads to the next one (`Passed`).

`At.start_step`, the main result, is that every step of `start` keeps the invariant `At`.
-/

namespace Lkb.Rcu

open CircularList Run

/-! ## The lists -/

/-- The list after `n` nodes were added. -/
def built : ℕ → List Node
  | 0 => []
  | n + 1 => .val n :: built n

/-- What a traversal leaves in the place of a node. -/
def keep (l : Loop) (x : Node) : List Node :=
  match l with
  | .update => if x = .val 1 then [.newNode] else [x]
  | .delete => if x = .val 2 then [] else [x]
  | _ => [x]

/-- The list that a traversal finds. -/
def input (N : Element) : Loop → List Node
  | .read0 | .update => built N.val
  | .read1 | .delete => (built N.val).flatMap (keep .update)
  | .read2 => ((built N.val).flatMap (keep .update)).flatMap (keep .delete)

/-- The nodes that were handed to `call_rcu` when the traversal has the nodes `l₁` behind it. -/
def handed (N : Element) (l : Loop) (l₁ : List Node) : List Node :=
  match l with
  | .delete => l₁.filter (· = .val 2)
  | .read2 => (input N .delete).filter (· = .val 2)
  | _ => []

variable {N : Element} {s s' : State} {l : Loop} {l₁ l₂ : List Node} {pos x : Node} {ok : Bool}

theorem mem_built {n : ℕ} : x ∈ built n ↔ ∃ i < n, x = .val i := by
  induction n with
  | zero => simp [built]
  | succ n ih =>
    rw [built, List.mem_cons, ih]
    constructor
    · rintro (rfl | ⟨i, hi, rfl⟩)
      · exact ⟨n, by omega, rfl⟩
      · exact ⟨i, by omega, rfl⟩
    · rintro ⟨i, hi, rfl⟩
      by_cases h : i = n
      · exact .inl (by rw [h])
      · exact .inr ⟨i, by omega, rfl⟩

/-- The readers keep the list as it is. -/
theorem flatMap_keep (h₁ : l ≠ .update) (h₂ : l ≠ .delete) (xs : List Node) :
    xs.flatMap (keep l) = xs := by
  have hkeep : keep l = fun x => [x] := by
    funext x
    cases l with
    | update => exact absurd rfl h₁
    | delete => exact absurd rfl h₂
    | read0 | read1 | read2 => rfl
  rw [hkeep, List.flatMap_singleton']

theorem not_mem_read2 : .val 2 ∉ input N .read2 := by
  rw [input, List.mem_flatMap]
  rintro ⟨x, -, hx⟩
  simp only [keep] at hx
  split_ifs at hx with h
  · cases hx
  · exact h (List.mem_singleton.1 hx).symm

theorem newNode_not_mem : .newNode ∉ input N .update := by
  intro h
  obtain ⟨i, -, hi⟩ := mem_built.1 h
  cases hi

/-- The nodes that the deletion finds. -/
theorem mem_input_delete (h : x ∈ input N .delete) : x = .newNode ∨ ∃ i < N.val, x = .val i := by
  obtain ⟨y, hy, hx⟩ := List.mem_flatMap.1 h
  simp only [keep] at hx
  split_ifs at hx
  · exact .inl (List.mem_singleton.1 hx)
  · rw [List.mem_singleton.1 hx]
    exact .inr (mem_built.1 hy)

/-- Only `val[2]` is ever handed to `call_rcu`. -/
theorem eq_of_mem_handed (h : x ∈ handed N l l₁) : x = .val 2 := by
  cases l with
  | delete => simpa using (List.mem_filter.1 h).2
  | read2 => simpa using (List.mem_filter.1 h).2
  | read0 | update | read1 => cases h

/-- The nodes have different data, also where `10 * i` wraps around. -/
theorem value_inj {i j : ℕ} (hi : i < 2 ^ 31) (hj : j < 2 ^ 31) : value i = value j ↔ i = j := by
  constructor
  · intro h
    have hmod : 10 * i ≡ 10 * j [MOD 2 ^ 32] := by
      unfold value at h
      unfold Nat.ModEq
      rw [← BitVec.toNat_ofNat, ← BitVec.toNat_ofNat, h]
    have hgcd : 2 ^ 32 / Nat.gcd (2 ^ 32) 10 = 2 ^ 31 := by decide +kernel
    have hcancel := hmod.cancel_left_div_gcd (by decide)
    rw [hgcd] at hcancel
    exact hcancel.eq_of_lt_of_lt hi hj
  · rintro rfl
    rfl

/-! ## The invariant -/

/-- The part of the state that the traversals work on. -/
structure Memory where
  data : Node → BitVec 32
  links : Links Node
  called : List Node

def State.memory (s : State) : Memory := ⟨s.data, s.links, s.called⟩

/-- The list consists of the nodes `l`, and the nodes have their data. -/
structure Shape (N : Element) (m : Memory) (l : List Node) : Prop where
  vals : ∀ i < N.val, m.data (.val i) = value i
  ring : IsRing m.links .head l
  new : .newNode ∈ l → m.data .newNode = 1400

/-- The traversal `l` has the nodes `l₁` behind it and the nodes `l₂` before it. -/
structure Stand (N : Element) (m : Memory) (l : Loop) (l₁ l₂ : List Node) : Prop where
  split : input N l = l₁ ++ l₂
  nodup : (l₁ ++ l₂).Nodup
  shape : Shape N m (l₁.flatMap (keep l) ++ l₂)
  called : m.called = handed N l l₁

/-- The traversal `l` is done with the node `pos`, which may be off the list, and has the nodes `l₂`
before it. -/
structure Passed (N : Element) (m : Memory) (l : Loop) (l₁ : List Node) (pos : Node)
    (l₂ : List Node) : Prop where
  split : input N l = l₁ ++ pos :: l₂
  nodup : (l₁ ++ pos :: l₂).Nodup
  shape : Shape N m ((l₁ ++ [pos]).flatMap (keep l) ++ l₂)
  next : m.links.next pos = .node (l₂.headD .head)

/-- What holds at each point of `start`. -/
def At (N : Element) (m : Memory) : Pc → Prop
  | .hello => IsRing m.links .head [] ∧ m.called = []
  | .fill i =>
    i ≤ N.val ∧ (∀ j < i, m.data (.val j) = value j) ∧ IsRing m.links .head [] ∧ m.called = []
  | .add i => i ≤ N.val ∧ Shape N m (built i) ∧ m.called = []
  | .addLink i => i < N.val ∧ Shape N m (built i) ∧ m.called = []
  | .addUnlock i => i < N.val ∧ Shape N m (built (i + 1)) ∧ m.called = []
  | .synchronize l | .first l => Stand N m l [] (input N l)
  | .clearFlag | .lockDelete => Stand N m .delete [] (input N .delete)
  | .checkFlag => Stand N m .read2 [] (input N .read2)
  | .visit l pos => ∃ l₁ l₂, Stand N m l l₁ l₂ ∧ pos = l₂.headD .head
  | .readLock l pos => l ≠ .delete ∧ ∃ l₁ l₂, Stand N m l l₁ (pos :: l₂)
  | .print l pos => l ≠ .update ∧ l ≠ .delete ∧ ∃ l₁ l₂, Stand N m l l₁ (pos :: l₂)
  | .testUpdate pos => ∃ l₁ l₂, Stand N m .update l₁ (pos :: l₂)
  | .setNew pos => pos = .val 1 ∧ ∃ l₁ l₂, Stand N m .update l₁ (pos :: l₂)
  | .updateLock pos | .replace pos =>
    pos = .val 1 ∧ m.data .newNode = 1400 ∧ ∃ l₁ l₂, Stand N m .update l₁ (pos :: l₂)
  | .updateUnlock pos =>
    ∃ l₁ l₂, Passed N m .update l₁ pos l₂ ∧ m.called = handed N .update (l₁ ++ [pos])
  | .readUnlock l pos =>
    l ≠ .delete ∧ ∃ l₁ l₂, Passed N m l l₁ pos l₂ ∧ m.called = handed N l (l₁ ++ [pos])
  | .testDelete pos => ∃ l₁ l₂, Stand N m .delete l₁ (pos :: l₂)
  | .setFlag pos | .delete pos => pos = .val 2 ∧ ∃ l₁ l₂, Stand N m .delete l₁ (pos :: l₂)
  | .deleteUnlock pos | .callRcu pos =>
    pos = .val 2 ∧ ∃ l₁ l₂, Passed N m .delete l₁ pos l₂ ∧ m.called = handed N .delete l₁
  | .advance l pos => ∃ l₁ l₂, Passed N m l l₁ pos l₂ ∧ m.called = handed N l (l₁ ++ [pos])
  | .returned ret => (ret = 0 ∧ Stand N m .read2 (input N .read2) []) ∨ (ret = -1 ∧ m.called = [])

variable {m : Memory}

/-! ## Standing and passing -/

/-- A traversal begins with the whole list before it. -/
theorem Shape.stand (h : Shape N m (input N l)) (hc : m.called = handed N l []) :
    Stand N m l [] (input N l) :=
  ⟨rfl, (List.nodup_cons.1 h.ring.nodup).2, h, hc⟩

/-- The node that the traversal stands on is followed by the nodes before it. -/
theorem Stand.next (h : Stand N m l l₁ (pos :: l₂)) : m.links.next pos = .node (l₂.headD .head) :=
  h.shape.ring.next_eq

theorem Stand.mem (h : Stand N m l l₁ (pos :: l₂)) : pos ∈ input N l := by
  rw [h.split]
  simp

/-- The traversal is back at the head exactly when nothing is left before it. -/
theorem Stand.headD_eq_head (h : Stand N m l l₁ l₂) (hpos : l₂.headD .head = .head) : l₂ = [] := by
  cases l₂ with
  | nil => rfl
  | cons x l₂ =>
    obtain rfl : x = .head := hpos
    have hnot := (List.nodup_cons.1 h.shape.ring.nodup).1
    exact absurd (List.mem_append_right _ List.mem_cons_self) hnot

/-- A body that keeps its node is done with it. -/
theorem Stand.passed (h : Stand N m l l₁ (pos :: l₂)) (hkeep : keep l pos = [pos]) :
    Passed N m l l₁ pos l₂ := by
  have hlist : (l₁ ++ [pos]).flatMap (keep l) ++ l₂ = l₁.flatMap (keep l) ++ pos :: l₂ := by
    simp [hkeep]
  exact ⟨h.split, h.nodup, hlist ▸ h.shape, h.next⟩

/-- The step to the next node. -/
theorem Passed.stand (h : Passed N m l l₁ pos l₂) (hc : m.called = handed N l (l₁ ++ [pos])) :
    Stand N m l (l₁ ++ [pos]) l₂ :=
  ⟨by simp [h.split], by simpa using h.nodup, h.shape, hc⟩

/-- A node other than `val[2]` is not handed over, and in another traversal none is. -/
theorem handed_append (h : l ≠ .delete ∨ pos ≠ .val 2) :
    handed N l (l₁ ++ [pos]) = handed N l l₁ := by
  cases l with
  | delete =>
    have hpos : pos ≠ .val 2 := h.resolve_left (by simp)
    simp [handed, List.filter_append, hpos]
  | read0 | update | read1 | read2 => rfl

theorem Stand.data_eq_ten (h : Stand N m .update l₁ (pos :: l₂)) :
    m.data pos = 10 ↔ pos = .val 1 := by
  obtain ⟨i, hi, rfl⟩ := mem_built.1 h.mem
  have hten : (10 : BitVec 32) = value 1 := rfl
  rw [h.shape.vals i hi, hten, value_inj (hi.trans N.lt) (by omega), Node.val.injEq]

theorem Stand.data_eq_twenty (h : Stand N m .delete l₁ (pos :: l₂)) :
    m.data pos = 20 ↔ pos = .val 2 := by
  obtain rfl | ⟨i, hi, rfl⟩ := mem_input_delete h.mem
  · rw [h.shape.new (by simp)]
    exact iff_of_false (by decide) (by decide)
  · have htwenty : (20 : BitVec 32) = value 2 := rfl
    rw [h.shape.vals i hi, htwenty, value_inj (hi.trans N.lt) (by omega), Node.val.injEq]

/-- The update finds its node before `new_node` is on the list. -/
theorem Stand.newNode_not_mem (h : Stand N m .update l₁ (.val 1 :: l₂)) :
    .newNode ∉ l₁.flatMap (keep .update) ++ .val 1 :: l₂ := by
  have hin : ∀ x ∈ l₁ ++ .val 1 :: l₂, x ≠ .newNode := by
    intro x hx e
    exact Rcu.newNode_not_mem (h.split ▸ e ▸ hx)
  have hval : .val 1 ∉ l₁ := by
    intro hm
    have := List.nodup_append.1 h.nodup
    exact this.2.2 _ hm _ List.mem_cons_self rfl
  intro hm
  obtain hm | hm := List.mem_append.1 hm
  · obtain ⟨x, hx, hm⟩ := List.mem_flatMap.1 hm
    simp only [keep] at hm
    split_ifs at hm with h1
    · exact hval (h1 ▸ hx)
    · exact hin x (List.mem_append_left _ hx) (List.mem_singleton.1 hm).symm
  · exact hin _ (List.mem_append_right _ hm) rfl

/-- `new_node.data = 1400` leaves the other nodes alone. -/
theorem Stand.setNew (h : Stand N m l l₁ l₂) :
    Stand N { m with data := Function.update m.data .newNode 1400 } l l₁ l₂ := by
  refine ⟨h.split, h.nodup, ⟨fun i hi => ?_, h.shape.ring, fun _ => ?_⟩, h.called⟩
  · have hne : Node.val i ≠ .newNode := nofun
    exact (Function.update_of_ne hne 1400 m.data).trans (h.shape.vals i hi)
  · exact Function.update_self Node.newNode 1400 m.data

/-- `list_replace_rcu` passes `val[1]`, and puts `new_node` in its place. -/
theorem Stand.replace (h : Stand N m .update l₁ (.val 1 :: l₂)) (hnew : m.data .newNode = 1400) :
    ∃ links, listReplaceRcu m.links (.val 1) .newNode = some links ∧
      Passed N { m with links := links } .update l₁ (.val 1) l₂ := by
  have hy : .newNode ∉ .head :: (l₁.flatMap (keep .update) ++ .val 1 :: l₂) := by
    simp only [List.mem_cons, reduceCtorEq, false_or]
    exact h.newNode_not_mem
  obtain ⟨links, hl, hring, hnext⟩ := listReplaceRcu_isRing h.shape.ring hy
  refine ⟨links, hl, h.split, h.nodup, ⟨h.shape.vals, ?_, fun _ => hnew⟩, hnext.trans h.next⟩
  simpa [keep] using hring

/-- `list_del_rcu` passes `val[2]`, and takes it off the list. -/
theorem Stand.delete (h : Stand N m .delete l₁ (.val 2 :: l₂)) :
    ∃ links, listDelRcu m.links (.val 2) = some links ∧
      Passed N { m with links := links } .delete l₁ (.val 2) l₂ := by
  obtain ⟨links, hl, hring, hnext⟩ := listDelRcu_isRing h.shape.ring
  have hlist : (l₁ ++ [Node.val 2]).flatMap (keep .delete) ++ l₂ =
      l₁.flatMap (keep .delete) ++ l₂ := by
    simp [keep]
  refine ⟨links, hl, h.split, h.nodup, ?_, hnext.trans h.next⟩
  rw [hlist]
  refine ⟨h.shape.vals, hring, fun hm => h.shape.new ?_⟩
  obtain hm | hm := List.mem_append.1 hm
  · exact List.mem_append_left _ hm
  · exact List.mem_append_right _ (List.mem_cons_of_mem _ hm)

/-! ## The steps of `start` -/

theorem at_load (N : Element) (data : Node → BitVec 32) (links : Links Node) :
    At N (load data links).memory .hello := ⟨isRing_initListHead links .head, rfl⟩

/-- A traversal that is back at the head leaves the list that the next one finds. -/
theorem Stand.leave (h : Stand N m l l₁ []) : At N m (leave l) := by
  obtain rfl : input N l = l₁ := by simpa using h.split
  have hshape := h.shape
  rw [List.append_nil] at hshape
  cases l with
  | read0 =>
    rw [flatMap_keep (l := .read0) nofun nofun] at hshape
    exact Shape.stand hshape h.called
  | update => exact Shape.stand hshape h.called
  | read1 =>
    rw [flatMap_keep (l := .read1) nofun nofun] at hshape
    exact Shape.stand (l := .delete) hshape h.called
  | delete => exact Shape.stand (l := .read2) hshape h.called
  | read2 => exact .inl ⟨rfl, h⟩

/-- A traversal at a node enters its body. -/
theorem Stand.enter (h : Stand N m l l₁ (pos :: l₂)) : At N m (enter l pos) := by
  cases l with
  | delete => exact ⟨l₁, l₂, h⟩
  | read0 | update | read1 | read2 => exact ⟨nofun, l₁, l₂, h⟩

theorem Stand.inside (h : Stand N m l l₁ (pos :: l₂)) (hl : l ≠ .delete) :
    At N m (inside l pos) := by
  cases l with
  | delete => exact absurd rfl hl
  | update => exact ⟨l₁, l₂, h⟩
  | read0 | read1 | read2 => exact ⟨nofun, nofun, l₁, l₂, h⟩

/-- A node of the array takes its place on the list. -/
theorem Shape.addLink {i : ℕ} (h : Shape N m (built i)) :
    ∃ links, listAddRcu m.links (.val i) .head = some links ∧
      Shape N { m with links := links } (built (i + 1)) := by
  have hx : .val i ∉ .head :: built i := by
    simp only [List.mem_cons, reduceCtorEq, false_or, mem_built, Node.val.injEq, not_exists,
      not_and]
    omega
  obtain ⟨links, hl, hring⟩ := listAddRcu_isRing h.ring hx
  refine ⟨links, hl, h.vals, hring, fun hm => ?_⟩
  obtain ⟨j, -, hj⟩ := mem_built.1 hm
  cases hj

/-- A fresh node of the array gets its data. -/
theorem At.fill_step {i : ℕ} (h : At N m (.fill i)) (hi : i < N.val) :
    At N { m with data := Function.update m.data (.val i) (value i) } (.fill (i + 1)) := by
  obtain ⟨-, hvals, hring, hcalled⟩ := h
  refine ⟨hi, fun j hj => ?_, hring, hcalled⟩
  by_cases hji : j = i
  · simp [hji]
  · simpa [hji] using hvals j (by omega)

/-- **The invariant of `start`.** Every step of `start` leads from the invariant at one point to the
invariant at the next. -/
theorem At.start_step (h : At N s.memory s.pc) (hs : startStep N ok s = some s') :
    At N s'.memory s'.pc := by
  cases startStep_moves hs with
  | hello hpc =>
    rw [hpc] at h
    exact ⟨Nat.zero_le _, nofun, h.1, h.2⟩
  | kmalloc hpc hi =>
    rw [hpc] at h
    exact h.fill_step hi
  | mallocFailed hpc =>
    rw [hpc] at h
    exact .inr ⟨rfl, h.2.2.2⟩
  | @filled i hpc hi =>
    rw [hpc] at h
    obtain ⟨hle, hvals, hring, hcalled⟩ := h
    obtain rfl : i = N.val := by omega
    exact ⟨Nat.zero_le _, ⟨hvals, hring, nofun⟩, hcalled⟩
  | addLock hpc hi =>
    rw [hpc] at h
    exact ⟨hi, h.2.1, h.2.2⟩
  | @added i hpc hi =>
    rw [hpc] at h
    obtain ⟨hle, hshape, hcalled⟩ := h
    obtain rfl : i = N.val := by omega
    exact Shape.stand (l := .read0) hshape hcalled
  | @addLink i links' hpc hl' =>
    rw [hpc] at h
    obtain ⟨hi, hshape, hcalled⟩ := h
    obtain ⟨links, hl, hshape⟩ := hshape.addLink
    obtain rfl : links = links' := Option.some.inj (hl.symm.trans hl')
    exact ⟨hi, hshape, hcalled⟩
  | addUnlock hpc =>
    rw [hpc] at h
    exact ⟨h.1, h.2.1, h.2.2⟩
  | synchronize hpc | clearFlag hpc | lockDelete hpc | checkFlag hpc =>
    rw [hpc] at h
    exact h
  | @first l pos hpc hnext =>
    rw [hpc] at h
    have hpos := (show Stand N s.memory l [] (input N l) from h).shape.ring.next_head
    refine ⟨[], input N l, h, ?_⟩
    exact Link.node.inj (hnext.symm.trans hpos)
  | leave hpc =>
    rw [hpc] at h
    obtain ⟨l₁, l₂, hstand, hpos⟩ := h
    obtain rfl := hstand.headD_eq_head hpos.symm
    exact hstand.leave
  | @enter l pos hpc hhead =>
    rw [hpc] at h
    obtain ⟨l₁, l₂, hstand, hpos⟩ := h
    cases l₂ with
    | nil => exact absurd hpos hhead
    | cons x l₂ =>
      obtain rfl : pos = x := hpos
      exact hstand.enter
  | readLock hpc =>
    rw [hpc] at h
    obtain ⟨hl, l₁, l₂, hstand⟩ := h
    exact hstand.inside hl
  | @print l pos hpc =>
    rw [hpc] at h
    obtain ⟨hu, hd, l₁, l₂, hstand⟩ := h
    have hkeep : keep l pos = [pos] := by simpa using flatMap_keep hu hd [pos]
    exact ⟨hd, l₁, l₂, hstand.passed hkeep, hstand.called.trans (handed_append (.inl hd)).symm⟩
  | update hpc hten =>
    rw [hpc] at h
    obtain ⟨l₁, l₂, hstand⟩ := h
    exact ⟨hstand.data_eq_ten.1 hten, l₁, l₂, hstand⟩
  | @noUpdate pos hpc hten =>
    rw [hpc] at h
    obtain ⟨l₁, l₂, hstand⟩ := h
    have hkeep : keep .update pos = [pos] := if_neg (mt hstand.data_eq_ten.2 hten)
    exact ⟨nofun, l₁, l₂, hstand.passed hkeep, hstand.called⟩
  | setNew hpc =>
    rw [hpc] at h
    obtain ⟨hpos, l₁, l₂, hstand⟩ := h
    exact ⟨hpos, Function.update_self Node.newNode 1400 s.data, l₁, l₂, hstand.setNew⟩
  | updateLock hpc =>
    rw [hpc] at h
    exact h
  | @replace pos links' hpc hl' =>
    rw [hpc] at h
    obtain ⟨rfl, hnew, l₁, l₂, hstand⟩ := h
    obtain ⟨links, hl, hpassed⟩ := hstand.replace hnew
    obtain rfl : links = links' := Option.some.inj (hl.symm.trans hl')
    exact ⟨l₁, l₂, hpassed, hstand.called⟩
  | updateUnlock hpc =>
    rw [hpc] at h
    exact ⟨nofun, h⟩
  | readUnlock hpc =>
    rw [hpc] at h
    exact h.2
  | match20 hpc htwenty =>
    rw [hpc] at h
    obtain ⟨l₁, l₂, hstand⟩ := h
    exact ⟨hstand.data_eq_twenty.1 htwenty, l₁, l₂, hstand⟩
  | noMatch hpc htwenty =>
    rw [hpc] at h
    obtain ⟨l₁, l₂, hstand⟩ := h
    have hne := mt hstand.data_eq_twenty.2 htwenty
    have hcalled := hstand.called.trans (handed_append (.inr hne)).symm
    exact ⟨l₁, l₂, hstand.passed (if_neg hne), hcalled⟩
  | setFlag hpc | deleteUnlock hpc =>
    rw [hpc] at h
    exact h
  | @delete pos links' hpc hl' =>
    rw [hpc] at h
    obtain ⟨rfl, l₁, l₂, hstand⟩ := h
    obtain ⟨links, hl, hpassed⟩ := hstand.delete
    obtain rfl : links = links' := Option.some.inj (hl.symm.trans hl')
    exact ⟨rfl, l₁, l₂, hpassed, hstand.called⟩
  | callRcu hpc =>
    rw [hpc] at h
    obtain ⟨rfl, l₁, l₂, hpassed, hcalled⟩ := h
    refine ⟨l₁, l₂, ⟨hpassed.split, hpassed.nodup, ⟨hpassed.shape.vals, hpassed.shape.ring,
      hpassed.shape.new⟩, hpassed.next⟩, ?_⟩
    have hc : s.called = handed N .delete l₁ := hcalled
    simp [State.memory, State.goto, State.callRcu, hc, handed]
  | @advance l pos next hpc hnext =>
    rw [hpc] at h
    obtain ⟨l₁, l₂, hpassed, hcalled⟩ := h
    refine ⟨l₁ ++ [pos], l₂, hpassed.stand hcalled, ?_⟩
    exact Link.node.inj (hnext.symm.trans hpassed.next)

/-- At no point but the last does `start` get stuck on a poisoned link. -/
theorem At.progress (h : At N s.memory s.pc) (hpc : ∀ ret, s.pc ≠ .returned ret) (ok : Bool) :
    ∃ s', startStep N ok s = some s' := by
  unfold startStep
  cases hp : s.pc with
  | returned ret => exact absurd hp (hpc ret)
  | fill i | add i | testUpdate i | testDelete i =>
    dsimp only
    split_ifs <;> exact ⟨_, rfl⟩
  | visit l pos =>
    dsimp only
    split_ifs <;> exact ⟨_, rfl⟩
  | addLink i =>
    rw [hp] at h
    obtain ⟨links, hl, -⟩ := h.2.1.addLink
    exact ⟨_, Option.map_eq_some_iff.2 ⟨links, hl, rfl⟩⟩
  | replace pos =>
    rw [hp] at h
    obtain ⟨rfl, hnew, l₁, l₂, hstand⟩ := h
    obtain ⟨links, hl, -⟩ := hstand.replace hnew
    exact ⟨_, Option.map_eq_some_iff.2 ⟨links, hl, rfl⟩⟩
  | delete pos =>
    rw [hp] at h
    obtain ⟨rfl, l₁, l₂, hstand⟩ := h
    obtain ⟨links, hl, -⟩ := hstand.delete
    exact ⟨_, Option.map_eq_some_iff.2 ⟨links, hl, rfl⟩⟩
  | first l =>
    rw [hp] at h
    have hnext : s.links.next .head = _ := (Stand.shape h).ring.next_head
    simp only [hnext]
    exact ⟨_, rfl⟩
  | advance l pos =>
    rw [hp] at h
    obtain ⟨l₁, l₂, hpassed, -⟩ := h
    have hnext : s.links.next pos = _ := hpassed.next
    simp only [hnext]
    exact ⟨_, rfl⟩
  | _ => exact ⟨_, rfl⟩

/-! ## The steps of the module -/

/-- The end of a grace period changes the pending callbacks alone. -/
theorem State.quiesce_frame :
    s.quiesce.memory = s.memory ∧ s.quiesce.pc = s.pc ∧ s.quiesce.freed = s.freed ∧
      s.quiesce.running = s.running ∧ s.quiesce.ended = s.ended ∧ s.quiesce.log = s.log := by
  unfold State.quiesce
  split_ifs <;> exact ⟨rfl, rfl, rfl, rfl, rfl, rfl⟩

theorem At.preserved {e : Event} (h : At N s.memory s.pc) (hs : step N s e = some s') :
    At N s'.memory s'.pc := by
  cases e with
  | start ok =>
    obtain ⟨t, ht, rfl⟩ := Option.map_eq_some_iff.1 hs
    obtain ⟨hmem, hpc, -⟩ := t.quiesce_frame
    rw [hmem, hpc]
    exact h.start_step ht
  | callback k =>
    simp only [step] at hs
    split at hs
    · cases hs
      exact h
    · cases hs
  | destroy k =>
    obtain ⟨x, -, rfl⟩ := Option.map_eq_some_iff.1 hs
    exact h
  | endModule =>
    simp only [step, Option.ite_none_right_eq_some, Option.some.injEq] at hs
    obtain ⟨-, rfl⟩ := hs
    exact h

/-- The invariant holds in every state of every run. -/
theorem at_of_runs {es : List Event} {data : Node → BitVec 32} {links : Links Node}
    (h : Runs (step N) (load data links) es s) : At N s.memory s.pc :=
  h.invariant' (I := fun s => At N s.memory s.pc) (fun _ _ _ hat hs => hat.preserved hs)
    (at_load N data links)

/-- **`start` never gets stuck.** In every state of every run in which `start` has not returned, it
can take its next step: it never follows a poisoned link. Where it goes on from a node that the
callback has freed, this rests on the links of the node being as they were. -/
theorem start_progress (N : Element) (data : Node → BitVec 32) (links : Links Node)
    {es : List Event} (h : Runs (step N) (load data links) es s)
    (hpc : ∀ ret, s.pc ≠ .returned ret) (ok : Bool) :
    ∃ s', startStep N ok s = some s' := by
  have hat : At N s.memory s.pc := at_of_runs h
  exact hat.progress hpc ok

end Lkb.Rcu
