import Lkb.Rcu.Reclaim

/-!
# What `start` of `rcu` prints

When every `kmalloc` succeeds and the callbacks wait until `start` has returned, `start` goes
through the list five times and comes to its end. A traversal that stands at a node has the nodes
`behind` it and those `ahead` of it, which the node determines; the output so far is that of the
earlier traversals and, in a reader, of the nodes behind (`output`), and the nodes ahead give the
rank by which the traversals come to their end (`rank`). `Traced.start_step` is the step lemma.

`start_prints` is the main result.
-/

namespace Lkb.Rcu

open CircularList Run

variable {N : Element} {s s' : State} {l : Loop} {l₁ l₂ : List Node} {pos : Node} {m : Memory}

/-! ## The place of a traversal -/

/-- The nodes before `pos` in the list that the traversal finds. -/
def behind (N : Element) (l : Loop) (pos : Node) : List Node :=
  (input N l).takeWhile (· ≠ pos)

/-- The nodes from `pos` on in the list that the traversal finds. -/
def ahead (N : Element) (l : Loop) (pos : Node) : List Node :=
  (input N l).dropWhile (· ≠ pos)

/-- A list that is split at an element which does not occur before the split. -/
theorem takeWhile_dropWhile_of_split {xs : List Node} (hsplit : xs = l₁ ++ l₂)
    (hl₁ : pos ∉ l₁) (hl₂ : ∀ x ∈ l₂.head?, x = pos) :
    xs.takeWhile (· ≠ pos) = l₁ ∧ xs.dropWhile (· ≠ pos) = l₂ := by
  have hall : ∀ x ∈ l₁, decide (x ≠ pos) = true := by
    intro x hx
    exact decide_eq_true fun he => hl₁ (he ▸ hx)
  subst hsplit
  rw [List.takeWhile_append_of_pos hall, List.dropWhile_append_of_pos hall]
  cases l₂ with
  | nil => simp
  | cons x l₂ =>
    obtain rfl : x = pos := hl₂ x rfl
    simp

/-- The nodes that a traversal finds. -/
theorem mem_input {x : Node} (h : x ∈ input N l) : x = .newNode ∨ ∃ i < N.val, x = .val i := by
  cases l with
  | read0 | update => exact .inr (mem_built.1 h)
  | read1 | delete => exact mem_input_delete h
  | read2 =>
    obtain ⟨y, hy, hkeep⟩ := List.mem_flatMap.1 h
    simp only [keep] at hkeep
    split_ifs at hkeep
    · cases hkeep
    · obtain rfl := List.mem_singleton.1 hkeep
      exact mem_input_delete hy

theorem head_not_mem (N : Element) (l : Loop) : .head ∉ input N l := by
  intro h
  obtain h | ⟨i, -, h⟩ := mem_input h
  · cases h
  · cases h

/-- A traversal that stands at `pos` has the nodes behind it that it has been through. -/
theorem Stand.place (h : Stand N m l l₁ l₂) (hpos : pos = l₂.headD .head) :
    behind N l pos = l₁ ∧ ahead N l pos = l₂ := by
  refine takeWhile_dropWhile_of_split h.split ?_ ?_
  · cases l₂ with
    | nil =>
      obtain rfl : pos = .head := hpos
      exact fun hmem => head_not_mem N l (h.split ▸ List.mem_append_left [] hmem)
    | cons x l₂ =>
      obtain rfl : pos = x := hpos
      exact fun hmem => (List.nodup_append.1 h.nodup).2.2 pos hmem pos List.mem_cons_self rfl
  · intro x hx
    cases l₂ with
    | nil => cases hx
    | cons y l₂ =>
      obtain rfl : y = x := Option.some.inj hx
      exact hpos.symm

theorem behind_head (N : Element) (l : Loop) : behind N l .head = input N l := by
  have hsplit : input N l = input N l ++ [] := (List.append_nil _).symm
  exact (takeWhile_dropWhile_of_split hsplit (head_not_mem N l) nofun).1

theorem Passed.place (h : Passed N m l l₁ pos l₂) :
    behind N l pos = l₁ ∧ ahead N l pos = pos :: l₂ := by
  refine takeWhile_dropWhile_of_split h.split ?_ ?_
  · exact fun hmem => (List.nodup_append.1 h.nodup).2.2 pos hmem pos List.mem_cons_self rfl
  · intro x hx
    exact (Option.some.inj hx).symm

/-- The next node has one node more behind it, and one less ahead. -/
theorem Passed.place_next (h : Passed N m l l₁ pos l₂) (hc : m.called = handed N l (l₁ ++ [pos])) :
    behind N l (l₂.headD .head) = behind N l pos ++ [pos] ∧
      (ahead N l pos).length = (ahead N l (l₂.headD .head)).length + 1 := by
  obtain ⟨hbehind, hahead⟩ := h.place
  obtain ⟨hbehind', hahead'⟩ := (h.stand hc).place rfl
  rw [hbehind, hahead, hbehind', hahead']
  exact ⟨rfl, rfl⟩

theorem length_built (n : ℕ) : (built n).length = n := by
  induction n with
  | zero => rfl
  | succ n ih => rw [built, List.length_cons, ih]

/-- A traversal keeps at most one node for a node. -/
theorem length_flatMap_keep_le (l : Loop) (xs : List Node) :
    (xs.flatMap (keep l)).length ≤ xs.length := by
  have hkeep : ∀ x, (keep l x).length ≤ 1 := by
    intro x
    cases l with
    | update | delete =>
      simp only [keep]
      split_ifs <;> simp
    | read0 | read1 | read2 => simp [keep]
  induction xs with
  | nil => simp
  | cons x xs ih =>
    have hx := hkeep x
    simp only [List.flatMap_cons, List.length_append, List.length_cons]
    omega

/-- A traversal finds at most as many nodes as were added. -/
theorem length_input_le (N : Element) (l : Loop) : (input N l).length ≤ N.val := by
  have hupdate := length_flatMap_keep_le .update (built N.val)
  have hdelete := length_flatMap_keep_le .delete ((built N.val).flatMap (keep .update))
  rw [length_built] at hupdate
  cases l with
  | read0 | update => exact (length_built N.val).le
  | read1 | delete => exact hupdate
  | read2 => exact hdelete.trans hupdate

/-! ## The output -/

/-- The data of a node on the list. -/
def datum : Node → BitVec 32
  | .val i => value i
  | .newNode => 1400
  | .head => 0

/-- The lines that a traversal prints for the nodes that it goes through. -/
def lines : Loop → List Node → List Message
  | .update, _ | .delete, _ => []
  | l, xs => xs.map fun x => .value l (datum x)

@[simp] theorem lines_nil (l : Loop) : lines l [] = [] := by
  cases l <;> rfl

/-- What was printed before a traversal. -/
def before (N : Element) : Loop → List Message
  | .read0 => [.hello]
  | .update | .read1 => .hello :: lines .read0 (input N .read0)
  | .delete | .read2 =>
    .hello :: (lines .read0 (input N .read0) ++ lines .read1 (input N .read1))

/-- What was printed before each point of `start`, in a run without failures. -/
def output (N : Element) : Pc → List Message
  | .hello => []
  | .fill _ | .add _ | .addLink _ | .addUnlock _ => [.hello]
  | .synchronize l | .first l => before N l
  | .clearFlag | .lockDelete => before N .delete
  | .checkFlag => before N .read2
  | .visit l pos | .readLock l pos | .print l pos => before N l ++ lines l (behind N l pos)
  | .testUpdate _ | .setNew _ | .updateLock _ | .replace _ | .updateUnlock _ => before N .update
  | .testDelete _ | .setFlag _ | .delete _ | .deleteUnlock _ | .callRcu _ => before N .delete
  | .readUnlock l pos | .advance l pos => before N l ++ lines l (behind N l pos ++ [pos])
  | .returned _ => before N .read2 ++ lines .read2 (input N .read2)

/-! ## The rank -/

/-- How many traversals come after this one. -/
def Loop.left : Loop → ℕ
  | .read0 => 4
  | .update => 3
  | .read1 => 2
  | .delete => 1
  | .read2 => 0

/-- A bound for the steps of one traversal, with what comes before it. -/
def lap (N : Element) : ℕ := 12 * N.val + 30

/-- How far `start` is from its end. -/
def rank (N : Element) : Pc → ℕ
  | .hello => 5 * lap N + 4 * N.val + 4
  | .fill i => 5 * lap N + 3 * N.val + (N.val - i) + 3
  | .add i => 5 * lap N + 3 * (N.val - i) + 2
  | .addLink i => 5 * lap N + 3 * (N.val - i) + 1
  | .addUnlock i => 5 * lap N + 3 * (N.val - i)
  | .synchronize l => l.left * lap N + 12 * N.val + 14
  | .clearFlag => lap N + 12 * N.val + 15
  | .lockDelete => lap N + 12 * N.val + 14
  | .checkFlag => 12 * N.val + 14
  | .first l => l.left * lap N + 12 * N.val + 13
  | .visit l pos => l.left * lap N + 12 * (ahead N l pos).length + 12
  | .readLock l pos => l.left * lap N + 12 * (ahead N l pos).length + 11
  | .print l pos => l.left * lap N + 12 * (ahead N l pos).length + 10
  | .testUpdate pos => 3 * lap N + 12 * (ahead N .update pos).length + 10
  | .setNew pos => 3 * lap N + 12 * (ahead N .update pos).length + 9
  | .updateLock pos => 3 * lap N + 12 * (ahead N .update pos).length + 8
  | .replace pos => 3 * lap N + 12 * (ahead N .update pos).length + 7
  | .updateUnlock pos => 3 * lap N + 12 * (ahead N .update pos).length + 6
  | .readUnlock l pos => l.left * lap N + 12 * (ahead N l pos).length + 5
  | .testDelete pos => lap N + 12 * (ahead N .delete pos).length + 10
  | .setFlag pos => lap N + 12 * (ahead N .delete pos).length + 9
  | .delete pos => lap N + 12 * (ahead N .delete pos).length + 8
  | .deleteUnlock pos => lap N + 12 * (ahead N .delete pos).length + 7
  | .callRcu pos => lap N + 12 * (ahead N .delete pos).length + 6
  | .advance l pos => l.left * lap N + 12 * (ahead N l pos).length + 1
  | .returned _ => 0

/-! ## The steps of `start` -/

theorem length_ahead_le (N : Element) (l : Loop) (pos : Node) :
    (ahead N l pos).length ≤ N.val := by
  have hle := (List.dropWhile_sublist (· ≠ pos) (l := input N l)).length_le
  exact hle.trans (length_input_le N l)

/-- A node that a traversal stands at has the data that goes with it. -/
theorem Stand.data_eq (h : Stand N m l l₁ (pos :: l₂)) : m.data pos = datum pos := by
  have hmem : pos ∈ input N l := by simp [h.split]
  obtain rfl | ⟨i, hi, rfl⟩ := mem_input hmem
  · exact h.shape.new (by simp)
  · exact h.shape.vals i hi

/-- A reader prints a line for the node that it stands at. -/
theorem lines_append (hu : l ≠ .update) (hd : l ≠ .delete) (xs : List Node) (x : Node) :
    lines l (xs ++ [x]) = lines l xs ++ [.value l (datum x)] := by
  cases l with
  | update => exact absurd rfl hu
  | delete => exact absurd rfl hd
  | read0 | read1 | read2 => simp [lines]

/-- The output of a traversal that is back at the head is what comes before the next one. -/
theorem output_leave (N : Element) (l : Loop) :
    output N (leave l) = before N l ++ lines l (input N l) := by
  cases l <;> simp [leave, output, before, lines]

theorem rank_leave_lt (N : Element) (l : Loop) : rank N (leave l) < rank N (.visit l .head) := by
  cases l <;> simp only [leave, rank, Loop.left, lap] <;> omega

theorem output_enter (N : Element) (l : Loop) (pos : Node) :
    output N (enter l pos) = before N l ++ lines l (behind N l pos) := by
  cases l <;> simp [enter, output, lines]

theorem rank_enter_lt (N : Element) (l : Loop) (pos : Node) :
    rank N (enter l pos) < rank N (.visit l pos) := by
  cases l <;> simp only [enter, rank, Loop.left] <;> omega

theorem output_inside (N : Element) (l : Loop) (pos : Node) :
    output N (inside l pos) = before N l ++ lines l (behind N l pos) := by
  cases l <;> simp [inside, output, lines]

theorem rank_inside_lt (N : Element) (l : Loop) (pos : Node) :
    rank N (inside l pos) < rank N (.readLock l pos) := by
  cases l <;> simp only [inside, rank, Loop.left] <;> omega

/-- A state of a run in which every `kmalloc` has succeeded and no callback has run. -/
structure Traced (N : Element) (s : State) : Prop where
  walk : At N s.memory s.pc
  log : s.log = output N s.pc
  ret : ∀ ret, s.pc = .returned ret → ret = 0

/-- What a step of `start` prints, and that it brings `start` closer to its end. -/
theorem Traced.start_step (h : Traced N s) (hs : startStep N true s = some s') :
    Traced N s' ∧ rank N s'.pc < rank N s.pc := by
  obtain ⟨hat, hlog, -⟩ := h
  have hat' := hat.start_step hs
  suffices hout : s'.log = output N s'.pc ∧ rank N s'.pc < rank N s.pc from
    ⟨⟨hat', hout.1, fun ret => startStep_returned hs⟩, hout.2⟩
  clear hat'
  cases startStep_moves hs with
  | hello hpc =>
    rw [hpc] at hlog ⊢
    refine ⟨congrArg (· ++ [Message.hello]) hlog, ?_⟩
    simp only [State.goto, rank]
    omega
  | kmalloc hpc hi | filled hpc hi =>
    rw [hpc] at hlog ⊢
    refine ⟨hlog, ?_⟩
    simp only [State.goto, rank]
    omega
  | mallocFailed _ _ hok => cases hok
  | addLock hpc hi =>
    rw [hpc] at hlog ⊢
    refine ⟨hlog, ?_⟩
    simp only [State.goto, rank]
    omega
  | added hpc hi =>
    rw [hpc] at hlog ⊢
    refine ⟨hlog, ?_⟩
    simp only [State.goto, rank, Loop.left, lap]
    omega
  | addLink hpc =>
    rw [hpc] at hlog ⊢
    refine ⟨hlog, ?_⟩
    simp only [State.goto, rank]
    omega
  | @addUnlock i hpc =>
    rw [hpc] at hat hlog ⊢
    have hi : i < N.val := hat.1
    refine ⟨hlog, ?_⟩
    simp only [State.goto, rank]
    omega
  | synchronize hpc | clearFlag hpc | lockDelete hpc | checkFlag hpc =>
    rw [hpc] at hlog ⊢
    refine ⟨hlog, ?_⟩
    simp only [State.goto, rank, Loop.left]
    omega
  | @first l pos hpc hnext =>
    rw [hpc] at hat hlog ⊢
    have hstand : Stand N s.memory l [] (input N l) := hat
    have hpos : pos = (input N l).headD .head :=
      Link.node.inj (hnext.symm.trans hstand.shape.ring.next_head)
    have hle := length_ahead_le N l pos
    refine ⟨?_, ?_⟩
    · simp only [State.goto, output, (hstand.place hpos).1, lines_nil, List.append_nil]
      exact hlog
    · simp only [State.goto, rank]
      omega
  | @leave l hpc =>
    rw [hpc] at hlog ⊢
    refine ⟨?_, rank_leave_lt N l⟩
    rw [output, behind_head] at hlog
    exact hlog.trans (output_leave N l).symm
  | @enter l pos hpc =>
    rw [hpc] at hlog ⊢
    exact ⟨hlog.trans (output_enter N l pos).symm, rank_enter_lt N l pos⟩
  | @readLock l pos hpc =>
    rw [hpc] at hlog ⊢
    exact ⟨hlog.trans (output_inside N l pos).symm, rank_inside_lt N l pos⟩
  | @print l pos hpc =>
    rw [hpc] at hat hlog ⊢
    obtain ⟨hu, hd, l₁, l₂, hstand⟩ := hat
    have hdata : s.data pos = datum pos := hstand.data_eq
    refine ⟨?_, ?_⟩
    · simp only [State.goto, State.printk, output, hlog, hdata, lines_append hu hd,
        List.append_assoc]
    · simp only [State.goto, rank]
      omega
  | update hpc | noUpdate hpc | match20 hpc | noMatch hpc =>
    rw [hpc] at hlog ⊢
    refine ⟨?_, ?_⟩
    · simpa [State.goto, output, lines] using hlog
    · simp only [State.goto, rank, Loop.left]
      omega
  | replace hpc | delete hpc =>
    rw [hpc] at hlog ⊢
    refine ⟨hlog, ?_⟩
    simp only [State.goto, rank]
    omega
  | setNew hpc | updateLock hpc | updateUnlock hpc | readUnlock hpc | setFlag hpc
  | deleteUnlock hpc | callRcu hpc =>
    rw [hpc] at hlog ⊢
    refine ⟨?_, ?_⟩
    · simpa [State.goto, State.setData, State.callRcu, output, lines] using hlog
    · simp only [State.goto, rank, Loop.left]
      omega
  | @advance l pos next hpc hnext =>
    rw [hpc] at hat hlog ⊢
    obtain ⟨l₁, l₂, hpassed, hcalled⟩ := hat
    obtain ⟨hbehind, hahead⟩ := hpassed.place_next hcalled
    obtain rfl : next = l₂.headD .head := Link.node.inj (hnext.symm.trans hpassed.next)
    refine ⟨?_, ?_⟩
    · simp only [State.goto, output, hbehind]
      exact hlog
    · simp only [State.goto, rank, hahead]
      omega

theorem traced_load (N : Element) (data : Node → BitVec 32) (links : Links Node) :
    Traced N (load data links) := ⟨at_load N data links, rfl, nofun⟩

/-- The step lemma for the module, in a run of `start` alone. -/
theorem Traced.step (h : Traced N s) (hs : step N s (.start true) = some s') :
    Traced N s' ∧ rank N s'.pc < rank N s.pc := by
  obtain ⟨t, ht, rfl⟩ := Option.map_eq_some_iff.1 hs
  obtain ⟨hmem, hpc, -, -, -, hquiesce⟩ := t.quiesce_frame
  obtain ⟨⟨hat, hlog, hret⟩, hlt⟩ := h.start_step ht
  rw [hpc]
  refine ⟨⟨?_, ?_, ?_⟩, hlt⟩
  · rw [hmem, hpc]
    exact hat
  · rw [hquiesce, hpc]
    exact hlog
  · rw [hpc]
    exact hret

/-! ## The sequences -/

/-- The sequence `10 * (N - 1), ..., 10, 0`. -/
def countdown (N : Element) : List ℤ := (List.range N.val).reverse.map fun i : ℕ => 10 * (i : ℤ)

/-- What the update makes of the sequence. -/
def updated (N : Element) : List ℤ := (countdown N).map fun v => if v = 10 then 1400 else v

/-- What the deletion leaves of it. -/
def deleted (N : Element) : List ℤ := (updated N).filter (· ≠ 20)

theorem built_eq (n : ℕ) : built n = (List.range n).reverse.map .val := by
  induction n with
  | zero => rfl
  | succ n ih => simp [built, ih, List.range_succ]

theorem flatMap_keep_update (xs : List Node) :
    xs.flatMap (keep .update) = xs.map fun x => if x = .val 1 then .newNode else x := by
  induction xs with
  | nil => rfl
  | cons x xs ih =>
    rw [List.flatMap_cons, ih]
    by_cases hx : x = .val 1 <;> simp [keep, hx]

theorem flatMap_keep_delete (xs : List Node) :
    xs.flatMap (keep .delete) = xs.filter (· ≠ .val 2) := by
  induction xs with
  | nil => rfl
  | cons x xs ih =>
    rw [List.flatMap_cons, ih]
    by_cases hx : x = .val 2 <;> simp [keep, hx]

section Int

variable (hN : 10 * ((N.val : ℤ) - 1) < 2 ^ 31)
include hN

theorem toInt_value {i : ℕ} (hi : i < N.val) : (value i).toInt = 10 * i := by
  have hlt : 10 * i < 2 ^ 31 := by omega
  unfold value
  rw [BitVec.toInt_eq_toNat_of_lt, BitVec.toNat_ofNat, Nat.mod_eq_of_lt (by omega)]
  · push_cast
    rfl
  · rw [BitVec.toNat_ofNat, Nat.mod_eq_of_lt (by omega)]
    omega

theorem toInt_read0 : (input N .read0).map (fun x => (datum x).toInt) = countdown N := by
  rw [input, built_eq, countdown, List.map_map]
  refine List.map_congr_left fun i hi => ?_
  exact toInt_value hN (by simpa using hi)

theorem toInt_read1 : (input N .read1).map (fun x => (datum x).toInt) = updated N := by
  rw [input, flatMap_keep_update, updated, ← toInt_read0 hN, input, List.map_map, List.map_map]
  refine List.map_congr_left fun x hx => ?_
  obtain ⟨i, hi, rfl⟩ := mem_built.1 hx
  have hval := toInt_value hN hi
  by_cases h1 : i = 1
  · subst h1
    rfl
  · have hten : (10 : ℤ) * i ≠ 10 := by omega
    simp [datum, hval, h1, hten]

theorem toInt_read2 : (input N .read2).map (fun x => (datum x).toInt) = deleted N := by
  have htwenty : ∀ x ∈ input N .read1, decide (x ≠ .val 2) = decide ((datum x).toInt ≠ 20) := by
    intro x hx
    rw [decide_eq_decide, not_iff_not]
    obtain rfl | ⟨i, hi, rfl⟩ := mem_input hx
    · exact iff_of_false (by decide) (by decide)
    · rw [datum, toInt_value hN hi, Node.val.injEq]
      omega
  have hread2 : input N .read2 = (input N .read1).filter (· ≠ .val 2) := flatMap_keep_delete _
  rw [hread2, List.filter_congr htwenty, deleted, ← toInt_read1 hN, List.filter_map]
  rfl

end Int

/-! ## The whole run -/

/-- The list is circular, and `next` and `prev` are inverse to each other, where a traversal begins
and where it ends: it then has the nodes that the traversal was to find, and to leave. -/
def WellFormed (N : Element) (s : State) : Prop :=
  (∀ l, s.pc = .first l → IsRing s.links .head (input N l)) ∧
    ∀ l, s.pc = .visit l .head → IsRing s.links .head ((input N l).flatMap (keep l))

theorem At.wellFormed (h : At N s.memory s.pc) : WellFormed N s := by
  constructor
  · intro l hpc
    rw [hpc] at h
    exact (Stand.shape h).ring
  · intro l hpc
    rw [hpc] at h
    obtain ⟨l₁, l₂, hstand, hpos⟩ := h
    obtain rfl := hstand.headD_eq_head hpos.symm
    have hsplit : input N l = l₁ := by simpa using hstand.split
    have hring := hstand.shape.ring
    rw [List.append_nil] at hring
    rw [hsplit]
    exact hring

/-- **What `start` does to the list and prints.** For every value of `element` for which the data
are representable: when every `kmalloc` succeeds and no callback runs before `start` returns, all
five traversals come to an end and `start` returns 0; the list is well formed wherever a traversal
begins or ends; and the readers print the numbers `10 * (N - 1), ..., 10, 0`, then those with 1400
in place of 10, then those without 20. -/
theorem start_prints (N : Element) (hN : 10 * ((N.val : ℤ) - 1) < 2 ^ 31)
    (data : Node → BitVec 32) (links : Links Node) :
    ∃ n s, Runs (step N) (load data links) (List.replicate n (.start true)) s ∧
      s.pc = .returned 0 ∧
      Always (step N) (WellFormed N) (load data links) (List.replicate n (.start true)) ∧
      ∃ d₀ d₁ d₂ : List (BitVec 32),
        s.log = .hello ::
          (d₀.map (.value .read0) ++ d₁.map (.value .read1) ++ d₂.map (.value .read2)) ∧
        d₀.map BitVec.toInt = countdown N ∧ d₁.map BitVec.toInt = updated N ∧
          d₂.map BitVec.toInt = deleted N := by
  have hstep : ∀ s, Traced N s → (¬∃ ret, s.pc = .returned ret) → ∃ e s', e = .start true ∧
      step N s e = some s' ∧ Traced N s' ∧ rank N s'.pc < rank N s.pc := by
    intro s h hpc
    obtain ⟨t, ht⟩ := h.walk.progress (fun ret hret => hpc ⟨ret, hret⟩) true
    have hs : step N s (.start true) = some t.quiesce := Option.map_eq_some_iff.2 ⟨t, ht, rfl⟩
    exact ⟨.start true, t.quiesce, rfl, hs, h.step hs⟩
  obtain ⟨es, s, hes, hruns, htraced, ret, hret⟩ :=
    Runs.exists_of_rank (fun s => rank N s.pc) hstep (traced_load N data links)
  rw [List.eq_replicate_of_mem hes] at hruns
  obtain rfl := htraced.ret ret hret
  refine ⟨es.length, s, hruns, hret, ?_, (input N .read0).map datum, (input N .read1).map datum,
    (input N .read2).map datum, ?_, ?_, ?_, ?_⟩
  · exact Always.of_invariant (I := fun s => At N s.memory s.pc) (G := fun _ _ => True)
      (fun s e s' h _ hs => h.preserved hs) (fun s h => h.wellFormed) (along_true _ _)
      (at_load N data links)
  · rw [htraced.log, hret]
    simp [output, before, lines, Function.comp_def]
  · rw [List.map_map]
    exact toInt_read0 hN
  · rw [List.map_map]
    exact toInt_read1 hN
  · rw [List.map_map]
    exact toInt_read2 hN

/-- For the five elements of the source, these are the numbers of `sample_output`. -/
theorem start_prints_sample :
    (10 * ((Element.five.val : ℤ) - 1) < 2 ^ 31 ∧ countdown .five = [40, 30, 20, 10, 0] ∧
      updated .five = [40, 30, 20, 1400, 0] ∧ deleted .five = [40, 30, 1400, 0]) ∧
    ∃ n s, Runs (step .five) (load (fun _ => 0) ⟨.node, .node⟩)
      (List.replicate n (.start true)) s ∧ s.pc = .returned 0 := by
  obtain ⟨n, s, hruns, hpc, -⟩ := start_prints .five (by decide) (fun _ => 0) ⟨.node, .node⟩
  exact ⟨by decide, n, s, hruns, hpc⟩

end Lkb.Rcu
