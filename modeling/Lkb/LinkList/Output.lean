import Lkb.LinkList.Start

/-!
# What `start` of `link_list` does

`At` says what holds at each point of `start`: which structures are allocated, which nodes are on
the list, and what was printed. `print_list` finds the structures from the last one to the first,
then `temp` behind them, then all structures but `fvar[0]`; and when `start` has returned 0, every
structure is freed (`start_prints_and_frees`). The two results of `kmalloc` lead apart only in the
first loop (`step_to_returned`).
-/

namespace Lkb.LinkList

open CircularList Run

variable {N i : ℕ} {s s' : State} {ok : Bool} {c : Call} {l₁ l₂ : List Node}

/-! ## The lists -/

/-- The list after `n` structures were added. -/
def built (n : ℕ) : List Node := (List.range n).reverse.map .fvar

/-- The list that each call of `print_list` finds. -/
def listed (N : ℕ) : Call → List Node
  | .added => built N
  | .appended => built N ++ [.temp]
  | .deleted => (built N).dropLast

/-- The field `a` of a node on the list. -/
def content : Node → BitVec 32
  | .mylist => 0
  | .fvar i => value i
  | .temp => 1400

/-- The line that `print_list` prints for a node. -/
def line (x : Node) : Message := .data (content x)

/-- The lines of a whole call of `print_list`. -/
def lines (N : ℕ) (c : Call) : List Message := (listed N c).map line ++ [.bar]

/-- What was printed before each call. -/
def before (N : ℕ) : Call → List Message
  | .added => []
  | .appended => lines N .added
  | .deleted => lines N .added ++ lines N .appended

theorem built_succ (n : ℕ) : built (n + 1) = .fvar n :: built n := by
  simp [built, List.range_succ]

theorem built_eq_concat (h : 0 < N) : built N = (built N).dropLast ++ [.fvar 0] := by
  obtain ⟨n, rfl⟩ : ∃ n, N = n + 1 := ⟨N - 1, by omega⟩
  have hlast : built (n + 1) = ((List.range n).map Nat.succ).reverse.map .fvar ++ [.fvar 0] := by
    simp [built, List.range_succ_eq_map]
  rw [hlast, List.dropLast_concat]

theorem mem_built {x : Node} : x ∈ built N ↔ ∃ i < N, x = .fvar i := by
  simp [built, eq_comm]

/-! ## The points of `start` -/

/-- The structures from `lo` up to `hi` are allocated. -/
def blocks (lo hi : ℕ) : List ℕ := (List.range' lo (hi - lo)).reverse

/-- The part of the state that the list and the structures are in. -/
structure Memory where
  a : Node → BitVec 32
  links : Links Node
  allocated : List ℕ

def State.memory (s : State) : Memory := ⟨s.a, s.links, s.allocated⟩

/-- The structures below `n` are allocated, and have their values. -/
structure Filled (n : ℕ) (m : Memory) : Prop where
  allocated : m.allocated = blocks 0 n
  vals : ∀ i < n, m.a (.fvar i) = value i

/-- The call `c` of `print_list` finds its list. -/
structure Ready (N : ℕ) (c : Call) (m : Memory) : Prop extends Filled N m where
  ring : IsRing m.links .mylist (listed N c)
  temp : c = .appended → m.a .temp = 1400

/-- What holds at each point of `start`. -/
def At (N : ℕ) (m : Memory) (log : List Message) : Pc → Prop
  | .initListHead => m.allocated = [] ∧ log = []
  | .kmalloc i => i ≤ N ∧ Filled i m ∧ IsRing m.links .mylist [] ∧ log = []
  | .listAdd i => i ≤ N ∧ Filled N m ∧ IsRing m.links .mylist (built i) ∧ log = []
  | .first c => Ready N c m ∧ log = before N c
  | .visit c f =>
    Ready N c m ∧ ∃ l₁ l₂, listed N c = l₁ ++ l₂ ∧ f = l₂.headD .mylist ∧
      log = before N c ++ l₁.map line
  | .advance c f =>
    Ready N c m ∧ ∃ l₁ l₂, listed N c = l₁ ++ f :: l₂ ∧ log = before N c ++ (l₁ ++ [f]).map line
  | .bar c => Ready N c m ∧ log = before N c ++ (listed N c).map line
  | .setTemp => Ready N .added m ∧ log = before N .appended
  | .addTemp => Ready N .added m ∧ m.a .temp = 1400 ∧ log = before N .appended
  | .delTemp => Ready N .appended m ∧ log = before N .deleted
  | .delFirst => Ready N .added m ∧ log = before N .deleted
  | .kfree i => i ≤ N ∧ m.allocated = blocks i N ∧ log = before N .deleted ++ lines N .deleted
  | .returned ret =>
    ret = -1 ∨ ret = 0 ∧ m.allocated = [] ∧ log = before N .deleted ++ lines N .deleted

variable {m : Memory}

theorem at_load (N : ℕ) (a : Node → BitVec 32) (links : Links Node) :
    At N (load a links).memory [] .initListHead :=
  ⟨rfl, rfl⟩

theorem mem_listed {x : Node} (h : x ∈ listed N c) :
    (∃ i < N, x = .fvar i) ∨ c = .appended ∧ x = .temp := by
  cases c with
  | added => exact .inl (mem_built.1 h)
  | appended =>
    obtain h | h := List.mem_append.1 h
    · exact .inl (mem_built.1 h)
    · exact .inr ⟨rfl, List.mem_singleton.1 h⟩
  | deleted => exact .inl (mem_built.1 (List.dropLast_subset _ h))

theorem ne_mylist {x : Node} (h : x ∈ listed N c) : x ≠ .mylist := by
  obtain ⟨i, -, rfl⟩ | ⟨-, rfl⟩ := mem_listed h
  · nofun
  · nofun

/-- The nodes on the list have their contents. -/
theorem Ready.a_eq {x : Node} (h : Ready N c m) (hx : x ∈ listed N c) : m.a x = content x := by
  obtain ⟨i, hi, rfl⟩ | ⟨hc, rfl⟩ := mem_listed hx
  · exact h.vals i hi
  · exact h.temp hc

theorem Ready.next (h : Ready N c m) {f : Node} (hsplit : listed N c = l₁ ++ f :: l₂) :
    m.links.next f = .node (l₂.headD .mylist) := by
  have hring := h.ring
  rw [hsplit] at hring
  exact hring.next_eq

/-- `fvar[0]` is the last one of the structures on the list. -/
theorem Ready.ring_first (h : Ready N .added m) (hN : 0 < N) :
    IsRing m.links .mylist ((built N).dropLast ++ .fvar 0 :: []) := by
  rw [← built_eq_concat hN]
  exact h.ring

theorem Filled.first_mem_iff (h : Filled N m) : 0 ∈ m.allocated ↔ 0 < N := by
  rw [h.allocated, blocks, List.mem_reverse, List.mem_range'_1]
  omega

theorem fvar_not_mem (i : ℕ) : .fvar i ∉ .mylist :: built i := by
  simp [built]

theorem temp_not_mem (N : ℕ) : .temp ∉ .mylist :: built N := by
  simp [built]

theorem blocks_succ (n : ℕ) : blocks 0 (n + 1) = n :: blocks 0 n := by
  simp [blocks, List.range'_1_concat]

theorem blocks_erase (h : i < N) : (blocks i N).erase i = blocks (i + 1) N := by
  have hsub : N - i = N - (i + 1) + 1 := by omega
  have hnot : i ∉ blocks (i + 1) N := by
    simp only [blocks, List.mem_reverse, List.mem_range'_1]
    omega
  rw [blocks, hsub, List.range'_succ, List.reverse_cons, ← blocks,
    List.erase_append_right [i] hnot, List.erase_cons_head, List.append_nil]

/-! ## The steps of `start` -/

/-- **The steps of `start`.** Every statement leads from what holds at one point to what holds at
the next. -/
theorem At.step (h : At N s.memory s.log s.pc) (hs : step N s ok = some s') :
    At N s'.memory s'.log s'.pc := by
  cases step_moves hs with
  | initListHead hpc =>
    rw [hpc] at h
    obtain ⟨halloc, hlog⟩ := h
    exact ⟨Nat.zero_le N, ⟨halloc, nofun⟩, isRing_initListHead s.links .mylist, hlog⟩
  | @kmalloc i hpc hlt =>
    rw [hpc] at h
    obtain ⟨-, hfilled, hring, hlog⟩ := h
    refine ⟨hlt, ⟨?_, fun j hj => ?_⟩, hring, hlog⟩
    · rw [blocks_succ, ← hfilled.allocated]
      rfl
    · by_cases hji : j = i
      · rw [hji]
        exact Function.update_self (.fvar i) (value i) s.a
      · have hne : Node.fvar j ≠ .fvar i := fun e => hji (Node.fvar.inj e)
        exact (Function.update_of_ne hne _ s.a).trans (hfilled.vals j (by omega))
  | kmallocFailed => exact .inl rfl
  | @filled i hpc hlt =>
    rw [hpc] at h
    obtain ⟨hi, hfilled, hring, hlog⟩ := h
    obtain rfl : i = N := by omega
    exact ⟨Nat.zero_le i, hfilled, hring, hlog⟩
  | @listAdd i m hpc hlt hm =>
    rw [hpc] at h
    obtain ⟨-, hfilled, hring, hlog⟩ := h
    obtain ⟨m', hm', hring'⟩ := listAdd_isRing hring (fvar_not_mem i)
    obtain rfl : m' = m := Option.some.inj (hm'.symm.trans hm)
    refine ⟨hlt, ⟨hfilled.allocated, hfilled.vals⟩, ?_, hlog⟩
    rw [built_succ]
    exact hring'
  | @added i hpc hlt =>
    rw [hpc] at h
    obtain ⟨hi, hfilled, hring, hlog⟩ := h
    obtain rfl : i = N := by omega
    exact ⟨⟨hfilled, hring, nofun⟩, hlog⟩
  | @first c f hpc hnext =>
    rw [hpc] at h
    obtain ⟨hready, hlog⟩ := h
    refine ⟨hready, [], listed N c, rfl, ?_, ?_⟩
    · exact Link.node.inj (hnext.symm.trans hready.ring.next_head)
    · rw [List.map_nil, List.append_nil]
      exact hlog
  | @last c hpc =>
    rw [hpc] at h
    obtain ⟨hready, l₁, l₂, hsplit, hf, hlog⟩ := h
    cases l₂ with
    | nil =>
      obtain rfl : listed N c = l₁ := by simpa using hsplit
      exact ⟨hready, hlog⟩
    | cons x l₂ =>
      obtain rfl : .mylist = x := hf
      have hmem : .mylist ∈ listed N c := by simp [hsplit]
      exact absurd rfl (ne_mylist hmem)
  | @data c f hpc hhead =>
    rw [hpc] at h
    obtain ⟨hready, l₁, l₂, hsplit, hf, hlog⟩ := h
    cases l₂ with
    | nil => exact absurd hf hhead
    | cons x l₂ =>
      obtain rfl : f = x := hf
      have hmem : f ∈ listed N c := by simp [hsplit]
      have ha : s.a f = content f := hready.a_eq hmem
      refine ⟨hready, l₁, l₂, hsplit, ?_⟩
      simp [State.prInfo, State.goto, hlog, ha, line]
  | @advance c f next hpc hnext =>
    rw [hpc] at h
    obtain ⟨hready, l₁, l₂, hsplit, hlog⟩ := h
    refine ⟨hready, l₁ ++ [f], l₂, by simp [hsplit], ?_, hlog⟩
    exact Link.node.inj (hnext.symm.trans (hready.next hsplit))
  | @bar c hpc =>
    rw [hpc] at h
    obtain ⟨hready, hlog⟩ := h
    cases c with
    | added => exact ⟨hready, by simp [State.prInfo, State.goto, hlog, before, lines]⟩
    | appended => exact ⟨hready, by simp [State.prInfo, State.goto, hlog, before, lines]⟩
    | deleted =>
      refine ⟨Nat.zero_le N, hready.allocated, ?_⟩
      simp [State.prInfo, State.goto, hlog, lines]
  | setTemp hpc =>
    rw [hpc] at h
    obtain ⟨hready, hlog⟩ := h
    refine ⟨⟨⟨hready.allocated, fun i hi => ?_⟩, hready.ring, nofun⟩, ?_, hlog⟩
    · have hne : Node.fvar i ≠ .temp := nofun
      exact (Function.update_of_ne hne 1400 s.a).trans (hready.vals i hi)
    · exact Function.update_self Node.temp 1400 s.a
  | @addTemp m hpc hm =>
    rw [hpc] at h
    obtain ⟨hready, htemp, hlog⟩ := h
    obtain ⟨m', hm', hring'⟩ := listAddTail_isRing hready.ring (temp_not_mem N)
    obtain rfl : m' = m := Option.some.inj (hm'.symm.trans hm)
    exact ⟨⟨⟨hready.allocated, hready.vals⟩, hring', fun _ => htemp⟩, hlog⟩
  | @delTemp m hpc hm =>
    rw [hpc] at h
    obtain ⟨hready, hlog⟩ := h
    have hring : IsRing s.links .mylist (built N ++ .temp :: []) := hready.ring
    obtain ⟨m', hm', hring'⟩ := listDel_isRing hring
    obtain rfl : m' = m := Option.some.inj (hm'.symm.trans hm)
    rw [List.append_nil] at hring'
    exact ⟨⟨⟨hready.allocated, hready.vals⟩, hring', nofun⟩, hlog⟩
  | @delFirst m hpc h0 hm =>
    rw [hpc] at h
    obtain ⟨hready, hlog⟩ := h
    have hN : 0 < N := hready.first_mem_iff.1 h0
    obtain ⟨m', hm', hring'⟩ := listDel_isRing (hready.ring_first hN)
    obtain rfl : m' = m := Option.some.inj (hm'.symm.trans hm)
    rw [List.append_nil] at hring'
    exact ⟨⟨⟨hready.allocated, hready.vals⟩, hring', nofun⟩, hlog⟩
  | kfree hpc hlt =>
    rw [hpc] at h
    obtain ⟨-, halloc, hlog⟩ := h
    refine ⟨hlt, ?_, hlog⟩
    rw [← blocks_erase hlt, ← halloc]
    rfl
  | @freed i hpc hlt =>
    rw [hpc] at h
    obtain ⟨hi, halloc, hlog⟩ := h
    obtain rfl : i = N := by omega
    have hnil : blocks i i = [] := by simp [blocks]
    exact .inr ⟨rfl, halloc.trans hnil, hlog⟩

/-- `start` returns -1 only where `kmalloc` fails. -/
theorem step_to_returned (hs : step N s ok = some s') (hpc' : s'.pc = .returned (-1)) :
    ok = false ∧ ∃ i < N, s.pc = .kmalloc i := by
  cases step_moves hs with
  | @kmallocFailed i hpc hi hok => exact ⟨hok, i, hi, hpc⟩
  | @bar c => cases c <;> cases hpc'
  | _ => cases hpc'

/-! ## The end of `start` -/

/-- How many calls of `print_list` come after this one. -/
def Call.left : Call → ℕ
  | .added => 2
  | .appended => 1
  | .deleted => 0

/-- The nodes of the lists, numbered from the last one on. -/
def Node.weight : Node → ℕ
  | .mylist => 0
  | .temp => 1
  | .fvar i => i + 2

/-- A bound for the steps of one call of `print_list`, with what comes before it. -/
def lap (N : ℕ) : ℕ := 2 * N + 10

/-- How far `start` is from its end. -/
def rank (N : ℕ) : Pc → ℕ
  | .initListHead => 2 * lap N + 5 * N + 12
  | .kmalloc i => 2 * lap N + 4 * N + (N - i) + 11
  | .listAdd i => 2 * lap N + 3 * N + (N - i) + 10
  | .first c => c.left * lap N + 3 * N + 9
  | .visit c f => c.left * lap N + N + 2 * f.weight + 4
  | .advance c f => c.left * lap N + N + 2 * f.weight + 3
  | .bar c => c.left * lap N + N + 3
  | .setTemp => lap N + 3 * N + 11
  | .addTemp => lap N + 3 * N + 10
  | .delTemp => 3 * N + 11
  | .delFirst => 3 * N + 10
  | .kfree i => N - i + 1
  | .returned _ => 0

theorem rank_leave_lt (N : ℕ) (c : Call) : rank N (leave c) < rank N (.bar c) := by
  cases c <;> simp only [leave, rank, Call.left, lap] <;> omega

/-- Along each list, the weight goes down. -/
theorem listed_pairwise (N : ℕ) (c : Call) :
    (listed N c).Pairwise fun x y => y.weight < x.weight := by
  have hbuilt : (built N).Pairwise fun x y => y.weight < x.weight := by
    rw [built, List.pairwise_map, List.pairwise_reverse]
    refine List.pairwise_lt_range.imp fun hlt => ?_
    simp only [Node.weight]
    omega
  cases c with
  | added => exact hbuilt
  | appended =>
    refine List.pairwise_append.2 ⟨hbuilt, List.pairwise_singleton _ _, fun x hx y hy => ?_⟩
    obtain ⟨i, -, rfl⟩ := mem_built.1 hx
    obtain rfl := List.mem_singleton.1 hy
    simp only [Node.weight]
    omega
  | deleted => exact hbuilt.sublist (List.dropLast_sublist _)

theorem weight_le {x : Node} (h : x ∈ .mylist :: listed N c) : x.weight ≤ N + 1 := by
  obtain rfl | h := List.mem_cons.1 h
  · exact Nat.zero_le _
  · obtain ⟨i, hi, rfl⟩ | ⟨-, rfl⟩ := mem_listed h
    · simp only [Node.weight]
      omega
    · simp only [Node.weight]
      omega

/-- The weight of the next entry. -/
theorem weight_next_lt {f : Node} (h : listed N c = l₁ ++ f :: l₂) :
    (l₂.headD .mylist).weight < f.weight := by
  have hpairwise := listed_pairwise N c
  have hmem : f ∈ listed N c := by simp [h]
  rw [h, List.pairwise_append, List.pairwise_cons] at hpairwise
  cases l₂ with
  | nil =>
    obtain ⟨i, -, rfl⟩ | ⟨-, rfl⟩ := mem_listed hmem
    · exact Nat.succ_pos _
    · exact Nat.succ_pos _
  | cons x l₂ => exact hpairwise.2.1.1 x List.mem_cons_self

/-- **`start` goes on to its end**, unless there is no `fvar[0]`. -/
theorem At.progress (h : At N s.memory s.log s.pc) (hN : 0 < N)
    (hpc : ¬∃ ret, s.pc = .returned ret) :
    ∃ s', LinkList.step N s true = some s' ∧ rank N s'.pc < rank N s.pc := by
  unfold LinkList.step
  cases hp : s.pc with
  | initListHead =>
    refine ⟨_, rfl, ?_⟩
    simp only [State.goto, rank]
    omega
  | kmalloc i =>
    by_cases hlt : i < N
    · refine ⟨_, (if_pos hlt).trans (if_pos rfl), ?_⟩
      simp only [State.goto, rank]
      omega
    · refine ⟨_, if_neg hlt, ?_⟩
      simp only [State.goto, rank]
      omega
  | listAdd i =>
    rw [hp] at h
    obtain ⟨-, -, hring, -⟩ := h
    by_cases hlt : i < N
    · obtain ⟨links, hlinks, -⟩ := listAdd_isRing hring (fvar_not_mem i)
      refine ⟨_, (if_pos hlt).trans (Option.map_eq_some_iff.2 ⟨links, hlinks, rfl⟩), ?_⟩
      simp only [State.goto, rank]
      omega
    · refine ⟨_, if_neg hlt, ?_⟩
      simp only [State.goto, rank, Call.left]
      omega
  | first c =>
    rw [hp] at h
    have hnext : s.links.next .mylist = _ := h.1.ring.next_head
    have hle := weight_le (headD_mem_cons (listed N c) .mylist)
    refine ⟨s.goto (.visit c ((listed N c).headD .mylist)), by simp only [hnext], ?_⟩
    simp only [State.goto, rank]
    omega
  | visit c f =>
    by_cases hhead : f = .mylist
    · refine ⟨_, if_pos hhead, ?_⟩
      simp only [State.goto, rank]
      omega
    · refine ⟨_, if_neg hhead, ?_⟩
      simp only [State.goto, rank]
      omega
  | advance c f =>
    rw [hp] at h
    obtain ⟨hready, l₁, l₂, hsplit, -⟩ := h
    have hnext : s.links.next f = _ := hready.next hsplit
    have hlt := weight_next_lt hsplit
    refine ⟨s.goto (.visit c (l₂.headD .mylist)), by simp only [hnext], ?_⟩
    simp only [State.goto, rank]
    omega
  | bar c => exact ⟨_, rfl, rank_leave_lt N c⟩
  | setTemp =>
    refine ⟨_, rfl, ?_⟩
    simp only [State.goto, rank]
    omega
  | addTemp =>
    rw [hp] at h
    obtain ⟨links, hlinks, -⟩ := listAddTail_isRing h.1.ring (temp_not_mem N)
    refine ⟨_, Option.map_eq_some_iff.2 ⟨links, hlinks, rfl⟩, ?_⟩
    simp only [State.goto, rank, Call.left]
    omega
  | delTemp =>
    rw [hp] at h
    have hring : IsRing s.links .mylist (built N ++ .temp :: []) := h.1.ring
    obtain ⟨links, hlinks, -⟩ := listDel_isRing hring
    refine ⟨_, Option.map_eq_some_iff.2 ⟨links, hlinks, rfl⟩, ?_⟩
    simp only [State.goto, rank]
    omega
  | delFirst =>
    rw [hp] at h
    have hfirst : 0 ∈ s.allocated := h.1.first_mem_iff.2 hN
    obtain ⟨links, hlinks, -⟩ := listDel_isRing (h.1.ring_first hN)
    refine ⟨_, (if_pos hfirst).trans (Option.map_eq_some_iff.2 ⟨links, hlinks, rfl⟩), ?_⟩
    simp only [State.goto, rank, Call.left]
    omega
  | kfree i =>
    by_cases hlt : i < N
    · refine ⟨_, if_pos hlt, ?_⟩
      simp only [State.goto, rank]
      omega
    · refine ⟨_, if_neg hlt, ?_⟩
      simp only [State.goto, rank]
      omega
  | returned ret => exact absurd ⟨ret, hp⟩ hpc

/-- **What `start` prints and frees.** For every positive bound, if every `kmalloc` succeeds,
`start` returns 0 when it has printed the structures from the last one to the first, the same with
`temp` behind them, and all structures but `fvar[0]`; every structure is then freed. -/
theorem start_prints_and_frees (hN : 0 < N) (a : Node → BitVec 32) (links : Links Node) :
    ∃ n s, Runs (step N) (load a links) (List.replicate n true) s ∧ s.pc = .returned 0 ∧
      s.allocated = [] ∧ s.log = lines N .added ++ lines N .appended ++ lines N .deleted := by
  have hstep : ∀ s, At N s.memory s.log s.pc ∧ s.pc ≠ .returned (-1) →
      (¬∃ ret, s.pc = .returned ret) → ∃ ok s', ok = true ∧ step N s ok = some s' ∧
        (At N s'.memory s'.log s'.pc ∧ s'.pc ≠ .returned (-1)) ∧ rank N s'.pc < rank N s.pc := by
    rintro s ⟨hat, -⟩ hpc
    obtain ⟨s', hs, hlt⟩ := hat.progress hN hpc
    refine ⟨true, s', rfl, hs, ⟨hat.step hs, fun hret => ?_⟩, hlt⟩
    obtain ⟨hok, -⟩ := step_to_returned hs hret
    cases hok
  obtain ⟨oks, s, hoks, hruns, ⟨hat, hne⟩, ret, hret⟩ :=
    Runs.exists_of_rank (fun s : State => rank N s.pc) hstep ⟨at_load N a links, by simp [load]⟩
  rw [List.eq_replicate_of_mem hoks] at hruns
  rw [hret] at hat hne
  obtain rfl | ⟨rfl, halloc, hlog⟩ := hat
  · exact absurd rfl hne
  · exact ⟨oks.length, s, hruns, hret, halloc, hlog⟩

theorem start_prints_and_frees_five :
    ∃ n s, Runs (step 5) (load (fun _ => 0) ⟨fun _ => .node .mylist, fun _ => .node .mylist⟩)
      (List.replicate n true) s ∧ s.pc = .returned 0 ∧ s.allocated = [] ∧
      s.log = lines 5 .added ++ lines 5 .appended ++ lines 5 .deleted :=
  start_prints_and_frees (by decide) _ _

/-- The last list of the source, with its five structures. -/
example : lines 5 .deleted = [.data 400, .data 300, .data 200, .data 100, .bar] := by
  decide

end Lkb.LinkList
