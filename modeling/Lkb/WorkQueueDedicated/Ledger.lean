import Lkb.WorkQueueDedicated.Runs

/-!
# The books of `work_queue_dedicated`

What the handler has done so far, as an account of its nodes. Every node that it has added was
printed by a flush, or is one of `f[0], …, f[moving_val - 1]`; the allocated nodes are the nodes
that it has added, since nothing frees one (`Ledger`). `Ledger.preserved` is the step lemma, and
`Books.preserved` carries it through every run.
-/

namespace Lkb.WorkQueueDedicated

open CircularList Run

variable {d d' : Data} {nodes : List Addr} {pc pc' : HandlerPc} {mem : Option Addr}

/-! ## What the handler has done -/

/-- The node of an addition. -/
def Done.node : Done → Option Addr
  | .added a => some a
  | _ => none

/-- The nodes of a flush, in the order in which it printed them. -/
def Done.batch : Done → Option (List Addr)
  | .flushed n => some (n.map Prod.fst)
  | _ => none

/-- The nodes that were added, in the order of the additions. -/
def addedNodes (done : List Done) : List Addr := done.filterMap Done.node

/-- The nodes that were printed, flush by flush. -/
def printedNodes (done : List Done) : List (List Addr) := done.filterMap Done.batch

/-- The nodes in the first `n` slots of the array. -/
def slots (f : ℕ → Option Addr) (n : ℕ) : List Addr := (List.range n).filterMap f

/-- The nodes that were added since the last flush, at each point of the handler. -/
def unprinted : HandlerPc → Data → List Addr
  | .print _ _, d => slots d.f batch
  | _, d => slots d.f d.movingVal.toNat

/-- The node that is allocated and not added yet. -/
def newNode : HandlerPc → Data → List Addr
  | .add, d => (d.f d.movingVal.toNat).toList
  | _, _ => []

/-- The account of the nodes. -/
structure Ledger (pc : HandlerPc) (d : Data) : Prop where
  printed : addedNodes d.done =
    ((printedNodes d.done).map List.reverse).flatten ++ unprinted pc d
  live : d.live = newNode pc d ++ (addedNodes d.done).reverse
  nodup : d.live.Nodup

@[simp] theorem addedNodes_concat (done : List Done) (r : Done) :
    addedNodes (done ++ [r]) = addedNodes done ++ r.node.toList := by
  cases r <;> simp [addedNodes, Done.node]

@[simp] theorem printedNodes_concat (done : List Done) (r : Done) :
    printedNodes (done ++ [r]) = printedNodes done ++ r.batch.toList := by
  cases r <;> simp [printedNodes, Done.batch]

/-! ## The slots of a batch -/

theorem slots_succ (f : ℕ → Option Addr) (n : ℕ) :
    slots f (n + 1) = slots f n ++ (f n).toList := by
  rw [slots, List.range_succ, List.filterMap_append]
  cases h : f n <;> simp [slots, h]

theorem slots_congr {f f' : ℕ → Option Addr} {n : ℕ} (h : ∀ i < n, f' i = f i) :
    slots f' n = slots f n := by
  apply List.filterMap_congr
  intro i hi
  exact h i (List.mem_range.1 hi)

/-- The slots of a batch hold its nodes. -/
theorem Batch.slots_eq (h : Batch d nodes) : slots d.f nodes.length = nodes := by
  have htake : ∀ n ≤ nodes.length, slots d.f n = nodes.take n := by
    intro n
    induction n with
    | zero => simp [slots]
    | succ n ih =>
      intro hn
      rw [slots_succ, ih (by omega), h.f_eq n (by omega), List.take_add_one]
  rw [htake _ le_rfl, List.take_length]

/-! ## The steps of the handler -/

/-- A step that adds and prints nothing, and leaves the slots of the batch and the allocated nodes
alone. -/
theorem Ledger.congr (h : Ledger pc d) (hdone : addedNodes d'.done = addedNodes d.done)
    (hprinted : printedNodes d'.done = printedNodes d.done)
    (hun : unprinted pc' d' = unprinted pc d) (hnew : newNode pc' d' = newNode pc d)
    (hlive : d'.live = d.live) : Ledger pc' d' where
  printed := by
    rw [hdone, hprinted, hun]
    exact h.printed
  live := by
    rw [hlive, hnew, hdone]
    exact h.live
  nodup := hlive ▸ h.nodup

/-- `kmalloc` adds nothing yet, but an allocated node waits to be added. -/
theorem Ledger.kmalloc (h : Ledger .kmalloc d) (hinv : Inv .kmalloc d) (hmem : Fresh d.live mem)
    (hs : handlerStep mem .kmalloc d = some (pc', d')) : Ledger pc' d' := by
  obtain ⟨nodes, hn, hlen⟩ := hinv.agrees
  have hidx : index d.movingVal = some nodes.length := by rw [hn.movingVal, index_natCast hlen]
  have hslots : slots (Function.update d.f nodes.length mem) nodes.length =
      slots d.f nodes.length :=
    slots_congr fun i hi => Function.update_of_ne (by omega) _ _
  simp only [handlerStep, hidx, Option.map_some, Option.some.injEq] at hs
  cases mem with
  | none =>
    obtain ⟨rfl, rfl⟩ := Prod.mk.inj hs
    refine h.congr (by simp [Data.record, Data.say, Done.node])
      (by simp [Data.record, Data.say, Done.batch]) ?_ rfl rfl
    simpa only [unprinted, Data.record, Data.say, hn.toNat_eq] using hslots
  | some a =>
    obtain ⟨rfl, rfl⟩ := Prod.mk.inj hs
    refine ⟨?_, ?_, List.nodup_cons.2 ⟨hmem, h.nodup⟩⟩
    · have hprinted := h.printed
      simp only [unprinted, Data.say, hn.toNat_eq] at hprinted ⊢
      rw [hprinted, hslots]
    · have hlive : d.live = (addedNodes d.done).reverse := h.live
      simp [newNode, Data.say, hn.toNat_eq, hlive]

/-- The node that was allocated is added. -/
theorem Ledger.add (h : Ledger .add d) (hinv : Inv .add d)
    (hs : handlerStep mem .add d = some (pc', d')) : Ledger pc' d' := by
  obtain ⟨nodes, hn, hlen, a, -, hf, -⟩ := hinv.agrees
  have hidx : index d.movingVal = some nodes.length := by rw [hn.movingVal, index_natCast hlen]
  simp only [handlerStep, hidx, hf, Option.bind_some, Option.map_eq_some_iff, Prod.mk.injEq] at hs
  obtain ⟨m, -, rfl, rfl⟩ := hs
  have hsucc : (d.movingVal + 1).toNat = nodes.length + 1 := by rw [hn.movingVal]; omega
  refine ⟨?_, ?_, h.nodup⟩
  · have hprinted := h.printed
    simp only [unprinted, hn.toNat_eq] at hprinted
    simp [unprinted, Data.record, hsucc, Done.node, Done.batch, slots_succ, hf, hprinted]
  · have hlive := h.live
    simp only [newNode, hn.toNat_eq, hf, Option.toList_some] at hlive
    simp [newNode, Data.record, hlive, Done.node]

/-- `print_list` begins with the whole batch. -/
theorem Ledger.flush (h : Ledger .flush d) (hinv : Inv .flush d)
    (hs : handlerStep mem .flush d = some (pc', d')) : Ledger pc' d' := by
  obtain ⟨nodes, hn, hlen⟩ := hinv.agrees
  simp only [handlerStep, Data.say, hn.ring.next_head, Option.some.injEq] at hs
  obtain ⟨rfl, rfl⟩ := Prod.mk.inj hs
  refine h.congr rfl rfl ?_ rfl rfl
  simp only [unprinted, hn.toNat_eq, hlen]

/-- The flush that is back at the head has printed the batch, from the last node to the first. -/
theorem Ledger.print {pos : Head} {seen : List (Addr × ℤ)} (h : Ledger (.print pos seen) d)
    (hinv : Inv (.print pos seen) d)
    (hs : handlerStep mem (.print pos seen) d = some (pc', d')) : Ledger pc' d' := by
  obtain ⟨hmv, nodes, hn, hlen, hring, l₁, l₂, hsplit, rfl, rfl⟩ := hinv.agrees
  cases l₂ with
  | nil =>
    rw [List.append_nil] at hsplit
    cases hs
    have hslots : slots d.f batch = nodes := hlen ▸ hn.slots_eq
    have hfst : (l₁.map fun a => (a, d.value a)).map Prod.fst = nodes.reverse := by
      simp [hsplit, Function.comp_def]
    refine ⟨?_, ?_, h.nodup⟩
    · have hprinted := h.printed
      simp only [unprinted, hslots] at hprinted
      simp [unprinted, Data.record, Done.node, Done.batch, hmv, slots, hprinted, hfst]
    · simpa [newNode, Data.record, Done.node] using h.live
  | cons a l₂ =>
    simp only [List.map_cons, List.headD_cons, handlerStep] at hs
    split at hs
    · cases hs
      exact h.congr rfl rfl rfl rfl rfl
    · cases hs

/-- **A step of the handler** keeps the account. -/
theorem Ledger.preserved (h : Ledger pc d) (hinv : Inv pc d)
    (hmem : pc = .kmalloc → Fresh d.live mem) (hs : handlerStep mem pc d = some (pc', d')) :
    Ledger pc' d' := by
  cases handlerStep_moves hs with
  | failed => exact h.kmalloc hinv (hmem rfl) hs
  | passed => exact h.kmalloc hinv (hmem rfl) hs
  | add => exact h.add hinv hs
  | flush => exact h.flush hinv hs
  | printed => exact h.print hinv hs
  | print => exact h.print hinv hs
  | _ => exact h.congr rfl rfl rfl rfl rfl

/-! ## The steps of the module -/

variable {s s' : State} {e : Event}

/-- The invariant of the loaded module, with the account of its nodes. -/
structure Books (s : State) : Prop where
  working : Working s
  ledger : Ledger s.handler s.data

theorem books_started {value : Addr → ℤ} {links : Links Head} (h : Started s)
    (hidle : s.handler = .idle) (hdata : s.data = Data.load value links) : Books s := by
  have hinv : Inv .idle (Data.load value links) :=
    ⟨⟨[], Batch.nil _, rfl, isRing_initListHead links .head⟩, .nil⟩
  have hledger : Ledger .idle (Data.load value links) := ⟨rfl, rfl, List.nodup_nil⟩
  exact ⟨⟨h.control, by rw [hidle, hdata]; exact hinv, h.oops⟩, by rw [hidle, hdata]; exact hledger⟩

theorem Books.preserved (h : Books s) (hs : step s e = some s') : Books s' := by
  refine ⟨h.working.preserved hs, ?_⟩
  obtain ⟨hpc, hdata⟩ | ⟨-, hidle, hlock, hdata⟩ | ⟨mem, -, hfresh, hstep⟩ :=
    step_handler hs
  · rw [hpc, hdata]
    exact h.ledger
  · have hledger := h.ledger
    rw [hidle] at hledger
    rw [hlock, hdata]
    exact hledger.congr rfl rfl rfl rfl rfl
  · exact h.ledger.preserved h.working.inv hfresh hstep

end Lkb.WorkQueueDedicated
