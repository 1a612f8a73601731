import Lkb.WorkQueueDedicated.Printout
import Lkb.WorkQueueDedicated.Teardown

/-!
# Runs of `work_queue_dedicated`

The invariant of the handler, carried through every interleaving of interrupts, runs of the worker
and the steps of `stops` from the state after `start` (`Working`), and so is what it has printed.
`batched_between_runs` is the result: the counter, the array and the list agree between any two runs
of the handler, and every flush prints and unlinks exactly one full batch.
-/

namespace Lkb.WorkQueueDedicated

open CircularList Run

variable {s s' : State} {e : Event} {done : List Done} {k : ℕ}

/-! ## What the handler has done -/

/-- The handler added a node. -/
def Done.isAdded : Done → Bool
  | .added _ => true
  | _ => false

/-- Where the last element of a list lies, when the list is split at an element `y`. -/
theorem split_concat {α : Type*} {l l₁ mid : List α} {x y : α} (h : l ++ [x] = l₁ ++ y :: mid) :
    (mid = [] ∧ l = l₁ ∧ x = y) ∨ ∃ mid', mid = mid' ++ [x] ∧ l = l₁ ++ y :: mid' := by
  obtain rfl | ⟨mid', z, rfl⟩ := mid.eq_nil_or_concat
  · exact .inl ⟨rfl, List.append_singleton_inj.1 h⟩
  · rw [List.concat_eq_append, ← List.cons_append, ← List.append_assoc,
      List.append_singleton_inj] at h
    obtain ⟨rfl, rfl⟩ := h
    exact .inr ⟨mid', by simp, rfl⟩

namespace Batches

variable (h : Batches done k)
include h

/-- Every flush prints the countdown. -/
theorem values {n : List (Addr × ℤ)} (hn : .flushed n ∈ done) : n.map Prod.snd = countdown := by
  induction h with
  | nil => simp at hn
  | added a _ ih => exact ih (by simpa using hn)
  | failed _ ih => exact ih (by simpa using hn)
  | flushed _ hc ih =>
    obtain hn | hn := List.mem_append.1 hn
    · exact ih hn
    · obtain rfl : n = _ := by simpa using hn
      exact hc

theorem countdown_of_mem {vs : List ℤ} (hvs : vs ∈ done.filterMap Done.values) :
    vs = countdown := by
  obtain ⟨r, hr, hvalues⟩ := List.mem_filterMap.1 hvs
  cases r with
  | added a => cases hvalues
  | failed => cases hvalues
  | flushed n =>
    obtain rfl : n.map Prod.snd = vs := Option.some.inj hvalues
    exact h.values hr

/-- The additions after the last flush. -/
theorem since {l₁ mid : List Done} {n : List (Addr × ℤ)} (hdone : done = l₁ ++ .flushed n :: mid)
    (hmid : ∀ m, .flushed m ∉ mid) : mid.countP Done.isAdded = k := by
  induction h generalizing mid with
  | nil => simp at hdone
  | added a _ ih =>
    obtain ⟨-, -, hx⟩ | ⟨mid', rfl, hl⟩ := split_concat hdone
    · cases hx
    · rw [List.countP_append, ih hl fun m hm => hmid m (List.mem_append_left _ hm)]
      rfl
  | failed _ ih =>
    obtain ⟨-, -, hx⟩ | ⟨mid', rfl, hl⟩ := split_concat hdone
    · cases hx
    · rw [List.countP_append, ih hl fun m hm => hmid m (List.mem_append_left _ hm)]
      rfl
  | @flushed _ m _ _ _ =>
    obtain ⟨rfl, -⟩ | ⟨mid', rfl, -⟩ := split_concat hdone
    · rfl
    · exact absurd (by simp) (hmid m)

/-- **Between two consecutive flushes the handler adds exactly 14 nodes.** -/
theorem between {l₁ mid l₂ : List Done} {n₁ n₂ : List (Addr × ℤ)}
    (hdone : done = (l₁ ++ .flushed n₁ :: mid) ++ .flushed n₂ :: l₂)
    (hmid : ∀ m, .flushed m ∉ mid) : mid.countP Done.isAdded = batch := by
  induction h generalizing l₂ with
  | nil => simp at hdone
  | added a _ ih =>
    obtain ⟨-, -, hx⟩ | ⟨l₂', -, hl⟩ := split_concat hdone
    · cases hx
    · exact ih hl
  | failed _ ih =>
    obtain ⟨-, -, hx⟩ | ⟨l₂', -, hl⟩ := split_concat hdone
    · cases hx
    · exact ih hl
  | flushed hb _ ih =>
    obtain ⟨-, hl, -⟩ | ⟨l₂', -, hl⟩ := split_concat hdone
    · exact hb.since hl hmid
    · exact ih hl

end Batches

/-! ## The invariant of a run -/

/-- What a step of the module does to the handler and its data: nothing, or it starts a run of the
handler, or it is a step of the handler. -/
theorem step_handler (hs : step s e = some s') :
    (s'.handler = s.handler ∧ s'.data = s.data) ∨
      (e = .workerRun ∧ s.handler = .idle ∧ s'.handler = .lock ∧ s'.data = s.data) ∨
      ∃ mem, e = .handler mem ∧ (s.handler = .kmalloc → Fresh s.data.live mem) ∧
        handlerStep mem s.handler s.data = some (s'.handler, s'.data) := by
  obtain ⟨-, hen, rfl⟩ := step_eq_some.1 hs
  cases e with
  | workerRun => exact .inr (.inl ⟨rfl, hen.2.2, rfl, rfl⟩)
  | handler mem =>
    simp only [effect, State.runHandler]
    cases hstep : handlerStep mem s.handler s.data with
    | none => exact .inl ⟨rfl, rfl⟩
    | some r => exact .inr (.inr ⟨mem, rfl, hen.2, hstep⟩)
  | requestIrq ok => cases ok <;> exact .inl ⟨rfl, rfl⟩
  | irqQueueWork =>
    simp only [effect, State.queueWork]
    split_ifs <;> exact .inl ⟨rfl, rfl⟩
  | _ => exact .inl ⟨rfl, rfl⟩

/-- The invariant of the loaded module. -/
structure Working (s : State) : Prop where
  control : Control s
  inv : Inv s.handler s.data
  oops : s.oops = false

theorem Inv.begin {d : Data} (h : Inv .idle d) : Inv .lock d := ⟨h.agrees, h.batches⟩

/-- **Every step keeps the invariant of the module.** -/
theorem Working.preserved (h : Working s) (hs : step s e = some s') : Working s' := by
  suffices hd : Inv s'.handler s'.data ∧ s'.oops = false from
    ⟨h.control.preserved hs, hd.1, hd.2⟩
  obtain ⟨-, hen, rfl⟩ := step_eq_some.1 hs
  obtain ⟨hc, hinv, ho⟩ := h
  cases e with
  | irqQueueWork =>
    have hr := hc.rank_of_entered hen
    obtain ⟨n, hn⟩ := State.queueWork_eq
      (s := { s with entered := s.entered - 1, leaving := s.leaving + 1 })
      (hc.wq_created (by omega)) hc.workInit
    rw [effect, hn]
    exact ⟨hinv, ho⟩
  | workerRun =>
    obtain ⟨-, -, hidle⟩ := hen
    rw [hidle] at hinv
    exact ⟨hinv.begin, ho⟩
  | handler mem =>
    obtain ⟨pc', d', hstep, hinv'⟩ := hinv.preserved hen.1 hen.2
    simp only [effect, State.runHandler, hstep]
    exact ⟨hinv', ho⟩
  | requestIrq ok => cases ok <;> exact ⟨hinv, ho⟩
  | _ => exact ⟨hinv, ho⟩

theorem says_load (value : Addr → ℤ) (links : Links Head) : Says .idle (Data.load value links) :=
  ⟨[], .nil, rfl⟩

/-- Only the steps of the handler print. -/
theorem Says.step (h : Says s.handler s.data) (hinv : Inv s.handler s.data)
    (hs : step s e = some s') : Says s'.handler s'.data := by
  obtain ⟨hpc, hdata⟩ | ⟨-, hidle, hlock, hdata⟩ | ⟨mem, -, -, hstep⟩ := step_handler hs
  · rw [hpc, hdata]
    exact h
  · rw [hidle] at h
    rw [hlock, hdata]
    exact h
  · exact h.preserved hinv hstep

/-- The state of the module between two runs of the handler: `f[0], …, f[moving_val - 1]` are
distinct nodes with their index as value, and the list at `head` has them from the last one to the
first, in both directions. -/
structure Batched (d : Data) (nodes : List Addr) : Prop where
  nonneg : 0 ≤ d.movingVal
  le : d.movingVal ≤ 14
  length : (nodes.length : ℤ) = d.movingVal
  f_eq : ∀ i, i < nodes.length → d.f i = nodes[i]?
  nodup : nodes.Nodup
  ring : IsRing d.links .head (nodes.reverse.map .data)
  value_eq : ∀ (i : ℕ) a, nodes[i]? = some a → d.value a = i

theorem Agrees.batched {d : Data} {nodes : List Addr} (h : Agrees d nodes) : Batched d nodes where
  nonneg := by rw [h.movingVal]; omega
  le := by have := h.le; rw [h.movingVal]; simp only [batch] at this; omega
  length := h.movingVal.symm
  f_eq := h.f_eq
  nodup := h.nodup
  ring := h.ring
  value_eq := h.value_eq

/-- What the loop that deletes the batch finds: below 14, the node `f[i]` is on the list; at 14,
the list is empty. -/
def DeletesListed (s : State) (i : ℕ) : Prop :=
  if i < 14 then ∃ a l, s.data.f i = some a ∧ IsRing s.data.links .head l ∧ .data a ∈ l
  else IsRing s.data.links .head []

theorem Working.deletesListed {i : ℕ} (h : Working s) (hpc : s.handler = .delete i) :
    DeletesListed s i := by
  have hinv := h.inv.agrees
  rw [hpc] at hinv
  obtain ⟨-, nodes, hn, hlen, -, hring⟩ := hinv
  simp only [batch] at hlen
  rw [DeletesListed]
  split_ifs with hi
  · have ha : nodes[i]? = some nodes[i] := List.getElem?_eq_getElem (by omega)
    refine ⟨nodes[i], _, (hn.f_eq i (by omega)).trans ha, hring, ?_⟩
    rw [heads_drop ha]
    simp
  · rw [List.drop_eq_nil_of_le (by omega)] at hring
    exact hring

/-- **The batching invariant.** From the state after `start`, with the data of the module as it was
loaded, in every run of interrupts, worker and `stops`, for every result of `kmalloc`: nothing
faults; between two runs of the handler the counter, the array and the list agree, and the log is
the one of what the handler has done, in which every call of `print_list` has printed 13, …, 0 and
no other line shows a value; every flush was of nodes with these values, and 14 nodes were added
between any two; and every deletion of a flush is of a node that is on the list, which is empty at
the end. -/
theorem batched_between_runs {value : Addr → ℤ} {links : Links Head} {es : List Event}
    (h : Started s) (hidle : s.handler = .idle) (hdata : s.data = Data.load value links)
    (hrun : Runs step s es s') :
    s'.oops = false ∧ (s'.handler = .idle → ∃ nodes, Batched s'.data nodes) ∧
      (s'.handler = .idle → Transcript s'.data.done s'.data.movingVal.toNat s'.data.log ∧
        (∀ vs ∈ printLists s'.data.log, vs = [13, 12, 11, 10, 9, 8, 7, 6, 5, 4, 3, 2, 1, 0]) ∧
        s'.data.log.filterMap Msg.shown = (printLists s'.data.log).flatten) ∧
      (∀ n, .flushed n ∈ s'.data.done →
        n.map Prod.snd = [13, 12, 11, 10, 9, 8, 7, 6, 5, 4, 3, 2, 1, 0]) ∧
      (∀ l₁ n₁ mid n₂ l₂, s'.data.done = (l₁ ++ .flushed n₁ :: mid) ++ .flushed n₂ :: l₂ →
        (∀ m, .flushed m ∉ mid) → mid.countP Done.isAdded = 14) ∧
      Along step (fun s e => ∀ mem i, e = .handler mem → s.handler = .delete i →
        DeletesListed s i) s es := by
  have hload : Inv .idle (Data.load value links) := by
    refine ⟨⟨[], Batch.nil _, rfl, ?_⟩, .nil⟩
    exact isRing_initListHead links .head
  have h₀ : Working s := ⟨h.control, by rw [hidle, hdata]; exact hload, h.oops⟩
  have hprints : Says s.handler s.data := by
    rw [hidle, hdata]
    exact says_load value links
  obtain ⟨h', hprints'⟩ : Working s' ∧ Says s'.handler s'.data :=
    hrun.invariant' (I := fun s => Working s ∧ Says s.handler s.data)
      (fun _ _ _ h hs => ⟨h.1.preserved hs, h.2.step h.1.inv hs⟩) ⟨h₀, hprints⟩
  refine ⟨h'.oops, fun hi => ?_, fun hi => ?_, fun n => h'.inv.batches.values,
    fun l₁ n₁ mid n₂ l₂ => ?_, ?_⟩
  · obtain ⟨nodes, hn⟩ : HandlerInv .idle s'.data := by rw [← hi]; exact h'.inv.agrees
    exact ⟨nodes, hn.batched⟩
  · rw [hi] at hprints'
    have htr := hprints'.transcript
    refine ⟨htr, fun vs hvs => ?_, htr.shown_eq⟩
    rw [htr.printLists_eq] at hvs
    exact h'.inv.batches.countdown_of_mem hvs
  · exact h'.inv.batches.between
  · refine Along.of_invariant (I := Working) (G := fun _ _ => True) ?_ (along_true s es) h₀
    intro s e s' hw _ hs
    exact ⟨hw.preserved hs, fun mem i _ hpc => hw.deletesListed hpc⟩

/-- An interrupt and the run of the handler that it queues: `n` steps after the call of `kmalloc`,
which returns the given address. -/
def runSample (a : Addr) (n : ℕ) : List Event :=
  [.irqEnter, .irqQueueWork, .irqReturn, .workerRun, .handler none, .handler (some a)] ++
    List.replicate n (.handler none)

/-- Fourteen runs that add a node, and the run that flushes them. -/
def flushSample : List Event :=
  (List.range 14).flatMap (fun i => runSample (i + 1) 2) ++ runSample 0 31

theorem batched_between_runs_sample :
    ∃ s', Runs step startedSample flushSample s' ∧ s'.data.done.length = 15 ∧
      (∃ nodes, Batched s'.data nodes) ∧ (printLists s'.data.log).length = 1 ∧
      ∀ vs ∈ printLists s'.data.log, vs = [13, 12, 11, 10, 9, 8, 7, 6, 5, 4, 3, 2, 1, 0] := by
  have h : Started startedSample := ⟨rfl, rfl, rfl, rfl, rfl⟩
  have hend : (flushSample.foldlM step startedSample).map
      (fun s => (s.data.done.length, (printLists s.data.log).length, s.handler)) =
        some (15, 1, .idle) := by
    decide +kernel
  obtain ⟨s', hrun, hs'⟩ := Option.map_eq_some_iff.1 hend
  simp only [Prod.mk.injEq] at hs'
  obtain ⟨hlen, hlists, hidle⟩ := hs'
  obtain ⟨-, hbatched, hprinted, -⟩ := batched_between_runs h rfl rfl hrun
  exact ⟨s', hrun, hlen, hbatched hidle, hlists, (hprinted hidle).2.1⟩

end Lkb.WorkQueueDedicated
