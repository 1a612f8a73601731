import Lkb.WorkQueueDedicated.Ledger
import Mathlib.Data.List.Nodup

/-!
# What `work_queue_dedicated` loses and leaks

Two consequences of the account of the nodes. `stops` waits for the queued work and destroys the
queue, but it does not flush the list: the nodes of the last batch, which are not printed yet, are
lost (`printed_once_iff`). And a flush unlinks its nodes without freeing them: they stay allocated
and are on no list (`allocated_iff_no_flush`).
-/

namespace Lkb.WorkQueueDedicated

open CircularList Run

variable {s s' : State} {e : Event}

/-! ## The nodes that are never printed -/

/-- Every node that was added was printed, and printed once: each call of `print_list` that the log
shows has printed the values of the nodes of one flush, and of all these flushes just one has the
node. -/
structure PrintedOnce (d : Data) : Prop where
  lists : printLists d.log = d.done.filterMap Done.values
  once : ∀ a ∈ addedNodes d.done, (printedNodes d.done).flatten.count a = 1

instance (d : Data) : Decidable (PrintedOnce d) :=
  decidable_of_iff (printLists d.log = d.done.filterMap Done.values ∧
    ∀ a ∈ addedNodes d.done, (printedNodes d.done).flatten.count a = 1)
    ⟨fun h => ⟨h.1, h.2⟩, fun h => ⟨h.1, h.2⟩⟩

/-- The order in which a flush prints its nodes does not matter for how often it does. -/
theorem count_flatten_map_reverse (l : List (List Addr)) (a : Addr) :
    (l.map List.reverse).flatten.count a = l.flatten.count a := by
  simp [List.count_flatten, Function.comp_def]

/-- No node is added twice. -/
theorem Ledger.nodup_addedNodes {pc : HandlerPc} {d : Data} (h : Ledger pc d) :
    (addedNodes d.done).Nodup := by
  have hlive := h.nodup
  rw [h.live] at hlive
  exact List.nodup_reverse.1 (List.nodup_append.1 hlive).2.1

/-- What is left to print is what is missing. -/
theorem Ledger.printed_iff {pc : HandlerPc} {d : Data} (h : Ledger pc d) :
    (∀ a ∈ addedNodes d.done, (printedNodes d.done).flatten.count a = 1) ↔
      unprinted pc d = [] := by
  have hcount : ∀ a ∈ addedNodes d.done,
      (printedNodes d.done).flatten.count a + (unprinted pc d).count a = 1 := by
    intro a ha
    rw [← count_flatten_map_reverse, ← List.count_append, ← h.printed]
    exact List.count_eq_one_of_mem h.nodup_addedNodes ha
  constructor
  · intro hprinted
    refine List.eq_nil_iff_forall_not_mem.2 fun a ha => ?_
    have hmem : a ∈ addedNodes d.done := h.printed ▸ List.mem_append_right _ ha
    have hpos : 0 < (unprinted pc d).count a := List.count_pos_iff.2 ha
    have hone := hprinted a hmem
    have hsum := hcount a hmem
    omega
  · intro hnil a ha
    have hsum := hcount a ha
    rw [hnil, List.count_nil] at hsum
    omega

/-- Between two runs of the handler, everything is printed exactly when `moving_val` is 0. -/
theorem Books.printedOnce_iff (h : Books s) (hprints : Says s.handler s.data)
    (hidle : s.handler = .idle) : PrintedOnce s.data ↔ s.data.movingVal = 0 := by
  have hagrees := h.working.inv.agrees
  rw [hidle] at hagrees hprints
  obtain ⟨nodes, hn⟩ := hagrees
  have honce : (∀ a ∈ addedNodes s.data.done, (printedNodes s.data.done).flatten.count a = 1) ↔
      s.data.movingVal = 0 := by
    rw [h.ledger.printed_iff, hidle, unprinted, hn.toNat_eq, hn.toBatch.slots_eq, hn.movingVal]
    · simp
    · simp
  exact ⟨fun hp => honce.1 hp.once, fun hmv => ⟨hprints.transcript.printLists_eq, honce.2 hmv⟩⟩

/-- `stops` comes to its end only by the last step of `destroy_workqueue`, and the data does not
change after that. -/
theorem Books.returned_frame (h : Books s) (hs : step s e = some s') (he : e ≠ .invalidate) :
    (s'.stops = .returned ↔ s.stops = .returned) ∧
      (s.stops = .returned → s'.data = s.data) := by
  have hc := h.working.control
  obtain ⟨-, hen, rfl⟩ := step_eq_some.1 hs
  cases e with
  | requestIrq ok => simp [enabled, hc.start] at hen
  | createWorkqueue ok => simp [enabled, hc.start] at hen
  | initWork => simp [enabled, hc.start] at hen
  | irqQueueWork =>
    simp only [effect, State.queueWork]
    split_ifs <;> exact ⟨Iff.rfl, fun _ => rfl⟩
  | irqEnter | irqReturn | workerRun => exact ⟨Iff.rfl, fun _ => rfl⟩
  | handler mem =>
    obtain ⟨pc, d, n, o, hr⟩ := s.runHandler_eq mem
    rw [effect, hr]
    refine ⟨Iff.rfl, fun hret => absurd (hc.drained ?_).2 hen.1⟩
    rw [hret]
    decide
  | stopsBegin | synchronizeIrq | freeIrqReturn | drain =>
    refine ⟨⟨fun hret => ?_, fun hret => ?_⟩, fun _ => rfl⟩
    · cases hret
    · simp [enabled, hret] at hen
  | freeIrq | flushWorkqueue | flushReturn =>
    refine ⟨⟨fun hret => ?_, fun hret => ?_⟩, fun _ => rfl⟩
    · cases hret
    · simp [enabled, hret] at hen
  | invalidate => exact absurd rfl he

/-- **What `stops` loses.** From the state after `start`, in every run of interrupts, worker and
`stops`, for every result of `kmalloc`: every node that was ever added has been printed by exactly
one call of `print_list` when `stops` has returned, if and only if `moving_val` is 0, that is, no
node waits for the next flush, when `destroy_workqueue` gives up the drained queue. -/
theorem printed_once_iff {value : Addr → ℤ} {links : Links Head} (es : List Event) (h : Started s)
    (hidle : s.handler = .idle) (hdata : s.data = Data.load value links) :
    Always step (fun s => s.stops = .returned → PrintedOnce s.data) s es ↔
      Along step (fun s e => e = .invalidate → s.data.movingVal = 0) s es := by
  have hprints : Says s.handler s.data := by
    rw [hidle, hdata]
    exact says_load value links
  refine always_iff_along_of_mark (J := fun s => Books s ∧ Says s.handler s.data)
    (fun s e s' h hs => ⟨h.1.preserved hs, h.2.step h.1.working.inv hs⟩)
    (fun s e s' h hs he => ?_) (fun s e s' h hs he => ?_)
    ⟨books_started h hidle hdata, hprints⟩ (by rw [h.stops]; nofun)
  · subst he
    obtain ⟨-, hen, rfl⟩ := step_eq_some.1 hs
    have hrank : s.stops.rank = 7 := by rw [hen]; rfl
    exact ⟨rfl, h.1.printedOnce_iff h.2 (h.1.working.control.drained (by omega)).2⟩
  · obtain ⟨hiff, hframe⟩ := h.1.returned_frame hs he
    exact ⟨hiff, fun hret => by rw [hframe hret]; exact id⟩

/-- The calls of `stops`, when nothing holds them up. -/
def stopsSample : List Event :=
  [.stopsBegin, .synchronizeIrq, .freeIrq, .freeIrqReturn, .flushWorkqueue, .flushReturn, .drain,
    .invalidate]

/-- A whole batch was flushed when the module is unloaded. -/
theorem printed_once_iff_sample :
    Always step (fun s => s.stops = .returned → PrintedOnce s.data) startedSample
      (flushSample ++ stopsSample) := by
  rw [printed_once_iff _ ⟨rfl, rfl, rfl, rfl, rfl⟩ rfl rfl]
  decide +kernel

/-- One node was added when the module is unloaded. -/
theorem not_printed_when_returned :
    ¬Always step (fun s => s.stops = .returned → PrintedOnce s.data) startedSample
      (runSample 1 2 ++ stopsSample) := by
  decide +kernel

/-! ## The nodes that are never freed -/

/-- Between two runs of the handler, the allocated nodes are those on the list; and there are at
most 14 of them at any time. -/
structure Accounted (s : State) : Prop where
  listed : s.handler = .idle →
    ∃ nodes : List Addr, IsRing s.data.links .head (nodes.map .data) ∧
      ∀ a, a ∈ s.data.live ↔ a ∈ nodes
  bounded : s.data.live.length ≤ 14

/-- The handler does not take the branch that flushes. -/
def NoFlush (s : State) : Event → Prop
  | .handler _ => s.handler = .lock → s.data.movingVal < 14
  | _ => True

instance (s : State) : (e : Event) → Decidable (NoFlush s e)
  | .handler _ => inferInstanceAs (Decidable (_ → _))
  | .requestIrq _ | .createWorkqueue _ | .initWork | .irqEnter | .irqQueueWork | .irqReturn
  | .workerRun | .stopsBegin | .synchronizeIrq | .freeIrq | .freeIrqReturn | .flushWorkqueue
  | .flushReturn | .drain | .invalidate => isTrue trivial

/-- The handler is in a flush. -/
def HandlerPc.flushing : HandlerPc → Bool
  | .flush | .print _ _ | .delete _ => true
  | _ => false

/-- Nothing was flushed so far. -/
structure Unflushed (pc : HandlerPc) (d : Data) : Prop where
  printed : printedNodes d.done = []
  flushing : pc.flushing = false

variable {pc pc' : HandlerPc} {d d' : Data} {mem : Option Addr}

theorem Unflushed.preserved (h : Unflushed pc d) (hlock : pc = .lock → d.movingVal < 14)
    (hs : handlerStep mem pc d = some (pc', d')) : Unflushed pc' d' := by
  obtain ⟨hprinted, hflushing⟩ := h
  cases handlerStep_moves hs with
  | lockAdd => exact ⟨hprinted, rfl⟩
  | lockFlush hlt => exact absurd (hlock rfl) hlt
  | failed => exact ⟨by simp [Data.record, Data.say, Done.batch, hprinted], rfl⟩
  | passed => exact ⟨hprinted, rfl⟩
  | add => exact ⟨by simp [Data.record, Done.batch, hprinted], rfl⟩
  | unlock => exact ⟨hprinted, rfl⟩
  | _ => cases hflushing

/-- The nodes of the current batch, outside a flush. -/
theorem HandlerInv.exists_agrees (h : HandlerInv pc d) (hpc : pc.flushing = false) :
    ∃ nodes, Agrees d nodes ∧ (newNode pc d).length + nodes.length ≤ 14 ∧
      unprinted pc d = nodes := by
  have hslots : ∀ nodes, Agrees d nodes → slots d.f d.movingVal.toNat = nodes := by
    intro nodes hn
    rw [hn.toNat_eq, hn.toBatch.slots_eq]
  cases pc with
  | flush => cases hpc
  | print pos seen => cases hpc
  | delete i => cases hpc
  | idle | lock | unlock =>
    obtain ⟨nodes, hn⟩ := h
    exact ⟨nodes, hn, by simpa [newNode, batch] using hn.le, hslots nodes hn⟩
  | kmalloc =>
    obtain ⟨nodes, hn, -⟩ := h
    exact ⟨nodes, hn, by simpa [newNode, batch] using hn.le, hslots nodes hn⟩
  | add =>
    obtain ⟨nodes, hn, hlen, a, -, hf, -⟩ := h
    refine ⟨nodes, hn, ?_, hslots nodes hn⟩
    simp only [batch] at hlen
    simp only [newNode, hn.toNat_eq, hf, Option.toList_some, List.length_singleton]
    omega

/-- As long as nothing is flushed, the allocated nodes are the nodes of the current batch. -/
theorem Books.accounted (h : Books s) (hun : Unflushed s.handler s.data) : Accounted s := by
  obtain ⟨nodes, hn, hle, hnodes⟩ := h.working.inv.agrees.exists_agrees hun.flushing
  have hadded : addedNodes s.data.done = nodes := by
    have hprinted := h.ledger.printed
    rwa [hun.printed, hnodes] at hprinted
  have hlive := h.ledger.live
  rw [hadded] at hlive
  constructor
  · intro hidle
    refine ⟨nodes.reverse, hn.ring, fun a => ?_⟩
    rw [hlive, hidle]
    simp [newNode]
  · rw [hlive, List.length_append, List.length_reverse]
    exact hle

/-- A flush has printed some node. -/
theorem exists_mem_of_printed {done : List Done} {k : ℕ} {l : List Addr} (h : Batches done k)
    (hl : l ∈ printedNodes done) : ∃ a, a ∈ l := by
  obtain ⟨r, hr, hbatch⟩ := List.mem_filterMap.1 hl
  cases r with
  | added a => cases hbatch
  | failed => cases hbatch
  | flushed n =>
    obtain rfl : n.map Prod.fst = l := Option.some.inj hbatch
    have hn := h.values hr
    cases n with
    | nil => cases hn
    | cons x n => exact ⟨x.1, by simp⟩

/-- Once something was flushed, the nodes of that flush are allocated and not on the list. -/
theorem Books.printed_eq_nil (h : Books s) (hidle : s.handler = .idle) (hacc : Accounted s) :
    printedNodes s.data.done = [] := by
  obtain ⟨nodes', hring, hmem⟩ := hacc.listed hidle
  have hagrees := h.working.inv.agrees
  have hprinted := h.ledger.printed
  have hlive := h.ledger.live
  rw [hidle] at hagrees hprinted hlive
  obtain ⟨nodes, hn⟩ := hagrees
  rw [unprinted, hn.toNat_eq, hn.toBatch.slots_eq] at hprinted
  · by_contra hne
    obtain ⟨l, hl⟩ := List.exists_mem_of_ne_nil _ hne
    obtain ⟨a, ha⟩ := exists_mem_of_printed h.working.inv.batches hl
    have hflat : a ∈ ((printedNodes s.data.done).map List.reverse).flatten :=
      List.mem_flatten.2 ⟨l.reverse, List.mem_map_of_mem hl, List.mem_reverse.2 ha⟩
    have hadded : a ∈ addedNodes s.data.done := hprinted ▸ List.mem_append_left _ hflat
    have hnode : a ∈ nodes := by
      have ha' : a ∈ nodes' := (hmem a).1 (by rw [hlive]; simp [newNode, hadded])
      rw [← mem_heads, ← hring.unique hn.ring]
      exact List.mem_map_of_mem ha'
    have hnodup := h.ledger.nodup_addedNodes
    rw [hprinted] at hnodup
    exact (List.nodup_append.1 hnodup).2.2 a hflat a hnode rfl
  · simp

/-! ### The way back -/

/-- A flush is under way, or one was completed. -/
def Flushed (pc : HandlerPc) (d : Data) : Prop :=
  pc = .flush ∨ (∃ pos seen, pc = .print pos seen) ∨ printedNodes d.done ≠ []

/-- The account of the handler grows. -/
theorem handlerStep_done (hs : handlerStep mem pc d = some (pc', d')) : d.done <+: d'.done := by
  cases handlerStep_moves hs with
  | failed => exact List.prefix_append d.done [.failed]
  | add => exact List.prefix_append d.done [.added _]
  | printed => exact List.prefix_append d.done [.flushed _]
  | _ => exact List.prefix_rfl

/-- A flush that has begun prints the list, and what was printed stays in the account. -/
theorem Flushed.handler_step (h : Flushed pc d) (hs : handlerStep mem pc d = some (pc', d')) :
    Flushed pc' d' := by
  have hdone : printedNodes d.done ≠ [] → printedNodes d'.done ≠ [] := by
    obtain ⟨r, hr⟩ := handlerStep_done hs
    intro hprinted
    rw [← hr, printedNodes, List.filterMap_append]
    exact List.append_ne_nil_of_left_ne_nil hprinted _
  cases handlerStep_moves hs with
  | flush => exact .inr (.inl ⟨_, _, rfl⟩)
  | print => exact .inr (.inl ⟨_, _, rfl⟩)
  | printed => exact .inr (.inr (by simp [Data.record, Done.batch]))
  | _ =>
    obtain h | ⟨pos, seen, h⟩ | hprinted := h
    · cases h
    · cases h
    · exact .inr (.inr (hdone hprinted))

theorem Flushed.preserved (h : Flushed s.handler s.data) (hs : step s e = some s') :
    Flushed s'.handler s'.data := by
  obtain ⟨hpc, hdata⟩ | ⟨-, hidle, -, hdata⟩ | ⟨mem, -, -, hstep⟩ := step_handler hs
  · rw [hpc, hdata]
    exact h
  · rw [hidle] at h
    obtain h | ⟨pos, seen, h⟩ | hprinted := h
    · cases h
    · cases h
    · exact .inr (.inr (hdata ▸ hprinted))
  · exact h.handler_step hstep

/-- The branch that flushes. -/
theorem flushed_of_not (hG : ¬NoFlush s e) (hs : step s e = some s') :
    Flushed s'.handler s'.data := by
  cases e with
  | handler mem =>
    obtain ⟨hlock, hlt⟩ := Classical.not_imp.1 hG
    have hlt : ¬s.data.movingVal < (batch : ℤ) := hlt
    obtain ⟨-, -, rfl⟩ := step_eq_some.1 hs
    refine .inl ?_
    simp only [effect, State.runHandler, hlock, handlerStep, if_neg hlt]
  | _ => exact absurd trivial hG

/-- **What the flush leaks.** From the state after `start`, in every run in which the handler never
takes the branch that flushes, the allocated nodes are those on the list between any two runs of
the handler, and there are at most 14 of them at any time. Conversely, a run that ends between two
runs of the handler and keeps this up has never flushed. -/
theorem allocated_iff_no_flush {value : Addr → ℤ} {links : Links Head} (es : List Event)
    (h : Started s) (hidle : s.handler = .idle) (hdata : s.data = Data.load value links) :
    (Along step NoFlush s es → Always step Accounted s es) ∧
    ∀ s', Runs step s es s' → s'.handler = .idle → Always step Accounted s es →
      Along step NoFlush s es := by
  have hbooks : Books s := books_started h hidle hdata
  constructor
  · intro hG
    refine Always.of_invariant (I := fun s => Books s ∧ Unflushed s.handler s.data)
      (fun s e s' h hG hs => ⟨h.1.preserved hs, ?_⟩) (fun s h => h.1.accounted h.2) hG ⟨hbooks, ?_⟩
    · obtain ⟨hpc, hdata⟩ | ⟨-, -, hlock, hdata⟩ | ⟨mem, he, -, hstep⟩ := step_handler hs
      · rw [hpc, hdata]
        exact h.2
      · rw [hlock, hdata]
        exact ⟨h.2.printed, rfl⟩
      · subst he
        exact h.2.preserved hG hstep
    · rw [hidle, hdata]
      exact ⟨rfl, rfl⟩
  · intro s' hruns hidle' hacc
    refine Along.of_trap (T := fun s => Flushed s.handler s.data) (D := fun _ _ => True)
      (fun s e s' hs _ hG => flushed_of_not hG hs) (fun s e s' hT _ hs => hT.preserved hs) hruns
      (along_true s es) fun hT => ?_
    have hbooks' : Books s' := hruns.invariant' (fun _ _ _ h hs => h.preserved hs) hbooks
    rw [hidle'] at hT
    obtain hT | ⟨pos, seen, hT⟩ | hprinted := hT
    · cases hT
    · cases hT
    · exact hprinted (hbooks'.printed_eq_nil hidle' (hacc.last hruns))

/-- Two nodes are added. -/
theorem allocated_iff_no_flush_sample :
    Always step Accounted startedSample (runSample 1 2 ++ runSample 2 2) := by
  refine (allocated_iff_no_flush _ ⟨rfl, rfl, rfl, rfl, rfl⟩ rfl rfl).1 ?_
  decide +kernel

/-- A batch is flushed, and one more node is added: 15 nodes are allocated. -/
theorem not_accounted_after_flush :
    ¬Always step Accounted startedSample (flushSample ++ runSample 15 2) := by
  intro h
  have hend : ((flushSample ++ runSample 15 2).foldlM step startedSample).map
      (fun s => s.data.live.length) = some 15 := by
    decide +kernel
  obtain ⟨s', hrun, hlen⟩ := Option.map_eq_some_iff.1 hend
  have hbounded := (h.last hrun).bounded
  omega

end Lkb.WorkQueueDedicated
