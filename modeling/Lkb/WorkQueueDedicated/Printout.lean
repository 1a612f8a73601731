import Lkb.WorkQueueDedicated.Batch

/-!
# What `work_handler` prints

The lines of the handler are those of what it has done: a run that adds a node says that `kmalloc`
passed, one that finds no memory says so, and a flush prints the line of `print_list`, the values of
the batch from the last to the first, and one line for each deletion (`Transcript`). In the middle
of a run, the log also has the lines of the run so far, and a flush that has printed the list owes
the lines of the deletions that are still to come. `Says.preserved` shows that every step of the
handler keeps this.

`printLists` reads a log: it finds the calls of `print_list` in it, and the values that each of them
has printed.
-/

namespace Lkb.WorkQueueDedicated

open CircularList

variable {d d' : Data} {pc pc' : HandlerPc} {mem : Option Addr} {done : List Done} {k : ℕ}
  {log : List Msg}

/-! ## The lines of the handler -/

/-- The lines of the deletions from `i` on. -/
def deletions (i : ℕ) : List Msg := (List.range' i (batch - i)).map .deleting

/-- The lines of a flush after the first one. -/
def flushLines : List Msg := countdown.map .linkList ++ deletions 0

/-- The lines of what the handler has done, and the number of additions since the last flush. -/
inductive Transcript : List Done → ℕ → List Msg → Prop
  | nil : Transcript [] 0 []
  | added {done : List Done} {k : ℕ} {log : List Msg} (a : Addr) (h : Transcript done k log) :
    Transcript (done ++ [.added a]) (k + 1) (log ++ [.kmallocPassed k])
  | failed {done : List Done} {k : ℕ} {log : List Msg} (h : Transcript done k log) :
    Transcript (done ++ [.failed]) k (log ++ [.kmallocFailed k])
  | flushed {done : List Done} {log : List Msg} {n : List (Addr × ℤ)}
    (h : Transcript done batch log) (hn : n.map Prod.snd = countdown) :
    Transcript (done ++ [.flushed n]) 0 (log ++ .flush :: flushLines)

/-- The lines that a run of the handler has printed, as long as it has not done anything yet. -/
def begun : HandlerPc → Data → List Msg
  | .add, d => [.kmallocPassed d.movingVal]
  | .print _ seen, _ => .flush :: seen.map fun x => .linkList x.2
  | _, _ => []

/-- The lines that a flush has still to print when it has printed the list. -/
def owed : HandlerPc → List Msg
  | .delete i => deletions i
  | _ => []

/-- The log is the one of what the handler has done. -/
def Says (pc : HandlerPc) (d : Data) : Prop :=
  ∃ log, Transcript d.done (sinceFlush pc d) log ∧ d.log ++ owed pc = log ++ begun pc d

theorem deletions_succ {i : ℕ} (h : i < batch) :
    deletions i = .deleting i :: deletions (i + 1) := by
  have hsub : batch - i = batch - (i + 1) + 1 := by omega
  rw [deletions, hsub, List.range'_succ, List.map_cons, deletions]

theorem deletions_eq_nil {i : ℕ} (h : ¬i < batch) : deletions i = [] := by
  have hsub : batch - i = 0 := by omega
  rw [deletions, hsub]
  rfl

/-! ## The steps of the handler -/

theorem Says.kmalloc (h : Says .kmalloc d) (hinv : Inv .kmalloc d)
    (hs : handlerStep mem .kmalloc d = some (pc', d')) : Says pc' d' := by
  obtain ⟨log, htr, hlog⟩ := h
  obtain ⟨nodes, hn, -⟩ := hinv.agrees
  have hlog' : d.log = log := by simpa [owed, begun] using hlog
  cases handlerStep_moves hs with
  | failed =>
    refine ⟨_, htr.failed, ?_⟩
    simp [owed, begun, sinceFlush, Data.say, Data.record, hlog', hn.toNat_cast]
  | passed =>
    refine ⟨log, htr, ?_⟩
    simp [owed, begun, Data.say, hlog']

theorem Says.add (h : Says .add d) (hinv : Inv .add d)
    (hs : handlerStep mem .add d = some (pc', d')) : Says pc' d' := by
  obtain ⟨log, htr, hlog⟩ := h
  obtain ⟨nodes, hn, -⟩ := hinv.agrees
  have hk := hn.toNat_cast
  have hlog' : d.log = log ++ [.kmallocPassed d.movingVal] := by simpa [owed, begun] using hlog
  cases handlerStep_moves hs with
  | @add _ i a m =>
    have hsucc : (d.movingVal + 1).toNat = d.movingVal.toNat + 1 := by omega
    refine ⟨log ++ [.kmallocPassed d.movingVal.toNat], ?_, ?_⟩
    · simp only [sinceFlush, Data.record, hsucc]
      exact htr.added a
    · simp [Data.record, owed, begun, hlog', hk]

/-- The list is printed from its first node on, until the whole batch is. -/
theorem Says.flush (h : Says .flush d) (hinv : Inv .flush d)
    (hs : handlerStep mem .flush d = some (pc', d')) : Says pc' d' := by
  obtain ⟨log, htr, hlog⟩ := h
  obtain ⟨nodes, hn, hlen⟩ := hinv.agrees
  have hlog' : d.log = log := by simpa [owed, begun] using hlog
  have hk : d.movingVal.toNat = batch := by rw [hn.toNat_eq, hlen]
  cases handlerStep_moves hs with
  | flush =>
    refine ⟨log, ?_, by simp [owed, begun, Data.say, hlog']⟩
    simpa only [sinceFlush, Data.say, hk] using htr

theorem Says.print {pos : Head} {seen : List (Addr × ℤ)} (h : Says (.print pos seen) d)
    (hinv : Inv (.print pos seen) d)
    (hs : handlerStep mem (.print pos seen) d = some (pc', d')) : Says pc' d' := by
  obtain ⟨log, htr, hlog⟩ := h
  have hlog' : d.log = log ++ .flush :: seen.map fun x => .linkList x.2 := by
    simpa [owed, begun] using hlog
  cases handlerStep_moves hs with
  | print =>
    refine ⟨log, htr, ?_⟩
    simp [owed, begun, Data.say, hlog']
  | printed =>
    obtain ⟨hmv, nodes, hn, hlen, -, l₁, l₂, hsplit, rfl, hpos⟩ := hinv.agrees
    have hnil : l₂ = [] := by
      cases l₂ with
      | nil => rfl
      | cons a l₂ => cases hpos
    rw [hnil, List.append_nil] at hsplit
    have hvalues : (l₁.map fun a => (a, d.value a)).map Prod.snd = countdown := by
      rw [List.map_map, ← hsplit]
      exact hn.values hlen
    refine ⟨log ++ .flush :: flushLines, ?_, ?_⟩
    · simp only [sinceFlush, Data.record, hmv, Int.toNat_zero]
      exact htr.flushed hvalues
    · have hlines : (l₁.map fun a => (a, d.value a)).map (fun x => Msg.linkList x.2) =
          countdown.map .linkList := by
        rw [← hvalues, List.map_map (g := Msg.linkList)]
        rfl
      simp [Data.record, owed, begun, flushLines, hlog', hlines]

/-- **A step of the handler** prints the lines of what it does. -/
theorem Says.preserved (h : Says pc d) (hinv : Inv pc d)
    (hs : handlerStep mem pc d = some (pc', d')) : Says pc' d' := by
  cases handlerStep_moves hs with
  | failed => exact h.kmalloc hinv hs
  | passed => exact h.kmalloc hinv hs
  | add => exact h.add hinv hs
  | flush => exact h.flush hinv hs
  | printed => exact h.print hinv hs
  | print => exact h.print hinv hs
  | lockAdd | lockFlush | unlock => exact h
  | @delete _ i a m hi =>
    obtain ⟨log, htr, hlog⟩ := h
    rw [owed, deletions_succ hi] at hlog
    refine ⟨log, htr, ?_⟩
    simpa [Data.say, owed, begun] using hlog
  | @deleted _ i hi =>
    obtain ⟨log, htr, hlog⟩ := h
    refine ⟨log, htr, ?_⟩
    rw [owed, deletions_eq_nil hi] at hlog
    exact hlog

/-- Between two runs of the handler, the log is the one of what it has done. -/
theorem Says.transcript (h : Says .idle d) : Transcript d.done d.movingVal.toNat d.log := by
  obtain ⟨log, htr, hlog⟩ := h
  obtain rfl : d.log = log := by simpa [owed, begun] using hlog
  exact htr

/-! ## Reading a log -/

/-- The value that a line of `print_list` shows. -/
def Msg.shown : Msg → Option ℤ
  | .linkList v => some v
  | _ => none

/-- The calls of `print_list` in a log: after each line of a flush, the values in the lines of the
list that follow at once. -/
def printLists : List Msg → List (List ℤ)
  | [] => []
  | .flush :: l => (l.takeWhile fun m => m.shown.isSome).filterMap Msg.shown :: printLists l
  | _ :: l => printLists l

/-- The values of a flush. -/
def Done.values : Done → Option (List ℤ)
  | .flushed n => some (n.map Prod.snd)
  | _ => none

/-- A log that goes on with another line than one of the list. -/
theorem printLists_append {l₁ l₂ : List Msg} (h : ∀ m ∈ l₂.head?, m.shown = none) :
    printLists (l₁ ++ l₂) = printLists l₁ ++ printLists l₂ := by
  have htake : l₂.takeWhile (fun m => m.shown.isSome) = [] := by
    cases l₂ with
    | nil => rfl
    | cons m l₂ => simp [h m rfl]
  induction l₁ with
  | nil => rfl
  | cons m l₁ ih =>
    cases m with
    | flush =>
      simp only [List.cons_append, printLists, ih, List.takeWhile_append, htake, List.append_nil]
      split_ifs with hlen
      · rw [List.takeWhile_prefix _ |>.eq_of_length hlen]
      · rfl
    | _ => exact ih

/-- **A log shows the flushes**: the values that each call of `print_list` has printed are those of
one flush. -/
theorem Transcript.printLists_eq (h : Transcript done k log) :
    printLists log = done.filterMap Done.values := by
  induction h with
  | nil => rfl
  | added a _ ih | failed _ ih =>
    rw [printLists_append (by simp [Msg.shown]), ih]
    simp [printLists, Done.values]
  | flushed _ hn ih =>
    have hlists : printLists (.flush :: flushLines) = [countdown] := by decide
    rw [printLists_append (by simp [Msg.shown]), ih, hlists]
    simp [Done.values, hn]

/-- No line shows a value outside the calls of `print_list`. -/
theorem Transcript.shown_eq (h : Transcript done k log) :
    log.filterMap Msg.shown = (printLists log).flatten := by
  induction h with
  | nil => rfl
  | added a _ ih | failed _ ih =>
    rw [printLists_append (by simp [Msg.shown]), List.filterMap_append, List.flatten_append, ih]
    rfl
  | flushed _ hn ih =>
    have hshown : (Msg.flush :: flushLines).filterMap Msg.shown =
        (printLists (.flush :: flushLines)).flatten := by
      decide
    rw [printLists_append (by simp [Msg.shown]), List.filterMap_append, List.flatten_append, ih,
      hshown]

end Lkb.WorkQueueDedicated
