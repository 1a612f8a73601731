import Lkb.WorkQueueDedicated.Handler
import Mathlib.Data.List.Basic
import Mathlib.Data.List.Range
import Mathlib.Tactic.Common

/-!
# The batches of `work_handler`

The counter `moving_val`, the array `f` and the list at `head` are updated by different branches of
the handler. `HandlerInv pc d` says how they agree at every point of it: the nodes `f[0], f[1], …`
of the current batch are on the list in the reverse order, until the flush unlinks them from the
last one on. `HandlerInv.preserved` shows that no step of the handler faults and that each keeps
this.

`Batches` is the same agreement for what the handler has done so far: every flush follows 14
additions since the one before it.
-/

namespace Lkb.WorkQueueDedicated

open CircularList

variable {d d' : Data} {nodes : List Addr} {pc pc' : HandlerPc} {mem : Option Addr}

/-- The list heads of a batch, in the order of the list: the last node first. -/
def heads (nodes : List Addr) : List Head := nodes.reverse.map .data

/-- The nodes `f[0], f[1], …` of the current batch, with `f[i]->value = i`. -/
structure Batch (d : Data) (nodes : List Addr) : Prop where
  le : nodes.length ≤ batch
  f_eq : ∀ i < nodes.length, d.f i = nodes[i]?
  value_eq : ∀ (i : ℕ) a, nodes[i]? = some a → d.value a = i
  live : ∀ a ∈ nodes, a ∈ d.live
  nodup : nodes.Nodup

/-- The counter and the list agree with the batch. -/
structure Agrees (d : Data) (nodes : List Addr) : Prop extends Batch d nodes where
  movingVal : d.movingVal = nodes.length
  ring : IsRing d.links .head (heads nodes)

/-- The invariant of the handler at each of its points. -/
def HandlerInv : HandlerPc → Data → Prop
  | .idle, d | .lock, d | .unlock, d => ∃ nodes, Agrees d nodes
  | .kmalloc, d => ∃ nodes, Agrees d nodes ∧ nodes.length < batch
  | .add, d =>
    ∃ nodes, Agrees d nodes ∧ nodes.length < batch ∧
      ∃ a ∈ d.live, d.f nodes.length = some a ∧ a ∉ nodes
  | .flush, d => ∃ nodes, Agrees d nodes ∧ nodes.length = batch
  | .print pos seen, d =>
    d.movingVal = 0 ∧ ∃ nodes, Batch d nodes ∧ nodes.length = batch ∧
      IsRing d.links .head (heads nodes) ∧ ∃ l₁ l₂, nodes.reverse = l₁ ++ l₂ ∧
        seen = l₁.map (fun a => (a, d.value a)) ∧ pos = (l₂.map Head.data).headD .head
  | .delete i, d =>
    d.movingVal = 0 ∧ ∃ nodes, Batch d nodes ∧ nodes.length = batch ∧ i ≤ batch ∧
      IsRing d.links .head (heads (nodes.drop i))

/-! ## The nodes of a batch -/

theorem mem_heads {a : Addr} : Head.data a ∈ heads nodes ↔ a ∈ nodes := by
  simp [heads]

theorem heads_concat (a : Addr) : heads (nodes ++ [a]) = .data a :: heads nodes := by
  simp [heads]

theorem heads_cons (a : Addr) : heads (a :: nodes) = heads nodes ++ [.data a] := by
  simp [heads]

theorem index_natCast {n : ℕ} (h : n < batch) : index n = some n := by
  rw [index, if_pos ⟨by omega, by omega⟩, Int.toNat_natCast]

theorem Agrees.toNat_eq (h : Agrees d nodes) : d.movingVal.toNat = nodes.length := by
  rw [h.movingVal, Int.toNat_natCast]

theorem Agrees.toNat_cast (h : Agrees d nodes) : (d.movingVal.toNat : ℤ) = d.movingVal := by
  rw [h.toNat_eq, h.movingVal]

/-- A batch depends on the array, the values and the allocated nodes alone. -/
theorem Batch.congr (h : Batch d nodes) (hf : ∀ i < nodes.length, d'.f i = d.f i)
    (hv : ∀ a ∈ nodes, d'.value a = d.value a) (hl : ∀ a ∈ nodes, a ∈ d'.live) :
    Batch d' nodes where
  le := h.le
  f_eq i hi := (hf i hi).trans (h.f_eq i hi)
  value_eq i a ha := (hv a (List.mem_of_getElem? ha)).trans (h.value_eq i a ha)
  live := hl
  nodup := h.nodup

/-- The empty batch. -/
theorem Batch.nil (d : Data) : Batch d [] :=
  ⟨by simp, by simp, by simp, by simp, List.nodup_nil⟩

/-- A batch with one more node. -/
theorem Batch.concat {a : Addr} (h : Batch d nodes) (hlt : nodes.length < batch)
    (hf : d.f nodes.length = some a) (hv : d.value a = nodes.length) (hl : a ∈ d.live)
    (ha : a ∉ nodes) : Batch d (nodes ++ [a]) where
  le := by simp; omega
  f_eq i hi := by
    rw [List.length_append, List.length_singleton] at hi
    obtain hi | rfl : i < nodes.length ∨ i = nodes.length := by omega
    · rw [List.getElem?_append_left hi, h.f_eq i hi]
    · rw [hf, List.getElem?_concat_length]
  value_eq i b hb := by
    by_cases hi : i < nodes.length
    · rw [List.getElem?_append_left hi] at hb
      exact h.value_eq i b hb
    · rw [List.getElem?_append_right (by omega)] at hb
      obtain ⟨hz, rfl⟩ : i - nodes.length = 0 ∧ a = b := by
        simpa [List.getElem?_singleton] using hb
      rw [hv, show i = nodes.length by omega]
  live b hb := by
    obtain hb | rfl := by simpa using hb
    · exact h.live b hb
    · exact hl
  nodup := by
    rw [List.nodup_append]
    refine ⟨h.nodup, by simp, ?_⟩
    rintro b hb c hc rfl
    exact ha (List.mem_singleton.1 hc ▸ hb)

/-! ## The steps of the handler -/

/-- The values of a full batch, in the order in which `print_list` meets them. -/
def countdown : List ℤ := [13, 12, 11, 10, 9, 8, 7, 6, 5, 4, 3, 2, 1, 0]

theorem Batch.values (h : Batch d nodes) (hlen : nodes.length = batch) :
    nodes.reverse.map d.value = countdown := by
  have hmap : nodes.map d.value = (List.range batch).map fun i : ℕ => (i : ℤ) := by
    apply List.ext_getElem
    · simp [hlen]
    · intro i hi hi'
      rw [List.getElem_map, List.getElem_map, List.getElem_range]
      rw [List.length_map] at hi
      exact h.value_eq i _ (List.getElem?_eq_getElem hi)
  rw [List.map_reverse, hmap]
  decide

/-- What the handler has done so far is made of batches: each flush comes after 14 additions since
the one before it and prints the countdown; `k` additions were made since the last one. -/
inductive Batches : List Done → ℕ → Prop
  | nil : Batches [] 0
  | added {l : List Done} {k : ℕ} (a : Addr) (h : Batches l k) : Batches (l ++ [.added a]) (k + 1)
  | failed {l : List Done} {k : ℕ} (h : Batches l k) : Batches (l ++ [.failed]) k
  | flushed {l : List Done} {n : List (Addr × ℤ)} (h : Batches l batch)
      (hn : n.map Prod.snd = countdown) : Batches (l ++ [.flushed n]) 0

/-- The additions since the last flush, at each point of the handler. -/
def sinceFlush : HandlerPc → Data → ℕ
  | .print _ _, _ => batch
  | _, d => d.movingVal.toNat

/-- The invariant of the handler and of its history. -/
structure Inv (pc : HandlerPc) (d : Data) : Prop where
  agrees : HandlerInv pc d
  batches : Batches d.done (sinceFlush pc d)

theorem inv_lock (h : Inv .lock d) : ∃ pc' d', handlerStep mem .lock d = some (pc', d') ∧
    Inv pc' d' := by
  obtain ⟨⟨nodes, hn⟩, hb⟩ := h
  have hn' : Agrees { d with preempt := d.preempt + 1 } nodes :=
    ⟨hn.toBatch.congr (fun _ _ => rfl) (fun _ _ => rfl) hn.live, hn.movingVal, hn.ring⟩
  have hle := hn.le
  by_cases hlt : d.movingVal < (batch : ℤ)
  · have hlen : nodes.length < batch := by have := hn.movingVal; omega
    exact ⟨.kmalloc, _, by simp only [handlerStep, if_pos hlt], ⟨nodes, hn', hlen⟩, hb⟩
  · have hlen : nodes.length = batch := by have := hn.movingVal; omega
    exact ⟨.flush, _, by simp only [handlerStep, if_neg hlt], ⟨nodes, hn', hlen⟩, hb⟩

theorem inv_kmalloc (h : Inv .kmalloc d) (hmem : Fresh d.live mem) :
    ∃ pc' d', handlerStep mem .kmalloc d = some (pc', d') ∧ Inv pc' d' := by
  obtain ⟨⟨nodes, hn, hlen⟩, hb⟩ := h
  have hidx : index d.movingVal = some nodes.length := by rw [hn.movingVal, index_natCast hlen]
  -- the slot that is written lies past the nodes of the batch
  have hf : ∀ i < nodes.length, Function.update d.f nodes.length mem i = d.f i := fun i hi =>
    Function.update_of_ne (by omega) _ _
  cases mem with
  | none =>
    have hstep : handlerStep none .kmalloc d = some (.idle,
        ({ d with f := Function.update d.f nodes.length none }.say
          (.kmallocFailed d.movingVal)).record .failed) := by
      simp only [handlerStep, hidx, Option.map_some]
    refine ⟨_, _, hstep, ⟨nodes, ?_⟩, hb.failed⟩
    exact ⟨hn.toBatch.congr hf (fun _ _ => rfl) hn.live, hn.movingVal, hn.ring⟩
  | some a =>
    have hstep : handlerStep (some a) .kmalloc d = some (.add,
        { d with f := Function.update d.f nodes.length (some a), live := a :: d.live }.say
          (.kmallocPassed d.movingVal)) := by
      simp only [handlerStep, hidx, Option.map_some]
    have hlive : ∀ b ∈ nodes, b ∈ a :: d.live := fun b hb => List.mem_cons_of_mem a (hn.live b hb)
    refine ⟨_, _, hstep, ⟨nodes, ?_, hlen, a, List.mem_cons_self, ?_, ?_⟩, hb⟩
    · exact ⟨hn.toBatch.congr hf (fun _ _ => rfl) hlive, hn.movingVal, hn.ring⟩
    · exact Function.update_self _ _ _
    · exact fun ha => hmem (hn.live a ha)

theorem inv_add (h : Inv .add d) : ∃ pc' d', handlerStep mem .add d = some (pc', d') ∧
    Inv pc' d' := by
  obtain ⟨⟨nodes, hn, hlen, a, hlive, hf, ha⟩, hb⟩ := h
  have hidx : index d.movingVal = some nodes.length := by rw [hn.movingVal, index_natCast hlen]
  obtain ⟨m, hm, hring⟩ := listAdd_isRing (x := .data a) hn.ring (by simp [mem_heads, ha])
  have hstep : handlerStep mem .add d = some (.unlock,
      { d with value := Function.update d.value a d.movingVal, links := m,
               movingVal := d.movingVal + 1 }.record (.added a)) := by
    simp only [handlerStep, hidx, hf, Option.bind_some, hm, Option.map_some]
  refine ⟨_, _, hstep, ⟨nodes ++ [a], ?_, ?_, ?_⟩, ?_⟩
  · refine Batch.concat (hn.toBatch.congr (fun _ _ => rfl) ?_ hn.live) hlen hf ?_ hlive ha
    · intro b hb
      have hne : b ≠ a := fun e => ha (e ▸ hb)
      exact Function.update_of_ne hne _ _
    · rw [← hn.movingVal]
      exact Function.update_self _ _ _
  · simp [Data.record, hn.movingVal]
  · rw [heads_concat]
    exact hring
  · have hk : (d.movingVal + 1).toNat = d.movingVal.toNat + 1 := by have := hn.movingVal; omega
    simp only [sinceFlush, Data.record, hk]
    exact hb.added a

theorem inv_flush (h : Inv .flush d) : ∃ pc' d', handlerStep mem .flush d = some (pc', d') ∧
    Inv pc' d' := by
  obtain ⟨⟨nodes, hn, hlen⟩, hb⟩ := h
  have hstep : handlerStep mem .flush d = some (.print ((heads nodes).headD .head) [],
      { d with movingVal := 0 }.say .flush) := by
    simp only [handlerStep, Data.say, hn.ring.next_head]
  have hn' : Batch ({ d with movingVal := 0 }.say .flush) nodes :=
    hn.toBatch.congr (fun _ _ => rfl) (fun _ _ => rfl) hn.live
  refine ⟨_, _, hstep, ⟨rfl, nodes, hn', hlen, hn.ring, [], nodes.reverse, rfl, rfl, rfl⟩, ?_⟩
  have hk : d.movingVal.toNat = batch := by rw [hn.movingVal, hlen]; rfl
  simpa only [sinceFlush, Data.say, hk] using hb

/-- One round of `print_list`, or its end. -/
theorem inv_print {pos : Head} {seen : List (Addr × ℤ)} (h : Inv (.print pos seen) d) :
    ∃ pc' d', handlerStep mem (.print pos seen) d = some (pc', d') ∧ Inv pc' d' := by
  obtain ⟨⟨hmv, nodes, hn, hlen, hring, l₁, l₂, hsplit, rfl, rfl⟩, hb⟩ := h
  cases l₂ with
  | nil =>
    -- the loop is back at the head: it has printed the whole batch
    rw [List.append_nil] at hsplit
    refine ⟨.delete 0, d.record (.flushed _), rfl, ⟨hmv, nodes, ?_, hlen, by simp, hring⟩, ?_⟩
    · exact hn.congr (fun _ _ => rfl) (fun _ _ => rfl) hn.live
    · have hcount : (l₁.map fun a => (a, d.value a)).map Prod.snd = countdown := by
        rw [List.map_map, ← hsplit]
        exact hn.values hlen
      simpa only [sinceFlush, Data.record, hmv, Int.toNat_zero] using hb.flushed hcount
  | cons a l₂ =>
    have hheads : heads nodes = l₁.map .data ++ .data a :: l₂.map .data := by
      rw [heads, hsplit, List.map_append, List.map_cons]
    have hnext : d.links.next (.data a) = .node ((l₂.map Head.data).headD .head) := by
      rw [hheads] at hring
      exact hring.next_eq
    have hstep : handlerStep mem (.print (.data a) (l₁.map fun a => (a, d.value a))) d =
        some (.print ((l₂.map Head.data).headD .head)
          ((l₁.map fun a => (a, d.value a)) ++ [(a, d.value a)]),
          d.say (.linkList (d.value a))) := by
      simp only [handlerStep, hnext]
    refine ⟨_, _, hstep, ⟨hmv, nodes, ?_, hlen, hring, l₁ ++ [a], l₂, ?_, ?_, rfl⟩, hb⟩
    · exact hn.congr (fun _ _ => rfl) (fun _ _ => rfl) hn.live
    · rw [hsplit, List.append_assoc, List.singleton_append]
    · rw [List.map_append]
      rfl

/-- The node that the flush deletes next is the last one on the list. -/
theorem heads_drop {i : ℕ} {a : Addr} (ha : nodes[i]? = some a) :
    heads (nodes.drop i) = heads (nodes.drop (i + 1)) ++ [.data a] := by
  obtain ⟨hi, rfl⟩ := List.getElem?_eq_some_iff.1 ha
  rw [List.drop_eq_getElem_cons hi, heads_cons]

/-- One round of the loop that deletes the batch, or its end. -/
theorem inv_delete {i : ℕ} (h : Inv (.delete i) d) :
    ∃ pc' d', handlerStep mem (.delete i) d = some (pc', d') ∧ Inv pc' d' := by
  obtain ⟨⟨hmv, nodes, hn, hlen, hi, hring⟩, hb⟩ := h
  by_cases hlt : i < batch
  · have hidx : i < nodes.length := by omega
    have ha : nodes[i]? = some nodes[i] := List.getElem?_eq_getElem hidx
    have hf : d.f i = some nodes[i] := (hn.f_eq i hidx).trans ha
    rw [heads_drop ha] at hring
    obtain ⟨m, hm, hring'⟩ := listDel_isRing hring
    rw [List.append_nil] at hring'
    have hstep : handlerStep mem (.delete i) d =
        some (.delete (i + 1), { d with links := m }.say (.deleting i)) := by
      simp only [handlerStep, if_pos hlt, hf, Option.bind_some, hm, Option.map_some]
    refine ⟨_, _, hstep, ⟨hmv, nodes, ?_, hlen, by omega, hring'⟩, hb⟩
    exact hn.congr (fun _ _ => rfl) (fun _ _ => rfl) hn.live
  · have hall : nodes.drop i = [] := List.drop_eq_nil_of_le (by omega)
    rw [hall] at hring
    exact ⟨.unlock, d, by simp only [handlerStep, if_neg hlt], ⟨[], Batch.nil d, hmv, hring⟩, hb⟩

theorem inv_unlock (h : Inv .unlock d) : ∃ pc' d', handlerStep mem .unlock d = some (pc', d') ∧
    Inv pc' d' := by
  obtain ⟨⟨nodes, hn⟩, hb⟩ := h
  refine ⟨.idle, { d with preempt := d.preempt - 1 }, rfl, ⟨nodes, ?_⟩, hb⟩
  exact ⟨hn.toBatch.congr (fun _ _ => rfl) (fun _ _ => rfl) hn.live, hn.movingVal, hn.ring⟩

/-- **A step of the handler** does not fault and keeps the invariant. -/
theorem Inv.preserved (h : Inv pc d) (hpc : pc ≠ .idle) (hmem : pc = .kmalloc → Fresh d.live mem) :
    ∃ pc' d', handlerStep mem pc d = some (pc', d') ∧ Inv pc' d' := by
  cases pc with
  | idle => exact absurd rfl hpc
  | lock => exact inv_lock h
  | kmalloc => exact inv_kmalloc h (hmem rfl)
  | add => exact inv_add h
  | flush => exact inv_flush h
  | print pos seen => exact inv_print h
  | delete i => exact inv_delete h
  | unlock => exact inv_unlock h

end Lkb.WorkQueueDedicated
