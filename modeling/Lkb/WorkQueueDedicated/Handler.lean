import Lkb.Foundations.CircularList
import Mathlib.Data.Int.Notation

/-!
# The work handler of `work_queue_dedicated`

`work_handler` and `print_list` of `work_queue_dedicated/code.c`, statement by statement: a handler
that has begun is at one of the points `HandlerPc`, and `handlerStep` takes it to the next. The data
it works on (`Data`) is touched by no one else, since the queue is single-threaded; interrupts may
arrive between any two steps, and are part of the module's own step function.

A step has no result where the code would dereference `NULL` or a poisoned link, or leave the
array `f`. The result of `kmalloc` is an argument of the step that calls it.
-/

namespace Lkb.WorkQueueDedicated

open CircularList

/-- The address of a `struct data`. -/
abbrev Addr := ℕ

/-- A list head: the global `head`, or the field `next` of the `struct data` at an address. -/
inductive Head
  | head
  | data (a : Addr)
  deriving DecidableEq

/-- The lines that the handler prints. -/
inductive Msg
  | kmallocFailed (i : ℤ)
  | kmallocPassed (i : ℤ)
  | flush
  | linkList (value : ℤ)
  | deleting (i : ℕ)
  deriving DecidableEq

/-- What a run of the handler has done: added a node, found no memory for one, or flushed the list,
with the nodes that `print_list` printed and their values. -/
inductive Done
  | added (a : Addr)
  | failed
  | flushed (nodes : List (Addr × ℤ))
  deriving DecidableEq

/-- The variables of the handler: `moving_val`, the array `f`, the field `value` of the nodes, the
links of the list, the allocated nodes, the preemption depth of the worker and its output. -/
structure Data where
  movingVal : ℤ
  f : ℕ → Option Addr
  value : Addr → ℤ
  links : Links Head
  live : List Addr
  preempt : ℕ
  log : List Msg
  done : List Done

/-- The points of `work_handler`: the statement that comes next. In `print` the loop of `print_list`
stands at `pos` and has printed `seen`; in `delete` the loop counter is `i`. -/
inductive HandlerPc
  | idle
  | lock
  | kmalloc
  | add
  | flush
  | print (pos : Head) (seen : List (Addr × ℤ))
  | delete (i : ℕ)
  | unlock
  deriving DecidableEq

namespace Data

/-- Print a line. -/
def say (d : Data) (m : Msg) : Data := { d with log := d.log ++ [m] }

/-- Record what the handler did. -/
def record (d : Data) (r : Done) : Data := { d with done := d.done ++ [r] }

end Data

/-- What `kmalloc` may return: `NULL`, or an address that is not allocated. -/
def Fresh (live : List Addr) : Option Addr → Prop
  | none => True
  | some a => a ∉ live

instance (live : List Addr) : (mem : Option Addr) → Decidable (Fresh live mem)
  | none => isTrue trivial
  | some a => inferInstanceAs (Decidable (a ∉ live))

/-- The number of elements after which the handler flushes, and the size of the array `f`. -/
def batch : ℕ := 14

/-- The position of `f[i]` in the array, if there is one. -/
def index (i : ℤ) : Option ℕ := if 0 ≤ i ∧ i < (batch : ℤ) then some i.toNat else none

/-- One step of `work_handler`; `mem` is what `kmalloc` returns, where the step calls it. -/
def handlerStep (mem : Option Addr) : HandlerPc → Data → Option (HandlerPc × Data)
  | .idle, _ => none
  | .lock, d =>
    let d := { d with preempt := d.preempt + 1 }
    if d.movingVal < (batch : ℤ) then some (.kmalloc, d) else some (.flush, d)
  | .kmalloc, d =>
    (index d.movingVal).map fun i =>
      let d := { d with f := Function.update d.f i mem }
      match mem with
      -- the early return leaves the lock held
      | none => (.idle, (d.say (.kmallocFailed d.movingVal)).record .failed)
      | some a => (.add, { d with live := a :: d.live }.say (.kmallocPassed d.movingVal))
  | .add, d =>
    (index d.movingVal).bind fun i => (d.f i).bind fun a =>
      let d := { d with value := Function.update d.value a d.movingVal }
      (listAdd d.links (.data a) .head).map fun m =>
        (.unlock, { d with links := m, movingVal := d.movingVal + 1 }.record (.added a))
  | .flush, d =>
    let d := { d with movingVal := 0 }.say .flush
    match d.links.next .head with
    | .node pos => some (.print pos [], d)
    | _ => none
  | .print .head seen, d => some (.delete 0, d.record (.flushed seen))
  | .print (.data a) seen, d =>
    match d.links.next (.data a) with
    | .node pos => some (.print pos (seen ++ [(a, d.value a)]), d.say (.linkList (d.value a)))
    | _ => none
  | .delete i, d =>
    if i < batch then
      (d.f i).bind fun a =>
        (listDel d.links (.data a)).map fun m =>
          (.delete (i + 1), { d with links := m }.say (.deleting i))
    else some (.unlock, d)
  | .unlock, d => some (.idle, { d with preempt := d.preempt - 1 })

/-- What a step of the handler can do, one case for each way on from each point. -/
inductive Moves (mem : Option Addr) : HandlerPc → Data → HandlerPc → Data → Prop
  | lockAdd {d : Data} (h : d.movingVal < (batch : ℤ)) :
    Moves mem .lock d .kmalloc { d with preempt := d.preempt + 1 }
  | lockFlush {d : Data} (h : ¬d.movingVal < (batch : ℤ)) :
    Moves mem .lock d .flush { d with preempt := d.preempt + 1 }
  | failed {d : Data} {i : ℕ} (h : index d.movingVal = some i) (hmem : mem = none) :
    Moves mem .kmalloc d .idle
      (({ d with f := Function.update d.f i none }.say (.kmallocFailed d.movingVal)).record .failed)
  | passed {d : Data} {i : ℕ} {a : Addr} (h : index d.movingVal = some i) (hmem : mem = some a) :
    Moves mem .kmalloc d .add
      ({ d with f := Function.update d.f i (some a), live := a :: d.live }.say
        (.kmallocPassed d.movingVal))
  | add {d : Data} {i : ℕ} {a : Addr} {m : Links Head} (h : index d.movingVal = some i)
    (hf : d.f i = some a) (hm : listAdd d.links (.data a) .head = some m) :
    Moves mem .add d .unlock
      ({ d with
        value := Function.update d.value a d.movingVal, links := m,
        movingVal := d.movingVal + 1 }.record (.added a))
  | flush {d : Data} {pos : Head} (h : d.links.next .head = .node pos) :
    Moves mem .flush d (.print pos []) ({ d with movingVal := 0 }.say .flush)
  | printed {d : Data} {seen : List (Addr × ℤ)} :
    Moves mem (.print .head seen) d (.delete 0) (d.record (.flushed seen))
  | print {d : Data} {a : Addr} {pos : Head} {seen : List (Addr × ℤ)}
    (h : d.links.next (.data a) = .node pos) :
    Moves mem (.print (.data a) seen) d (.print pos (seen ++ [(a, d.value a)]))
      (d.say (.linkList (d.value a)))
  | delete {d : Data} {i : ℕ} {a : Addr} {m : Links Head} (hi : i < batch) (hf : d.f i = some a)
    (hm : listDel d.links (.data a) = some m) :
    Moves mem (.delete i) d (.delete (i + 1)) ({ d with links := m }.say (.deleting i))
  | deleted {d : Data} {i : ℕ} (hi : ¬i < batch) : Moves mem (.delete i) d .unlock d
  | unlock {d : Data} : Moves mem .unlock d .idle { d with preempt := d.preempt - 1 }

/-- **The steps of the handler.** -/
theorem handlerStep_moves {mem : Option Addr} {pc pc' : HandlerPc} {d d' : Data}
    (hs : handlerStep mem pc d = some (pc', d')) : Moves mem pc d pc' d' := by
  cases pc with
  | idle => cases hs
  | lock =>
    simp only [handlerStep] at hs
    split_ifs at hs with h
    · cases hs
      exact .lockAdd h
    · cases hs
      exact .lockFlush h
  | kmalloc =>
    obtain ⟨i, hi, hs⟩ := Option.map_eq_some_iff.1 hs
    cases mem with
    | none =>
      cases hs
      exact .failed hi rfl
    | some a =>
      cases hs
      exact .passed hi rfl
  | add =>
    obtain ⟨i, hi, hs⟩ := Option.bind_eq_some_iff.1 hs
    obtain ⟨a, hf, hs⟩ := Option.bind_eq_some_iff.1 hs
    obtain ⟨m, hm, hs⟩ := Option.map_eq_some_iff.1 hs
    cases hs
    exact .add hi hf hm
  | flush =>
    simp only [handlerStep] at hs
    split at hs
    next pos hpos =>
      cases hs
      exact .flush hpos
    next => cases hs
  | print pos seen =>
    cases pos with
    | head =>
      cases hs
      exact .printed
    | data a =>
      simp only [handlerStep] at hs
      split at hs
      next pos hpos =>
        cases hs
        exact .print hpos
      next => cases hs
  | delete i =>
    simp only [handlerStep] at hs
    split_ifs at hs with hi
    · obtain ⟨a, hf, hs⟩ := Option.bind_eq_some_iff.1 hs
      obtain ⟨m, hm, hs⟩ := Option.map_eq_some_iff.1 hs
      cases hs
      exact .delete hi hf hm
    · cases hs
      exact .deleted hi
  | unlock =>
    cases hs
    exact .unlock

end Lkb.WorkQueueDedicated
