import Lkb.Foundations.Run
import Lkb.Rcu.Start

/-!
# The module `rcu`

`start` interleaved with the grace-period machinery and `end`. A callback that `call_rcu` has
registered may begin once it is ready, at any later point; `destroy_old_structure` then prints and
frees its node. `container_of` of a registered `rcu_head` is never `NULL`, so the branch for that
is left out.
-/

namespace Lkb.Rcu

open CircularList Run

/-- A step of one of the parties. The callbacks are chosen by their position in the list of the
pending, or of the running ones. -/
inductive Event
  | start (ok : Bool)
  | callback (k : ℕ)
  | destroy (k : ℕ)
  | endModule
  deriving DecidableEq

/-- `destroy_old_structure` on the `k`-th running callback, whose node is `x`. -/
def destroyOldStructure (s : State) (k : ℕ) (x : Node) : State :=
  let s := (s.printk .deletedOldReference).printk (.data (s.data x))
  { s with
    running := s.running.eraseIdx k, allocated := s.allocated.erase x, freed := s.freed ++ [x] }

/-- One step of the module. -/
def step (N : Element) (s : State) : Event → Option State
  | .start ok => (startStep N ok s).map State.quiesce
  | .callback k =>
    match s.pending[k]? with
    | some ⟨x, true⟩ => some { s with pending := s.pending.eraseIdx k, running := s.running ++ [x] }
    | _ => none
  | .destroy k => (s.running[k]?).map (destroyOldStructure s k)
  | .endModule =>
    if s.pc = .returned 0 ∧ s.ended = false then some { s.printk .goodbye with ended := true }
    else none

/-- The state when the module is loaded: the list is the `LIST_HEAD`, and the memory of the nodes is
as it is. -/
def load (data : Node → BitVec 32) (links : Links Node) : State where
  pc := .hello
  data := data
  links := initListHead links .head
  allocated := []
  freed := []
  lock := false
  readers := 0
  flag := 0
  called := []
  pending := []
  running := []
  ended := false
  log := []

/-- A callback is pending, is running or has run only for a node that was handed to `call_rcu`. -/
structure Registered (s : State) : Prop where
  pending : ∀ c ∈ s.pending, c.node ∈ s.called
  running : ∀ x ∈ s.running, x ∈ s.called
  freed : ∀ x ∈ s.freed, x ∈ s.called

variable {N : Element} {s s' : State} {e : Event} {ok : Bool}

theorem registered_load (data : Node → BitVec 32) (links : Links Node) :
    Registered (load data links) := ⟨nofun, nofun, nofun⟩

/-! ## Frame rules -/

/-- A step of `start` leaves the callbacks alone, unless it is the call of `call_rcu`. -/
theorem startStep_frame (hs : startStep N ok s = some s') :
    s'.freed = s.freed ∧ s'.running = s.running ∧ s'.ended = s.ended ∧
      (s'.called = s.called ∧ s'.pending = s.pending ∨
        ∃ pos, s.pc = .callRcu pos ∧ s'.called = s.called ++ [pos] ∧
          s'.pending = s.pending ++ [⟨pos, false⟩]) := by
  cases startStep_moves hs with
  | callRcu hpc => exact ⟨rfl, rfl, rfl, .inr ⟨_, hpc, rfl, rfl⟩⟩
  | _ => exact ⟨rfl, rfl, rfl, .inl ⟨rfl, rfl⟩⟩

/-- `start` has not come past its first loop, or has failed there. -/
def Pc.early : Pc → Bool
  | .hello | .fill _ => true
  | .returned ret => ret ≠ 0
  | _ => false

/-- The first steps of `start`: it says hello, and allocates the nodes until `kmalloc` fails. No
later step leads back to them. -/
theorem startStep_front (hs : startStep N ok s = some s') :
    (s.pc = .hello ∧ s' = (s.printk .hello).goto (.fill 0)) ∨
      (∃ i, s.pc = .fill i ∧
        s' = ((s.kmalloc (.val i)).setData (.val i) (value i)).goto (.fill (i + 1))) ∨
      (∃ i < N.val, s.pc = .fill i ∧ ok = false ∧
        s' = (s.printk (.mallocFailed i)).goto (.returned (-1))) ∨
      s'.pc.early = false := by
  cases startStep_moves hs with
  | hello hpc => exact .inl ⟨hpc, rfl⟩
  | kmalloc hpc hi => exact .inr (.inl ⟨_, hpc, rfl⟩)
  | mallocFailed hpc hi hok => exact .inr (.inr (.inl ⟨_, hi, hpc, hok, rfl⟩))
  | @leave l | @enter l | @readLock l => cases l <;> exact .inr (.inr (.inr rfl))
  | _ => exact .inr (.inr (.inr rfl))

/-- `start` returns 0, unless `kmalloc` fails. -/
theorem startStep_returned {ret : ℤ} (hs : startStep N true s = some s')
    (hret : s'.pc = .returned ret) : ret = 0 := by
  obtain ⟨-, rfl⟩ | ⟨i, -, rfl⟩ | ⟨i, -, -, hok, -⟩ | hearly := startStep_front hs
  · cases hret
  · cases hret
  · cases hok
  · simpa [hret, Pc.early] using hearly

theorem Registered.start_step (h : Registered s) (hs : startStep N ok s = some s') :
    Registered s' := by
  obtain ⟨hf, hr, -, ⟨hc, hp⟩ | ⟨pos, -, hc, hp⟩⟩ := startStep_frame hs
  · exact ⟨by rw [hc, hp]; exact h.pending, by rw [hc, hr]; exact h.running,
      by rw [hc, hf]; exact h.freed⟩
  · have hmono : ∀ x ∈ s.called, x ∈ s'.called := fun x hx => by simp [hc, hx]
    refine ⟨fun c hm => ?_, fun x hx => hmono x (h.running x (hr ▸ hx)),
      fun x hx => hmono x (h.freed x (hf ▸ hx))⟩
    rw [hp] at hm
    obtain hm | hm := List.mem_append.1 hm
    · exact hmono _ (h.pending c hm)
    · obtain rfl := List.mem_singleton.1 hm
      simp [hc]

/-- The callbacks that have become ready are the ones that were pending. -/
theorem Registered.quiesce (h : Registered s) : Registered s.quiesce := by
  unfold State.quiesce
  split_ifs
  · refine ⟨fun c hc => ?_, h.running, h.freed⟩
    obtain ⟨c', hc', rfl⟩ := List.mem_map.1 hc
    exact h.pending c' hc'
  · exact h

theorem Registered.preserved (h : Registered s) (hs : step N s e = some s') : Registered s' := by
  cases e with
  | start ok =>
    obtain ⟨t, ht, rfl⟩ := Option.map_eq_some_iff.1 hs
    exact (h.start_step ht).quiesce
  | callback k =>
    simp only [step] at hs
    split at hs
    next x hk =>
      cases hs
      have hx : x ∈ s.called := h.pending _ (List.mem_of_getElem? hk)
      refine ⟨fun c hc => h.pending c (List.mem_of_mem_eraseIdx hc), fun y hy => ?_, h.freed⟩
      obtain hy | hy := List.mem_append.1 hy
      · exact h.running y hy
      · obtain rfl := List.mem_singleton.1 hy
        exact hx
    next => cases hs
  | destroy k =>
    obtain ⟨x, hk, rfl⟩ := Option.map_eq_some_iff.1 hs
    have hx : x ∈ s.called := h.running _ (List.mem_of_getElem? hk)
    refine ⟨h.pending, fun y hy => h.running y (List.mem_of_mem_eraseIdx hy), fun y hy => ?_⟩
    obtain hy | hy := List.mem_append.1 hy
    · exact h.freed y hy
    · obtain rfl := List.mem_singleton.1 hy
      exact hx
  | endModule =>
    simp only [step, Option.ite_none_right_eq_some, Option.some.injEq] at hs
    obtain ⟨-, rfl⟩ := hs
    exact ⟨h.pending, h.running, h.freed⟩

end Lkb.Rcu
