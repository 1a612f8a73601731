import Lkb.Rcu.Reclaim

/-!
# The lock of `rcu`

`start` takes `mylist_lock` around every addition and around the replacement. For the deletion it
takes the lock once before the traversal, and gives it back at the node with data 20, where it
sets `flag`, or else after the traversal. There is at most one such node, so the two cases exclude
each other: while the deletion goes through the list, the lock is held, and `flag` is 0, exactly
as long as nothing was handed to `call_rcu` (`Locked`).

`lock_balanced` is the main result.
-/

namespace Lkb.Rcu

open CircularList Run

variable {N : Element} {s s' : State} {e : Event} {ok : Bool} {pos : Node}

/-! ## The calls -/

/-- The next step of `start` calls `spin_lock(&mylist_lock)`. -/
def State.acquires (N : Element) (s : State) : Bool :=
  match s.pc with
  | .add i => i < N.val
  | .lockDelete | .updateLock _ => true
  | _ => false

/-- The next step of `start` calls `spin_unlock(&mylist_lock)`. -/
def State.releases (s : State) : Bool :=
  match s.pc with
  | .addUnlock _ | .updateUnlock _ | .deleteUnlock _ => true
  | .checkFlag => s.flag = 0
  | _ => false

/-- The lock is held after the calls of `spin_lock`, and not after those of `spin_unlock`; nothing
else touches it. -/
theorem startStep_lock (hs : startStep N ok s = some s') :
    s'.lock = (s.acquires N || (s.lock && !s.releases)) := by
  cases startStep_moves hs with
  | kmalloc =>
    simp [State.acquires, State.releases, State.goto, State.kmalloc, State.setData, *]
  | checkFlag hpc =>
    by_cases hflag : s.flag = 0
    · simp [State.acquires, State.releases, hpc, hflag]
    · simp [State.acquires, State.releases, hpc, hflag]
  | _ =>
    simp [State.acquires, State.releases, State.goto, State.printk, State.setData, State.callRcu, *]

/-- The step does not take the lock while `start` holds it, and does not give it back while `start`
does not hold it. -/
def LockDiscipline (N : Element) (s : State) : Event → Prop
  | .start _ => (s.acquires N → s.lock = false) ∧ (s.releases → s.lock = true)
  | _ => True

/-! ## The invariant -/

/-- Where `start` holds the lock. -/
def Locked (s : State) : Prop :=
  match s.pc with
  | .addLink _ | .addUnlock _ | .replace _ | .updateUnlock _ | .setFlag _ => s.lock = true
  | .first .delete | .visit .delete _ | .testDelete _ | .advance .delete _ | .checkFlag =>
    (s.flag = 0 ↔ s.called = []) ∧ (s.lock = true ↔ s.called = [])
  | .delete _ | .deleteUnlock _ => s.lock = true ∧ s.flag ≠ 0
  | .callRcu _ => s.lock = false ∧ s.flag ≠ 0
  | .lockDelete => s.lock = false ∧ s.flag = 0
  | .synchronize l => l ≠ .delete ∧ s.lock = false
  | _ => s.lock = false

theorem locked_load (data : Node → BitVec 32) (links : Links Node) : Locked (load data links) := rfl

/-- Every step of `start` keeps the lock where it has to be. -/
theorem Locked.start_step (h : Locked s) (hat : At N s.memory s.pc)
    (hs : startStep N ok s = some s') : Locked s' := by
  unfold Locked at h
  cases startStep_moves hs with
  | hello hpc | kmalloc hpc | mallocFailed hpc | filled hpc | added hpc =>
    rw [hpc] at h
    exact h
  | addLock | addUnlock | updateLock | updateUnlock => rfl
  | addLink hpc | replace hpc | delete hpc =>
    rw [hpc] at h
    exact h
  | @first l pos hpc | @advance l pos next hpc =>
    rw [hpc] at h
    cases l <;> exact h
  | @leave l hpc =>
    rw [hpc] at h
    cases l with
    | read0 | update =>
      refine ⟨?_, h⟩
      simp
    | read1 | delete | read2 => exact h
  | @enter l pos hpc =>
    rw [hpc] at h
    cases l <;> exact h
  | @readLock l pos hpc | @readUnlock l pos hpc =>
    -- the deletion does not read
    rw [hpc] at h hat
    cases l with
    | delete => exact absurd rfl hat.1
    | _ => exact h
  | print hpc | update hpc | noUpdate hpc | setNew hpc =>
    rw [hpc] at h
    exact h
  | @synchronize l hpc =>
    rw [hpc] at h
    obtain ⟨hl, hlock⟩ := h
    cases l with
    | delete => exact absurd rfl hl
    | _ => exact hlock
  | clearFlag hpc =>
    rw [hpc] at h
    exact ⟨h, rfl⟩
  | lockDelete hpc =>
    rw [hpc] at h hat
    have hcalled : s.called = [] := Stand.called hat
    exact ⟨iff_of_true h.2 hcalled, iff_of_true rfl hcalled⟩
  | match20 hpc htwenty =>
    -- the node with data 20 is still before the iterator: nothing was handed over
    rw [hpc] at h hat
    obtain ⟨l₁, l₂, hstand⟩ := hat
    obtain rfl := hstand.data_eq_twenty.1 htwenty
    have hcalled : s.called = [] :=
      hstand.called.trans (handed_eq_nil (not_mem_handed hstand.split hstand.nodup))
    exact h.2.2 hcalled
  | noMatch hpc =>
    rw [hpc] at h
    exact h
  | setFlag hpc =>
    rw [hpc] at h
    refine ⟨h, ?_⟩
    simp
  | deleteUnlock hpc =>
    rw [hpc] at h
    exact ⟨rfl, h.2⟩
  | @callRcu pos hpc =>
    rw [hpc] at h
    have hcalled : s.called ++ [pos] ≠ [] := by simp
    have hlock : s.lock ≠ true := by simp [h.1]
    exact ⟨iff_of_false h.2 hcalled, iff_of_false hlock hcalled⟩
  | checkFlag hpc =>
    rw [hpc] at h
    obtain ⟨hflag, hlock⟩ := h
    show (if s.flag = 0 then false else s.lock) = false
    split_ifs with h0
    · rfl
    · exact Bool.eq_false_iff.2 fun hl => h0 (hflag.2 (hlock.1 hl))

/-- The invariant does not depend on the callbacks. -/
theorem Locked.congr (h : Locked s) (hpc : s'.pc = s.pc) (hlock : s'.lock = s.lock)
    (hflag : s'.flag = s.flag) (hcalled : s'.called = s.called) : Locked s' := by
  unfold Locked at h ⊢
  rwa [hpc, hlock, hflag, hcalled]

theorem Locked.preserved (h : Locked s) (hat : At N s.memory s.pc) (hs : step N s e = some s') :
    Locked s' := by
  cases e with
  | start ok =>
    obtain ⟨t, ht, rfl⟩ := Option.map_eq_some_iff.1 hs
    have htlock := h.start_step hat ht
    unfold State.quiesce
    split_ifs
    · exact htlock.congr rfl rfl rfl rfl
    · exact htlock
  | callback k =>
    simp only [step] at hs
    split at hs
    · cases hs
      exact h.congr rfl rfl rfl rfl
    · cases hs
  | destroy k =>
    obtain ⟨x, -, rfl⟩ := Option.map_eq_some_iff.1 hs
    exact h.congr rfl rfl rfl rfl
  | endModule =>
    simp only [step, Option.ite_none_right_eq_some, Option.some.injEq] at hs
    obtain ⟨-, rfl⟩ := hs
    exact h.congr rfl rfl rfl rfl

/-- Where the lock has to be, `start` calls `spin_lock` and `spin_unlock` in turn. -/
theorem Locked.lockDiscipline (h : Locked s) (e : Event) : LockDiscipline N s e := by
  cases e with
  | start ok =>
    unfold Locked at h
    unfold LockDiscipline State.acquires State.releases
    cases hpc : s.pc with
    | checkFlag =>
      rw [hpc] at h
      refine ⟨nofun, fun hflag => ?_⟩
      exact h.2.2 (h.1.1 (of_decide_eq_true hflag))
    | lockDelete =>
      rw [hpc] at h
      exact ⟨fun _ => h.1, nofun⟩
    | add i | updateLock i =>
      rw [hpc] at h
      exact ⟨fun _ => h, nofun⟩
    | addUnlock i | updateUnlock i =>
      rw [hpc] at h
      exact ⟨nofun, fun _ => h⟩
    | deleteUnlock i =>
      rw [hpc] at h
      exact ⟨nofun, fun _ => h.1⟩
    | _ => exact ⟨nofun, nofun⟩
  | _ => trivial

/-- **The lock discipline of `start`.** For every value of `element` and every result of the calls
of `kmalloc`, also where `10 * (N - 1)` is not representable, and however the callbacks are
interleaved: `start` never takes the lock while it holds it, never gives it back while it does not,
and does not hold it when it has returned. -/
theorem lock_balanced (N : Element) (data : Node → BitVec 32) (links : Links Node)
    (es : List Event) :
    Along (step N) (LockDiscipline N) (load data links) es ∧
      Always (step N) (fun s => ∀ ret, s.pc = .returned ret → s.lock = false)
        (load data links) es := by
  have hG : Along (step N) (fun _ _ => True) (load data links) es := along_true _ _
  have hI : At N (load data links).memory .hello ∧ Locked (load data links) :=
    ⟨at_load N data links, locked_load data links⟩
  constructor
  · refine Along.of_invariant (I := fun s => At N s.memory s.pc ∧ Locked s)
      (fun s e s' h _ hs => ?_) hG hI
    exact ⟨⟨h.1.preserved hs, h.2.preserved h.1 hs⟩, h.2.lockDiscipline e⟩
  · refine Always.of_invariant (I := fun s => At N s.memory s.pc ∧ Locked s)
      (fun s e s' h _ hs => ⟨h.1.preserved hs, h.2.preserved h.1 hs⟩) (fun s h ret hret => ?_) hG hI
    have hlocked := h.2
    unfold Locked at hlocked
    rw [hret] at hlocked
    exact hlocked

end Lkb.Rcu
