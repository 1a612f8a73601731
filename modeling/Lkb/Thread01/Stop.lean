import Lkb.Thread01.System

/-!
# How `km_exit` stops the threads

`km_exit` goes through the list that `km_init` has built by insertion at the front, while the
threads run. A thread leaves `mfoo` only when it is told to stop (`Thread.Inv`), so a thread that
`km_exit` has not come to yet is still there, wherever it is in `mfoo` and also when it has never
run; and `km_exit` goes on to the next one, and at last to `kfree`, only when the thread has exited
(`Inv.joined`). `At` says where `km_init` and `km_exit` are in the list; the threads do not change
what it speaks of.

The main results are `km_exit_stops_and_frees`, about every run, and the rank of `km_exit`, by which
it can always come to its end.
-/

namespace Lkb.Thread01

open CircularList Run

/-! ## The threads -/

/-- The thread has left the loop of `mfoo`, or has never entered it. -/
def ThreadPc.leaving : ThreadPc → Bool
  | .leave | .exited _ => true
  | _ => false

/-- The thread was woken up. -/
def ThreadPc.woken : ThreadPc → Bool
  | .notCreated | .created => false
  | _ => true

/-- The thread has exited. -/
def ThreadPc.hasExited : ThreadPc → Bool
  | .exited _ => true
  | _ => false

/-- A thread goes to its end only if it should stop, and was woken up if it should. -/
structure Thread.Inv (t : Thread) : Prop where
  stop_of_leaving : t.pc.leaving → t.stop
  woken_of_stop : t.stop → t.pc.woken

variable {N i t : ℕ} {s s' : State} {th th' : Thread} {e : Event} {ok : Bool}

/-- A thread keeps its invariant and its flag, and has not exited before it takes a step. -/
theorem Thread.Inv.step (h : th.Inv) (hs : th.step = some th') :
    th'.Inv ∧ th'.stop = th.stop ∧ th.pc.hasExited = false ∧ th'.pc ≠ .notCreated := by
  obtain ⟨pc, stop⟩ := th
  cases pc with
  | notCreated | created | exited ret => cases hs
  | ready | shouldStop =>
    cases hs
    cases stop <;> exact ⟨⟨by simp [ThreadPc.leaving], by simp [ThreadPc.woken]⟩, rfl, rfl, nofun⟩
  | prInfo | msleep =>
    cases hs
    exact ⟨⟨nofun, fun _ => rfl⟩, rfl, rfl, nofun⟩
  | leave =>
    cases hs
    exact ⟨⟨fun _ => h.stop_of_leaving rfl, fun _ => rfl⟩, rfl, rfl, nofun⟩

/-- A thread that was woken up takes a step until it has exited. -/
theorem Thread.exited_of_step_eq_none (hw : th.pc.woken) (hs : th.step = none) :
    ∃ ret, th.pc = .exited ret := by
  obtain ⟨pc, stop⟩ := th
  cases pc with
  | notCreated | created => cases hw
  | exited ret => exact ⟨ret, rfl⟩
  | _ => cases hs

theorem Thread.wakeUp_stop (th : Thread) : th.wakeUp.stop = th.stop := by
  unfold Thread.wakeUp
  split_ifs <;> rfl

theorem Thread.wakeUp_hasExited (th : Thread) : th.wakeUp.pc.hasExited = th.pc.hasExited := by
  unfold Thread.wakeUp
  split_ifs with h
  · rw [h]
    rfl
  · rfl

theorem Thread.wakeUp_leaving (th : Thread) : th.wakeUp.pc.leaving = th.pc.leaving := by
  unfold Thread.wakeUp
  split_ifs with h
  · rw [h]
    rfl
  · rfl

theorem Thread.wakeUp_woken (h : th.pc ≠ .notCreated) : th.wakeUp.pc.woken := by
  unfold Thread.wakeUp
  split_ifs with hc
  · rfl
  · obtain ⟨pc, stop⟩ := th
    cases pc with
    | notCreated => exact absurd rfl h
    | created => exact absurd rfl hc
    | _ => rfl

/-! ## The list -/

/-- The indices of the work structures in the order of the list, the last one first. -/
def indices (n : ℕ) : List ℕ := (List.range n).reverse

/-- The list after `n` work structures were added. -/
def nodes (n : ℕ) : List Node := (indices n).map .work

theorem nodes_succ (n : ℕ) : nodes (n + 1) = .work n :: nodes n := by
  simp [nodes, indices, List.range_succ]

theorem mem_indices : i ∈ indices N ↔ i < N := by
  simp [indices]

theorem work_not_mem (i : ℕ) : .work i ∉ .head :: nodes i := by
  simp [nodes, indices]

/-- The part of the state that only `km_init` and `km_exit` change. -/
structure Control where
  links : Links Node
  task : ℕ → ℕ
  allocated : List ℕ
  created : ℕ
  stops : List ℕ
  frees : List ℕ

def State.control (s : State) : Control :=
  ⟨s.links, s.task, s.allocated, s.created, s.stops, s.frees⟩

/-- The list holds exactly the indices from `lo` up to `hi`. -/
structure Live (allocated : List ℕ) (lo hi : ℕ) : Prop where
  nodup : allocated.Nodup
  mem_iff : ∀ j, j ∈ allocated ↔ lo ≤ j ∧ j < hi

/-- `km_init` has created `n` threads, the one for `g_work[i]` as the `i`-th, and has allocated `m`
work structures. Nothing was stopped or freed. -/
structure Made (c : Control) (n m : ℕ) : Prop where
  created : c.created = n
  task : ∀ j < n, c.task j = j
  live : Live c.allocated 0 m
  stops : c.stops = []
  frees : c.frees = []

/-- The threads that a traversal has called `kthread_stop` for when it has the indices `l₁` behind
it. -/
def called : Loop → List ℕ → List ℕ
  | .wake, _ => []
  | .stop, l₁ => l₁

/-- The traversal `l` of the list has the indices `l₁` behind it and `l₂` before it. -/
structure Stand (N : ℕ) (c : Control) (l : Loop) (l₁ l₂ : List ℕ) : Prop where
  split : indices N = l₁ ++ l₂
  created : c.created = N
  task : ∀ j < N, c.task j = j
  ring : IsRing c.links .head (nodes N)
  live : Live c.allocated 0 N
  stops : c.stops = called l l₁
  frees : c.frees = []

/-- What holds at each point of `km_init` and `km_exit`. -/
def At (N : ℕ) (c : Control) : Pc → Prop
  | .kmalloc i => i ≤ N ∧ Made c i i
  | .kthreadCreate i => i < N ∧ Made c i (i + 1)
  | .allCreated | .initListHead => Made c N N
  | .listAdd i => i ≤ N ∧ Made c N N ∧ IsRing c.links .head (nodes i)
  | .first l => Stand N c l [] (indices N)
  | .visit l pos => ∃ l₁ l₂, Stand N c l l₁ l₂ ∧ pos = (l₂.map Node.work).headD .head
  | .data i | .wakeUp i => ∃ l₁ l₂, Stand N c .wake l₁ (i :: l₂)
  | .msleep i | .kthreadStop i => ∃ l₁ l₂, Stand N c .stop l₁ (i :: l₂)
  | .waitExit i t => t = i ∧ ∃ l₁ l₂, Stand N c .stop (l₁ ++ [i]) l₂
  | .stopped i _ => ∃ l₁ l₂, Stand N c .stop (l₁ ++ [i]) l₂
  | .advance l i => ∃ l₁ l₂, Stand N c l (l₁ ++ [i]) l₂
  | .bar => Stand N c .stop [] (indices N)
  | .returned ret => c.stops = [] ∧ c.frees = [] ∧ (ret = 0 → Stand N c .stop [] (indices N))
  | .kfree k => k ≤ N ∧ c.stops = indices N ∧ c.frees = List.range k ∧ Live c.allocated k N
  | .goodbye | .unloaded => c.stops = indices N ∧ c.frees = List.range N ∧ c.allocated = []

variable {c : Control} {l : Loop} {l₁ l₂ allocated : List ℕ}

theorem Live.cons (h : Live allocated 0 i) : Live (i :: allocated) 0 (i + 1) := by
  refine ⟨List.nodup_cons.2 ⟨fun hm => ?_, h.nodup⟩, fun j => ?_⟩
  · have := (h.mem_iff i).1 hm
    omega
  · rw [List.mem_cons, h.mem_iff j]
    omega

theorem Live.erase (h : Live allocated i N) : Live (allocated.erase i) (i + 1) N := by
  refine ⟨h.nodup.erase i, fun j => ?_⟩
  rw [h.nodup.mem_erase_iff, h.mem_iff j]
  omega

/-- The entry after the one that a traversal stands on. -/
theorem Stand.next (h : Stand N c l (l₁ ++ [i]) l₂) :
    c.links.next (.work i) = .node ((l₂.map Node.work).headD .head) := by
  have hring := h.ring
  have hnodes : nodes N = l₁.map Node.work ++ .work i :: l₂.map Node.work := by
    simp [nodes, h.split]
  rw [hnodes] at hring
  exact hring.next_eq

/-- A traversal that is back at the head has the whole list behind it. -/
theorem Stand.leave (h : Stand N c l l₁ []) : At N c (leave l) := by
  obtain rfl : indices N = l₁ := by simpa using h.split
  cases l with
  | wake => exact ⟨rfl, h.created, h.task, h.ring, h.live, h.stops, h.frees⟩
  | stop => exact ⟨Nat.zero_le N, h.stops, h.frees, h.live⟩

theorem Stand.enter (h : Stand N c l l₁ (i :: l₂)) : At N c (enter l i) := by
  cases l with
  | wake => exact ⟨l₁, l₂, h⟩
  | stop => exact ⟨l₁, l₂, h⟩

theorem Stand.lt (h : Stand N c l l₁ (i :: l₂)) : i < N := by
  apply mem_indices.1
  simp [h.split]

/-- The thread that `kthread_stop` is called for in the middle of the list. -/
theorem Stand.kthreadStop (h : Stand N c .stop l₁ (i :: l₂)) :
    Stand N { c with stops := c.stops ++ [c.task i] } .stop (l₁ ++ [i]) l₂ := by
  refine ⟨by simp [h.split], h.created, h.task, h.ring, h.live, ?_, h.frees⟩
  have hstops : c.stops = l₁ := h.stops
  simp [hstops, h.task i h.lt, called]

/-- **The control of `km_init` and `km_exit`.** Every statement leads from what holds at one point
to what holds at the next. -/
theorem At.main_step (h : At N s.control s.pc) (hs : mainStep N ok s = some s') :
    At N s'.control s'.pc := by
  cases mainStep_moves hs with
  | kmalloc hpc hlt =>
    rw [hpc] at h
    obtain ⟨-, hmade⟩ := h
    exact ⟨hlt, hmade.created, hmade.task, hmade.live.cons, hmade.stops, hmade.frees⟩
  | kmallocFailed hpc | kthreadFailed hpc =>
    rw [hpc] at h
    exact ⟨h.2.stops, h.2.frees, by simp⟩
  | @filled i hpc hlt =>
    rw [hpc] at h
    obtain ⟨hi, hmade⟩ := h
    obtain rfl : i = N := by omega
    exact hmade
  | @kthreadCreate i hpc =>
    rw [hpc] at h
    obtain ⟨hi, hmade⟩ := h
    have hcreated : s.created = i := hmade.created
    refine ⟨hi, by simp [State.control, State.goto, State.kthreadCreate, hcreated], ?_,
      hmade.live, hmade.stops, hmade.frees⟩
    intro j hj
    by_cases hji : j = i
    · simp [State.control, State.goto, State.kthreadCreate, hji, hcreated]
    · have htask : s.task j = j := hmade.task j (by omega)
      simpa [State.control, State.goto, State.kthreadCreate, hji] using htask
  | allCreated hpc | data hpc | msleep hpc | stopped hpc | notRun hpc | goodbye hpc =>
    rw [hpc] at h
    exact h
  | initListHead hpc =>
    rw [hpc] at h
    exact ⟨Nat.zero_le N, ⟨h.created, h.task, h.live, h.stops, h.frees⟩,
      isRing_initListHead s.links .head⟩
  | @listAdd i m hpc hlt hm =>
    rw [hpc] at h
    obtain ⟨-, hmade, hring⟩ := h
    obtain ⟨m', hm', hring'⟩ := listAdd_isRing hring (work_not_mem i)
    obtain rfl : m' = m := Option.some.inj (hm'.symm.trans hm)
    refine ⟨hlt, ⟨hmade.created, hmade.task, hmade.live, hmade.stops, hmade.frees⟩, ?_⟩
    rw [nodes_succ]
    exact hring'
  | @added i hpc hlt =>
    rw [hpc] at h
    obtain ⟨hi, hmade, hring⟩ := h
    obtain rfl : i = N := by omega
    exact ⟨rfl, hmade.created, hmade.task, hring, hmade.live, hmade.stops, hmade.frees⟩
  | @first l pos hpc hnext =>
    rw [hpc] at h
    have hpos := (show Stand N s.control l [] (indices N) from h).ring.next_head
    exact ⟨[], indices N, h, Link.node.inj (hnext.symm.trans hpos)⟩
  | leave hpc =>
    rw [hpc] at h
    obtain ⟨l₁, l₂, hstand, hpos⟩ := h
    cases l₂ with
    | nil => exact hstand.leave
    | cons i l₂ => cases hpos
  | @enter l i hpc =>
    rw [hpc] at h
    obtain ⟨l₁, l₂, hstand, hpos⟩ := h
    cases l₂ with
    | nil => cases hpos
    | cons j l₂ =>
      obtain rfl : i = j := Node.work.inj hpos
      exact hstand.enter
  | wakeUp hpc =>
    rw [hpc] at h
    obtain ⟨l₁, l₂, h⟩ := h
    exact ⟨l₁, l₂, by simp [h.split], h.created, h.task, h.ring, h.live, h.stops, h.frees⟩
  | @kthreadStop i hpc =>
    rw [hpc] at h
    obtain ⟨l₁, l₂, h⟩ := h
    exact ⟨h.task i h.lt, l₁, l₂, h.kthreadStop⟩
  | waitExit hpc =>
    rw [hpc] at h
    exact h.2
  | @advance l i next hpc hnext =>
    rw [hpc] at h
    obtain ⟨l₁, l₂, hstand⟩ := h
    exact ⟨l₁ ++ [i], l₂, hstand, Link.node.inj (hnext.symm.trans hstand.next)⟩
  | bar hpc =>
    rw [hpc] at h
    exact ⟨h.stops, h.frees, fun _ => h⟩
  | @kfree i hpc hlt =>
    rw [hpc] at h
    obtain ⟨-, hstops, hfrees, hlive⟩ := h
    have hfrees : s.frees = List.range i := hfrees
    refine ⟨hlt, hstops, ?_, hlive.erase⟩
    simp [State.control, State.goto, State.kfree, hfrees, List.range_succ]
  | @freed i hpc hlt =>
    rw [hpc] at h
    obtain ⟨hi, hstops, hfrees, hlive⟩ := h
    obtain rfl : i = N := by omega
    refine ⟨hstops, hfrees, List.eq_nil_iff_forall_not_mem.2 fun j hj => ?_⟩
    have := (hlive.mem_iff j).1 hj
    omega

/-! ## The invariant -/

/-- What holds of the threads and of `km_init` and `km_exit` together. A thread should stop exactly
when `kthread_stop` was called for it, and has then exited, unless `kthread_stop` still waits for
it. -/
structure Inv (N : ℕ) (s : State) : Prop where
  thread : ∀ t, (s.threads t).Inv
  flag : ∀ t, (s.threads t).stop ↔ t ∈ s.stops
  exist : ∀ t < s.created, (s.threads t).pc ≠ .notCreated
  joined : ∀ t ∈ s.stops, (s.threads t).pc.hasExited ∨ ∃ i, s.pc = .waitExit i t
  control : At N s.control s.pc

theorem inv_load (N : ℕ) (links : Links Node) : Inv N (load links) where
  thread := fun _ => ⟨nofun, nofun⟩
  flag := fun _ => ⟨nofun, nofun⟩
  exist := nofun
  joined := nofun
  control := ⟨Nat.zero_le N, rfl, nofun, ⟨List.nodup_nil, by simp [load, State.control]⟩, rfl, rfl⟩

/-- What holds of the other threads, and of the one that is changed, holds of every thread after the
change. -/
theorem forall_setThread {P : ℕ → Thread → Prop} (h : ∀ t' ≠ t, P t' (s.threads t'))
    (ht : P t th) : ∀ t', P t' ((s.setThread t th).threads t') := by
  intro t'
  by_cases he : t' = t
  · rw [he]
    simpa [State.setThread] using ht
  · simpa [State.setThread, Function.update_of_ne he] using h t' he

/-- What the statements of `km_init` and `km_exit` do to the threads: only three of them change one,
and the wait of `kthread_stop` ends only when its thread has exited. -/
theorem mainStep_frame (hs : mainStep N ok s = some s') :
    (s'.threads = s.threads ∧ s'.stops = s.stops ∧ s'.created = s.created ∧
        ∀ i t, s.pc = .waitExit i t → (s.threads t).pc.hasExited) ∨
      (∃ i, s.pc = .kthreadCreate i ∧ s' = (s.kthreadCreate i).goto (.kmalloc (i + 1))) ∨
      (∃ i, s.pc = .wakeUp i ∧ s' = (s.wakeUpProcess (s.task i)).goto (.advance .wake i)) ∨
      ∃ i, s.pc = .kthreadStop i ∧
        s' = (s.kthreadStop (s.task i)).goto (.waitExit i (s.task i)) := by
  cases mainStep_moves hs with
  | @kthreadCreate i hpc => exact .inr (.inl ⟨i, hpc, rfl⟩)
  | @wakeUp i hpc => exact .inr (.inr (.inl ⟨i, hpc, rfl⟩))
  | @kthreadStop i hpc => exact .inr (.inr (.inr ⟨i, hpc, rfl⟩))
  | waitExit hpc hret =>
    refine .inl ⟨rfl, rfl, rfl, fun i' t' he => ?_⟩
    obtain ⟨rfl, rfl⟩ := Pc.waitExit.inj (hpc.symm.trans he)
    rw [hret]
    rfl
  | _ =>
    refine .inl ⟨rfl, rfl, rfl, fun i' t' he => ?_⟩
    simp_all only [reduceCtorEq]

/-- Away from the wait of `kthread_stop`, every thread that was stopped has exited. -/
theorem Inv.exited (h : Inv N s) (hpc : ∀ i t, s.pc ≠ .waitExit i t) :
    ∀ t ∈ s.stops, (s.threads t).pc.hasExited := by
  intro t ht
  obtain he | ⟨i, hi⟩ := h.joined t ht
  · exact he
  · exact absurd hi (hpc i t)

/-- A thread that `kthread_stop` was not called for has not exited. -/
theorem Inv.not_exited (h : Inv N s) (ht : t ∉ s.stops) :
    (s.threads t).pc.hasExited = false := by
  by_contra he
  have hleaving : (s.threads t).pc.leaving := by
    cases hpc : (s.threads t).pc with
    | exited ret => rfl
    | _ => simp [hpc, ThreadPc.hasExited] at he
  exact ht ((h.flag t).1 ((h.thread t).stop_of_leaving hleaving))

theorem Thread.Inv.wakeUp (h : th.Inv) : th.wakeUp.Inv where
  stop_of_leaving := by
    rw [Thread.wakeUp_leaving, Thread.wakeUp_stop]
    exact h.stop_of_leaving
  woken_of_stop := by
    rw [Thread.wakeUp_stop]
    intro hstop
    apply Thread.wakeUp_woken
    intro hpc
    have hwoken := h.woken_of_stop hstop
    rw [hpc] at hwoken
    cases hwoken

theorem Thread.wakeUp_ne_notCreated (h : th.pc ≠ .notCreated) : th.wakeUp.pc ≠ .notCreated := by
  intro hpc
  have hwoken := Thread.wakeUp_woken h
  rw [hpc] at hwoken
  cases hwoken

/-- `kthread_create` brings up a thread that has not run and need not stop. -/
theorem Inv.kthreadCreate (h : Inv N s) (hpc : s.pc = .kthreadCreate i)
    (hat : At N ((s.kthreadCreate i).goto (.kmalloc (i + 1))).control (.kmalloc (i + 1))) :
    Inv N ((s.kthreadCreate i).goto (.kmalloc (i + 1))) := by
  have hnil : s.stops = [] := by
    have hcontrol := h.control
    rw [hpc] at hcontrol
    exact hcontrol.2.stops
  refine ⟨?_, ?_, ?_, ?_, hat⟩
  · exact forall_setThread (P := fun _ th => th.Inv) (fun t _ => h.thread t) ⟨nofun, nofun⟩
  · refine forall_setThread (P := fun t th => th.stop ↔ t ∈ s.stops) (fun t _ => h.flag t) ?_
    rw [hnil]
    exact ⟨nofun, nofun⟩
  · refine forall_setThread (P := fun t th => t < s.created + 1 → th.pc ≠ .notCreated) ?_ nofun
    exact fun t hne hlt => h.exist t (by omega)
  · intro t ht
    have hmem : t ∈ s.stops := ht
    rw [hnil] at hmem
    cases hmem

/-- `wake_up_process` leaves every thread as far from its end as it was. -/
theorem Inv.wakeUp (h : Inv N s) (hpc : s.pc = .wakeUp i)
    (hat : At N ((s.wakeUpProcess t).goto (.advance .wake i)).control (.advance .wake i)) :
    Inv N ((s.wakeUpProcess t).goto (.advance .wake i)) := by
  have hexited : ∀ t ∈ s.stops, (s.threads t).pc.hasExited := h.exited (by simp [hpc])
  refine ⟨?_, ?_, ?_, fun t' ht' => .inl ?_, hat⟩
  · exact forall_setThread (P := fun _ th => th.Inv) (fun t _ => h.thread t) (h.thread t).wakeUp
  · refine forall_setThread (P := fun t th => th.stop ↔ t ∈ s.stops) (fun t _ => h.flag t) ?_
    rw [Thread.wakeUp_stop]
    exact h.flag t
  · exact forall_setThread (P := fun t th => t < s.created → th.pc ≠ .notCreated)
      (fun t _ => h.exist t) fun ht => Thread.wakeUp_ne_notCreated (h.exist t ht)
  · refine forall_setThread (P := fun t th => t ∈ s.stops → th.pc.hasExited)
      (fun t _ => hexited t) ?_ t' ht'
    rw [Thread.wakeUp_hasExited]
    exact hexited t

/-- `kthread_stop` is called for a thread that was created, and waits for it. -/
theorem Inv.kthreadStop (h : Inv N s) (hpc : s.pc = .kthreadStop i) (ht : t < s.created)
    (hat : At N ((s.kthreadStop t).goto (.waitExit i t)).control (.waitExit i t)) :
    Inv N ((s.kthreadStop t).goto (.waitExit i t)) := by
  have hne : (s.threads t).pc ≠ .notCreated := h.exist t ht
  have hstop := Thread.wakeUp_stop { s.threads t with stop := true }
  have hexited : ∀ t ∈ s.stops, (s.threads t).pc.hasExited := h.exited (by simp [hpc])
  refine ⟨?_, ?_, ?_, ?_, hat⟩
  · refine forall_setThread (P := fun _ th => th.Inv) (fun t _ => h.thread t) ?_
    exact ⟨fun _ => hstop, fun _ => Thread.wakeUp_woken hne⟩
  · refine forall_setThread (P := fun t' th => th.stop ↔ t' ∈ s.stops ++ [t]) ?_ ?_
    · intro t' hne'
      rw [h.flag t']
      simp [hne']
    · simp [hstop]
  · exact forall_setThread (P := fun t th => t < s.created → th.pc ≠ .notCreated)
      (fun t _ => h.exist t) fun _ => Thread.wakeUp_ne_notCreated hne
  · refine forall_setThread (P := fun t' th => t' ∈ s.stops ++ [t] → th.pc.hasExited ∨
      ∃ j, Pc.waitExit i t = .waitExit j t') ?_ fun _ => .inr ⟨i, rfl⟩
    intro t' hne' hmem
    exact .inl (hexited t' (by simpa [hne'] using hmem))

theorem Inv.main_step (h : Inv N s) (hs : mainStep N ok s = some s') : Inv N s' := by
  have hat := h.control.main_step hs
  obtain ⟨ht, hstops, hcr, hwait⟩ | ⟨i, hpc, rfl⟩ | ⟨i, hpc, rfl⟩ | ⟨i, hpc, rfl⟩ :=
    mainStep_frame hs
  · refine ⟨ht ▸ h.thread, ?_, ?_, ?_, hat⟩
    · rw [ht, hstops]
      exact h.flag
    · rw [ht, hcr]
      exact h.exist
    · rw [ht, hstops]
      intro t hmem
      obtain he | ⟨i, hi⟩ := h.joined t hmem
      · exact .inl he
      · exact .inl (hwait i t hi)
  · exact h.kthreadCreate hpc hat
  · exact h.wakeUp hpc hat
  · have hcontrol := h.control
    rw [hpc] at hcontrol
    obtain ⟨l₁, l₂, hstand⟩ := hcontrol
    have htask : s.task i = i := hstand.task i hstand.lt
    have hcreated : s.created = N := hstand.created
    exact h.kthreadStop hpc (by rw [htask, hcreated]; exact hstand.lt) hat

/-- A step of a thread changes nothing but the thread itself, which has not exited before. -/
theorem Inv.thread_step (h : Inv N s) (hs : threadStep t s = some s') : Inv N s' := by
  obtain ⟨th, hth, rfl⟩ := Option.map_eq_some_iff.1 hs
  obtain ⟨hinv, hstop, hexited, hne⟩ := (h.thread t).step hth
  refine ⟨?_, ?_, ?_, ?_, h.control⟩
  · exact forall_setThread (P := fun _ th => th.Inv) (fun t _ => h.thread t) hinv
  · refine forall_setThread (P := fun t th => th.stop ↔ t ∈ s.stops) (fun t _ => h.flag t) ?_
    rw [hstop]
    exact h.flag t
  · exact forall_setThread (P := fun t th => t < s.created → th.pc ≠ .notCreated)
      (fun t _ => h.exist t) fun _ => hne
  · refine forall_setThread (P := fun t th => t ∈ s.stops → th.pc.hasExited ∨
      ∃ i, s.pc = .waitExit i t) (fun t _ => h.joined t) fun hmem => ?_
    obtain he | hi := h.joined t hmem
    · rw [hexited] at he
      cases he
    · exact .inr hi

/-- **The invariant of the module.** -/
theorem Inv.preserved (h : Inv N s) (hs : step N s e = some s') : Inv N s' := by
  cases e with
  | main ok => exact h.main_step hs
  | thread t => exact h.thread_step hs
  | rmmod =>
    simp only [step, Option.ite_none_right_eq_some, Option.some.injEq] at hs
    obtain ⟨hpc, rfl⟩ := hs
    have hcontrol := h.control
    rw [hpc] at hcontrol
    refine ⟨h.thread, h.flag, h.exist, fun t ht => ?_, hcontrol.2.2 rfl⟩
    exact .inl (h.exited (by simp [hpc]) t ht)

end Lkb.Thread01
