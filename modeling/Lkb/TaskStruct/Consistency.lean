import Lkb.TaskStruct.Traversal

/-!
# What `start` prints

In a kernel without preemption, and while processes come and go, `start` prints every process at
most once, in the order in which they were forked; it prints no task that was off the list before
its loop began; and it misses no process that was there from the beginning of the loop to its end. A
process that is forked or that exits meanwhile may be printed or not.

The invariant is `Consistent`, relative to the state at the beginning of the loop.
-/

namespace Lkb.TaskStruct

open CircularList RcuList Run

variable {s s' s₁ : State} {e : Event} {K : ℕ} {gone : List Task} {t u : Task}

/-! ## The position of the reader -/

/-- Everything printed lies behind the point. -/
def Pc.Behind (pc : Pc) (printed : List Task) : Prop :=
  match pc with
  | .hello => printed = []
  | .next .initTask => printed = []
  | .next t => ∀ p ∈ printed, p.process ≤ t.process
  | .visit t => t ≠ .initTask → ∀ p ∈ printed, p.process < t.process
  | .returned _ => True

/-- The process `n` lies before the point. -/
def Pc.Before (pc : Pc) (n : ℕ) : Prop :=
  match pc with
  | .hello => True
  | .next t => t = .initTask ∨ t.process < n
  | .visit t => t ≠ .initTask ∧ t.process ≤ n
  | .returned _ => False

/-- The state in the loop that began in `s₁`. -/
structure Consistent (s₁ s : State) (gone : List Task) : Prop where
  reading : Reading s₁.forked s gone
  forked : s₁.forked ≤ s.forked
  known : s₁.known ⊆ s.known
  sound : ∀ t ∈ s.printed ++ (s.alive ++ gone), t ∈ s₁.alive ∨ t ∉ s₁.known
  sorted : s.printed.Pairwise fun t u => t.process < u.process
  behind : s.pc.Behind s.printed
  complete : ∀ u ∈ s.alive, u.process < s₁.forked →
    (∃ t ∈ s.printed, t.process = u.process) ∨ s.pc.Before u.process

/-! ## The steps of the kernel -/

/-- What the processes do: no task is forgotten, and a task that is on the list afterwards is of a
process that was on the list before, or is new. -/
theorem Moves.frame (hmove : Moves false s s') :
    s'.pc = s.pc ∧ s'.log = s.log ∧ s.forked ≤ s'.forked ∧ s.known ⊆ s'.known ∧
      ∀ u ∈ s'.alive, u.process < s.forked → ∃ t ∈ s.alive, t.process = u.process := by
  cases hmove with
  | fork hm =>
    refine ⟨rfl, rfl, Nat.le_succ _, ?_, fun u hu hlt => ?_⟩
    · simp only [State.known, List.append_assoc]
      intro u hu
      exact List.mem_append.2 ((List.mem_append.1 hu).imp_right (List.mem_append_right _))
    · obtain hu | hu := List.mem_append.1 hu
      · exact ⟨u, hu, rfl⟩
      · obtain rfl := List.mem_singleton.1 hu
        exact absurd hlt (Nat.lt_irrefl _)
  | @exit t l₁ l₂ m halive hm =>
    refine ⟨rfl, rfl, Nat.le_refl _, ?_, fun u hu _ => ⟨u, ?_, rfl⟩⟩
    · simp only [State.known, halive]
      exact fun u hu => perm_moved.mem_iff.2 hu
    · rw [halive]
      have hsub : l₁ ++ l₂ ⊆ l₁ ++ t :: l₂ := by simp
      exact hsub hu
  | @exec t l₁ l₂ m halive hm =>
    refine ⟨rfl, rfl, Nat.le_refl _, ?_, fun u hu _ => ?_⟩
    · intro u hu
      simp only [State.known, halive, List.mem_append, List.mem_cons] at hu ⊢
      tauto
    · rw [halive]
      obtain rfl | hu : u = t.replacement ∨ u ∈ l₁ ++ l₂ := by
        simp only [List.mem_append, List.mem_cons] at hu ⊢
        tauto
      · exact ⟨t, by simp, (replacement_process t).symm⟩
      · have hsub : l₁ ++ l₂ ⊆ l₁ ++ t :: l₂ := by simp
        exact ⟨u, hsub hu, rfl⟩
  | gracePeriod =>
    exact ⟨rfl, rfl, Nat.le_refl _, by simp [State.known], fun u hu _ => ⟨u, hu, rfl⟩⟩
  | free hready =>
    refine ⟨rfl, rfl, Nat.le_refl _, fun u hu => ?_, fun u hu _ => ⟨u, hu, rfl⟩⟩
    simp only [State.known, hready] at hu ⊢
    exact ((perm_moved.append_left s.waiting).append_left s.alive).mem_iff.2 hu

theorem printed_eq (h : s'.log = s.log) : s'.printed = s.printed := by
  rw [State.printed, h, State.printed]

@[simp] theorem printed_prInfo (s : State) (t : Task) :
    ((s.prInfo (.process t)).goto (.next t)).printed = s.printed ++ [t] := by
  simp [State.printed, State.prInfo, State.goto]

/-! ## The steps of `start` -/

/-- The next task: what is printed stays behind, and nothing before the point is passed over. -/
theorem Consistent.next (h : Consistent s₁ s gone) (hb : Books s) (hpc : s.pc = .next t)
    (hnext : s.links.next t = .node u) :
    (Pc.visit u).Behind s.printed ∧ ∀ v ∈ s.alive, v.process < s₁.forked →
      (Pc.next t).Before v.process → (Pc.visit u).Before v.process := by
  have hbehind := h.behind
  rw [hpc] at hbehind
  obtain rfl | hpos := h.reading.position t (by rw [hpc]; rfl)
  · -- the first task of the loop: nothing is printed yet
    have hnil : s.printed = [] := hbehind
    refine ⟨fun _ p hp => ?_, fun v hv _ _ => ?_⟩
    · rw [hnil] at hp
      cases hp
    · obtain ⟨w, hw, hne, hle⟩ := h.reading.trail.first_le hv
      obtain rfl := Link.node.inj (hnext.symm.trans hw)
      exact ⟨hne, hle⟩
  · have hne := h.reading.ne_initTask hb hpos
    have hbehind : ∀ p ∈ s.printed, p.process ≤ t.process := by
      cases t with
      | initTask => exact absurd rfl hne
      | leader p g => exact hbehind
    obtain ⟨w, hw, hforward⟩ := h.reading.trail.next hpos
    obtain rfl := Link.node.inj (hnext.symm.trans hw)
    refine ⟨fun hu p hp => ?_, fun v hv hold hbefore => ?_⟩
    · exact Nat.lt_of_le_of_lt (hbehind p hp) (hforward.resolve_left hu).2
    · have hlt : t.process < v.process := hbefore.resolve_left hne
      obtain ⟨w, hw, hrest⟩ := h.reading.trail.covers hpos v hv hold hlt
      obtain rfl := Link.node.inj (hnext.symm.trans hw)
      exact hrest

/-- The line of a task: everything printed before is behind it. -/
theorem Consistent.visit (h : Consistent s₁ s gone) (hpc : s.pc = .visit t) (ht : t ≠ .initTask) :
    Consistent s₁ ((s.prInfo (.process t)).goto (.next t)) gone := by
  have hbehind : ∀ p ∈ s.printed, p.process < t.process := by
    have hbehind := h.behind
    rw [hpc] at hbehind
    exact hbehind ht
  have hpos := h.reading.position t (by rw [hpc]; rfl)
  have hs : startStep s = some ((s.prInfo (.process t)).goto (.next t)) := by
    cases t with
    | initTask => exact absurd rfl ht
    | leader p g => simp only [startStep, hpc]
  refine ⟨h.reading.start_step hs, h.forked, h.known, ?_, ?_, ?_, ?_⟩
  · intro u hu
    rw [printed_prInfo, List.append_assoc] at hu
    obtain hu | hu := List.mem_append.1 hu
    · exact h.sound u (List.mem_append_left _ hu)
    · obtain rfl | hu := List.mem_cons.1 hu
      · exact h.sound u (List.mem_append_right _ (hpos.resolve_left ht))
      · exact h.sound u (List.mem_append_right _ hu)
  · rw [printed_prInfo]
    refine List.pairwise_append.2 ⟨h.sorted, List.pairwise_singleton _ _, fun p hp u hu => ?_⟩
    obtain rfl := List.mem_singleton.1 hu
    exact hbehind p hp
  · rw [printed_prInfo]
    cases t with
    | initTask => exact absurd rfl ht
    | leader p g =>
      intro q hq
      obtain hq | hq := List.mem_append.1 hq
      · exact Nat.le_of_lt (hbehind q hq)
      · exact Nat.le_of_eq (by rw [List.mem_singleton.1 hq])
  · intro u hu hold
    rw [printed_prInfo]
    obtain ⟨p, hp, he⟩ | hbefore := h.complete u hu hold
    · exact .inl ⟨p, List.mem_append_left _ hp, he⟩
    · rw [hpc] at hbefore
      obtain he | hlt := Nat.eq_or_lt_of_le hbefore.2
      · exact .inl ⟨t, by simp, he⟩
      · exact .inr (.inr hlt)

/-- **The steps of `start`**, from the beginning of the loop on. -/
theorem Consistent.start_step (h : Consistent s₁ s gone) (hb : Books s) (hloop : s.pc ≠ .hello)
    (hs : startStep s = some s') : Consistent s₁ s' gone := by
  cases startStep_moves hs with
  | hello hpc => exact absurd hpc hloop
  | @next t u hpc hnext =>
    obtain ⟨hbehind, hbefore⟩ := h.next hb hpc hnext
    refine ⟨h.reading.start_step hs, h.forked, h.known, h.sound, h.sorted, hbehind,
      fun v hv hold => ?_⟩
    refine (h.complete v hv hold).imp_right fun hv' => hbefore v hv hold ?_
    rwa [hpc] at hv'
  | leave hpc =>
    refine ⟨h.reading.start_step hs, h.forked, h.known, h.sound, h.sorted, trivial,
      fun v hv hold => .inl ?_⟩
    refine (h.complete v hv hold).resolve_right fun hbefore => ?_
    rw [hpc] at hbefore
    exact hbefore.1 rfl
  | visit hpc ht => exact h.visit hpc ht

theorem startStep_ne_hello (hs : startStep s = some s') : s'.pc ≠ .hello := by
  cases startStep_moves hs with
  | _ => simp [State.goto]

/-- **Every step of the system.** -/
theorem Consistent.preserved (h : Consistent s₁ s gone) (hb : Books s) (hloop : s.pc ≠ .hello)
    (hs : step false s e = some s') :
    (∃ gone', Consistent s₁ s' gone') ∧ s'.pc ≠ .hello := by
  obtain ⟨gone', hreading, hnew⟩ := h.reading.preserved hb h.forked hs
  obtain ⟨-, hs⟩ | ⟨-, hmove⟩ := step_moves hb hs
  · exact ⟨⟨gone, h.start_step hb hloop hs⟩, startStep_ne_hello hs⟩
  · obtain ⟨hpc, hlog, hforked, hknown, halive⟩ := hmove.frame
    have hprinted := printed_eq hlog
    refine ⟨⟨gone', hreading, Nat.le_trans h.forked hforked, fun t ht => hknown (h.known ht),
      ?_, ?_, ?_, ?_⟩, by rwa [hpc]⟩
    · intro t ht
      rw [hprinted] at ht
      obtain ht | ht := List.mem_append.1 ht
      · exact h.sound t (List.mem_append_left _ ht)
      · obtain ht | ht := hnew t ht
        · exact h.sound t (List.mem_append_right _ ht)
        · exact .inr fun hk => ht (h.known hk)
    · rw [hprinted]
      exact h.sorted
    · rw [hpc, hprinted]
      exact h.behind
    · intro u hu hold
      rw [hpc, hprinted]
      obtain ⟨v, hv, he⟩ := halive u hu (Nat.lt_of_lt_of_le hold h.forked)
      rw [← he] at hold ⊢
      exact h.complete v hv hold

/-! ## Whole runs -/

/-- The state at the beginning of the loop. -/
theorem consistent_begin (h : Reading K s gone) (hpc : s.pc = .next .initTask)
    (hprinted : s.printed = []) : Consistent s s [] where
  reading := h.forget hpc s.forked
  forked := Nat.le_refl _
  known := List.Subset.refl _
  sound t ht := by
    rw [hprinted, List.nil_append, List.append_nil] at ht
    exact .inl ht
  sorted := by
    rw [hprinted]
    exact List.Pairwise.nil
  behind := by
    rw [hpc]
    exact hprinted
  complete u _ _ := by
    rw [hpc]
    exact .inr (.inl rfl)

/-- Up to the beginning of the loop, no process is printed. -/
def Unprinted (s : State) : Prop :=
  s.pc = .hello ∨ s.pc = .next .initTask → s.printed = []

theorem Unprinted.preserved (h : Unprinted s) (hb : Books s) (hs : step false s e = some s') :
    Unprinted s' := by
  obtain ⟨-, hs⟩ | ⟨-, hmove⟩ := step_moves hb hs
  · cases startStep_moves hs with
    | hello hpc =>
      intro _
      have hnil := h (.inl hpc)
      simpa [State.printed, State.prInfo, State.goto] using hnil
    | next | leave => rintro (hpc | hpc) <;> cases hpc
    | visit hpc ht =>
      rintro (hpc | hpc)
      · cases hpc
      · exact absurd (Pc.next.inj hpc) ht
  · obtain ⟨hpc, hlog, -⟩ := hmove.frame
    rw [Unprinted, hpc, printed_eq hlog]
    exact h

/-- What holds in every state of every run without preemption. -/
structure Inv (s : State) : Prop where
  books : Books s
  reading : ∃ gone, Reading 0 s gone
  unprinted : Unprinted s
  returned : ∀ ret, s.pc = .returned ret → ret = 0

theorem Inv.preserved (h : Inv s) (hs : step false s e = some s') : Inv s' := by
  obtain ⟨gone, hreading⟩ := h.reading
  obtain ⟨gone', hreading', -⟩ := hreading.preserved h.books (Nat.zero_le _) hs
  refine ⟨h.books.preserved hs, ⟨gone', hreading'⟩, h.unprinted.preserved h.books hs, ?_⟩
  obtain ⟨-, hs⟩ | ⟨-, hmove⟩ := step_moves h.books hs
  · cases startStep_moves hs with
    | leave =>
      intro ret hret
      exact (Pc.returned.inj hret).symm
    | _ =>
      intro ret hret
      cases hret
  · rw [hmove.frame.1]
    exact h.returned

theorem inv_of_runs {links : Links Task} {es : List Event}
    (h : Runs (step false) (boot links) es s) : Inv s := by
  refine h.invariant' (I := Inv) (fun s e s' h hs => h.preserved hs) ?_
  exact ⟨books_boot links, ⟨[], reading_boot links 0⟩, fun _ => rfl, nofun⟩

/-- **The traversal is weakly consistent.** Let the loop of `start` begin in `s₁` and end in `s₂`,
in a kernel without preemption, with any forks, exits and calls of `exec` before and in between. The
processes are printed in the order in which they were forked, each at most once; every task that is
printed was on the list in `s₁` or came to it later; and every process that is there in `s₁` and
still in `s₂` is printed. -/
theorem prints_lasting_processes {links : Links Task} {es₁ es₂ : List Event} {s₁ s₂ : State}
    (h₁ : Runs (step false) (boot links) es₁ s₁) (hpc : s₁.pc = .next .initTask)
    (h₂ : Runs (step false) s₁ es₂ s₂) (hret : s₂.pc = .returned 0) :
    s₂.printed.Pairwise (fun t u => t.process < u.process) ∧
      (∀ t ∈ s₂.printed, t ∈ s₁.alive ∨ t ∉ s₁.known) ∧
      ∀ t ∈ s₁.alive, ∀ u ∈ s₂.alive, u.process = t.process →
        ∃ v ∈ s₂.printed, v.process = t.process := by
  have hinv := inv_of_runs h₁
  obtain ⟨gone, hreading⟩ := hinv.reading
  have hbegin := consistent_begin hreading hpc (hinv.unprinted (.inr hpc))
  have hI : Books s₂ ∧ (∃ gone, Consistent s₁ s₂ gone) ∧ s₂.pc ≠ .hello := by
    refine h₂.invariant' (I := fun s => Books s ∧ (∃ gone, Consistent s₁ s gone) ∧ s.pc ≠ .hello)
      (fun s e s' ⟨hb, ⟨gone, h⟩, hloop⟩ hs => ?_) ⟨hinv.books, ⟨[], hbegin⟩, by simp [hpc]⟩
    exact ⟨hb.preserved hs, h.preserved hb hloop hs⟩
  obtain ⟨-, ⟨gone, h⟩, -⟩ := hI
  refine ⟨h.sorted, fun t ht => h.sound t (List.mem_append_left _ ht), fun t ht u hu he => ?_⟩
  have hold : t.process < s₁.forked := hinv.books.forked t (mem_known_of_alive ht)
  rw [← he] at hold ⊢
  refine (h.complete u hu hold).resolve_right fun hbefore => ?_
  rw [hret] at hbefore
  exact hbefore

/-- Of three processes, the first exits after its line, the second calls `exec` just before its own,
and a fourth one is forked meanwhile; the third one is printed. -/
theorem prints_lasting_processes_sample :
    ∃ s₁ s₂, Runs (step false) (boot ⟨.node, .node⟩) [.fork, .fork, .fork, .start] s₁ ∧
      Runs (step false) s₁ ([.start, .start, .exit (.leader 0 0), .exec (.leader 1 0), .start,
        .fork] ++ List.replicate 7 .start) s₂ ∧
      s₂.pc = .returned 0 ∧ s₂.alive = [.leader 1 1, .leader 2 0, .leader 3 0] ∧
      ∃ v ∈ s₂.printed, v.process = 2 := by
  have hruns : ∃ s₁ s₂, Runs (step false) (boot ⟨.node, .node⟩) [.fork, .fork, .fork, .start] s₁ ∧
      Runs (step false) s₁ ([.start, .start, .exit (.leader 0 0), .exec (.leader 1 0), .start,
        .fork] ++ List.replicate 7 .start) s₂ ∧
      s₁.pc = .next .initTask ∧ s₂.pc = .returned 0 ∧
      s₁.alive = [.leader 0 0, .leader 1 0, .leader 2 0] ∧
      s₂.alive = [.leader 1 1, .leader 2 0, .leader 3 0] :=
    ⟨_, _, rfl, rfl, rfl, rfl, rfl, rfl⟩
  obtain ⟨s₁, s₂, h₁, h₂, hpc, hret, halive₁, halive₂⟩ := hruns
  refine ⟨s₁, s₂, h₁, h₂, hret, halive₂, ?_⟩
  refine (prints_lasting_processes h₁ hpc h₂ hret).2.2 (.leader 2 0) ?_ (.leader 2 0) ?_ rfl
  · simp [halive₁]
  · simp [halive₂]

/-! ## The end of the loop -/

/-- How far `start` is from its end, if no process is forked any more. -/
def rank (s : State) : ℕ :=
  match s.pc with
  | .hello => 2 * s.forked + 3
  | .next .initTask => 2 * s.forked + 2
  | .next t => 2 * (s.forked - t.process)
  | .visit .initTask => 1
  | .visit t => 2 * (s.forked - t.process) + 1
  | .returned _ => 0

/-- Wherever `start` stands, it can go on, and comes closer to its end. -/
theorem Reading.progress (h : Reading K s gone) (hb : Books s)
    (hret : ∀ ret, s.pc ≠ .returned ret) :
    ∃ s', startStep s = some s' ∧ rank s' < rank s := by
  have hlt : ∀ t ∈ s.alive ++ gone, t.process < s.forked := by
    intro t ht
    refine hb.forked t (List.mem_append.2 ((List.mem_append.1 ht).imp_right fun ht => ?_))
    exact List.mem_append_left _ (h.waiting ht)
  cases hpc : s.pc with
  | hello =>
    refine ⟨(s.prInfo .hello).goto (.next .initTask), by simp only [startStep, hpc], ?_⟩
    simp only [rank, hpc, State.goto, State.prInfo]
    omega
  | next t =>
    obtain rfl | hpos := h.position t (by rw [hpc]; rfl)
    · obtain ⟨u, hnext, hu⟩ := h.trail.first
      refine ⟨s.goto (.visit u), by simp only [startStep, hpc, hnext], ?_⟩
      cases u with
      | initTask =>
        simp only [rank, hpc, State.goto]
        omega
      | leader p g =>
        simp only [rank, hpc, State.goto]
        omega
    · have hne := h.ne_initTask hb hpos
      have htlt := hlt t hpos
      obtain ⟨u, hnext, hu⟩ := h.trail.next hpos
      refine ⟨s.goto (.visit u), by simp only [startStep, hpc, hnext], ?_⟩
      have hrank : rank s = 2 * (s.forked - t.process) := by
        cases t with
        | initTask => exact absurd rfl hne
        | leader p g => simp only [rank, hpc]
      rw [hrank]
      cases u with
      | initTask =>
        simp only [rank, State.goto]
        omega
      | leader p g =>
        have hforward : t.process < (Task.leader p g).process := (hu.resolve_left (by simp)).2
        simp only [rank, State.goto]
        omega
  | visit t =>
    cases t with
    | initTask =>
      refine ⟨s.goto (.returned 0), by simp only [startStep, hpc], ?_⟩
      simp [rank, hpc, State.goto]
    | leader p g =>
      refine ⟨(s.prInfo (.process (.leader p g))).goto (.next (.leader p g)), ?_, ?_⟩
      · simp only [startStep, hpc]
      · simp [rank, hpc, State.goto, State.prInfo]
  | returned ret => exact absurd hpc (hret ret)

/-- **`start` comes to its end** from every state of every run without preemption, by its own steps:
also from a task that has exited meanwhile, it finds its way back to `init_task`. -/
theorem start_finds_its_way {links : Links Task} {es : List Event}
    (h : Runs (step false) (boot links) es s) :
    ∃ n s', Runs (step false) s (List.replicate n .start) s' ∧ s'.pc = .returned 0 := by
  have hcloser : ∀ s, Inv s → ¬(∃ ret, s.pc = .returned ret) →
      ∃ e s', e = .start ∧ step false s e = some s' ∧ Inv s' ∧ rank s' < rank s := by
    intro s h hret
    obtain ⟨gone, hreading⟩ := h.reading
    obtain ⟨s', hs, hlt⟩ := hreading.progress h.books fun ret hpc => hret ⟨ret, hpc⟩
    exact ⟨.start, s', rfl, hs, h.preserved (e := .start) hs, hlt⟩
  obtain ⟨es', s', hes', hrun, hinv, ret, hret⟩ :=
    Runs.exists_of_rank rank hcloser (inv_of_runs h)
  rw [List.eq_replicate_of_mem hes'] at hrun
  exact ⟨es'.length, s', hrun, hinv.returned ret hret ▸ hret⟩

/-- The process that `start` stands on has exited. -/
theorem start_finds_its_way_sample :
    ∃ s n s', Runs (step false) (boot ⟨.node, .node⟩)
      [.fork, .fork, .start, .start, .exit (.leader 0 0), .exit (.leader 1 0)] s ∧
      Runs (step false) s (List.replicate n .start) s' ∧ s'.pc = .returned 0 := by
  have hrun : ∃ s, Runs (step false) (boot ⟨.node, .node⟩)
      [.fork, .fork, .start, .start, .exit (.leader 0 0), .exit (.leader 1 0)] s := ⟨_, rfl⟩
  obtain ⟨s, hrun⟩ := hrun
  obtain ⟨n, s', h⟩ := start_finds_its_way hrun
  exact ⟨s, n, s', hrun, h⟩

end Lkb.TaskStruct
