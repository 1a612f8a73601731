import Lkb.Foundations.RcuList
import Lkb.TaskStruct.System
import Mathlib.Data.List.Nodup

/-!
# The traversal of the processes

What `start` may rely on is `Reading`: it stands on a task of the list, or on one that was taken off
while it was in its loop, and from there it finds its way (`RcuList.Trail`). In a kernel without
preemption such a task is not freed before `start` is done, so `start` reads no freed task; a
preemptible kernel makes no such promise.
-/

namespace Lkb.TaskStruct

open CircularList RcuList Run

variable {s s' : State} {e : Event} {K : ℕ} {gone : List Task} {t u : Task} {preempt : Bool}

/-! ## The books of the kernel -/

/-- All tasks that there ever were on the list. -/
def State.known (s : State) : List Task := s.alive ++ (s.waiting ++ (s.ready ++ s.freed))

/-- Every task is in one place, and the one of a process that is on the list is its latest. -/
structure Books (s : State) : Prop where
  nodup : s.known.Nodup
  leader : .initTask ∉ s.known
  forked : ∀ t ∈ s.known, t.process < s.forked
  latest : ∀ t ∈ s.alive, ∀ u ∈ s.known, u.process = t.process → u.generation ≤ t.generation

theorem books_boot (links : Links Task) : Books (boot links) :=
  ⟨List.nodup_nil, nofun, nofun, nofun⟩

theorem mem_known_of_alive (h : t ∈ s.alive) : t ∈ s.known := List.mem_append_left _ h

/-- A step that moves tasks from place to place, none of them to the list. -/
theorem Books.perm (h : Books s) (hperm : s'.known.Perm s.known) (hforked : s'.forked = s.forked)
    (halive : s'.alive ⊆ s.alive) : Books s' where
  nodup := hperm.nodup_iff.2 h.nodup
  leader hm := h.leader (hperm.mem_iff.1 hm)
  forked t ht := hforked ▸ h.forked t (hperm.mem_iff.1 ht)
  latest t ht u hu := h.latest t (halive ht) u (hperm.mem_iff.1 hu)

/-- A step that puts one new task on the list. -/
theorem Books.cons (h : Books s) (hperm : s'.known.Perm (t :: s.known))
    (hforked : s.forked ≤ s'.forked) (hnew : t ∉ s.known) (hleader : t ≠ .initTask)
    (hprocess : t.process < s'.forked) (halive : s'.alive ⊆ t :: s.alive)
    (hlatest : ∀ u ∈ s.known, u.process = t.process → u.generation ≤ t.generation)
    (hother : ∀ u ∈ s'.alive, u.process = t.process → u = t) : Books s' where
  nodup := hperm.nodup_iff.2 (List.nodup_cons.2 ⟨hnew, h.nodup⟩)
  leader hm := by
    obtain he | hm := List.mem_cons.1 (hperm.mem_iff.1 hm)
    · exact hleader he.symm
    · exact h.leader hm
  forked u hu := by
    obtain rfl | hu := List.mem_cons.1 (hperm.mem_iff.1 hu)
    · exact hprocess
    · exact Nat.lt_of_lt_of_le (h.forked u hu) hforked
  latest u hu v hv heq := by
    obtain rfl | hv := List.mem_cons.1 (hperm.mem_iff.1 hv)
    · exact Nat.le_of_eq (by rw [hother u hu heq.symm])
    · obtain rfl | hu' := List.mem_cons.1 (halive hu)
      · exact hlatest v hv heq
      · exact h.latest u hu' v hv heq

/-! ## What a step does -/

/-- The replacement of a task on the list is a new one. -/
theorem Books.replacement_not_mem (h : Books s) (ht : t ∈ s.alive) : t.replacement ∉ s.known := by
  intro hm
  cases t with
  | initTask => exact h.leader (mem_known_of_alive ht)
  | leader p g =>
    have hle : g + 1 ≤ g := h.latest _ ht _ hm rfl
    omega

theorem Books.replacement_ne (h : Books s) (ht : t ∈ s.alive) : t.replacement ≠ .initTask := by
  cases t with
  | initTask => exact absurd (mem_known_of_alive ht) h.leader
  | leader p g => simp [Task.replacement]

theorem replacement_process (t : Task) : t.replacement.process = t.process := by
  cases t <;> rfl

theorem le_replacement_generation (t : Task) : t.generation ≤ t.replacement.generation := by
  cases t with
  | initTask => exact Nat.le_refl 0
  | leader p g => exact Nat.le_succ g

/-- The tasks of `l₁ ++ t :: l₂`, with `t` moved to another place. -/
theorem perm_moved {l₁ l₂ rest : List Task} :
    ((l₁ ++ l₂) ++ t :: rest).Perm ((l₁ ++ t :: l₂) ++ rest) := by
  refine List.perm_middle.trans ?_
  rw [List.append_assoc, List.append_assoc]
  exact List.perm_middle.symm

/-- The tasks after `exit`. -/
theorem exit_places (ht : t ∈ s.alive) : ∃ l₁ l₂, s.alive = l₁ ++ t :: l₂ ∧
    s.alive.erase t = l₁ ++ l₂ := by
  obtain ⟨l₁, l₂, -, heq, herase⟩ := List.exists_erase_eq ht
  exact ⟨l₁, l₂, heq, herase⟩

/-- The tasks after `exec`. -/
theorem exec_places (hnd : s.alive.Nodup) (ht : t ∈ s.alive) : ∃ l₁ l₂, s.alive = l₁ ++ t :: l₂ ∧
    (s.alive.map fun u => if u = t then t.replacement else u) = l₁ ++ t.replacement :: l₂ := by
  obtain ⟨l₁, l₂, heq⟩ := List.append_of_mem ht
  refine ⟨l₁, l₂, heq, ?_⟩
  have hne : ∀ u ∈ l₁ ++ l₂, u ≠ t := by
    rintro u hu rfl
    rw [heq] at hnd
    exact (List.nodup_cons.1 (List.nodup_middle.1 hnd)).1 hu
  have hid : ∀ l ⊆ l₁ ++ l₂, (l.map fun u => if u = t then t.replacement else u) = l := by
    intro l hl
    conv_rhs => rw [← List.map_id l]
    refine List.map_congr_left fun u hu => ?_
    exact if_neg (hne u (hl hu))
  rw [heq, List.map_append, List.map_cons, if_pos rfl, hid l₁ (by simp), hid l₂ (by simp)]

/-- There is one task of each process on the list. -/
theorem Books.eq_of_process (h : Books s) (ht : t ∈ s.alive) (hu : u ∈ s.alive)
    (he : t.process = u.process) : t = u := by
  have hle := h.latest u hu t (mem_known_of_alive ht) he
  have hge := h.latest t ht u (mem_known_of_alive hu) he.symm
  cases t with
  | initTask => exact absurd (mem_known_of_alive ht) h.leader
  | leader p g =>
    cases u with
    | initTask => exact absurd (mem_known_of_alive hu) h.leader
    | leader q k =>
      obtain rfl : p = q := he
      obtain rfl : g = k := Nat.le_antisymm hle hge
      rfl

theorem Books.alive_nodup (h : Books s) : s.alive.Nodup := (List.nodup_append.1 h.nodup).1

/-- The steps of the processes and of the grace-period machinery. -/
inductive Moves (preempt : Bool) (s : State) : State → Prop
  | fork {m : Links Task} (hm : listAddTailRcu s.links (.leader s.forked 0) .initTask = some m) :
    Moves preempt s
      { s with links := m, alive := s.alive ++ [.leader s.forked 0], forked := s.forked + 1 }
  | exit {t : Task} {l₁ l₂ : List Task} {m : Links Task} (halive : s.alive = l₁ ++ t :: l₂)
    (hm : listDelRcu s.links t = some m) :
    Moves preempt s { s with links := m, alive := l₁ ++ l₂, waiting := t :: s.waiting }
  | exec {t : Task} {l₁ l₂ : List Task} {m : Links Task} (halive : s.alive = l₁ ++ t :: l₂)
    (hm : listReplaceRcu s.links t t.replacement = some m) :
    Moves preempt s
      { s with links := m, alive := l₁ ++ t.replacement :: l₂, waiting := t :: s.waiting }
  | gracePeriod (hgp : preempt ∨ s.pc.inLoop = false) :
    Moves preempt s { s with waiting := [], ready := s.waiting ++ s.ready }
  | free {t : Task} {l₁ l₂ : List Task} (hready : s.ready = l₁ ++ t :: l₂) :
    Moves preempt s { s with ready := l₁ ++ l₂, freed := t :: s.freed }

/-- **The steps of the system.** -/
theorem step_moves (h : Books s) (hs : step preempt s e = some s') :
    e = .start ∧ startStep s = some s' ∨ e ≠ .start ∧ Moves preempt s s' := by
  cases e with
  | start => exact .inl ⟨rfl, hs⟩
  | fork =>
    obtain ⟨m, hm, rfl⟩ := Option.map_eq_some_iff.1 hs
    exact .inr ⟨by simp, .fork hm⟩
  | exit t =>
    simp only [step, Option.ite_none_right_eq_some, Option.map_eq_some_iff] at hs
    obtain ⟨ht, m, hm, rfl⟩ := hs
    obtain ⟨l₁, l₂, heq, herase⟩ := exit_places ht
    rw [herase]
    exact .inr ⟨by simp, .exit heq hm⟩
  | exec t =>
    simp only [step, Option.ite_none_right_eq_some, Option.map_eq_some_iff] at hs
    obtain ⟨ht, m, hm, rfl⟩ := hs
    obtain ⟨l₁, l₂, heq, hmap⟩ := exec_places h.alive_nodup ht
    rw [hmap]
    exact .inr ⟨by simp, .exec heq hm⟩
  | gracePeriod =>
    simp only [step, Option.ite_none_right_eq_some, Option.some.injEq] at hs
    obtain ⟨hgp, rfl⟩ := hs
    exact .inr ⟨by simp, .gracePeriod hgp⟩
  | free t =>
    simp only [step, Option.ite_none_right_eq_some, Option.some.injEq] at hs
    obtain ⟨ht, rfl⟩ := hs
    obtain ⟨l₁, l₂, -, heq, herase⟩ := List.exists_erase_eq ht
    rw [herase]
    exact .inr ⟨by simp, .free heq⟩

/-- The steps of `start`. -/
inductive StartMoves (s : State) : State → Prop
  | hello (hpc : s.pc = .hello) : StartMoves s ((s.prInfo .hello).goto (.next .initTask))
  | next {t u : Task} (hpc : s.pc = .next t) (hnext : s.links.next t = .node u) :
    StartMoves s (s.goto (.visit u))
  | leave (hpc : s.pc = .visit .initTask) : StartMoves s (s.goto (.returned 0))
  | visit {t : Task} (hpc : s.pc = .visit t) (ht : t ≠ .initTask) :
    StartMoves s ((s.prInfo (.process t)).goto (.next t))

theorem startStep_moves (hs : startStep s = some s') : StartMoves s s' := by
  unfold startStep at hs
  cases hpc : s.pc with
  | hello =>
    rw [hpc] at hs
    cases hs
    exact .hello hpc
  | next t =>
    simp only [hpc] at hs
    split at hs
    next u hnext =>
      cases hs
      exact .next hpc hnext
    next => cases hs
  | visit t =>
    rw [hpc] at hs
    cases t with
    | initTask =>
      cases hs
      exact .leave hpc
    | leader p g =>
      cases hs
      exact .visit hpc (by simp)
  | returned ret =>
    rw [hpc] at hs
    cases hs

/-- `start` changes nothing but its own point and the log. -/
theorem startStep_frame (hs : startStep s = some s') :
    s'.links = s.links ∧ s'.alive = s.alive ∧ s'.forked = s.forked ∧ s'.waiting = s.waiting ∧
      s'.ready = s.ready ∧ s'.freed = s.freed := by
  cases startStep_moves hs with
  | _ => exact ⟨rfl, rfl, rfl, rfl, rfl, rfl⟩

theorem Books.preserved (h : Books s) (hs : step preempt s e = some s') : Books s' := by
  obtain ⟨-, hs⟩ | ⟨-, hmove⟩ := step_moves h hs
  · obtain ⟨-, halive, hforked, hwaiting, hready, hfreed⟩ := startStep_frame hs
    refine h.perm ?_ hforked (halive ▸ List.Subset.refl _)
    rw [State.known, halive, hwaiting, hready, hfreed]
    exact List.Perm.refl _
  cases hmove with
  | fork hm =>
    have hnew : ∀ u ∈ s.known, u.process ≠ s.forked := fun u hu => Nat.ne_of_lt (h.forked u hu)
    refine h.cons (t := .leader s.forked 0) ?_ (Nat.le_succ _) (fun hm => hnew _ hm rfl) (by simp)
      (Nat.lt_succ_self _) ?_ (fun u hu he => absurd he (hnew u hu)) ?_
    · simp only [State.known, List.append_assoc, List.cons_append, List.nil_append]
      exact List.perm_middle
    · intro u hu
      simpa [or_comm] using hu
    · intro u hu he
      obtain hu | hu := List.mem_append.1 hu
      · exact absurd he (hnew u (mem_known_of_alive hu))
      · exact List.mem_singleton.1 hu
  | exit halive hm =>
    refine h.perm ?_ rfl ?_
    · simp only [State.known, halive]
      exact perm_moved
    · rw [halive]
      simp
  | @exec t l₁ l₂ m halive hm =>
    have ht : t ∈ s.alive := by simp [halive]
    refine h.cons (t := t.replacement) ?_ (Nat.le_refl _) (h.replacement_not_mem ht) ?_ ?_ ?_ ?_ ?_
    · simp only [State.known, halive, List.append_assoc, List.cons_append]
      refine List.perm_middle.trans (List.Perm.cons _ ?_)
      have hmoved : ((l₁ ++ l₂) ++ t :: (s.waiting ++ (s.ready ++ s.freed))).Perm
          ((l₁ ++ t :: l₂) ++ (s.waiting ++ (s.ready ++ s.freed))) := perm_moved
      simpa using hmoved
    · exact h.replacement_ne ht
    · rw [replacement_process]
      exact h.forked t (mem_known_of_alive ht)
    · rw [halive]
      intro u hu
      simp only [List.mem_append, List.mem_cons] at hu ⊢
      tauto
    · intro u hu he
      rw [replacement_process] at he
      exact Nat.le_trans (h.latest t ht u hu he) (le_replacement_generation t)
    · intro u hu he
      rw [replacement_process] at he
      have hcases : u = t.replacement ∨ u ∈ l₁ ++ l₂ := by
        simp only [List.mem_append, List.mem_cons] at hu ⊢
        tauto
      refine hcases.resolve_right fun hmem => ?_
      have hsub : l₁ ++ l₂ ⊆ s.alive := by
        rw [halive]
        simp
      obtain rfl := h.eq_of_process (hsub hmem) ht he
      have hnd := h.alive_nodup
      rw [halive] at hnd
      exact (List.nodup_cons.1 (List.nodup_middle.1 hnd)).1 hmem
  | gracePeriod =>
    refine h.perm ?_ rfl (List.Subset.refl _)
    simp [State.known]
  | free hready =>
    refine h.perm ?_ rfl (List.Subset.refl _)
    simp only [State.known, hready]
    exact (perm_moved.append_left s.waiting).append_left s.alive

/-! ## The reader -/

/-- The task that `start` stands on. -/
def Pc.position : Pc → Option Task
  | .next t | .visit t => some t
  | _ => none

/-- What `start` relies on: it stands on a task of the list, or on one of `gone`, which were taken
off the list and still wait for their grace period; and from there it finds its way. -/
structure Reading (K : ℕ) (s : State) (gone : List Task) : Prop where
  trail : Trail s.links .initTask Task.process K s.alive gone
  waiting : gone ⊆ s.waiting
  position : ∀ t, s.pc.position = some t → t = .initTask ∨ t ∈ s.alive ++ gone

theorem reading_boot (links : Links Task) (K : ℕ) : Reading K (boot links) [] :=
  ⟨trail_nil (isRing_initListHead links .initTask) List.Pairwise.nil, nofun, nofun⟩

/-- The head of the list is no task that `start` prints. -/
theorem Reading.ne_initTask (h : Reading K s gone) (hb : Books s) (ht : t ∈ s.alive ++ gone) :
    t ≠ .initTask := by
  rintro rfl
  refine hb.leader (List.mem_append.2 ((List.mem_append.1 ht).imp_right fun ht => ?_))
  exact List.mem_append_left _ (h.waiting ht)

/-- At the beginning of the loop, what was taken off the list before does not matter. -/
theorem Reading.forget (h : Reading K s gone) (hpc : s.pc = .next .initTask) (K' : ℕ) :
    Reading K' s [] where
  trail := h.trail.forget
  waiting := nofun
  position t ht := by
    rw [hpc] at ht
    exact .inl (Option.some.inj ht).symm

/-- A step of `start` goes along the trail. -/
theorem Reading.start_step (h : Reading K s gone) (hs : startStep s = some s') :
    Reading K s' gone := by
  obtain ⟨hlinks, halive, -, hwaiting, -, -⟩ := startStep_frame hs
  refine ⟨by rw [hlinks, halive]; exact h.trail, by rw [hwaiting]; exact h.waiting, ?_⟩
  rw [halive]
  cases startStep_moves hs with
  | hello hpc =>
    intro t ht
    exact .inl (Option.some.inj ht).symm
  | @next t u hpc hnext =>
    intro v hv
    obtain rfl : u = v := Option.some.inj hv
    obtain rfl | ht := h.position t (by rw [hpc]; rfl)
    · obtain ⟨w, hw, hmem⟩ := h.trail.first
      obtain rfl := Link.node.inj (hnext.symm.trans hw)
      exact hmem.imp_right (List.mem_append_left gone)
    · obtain ⟨w, hw, hmem⟩ := h.trail.next ht
      obtain rfl := Link.node.inj (hnext.symm.trans hw)
      exact hmem.imp_right fun hm => hm.1
  | leave => exact nofun
  | @visit t hpc ht =>
    intro v hv
    exact h.position v (by rw [hpc]; exact hv)

/-- **The steps of the kernel.** Without preemption, `start` finds its way whatever the processes
do. The tasks that it can come to are those on the list and those that are taken off it now. -/
theorem Reading.preserved (h : Reading K s gone) (hb : Books s) (hK : K ≤ s.forked)
    (hs : step false s e = some s') :
    ∃ gone', Reading K s' gone' ∧ ∀ t ∈ s'.alive ++ gone', t ∈ s.alive ++ gone ∨ t ∉ s.known := by
  have hnot : ∀ u, u ∉ s.known → u ≠ .initTask → u ∉ .initTask :: (s.alive ++ gone) := by
    intro u hu hne hm
    obtain he | hm := List.mem_cons.1 hm
    · exact hne he
    · refine hu (List.mem_append.2 ((List.mem_append.1 hm).imp_right fun hm => ?_))
      exact List.mem_append_left _ (h.waiting hm)
  obtain ⟨-, hs⟩ | ⟨-, hmove⟩ := step_moves hb hs
  · refine ⟨gone, h.start_step hs, fun t ht => .inl ?_⟩
    rwa [(startStep_frame hs).2.1] at ht
  cases hmove with
  | @fork m hm =>
    have hnew : .leader s.forked 0 ∉ s.known := fun hm => Nat.lt_irrefl _ (hb.forked _ hm)
    obtain ⟨m', hm', htrail⟩ := h.trail.addTail (x := Task.leader s.forked 0)
      (hnot _ hnew (by simp)) (fun u hu => hb.forked u (mem_known_of_alive hu)) hK
    obtain rfl : m' = m := Option.some.inj (hm'.symm.trans hm)
    have hperm : ((s.alive ++ [Task.leader s.forked 0]) ++ gone).Perm
        (Task.leader s.forked 0 :: (s.alive ++ gone)) := by
      rw [List.append_assoc]
      exact List.perm_middle
    refine ⟨gone, ⟨htrail, h.waiting, fun t ht => (h.position t ht).imp_right fun hm => ?_⟩,
      fun t ht => ?_⟩
    · exact hperm.mem_iff.2 (List.mem_cons_of_mem _ hm)
    · obtain rfl | ht := List.mem_cons.1 (hperm.mem_iff.1 ht)
      · exact .inr hnew
      · exact .inl ht
  | @exit t l₁ l₂ m halive hm =>
    have htrail := h.trail
    rw [halive] at htrail
    obtain ⟨m', hm', htrail⟩ := htrail.del
    obtain rfl : m' = m := Option.some.inj (hm'.symm.trans hm)
    have hmem : ∀ u, u ∈ (l₁ ++ l₂) ++ t :: gone ↔ u ∈ s.alive ++ gone := by
      rw [halive]
      exact fun u => perm_moved.mem_iff
    refine ⟨t :: gone, ⟨htrail, List.cons_subset_cons t h.waiting, fun u hu => ?_⟩, fun u hu => ?_⟩
    · exact (h.position u hu).imp_right (hmem u).2
    · exact .inl ((hmem u).1 hu)
  | @exec t l₁ l₂ m halive hm =>
    have ht : t ∈ s.alive := by simp [halive]
    have htrail := h.trail
    have hfresh := hnot _ (hb.replacement_not_mem ht) (hb.replacement_ne ht)
    rw [halive] at htrail hfresh
    obtain ⟨m', hm', htrail⟩ := htrail.replace hfresh (replacement_process t)
    obtain rfl : m' = m := Option.some.inj (hm'.symm.trans hm)
    have hmem : ∀ u, u ∈ (l₁ ++ t.replacement :: l₂) ++ t :: gone ↔
        u = t.replacement ∨ u ∈ s.alive ++ gone := by
      intro u
      rw [halive]
      simp only [List.mem_append, List.mem_cons]
      tauto
    refine ⟨t :: gone, ⟨htrail, List.cons_subset_cons t h.waiting, fun u hu => ?_⟩, fun u hu => ?_⟩
    · exact (h.position u hu).imp_right fun hm => (hmem u).2 (.inr hm)
    · obtain rfl | hu := (hmem u).1 hu
      · exact .inr (hb.replacement_not_mem ht)
      · exact .inl hu
  | gracePeriod hgp =>
    -- `start` is not in its loop: it stands on no task
    have hout : s.pc.inLoop = false := hgp.resolve_left (by simp)
    refine ⟨[], ⟨h.trail.forget, nofun, fun t ht => ?_⟩, fun t ht => .inl ?_⟩
    swap
    · rw [List.append_nil] at ht
      exact List.mem_append_left gone ht
    cases hpc : s.pc with
    | next u => rw [hpc] at hout; cases hout
    | visit u => rw [hpc] at hout; cases hout
    | hello => rw [hpc] at ht; cases ht
    | returned ret => rw [hpc] at ht; cases ht
  | free => exact ⟨gone, ⟨h.trail, h.waiting, h.position⟩, fun t ht => .inl ht⟩

/-! ## No freed task is read -/

/-- The task that the step reads from, if it is a step of `start`, is not freed. -/
def ReadsLive (s : State) (e : Event) : Prop :=
  e = .start → ∀ t, s.pc.reads = some t → t ∉ s.freed

theorem Pc.position_of_reads {pc : Pc} (h : pc.reads = some t) : pc.position = some t := by
  cases pc with
  | hello | returned => cases h
  | next u => exact h
  | visit u =>
    cases u with
    | initTask => cases h
    | leader p g => exact h

theorem Reading.readsLive (h : Reading K s gone) (hb : Books s) : ReadsLive s e := by
  rintro - t ht hfreed
  have hknown : t ∈ s.known := by simp [State.known, hfreed]
  obtain rfl | hm := h.position t (Pc.position_of_reads ht)
  · exact hb.leader hknown
  · have hnd := hb.nodup
    rw [State.known, ← List.append_assoc, List.nodup_append] at hnd
    refine hnd.2.2 t ?_ t (List.mem_append_right s.ready hfreed) rfl
    exact List.mem_append.2 ((List.mem_append.1 hm).imp_right fun hm => h.waiting hm)

/-- The only process exits while `start` stands on its task, and the grace period ends. -/
def exitInLoop : List Event :=
  [.fork, .start, .start, .start, .exit (.leader 0 0), .gracePeriod, .free (.leader 0 0)]

/-- **Reading without `rcu_read_lock`.** Whatever the processes and the grace-period machinery do,
`start` never reads a task that is freed, exactly when the kernel is not preemptible. -/
theorem reads_no_freed_task_iff (preempt : Bool) (links : Links Task) :
    (∀ es, Along (step preempt) ReadsLive (boot links) es) ↔ preempt = false := by
  constructor
  · intro hall
    cases preempt with
    | false => rfl
    | true =>
      have hrun : ∃ s s', Runs (step true) (boot links) exitInLoop s ∧
          step true s .start = some s' ∧ s.pc = .next (.leader 0 0) ∧ .leader 0 0 ∈ s.freed :=
        ⟨_, _, rfl, rfl, rfl, List.mem_cons_self⟩
      obtain ⟨s, s', hrun, hs, hpc, hfreed⟩ := hrun
      have hread := (hall (exitInLoop ++ [.start])).at hrun hs
      exact absurd hfreed (hread rfl (.leader 0 0) (by rw [hpc]; rfl))
  · rintro rfl es
    have hI : Books (boot links) ∧ ∃ gone, Reading 0 (boot links) gone :=
      ⟨books_boot links, [], reading_boot links 0⟩
    refine Along.of_invariant (I := fun s => Books s ∧ ∃ gone, Reading 0 s gone)
      (fun s e s' h _ hs => ?_) (along_true _ es) hI
    obtain ⟨hb, gone, h⟩ := h
    obtain ⟨gone', h', -⟩ := h.preserved hb (Nat.zero_le _) hs
    exact ⟨⟨hb.preserved hs, gone', h'⟩, h.readsLive hb⟩

end Lkb.TaskStruct
