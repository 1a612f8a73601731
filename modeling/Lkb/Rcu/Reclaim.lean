import Lkb.Rcu.Walk

/-!
# Reclaiming the deleted node of `rcu`

The deleting traversal hands the node it stands on to `call_rcu`, outside every read-side section,
and then reads the `next` link of that node to go on. The callback may free the node in between
(`not_safe_on_advance`).

`no_use_after_reclaim`: that is the only way in which `start` works on a freed node. A run in which
no callback frees the node that the iterator stands on is safe, and a run in which `start` returns
without an access to a freed node has met that condition.
-/

namespace Lkb.Rcu

open CircularList Run

/-- The step is not an access of `start` to a node that `destroy_old_structure` has freed. -/
def NoUseAfterFree (s : State) : Event → Prop
  | .start _ => ∀ x ∈ s.touches, x ∉ s.freed
  | _ => True

/-- The node whose `next` link the next step of `start` reads, in order to go on to the next node.
-/
def Pc.iterator : Pc → Option Node
  | .advance _ pos => some pos
  | _ => none

/-- The condition on a step: `destroy_old_structure` does not free the node from which `start` is
about to go on to the next one. -/
def FreedOffIterator (s : State) : Event → Prop
  | .destroy k => ∀ x ∈ s.running[k]?, s.pc.iterator ≠ some x
  | _ => True

instance (s : State) : (e : Event) → Decidable (NoUseAfterFree s e)
  | .start _ => inferInstanceAs (Decidable (∀ x ∈ s.touches, x ∉ s.freed))
  | .callback _ | .destroy _ | .endModule => isTrue trivial

instance (s : State) : (e : Event) → Decidable (FreedOffIterator s e)
  | .destroy k => inferInstanceAs (Decidable (∀ x ∈ s.running[k]?, s.pc.iterator ≠ some x))
  | .start _ | .callback _ | .endModule => isTrue trivial

theorem Pc.iterator_eq_some {pc : Pc} {x : Node} :
    pc.iterator = some x ↔ ∃ l, pc = .advance l x := by
  cases pc with
  | advance l pos => simp [iterator]
  | _ => simp [iterator]

variable {N : Element} {s s' : State} {e : Event} {l : Loop} {l₁ l₂ : List Node} {pos x : Node}
  {m : Memory} {ok : Bool}

/-! ## What is handed over is out of reach -/

/-- A traversal has not handed over the nodes that are still before it. -/
theorem not_mem_handed (hsplit : input N l = l₁ ++ pos :: l₂) (hnd : (l₁ ++ pos :: l₂).Nodup) :
    pos ∉ handed N l l₁ := by
  intro h
  cases l with
  | delete =>
    have hmem := (List.mem_filter.1 h).1
    exact (List.nodup_append.1 hnd).2.2 pos hmem pos List.mem_cons_self rfl
  | read2 =>
    obtain rfl := eq_of_mem_handed h
    have hmem : .val 2 ∈ input N .read2 := by simp [hsplit]
    exact not_mem_read2 hmem
  | read0 | update | read1 => cases h

theorem Stand.not_called (h : Stand N m l l₁ (pos :: l₂)) : pos ∉ m.called := by
  rw [h.called]
  exact not_mem_handed h.split h.nodup

/-- As long as `val[2]` is not handed over, nothing is. -/
theorem handed_eq_nil (h : .val 2 ∉ handed N l l₁) : handed N l l₁ = [] := by
  rw [List.eq_nil_iff_forall_not_mem]
  intro x hx
  obtain rfl := eq_of_mem_handed hx
  exact h hx

/-- Except for the step to the next node, `start` works only on nodes that are not handed over. -/
theorem At.touches_not_called (h : At N s.memory s.pc) (hpc : ∀ l pos, s.pc ≠ .advance l pos)
    (hx : x ∈ s.touches) : x ∉ s.called := by
  unfold State.touches at hx
  cases hp : s.pc with
  | advance l pos => exact absurd hp (hpc l pos)
  | fill i =>
    rw [hp] at h
    rw [show s.called = [] from h.2.2.2]
    simp
  | addLink i =>
    rw [hp] at h
    rw [show s.called = [] from h.2.2]
    simp
  | first l =>
    rw [hp] at h hx
    rw [show s.called = handed N l [] from Stand.called h]
    intro hc
    rw [eq_of_mem_handed hc] at hx
    simp at hx
  | print l pos =>
    rw [hp] at h hx
    obtain ⟨-, -, l₁, l₂, hstand⟩ := h
    rw [List.mem_singleton.1 hx]
    exact hstand.not_called
  | testUpdate pos | testDelete pos =>
    rw [hp] at h hx
    obtain ⟨l₁, l₂, hstand⟩ := h
    rw [List.mem_singleton.1 hx]
    exact hstand.not_called
  | setNew pos =>
    rw [hp] at h
    obtain ⟨-, l₁, l₂, hstand⟩ := h
    rw [show s.called = [] from hstand.called]
    simp
  | replace pos =>
    rw [hp] at h
    obtain ⟨-, -, l₁, l₂, hstand⟩ := h
    rw [show s.called = [] from hstand.called]
    simp
  | delete pos =>
    rw [hp] at h
    obtain ⟨rfl, l₁, l₂, hstand⟩ := h
    rw [show s.called = _ from hstand.called,
      handed_eq_nil (not_mem_handed hstand.split hstand.nodup)]
    simp
  | callRcu pos =>
    rw [hp] at h
    obtain ⟨rfl, l₁, l₂, hpassed, hcalled⟩ := h
    rw [show s.called = _ from hcalled,
      handed_eq_nil (not_mem_handed hpassed.split hpassed.nodup)]
    simp
  | _ =>
    rw [hp] at hx
    cases hx

/-- Where the step to the next node comes from. -/
theorem startStep_advance (hs : startStep N ok s = some s') (hpc' : s'.pc = .advance l pos) :
    s.pc = .readUnlock l pos ∨ (s.pc = .testDelete pos ∨ s.pc = .callRcu pos) := by
  cases startStep_moves hs with
  | readUnlock hpc =>
    cases hpc'
    exact .inl hpc
  | noMatch hpc =>
    cases hpc'
    exact .inr (.inl hpc)
  | callRcu hpc =>
    cases hpc'
    exact .inr (.inr hpc)
  | @leave l | @enter l | @readLock l => cases l <;> cases hpc'
  | _ => cases hpc'

/-- When `start` comes to read the `next` link of a node, that node was not handed over before. -/
theorem At.advance_not_called (h : At N s.memory s.pc) (hs : startStep N ok s = some s')
    (hpc' : s'.pc = .advance l pos) : pos ∉ s.called := by
  obtain hpc | hpc | hpc := startStep_advance hs hpc'
  · rw [hpc] at h
    obtain ⟨hl, l₁, l₂, hpassed, hcalled⟩ := h
    rw [show s.called = _ from hcalled, handed_append (.inl hl)]
    exact not_mem_handed hpassed.split hpassed.nodup
  · refine h.touches_not_called (by simp [hpc]) ?_
    simp [State.touches, hpc]
  · refine h.touches_not_called (by simp [hpc]) ?_
    simp [State.touches, hpc]

/-! ## Safe runs -/

/-- The invariant of a run that meets the condition. -/
structure Reclaim (N : Element) (s : State) : Prop where
  walk : At N s.memory s.pc
  registered : Registered s
  iterator : ∀ l pos, s.pc = .advance l pos → pos ∉ s.freed

theorem reclaim_load (data : Node → BitVec 32) (links : Links Node) : Reclaim N (load data links) :=
  ⟨at_load N data links, registered_load data links, nofun⟩

theorem Reclaim.preserved (h : Reclaim N s) (hG : FreedOffIterator s e)
    (hs : step N s e = some s') : Reclaim N s' := by
  refine ⟨h.walk.preserved hs, h.registered.preserved hs, ?_⟩
  cases e with
  | start ok =>
    obtain ⟨t, ht, rfl⟩ := Option.map_eq_some_iff.1 hs
    obtain ⟨-, hpc, hfreed, -⟩ := t.quiesce_frame
    intro l pos hl hp
    rw [hfreed, (startStep_frame ht).1] at hp
    exact h.walk.advance_not_called ht (hpc.symm.trans hl) (h.registered.freed pos hp)
  | callback k =>
    simp only [step] at hs
    split at hs
    · cases hs
      exact h.iterator
    · cases hs
  | destroy k =>
    obtain ⟨x, hk, rfl⟩ := Option.map_eq_some_iff.1 hs
    intro l pos hl hp
    obtain hp | hp := List.mem_append.1 hp
    · exact h.iterator l pos hl hp
    · -- the condition on the run: this is not the node that is freed
      obtain rfl := List.mem_singleton.1 hp
      exact hG pos hk (Pc.iterator_eq_some.2 ⟨l, hl⟩)
  | endModule =>
    simp only [step, Option.ite_none_right_eq_some, Option.some.injEq] at hs
    obtain ⟨-, rfl⟩ := hs
    exact h.iterator

/-- In a state of the invariant, `start` does not work on a freed node. -/
theorem Reclaim.noUseAfterFree (h : Reclaim N s) (e : Event) : NoUseAfterFree s e := by
  cases e with
  | start ok =>
    intro x hx hfreed
    by_cases hpc : ∃ l pos, s.pc = .advance l pos
    · obtain ⟨l, pos, hpc⟩ := hpc
      obtain rfl : x = pos := by simpa [State.touches, hpc] using hx
      exact h.iterator l x hpc hfreed
    · simp only [not_exists] at hpc
      exact h.walk.touches_not_called hpc hx (h.registered.freed x hfreed)
  | _ => trivial

/-! ## The way back -/

/-- `start` is about to read the `next` link of a freed node. -/
def Trapped (s : State) : Prop := ∃ l pos, s.pc = .advance l pos ∧ pos ∈ s.freed

/-- Only an access to the freed node leads out of the trap. -/
theorem Trapped.preserved (h : Trapped s) (hD : NoUseAfterFree s e) (hs : step N s e = some s') :
    Trapped s' := by
  obtain ⟨l, pos, hpc, hfreed⟩ := h
  cases e with
  | start ok => exact absurd hfreed (hD pos (by simp [State.touches, hpc]))
  | callback k =>
    simp only [step] at hs
    split at hs
    · cases hs
      exact ⟨l, pos, hpc, hfreed⟩
    · cases hs
  | destroy k =>
    obtain ⟨x, -, rfl⟩ := Option.map_eq_some_iff.1 hs
    exact ⟨l, pos, hpc, List.mem_append_left _ hfreed⟩
  | endModule => simp [step, hpc] at hs

/-- A step that does not meet the condition leads into the trap. -/
theorem trapped_of_not (hG : ¬FreedOffIterator s e) (hs : step N s e = some s') : Trapped s' := by
  cases e with
  | destroy k =>
    simp only [FreedOffIterator, not_forall, not_not, Pc.iterator_eq_some] at hG
    obtain ⟨x, hx, l, hpc⟩ := hG
    obtain ⟨y, hy, rfl⟩ := Option.map_eq_some_iff.1 hs
    obtain rfl : x = y := Option.some.inj (hx.symm.trans hy)
    exact ⟨l, x, hpc, by simp [destroyOldStructure]⟩
  | _ => exact absurd trivial hG

/-- **When `start` stays off freed nodes.** For every value of `element`: in a run of the module in
which `destroy_old_structure` never frees the node from which `start` is about to go on to the next
one, no step of `start` works on a freed node. Conversely, a run in which `start` returns without
such an access has met this condition. -/
theorem no_use_after_reclaim (N : Element) (data : Node → BitVec 32) (links : Links Node)
    (es : List Event) :
    (Along (step N) FreedOffIterator (load data links) es →
      Along (step N) NoUseAfterFree (load data links) es) ∧
    ∀ s ret, Runs (step N) (load data links) es s → s.pc = .returned ret →
      Along (step N) NoUseAfterFree (load data links) es →
        Along (step N) FreedOffIterator (load data links) es := by
  constructor
  · intro hG
    refine Along.of_invariant (I := Reclaim N) (fun s e s' h hG hs => ?_) hG
      (reclaim_load data links)
    exact ⟨h.preserved hG hs, h.noUseAfterFree e⟩
  · intro s ret hruns hret hD
    refine Along.of_trap (T := Trapped) (fun s e s' hs _ hG => trapped_of_not hG hs)
      (fun s e s' hT hD hs => hT.preserved hD hs) hruns hD ?_
    rintro ⟨l, pos, hpc, -⟩
    rw [hret] at hpc
    cases hpc

/-- The value of `element` in the source. -/
def Element.five : Element := ⟨5, by decide⟩

/-- The callback runs when `start` has returned. -/
theorem no_use_after_reclaim_sample :
    Along (step .five) NoUseAfterFree (load (fun _ => 0) ⟨.node, .node⟩)
      (List.replicate 156 (.start true) ++ [.callback 0, .destroy 0, .endModule]) :=
  (no_use_after_reclaim _ _ _ _).1 (by decide +kernel)

/-- The callback runs when `start` stands on the node that it has just handed over. -/
theorem not_safe_on_advance :
    ¬Along (step .five) NoUseAfterFree (load (fun _ => 0) ⟨.node, .node⟩)
      (List.replicate 125 (.start true) ++ [.callback 0, .destroy 0, .start true]) := by
  decide +kernel

end Lkb.Rcu
