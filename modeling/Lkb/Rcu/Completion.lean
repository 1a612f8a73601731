import Lkb.Rcu.Locking
import Lkb.Rcu.Output
import Lkb.Rcu.Reclaim
import Lkb.Rcu.Unload

/-!
# Whole runs of `rcu`

`start`, the callback of `call_rcu` and `end`, interleaved and with any results of `kmalloc`. The
read-side sections of `start` are not nested, hold every read of the three loops that print or
update, and nothing that may sleep (`read_side_discipline`).

What `start` does with a node that was freed under it, or the callback after the unload of its code,
is beyond the model. In the runs without these (`Safe`), whatever else the interleaving, a run can
only be so long, and one that cannot go on has come to its end: `start` has returned, the callback
has freed `val[2]`, and `end` has been called (`runs_to_completion`). The lines of the three parties
may be mixed in the log, but each party's own lines are always the same.
-/

namespace Lkb.Rcu

open CircularList Run

variable {N : Element} {s s' : State} {e : Event} {ok : Bool} {es : List Event}

/-! ## Read-side sections -/

/-- The points of `start` inside a read-side section. -/
def Pc.reading : Pc → Bool
  | .print _ _ | .testUpdate _ | .setNew _ | .updateLock _ | .replace _ | .updateUnlock _
  | .readUnlock _ _ => true
  | _ => false

/-- `start` is in at most one read-side section, and outside of it every pending callback may
begin. -/
structure Reading (s : State) : Prop where
  readers : s.readers = s.pc.reading.toNat
  ready : s.pc.reading = false → ∀ c ∈ s.pending, c.ready = true

theorem reading_load (data : Node → BitVec 32) (links : Links Node) : Reading (load data links) :=
  ⟨rfl, fun _ c hc => absurd hc (by simp [load])⟩

theorem startStep_readers (h : s.readers = s.pc.reading.toNat) (hs : startStep N ok s = some s') :
    s'.readers = s'.pc.reading.toNat := by
  cases startStep_moves hs with
  | @leave l hpc | @enter l pos hpc =>
    rw [hpc] at h
    cases l <;> exact h
  | @readLock l pos hpc =>
    rw [hpc] at h
    have hinside : (inside l pos).reading = true := by cases l <;> rfl
    show s.readers + 1 = (inside l pos).reading.toNat
    rw [h, hinside]
    rfl
  | readUnlock hpc =>
    rw [hpc] at h
    show s.readers - 1 = 0
    rw [h]
    rfl
  | _ =>
    simp only [State.goto, State.printk, State.kmalloc, State.setData, State.callRcu,
      Pc.reading, *] at h ⊢

theorem Reading.preserved (h : Reading s) (hs : step N s e = some s') : Reading s' := by
  cases e with
  | start ok =>
    obtain ⟨t, ht, rfl⟩ := Option.map_eq_some_iff.1 hs
    have hreaders := startStep_readers h.readers ht
    unfold State.quiesce
    split_ifs with h0
    · refine ⟨hreaders, fun _ c hc => ?_⟩
      obtain ⟨c', -, rfl⟩ := List.mem_map.1 hc
      rfl
    · refine ⟨hreaders, fun hpc => absurd ?_ h0⟩
      rw [hreaders, hpc]
      rfl
  | callback k =>
    simp only [step] at hs
    split at hs
    · cases hs
      exact ⟨h.readers, fun hpc c hc => h.ready hpc c (List.mem_of_mem_eraseIdx hc)⟩
    · cases hs
  | destroy k =>
    obtain ⟨x, -, rfl⟩ := Option.map_eq_some_iff.1 hs
    exact ⟨h.readers, h.ready⟩
  | endModule =>
    simp only [step, Option.ite_none_right_eq_some, Option.some.injEq] at hs
    obtain ⟨-, rfl⟩ := hs
    exact ⟨h.readers, h.ready⟩

/-- The next step of `start` calls `kmalloc(.., GFP_KERNEL)` or `synchronize_rcu`, which may
sleep. -/
def State.maySleep (N : Element) (s : State) : Bool :=
  match s.pc with
  | .fill i => i < N.val
  | .synchronize _ => true
  | _ => false

/-- The next step of `start` reads the data of the node that a loop stands at. -/
def State.readsData (s : State) : Bool :=
  match s.pc with
  | .print _ _ | .testUpdate _ | .testDelete _ => true
  | _ => false

/-- The next step of `start` keeps to the rules: it sleeps outside sections and without the lock,
enters a section from outside and leaves one from inside, and reads the data of a node inside a
section or under the lock, except in a deletion that has handed a node to `call_rcu` already. -/
structure Disciplined (N : Element) (s : State) : Prop where
  sleep : s.maySleep N → s.readers = 0 ∧ s.lock = false
  enter : ∀ l pos, s.pc = .readLock l pos → s.readers = 0
  leave : ∀ l pos, s.pc = .readUnlock l pos → s.readers = 1
  read : s.readsData →
    (0 < s.readers ∨ s.lock = true ↔ ¬∃ pos, s.pc = .testDelete pos ∧ s.called ≠ [])

theorem Reading.disciplined (h : Reading s) (hlocked : Locked s) : Disciplined N s := by
  have hreaders := h.readers
  unfold Locked at hlocked
  constructor
  · intro hsleep
    unfold State.maySleep at hsleep
    split at hsleep
    next hpc =>
      rw [hpc] at hreaders hlocked
      exact ⟨hreaders, hlocked⟩
    next hpc =>
      rw [hpc] at hreaders hlocked
      exact ⟨hreaders, hlocked.2⟩
    next => cases hsleep
  · intro l pos hpc
    rw [hreaders, hpc]
    rfl
  · intro l pos hpc
    rw [hreaders, hpc]
    rfl
  · intro hread
    unfold State.readsData at hread
    split at hread
    next hpc =>
      rw [hpc] at hreaders ⊢
      simp [hreaders, Pc.reading]
    next hpc =>
      rw [hpc] at hreaders ⊢
      simp [hreaders, Pc.reading]
    next hpc =>
      rw [hpc] at hreaders hlocked ⊢
      simp [hreaders, Pc.reading, hlocked.2]
    next => cases hread

/-- **The read-side sections of `start`.** For every value of `element`, every result of `kmalloc`
and however the callback is interleaved, every step of `start` keeps to the rules, and `start` is
outside every section when it has returned. -/
theorem read_side_discipline (N : Element) (data : Node → BitVec 32) (links : Links Node)
    (es : List Event) :
    Along (step N) (fun s e => ∀ ok, e = .start ok → Disciplined N s) (load data links) es ∧
      Always (step N) (fun s => s.readers ≤ 1 ∧ ∀ ret, s.pc = .returned ret → s.readers = 0)
        (load data links) es := by
  have hG : Along (step N) (fun _ _ => True) (load data links) es := along_true _ _
  have hI : Reading (load data links) ∧ At N (load data links).memory .hello ∧
      Locked (load data links) :=
    ⟨reading_load data links, at_load N data links, locked_load data links⟩
  have hstep : ∀ s e s', Reading s ∧ At N s.memory s.pc ∧ Locked s → True →
      step N s e = some s' → Reading s' ∧ At N s'.memory s'.pc ∧ Locked s' :=
    fun s e s' h _ hs => ⟨h.1.preserved hs, h.2.1.preserved hs, h.2.2.preserved h.2.1 hs⟩
  constructor
  · refine Along.of_invariant (I := fun s => Reading s ∧ At N s.memory s.pc ∧ Locked s)
      (fun s e s' h hT hs => ⟨hstep s e s' h hT hs, fun _ _ => ?_⟩) hG hI
    exact h.1.disciplined h.2.2
  · refine Always.of_invariant (I := fun s => Reading s ∧ At N s.memory s.pc ∧ Locked s) hstep
      (fun s h => ⟨?_, fun ret hret => ?_⟩) hG hI
    · rw [h.1.readers]
      exact Bool.toNat_le _
    · rw [h.1.readers, hret]
      rfl

/-! ## What each party prints -/

/-- The parties that print. -/
inductive Party
  | start
  | callback
  | exit
  deriving DecidableEq

/-- Who prints a line. -/
def Message.party : Message → Party
  | .hello | .mallocFailed _ | .value _ _ => .start
  | .deletedOldReference | .data _ => .callback
  | .goodbye => .exit

/-- The lines of one party. -/
def State.said (s : State) (p : Party) : List Message := s.log.filter (·.party = p)

/-- A step of `start` prints lines of its own, and does the same whatever was printed before. -/
theorem startStep_log (hs : startStep N ok s = some s') (log : List Message) :
    ∃ m, s'.log = s.log ++ m ∧ (∀ x ∈ m, x.party = .start) ∧
      startStep N ok { s with log := log } = some { s' with log := log ++ m } := by
  cases startStep_moves hs with
  | hello hpc =>
    refine ⟨[.hello], rfl, by simp [Message.party], ?_⟩
    simp [startStep, hpc, State.goto, State.printk]
  | @kmalloc i hpc hi =>
    refine ⟨[], by simp [State.goto, State.kmalloc, State.setData], by simp, ?_⟩
    cases ok with
    | true => simp [startStep, hpc, hi, State.goto, State.kmalloc, State.setData]
    | false =>
      have hfill := congrArg (Option.map State.pc) hs
      simp [startStep, hpc, hi, State.goto] at hfill
  | @mallocFailed i hpc hi hok =>
    refine ⟨[.mallocFailed i], rfl, by simp [Message.party], ?_⟩
    simp [startStep, hpc, hi, hok, State.goto, State.printk]
  | @print l pos hpc =>
    refine ⟨[.value l (s.data pos)], rfl, by simp [Message.party], ?_⟩
    simp [startStep, hpc, State.goto, State.printk]
  | noUpdate hpc hdata | noMatch hpc hdata =>
    refine ⟨[], by simp [State.goto], by simp, ?_⟩
    simp only [startStep, hpc, if_neg hdata, State.goto, List.append_nil]
  | _ =>
    refine ⟨[], by simp [State.goto, State.setData, State.callRcu], by simp, ?_⟩
    simp [startStep, State.goto, State.setData, State.callRcu, *]

/-- The step of `start` depends on the result of `kmalloc` only where it fails. -/
theorem startStep_ok (hs : startStep N ok s = some s') :
    startStep N true s = some s' ∨
      ∃ i < N.val, s.pc = .fill i ∧ s' = (s.printk (.mallocFailed i)).goto (.returned (-1)) := by
  cases hpc : s.pc with
  | fill i =>
    by_cases hi : i < N.val
    · cases ok with
      | true => exact .inl hs
      | false =>
        simp only [startStep, hpc, if_pos hi, Bool.false_eq_true, if_false,
          Option.some.injEq] at hs
        exact .inr ⟨i, hi, rfl, hs.symm⟩
    · simp only [startStep, hpc, if_neg hi] at hs ⊢
      exact .inl hs
  | _ =>
    simp only [startStep, hpc] at hs ⊢
    exact .inl hs

theorem said_append {l : List Message} (h : s'.log = s.log ++ l) (p : Party) :
    s'.said p = s.said p ++ l.filter (·.party = p) := by
  rw [State.said, h, List.filter_append, State.said]

theorem said_congr (h : s'.log = s.log) (p : Party) : s'.said p = s.said p := by
  rw [State.said, h, State.said]

/-- A node is handed over only if there is a `val[2]`. -/
theorem lt_of_mem_handed {x : Node} {l : Loop} {l₁ l₂ : List Node} (hsplit : input N l = l₁ ++ l₂)
    (h : x ∈ handed N l l₁) : 2 < N.val := by
  have hx := eq_of_mem_handed h
  have hmem : x ∈ input N .delete := by
    cases l with
    | delete =>
      rw [hsplit]
      exact List.mem_append_left _ (List.mem_filter.1 h).1
    | read2 => exact (List.mem_filter.1 h).1
    | read0 | update | read1 => cases h
  obtain hnew | ⟨i, hi, hval⟩ := mem_input_delete hmem
  · rw [hx] at hnew
    cases hnew
  · rw [hx, Node.val.injEq] at hval
    omega

/-- The node of a callback is `val[2]`, and its data is 20. -/
theorem At.data_of_called {x : Node} (h : At N s.memory s.pc) (hx : x ∈ s.called) :
    s.data x = 20 := by
  have hnil : s.memory.called = [] → s.data x = 20 := by
    intro hcalled
    rw [show s.called = [] from hcalled] at hx
    cases hx
  have hvals : ∀ {l : Loop} {l₁ l₂ xs : List Node}, Shape N s.memory xs →
      input N l = l₁ ++ l₂ → s.memory.called = handed N l l₁ → s.data x = 20 := by
    intro l l₁ l₂ xs hshape hsplit hcalled
    rw [show s.called = _ from hcalled] at hx
    obtain rfl := eq_of_mem_handed hx
    exact hshape.vals 2 (lt_of_mem_handed hsplit hx)
  have hstand : ∀ {l : Loop} {l₁ l₂ : List Node}, Stand N s.memory l l₁ l₂ → s.data x = 20 :=
    fun hstand => hvals hstand.shape hstand.split hstand.called
  have hpassed : ∀ {l : Loop} {l₁ l₂ : List Node} {pos : Node}, Passed N s.memory l l₁ pos l₂ →
      s.memory.called = handed N l (l₁ ++ [pos]) → s.data x = 20 :=
    fun hpassed hcalled => hstand (hpassed.stand hcalled)
  cases hpc : s.pc with
  | hello =>
    rw [hpc] at h
    exact hnil h.2
  | fill i =>
    rw [hpc] at h
    exact hnil h.2.2.2
  | add i | addLink i | addUnlock i =>
    rw [hpc] at h
    exact hnil h.2.2
  | synchronize l | first l | clearFlag | lockDelete | checkFlag =>
    rw [hpc] at h
    exact hstand h
  | visit l pos =>
    rw [hpc] at h
    obtain ⟨l₁, l₂, hs, -⟩ := h
    exact hstand hs
  | testUpdate pos | testDelete pos =>
    rw [hpc] at h
    obtain ⟨l₁, l₂, hs⟩ := h
    exact hstand hs
  | readLock l pos | setNew pos | setFlag pos | delete pos =>
    rw [hpc] at h
    obtain ⟨-, l₁, l₂, hs⟩ := h
    exact hstand hs
  | print l pos | updateLock pos | replace pos =>
    rw [hpc] at h
    obtain ⟨-, -, l₁, l₂, hs⟩ := h
    exact hstand hs
  | updateUnlock pos | advance l pos =>
    rw [hpc] at h
    obtain ⟨l₁, l₂, hp, hcalled⟩ := h
    exact hpassed hp hcalled
  | readUnlock l pos =>
    rw [hpc] at h
    obtain ⟨-, l₁, l₂, hp, hcalled⟩ := h
    exact hpassed hp hcalled
  | deleteUnlock pos | callRcu pos =>
    -- the node is off the list, and not yet handed over
    rw [hpc] at h
    obtain ⟨-, l₁, l₂, hp, hcalled⟩ := h
    exact hvals hp.shape hp.split hcalled
  | returned ret =>
    rw [hpc] at h
    obtain ⟨-, hs⟩ | ⟨-, hcalled⟩ := h
    · exact hstand hs
    · exact hnil hcalled

/-- What was printed in a run, party by party. -/
structure Printed (N : Element) (s : State) : Prop where
  walk : At N s.memory s.pc
  registered : Registered s
  start : (∀ ret, s.pc = .returned ret → ret = 0) → s.said .start = output N s.pc
  failed : ∀ ret, s.pc = .returned ret → ret ≠ 0 →
    ∃ i < N.val, s.said .start = [.hello, .mallocFailed i]
  callback : s.said .callback = s.freed.flatMap fun _ => [.deletedOldReference, .data 20]
  exit : s.said .exit = if s.ended then [.goodbye] else []

theorem printed_load (N : Element) (data : Node → BitVec 32) (links : Links Node) :
    Printed N (load data links) where
  walk := at_load N data links
  registered := registered_load data links
  start _ := rfl
  failed _ h := nomatch h
  callback := rfl
  exit := rfl

/-- A step of `start` adds its own lines, and brings `start` closer to its end. -/
theorem Printed.start_step (h : Printed N s) (hs : startStep N ok s = some s') :
    ((∀ ret, s'.pc = .returned ret → ret = 0) → s'.said .start = output N s'.pc) ∧
      (∀ ret, s'.pc = .returned ret → ret ≠ 0 →
        ∃ i < N.val, s'.said .start = [.hello, .mallocFailed i]) ∧
      rank N s'.pc < rank N s.pc := by
  have hret : ∀ ret, s.pc = .returned ret → ret = 0 := by
    intro ret hpc
    simp [startStep, hpc] at hs
  have hsaid := h.start hret
  obtain ht | ⟨i, hi, hpc, rfl⟩ := startStep_ok hs
  · -- the same step, from the state in which only `start` has printed
    obtain ⟨m, hm, hparty, ht'⟩ := startStep_log ht (s.said .start)
    have htraced : Traced N { s with log := s.said .start } := ⟨h.walk, hsaid, hret⟩
    obtain ⟨⟨-, hlog, hret'⟩, hlt⟩ := htraced.start_step ht'
    have hsaid' : s'.said .start = s.said .start ++ m := by
      rw [said_append hm, List.filter_eq_self.2 (by simpa using hparty)]
    exact ⟨fun _ => hsaid'.trans hlog, fun ret hpc hne => absurd (hret' ret hpc) hne, hlt⟩
  · refine ⟨fun hz => absurd (hz (-1) rfl) (by decide), fun _ _ _ => ⟨i, hi, ?_⟩, ?_⟩
    · rw [hpc] at hsaid
      rw [said_append (s := s) (l := [.mallocFailed i]) rfl, hsaid]
      rfl
    · rw [hpc]
      simp only [State.goto, rank]
      omega

theorem Printed.preserved (h : Printed N s) (hs : step N s e = some s') : Printed N s' := by
  have hwalk := h.walk.preserved hs
  have hregistered := h.registered.preserved hs
  cases e with
  | start ok =>
    obtain ⟨t, ht, rfl⟩ := Option.map_eq_some_iff.1 hs
    obtain ⟨-, hpc, hfreed, -, hended, hlog⟩ := t.quiesce_frame
    obtain ⟨hfreed', -, hended', -⟩ := startStep_frame ht
    obtain ⟨hstart, hfailed, -⟩ := h.start_step ht
    obtain ⟨m, hm, hparty, -⟩ := startStep_log ht []
    have hother : ∀ p, p ≠ .start → t.said p = s.said p := by
      intro p hp
      rw [said_append hm, List.filter_eq_nil_iff.2, List.append_nil]
      intro x hx
      simp [hparty x hx, Ne.symm hp]
    constructor
    · exact hwalk
    · exact hregistered
    · rw [hpc, said_congr hlog]
      exact hstart
    · rw [hpc, said_congr hlog]
      exact hfailed
    · rw [said_congr hlog, hother _ (by decide), hfreed, hfreed']
      exact h.callback
    · rw [said_congr hlog, hother _ (by decide), hended, hended']
      exact h.exit
  | callback k =>
    simp only [step] at hs
    split at hs
    · cases hs
      exact ⟨hwalk, hregistered, h.start, h.failed, h.callback, h.exit⟩
    · cases hs
  | destroy k =>
    obtain ⟨x, hk, rfl⟩ := Option.map_eq_some_iff.1 hs
    have hx : x ∈ s.called := h.registered.running x (List.mem_of_getElem? hk)
    have hlog : (destroyOldStructure s k x).log =
        s.log ++ [.deletedOldReference, .data 20] := by
      simp [destroyOldStructure, State.printk, h.walk.data_of_called hx]
    have hstart : (destroyOldStructure s k x).said .start = s.said .start := by
      simp [said_append hlog, Message.party]
    refine ⟨hwalk, hregistered, ?_, ?_, ?_, ?_⟩
    · rw [hstart]
      exact h.start
    · rw [hstart]
      exact h.failed
    · rw [said_append hlog, h.callback]
      simp [destroyOldStructure, State.printk, Message.party]
    · rw [said_append hlog, h.exit]
      simp [destroyOldStructure, State.printk, Message.party]
  | endModule =>
    simp only [step, Option.ite_none_right_eq_some, Option.some.injEq] at hs
    obtain ⟨⟨-, hended⟩, rfl⟩ := hs
    have hlog : { s.printk .goodbye with ended := true }.log = s.log ++ [.goodbye] := rfl
    have hexit := h.exit
    rw [hended] at hexit
    have hstart : { s.printk .goodbye with ended := true }.said .start = s.said .start := by
      simp [said_append hlog, Message.party]
    refine ⟨hwalk, hregistered, ?_, ?_, ?_, ?_⟩
    · rw [hstart]
      exact h.start
    · rw [hstart]
      exact h.failed
    · rw [said_append hlog, h.callback]
      simp [State.printk, Message.party]
    · rw [said_append hlog, hexit]
      simp [Message.party]

/-! ## Every run comes to its end -/

/-- A bound for the steps that all parties have left. -/
def State.left (N : Element) (s : State) : ℕ :=
  rank N s.pc + 2 * s.pending.length + s.running.length + (!s.ended).toNat

theorem length_quiesce (s : State) : s.quiesce.pending.length = s.pending.length := by
  unfold State.quiesce
  split_ifs
  · simp
  · rfl

/-- A step of `start` that registers a callback pays for it. -/
theorem Printed.start_left (h : Printed N s) (hs : startStep N ok s = some s') :
    rank N s'.pc + 2 * s'.pending.length < rank N s.pc + 2 * s.pending.length := by
  obtain ⟨-, -, -, ⟨-, hp⟩ | ⟨pos, hpc, -, hp⟩⟩ := startStep_frame hs
  · have hlt := (h.start_step hs).2.2
    rw [hp]
    omega
  · simp only [startStep, hpc, Option.some.injEq] at hs
    subst hs
    simp only [State.goto, State.callRcu, hpc, rank, Loop.left, List.length_append,
      List.length_singleton]
    omega

theorem Printed.left_lt (h : Printed N s) (hs : step N s e = some s') : s'.left N < s.left N := by
  cases e with
  | start ok =>
    obtain ⟨t, ht, rfl⟩ := Option.map_eq_some_iff.1 hs
    obtain ⟨-, hpc, -, hrunning, hended, -⟩ := t.quiesce_frame
    obtain ⟨-, hrunning', hended', -⟩ := startStep_frame ht
    have hlt := h.start_left ht
    simp only [State.left, hpc, length_quiesce, hrunning, hended, hrunning', hended']
    omega
  | callback k =>
    simp only [step] at hs
    split at hs
    next x hk =>
      cases hs
      obtain ⟨hlt, -⟩ := List.getElem?_eq_some_iff.1 hk
      simp only [State.left, List.length_eraseIdx_of_lt hlt, List.length_append,
        List.length_singleton]
      omega
    next => cases hs
  | destroy k =>
    obtain ⟨x, hk, rfl⟩ := Option.map_eq_some_iff.1 hs
    obtain ⟨hlt, -⟩ := List.getElem?_eq_some_iff.1 hk
    simp only [State.left, destroyOldStructure, State.printk, List.length_eraseIdx_of_lt hlt]
    omega
  | endModule =>
    simp only [step, Option.ite_none_right_eq_some, Option.some.injEq] at hs
    obtain ⟨⟨-, hended⟩, rfl⟩ := hs
    simp [State.left, State.printk, hended]

/-- The step frees no node from which `start` is about to go on, and does not unload the module
before the callback has run. -/
structure Safe (N : Element) (s : State) (e : Event) : Prop where
  iterator : FreedOffIterator s e
  unload : e = .endModule → N.val ≤ 2 ∨ .val 2 ∈ s.freed

instance (N : Element) (s : State) (e : Event) : Decidable (Safe N s e) :=
  decidable_of_iff (FreedOffIterator s e ∧ (e = .endModule → N.val ≤ 2 ∨ .val 2 ∈ s.freed))
    ⟨fun h => ⟨h.1, h.2⟩, fun h => ⟨h.iterator, h.unload⟩⟩

theorem Safe.of_ne (hiterator : FreedOffIterator s e) (he : e ≠ .endModule) : Safe N s e :=
  ⟨hiterator, fun h => absurd h he⟩

/-- In a state without a safe next step, `start` has returned, no callback is left, and `end` has
been called if it can be. -/
theorem Reading.complete (h : Reading s) (hwalk : At N s.memory s.pc) (haccounted : Accounted s)
    (hstuck : ∀ e, Safe N s e → step N s e = none) :
    s.Quiet ∧ (s.pc = .returned (-1) ∨ s.pc = .returned 0 ∧ s.ended = true) := by
  have hret : ∃ ret, s.pc = .returned ret := by
    by_contra hne
    obtain ⟨t, ht⟩ := hwalk.progress (fun ret hpc => hne ⟨ret, hpc⟩) true
    have hs := hstuck (.start true) (.of_ne trivial (by simp))
    simp [step, ht] at hs
  obtain ⟨ret, hpc⟩ := hret
  have hpending : s.pending = [] := by
    cases hp : s.pending with
    | nil => rfl
    | cons c cs =>
      have hready : c.ready = true := h.ready (by rw [hpc]; rfl) c (by simp [hp])
      have hs := hstuck (.callback 0) (.of_ne trivial (by simp))
      obtain ⟨x, r⟩ := c
      obtain rfl : r = true := hready
      simp [step, hp] at hs
  have hrunning : s.running = [] := by
    cases hr : s.running with
    | nil => rfl
    | cons x xs =>
      have hoff : FreedOffIterator s (.destroy 0) := by simp [FreedOffIterator, hpc, Pc.iterator]
      have hs := hstuck (.destroy 0) (.of_ne hoff (by simp))
      simp [step, hr] at hs
  refine ⟨⟨hpending, hrunning⟩, ?_⟩
  have hat := hwalk
  rw [hpc] at hat
  obtain ⟨rfl, -⟩ | ⟨rfl, -⟩ := hat
  · refine .inr ⟨hpc, ?_⟩
    have hloaded : Loaded N s := ⟨hwalk, haccounted, fun _ => hpc⟩
    have hs := hstuck .endModule
      ⟨trivial, fun _ => (hloaded.quiet_iff hpc).1 ⟨hpending, hrunning⟩⟩
    simpa [step, hpc] using hs
  · exact .inl hpc

/-- **Every safe run of the module comes to its end.** For every value of `element` and any results
of `kmalloc`, in every run in which the callback does not free the node from which `start` is about
to go on, and `end` is called only after the callback: `start` works on no freed node, and all
parties together take at most `64 * N + 155` steps. When no such step is left, `start` has either
failed in an allocation and returned -1, or it has returned 0, `end` has been called, and the
callback has freed `val[2]`, if there is one, and nothing else; each party has then printed its
lines, in their order. -/
theorem runs_to_completion (N : Element) (data : Node → BitVec 32) (links : Links Node)
    (hrun : Runs (step N) (load data links) es s)
    (hsafe : Along (step N) (Safe N) (load data links) es) :
    Along (step N) NoUseAfterFree (load data links) es ∧
    es.length ≤ 64 * N.val + 155 ∧ ((∀ e, Safe N s e → step N s e = none) →
      (s.pc = .returned (-1) ∧ ∃ i < N.val, s.said .start = [.hello, .mallocFailed i]) ∨
      (s.pc = .returned 0 ∧ s.ended = true ∧ s.Quiet ∧
        s.freed = (if N.val ≤ 2 then [] else [.val 2]) ∧
        s.said .start = .hello :: (lines .read0 (input N .read0) ++ lines .read1 (input N .read1) ++
          lines .read2 (input N .read2)) ∧
        s.said .callback = (if N.val ≤ 2 then [] else [.deletedOldReference, .data 20]) ∧
        s.said .exit = [.goodbye])) := by
  have hprinted : Printed N s :=
    hrun.invariant' (fun _ _ _ h hs => h.preserved hs) (printed_load N data links)
  refine ⟨?_, ?_, fun hstuck => ?_⟩
  · refine Along.of_invariant (I := Reclaim N) (fun s e s' h hG hs => ?_) hsafe
      (reclaim_load data links)
    exact ⟨h.preserved hG.iterator hs, h.noUseAfterFree e⟩
  · have hlen := hrun.length_le_of_rank (State.left N)
      (fun _ _ _ h hs => ⟨h.preserved hs, h.left_lt hs⟩) (printed_load N data links)
    have hload : (load data links).left N = 64 * N.val + 155 := by
      simp only [State.left, load, rank, lap, List.length_nil, Bool.not_false, Bool.toNat_true]
      omega
    omega
  · have hreading : Reading s :=
      hrun.invariant' (fun _ _ _ h hs => h.preserved hs) (reading_load data links)
    have haccounted : Accounted s :=
      hrun.invariant' (fun _ _ _ h hs => h.preserved hs) (accounted_load data links)
    obtain ⟨hquiet, hpc | ⟨hpc, hended⟩⟩ := hreading.complete hprinted.walk haccounted hstuck
    · exact .inl ⟨hpc, hprinted.failed _ hpc (by decide)⟩
    · have hcalled := (hprinted.walk.returned hpc).2
      have hperm : s.freed.Perm s.called := List.perm_iff_count.2 (haccounted.quiet_iff.1 hquiet)
      have hfreed : s.freed = if N.val ≤ 2 then [] else [.val 2] := by
        rw [hcalled] at hperm
        split_ifs at hperm ⊢
        · exact hperm.eq_nil
        · exact List.perm_singleton.1 hperm
      refine .inr ⟨hpc, hended, hquiet, hfreed, ?_, ?_, ?_⟩
      · have hstart := hprinted.start (fun ret h => by rw [hpc] at h; cases h; rfl)
        rw [hstart, hpc]
        simp [output, before]
      · rw [hprinted.callback, hfreed]
        split_ifs <;> rfl
      · rw [hprinted.exit, hended]
        rfl

/-- The callback runs while `start` goes through the list for the last time. -/
def completeSample : List Event :=
  List.replicate 140 (.start true) ++ [.callback 0, .destroy 0] ++
    List.replicate 16 (.start true) ++ [.endModule]

theorem runs_to_completion_sample :
    ∃ s, Runs (step .five) (load (fun _ => 0) ⟨.node, .node⟩) completeSample s ∧
      s.freed = [.val 2] ∧ s.said .callback = [.deletedOldReference, .data 20] := by
  have hend : (completeSample.foldlM (step .five) (load (fun _ => 0) ⟨.node, .node⟩)).map
      (fun s => (s.pc, s.pending, s.running, s.ended)) = some (.returned 0, [], [], true) := by
    decide +kernel
  obtain ⟨s, hrun, hs⟩ := Option.map_eq_some_iff.1 hend
  simp only [Prod.mk.injEq] at hs
  obtain ⟨hpc, hp, hr, hended⟩ := hs
  have hstuck : ∀ e, Safe .five s e → step .five s e = none := by
    intro e _
    cases e <;> simp [step, startStep, hpc, hp, hr, hended]
  obtain ⟨-, -, hdone⟩ := runs_to_completion .five _ _ hrun (by decide +kernel)
  obtain ⟨hfail, -⟩ | ⟨-, -, -, hfreed, -, hsaid, -⟩ := hdone hstuck
  · rw [hpc] at hfail
    cases hfail
  · exact ⟨s, hrun, hfreed, hsaid⟩

end Lkb.Rcu
