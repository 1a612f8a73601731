import Lkb.Foundations.Run
import Lkb.Ioctl.Driver
import Lkb.Mmap.System

/-!
# Two drivers for one major number

Both `mmap/code.c` and `ioctl/code.c` register the device `mmapchar` under the major number 150,
which the kernel gives to one driver at a time. The modules are loaded and unloaded in any order,
the steps of the one between those of the other; the module `mmap`, while it is in memory, makes the
steps of `Mmap.step`, its clients included. `register_chrdev` may fail at any time, and does while
the number is taken.

A `mmap_example_init` that has registered the device and then fails in `kmalloc` does not give the
number back, and the exit function of a module that was not loaded never runs: `major_number_taken`
says that this is the only way to lose the number, and that no load of either module succeeds after
it.
-/

namespace Lkb.Mmap

/-- The value that `mmap_example_init` has returned, if it has. -/
def InitPc.ret? : InitPc → Option ℤ
  | .returned ret => some ret
  | .registerChrdev | .kmalloc => none

end Lkb.Mmap

namespace Lkb.CharDevices

open Run Paging

variable {M : Machine}

/-- The two modules. -/
inductive Holder
  | mmap
  | ioctl
  deriving DecidableEq

/-- The points of `ioctl_init`, and of a module that is not loaded or is. -/
inductive IoctlPc
  | absent
  | registerChrdev
  | loaded
  deriving DecidableEq

/-- The one of the two drivers that has the major number, if one has, the state of the module
`mmap`, if it is in memory, that of `ioctl`, and the values that their initialisers have returned so
far. -/
structure Loader (M : Machine) where
  major : Option Holder
  mmap : Option (Mmap.State M)
  ioctl : IoctlPc
  returns : List (Holder × ℤ)

/-- A step of one of the modules, with what the kernel returns to it. -/
inductive LoaderEvent (M : Machine)
  | insmodMmap
  | mmap (e : Mmap.Event M)
  | insmodIoctl
  | ioctlRegister (ret : ℤ)
  | rmmodIoctl

/-- Neither module was ever loaded. -/
def boot (M : Machine) : Loader M := ⟨none, none, .absent, []⟩

namespace Loader

variable (s : Loader M)

/-- What `register_chrdev(majorNumber, ..)` may return: an error, if the number is taken. -/
def Answers (ret : ℤ) : Prop := s.major.isSome → ret < 0

/-- The answers of the kernel to a step of `mmap`. -/
def Allows : Mmap.Event M → Prop
  | .registerChrdev ret => s.Answers ret
  | _ => True

instance (ret : ℤ) : Decidable (s.Answers ret) := inferInstanceAs (Decidable (_ → _))

instance : (e : Mmap.Event M) → Decidable (s.Allows e)
  | .registerChrdev ret => inferInstanceAs (Decidable (s.Answers ret))
  | .kmalloc _ | .open _ | .mmap _ _ _ | .munmap _ | .close _ | .release _ | .exitKfree
  | .unregisterChrdev => isTrue trivial

/-- The driver that has the number after a step of `mmap`. -/
def majorAfter : Mmap.Event M → Option Holder
  | .registerChrdev ret => if ret < 0 then s.major else some .mmap
  | .unregisterChrdev => none
  | _ => s.major

end Loader

/-- The module after a step of its own. The kernel removes it from memory when its initialiser has
returned an error or its exit function has returned. -/
def keep (m : Mmap.State M) : Option (Mmap.State M) :=
  if m.init.ret?.any (· < 0) ∨ m.exit = .returned then none else some m

/-- The value that the initialiser returns in a step from `m` to `m'`, if it returns in it. -/
def returned (m m' : Mmap.State M) : List (Holder × ℤ) :=
  if m.init = m'.init then [] else m'.init.ret?.toList.map fun ret => (.mmap, ret)

/-- What a step of the module `mmap` from `m` to `m'` leads to. -/
def Loader.mmapStep (s : Loader M) (e : Mmap.Event M) (m m' : Mmap.State M) : Loader M :=
  { s with major := s.majorAfter e, mmap := keep m', returns := s.returns ++ returned m m' }

/-- What the return of `ioctl_init` leads to, where `register_chrdev` returns `ret`. -/
def Loader.ioctlReturn (s : Loader M) (ret : ℤ) : Loader M :=
  let value := (Ioctl.ioctlInit ret).1
  let returns := s.returns ++ [(.ioctl, value)]
  if value < 0 then { s with ioctl := .absent, returns }
  else { s with major := some .ioctl, ioctl := .loaded, returns }

/-- One step. -/
def loaderStep (s : Loader M) : LoaderEvent M → Option (Loader M)
  | .insmodMmap => if s.mmap.isNone then some { s with mmap := some (Mmap.load M) } else none
  | .mmap e =>
    if s.Allows e then s.mmap.bind fun m => (Mmap.step m e).map (s.mmapStep e m) else none
  | .insmodIoctl => if s.ioctl = .absent then some { s with ioctl := .registerChrdev } else none
  | .ioctlRegister ret =>
    if s.ioctl = .registerChrdev ∧ s.Answers ret then some (s.ioctlReturn ret) else none
  | .rmmodIoctl =>
    if s.ioctl = .loaded then some { s with major := none, ioctl := .absent } else none

variable {s s' : Loader M} {m m' : Mmap.State M} {e : LoaderEvent M} {es : List (LoaderEvent M)}

theorem loaderStep_mmap {e : Mmap.Event M} (hs : loaderStep s (.mmap e) = some s') :
    ∃ m, s.mmap = some m ∧ s.Allows e ∧ Mmap.enabled m e ∧
      s' = s.mmapStep e m (Mmap.effect m e) := by
  simp only [loaderStep, Option.ite_none_right_eq_some, Option.bind_eq_some_iff,
    Option.map_eq_some_iff, Mmap.step_eq_some] at hs
  obtain ⟨hallows, m, hm, m', ⟨hen, rfl⟩, rfl⟩ := hs
  exact ⟨m, hm, hallows, hen, rfl⟩

/-! ## The module `mmap` in memory -/

/-- Its initialiser has not returned an error and its exit function has not returned, and it has the
device registered from the first call of the one to the last of the other. -/
structure InMemory (m : Mmap.State M) : Prop where
  init : m.init = .registerChrdev ∧ m.registered = false ∨
    (m.init = .kmalloc ∨ m.init = .returned 0) ∧ m.registered = true
  exit : m.exit = .notBegun ∨ m.exit = .unregister ∧ m.init = .returned 0

theorem inMemory_load : InMemory (Mmap.load M) := ⟨.inl ⟨rfl, rfl⟩, .inl rfl⟩

theorem InMemory.registered_of_ne (h : InMemory m) (hne : m.init ≠ .registerChrdev) :
    m.registered = true := by
  rcases h.init with ⟨hinit, -⟩ | ⟨-, hreg⟩
  · exact absurd hinit hne
  · exact hreg

theorem InMemory.not_registered_iff (h : InMemory m) :
    m.registered = false ↔ m.init = .registerChrdev := by
  rcases h.init with ⟨hinit, hreg⟩ | ⟨hinit | hinit, hreg⟩ <;> simp [hinit, hreg]

theorem InMemory.keep_eq (h : InMemory m) : keep m = some m := by
  have hexit : m.exit ≠ .returned := by
    rcases h.exit with hexit | ⟨hexit, -⟩ <;> simp [hexit]
  rcases h.init with ⟨hinit, -⟩ | ⟨hinit | hinit, -⟩ <;> simp [keep, Mmap.InitPc.ret?, hinit, hexit]

theorem InMemory.congr (h : InMemory m) (hinit : m'.init = m.init) (hexit : m'.exit = m.exit)
    (hreg : m'.registered = m.registered) : InMemory m' :=
  ⟨by rw [hinit, hreg]; exact h.init, by rw [hexit, hinit]; exact h.exit⟩

/-- The steps between the first and the last: those of the clients, and of the buffer. -/
def Inner : Mmap.Event M → Prop
  | .registerChrdev _ | .kmalloc none | .unregisterChrdev => False
  | _ => True

/-- An inner step leaves the module in memory, and registered if it was. -/
theorem InMemory.preserved {e : Mmap.Event M} (h : InMemory m) (hen : Mmap.enabled m e)
    (he : Inner e) :
    InMemory (Mmap.effect m e) ∧ (Mmap.effect m e).registered = m.registered := by
  cases e with
  | registerChrdev ret | unregisterChrdev => exact he.elim
  | kmalloc mem =>
    cases mem with
    | none => exact he.elim
    | some b =>
      have hreg := h.registered_of_ne (by rw [hen.1]; decide)
      exact ⟨⟨.inr ⟨.inr rfl, hreg⟩, h.exit.imp_right fun hexit => ⟨hexit.1, rfl⟩⟩, rfl⟩
  | exitKfree =>
    have hreg := h.registered_of_ne (by rw [hen.1]; decide)
    have hsame : m.freeBuffer.init = m.init ∧ m.freeBuffer.registered = m.registered := by
      rw [Mmap.State.freeBuffer]
      split_ifs <;> exact ⟨rfl, rfl⟩
    have hinit : m.freeBuffer.init = .returned 0 := hsame.1.trans hen.1
    exact ⟨⟨.inr ⟨.inr hinit, hsame.2.trans hreg⟩, .inr ⟨rfl, hinit⟩⟩, hsame.2⟩
  | release f =>
    have hsame : (Mmap.effect m (.release f)).init = m.init ∧
        (Mmap.effect m (.release f)).exit = m.exit ∧
        (Mmap.effect m (.release f)).registered = m.registered := by
      simp only [Mmap.effect, Mmap.State.freeBuffer]
      split_ifs <;> exact ⟨rfl, rfl, rfl⟩
    exact ⟨h.congr hsame.1 hsame.2.1 hsame.2.2, hsame.2.2⟩
  | «open» f | mmap f vma remapped | munmap i | close f => exact ⟨h.congr rfl rfl rfl, rfl⟩

/-- The module `mmap` is as it must be, if it is in memory. -/
def Loader.Sound (s : Loader M) : Prop := ∀ m ∈ s.mmap, InMemory m

namespace Loader

/-- The module `mmap` is in memory and has the device registered. -/
def mmapRegistered (s : Loader M) : Bool := s.mmap.any (·.registered)

/-- The module `mmap` is loaded: its initialiser has returned 0. -/
def mmapLoaded (s : Loader M) : Bool := s.mmap.any (·.init = .returned 0)

end Loader

/-! ## What a step does to the number -/

/-- A step leaves the number with whom it is, or one of the modules takes it, gives it back, or
forgets to give it back. -/
inductive Change (s s' : Loader M) (e : LoaderEvent M) : Prop
  | none (hmajor : s'.major = s.major) (hm : s'.mmapRegistered = s.mmapRegistered)
      (hi : s'.ioctl = .loaded ↔ s.ioctl = .loaded) (he : e ≠ .mmap (.kmalloc none))
      (hreturns : ∃ l, s'.returns = s.returns ++ l ∧
        (s.mmapRegistered = false → ∀ x ∈ l, x.2 < 0))
  | mmapTakes (hmajor : s.major = none) (hmajor' : s'.major = some .mmap)
      (hm' : s'.mmapRegistered = true) (hi : s'.ioctl = s.ioctl) (he : e ≠ .mmap (.kmalloc none))
  | mmapGives (hm : s.mmapRegistered = true) (hmajor' : s'.major = none)
      (hm' : s'.mmapRegistered = false) (hi : s'.ioctl = s.ioctl) (he : e ≠ .mmap (.kmalloc none))
  | mmapForgets (hm : s.mmapRegistered = true) (hmajor' : s'.major = s.major)
      (hm' : s'.mmapRegistered = false) (hi : s'.ioctl = s.ioctl) (he : e = .mmap (.kmalloc none))
  | ioctlTakes (hmajor : s.major = none) (hmajor' : s'.major = some .ioctl)
      (hm : s'.mmapRegistered = s.mmapRegistered) (hi' : s'.ioctl = .loaded)
      (he : e ≠ .mmap (.kmalloc none))
  | ioctlGives (hi : s.ioctl = .loaded) (hmajor' : s'.major = none)
      (hm : s'.mmapRegistered = s.mmapRegistered) (hi' : s'.ioctl ≠ .loaded)
      (he : e ≠ .mmap (.kmalloc none))

theorem mmapRegistered_of_mmap (hm : s.mmap = some m) : s.mmapRegistered = m.registered := by
  rw [Loader.mmapRegistered, hm, Option.any_some]

theorem mmapRegistered_of_none (hm : s.mmap = none) : s.mmapRegistered = false := by
  rw [Loader.mmapRegistered, hm, Option.any_none]

theorem sound_of_mmap (hm : s.mmap = some m) (hmem : InMemory m) : s.Sound := by
  intro x hx
  rw [hm] at hx
  obtain rfl := Option.some.inj hx
  exact hmem

/-- `register_chrdev` succeeds only while neither module has the number. -/
theorem Loader.Answers.free {ret : ℤ} (h : s.Answers ret) (hret : ¬ret < 0) : s.major = none := by
  by_contra hne
  exact hret (h (Option.isSome_iff_ne_none.2 hne))

/-- An inner step of `mmap`. -/
theorem change_of_inner {e : Mmap.Event M} (hm : s.mmap = some m) (hmem : InMemory m)
    (hen : Mmap.enabled m e) (he : Inner e) :
    (s.mmapStep e m (Mmap.effect m e)).Sound ∧
      Change s (s.mmapStep e m (Mmap.effect m e)) (.mmap e) := by
  obtain ⟨hmem', hreg⟩ := hmem.preserved hen he
  have hkeep : (s.mmapStep e m (Mmap.effect m e)).mmap = some (Mmap.effect m e) := hmem'.keep_eq
  have hne : LoaderEvent.mmap e ≠ .mmap (.kmalloc none) := by
    rintro ⟨⟩
    exact he
  have hmajor : s.majorAfter e = s.major := by
    cases e with
    | registerChrdev ret | unregisterChrdev => exact he.elim
    | _ => rfl
  refine ⟨sound_of_mmap hkeep hmem', .none hmajor ?_ .rfl hne ⟨_, rfl, fun hnot => ?_⟩⟩
  · rw [mmapRegistered_of_mmap hkeep, mmapRegistered_of_mmap hm, hreg]
  · -- what is not registered does not return
    rw [mmapRegistered_of_mmap hm] at hnot
    have hinit : m.init = (Mmap.effect m e).init :=
      (hmem.not_registered_iff.1 hnot).trans (hmem'.not_registered_iff.1 (hreg.trans hnot)).symm
    simp [returned, hinit]

/-- `register_chrdev` in `mmap_example_init`. -/
theorem change_of_register {ret : ℤ} (hm : s.mmap = some m) (hmem : InMemory m)
    (hret : s.Answers ret) (hinit : m.init = .registerChrdev) :
    (s.mmapStep (.registerChrdev ret) m (Mmap.effect m (.registerChrdev ret))).Sound ∧
      Change s (s.mmapStep (.registerChrdev ret) m (Mmap.effect m (.registerChrdev ret)))
        (.mmap (.registerChrdev ret)) := by
  have hreg : s.mmapRegistered = false := by
    rw [mmapRegistered_of_mmap hm]
    exact hmem.not_registered_iff.2 hinit
  by_cases hneg : ret < 0
  · -- the module is removed again
    have hinit' : (Mmap.effect m (.registerChrdev ret)).init = .returned ret := by
      simp [Mmap.effect, hneg]
    generalize Mmap.effect m (.registerChrdev ret) = m' at hinit' ⊢
    have hgone : keep m' = none := by simp [keep, hinit', Mmap.InitPc.ret?, hneg]
    have hreturned : returned m m' = [(.mmap, ret)] := by
      simp [returned, hinit, hinit', Mmap.InitPc.ret?]
    refine ⟨by simp [Loader.Sound, Loader.mmapStep, hgone], .none ?_ ?_ .rfl (by simp)
      ⟨[(.mmap, ret)], ?_, by simp [hneg]⟩⟩
    · exact if_pos hneg
    · rw [hreg]
      exact mmapRegistered_of_none hgone
    · rw [Loader.mmapStep, hreturned]
  · have hmem' : InMemory (Mmap.effect m (.registerChrdev ret)) := by
      refine ⟨.inr ⟨.inl ?_, ?_⟩, .inl ?_⟩
      · simp [Mmap.effect, hneg]
      · simp [Mmap.effect, hneg]
      · simpa [Mmap.effect, hneg, hinit, Mmap.State.printk] using hmem.exit
    have hreg' : (Mmap.effect m (.registerChrdev ret)).registered = true := by
      simp [Mmap.effect, hneg]
    generalize Mmap.effect m (.registerChrdev ret) = m' at hmem' hreg' ⊢
    have hkeep : (s.mmapStep (.registerChrdev ret) m m').mmap = some m' := hmem'.keep_eq
    refine ⟨sound_of_mmap hkeep hmem', .mmapTakes (hret.free hneg) (if_neg hneg) ?_ rfl (by simp)⟩
    rw [mmapRegistered_of_mmap hkeep, hreg']

/-- Every step of `mmap`. -/
theorem change_of_mmap {e : Mmap.Event M} (hm : s.mmap = some m) (hmem : InMemory m)
    (hallows : s.Allows e) (hen : Mmap.enabled m e) :
    (s.mmapStep e m (Mmap.effect m e)).Sound ∧
      Change s (s.mmapStep e m (Mmap.effect m e)) (.mmap e) := by
  by_cases hinner : Inner e
  · exact change_of_inner hm hmem hen hinner
  · cases e with
    | registerChrdev ret => exact change_of_register hm hmem hallows hen
    | kmalloc mem =>
      cases mem with
      | some b => exact absurd trivial hinner
      | none =>
        have hreg := hmem.registered_of_ne (by rw [hen.1]; decide)
        refine ⟨nofun, .mmapForgets ?_ rfl (mmapRegistered_of_none rfl) rfl rfl⟩
        rw [mmapRegistered_of_mmap hm, hreg]
    | unregisterChrdev =>
      have hloaded : m.init = .returned 0 := by
        simpa [show m.exit = .unregister from hen] using hmem.exit
      have hreg := hmem.registered_of_ne (by rw [hloaded]; decide)
      have hgone : (s.mmapStep .unregisterChrdev m (Mmap.effect m .unregisterChrdev)).mmap = none :=
        if_pos (.inr rfl)
      refine ⟨?_, .mmapGives ?_ rfl (mmapRegistered_of_none hgone) rfl nofun⟩
      · rw [Loader.Sound, hgone]
        nofun
      · rw [mmapRegistered_of_mmap hm, hreg]
    | _ => exact absurd trivial hinner

/-- `register_chrdev` in `ioctl_init`. -/
theorem change_of_ioctlReturn {ret : ℤ} (hpc : s.ioctl = .registerChrdev) (hret : s.Answers ret) :
    Change s (s.ioctlReturn ret) (.ioctlRegister ret) := by
  by_cases hneg : ret < 0
  · have hinit : (Ioctl.ioctlInit ret).1 = ret := by simp [Ioctl.ioctlInit, hneg]
    have hs' : s.ioctlReturn ret =
        { s with ioctl := .absent, returns := s.returns ++ [(.ioctl, ret)] } := by
      simp [Loader.ioctlReturn, hinit, hneg]
    rw [hs']
    exact .none rfl rfl (by simp [hpc]) nofun ⟨_, rfl, by simp [hneg]⟩
  · have hinit : (Ioctl.ioctlInit ret).1 = 0 := by simp [Ioctl.ioctlInit, hneg]
    have hs' : s.ioctlReturn ret = { s with
        major := some .ioctl, ioctl := .loaded, returns := s.returns ++ [(.ioctl, 0)] } := by
      simp [Loader.ioctlReturn, hinit]
    rw [hs']
    exact .ioctlTakes (hret.free hneg) rfl rfl rfl nofun

/-- What a step can do. -/
theorem change_of_loaderStep (h : s.Sound) (hs : loaderStep s e = some s') :
    s'.Sound ∧ Change s s' e := by
  cases e with
  | insmodMmap =>
    simp only [loaderStep, Option.ite_none_right_eq_some, Option.some.injEq,
      Option.isNone_iff_eq_none] at hs
    obtain ⟨hm, rfl⟩ := hs
    refine ⟨sound_of_mmap rfl inMemory_load, .none rfl ?_ .rfl nofun ⟨[], by simp⟩⟩
    rw [mmapRegistered_of_mmap rfl, mmapRegistered_of_none hm]
    rfl
  | mmap e =>
    obtain ⟨m, hm, hallows, hen, rfl⟩ := loaderStep_mmap hs
    exact change_of_mmap hm (h m hm) hallows hen
  | insmodIoctl =>
    simp only [loaderStep, Option.ite_none_right_eq_some, Option.some.injEq] at hs
    obtain ⟨hpc, rfl⟩ := hs
    exact ⟨h, .none rfl rfl (by simp [hpc]) nofun ⟨[], by simp⟩⟩
  | ioctlRegister ret =>
    simp only [loaderStep, Option.ite_none_right_eq_some, Option.some.injEq] at hs
    obtain ⟨⟨hpc, hret⟩, rfl⟩ := hs
    refine ⟨?_, change_of_ioctlReturn hpc hret⟩
    have hsame : (s.ioctlReturn ret).mmap = s.mmap := by
      rw [Loader.ioctlReturn]
      split_ifs <;> rfl
    rwa [Loader.Sound, hsame]
  | rmmodIoctl =>
    simp only [loaderStep, Option.ite_none_right_eq_some, Option.some.injEq] at hs
    obtain ⟨hpc, rfl⟩ := hs
    exact ⟨h, .ioctlGives hpc rfl rfl nofun nofun⟩

/-! ## Who has the number -/

/-- The driver that has the number, whether `mmap` has the device registered, and whether `ioctl`
is loaded. -/
inductive Held (s : Loader M) : Prop
  | free (hmajor : s.major = none) (hm : s.mmapRegistered = false) (hi : s.ioctl ≠ .loaded)
  | ioctl (hmajor : s.major = some .ioctl) (hm : s.mmapRegistered = false) (hi : s.ioctl = .loaded)
  | mmap (hmajor : s.major = some .mmap) (hm : s.mmapRegistered = true) (hi : s.ioctl ≠ .loaded)
  | lost (hmajor : s.major = some .mmap) (hm : s.mmapRegistered = false) (hi : s.ioctl ≠ .loaded)

/-- The number is with a module that does not have the device registered any more. -/
def Loader.Lost (s : Loader M) : Prop := s.major = some .mmap ∧ s.mmapRegistered = false

theorem held_boot : Held (boot M) := .free rfl rfl nofun

/-- While `mmap` has the device registered, the number is its own. -/
theorem Held.of_registered (h : Held s) (hm : s.mmapRegistered = true) :
    s.major = some .mmap ∧ s.ioctl ≠ .loaded := by
  cases h with
  | mmap hmajor _ hi => exact ⟨hmajor, hi⟩
  | free _ hm' | ioctl _ hm' | lost _ hm' => simp [hm'] at hm

/-- While `ioctl` is loaded, the number is its own. -/
theorem Held.of_loaded (h : Held s) (hi : s.ioctl = .loaded) :
    s.major = some .ioctl ∧ s.mmapRegistered = false := by
  cases h with
  | ioctl hmajor hm _ => exact ⟨hmajor, hm⟩
  | free _ _ hi' | mmap _ _ hi' | lost _ _ hi' => exact absurd hi hi'

theorem Held.of_free (h : Held s) (hmajor : s.major = none) :
    s.mmapRegistered = false ∧ s.ioctl ≠ .loaded := by
  cases h with
  | free _ hm hi => exact ⟨hm, hi⟩
  | ioctl hmajor' | mmap hmajor' | lost hmajor' => simp [hmajor] at hmajor'

/-- A step keeps the invariant, and loses the number exactly when `kmalloc` fails. -/
theorem Held.preserved (h : Held s) (hc : Change s s' e) :
    Held s' ∧ (s'.Lost ↔ s.Lost ∨ e = .mmap (.kmalloc none)) := by
  cases hc with
  | none hmajor hm hi he =>
    refine ⟨?_, by simp [Loader.Lost, hmajor, hm, he]⟩
    cases h with
    | free hmajor' hm' hi' => exact .free (hmajor.trans hmajor') (hm.trans hm') (mt hi.1 hi')
    | ioctl hmajor' hm' hi' => exact .ioctl (hmajor.trans hmajor') (hm.trans hm') (hi.2 hi')
    | mmap hmajor' hm' hi' => exact .mmap (hmajor.trans hmajor') (hm.trans hm') (mt hi.1 hi')
    | lost hmajor' hm' hi' => exact .lost (hmajor.trans hmajor') (hm.trans hm') (mt hi.1 hi')
  | mmapTakes hmajor hmajor' hm' hi he =>
    refine ⟨.mmap hmajor' hm' (hi ▸ (h.of_free hmajor).2), ?_⟩
    simp [Loader.Lost, hm', hmajor, he]
  | mmapGives hm hmajor' hm' hi he =>
    refine ⟨.free hmajor' hm' (hi ▸ (h.of_registered hm).2), ?_⟩
    simp [Loader.Lost, hmajor', hm, he]
  | mmapForgets hm hmajor' hm' hi he =>
    obtain ⟨hmajor, hioctl⟩ := h.of_registered hm
    refine ⟨.lost (hmajor'.trans hmajor) hm' (hi ▸ hioctl), ?_⟩
    simp [Loader.Lost, hmajor', hmajor, hm', he]
  | ioctlTakes hmajor hmajor' hm hi' he =>
    refine ⟨.ioctl hmajor' (hm.trans (h.of_free hmajor).1) hi', ?_⟩
    simp [Loader.Lost, hmajor', hmajor, he]
  | ioctlGives hi hmajor' hm hi' he =>
    obtain ⟨hmajor, hreg⟩ := h.of_loaded hi
    refine ⟨.free hmajor' (hm.trans hreg) hi', ?_⟩
    simp [Loader.Lost, hmajor', hmajor, he]

/-- When the number is lost, an initialiser that returns returns an error. -/
theorem Held.returns_of_lost (h : Held s) (hc : Change s s' e) (hlost : s.Lost) :
    ∃ l, s'.returns = s.returns ++ l ∧ ∀ x ∈ l, x.2 < 0 := by
  obtain ⟨hmajor, hm⟩ := hlost
  cases hc with
  | none _ _ _ _ hreturns =>
    obtain ⟨l, hl, hneg⟩ := hreturns
    exact ⟨l, hl, hneg hm⟩
  | mmapTakes hfree | ioctlTakes hfree => simp [hmajor] at hfree
  | mmapGives hreg | mmapForgets hreg => simp [hm] at hreg
  | ioctlGives hi => simp [(h.of_loaded hi).1] at hmajor

/-! ## Runs -/

theorem held_of_runs (hrun : Runs loaderStep s es s') (hsound : s.Sound) (h : Held s) :
    s'.Sound ∧ Held s' ∧ (s'.Lost ↔ s.Lost ∨ .mmap (.kmalloc none) ∈ es) := by
  induction es generalizing s with
  | nil =>
    obtain rfl := runs_nil.1 hrun
    simp [hsound, h]
  | cons e es ih =>
    obtain ⟨t, hs, hrun⟩ := runs_cons.1 hrun
    obtain ⟨hsound', hc⟩ := change_of_loaderStep hsound hs
    obtain ⟨h', hlost⟩ := h.preserved hc
    obtain ⟨hsound'', h'', hlost'⟩ := ih hrun hsound' h'
    refine ⟨hsound'', h'', ?_⟩
    rw [hlost', hlost, List.mem_cons, or_assoc, eq_comm (a := e)]

/-- The values that the initialisers return once the number is lost. -/
theorem returns_of_runs (hrun : Runs loaderStep s es s') (hsound : s.Sound) (h : Held s)
    (hlost : s.Lost) : ∃ l, s'.returns = s.returns ++ l ∧ ∀ x ∈ l, x.2 < 0 := by
  induction es generalizing s with
  | nil =>
    obtain rfl := runs_nil.1 hrun
    exact ⟨[], by simp⟩
  | cons e es ih =>
    obtain ⟨t, hs, hrun⟩ := runs_cons.1 hrun
    obtain ⟨hsound', hc⟩ := change_of_loaderStep hsound hs
    obtain ⟨h', hiff⟩ := h.preserved hc
    obtain ⟨l, hl, hneg⟩ := h.returns_of_lost hc hlost
    obtain ⟨l', hl', hneg'⟩ := ih hrun hsound' h' (hiff.2 (.inl hlost))
    refine ⟨l ++ l', by rw [hl', hl, List.append_assoc], fun x hx => ?_⟩
    exact (List.mem_append.1 hx).elim (hneg x) (hneg' x)

/-- What is loaded has the device registered. -/
theorem Loader.Sound.registered_of_loaded (h : s.Sound) (hloaded : s.mmapLoaded) :
    s.mmapRegistered = true := by
  rw [Loader.mmapLoaded, Option.any_eq_true] at hloaded
  obtain ⟨m, hm, hinit⟩ := hloaded
  rw [mmapRegistered_of_mmap hm]
  refine (h m hm).registered_of_ne ?_
  rw [of_decide_eq_true hinit]
  decide

/-- **The two modules and their major number.** In every run the two are never loaded at the same
time. The number is with neither of them exactly while neither has the device registered and no
`mmap_example_init` has failed in `kmalloc`; after such a failure neither module is ever loaded
again, and every initialiser returns an error. -/
theorem major_number_taken (es : List (LoaderEvent M)) (s : Loader M)
    (hrun : Runs loaderStep (boot M) es s) :
    ¬(s.mmapLoaded ∧ s.ioctl = .loaded) ∧
    (s.major = none ↔
      s.mmapRegistered = false ∧ s.ioctl ≠ .loaded ∧ .mmap (.kmalloc none) ∉ es) ∧
    (.mmap (.kmalloc none) ∈ es → ∀ es' s', Runs loaderStep s es' s' →
      s'.mmapLoaded = false ∧ s'.ioctl ≠ .loaded ∧
      ∃ l, s'.returns = s.returns ++ l ∧ ∀ x ∈ l, x.2 < 0) := by
  obtain ⟨hsound, h, hlost⟩ := held_of_runs hrun nofun held_boot
  have hnot : ¬(boot M).Lost := nofun
  rw [or_iff_right hnot] at hlost
  refine ⟨?_, ?_, fun hmem es' s' hrun' => ?_⟩
  · rintro ⟨hmmap, hioctl⟩
    have hreg := (h.of_loaded hioctl).2
    rw [hsound.registered_of_loaded hmmap] at hreg
    cases hreg
  · rw [← hlost]
    cases h with
    | free hmajor hm hi => simp [Loader.Lost, hmajor, hm, hi]
    | ioctl hmajor _ hi => simp [hmajor, hi]
    | mmap hmajor hm => simp [hmajor, hm]
    | lost hmajor hm => simp [Loader.Lost, hmajor, hm]
  · have hL := hlost.2 hmem
    obtain ⟨hsound', h', hlost'⟩ := held_of_runs hrun' hsound h
    obtain ⟨hmajor, hreg⟩ := hlost'.2 (.inl hL)
    refine ⟨?_, fun hi => ?_, returns_of_runs hrun' hsound h hL⟩
    · by_contra hne
      rw [hsound'.registered_of_loaded (by simpa using hne)] at hreg
      cases hreg
    · rw [(h'.of_loaded hi).1] at hmajor
      cases hmajor

/-- The module `mmap` fails to load in `kmalloc`. -/
def lostRun : List (LoaderEvent Mmap.x8664) :=
  [.insmodMmap, .mmap (.registerChrdev 0), .mmap (.kmalloc none)]

/-- The state that this leads to. -/
def lost : Loader Mmap.x8664 := ⟨some .mmap, none, .absent, [(.mmap, -1)]⟩

/-- A load of `ioctl` is then refused, and so is every other. -/
theorem major_number_taken_lost :
    Runs loaderStep (boot Mmap.x8664) lostRun lost ∧
    Runs loaderStep lost [.insmodIoctl, .ioctlRegister (-16)]
      { lost with returns := [(.mmap, -1), (.ioctl, -16)] } ∧
    ∀ es' s', Runs loaderStep lost es' s' → s'.mmapLoaded = false ∧ s'.ioctl ≠ .loaded ∧
      ∃ l, s'.returns = [(.mmap, -1)] ++ l ∧ ∀ x ∈ l, x.2 < 0 :=
  ⟨rfl, rfl, (major_number_taken lostRun lost rfl).2.2 (by simp [lostRun])⟩

end Lkb.CharDevices
