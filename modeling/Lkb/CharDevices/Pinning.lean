import Lkb.Foundations.CharDevice
import Lkb.Ioctl.Driver
import Lkb.Mmap.System

/-!
# The drivers of `mmap` and `ioctl` are not pinned by their files

Neither `mmap/code.c` nor `ioctl/code.c` sets `file_operations.owner`, so an open file of the device
holds no reference on the module, and `rmmod` runs the exit function while clients have the device
open (`dispatch_after_exit`). `safe_iff_exit_when_idle` says that the removal is never refused, and
what this leaves to the administrator; `safe_with_owner` says that the missing field is all there is
to it.
-/

namespace Lkb.Mmap

open Paging

variable {M : Machine}

/-- The module after `mmap_example_init` has returned 0. -/
def loaded (b : Buffer M) : State M :=
  effect (effect (load M) (.registerChrdev 0)) (.kmalloc (some b))

/-- The table `fops` and `mmap_example_exit`. A request is a call of `mmap`, with what
`remap_pfn_range` returns. The field `owner` is not set. -/
def fops (M : Machine) : CharDevice.Driver (State M) (VmAreaStruct M × ℤ) where
  owner := false
  «open» s := s.printk [.deviceOpened]
  request f r s := (s.dispatchMmap f r.1 r.2, (devMmap s.buffer r.1 r.2).mapping.isSome)
  release s := s.freeBuffer.printk [.deviceClosed]
  exit s := effect s .exitKfree
  unregister s := effect s .unregisterChrdev

end Lkb.Mmap

namespace Lkb.CharDevices

open CharDevice Run Paging

/-- What it takes to remove a driver. -/
structure SafeWhenIdle {σ ι : Type*} (D : Driver σ ι) : Prop where
  /-- If the exit function takes the device away only while no file is in use, then no method of the
  driver is called after it. -/
  safe : ∀ (d : σ) (es : List (Event ι)),
    Along (step D) ExitWhenIdle (load d) es → Along (step D) NoDispatchAfterExit (load d) es
  /-- A run that leaves no file in use and calls no method of the driver after the exit function has
  met this condition. -/
  only : ∀ (d : σ) (es : List (Event ι)) (s : State σ), Runs (step D) (load d) es s → s.Idle →
    Along (step D) NoDispatchAfterExit (load d) es → Along (step D) ExitWhenIdle (load d) es
  /-- The removal can begin and end at once in every state, whatever files are in use, and no method
  of the driver is called in any run after it exactly if none was. -/
  removal : ∀ (d : σ) (es : List (Event ι)) (s : State σ), Runs (step D) (load d) es s →
    s.exit = .notBegun → ∃ s', Runs (step D) s [.rmmod, .unregister] s' ∧
      ((∀ es', Along (step D) NoDispatchAfterExit s' es') ↔ s.Idle)

/-- Drivers that do not name their owner. -/
theorem safeWhenIdle_of_not_owner {σ ι : Type*} {D : Driver σ ι} (howner : D.owner = false) :
    SafeWhenIdle D where
  safe _ _ := safe_of_idle
  only _ _ _ := idle_of_safe
  removal _ _ _ := removal_of_not_owner howner

/-- **When the drivers can be removed.** For both drivers, no method is called after the exit
function in every run in which the exit function takes the device away only while no file of the
device is open, or closed and not yet released; and of the runs that leave no such file behind, only
in these. `rmmod` is not refused while there are such files, and then some run calls a method after
the exit function. -/
theorem safe_iff_exit_when_idle (M : Machine) (U : Uaccess.Copies) :
    SafeWhenIdle (Ioctl.fops U) ∧ SafeWhenIdle (Mmap.fops M) :=
  ⟨safeWhenIdle_of_not_owner rfl, safeWhenIdle_of_not_owner rfl⟩

/-- With the field `owner` set, both drivers are safe in every run. -/
theorem safe_with_owner (M : Machine) (U : Uaccess.Copies) :
    (∀ d es, Along (step { Ioctl.fops U with owner := true }) NoDispatchAfterExit (load d) es) ∧
    ∀ d es, Along (step { Mmap.fops M with owner := true }) NoDispatchAfterExit (load d) es :=
  ⟨safe_of_owner rfl, safe_of_owner rfl⟩

/-- The memory of a process with access to all of it. -/
def zeroMemory : Uaccess.UserMemory := ⟨fun _ => 0, fun _ => true, fun _ => true⟩

/-- A client opens the device, calls `ioctl` and closes it, and then the module is removed. -/
theorem safe_iff_exit_when_idle_sample :
    Along (step (Ioctl.fops .allOrNothing)) NoDispatchAfterExit (load (Ioctl.ioctlInit 0).2)
      [.open 0, .request 0 ⟨Ioctl.QUERY_CLR_VARIABLES, 0, zeroMemory⟩, .close 0, .release 0,
        .rmmod, .unregister] :=
  (safe_iff_exit_when_idle Mmap.x8664 .allOrNothing).1.safe _ _ (by decide)

/-- A client has the device open when `rmmod` runs the exit function. It then calls `ioctl`, or
closes the file. -/
theorem dispatch_after_exit :
    ¬Along (step (Ioctl.fops .allOrNothing)) NoDispatchAfterExit (load (Ioctl.ioctlInit 0).2)
      [.open 0, .rmmod, .unregister, .request 0 ⟨Ioctl.QUERY_CLR_VARIABLES, 0, zeroMemory⟩] ∧
    ¬Along (step (Mmap.fops Mmap.x8664)) NoDispatchAfterExit (load (Mmap.loaded .sample))
      [.open 0, .rmmod, .unregister, .close 0, .release 0] := by
  constructor
  · decide
  · decide

end Lkb.CharDevices
