import Lkb.Foundations.CharDevice
import Lkb.Foundations.Uaccess
import Mathlib.Data.Int.Notation

/-!
# The driver of `ioctl/code.c`

The method `dev_ioctl` on a 64-bit machine, as a function of the command, the argument and the
memory of the calling process, and the table `fops` of the driver, for any implementation of
`copy_from_user` and `copy_to_user`. The command numbers are what the macros `_IOR`, `_IO` and
`_IOW` make of the magic `'q'`, a sequence number and the type `int *`.
-/

namespace Lkb.Ioctl

open Uaccess

/-- The error number that `dev_ioctl` returns, negated, when a copy fails. -/
def EACCES : ℤ := 13

/-- The size of an `unsigned long`, and of an `int *`. -/
def sizeofLong : ℕ := 8

/-- `_IOC(dir, type, nr, size)`. -/
def ioc (dir type nr size : ℕ) : BitVec 32 :=
  BitVec.ofNat 32 (dir * 2 ^ 30 + size * 2 ^ 16 + type * 2 ^ 8 + nr)

/-- The magic `'q'`. -/
def magic : ℕ := 113

/-- `_IOR('q', 1, int *)`. -/
def QUERY_GET_VARIABLES : BitVec 32 := ioc 2 magic 1 sizeofLong

/-- `_IO('q', 2)`. -/
def QUERY_CLR_VARIABLES : BitVec 32 := ioc 0 magic 2 0

/-- `_IOW('q', 3, int *)`. -/
def QUERY_SET_VARIABLES : BitVec 32 := ioc 1 magic 3 sizeofLong

/-- The global `majorNumber`. -/
def majorNumber : ℤ := 150

/-- The lines that the module prints. -/
inductive Message
  | registerFailed (ret : ℤ)
  | registered (majorNumber : ℤ)
  | deviceOpened
  | deviceClosed
  | copyToUserFailed
  | clrVariables
  | copyFromUserFailed
  | got (x : BitVec 64)
  | noMatchingIoctl
  | goodbye
  deriving DecidableEq

/-- What a call of `dev_ioctl` does: the value it returns, the memory of the process after it, the
variable `x`, if it was set, and the lines it prints. -/
structure DevIoctl where
  rc : ℤ
  user : UserMemory
  x : Option (BitVec 64)
  log : List Message

/-- The local variable `a` of `dev_ioctl`. -/
def a : BitVec 64 := 14

/-- `dev_ioctl(filep, cmd, arg)`, called by a process with the memory `user`. -/
def devIoctl (U : Copies) (cmd : BitVec 32) (arg : BitVec 64) (user : UserMemory) : DevIoctl :=
  if cmd = QUERY_GET_VARIABLES then
    let (user, left) := U.copyToUser user arg (toBytes a)
    if left ≠ 0 then ⟨-EACCES, user, none, [.copyToUserFailed]⟩ else ⟨0, user, none, []⟩
  else if cmd = QUERY_CLR_VARIABLES then ⟨0, user, none, [.clrVariables]⟩
  else if cmd = QUERY_SET_VARIABLES then
    let (bytes, left) := U.copyFromUser user arg sizeofLong
    if left ≠ 0 then ⟨-EACCES, user, none, [.copyFromUserFailed]⟩
    else
      let x := BitVec.ofNat 64 (ofBytes bytes)
      ⟨0, user, some x, [.got x]⟩
  else ⟨0, user, none, [.noMatchingIoctl]⟩

/-- `ioctl_init()`, where `register_chrdev` returns `ret`: the value it returns, and the lines it
prints. -/
def ioctlInit (ret : ℤ) : ℤ × List Message :=
  if ret < 0 then (ret, [.registerFailed ret]) else (0, [.registered majorNumber])

/-- A request on a file of the device. -/
structure Request where
  cmd : BitVec 32
  arg : BitVec 64
  user : UserMemory

/-- The table `fops` and `ioctl_exit`, where the state of the driver is the lines it has printed.
The field `owner` is not set. -/
def fops (U : Copies) : CharDevice.Driver (List Message) Request where
  owner := false
  «open» log := log ++ [.deviceOpened]
  request _ r log := (log ++ (devIoctl U r.cmd r.arg r.user).log, false)
  release log := log ++ [.deviceClosed]
  exit log := log
  unregister log := log ++ [.goodbye]

end Lkb.Ioctl
