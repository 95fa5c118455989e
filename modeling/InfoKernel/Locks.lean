import InfoKernel.Fault
import InfoKernel.Lib.Locking

/-!
# The locks of the kernel

The locks that the operations of the scheduler, of the console and of the disk driver take,
and the programs that take them.  The other models leave `lock` and `unlock` out, because
`SpinLock::lock` never waits; these record them, and say what each thread holds.
-/

namespace InfoKernel

/-- `cfs::sched.lock`, `tty_lock` and `ide_lock` -/
inductive LockId where
  | sched
  | tty
  | ide
  deriving DecidableEq

/-- The operations of the kernel on data of type `σ`, with the locks that they take. -/
abbrev Locked (σ α : Type) := Lib.Locking LockId σ Fault α

end InfoKernel
