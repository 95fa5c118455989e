import InfoKernel.Fault
import Mathlib.Logic.Function.Basic

/-!
# Tasks

The part of `include/kernel/task.h` that every task-level module reads: the
states of a task, its flags, and the process control blocks.

A `Pcb *` is a `PcbId`, a possibly null one an `Option PcbId`.  The control blocks
are kept field by field: `PcbTable` has one map for each field of `Pcb`, from the
control block to the value of that field.  An assignment `pcb->stat = Ready`
updates one map at one place, so that it is visible in the type of the new state
that no other field has changed.
-/

namespace InfoKernel.Task

/-- The address of a `Pcb`. -/
abbrev PcbId := Nat

/-- `enum State`. -/
inductive State where
  | running
  | ready
  | blocked
  | zombie
  | dead
  deriving DecidableEq, Repr

/-- `THREAD_KERNEL`. -/
def threadKernel : Nat := 1 <<< 3

/-- The address of a `Message` object.  Every caller of `ipc::Send` and
`ipc::Receive` passes a local variable, which lies on the kernel stack of the
calling task: the address names the task and tells its objects apart. -/
structure MsgPtr where
  owner : PcbId
  slot : Nat
  deriving DecidableEq, Repr

/-- The process control blocks, one map for each field of `Pcb`. -/
structure PcbTable where
  pid : PcbId → Int
  stat : PcbId → State
  flags : PcbId → Nat
  /-- `mm.pml4`, as an address; `0` is the null pointer -/
  pml4 : PcbId → Nat
  /-- `msg`, the message object of a blocked `Send` or `Receive` -/
  msg : PcbId → Option MsgPtr

/-- `pcb->flags & THREAD_KERNEL`. -/
def PcbTable.isKernel (t : PcbTable) (p : PcbId) : Bool :=
  t.flags p &&& threadKernel ≠ 0

/-- `pcb->stat = st`. -/
def PcbTable.setStat (t : PcbTable) (p : PcbId) (st : State) : PcbTable :=
  { t with stat := Function.update t.stat p st }

/-- `pcb->msg = msg`. -/
def PcbTable.setMsg (t : PcbTable) (p : PcbId) (m : MsgPtr) : PcbTable :=
  { t with msg := Function.update t.msg p (some m) }

section Fields

variable (t : PcbTable) (p q : PcbId) (st : State) (m : MsgPtr)

@[simp] theorem PcbTable.setStat_pid : (t.setStat p st).pid = t.pid := rfl
@[simp] theorem PcbTable.setStat_flags : (t.setStat p st).flags = t.flags := rfl
@[simp] theorem PcbTable.setStat_pml4 : (t.setStat p st).pml4 = t.pml4 := rfl
@[simp] theorem PcbTable.setStat_msg : (t.setStat p st).msg = t.msg := rfl
@[simp] theorem PcbTable.setMsg_pid : (t.setMsg p m).pid = t.pid := rfl
@[simp] theorem PcbTable.setMsg_stat : (t.setMsg p m).stat = t.stat := rfl

@[simp] theorem PcbTable.isKernel_setStat :
    (t.setStat p st).isKernel q = t.isKernel q := rfl

theorem PcbTable.setStat_stat :
    (t.setStat p st).stat q = if q = p then st else t.stat q :=
  Function.update_apply ..

theorem PcbTable.setMsg_msg :
    (t.setMsg p m).msg q = if q = p then some m else t.msg q :=
  Function.update_apply ..

end Fields

end InfoKernel.Task
