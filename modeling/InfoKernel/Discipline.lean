import InfoKernel.Drivers.Console
import InfoKernel.Drivers.Ide
import InfoKernel.Task.SchedLocks

/-!
# The operations that take locks

The operations of the run queue, of the console and of the disk driver, each called by a thread
that holds no lock.  Each of them either is disciplined in every state, or exactly under a
condition on the state that it finds and on its arguments (`disciplined_iff`); `DetectDevices`
is so in no state.
-/

namespace InfoKernel

open InfoKernel.Task (PcbId)
open InfoKernel.Task.Cfs (Sched)
open InfoKernel.Console (Con)
open InfoKernel.Ide (Driver)

/-- The data behind the three locks, and the states of the tasks. -/
structure LockData where
  sched : Sched
  stat : PcbId → Task.State
  con : Con
  ide : Driver

/-- The operations. -/
inductive LockOp where
  | enqueue (pcb : Option PcbId)
  | dequeue (pcb : Option PcbId)
  | pickNextTask
  | updateClock (delta : Nat)
  | updateVruntimeCurrent (delta : Nat)
  | switchTTY (ttyNum : Int)
  | redraw
  | putChar (ttyNum c : Int) (color : UInt32)
  | detectDevices (ioBase : Nat)
  | identify (ioBase : Nat) (drive : UInt8)

namespace LockOp

/-- The operation, with fuel for its loops, is disciplined. -/
def DisciplinedAt (fuel : Nat) (k : LockData) : LockOp → Prop
  | enqueue pcb => Lib.Disciplined (Sched.lockedEnqueue fuel k.stat pcb) k.sched
  | dequeue pcb => Lib.Disciplined (Sched.lockedDequeue fuel k.stat pcb) k.sched
  | pickNextTask => Lib.Disciplined (Sched.lockedPickNextTask fuel k.stat) k.sched
  | updateClock delta => Lib.Disciplined (Sched.lockedUpdateClock delta) k.sched
  | updateVruntimeCurrent delta => Lib.Disciplined (Sched.lockedUpdateVruntimeCurrent delta) k.sched
  | switchTTY ttyNum => Lib.Disciplined (Con.switchTTY ttyNum) k.con
  | redraw => Lib.Disciplined Con.redraw k.con
  | putChar ttyNum c color => Lib.Disciplined (Con.putChar ttyNum c color) k.con
  | detectDevices ioBase => Lib.Disciplined (Ide.detectDevices fuel ioBase) k.ide
  | identify ioBase drive => Lib.Disciplined (Ide.identify fuel ioBase drive) k.ide

/-- The operation is disciplined, however long its loops run. -/
def Disciplined (k : LockData) (op : LockOp) : Prop := ∀ fuel, op.DisciplinedAt fuel k

/-- The condition on the state and the arguments: no dead task is first in the queue, a task is
being charged, the tty is another one, there is something to draw into and to draw with. -/
def Sound (k : LockData) : LockOp → Prop
  | pickNextTask => ¬ k.sched.DeadFirst k.stat
  | updateClock _ => k.sched.current ≠ none
  | switchTTY ttyNum => k.con.Switches ttyNum
  | putChar ttyNum _ _ => k.con.CanPut ttyNum
  | detectDevices _ => False
  | _ => True

/-- **The lock discipline of the operations**, in every state: each is disciplined exactly under
its condition. -/
theorem disciplined_iff (k : LockData) (op : LockOp) : op.Disciplined k ↔ op.Sound k := by
  cases op with
  | enqueue pcb => exact iff_of_true (fun _ => Sched.lockedEnqueue_disciplined pcb) trivial
  | dequeue pcb => exact iff_of_true (fun _ => Sched.lockedDequeue_disciplined pcb) trivial
  | pickNextTask => exact Sched.lockedPickNextTask_disciplined_iff
  | updateClock delta =>
      exact (forall_const Nat).trans Sched.lockedUpdateClock_disciplined_iff
  | updateVruntimeCurrent delta =>
      exact iff_of_true (fun _ => Sched.lockedUpdateVruntimeCurrent_disciplined) trivial
  | switchTTY ttyNum => exact (forall_const Nat).trans Con.switchTTY_disciplined_iff
  | redraw => exact iff_of_true (fun _ => Con.redraw_disciplined) trivial
  | putChar ttyNum c color => exact (forall_const Nat).trans Con.putChar_disciplined_iff
  | detectDevices ioBase =>
      exact iff_of_false (fun h => Ide.detectDevices_not_disciplined (h 0)) id
  | identify ioBase drive => exact iff_of_true (fun _ => Ide.identify_disciplined) trivial

/-- The first tty is shown, and nothing else is there. -/
def firstTty : LockData where
  sched :=
    { rq :=
        { links := ⟨fun _ _ => none, fun _ => none, none⟩
          isRed := fun _ => false
          vruntime := fun _ => 0
          leftmost := none
          minVruntime := 0 }
      weight := fun _ => 0
      sumExecRuntime := fun _ => 0
      nrRunning := 0
      totalWeight := 0
      current := none
      clock := 0 }
  stat _ := .ready
  con := ⟨fun _ => ⟨0, 0, some fun _ => 0, false⟩, 1, none, fun _ => 0, 1024, 768⟩
  ide := ⟨⟨fun _ _ => 0, fun _ _ => 0, fun n => n⟩, 0, [], fun _ => none, 0, []⟩

/-- **The lock stays taken** when the tty that is shown is switched to. -/
theorem switchTTY_keeps_lock : ¬ ∀ (k : LockData) (op : LockOp), op.Disciplined k := by
  intro hclaim
  have hd : Lib.Disciplined (Con.switchTTY 1) firstTty.con := hclaim firstTty (.switchTTY 1) 0
  obtain ⟨-, -, hother⟩ := Con.switchTTY_disciplined_iff.mp hd
  exact hother rfl

end LockOp

end InfoKernel
