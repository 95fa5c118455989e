import InfoKernel.Task.Cfs

/-!
# The scheduler

The model of `src/task/sched.cc` and of what changes the scheduler's state around it:
`thread::InitIdle`, `thread::Fork`, `thread::Kill`, the end of `thread::Execve`, and the
wake-up of a task.  `Kernel` is the state they share: the control blocks, the run queue,
`current_proc`, the page table register, and the list of the control blocks that have been
allocated so far.

`Kernel.schedule` is `task::Schedule` up to `SwitchContext`.  The registers that the switch
of the stacks saves and restores are not part of the model: after the call the task in
`current_proc` runs.

`Kernel.step` is the system: the calls, in any order, each of them atomic.  An allocation
that fails ends `Fork` before it has changed anything here, so the step is the call whose
allocations succeed, and the control block is one that has not been in use.
-/

namespace InfoKernel.Task

open InfoKernel.Lib
open Cfs (nice2Weight)

/-- `child->… = parent->…` for the fields of a control block. -/
def PcbTable.copy (t : PcbTable) (child parent : PcbId) : PcbTable where
  pid := Function.update t.pid child (t.pid parent)
  stat := Function.update t.stat child (t.stat parent)
  flags := Function.update t.flags child (t.flags parent)
  pml4 := Function.update t.pml4 child (t.pml4 parent)
  msg := Function.update t.msg child (t.msg parent)

/-- `memset` of a control block. -/
def PcbTable.clear (t : PcbTable) (p : PcbId) : PcbTable where
  pid := Function.update t.pid p 0
  stat := Function.update t.stat p .running
  flags := Function.update t.flags p 0
  pml4 := Function.update t.pml4 p 0
  msg := Function.update t.msg p none

/-- The assignments to `pid`, `stat`, `flags` and `mm.pml4` of a new control block. -/
def PcbTable.init (t : PcbTable) (p : PcbId) (pid : Int) (flags pml4 : Nat) : PcbTable :=
  { t with
    pid := Function.update t.pid p pid
    stat := Function.update t.stat p .ready
    flags := Function.update t.flags p flags
    pml4 := Function.update t.pml4 p pml4 }

/-- `child->se = parent->se` -/
def Cfs.Sched.copyEntity (s : Cfs.Sched) (child parent : PcbId) : Cfs.Sched :=
  { s with
    rq := { s.rq with
      links := { s.rq.links with
        child := fun d => Function.update (s.rq.links.child d) child (s.rq.links.child d parent)
        parent := Function.update s.rq.links.parent child (s.rq.links.parent parent) }
      isRed := Function.update s.rq.isRed child (s.rq.isRed parent)
      vruntime := Function.update s.rq.vruntime child (s.rq.vruntime parent) }
    weight := Function.update s.weight child (s.weight parent)
    sumExecRuntime := Function.update s.sumExecRuntime child (s.sumExecRuntime parent) }

/-- `memset` of an entity. -/
def Cfs.Sched.clearEntity (s : Cfs.Sched) (p : PcbId) : Cfs.Sched :=
  { s with
    rq := { s.rq with
      links := { s.rq.links with
        child := fun d => Function.update (s.rq.links.child d) p none
        parent := Function.update s.rq.links.parent p none }
      isRed := Function.update s.rq.isRed p false
      vruntime := Function.update s.rq.vruntime p 0 }
    weight := Function.update s.weight p 0
    sumExecRuntime := Function.update s.sumExecRuntime p 0 }

/-- The assignments to `se.weight`, `se.vruntime` and `se.sum_exec_runtime` of a new control
block. -/
def Cfs.Sched.initEntity (s : Cfs.Sched) (p : PcbId) (nice : Int) : Cfs.Sched :=
  { s with
    rq := { s.rq with vruntime := Function.update s.rq.vruntime p 0 }
    weight := Function.update s.weight p (nice2Weight nice)
    sumExecRuntime := Function.update s.sumExecRuntime p 0 }

/-- The state of the kernel around the scheduler. -/
structure Kernel where
  pcbs : PcbTable
  sched : Cfs.Sched
  currentProc : Option PcbId
  /-- the physical address in CR3 -/
  cr3 : Nat
  /-- `mm::page::kernel_pml4` -/
  kernelPml4 : Nat
  pidCounter : Int
  /-- the control blocks allocated so far -/
  tasks : List PcbId

namespace Kernel

variable (k : Kernel)

/-- `SwitchTable` -/
def switchTable (next : PcbId) : Kernel :=
  { k with cr3 := Mm.vir2Phy (k.pcbs.pml4 next) }

/-- The part of `Schedule` that updates the run queue for the task `prev` it is called
by. -/
def requeue (fuel : Nat) (prev : PcbId) : Except Fault Kernel :=
  if k.pcbs.stat prev = .dead ∨ k.pcbs.stat prev = .blocked then do
    let s ← k.sched.dequeue fuel (k.pcbs.stat prev) prev
    return { k with sched := s }
  else do
    let s ← k.sched.dequeue fuel .ready prev
    let s ← s.enqueue fuel .ready prev
    return { k with pcbs := k.pcbs.setStat prev .ready, sched := s }

/-- The part of `Schedule` that goes over from `prev` to `next`. -/
def switchTo (prev next : PcbId) : Kernel :=
  if k.pcbs.stat prev = .dead then
    let k := if k.pcbs.pml4 prev ≠ 0 ∧ k.pcbs.isKernel next then k.switchTable next else k
    { k with currentProc := some next }
  else if prev = next then k
  else
    let k := { k with currentProc := some next }
    if ¬ k.pcbs.isKernel prev ∨ ¬ k.pcbs.isKernel next then
      if ¬ k.pcbs.isKernel next ∧ k.pcbs.pml4 next ≠ 0 then k.switchTable next
      else if ¬ k.pcbs.isKernel prev ∧ k.pcbs.isKernel next then k.switchTable next
      else k
    else k

/-- `Schedule` -/
def schedule (fuel : Nat) : Except Fault Kernel :=
  match k.currentProc with
  | none => .error .nullDeref
  | some prev => do
      let k ← k.requeue fuel prev
      let (s, next) ← k.sched.pickNextTask fuel k.pcbs.stat
      match next with
      | none => .error .panic
      | some next => return ({ k with sched := s }).switchTo prev next

/-- `InitIdle`, for the new control block `idle`. -/
def initIdle (fuel : Nat) (idle : PcbId) : Except Fault Kernel := do
  let s := (k.sched.clearEntity idle).initEntity idle 19
  let s ← s.enqueue fuel .ready idle
  return { k with
    pcbs := (k.pcbs.clear idle).init idle k.pidCounter threadKernel k.kernelPml4
    sched := s
    currentProc := some idle
    pidCounter := k.pidCounter + 1
    tasks := idle :: k.tasks }

/-- The first part of `Fork`: the new control block `child` is a copy of the one of the
current task, if there is one. -/
def copyCurrent (child : PcbId) : Kernel :=
  match k.currentProc with
  | none => { k with pcbs := k.pcbs.clear child, sched := k.sched.clearEntity child }
  | some parent =>
      { k with pcbs := k.pcbs.copy child parent, sched := k.sched.copyEntity child parent }

/-- `Fork`, for the new control block `child`. -/
def fork (fuel : Nat) (child : PcbId) (flags : Nat) (nice : Int) : Except Fault Kernel := do
  let k := k.copyCurrent child
  let s ← (k.sched.initEntity child nice).enqueue fuel .ready child
  return { k with
    pcbs := k.pcbs.init child k.pidCounter flags k.kernelPml4
    sched := s
    pidCounter := k.pidCounter + 1
    tasks := child :: k.tasks }

/-- `p->stat = Ready` and `Enqueue`, the wake-up of a task in `ipc::Send`, `ipc::Receive`
and `Sem::signal`. -/
def wake (fuel : Nat) (p : PcbId) : Except Fault Kernel := do
  let s ← k.sched.enqueue fuel .ready p
  return { k with pcbs := k.pcbs.setStat p .ready, sched := s }

/-- `Sched::UpdateClock`, called by the timer. -/
def tick (delta : Nat) : Except Fault Kernel := do
  let s ← k.sched.updateClock delta
  return { k with sched := s }

/-- `Kill`, as far as the scheduler sees it. -/
def kill (p : PcbId) : Kernel :=
  { k with pcbs := k.pcbs.setStat p .dead }

/-- The effect of `Execve` on the calling task, with the page table it has built, and of
the `SwitchTable` in `ExecProc`. -/
def execve (cur : PcbId) (pml4 : Nat) : Kernel :=
  let t := { k.pcbs with
    pml4 := Function.update k.pcbs.pml4 cur pml4
    flags := Function.update k.pcbs.flags cur (k.pcbs.flags cur ^^^ threadKernel) }
  ({ k with pcbs := t }).switchTable cur

/-- `current_proc->stat = Blocked` -/
def setBlocked (cur : PcbId) : Kernel :=
  { k with pcbs := k.pcbs.setStat cur .blocked }

/-! ## The system -/

/-- The task is linked in the tree of the run queue. -/
def Linked (p : PcbId) : Prop :=
  ∃ t, k.sched.rq.links.Represents t ∧ p ∈ t.inorder

/-- The calls.  `block` is a call of `Schedule` right after `current_proc->stat = Blocked`. -/
inductive Op where
  | initIdle (idle : PcbId)
  | fork (child : PcbId) (flags : Nat) (nice : Int)
  | wake (p : PcbId)
  | tick (delta : Nat)
  | schedule
  | block
  | kill (p : PcbId)
  | execve (pml4 : Nat)
  deriving DecidableEq, Repr

/-- Whether a call may be made.  The kernel starts with `InitIdle`; from then on every call
is made by the current task or by the timer.  A new control block is one that is not in
use, a wake-up is for a task that is not queued, and `Execve` has built a page table. -/
def Allowed : Op → Prop
  | .initIdle idle => k.currentProc = none ∧ idle ∉ k.tasks
  | .fork child _ _ => k.currentProc ≠ none ∧ child ∉ k.tasks
  | .wake p => k.currentProc ≠ none ∧ p ∈ k.tasks ∧ ¬ k.Linked p
  | .tick _ => True
  | .schedule => k.currentProc ≠ none
  | .block => ∃ cur, k.currentProc = some cur ∧ k.pcbs.stat cur ≠ .dead
  | .kill p => p ∈ k.tasks
  | .execve pml4 => k.currentProc ≠ none ∧ pml4 ≠ 0

/-- The calls, with fuel for their loops. -/
def call (fuel : Nat) : Op → Except Fault Kernel
  | .initIdle idle => k.initIdle fuel idle
  | .fork child flags nice => k.fork fuel child flags nice
  | .wake p => k.wake fuel p
  | .tick delta => k.tick delta
  | .schedule => k.schedule fuel
  | .block =>
      match k.currentProc with
      | none => .error .nullDeref
      | some cur => (k.setBlocked cur).schedule fuel
  | .kill p => .ok (k.kill p)
  | .execve pml4 =>
      match k.currentProc with
      | none => .error .nullDeref
      | some cur => .ok (k.execve cur pml4)

/-- A step: an allowed call that returns, whatever fuel it takes. -/
def step (k : Kernel) (op : Op) (k' : Kernel) : Prop :=
  k.Allowed op ∧ ∃ fuel, k.call fuel op = .ok k'

/-- The tree of the run queue, read off its links to the depth `depth`. -/
def linkedTree (depth : Nat) : BinaryTree PcbId :=
  k.sched.rq.links.read depth k.sched.rq.links.root

/-- `Allowed`, computed for a run queue whose tree is not deeper than `depth`. -/
def allowed (depth : Nat) : Op → Bool
  | .initIdle idle => k.currentProc = none ∧ idle ∉ k.tasks
  | .fork child _ _ => k.currentProc ≠ none ∧ child ∉ k.tasks
  | .wake p => k.currentProc ≠ none ∧ p ∈ k.tasks ∧
      k.sched.rq.links.Represents (k.linkedTree depth) ∧ p ∉ (k.linkedTree depth).inorder
  | .tick _ => true
  | .schedule => k.currentProc ≠ none
  | .block => k.currentProc.any fun cur => k.pcbs.stat cur ≠ .dead
  | .kill p => p ∈ k.tasks
  | .execve pml4 => k.currentProc ≠ none ∧ pml4 ≠ 0

theorem allowed_sound {depth : Nat} {op : Op} (h : k.allowed depth op = true) :
    k.Allowed op := by
  cases op with
  | wake p =>
      simp only [allowed, decide_eq_true_eq] at h
      obtain ⟨hcur, hp, ht, hout⟩ := h
      refine ⟨hcur, hp, ?_⟩
      rintro ⟨u, hu, hmem⟩
      rw [hu.unique ht] at hmem
      exact hout hmem
  | tick delta => trivial
  | block =>
      rw [allowed, Option.any_eq_true] at h
      obtain ⟨cur, hcur, hlive⟩ := h
      exact ⟨cur, hcur, of_decide_eq_true hlive⟩
  | _ => simpa [allowed, Allowed] using h

/-- A step, computed: `fuel` bounds the loops and the depth of the tree. -/
def tryStep (fuel : Nat) (k : Kernel) (op : Op) : Option Kernel :=
  if k.allowed fuel op then (k.call fuel op).toOption else none

theorem step_of_tryStep {fuel : Nat} {k k' : Kernel} {op : Op}
    (h : k.tryStep fuel op = some k') : step k op k' := by
  rw [tryStep] at h
  split at h
  · next hop =>
    refine ⟨k.allowed_sound hop, fuel, ?_⟩
    cases hcall : k.call fuel op with
    | error e =>
        rw [hcall] at h
        cases h
    | ok k₁ =>
        rw [hcall] at h
        exact congrArg Except.ok (Option.some.inj h)
  · cases h

/-- The state in which the kernel starts: nothing is queued and no task runs. -/
structure Init : Prop where
  root : k.sched.rq.links.root = none
  leftmost : k.sched.rq.leftmost = none
  current : k.sched.current = none
  currentProc : k.currentProc = none
  tasks : k.tasks = []
  kernelPml4 : k.kernelPml4 ≠ 0

/-- The kernel before `InitIdle`, with all memory zero and the kernel's page table at the
physical address `0x1000`. -/
def boot : Kernel where
  pcbs :=
    { pid := fun _ => 0
      stat := fun _ => .running
      flags := fun _ => 0
      pml4 := fun _ => 0
      msg := fun _ => none }
  sched :=
    { rq :=
        { links := ⟨fun _ _ => none, fun _ => none, none⟩
          isRed := fun _ => false
          vruntime := fun _ => 0
          leftmost := none
          minVruntime := 0 }
      weight := fun _ => 0
      sumExecRuntime := fun _ => 0
      nrRunning := 0
      totalWeight := 0
      current := none
      clock := 0 }
  currentProc := none
  cr3 := 0x1000
  kernelPml4 := Mm.phy2Vir 0x1000
  pidCounter := 0
  tasks := []

theorem boot_init : boot.Init := ⟨rfl, rfl, rfl, rfl, rfl, by decide⟩

end Kernel

end InfoKernel.Task
