import InfoKernel.Machine
import InfoKernel.Task.RbTree

/-!
# The scheduler class

The model of `src/task/cfs.cc`.  `Sched` adds to the tree of the run queue the counts,
the task being charged, the clock and the other fields of the tasks' entities that
`cfs.cc` uses.  The state of a task is read from the table of control blocks.

All numbers are unsigned and wrap around, `nr_running` at 32 bits and the others at 64.
`SpinLock::lock` never waits: it compares a variable that is 0 with 0, whatever the lock
held before.  So the calls to `lock` and `unlock` have no effect on the scheduler and are
left out, also where a path returns without unlocking.
-/

namespace InfoKernel.Task.Cfs

open InfoKernel.Lib

/-- `PRIO_TO_WEIGHT` -/
def prioToWeight : List Nat :=
  [88761, 71755, 56483, 46273, 36291, 29154, 23254, 18705, 14949, 11916,
    9548, 7620, 6070, 4854, 3890, 3121, 2501, 2008, 1607, 1285,
    1024, 820, 655, 526, 423, 335, 272, 215, 172, 137,
    110, 87, 70, 56, 45, 36, 29, 23, 18, 15]

/-- `Nice2Weight` -/
def nice2Weight (nice : Int) : Nat :=
  let nice := if nice < -20 then -20 else nice
  let nice := if nice > 19 then 19 else nice
  prioToWeight.getD (nice + 20).toNat 0

/-- The weights are the numbers of the table. -/
theorem nice2Weight_bounds (nice : Int) : 0 < nice2Weight nice ∧ nice2Weight nice ≤ 88761 := by
  have hall : ∀ k, k < 40 → 0 < prioToWeight.getD k 0 ∧ prioToWeight.getD k 0 ≤ 88761 := by
    decide
  rw [nice2Weight]
  refine hall _ ?_
  split <;> split <;> omega

/-- `class Sched`, with the fields of the tasks' `cfs::Entity` that it uses besides those
of `Rq`. -/
structure Sched where
  rq : Rq
  weight : PcbId → Nat
  sumExecRuntime : PcbId → Nat
  nrRunning : Nat
  totalWeight : Nat
  current : Option PcbId
  clock : Nat

/-- `CalcVruntimeDelta`, for a weight that is not zero. -/
def calcVruntimeDelta (delta weight : Nat) : Nat := u64 (delta * 1024) / weight

namespace Sched

variable (s : Sched)

/-- The weight by which `UpdateVruntime` divides, a `std::uint32_t`. -/
def divisor (pcb : PcbId) : Nat :=
  if s.weight pcb ≠ 0 then u32 (s.weight pcb) else 1024

/-- The assignments of `UpdateVruntime`, with `v` the new `se.vruntime`. -/
def charge (pcb : PcbId) (delta v : Nat) : Sched :=
  { s with
    rq := { s.rq with
      vruntime := Function.update s.rq.vruntime pcb v
      minVruntime := if v < s.rq.minVruntime then v else s.rq.minVruntime }
    sumExecRuntime :=
      Function.update s.sumExecRuntime pcb (u64 (s.sumExecRuntime pcb + delta)) }

/-- `Sched::UpdateVruntime` -/
def updateVruntime (pcb : PcbId) (delta : Nat) : Except Fault Sched :=
  if s.divisor pcb = 0 then .error .divByZero
  else
    .ok (s.charge pcb delta
      (u64 (s.rq.vruntime pcb + calcVruntimeDelta delta (s.divisor pcb))))

/-- The value that `Sched::NormalizeVruntime` gives to `se.vruntime`. -/
def normalized (pcb : PcbId) : Nat :=
  if s.rq.vruntime pcb < s.rq.minVruntime then s.rq.minVruntime else s.rq.vruntime pcb

/-- `Sched::NormalizeVruntime` -/
def normalizeVruntime (pcb : PcbId) : Sched :=
  { s with rq := { s.rq with
    vruntime := Function.update s.rq.vruntime pcb (s.normalized pcb) } }

/-- The vruntime with which `Sched::Enqueue` inserts a task. -/
def enqueueKey (pcb : PcbId) : Nat :=
  if s.rq.links.root ≠ none then s.normalized pcb else s.rq.vruntime pcb

/-- The body of `Sched::Enqueue` for a task that is `Running` or `Ready`. -/
def enqueueLive (fuel : Nat) (pcb : PcbId) : Except Fault Sched := do
  let s := if s.rq.links.root ≠ none then s.normalizeVruntime pcb else s
  let s :=
    if s.weight pcb = 0 then { s with weight := Function.update s.weight pcb 1024 } else s
  let rq ← s.rq.rbInsert fuel pcb
  return { s with
    rq := rq
    nrRunning := u32 (s.nrRunning + 1)
    totalWeight := u64 (s.totalWeight + s.weight pcb)
    current := if s.current = none then some pcb else s.current }

/-- `Sched::Enqueue` -/
def enqueue (fuel : Nat) (stat : State) (pcb : PcbId) : Except Fault Sched :=
  if stat = .running ∨ stat = .ready then s.enqueueLive fuel pcb else .ok s

/-- `Sched::FirstTask` -/
def firstTask : Option PcbId := s.rq.leftmost

/-- `nr_running--` -/
def decNrRunning : Sched := { s with nrRunning := sub32 s.nrRunning 1 }

/-- `total_weight -= w` -/
def subTotalWeight (w : Nat) : Sched :=
  { s with totalWeight := sub64 s.totalWeight w }

/-- `Sched::Dequeue` -/
def dequeue (fuel : Nat) (stat : State) (pcb : PcbId) : Except Fault Sched := do
  let rq ← s.rq.rbErase fuel pcb
  let s := { s with rq := rq }
  let s :=
    if stat = .running ∨ stat = .ready ∨ stat = .blocked then
      s.decNrRunning.subTotalWeight (s.weight pcb)
    else s
  return if s.current = some pcb then { s with current := s.firstTask } else s

/-- A turn of the loop of `PickNextTask` that takes dead tasks out of the queue, with the
loop variable `next`. -/
def pickTurn (fuel : Nat) (stat : PcbId → State) :
    Sched × Option PcbId → Except Fault (Turn (Sched × Option PcbId) (Sched × Option PcbId))
  | (s, none) => .ok (.leave (s, none))
  | (s, some next) =>
      if stat next = .dead then do
        let s ← s.dequeue fuel (stat next) next
        if s.decNrRunning.nrRunning > 0 then
          return .again (s.decNrRunning, s.decNrRunning.firstTask)
        else return .leave (s.decNrRunning, none)
      else .ok (.leave (s, some next))

/-- `Sched::PickNextTask` -/
def pickNextTask (fuel : Nat) (stat : PcbId → State) : Except Fault (Sched × Option PcbId) :=
  if s.nrRunning > 0 then do
    let (s, next) ← loop (pickTurn fuel stat) .outOfFuel fuel (s, s.firstTask)
    return ({ s with current := next }, next)
  else .ok ({ s with current := none }, none)

/-- `Sched::UpdateClock` -/
def updateClock (delta : Nat) : Except Fault Sched :=
  match s.current with
  | none => .ok { s with clock := u64 (s.clock + delta) }
  | some pcb => { s with clock := u64 (s.clock + delta) }.updateVruntime pcb delta

end Sched

end InfoKernel.Task.Cfs
