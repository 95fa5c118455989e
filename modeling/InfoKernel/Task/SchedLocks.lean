import InfoKernel.Locks
import InfoKernel.Task.Cfs

/-!
# The lock of the run queue

The operations of `cfs.cc` again, with the calls to `lock.lock()` and `lock.unlock()`.
What they do to the scheduler between these calls is what `Task.Cfs` says
(`locked_enqueue_ok` and the theorems behind it).

Two of them break the discipline of the lock.  `UpdateClock` returns from inside when no task
is being charged, and `PickNextTask` calls `Dequeue`, which takes the lock, when it has taken
it itself and finds a dead task at the front of the queue.
-/

namespace InfoKernel.Task.Cfs.Sched

open Lib

/-- `Sched::Enqueue` -/
def lockedEnqueue (fuel : Nat) (stat : PcbId → State) : Option PcbId → Locked Sched Unit
  | none => return ()
  | some pcb => do
      acquire .sched
      change fun s => s.enqueue fuel (stat pcb) pcb
      release .sched

/-- `Sched::Dequeue` -/
def lockedDequeue (fuel : Nat) (stat : PcbId → State) : Option PcbId → Locked Sched Unit
  | none => return ()
  | some pcb => do
      acquire .sched
      change fun s => s.dequeue fuel (stat pcb) pcb
      release .sched

/-- A turn of the loop of `PickNextTask`. -/
def lockedPickTurn (fuel : Nat) (stat : PcbId → State) :
    Option PcbId → Locked Sched (Turn (Option PcbId) (Option PcbId))
  | none => return .leave none
  | some next =>
      if stat next = .dead then do
        lockedDequeue fuel stat (some next)
        assign decNrRunning
        let s ← look
        if s.nrRunning > 0 then return .again s.firstTask else return .leave none
      else return .leave (some next)

/-- The part of `PickNextTask` that looks for the task. -/
def lockedPick (fuel : Nat) (stat : PcbId → State) : Locked Sched (Option PcbId) := do
  let s ← look
  if s.nrRunning > 0 then
    Program.loop (lockedPickTurn fuel stat) (.fault .outOfFuel) fuel s.firstTask
  else return none

/-- `Sched::PickNextTask` -/
def lockedPickNextTask (fuel : Nat) (stat : PcbId → State) : Locked Sched (Option PcbId) := do
  acquire .sched
  let next ← lockedPick fuel stat
  assign fun s => { s with current := next }
  release .sched
  return next

/-- `Sched::UpdateClock` -/
def lockedUpdateClock (delta : Nat) : Locked Sched Unit := do
  acquire .sched
  assign fun s => { s with clock := u64 (s.clock + delta) }
  let s ← look
  match s.current with
  | none => return ()
  | some pcb =>
      change fun s => s.updateVruntime pcb delta
      release .sched

/-- `Sched::UpdateVruntimeCurrent` -/
def lockedUpdateVruntimeCurrent (delta : Nat) : Locked Sched Unit := do
  let s ← look
  match s.current with
  | none => return ()
  | some pcb =>
      acquire .sched
      change fun s => s.updateVruntime pcb delta
      release .sched

/-- The first task of the queue is dead. -/
def DeadFirst (s : Sched) (stat : PcbId → State) : Prop :=
  0 < s.nrRunning ∧ ∃ p, s.firstTask = some p ∧ stat p = .dead

variable {s : Sched} {fuel delta : Nat} {stat : PcbId → State}

/-! ## What they do to the scheduler -/

/-- What an operation of `Task.Cfs` is when it is run with locks. -/
def unlocked {α : Type} (r : Except Fault (α × Sched)) (t : Owned LockId Sched) :
    Except (Stop LockId Fault) (α × Owned LockId Sched) :=
  match r with
  | .error e => .error (.fault e)
  | .ok (a, d) => .ok (a, { t with data := d })

theorem lockedEnqueue_eq {t : Owned LockId Sched} (h : t.held .sched = false) (pcb : PcbId) :
    lockedEnqueue fuel stat (some pcb) t =
      unlocked ((t.data.enqueue fuel (stat pcb) pcb).map fun d => ((), d)) t := by
  rw [lockedEnqueue, critical_change h]
  cases t.data.enqueue fuel (stat pcb) pcb <;> rfl

theorem lockedDequeue_eq {t : Owned LockId Sched} (h : t.held .sched = false) (pcb : PcbId) :
    lockedDequeue fuel stat (some pcb) t =
      unlocked ((t.data.dequeue fuel (stat pcb) pcb).map fun d => ((), d)) t := by
  rw [lockedDequeue, critical_change h]
  cases t.data.dequeue fuel (stat pcb) pcb <;> rfl

/-- The loop of `PickNextTask` is left in its first turn by a task that is not dead. -/
theorem lockedPick_of_alive (h : ¬ s.DeadFirst stat) (held : LockId → Bool) :
    lockedPick (fuel + 1) stat ⟨s, held⟩ =
      .ok (if s.nrRunning > 0 then s.firstTask else none, ⟨s, held⟩) := by
  rw [lockedPick, look_bind]
  by_cases hnr : s.nrRunning > 0
  · rw [if_pos hnr, if_pos hnr, Program.loop]
    cases hfirst : s.firstTask with
    | none => rfl
    | some p =>
        have hlive : stat p ≠ .dead := fun hdead => h ⟨hnr, p, hfirst, hdead⟩
        rw [lockedPickTurn, if_neg hlive]
        rfl
  · rw [if_neg hnr, if_neg hnr]
    rfl

theorem pickNextTask_of_alive (h : ¬ s.DeadFirst stat) :
    s.pickNextTask (fuel + 1) stat =
      .ok ({ s with current := if s.nrRunning > 0 then s.firstTask else none },
        if s.nrRunning > 0 then s.firstTask else none) := by
  rw [pickNextTask]
  by_cases hnr : s.nrRunning > 0
  · rw [if_pos hnr, if_pos hnr]
    cases hfirst : s.firstTask with
    | none => rfl
    | some p =>
        have hlive : stat p ≠ .dead := fun hdead => h ⟨hnr, p, hfirst, hdead⟩
        rw [loop_of_leave (r := (s, some p)) (by rw [pickTurn, if_neg hlive])]
        rfl
  · rw [if_neg hnr, if_neg hnr]

theorem lockedPickNextTask_eq {t : Owned LockId Sched} (h : t.held .sched = false)
    (hlive : ¬ t.data.DeadFirst stat) :
    lockedPickNextTask (fuel + 1) stat t =
      unlocked ((t.data.pickNextTask (fuel + 1) stat).map fun r => (r.2, r.1)) t := by
  rw [lockedPickNextTask, bind_apply_of_ok (acquire_of_free h),
    bind_apply_of_ok (lockedPick_of_alive hlive _), pickNextTask_of_alive hlive]
  show Except.ok (_, Owned.mk _ (Function.update (Function.update t.held _ true) _ false)) = _
  rw [release_acquire h]
  rfl

theorem lockedUpdateClock_eq {t : Owned LockId Sched} (h : t.held .sched = false)
    (hcurrent : t.data.current ≠ none) :
    lockedUpdateClock delta t =
      unlocked ((t.data.updateClock delta).map fun d => ((), d)) t := by
  obtain ⟨pcb, hpcb⟩ := Option.ne_none_iff_exists'.mp hcurrent
  rw [lockedUpdateClock, acquire_bind_of_free h, assign_bind, look_bind]
  simp only [hpcb, updateClock]
  rw [change_release h]
  generalize updateVruntime _ pcb delta = r
  cases r <;> rfl

/-! ## The discipline -/

theorem lockedEnqueue_disciplined (pcb : Option PcbId) :
    Disciplined (lockedEnqueue fuel stat pcb) s := by
  cases pcb with
  | none => exact (Keeps.pure ()).disciplined
  | some pcb => exact Disciplined.critical (.change _) fun _ => .pure _

theorem lockedDequeue_disciplined (pcb : Option PcbId) :
    Disciplined (lockedDequeue fuel stat pcb) s := by
  cases pcb with
  | none => exact (Keeps.pure ()).disciplined
  | some pcb => exact Disciplined.critical (.change _) fun _ => .pure _

theorem lockedUpdateVruntimeCurrent_disciplined :
    Disciplined (lockedUpdateVruntimeCurrent delta) s := by
  rw [Disciplined, Ends, lockedUpdateVruntimeCurrent, look_bind]
  cases hcurrent : s.current with
  | none => exact (Keeps.pure () : Keeps (pure () : Locked Sched Unit)).disciplined
  | some pcb =>
      exact (Disciplined.critical (.change _) fun _ => .pure _ :
        Disciplined (do acquire LockId.sched; change _; release LockId.sched) s)

/-- **`UpdateClock` keeps the discipline exactly when a task is being charged.** -/
theorem lockedUpdateClock_disciplined_iff :
    Disciplined (lockedUpdateClock delta) s ↔ s.current ≠ none := by
  constructor
  · intro hd hnone
    have hrun : lockedUpdateClock delta (Owned.free s) = .ok ((), ⟨{ s with
        clock := u64 (s.clock + delta) }, Function.update (fun _ => false) .sched true⟩) := by
      rw [lockedUpdateClock, acquire_bind_of_free rfl, assign_bind, look_bind]
      simp only [hnone]
      rfl
    exact not_disciplined_of_held (l := LockId.sched) hrun rfl hd
  · intro hcurrent
    rw [Disciplined, Ends, lockedUpdateClock_eq rfl hcurrent]
    cases s.updateClock delta with
    | error e => exact True.intro
    | ok d => exact (rfl : (Owned.free d : Owned LockId Sched).held = _)

/-- `PickNextTask` takes the lock, and then `Dequeue` of the dead task does. -/
theorem lockedPickNextTask_of_deadFirst (h : s.DeadFirst stat) :
    lockedPickNextTask (fuel + 1) stat (Owned.free s) = .error (.relock .sched) := by
  obtain ⟨hnr, p, hfirst, hdead⟩ := h
  rw [lockedPickNextTask, acquire_bind_of_free rfl, bind_apply, lockedPick, look_bind, if_pos hnr,
    hfirst, Program.loop, bind_apply, lockedPickTurn, if_pos hdead, bind_apply, lockedDequeue,
    bind_apply, acquire_of_held rfl]
  rfl

/-- **`PickNextTask` keeps the discipline exactly when the first task is not dead.** -/
theorem lockedPickNextTask_disciplined_iff :
    (∀ fuel, Disciplined (lockedPickNextTask fuel stat) s) ↔ ¬ s.DeadFirst stat := by
  constructor
  · intro hd hdead
    exact not_disciplined_of_relock (lockedPickNextTask_of_deadFirst hdead) (hd 1)
  · intro hlive fuel
    rw [Disciplined, Ends]
    cases fuel with
    | zero =>
        rw [lockedPickNextTask, acquire_bind_of_free rfl, bind_apply, lockedPick, look_bind]
        split
        · exact True.intro
        · exact release_acquire rfl
    | succ n =>
        rw [lockedPickNextTask_eq rfl hlive, pickNextTask_of_alive hlive]
        exact (rfl : (Owned.free _ : Owned LockId Sched).held = _)

end InfoKernel.Task.Cfs.Sched
