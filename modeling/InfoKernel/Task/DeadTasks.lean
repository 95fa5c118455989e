import InfoKernel.Lib.Run
import InfoKernel.Task.Ipc
import InfoKernel.Task.SchedQueue

/-!
# What becomes of a dead task

`thread::Kill` only writes `Dead` into the control block.  A task that was blocked in `Send` or
`Receive` stays recorded in its message queue, and one that was queued stays in the run queue;
those who come across it later have to look at its `stat`.  `Schedule` does: `PickNextTask`
takes the dead tasks out of the run queue until it meets one that is not dead.  `Send` and
`Receive` do not: they make the recorded task `Ready`, or the caller `Blocked`, whatever it
was.

`IpcKernel` puts the scheduler and the message queues together, over one table of control
blocks, and runs the calls of `src/task/ipc.cc` and `src/task/exit.cc` to their end, through
the `Enqueue` or `Schedule` by which they leave.  A call keeps all dead tasks dead exactly when
the one task that it makes `Ready` or `Blocked` is not dead (`staysDead_iff_safe`), and so does
a run, from each of its states to all the later ones (`deadForever_iff`).
-/

namespace InfoKernel.Task

open InfoKernel.Lib
open Ipc (Message MessageQueue IpcState Action)

/-! ## `Schedule` and the dead -/

namespace Cfs.Sched

variable {s s' : Cfs.Sched} {stat : PcbId → State} {fuel : Nat}

/-- **`PickNextTask` picks no dead task**, whatever the run queue looks like. -/
theorem pickNextTask_not_dead {next : PcbId}
    (h : s.pickNextTask fuel stat = .ok (s', some next)) : stat next ≠ .dead := by
  rw [pickNextTask] at h
  split at h
  · rw [bind_eq_ok_iff] at h
    obtain ⟨⟨s₁, n₁⟩, hloop, h⟩ := h
    injection h with h
    obtain ⟨-, rfl⟩ := Prod.mk.inj h
    let Q : Cfs.Sched × Option PcbId → Prop := fun r => ∀ n, r.2 = some n → stat n ≠ .dead
    have hpost : Q (s₁, some next) := by
      refine loop_post (I := fun _ => True) (Q := Q) (fun st u _ hu => ?_) trivial hloop
      obtain ⟨s₂, n₂⟩ := st
      cases n₂ with
      | none => exact .leave hu fun n hn => by cases hn
      | some x =>
          rw [pickTurn] at hu
          split at hu
          · rw [bind_eq_ok_iff] at hu
            obtain ⟨s₃, -, hu⟩ := hu
            split at hu
            · exact .again hu trivial
            · exact .leave hu fun n hn => by cases hn
          · next hlive =>
            refine .leave hu fun n hn => ?_
            injection hn with hn
            rwa [← hn]
    exact hpost next rfl
  · injection h with h
    cases (Prod.mk.inj h).2

end Cfs.Sched

namespace Kernel

variable {k k' : Kernel} {fuel : Nat} {prev : PcbId}

/-- `Schedule` makes the task it is called by `Ready`, unless it is dead or blocked. -/
theorem requeue_ends (h : k.requeue fuel prev = .ok k') :
    k'.pcbs = (if k.pcbs.stat prev = .dead ∨ k.pcbs.stat prev = .blocked then k.pcbs
      else k.pcbs.setStat prev .ready) ∧ k'.currentProc = k.currentProc := by
  rw [requeue] at h
  split at h
  · next hout =>
    rw [bind_eq_ok_iff] at h
    obtain ⟨s, -, h⟩ := h
    injection h with h
    rw [← h, if_pos hout]
    exact ⟨rfl, rfl⟩
  · next hin =>
    simp only [bind_eq_ok_iff] at h
    obtain ⟨s, -, s', -, h⟩ := h
    injection h with h
    rw [← h, if_neg hin]
    exact ⟨rfl, rfl⟩

/-- `Kill` leaves the dead tasks dead. -/
theorem kill_dead (k : Kernel) (p : PcbId) {q : PcbId} (hq : k.pcbs.stat q = .dead) :
    (k.kill p).pcbs.stat q = .dead := by
  rw [kill, PcbTable.setStat_stat]
  split
  · rfl
  · exact hq

/-- **`Schedule` switches to no dead task.** -/
theorem schedule_ends (hcur : k.currentProc = some prev) (h : k.schedule fuel = .ok k') :
    k'.pcbs = (if k.pcbs.stat prev = .dead ∨ k.pcbs.stat prev = .blocked then k.pcbs
      else k.pcbs.setStat prev .ready) ∧
    ∃ next, k'.currentProc = some next ∧ k'.pcbs.stat next ≠ .dead := by
  simp only [schedule, hcur, bind_eq_ok_iff] at h
  obtain ⟨k₁, hreq, ⟨s, n⟩, hpick, h⟩ := h
  cases n with
  | none => cases h
  | some next =>
      injection h with h
      obtain ⟨hpcbs, hcur₁⟩ := requeue_ends hreq
      rw [← h]
      refine ⟨?_, next, switchTo_currentProc (hcur₁.trans hcur), ?_⟩
      · rw [switchTo_pcbs]
        exact hpcbs
      · rw [switchTo_pcbs]
        exact Cfs.Sched.pickNextTask_not_dead hpick

end Kernel

/-! ## The calls -/

/-- The scheduler, the message objects of the tasks, and `msg_queues`. -/
structure IpcKernel where
  kernel : Kernel
  mem : MsgPtr → Message
  msgQueues : Nat → MessageQueue

namespace IpcKernel

/-- The calls, made by the current task.  Between them it fills its message objects. -/
inductive Call where
  | write (a : MsgPtr) (m : Message)
  | send (a : MsgPtr)
  | receive (a : MsgPtr)
  | schedule
  | kill (p : PcbId)
  | exit
  deriving DecidableEq, Repr

variable (s : IpcKernel)

/-- The states of the tasks. -/
def stat : PcbId → State := s.kernel.pcbs.stat

/-- `current_proc` -/
def currentProc : Option PcbId := s.kernel.currentProc

/-- What `Send` and `Receive` work on. -/
def ipc : IpcState := ⟨s.kernel.pcbs, s.mem, s.msgQueues⟩

@[simp] theorem ipc_pcbs : s.ipc.pcbs = s.kernel.pcbs := rfl
@[simp] theorem ipc_mem : s.ipc.mem = s.mem := rfl
@[simp] theorem ipc_msgQueues : s.ipc.msgQueues = s.msgQueues := rfl

/-- The state when `Send` or `Receive` is about to leave `ipc.cc`. -/
def withIpc (i : IpcState) : IpcKernel :=
  ⟨{ s.kernel with pcbs := i.pcbs }, i.mem, i.msgQueues⟩

/-- The way out of `ipc.cc`. -/
def leave (fuel : Nat) : Action → Except Fault IpcKernel
  | .done _ => .ok s
  | .wake p => do
      let k ← s.kernel.wake fuel p
      return { s with kernel := k }
  | .schedule => do
      let k ← s.kernel.schedule fuel
      return { s with kernel := k }

/-- The calls, with fuel for the loops of the scheduler. -/
def call (fuel : Nat) (c : Call) : Except Fault IpcKernel :=
  match s.kernel.currentProc with
  | none => .error .nullDeref
  | some cur =>
      match c with
      | .write a m => .ok { s with mem := Function.update s.mem a m }
      | .send a => do
          let (i, act) ← s.ipc.send cur a
          (s.withIpc i).leave fuel act
      | .receive a => do
          let (i, act) ← s.ipc.receive cur a
          (s.withIpc i).leave fuel act
      | .schedule => s.leave fuel .schedule
      | .kill p => .ok { s with kernel := s.kernel.kill p }
      | .exit => { s with kernel := s.kernel.kill cur }.leave fuel .schedule

/-- A step: a call that returns, or hands the processor over, whatever fuel it takes. -/
def step (s : IpcKernel) (c : Call) (s' : IpcKernel) : Prop :=
  ∃ fuel, s.call fuel c = .ok s'

/-! ## Dead tasks -/

/-- Every task that is dead stays dead, and it is not switched to. -/
def StaysDead (s s' : IpcKernel) : Prop :=
  ∀ p, s.stat p = .dead →
    s'.stat p = .dead ∧ (s'.currentProc = some p → s.currentProc = some p)

/-- The task that `Send` or `Receive`, called by `cur`, makes `Ready` or `Blocked`: the one
that is recorded in the queue, else the caller. -/
def moved (cur : PcbId) : Call → Option PcbId
  | .send a =>
      let d := (s.mem a).dstPid
      if 256 ≤ d then none else some ((s.msgQueues d).waitingReceiver.getD cur)
  | .receive _ =>
      let q := s.msgQueues (s.kernel.pcbs.pid cur).toNat
      if q.head ≠ q.tail then none else some (q.waitingSender.getD cur)
  | _ => none

/-- The task that the call makes `Ready` or `Blocked` is not dead. -/
def Safe (s : IpcKernel) (c : Call) : Prop :=
  ∀ cur p, s.currentProc = some cur → s.moved cur c = some p → s.stat p ≠ .dead

theorem StaysDead.refl : StaysDead s s :=
  fun _ hp => ⟨hp, fun h => h⟩

theorem StaysDead.trans (s₁ s₂ s₃ : IpcKernel) (h : StaysDead s₁ s₂) (h' : StaysDead s₂ s₃) :
    StaysDead s₁ s₃ := by
  intro p hp
  obtain ⟨hp₂, hcur⟩ := h p hp
  obtain ⟨hp₃, hcur'⟩ := h' p hp₂
  exact ⟨hp₃, fun h => hcur (hcur' h)⟩

/-! ## One call -/

section Step

variable {s s' : IpcKernel} {cur : PcbId} {fuel : Nat}

/-- The processor stays with its task, or goes over to one that is not dead. -/
def GoesOn (s s' : IpcKernel) : Prop :=
  s'.currentProc = s.currentProc ∨ ∃ next, s'.currentProc = some next ∧ s'.stat next ≠ .dead

theorem GoesOn.staysDead (h : GoesOn s s') (hkeep : ∀ p, s.stat p = .dead → s'.stat p = .dead) :
    StaysDead s s' := by
  intro p hp
  refine ⟨hkeep p hp, fun hcur => ?_⟩
  rcases h with hsame | ⟨next, hnext, hlive⟩
  · rwa [← hsame]
  · rw [hcur, Option.some.injEq] at hnext
    rw [← hnext, hkeep p hp] at hlive
    exact absurd rfl hlive

/-- A task that is given another state must not be a dead one. -/
theorem GoesOn.staysDead_iff {p : PcbId} {st : State} (h : GoesOn s s')
    (hstat : s'.stat = Function.update s.stat p st) (hst : st ≠ .dead) :
    StaysDead s s' ↔ s.stat p ≠ .dead := by
  constructor
  · intro hstays hp
    have hp' := (hstays p hp).1
    rw [hstat, Function.update_self] at hp'
    exact hst hp'
  · intro hp
    refine h.staysDead fun q hq => ?_
    have hqp : q ≠ p := by
      rintro rfl
      exact hp hq
    rw [hstat, Function.update_of_ne hqp, hq]

/-- The ways in which `Send` and `Receive`, called by `cur`, leave `ipc.cc`: without having
changed a `stat`, with a task made `Ready`, or with the caller `Blocked`. -/
inductive Left (stat : PcbId → State) (cur : PcbId) : Option PcbId → IpcState × Action → Prop
  | done {i : IpcState} (ret : Int) : i.pcbs.stat = stat → Left stat cur none (i, .done ret)
  | wake {i : IpcState} (p : PcbId) : i.pcbs.stat = Function.update stat p .ready →
      Left stat cur (some p) (i, .wake p)
  | schedule {i : IpcState} : i.pcbs.stat = Function.update stat cur .blocked →
      Left stat cur (some cur) (i, .schedule)

theorem send_left {a : MsgPtr} {r : IpcState × Action} (h : s.ipc.send cur a = .ok r) :
    Left s.stat cur (s.moved cur (.send a)) r := by
  simp only [IpcState.send, IpcState.store_mem, IpcState.store_msgQueues, Function.update_self,
    ipc_mem, ipc_msgQueues] at h
  rw [moved]
  split at h
  · next hout =>
    injection h with h
    rw [← h, if_pos hout]
    exact .done (-1) rfl
  · next hin =>
    rw [if_neg hin]
    split at h
    · next receiver hreceiver =>
      rw [hreceiver, Option.getD_some]
      rw [IpcState.deliver] at h
      split at h
      · cases h
      · injection h with h
        rw [← h]
        exact .wake receiver rfl
    · next hnone =>
      injection h with h
      rw [← h, hnone, Option.getD_none]
      exact .schedule rfl

theorem receive_left {a : MsgPtr} {r : IpcState × Action} (h : s.ipc.receive cur a = .ok r) :
    Left s.stat cur (s.moved cur (.receive a)) r := by
  rw [IpcState.receive] at h
  rw [moved]
  split at h
  · cases h
  · simp only at h
    split at h
    · next hring =>
      rw [ipc_pcbs, ipc_msgQueues] at hring
      injection h with h
      rw [← h, if_pos hring]
      exact .done 1 rfl
    · next hring =>
      rw [ipc_pcbs, ipc_msgQueues] at hring
      rw [if_neg hring]
      split at h
      · next sender hsender =>
        rw [ipc_pcbs, ipc_msgQueues] at hsender
        rw [hsender, Option.getD_some]
        rw [IpcState.collect] at h
        split at h
        · cases h
        · injection h with h
          rw [← h]
          exact .wake sender rfl
      · next hnone =>
        rw [ipc_pcbs, ipc_msgQueues] at hnone
        injection h with h
        rw [← h, hnone, Option.getD_none]
        exact .schedule rfl

/-- `Schedule`, at the end of a call. -/
theorem leave_schedule (hcur : s.currentProc = some cur) (h : s.leave fuel .schedule = .ok s') :
    s'.kernel.pcbs = (if s.stat cur = .dead ∨ s.stat cur = .blocked then s.kernel.pcbs
      else s.kernel.pcbs.setStat cur .ready) ∧ GoesOn s s' := by
  rw [leave, bind_eq_ok_iff] at h
  obtain ⟨k, hk, h⟩ := h
  injection h with h
  obtain ⟨hpcbs, hnext⟩ := Kernel.schedule_ends hcur hk
  rw [← h]
  exact ⟨hpcbs, .inr hnext⟩

/-- **`Send` and `Receive` keep the dead dead** exactly when the task they make `Ready` or
`Blocked` is not dead. -/
theorem Left.staysDead_iff {m : Option PcbId} {r : IpcState × Action}
    (hl : Left s.stat cur m r) (hcur : s.currentProc = some cur)
    (h : (s.withIpc r.1).leave fuel r.2 = .ok s') :
    StaysDead s s' ↔ ∀ p, m = some p → s.stat p ≠ .dead := by
  cases hl with
  | @done i ret hstat =>
      injection h with h
      have hsame : s'.stat = s.stat := by
        rw [← h]
        exact hstat
      refine iff_of_true (GoesOn.staysDead (.inl (by rw [← h]; rfl)) fun p hp => ?_) ?_
      · rw [hsame, hp]
      · intro p hp
        cases hp
  | @wake i p hstat =>
      simp only [leave, Kernel.wake, bind_eq_ok_iff] at h
      obtain ⟨k, ⟨sched, -, hk⟩, h⟩ := h
      injection hk with hk
      injection h with h
      have hready : s'.stat = Function.update s.stat p .ready := by
        rw [← h, ← hk]
        exact (congrArg (Function.update · p State.ready) hstat).trans (Function.update_idem ..)
      have hgo : GoesOn s s' := .inl (by rw [← h, ← hk]; rfl)
      rw [hgo.staysDead_iff hready (by decide)]
      simp
  | @schedule i hstat =>
      obtain ⟨hpcbs, hgo⟩ := leave_schedule (s := s.withIpc i) hcur h
      have hblocked : (s.withIpc i).stat = Function.update s.stat cur .blocked := hstat
      rw [if_pos (.inr (by rw [hblocked, Function.update_self]))] at hpcbs
      have hstat' : s'.stat = Function.update s.stat cur .blocked := by
        rw [← hblocked, stat, hpcbs]
        rfl
      have hgo' : GoesOn s s' := hgo
      rw [hgo'.staysDead_iff hstat' (by decide)]
      simp

theorem safe_iff {c : Call} (hcur : s.currentProc = some cur) :
    Safe s c ↔ ∀ p, s.moved cur c = some p → s.stat p ≠ .dead := by
  constructor
  · exact fun h p hp => h cur p hcur hp
  · intro h cur' p hcur' hp
    rw [hcur, Option.some.injEq] at hcur'
    rw [← hcur'] at hp
    exact h p hp

/-- **One call.**  The dead stay dead, and are not switched to, exactly when the task that the
call makes `Ready` or `Blocked` is not dead. -/
theorem staysDead_iff_safe {c : Call} (h : step s c s') : StaysDead s s' ↔ Safe s c := by
  obtain ⟨fuel, h⟩ := h
  rw [call] at h
  split at h
  · cases h
  · next cur hcur =>
    have hcur : s.currentProc = some cur := hcur
    rw [safe_iff hcur]
    cases c with
    | write a m =>
        injection h with h
        have hgo : GoesOn s s' := .inl (by rw [← h]; rfl)
        refine iff_of_true (hgo.staysDead fun p hp => ?_) (fun p hp => by cases hp)
        rw [← h]
        exact hp
    | send a =>
        obtain ⟨r, hsend, h⟩ := bind_eq_ok_iff.mp h
        exact (send_left hsend).staysDead_iff hcur h
    | receive a =>
        obtain ⟨r, hreceive, h⟩ := bind_eq_ok_iff.mp h
        exact (receive_left hreceive).staysDead_iff hcur h
    | schedule =>
        obtain ⟨hpcbs, hgo⟩ := leave_schedule hcur h
        refine iff_of_true (hgo.staysDead fun p hp => ?_) (fun p hp => by cases hp)
        rw [stat, hpcbs]
        split
        · exact hp
        · next hlive =>
          have hne : p ≠ cur := by
            rintro rfl
            exact hlive (.inl hp)
          rw [PcbTable.setStat_stat, if_neg hne]
          exact hp
    | kill p =>
        injection h with h
        have hgo : GoesOn s s' := .inl (by rw [← h]; rfl)
        refine iff_of_true (hgo.staysDead fun q hq => ?_) (fun p hp => by cases hp)
        rw [← h]
        exact s.kernel.kill_dead p hq
    | exit =>
        -- `Schedule` finds the caller dead, and leaves the control blocks alone
        obtain ⟨hpcbs, hgo⟩ := leave_schedule (s := { s with kernel := s.kernel.kill cur }) hcur h
        have hgo' : GoesOn s s' := hgo
        refine iff_of_true (hgo'.staysDead fun q hq => ?_) (fun p hp => by cases hp)
        have hdead : (s.kernel.kill cur).pcbs.stat cur = .dead := Function.update_self ..
        rw [stat, hpcbs, if_pos (.inl hdead)]
        exact s.kernel.kill_dead cur hq

end Step

/-! ## Whole runs -/

/-- The kernel `k` when no task has called `Send` or `Receive` yet, with all message objects
and queues zero. -/
def ofKernel (k : Kernel) : IpcKernel where
  kernel := k
  mem := fun _ => ⟨none, 0, 0, 0, []⟩
  msgQueues := fun _ => ⟨fun _ => ⟨none, 0, 0, 0, []⟩, 0, 0, none, none, false⟩

/-- `Safe`, computed. -/
def safe (c : Call) : Bool :=
  s.currentProc.all fun cur => (s.moved cur c).all fun p => s.stat p ≠ .dead

theorem Safe.of_safe {c : Call} (h : s.safe c = true) : Safe s c := by
  intro cur p hcur hp
  rw [safe, hcur, Option.all_some, hp, Option.all_some] at h
  exact of_decide_eq_true h

/-- A step, computed: `fuel` bounds the loops. -/
def tryStep (fuel : Nat) (s : IpcKernel) (c : Call) : Option IpcKernel :=
  (s.call fuel c).toOption

theorem run_of_exec_tryStep {s' : IpcKernel} {fuel : Nat} {cs : List Call}
    (h : exec safe (tryStep fuel) s cs = some s') : Run (Guarded Safe step) s cs s' :=
  (run_of_exec h).mono fun _ _ _ hs => ⟨.of_safe _ hs.1, fuel, eq_ok_of_toOption hs.2⟩

/-- **Once dead, always dead.**  In a run of the calls, from whatever state, a task that is
dead in one state is dead in all the later ones, and is never switched to, exactly when no
`Send` and no `Receive` of the run makes a dead task `Ready` or `Blocked`. -/
theorem deadForever_iff {s s' : IpcKernel} {es : List (Call × IpcKernel)}
    (h : Run (Recorded step) s es s') :
    (visited s es).Pairwise StaysDead ↔
      Run (Guarded (fun s e => Safe s e.1) (Recorded step)) s es s' :=
  pairwise_visited_iff_guarded StaysDead.refl StaysDead.trans
    (fun _ _ _ => staysDead_iff_safe) h

/-- Two tasks, of which the first one is the idle thread. -/
def twoTasks : List Kernel.Op := [.initIdle 1, .fork 2 threadKernel 0]

/-- Task 2 waits for a message, gets it from task 1, and exits. -/
theorem deadForever_iff_exit : ∃ k es s, Run Kernel.step Kernel.boot twoTasks k ∧
    es.map Prod.fst = [.schedule, .receive ⟨2, 0⟩, .write ⟨1, 0⟩ ⟨none, 1, 0, 0, []⟩,
      .send ⟨1, 0⟩, .schedule, .exit, .schedule] ∧
    Run (Recorded step) (ofKernel k) es s ∧ (visited (ofKernel k) es).Pairwise StaysDead := by
  have hexec : (((exec (fun _ _ => true) (Kernel.tryStep 9) Kernel.boot twoTasks).bind fun k =>
      exec safe (tryStep 9) (ofKernel k) [.schedule, .receive ⟨2, 0⟩,
        .write ⟨1, 0⟩ ⟨none, 1, 0, 0, []⟩, .send ⟨1, 0⟩, .schedule, .exit,
        .schedule]).isSome) = true := by
    decide
  obtain ⟨s, hs⟩ := Option.isSome_iff_exists.mp hexec
  obtain ⟨k, hk, hs⟩ := Option.bind_eq_some_iff.mp hs
  obtain ⟨es, hcalls, hrun⟩ := (run_of_exec_tryStep _ hs).recorded
  have hrec : Run (Recorded step) (ofKernel k) es s :=
    hrun.mono fun _ _ _ h => ⟨h.1.2, h.2⟩
  refine ⟨k, es, s, (run_of_exec hk).mono fun _ _ _ h => Kernel.step_of_tryStep h.2, hcalls,
    hrec, (deadForever_iff hrec).mpr ?_⟩
  exact hrun.mono fun _ _ _ h => ⟨h.1.1, h.1.2, h.2⟩

/-- **`Send` revives the dead.**  Task 2 waits for a message and is killed; then task 1 sends
it one, and task 2 is `Ready` again. -/
theorem send_revives : ¬ ∀ k es s, Run Kernel.step Kernel.boot twoTasks k →
    Run (Recorded step) (ofKernel k) es s → (visited (ofKernel k) es).Pairwise StaysDead := by
  intro hall
  have hexec : ((exec (fun _ _ => true) (Kernel.tryStep 9) Kernel.boot twoTasks).any fun k =>
      (exec safe (tryStep 9) (ofKernel k) [.schedule, .receive ⟨2, 0⟩,
        .write ⟨1, 0⟩ ⟨none, 1, 0, 0, []⟩, .kill 2]).any fun s =>
      (tryStep 9 s (.send ⟨1, 0⟩)).any fun s' =>
      s.stat 2 = .dead ∧ s'.stat 2 = .ready) = true := by
    decide
  simp only [Option.any_eq_true] at hexec
  obtain ⟨k, hk, s, hs, s', hs', hstats⟩ := hexec
  obtain ⟨hdead, hready⟩ := of_decide_eq_true hstats
  obtain ⟨es, -, hrun⟩ := (run_of_exec_tryStep _ hs).recorded
  have hrec : Run (Recorded step) (ofKernel k) es s := hrun.mono fun _ _ _ h => ⟨h.1.2, h.2⟩
  have hlast : Recorded step s (.send ⟨1, 0⟩, s') s' := ⟨⟨9, eq_ok_of_toOption hs'⟩, rfl⟩
  have hpair := hall k _ s' ((run_of_exec hk).mono fun _ _ _ h => Kernel.step_of_tryStep h.2)
    (hrec.snoc hlast)
  rw [visited_snoc, List.pairwise_append] at hpair
  have hstays := hpair.2.2 s hrec.last_mem_visited s' (List.mem_singleton_self s')
  have hdead' := (hstays 2 hdead).1
  rw [hready] at hdead'
  cases hdead'

end IpcKernel

end InfoKernel.Task
