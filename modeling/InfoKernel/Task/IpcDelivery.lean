import InfoKernel.Lib.Loop
import InfoKernel.Lib.Run
import InfoKernel.Task.Ipc
import Mathlib.Data.List.Perm.Basic

/-!
# What happens to a message that `Send` accepts

The tasks of `tasks` call `Send` and `Receive` in any order.  A task is either
outside both calls, or inside one of them, at its `Schedule()`; `call` records
which, with the object it passed.  A step is one of

* `write`: a task outside both calls writes one of its own message objects;
* `send`, `receive`: a task outside both calls enters one, which runs up to its
  `return` or its `Schedule()`;
* `resume`: a task inside a call that is not `Blocked` any more is scheduled
  again, and the call returns 1.

`accepted` and `returned` are the history: the messages that `Send` took on
(with `sender` filled in), and what each `Receive` gave to its caller when it
returned.
-/

namespace InfoKernel.Task.Ipc

open InfoKernel.Lib

/-- The call a task is blocked in, with the object it passed. -/
inductive Call where
  | sending (slot : Nat)
  | receiving (slot : Nat)
  deriving DecidableEq, Repr

/-- A state of the system: the kernel's part, where each task is, the history. -/
structure Sys where
  ipc : IpcState
  call : PcbId → Option Call
  accepted : List Message
  returned : List (PcbId × Message)

/-- The steps, each by one task. -/
inductive Op where
  | write (p : PcbId) (slot : Nat) (m : Message)
  | send (p : PcbId) (slot : Nat)
  | receive (p : PcbId) (slot : Nat)
  | resume (p : PcbId)
  deriving DecidableEq, Repr

/-- The task a step is by. -/
def Op.task : Op → PcbId
  | .write p _ _ => p
  | .send p _ => p
  | .receive p _ => p
  | .resume p => p

namespace Sys

/-- Entering or leaving a call. -/
def setCall (s : Sys) (p : PcbId) (c : Option Call) : Sys :=
  { s with call := Function.update s.call p c }

/-- The message `p` sends from its object `slot`, with its true sender. -/
def message (s : Sys) (p : PcbId) (slot : Nat) : Message :=
  { s.ipc.mem ⟨p, slot⟩ with sender := some p }

/-- After a `Send` of `p`: the message is accepted unless `Send` returned at once. -/
def afterSend (s : Sys) (p : PcbId) (slot : Nat) (r : IpcState × Action) : Sys :=
  match r.2 with
  | .done _ => { s with ipc := r.1 }
  | .wake _ => { s with ipc := r.1, accepted := s.accepted ++ [s.message p slot] }
  | .schedule =>
      ({ s with ipc := r.1, accepted := s.accepted ++ [s.message p slot] }).setCall p
        (some (.sending slot))

/-- After a `Receive` of `p`: unless it blocked, it has returned a message. -/
def afterReceive (s : Sys) (p : PcbId) (slot : Nat) (r : IpcState × Action) : Sys :=
  match r.2 with
  | .schedule => ({ s with ipc := r.1 }).setCall p (some (.receiving slot))
  | _ => { s with ipc := r.1, returned := s.returned ++ [(p, r.1.mem ⟨p, slot⟩)] }

/-- The return of a call whose task runs again. -/
def resume (s : Sys) (p : PcbId) : Call → Sys
  | .sending _ => s.setCall p none
  | .receiving slot =>
      ({ s with returned := s.returned ++ [(p, s.ipc.mem ⟨p, slot⟩)] }).setCall p none

/-- One step.  There is none for a task that is not one of `tasks`, that is in the
middle of a call (or not, for `resume`), or that is `Blocked`. -/
def step (tasks : List PcbId) (s : Sys) (op : Op) : Option Sys :=
  if op.task ∈ tasks ∧ s.ipc.pcbs.stat op.task ≠ .blocked then
    match op, s.call op.task with
    | .write p slot m, none => some { s with ipc := s.ipc.store ⟨p, slot⟩ m }
    | .send p slot, none => (s.ipc.send p ⟨p, slot⟩).toOption.map (s.afterSend p slot)
    | .receive p slot, none =>
        (s.ipc.receive p ⟨p, slot⟩).toOption.map (s.afterReceive p slot)
    | .resume p, some c => some (s.resume p c)
    | _, _ => none
  else none

/-- The start: nobody is in a call, nothing has been sent, the queues are as the
loader zeroed them, and the pids of the tasks are distinct and below 256. -/
structure Init (tasks : List PcbId) (s : Sys) : Prop where
  pid_range : ∀ p ∈ tasks, 0 ≤ s.ipc.pcbs.pid p ∧ s.ipc.pcbs.pid p < 256
  pid_inj : ∀ p ∈ tasks, ∀ q ∈ tasks, s.ipc.pcbs.pid p = s.ipc.pcbs.pid q → p = q
  call : ∀ p, s.call p = none
  ring : ∀ d, (s.ipc.msgQueues d).head = (s.ipc.msgQueues d).tail
  sender : ∀ d, (s.ipc.msgQueues d).waitingSender = none
  receiver : ∀ d, (s.ipc.msgQueues d).waitingReceiver = none
  accepted : s.accepted = []
  returned : s.returned = []

/-! ## Where the messages are -/

/-- The messages accepted for destination `d`. -/
def acceptedFor (s : Sys) (d : Nat) : List Message :=
  s.accepted.filter fun m => m.dstPid = d

/-- What the `Receive`s of the task with pid `d` have returned. -/
def returnedBy (s : Sys) (d : Nat) : List Message :=
  (s.returned.filter fun r => s.ipc.pcbs.pid r.1 = d).map Prod.snd

/-- The message a woken `Receive` of `r` is about to return. -/
def inHandOf (s : Sys) (r : PcbId) : List Message :=
  match s.call r with
  | some (.receiving slot) =>
      if s.ipc.pcbs.stat r = .blocked then [] else [s.ipc.mem ⟨r, slot⟩]
  | _ => []

/-- The message the woken `Receive` of the task with pid `d` is about to return. -/
def inHand (tasks : List PcbId) (s : Sys) (d : Nat) : List Message :=
  match tasks.find? fun r => s.ipc.pcbs.pid r = d with
  | some r => s.inHandOf r
  | none => []

/-- The message in the object of the sender that queue `d` records. -/
def recorded (s : Sys) (d : Nat) : List Message :=
  match (s.ipc.msgQueues d).waitingSender with
  | some p => ((s.ipc.pcbs.msg p).map s.ipc.mem).toList
  | none => []

/-- Task `p` is blocked inside a `Send` of the object `slot`. -/
def BlockedInSend (s : Sys) (p : PcbId) (slot : Nat) : Prop :=
  s.call p = some (.sending slot) ∧ s.ipc.pcbs.stat p = .blocked

/-- **No message is lost, overwritten or delivered twice.**  What was accepted for
a destination is, each message once and unchanged, what its `Receive`s returned,
what a woken `Receive` holds in its buffer, and what the recorded sender is
blocked with; a recorded sender is blocked in the `Send` of that message, and a
task blocked in `Send` is recorded in the queue of its destination. -/
structure Delivered (tasks : List PcbId) (s : Sys) : Prop where
  ledger : ∀ d, (s.acceptedFor d).Perm
    (s.returnedBy d ++ inHand tasks s d ++ s.recorded d)
  recorded : ∀ d p, (s.ipc.msgQueues d).waitingSender = some p →
    ∃ slot, s.BlockedInSend p slot ∧ s.recorded d = [s.ipc.mem ⟨p, slot⟩] ∧
      (s.ipc.mem ⟨p, slot⟩).sender = some p ∧ (s.ipc.mem ⟨p, slot⟩).dstPid = d
  referred : ∀ p slot, s.BlockedInSend p slot →
    (s.ipc.msgQueues (s.ipc.mem ⟨p, slot⟩).dstPid).waitingSender = some p

/-! ## The invariant -/

/-- What every step preserves as long as no `Send` parks in a queue that already
records a sender.  Besides the three clauses of `Delivered` it says what a queue's
two slots refer to. -/
structure Inv (tasks : List PcbId) (s : Sys) : Prop where
  pid_range : ∀ p ∈ tasks, 0 ≤ s.ipc.pcbs.pid p ∧ s.ipc.pcbs.pid p < 256
  pid_inj : ∀ p ∈ tasks, ∀ q ∈ tasks, s.ipc.pcbs.pid p = s.ipc.pcbs.pid q → p = q
  ring : ∀ d, (s.ipc.msgQueues d).head = (s.ipc.msgQueues d).tail
  receiver : ∀ d r, (s.ipc.msgQueues d).waitingReceiver = some r →
    r ∈ tasks ∧ s.ipc.pcbs.pid r = d ∧ ∃ slot, s.call r = some (.receiving slot) ∧
      s.ipc.pcbs.stat r = .blocked ∧ s.ipc.pcbs.msg r = some ⟨r, slot⟩
  sender : ∀ d p, (s.ipc.msgQueues d).waitingSender = some p →
    ∃ slot, s.BlockedInSend p slot ∧ s.ipc.pcbs.msg p = some ⟨p, slot⟩ ∧
      (s.ipc.mem ⟨p, slot⟩).sender = some p ∧ (s.ipc.mem ⟨p, slot⟩).dstPid = d
  referred : ∀ p slot, s.BlockedInSend p slot →
    (s.ipc.msgQueues (s.ipc.mem ⟨p, slot⟩).dstPid).waitingSender = some p
  ledger : ∀ d, (s.acceptedFor d).Perm
    (s.returnedBy d ++ inHand tasks s d ++ s.recorded d)

/-- The condition on a step: a `Send` to one of the queues that finds no waiting
receiver there finds no recorded sender either. -/
def slotFree (s : Sys) : Op → Bool
  | .send p slot =>
      let d := (s.ipc.mem ⟨p, slot⟩).dstPid
      decide (256 ≤ d) || (s.ipc.msgQueues d).waitingReceiver.isSome ||
        (s.ipc.msgQueues d).waitingSender.isNone
  | _ => true

/-- `slotFree` as a condition on steps. -/
def SlotFree (s : Sys) (op : Op) : Prop := s.slotFree op = true

variable {tasks : List PcbId} {s : Sys}

theorem Init.inv (h : Init tasks s) : Inv tasks s where
  pid_range := h.pid_range
  pid_inj := h.pid_inj
  ring := h.ring
  receiver := by
    intro d r hr
    rw [h.receiver d] at hr
    cases hr
  sender := by
    intro d p hp
    rw [h.sender d] at hp
    cases hp
  referred := by
    intro p slot hp
    rw [BlockedInSend, h.call p] at hp
    cases hp.1
  ledger := by
    intro d
    have hhand : inHand tasks s d = [] := by
      unfold inHand inHandOf
      cases tasks.find? fun r => s.ipc.pcbs.pid r = d with
      | none => rfl
      | some r => simp [h.call r]
    rw [hhand]
    simp [acceptedFor, returnedBy, Sys.recorded, h.accepted, h.returned, h.sender d]

/-- A task is in one `Send` at a time. -/
theorem slot_unique {p : PcbId} {k j : Nat} (hk : s.call p = some (.sending k))
    (hj : s.call p = some (.sending j)) : j = k := by
  rw [hk] at hj
  injection hj with hj
  injection hj with hj
  exact hj.symm

theorem Inv.recorded_eq (h : Inv tasks s) {d : Nat} {p : PcbId} {slot : Nat}
    (hp : (s.ipc.msgQueues d).waitingSender = some p)
    (hc : s.call p = some (.sending slot)) :
    s.recorded d = [s.ipc.mem ⟨p, slot⟩] := by
  obtain ⟨slot', ⟨hc', -⟩, hmsg, -⟩ := h.sender d p hp
  rw [slot_unique hc hc'] at hmsg
  rw [Sys.recorded, hp]
  simp [hmsg]

/-- A blocked sender is recorded in one queue only, that of its message's destination. -/
theorem Inv.recorded_once (h : Inv tasks s) {d e : Nat} {q : PcbId}
    (hd : (s.ipc.msgQueues d).waitingSender = some q)
    (he : (s.ipc.msgQueues e).waitingSender = some q) : e = d := by
  obtain ⟨k, hbk, -, -, hkd⟩ := h.sender d q hd
  obtain ⟨j, hbj, -, -, hje⟩ := h.sender e q he
  rw [← hje, slot_unique hbk.1 hbj.1, hkd]

/-- The invariant says more than the claim about the messages. -/
theorem Inv.delivered (h : Inv tasks s) : Delivered tasks s where
  ledger := h.ledger
  recorded := by
    intro d p hp
    obtain ⟨slot, hb, -, hs, hd⟩ := h.sender d p hp
    exact ⟨slot, hb, h.recorded_eq hp hb.1, hs, hd⟩
  referred := h.referred

/-- The task a pid belongs to is found by it. -/
theorem Inv.find?_pid (h : Inv tasks s) {r : PcbId} (hr : r ∈ tasks) {d : Nat}
    (hd : s.ipc.pcbs.pid r = d) :
    (tasks.find? fun q => s.ipc.pcbs.pid q = d) = some r := by
  cases hf : tasks.find? fun q => s.ipc.pcbs.pid q = d with
  | none =>
      rw [List.find?_eq_none] at hf
      exact absurd (by simpa using hd) (hf r hr)
  | some q =>
      have hq : s.ipc.pcbs.pid q = d := by simpa using List.find?_some hf
      rw [h.pid_inj q (List.mem_of_find?_eq_some hf) r hr (hq.trans hd.symm)]

/-- `inHand` is `inHandOf` at the task with that pid. -/
theorem Inv.inHand_eq (h : Inv tasks s) {r : PcbId} (hr : r ∈ tasks) {d : Nat}
    (hd : s.ipc.pcbs.pid r = d) : inHand tasks s d = s.inHandOf r := by
  rw [inHand, h.find?_pid hr hd]

/-- Two states with the same pids that hold the same in every task's hand but
`r`'s agree on `inHand` for every pid but `r`'s. -/
theorem inHand_congr {s' : Sys} (hpid : s'.ipc.pcbs.pid = s.ipc.pcbs.pid) {d : Nat}
    (hof : ∀ q ∈ tasks, s.ipc.pcbs.pid q = d → s'.inHandOf q = s.inHandOf q) :
    inHand tasks s' d = inHand tasks s d := by
  rw [inHand, inHand, hpid]
  cases hf : tasks.find? fun q => s.ipc.pcbs.pid q = d with
  | none => rfl
  | some q =>
      exact hof q (List.mem_of_find?_eq_some hf) (by simpa using List.find?_some hf)

/-- One more message is accepted. -/
theorem acceptedFor_append {s' : Sys} {m : Message} (hacc : s'.accepted = s.accepted ++ [m])
    (d : Nat) :
    s'.acceptedFor d = s.acceptedFor d ++ if m.dstPid = d then [m] else [] := by
  rw [acceptedFor, acceptedFor, hacc, List.filter_append]
  by_cases hd : m.dstPid = d
  · simp [hd]
  · simp [hd]

/-- One more message is returned. -/
theorem returnedBy_append {s' : Sys} {p : PcbId} {m : Message}
    (hpid : s'.ipc.pcbs.pid = s.ipc.pcbs.pid) (hret : s'.returned = s.returned ++ [(p, m)])
    (d : Nat) :
    s'.returnedBy d = s.returnedBy d ++ if s.ipc.pcbs.pid p = d then [m] else [] := by
  rw [returnedBy, returnedBy, hpid, hret, List.filter_append, List.map_append]
  by_cases hd : s.ipc.pcbs.pid p = d
  · simp [hd]
  · simp [hd]

/-! ## What a step leaves alone

Every step touches the control block, the objects and the call of one or two
tasks, and one queue.  `Same s s' q` says that task `q` is not touched, and
`Inv.of_frame` reduces the invariant after a step to what the step touches. -/

/-- Nothing the invariant reads about task `q` differs between `s` and `s'`. -/
structure Same (s s' : Sys) (q : PcbId) : Prop where
  call : s'.call q = s.call q
  stat : s'.ipc.pcbs.stat q = s.ipc.pcbs.stat q
  msg : s'.ipc.pcbs.msg q = s.ipc.pcbs.msg q
  mem : ∀ slot, s'.ipc.mem ⟨q, slot⟩ = s.ipc.mem ⟨q, slot⟩

variable {s' : Sys}

theorem Same.blockedInSend {q : PcbId} (h : Same s s' q) {slot : Nat} :
    s'.BlockedInSend q slot ↔ s.BlockedInSend q slot := by
  rw [BlockedInSend, BlockedInSend, h.call, h.stat]

theorem Same.inHandOf {q : PcbId} (h : Same s s' q) : s'.inHandOf q = s.inHandOf q := by
  simp only [Sys.inHandOf, h.call, h.stat, h.mem]

/-- A step that touches only tasks with nothing in their hands. -/
theorem inHand_of_frame {T : PcbId → Prop} (hpid : s'.ipc.pcbs.pid = s.ipc.pcbs.pid)
    (hsame : ∀ q, ¬ T q → Same s s' q)
    (hT : ∀ q, T q → s.inHandOf q = [] ∧ s'.inHandOf q = []) (d : Nat) :
    inHand tasks s' d = inHand tasks s d := by
  refine inHand_congr hpid fun q _ _ => ?_
  by_cases hq : T q
  · rw [(hT q hq).1, (hT q hq).2]
  · exact (hsame q hq).inHandOf

/-- The recorded message of a queue whose sender is not touched. -/
theorem Inv.recorded_congr (h : Inv tasks s) {d : Nat}
    (hws : (s'.ipc.msgQueues d).waitingSender = (s.ipc.msgQueues d).waitingSender)
    (hsame : ∀ q, (s.ipc.msgQueues d).waitingSender = some q → Same s s' q) :
    s'.recorded d = s.recorded d := by
  rw [Sys.recorded, Sys.recorded, hws]
  cases hw : (s.ipc.msgQueues d).waitingSender with
  | none => rfl
  | some q =>
      obtain ⟨slot, -, hmsg, -⟩ := h.sender d q hw
      have hq := hsame q hw
      simp only [hq.msg, hmsg, Option.map_some, hq.mem]

/-- **The frame rule.**  A step that touches only the tasks of `T` and the queues
of `D` preserves the invariant if no other queue refers to a task of `T`, and the
clauses hold again for the tasks of `T` and the queues of `D`. -/
theorem Inv.of_frame (h : Inv tasks s) {T : PcbId → Prop} {D : Nat → Prop}
    (hpid : s'.ipc.pcbs.pid = s.ipc.pcbs.pid)
    (hsame : ∀ q, ¬ T q → Same s s' q)
    (hqueue : ∀ e, ¬ D e → s'.ipc.msgQueues e = s.ipc.msgQueues e)
    (hT : ∀ e q, ¬ D e → T q → (s.ipc.msgQueues e).waitingReceiver ≠ some q ∧
      (s.ipc.msgQueues e).waitingSender ≠ some q)
    (hring : ∀ d, D d → (s'.ipc.msgQueues d).head = (s'.ipc.msgQueues d).tail)
    (hrecv : ∀ d, D d → ∀ r, (s'.ipc.msgQueues d).waitingReceiver = some r →
      r ∈ tasks ∧ s.ipc.pcbs.pid r = d ∧ ∃ slot, s'.call r = some (.receiving slot) ∧
        s'.ipc.pcbs.stat r = .blocked ∧ s'.ipc.pcbs.msg r = some ⟨r, slot⟩)
    (hsend : ∀ d, D d → ∀ q, (s'.ipc.msgQueues d).waitingSender = some q →
      ∃ slot, s'.BlockedInSend q slot ∧ s'.ipc.pcbs.msg q = some ⟨q, slot⟩ ∧
        (s'.ipc.mem ⟨q, slot⟩).sender = some q ∧ (s'.ipc.mem ⟨q, slot⟩).dstPid = d)
    (href : ∀ q slot, s'.BlockedInSend q slot → T q ∨ D (s'.ipc.mem ⟨q, slot⟩).dstPid →
      (s'.ipc.msgQueues (s'.ipc.mem ⟨q, slot⟩).dstPid).waitingSender = some q)
    (hledger : ∀ e, (s'.acceptedFor e).Perm
      (s'.returnedBy e ++ inHand tasks s' e ++ s'.recorded e)) :
    Inv tasks s' where
  pid_range := by rw [hpid]; exact h.pid_range
  pid_inj := by rw [hpid]; exact h.pid_inj
  ring := by
    intro e
    by_cases he : D e
    · exact hring e he
    · rw [hqueue e he]; exact h.ring e
  receiver := by
    intro e r hr
    rw [hpid]
    by_cases he : D e
    · exact hrecv e he r hr
    · rw [hqueue e he] at hr
      obtain ⟨hrt, hrd, slot, hrc, hrb, hrm⟩ := h.receiver e r hr
      have hs := hsame r fun hTr => (hT e r he hTr).1 hr
      exact ⟨hrt, hrd, slot, hs.call.trans hrc, hs.stat.trans hrb, hs.msg.trans hrm⟩
  sender := by
    intro e q hq
    by_cases he : D e
    · exact hsend e he q hq
    · rw [hqueue e he] at hq
      obtain ⟨slot, hb, hmsg, hs, hd⟩ := h.sender e q hq
      have hsq := hsame q fun hTq => (hT e q he hTq).2 hq
      rw [← hsq.mem slot] at hs hd
      exact ⟨slot, hsq.blockedInSend.mpr hb, hsq.msg.trans hmsg, hs, hd⟩
  referred := by
    intro q slot hb
    by_cases hq : T q ∨ D (s'.ipc.mem ⟨q, slot⟩).dstPid
    · exact href q slot hb hq
    · rw [not_or] at hq
      have hs := hsame q hq.1
      rw [hqueue _ hq.2, hs.mem slot]
      exact h.referred q slot (hs.blockedInSend.mp hb)
  ledger := hledger

/-! ## One lemma for each thing a step can do

`Send` and `Receive` first write the caller's own object; a task outside both
calls owns none of the objects the queues refer to, so that this changes nothing
the invariant speaks about.  The four ways to go on are then taken one by one. -/

/-- No queue refers to a task outside both calls. -/
theorem Inv.idle (h : Inv tasks s) {p : PcbId} (hc : s.call p = none) (d : Nat) :
    (s.ipc.msgQueues d).waitingReceiver ≠ some p ∧
      (s.ipc.msgQueues d).waitingSender ≠ some p := by
  constructor
  · intro hp
    obtain ⟨-, -, slot, hpc, -⟩ := h.receiver d p hp
    rw [hc] at hpc
    cases hpc
  · intro hp
    obtain ⟨slot, hb, -⟩ := h.sender d p hp
    rw [BlockedInSend, hc] at hb
    cases hb.1

theorem inHandOf_eq_nil {p : PcbId} (hc : ∀ k, s.call p ≠ some (.receiving k)) :
    s.inHandOf p = [] := by
  unfold inHandOf
  cases hp : s.call p with
  | none => rfl
  | some c =>
      cases c with
      | sending k => rfl
      | receiving k => exact absurd hp (hc k)

/-- A task whose `Send` is blocked is in a `Send`. -/
theorem ne_of_blockedInSend {p q : PcbId} {slot : Nat} (hb : s.BlockedInSend q slot)
    (hc : ∀ k, s.call p ≠ some (.sending k)) : q ≠ p := by
  rintro rfl
  exact hc slot hb.1

/-- The sender a queue records is in a `Send`. -/
theorem Inv.sender_ne (h : Inv tasks s) {p q : PcbId} {d : Nat}
    (hq : (s.ipc.msgQueues d).waitingSender = some q)
    (hc : ∀ k, s.call p ≠ some (.sending k)) : q ≠ p := by
  obtain ⟨slot, hb, -⟩ := h.sender d q hq
  exact ne_of_blockedInSend hb hc

/-- **Writing an object of a task outside both calls.** -/
theorem Inv.store_idle (h : Inv tasks s) {p : PcbId} (hc : s.call p = none)
    (slot : Nat) (m : Message) :
    Inv tasks { s with ipc := s.ipc.store ⟨p, slot⟩ m } := by
  set s' : Sys := { s with ipc := s.ipc.store ⟨p, slot⟩ m } with hs'
  have hsend : ∀ k, s.call p ≠ some (.sending k) := fun k => by simp [hc]
  have hrecv : ∀ k, s.call p ≠ some (.receiving k) := fun k => by simp [hc]
  have hsame : ∀ q, q ≠ p → Same s s' q := fun q hq => ⟨rfl, rfl, rfl, fun k =>
    Function.update_of_ne (fun hk => hq (congrArg MsgPtr.owner hk)) _ _⟩
  have hpid : s'.ipc.pcbs.pid = s.ipc.pcbs.pid := rfl
  refine h.of_frame (T := (· = p)) (D := fun _ => False) hpid hsame (fun _ _ => rfl) ?_
    (fun _ => False.elim) (fun _ => False.elim) (fun _ => False.elim) ?_ ?_
  · rintro e q - rfl
    exact h.idle hc e
  · rintro q k hb (rfl | hd)
    · exact absurd hb.1 (hsend k)
    · exact hd.elim
  · intro d
    have hhand : inHand tasks s' d = inHand tasks s d := by
      refine inHand_of_frame (T := (· = p)) hpid hsame ?_ d
      rintro q rfl
      exact ⟨inHandOf_eq_nil hrecv, inHandOf_eq_nil hrecv⟩
    have hrec : s'.recorded d = s.recorded d :=
      h.recorded_congr rfl fun q hq => hsame q (h.sender_ne hq hsend)
    rw [hhand, hrec]
    exact h.ledger d

/-- **A message goes to a waiting receiver.**  It moves from the caller's object
into the hand of the receiver, which the queue does not refer to any more. -/
theorem Inv.deliver (h : Inv tasks s) {r : PcbId} {a buf : MsgPtr} {d : Nat}
    (hd : (s.ipc.mem a).dstPid = d)
    (hr : (s.ipc.msgQueues d).waitingReceiver = some r)
    (hbuf : s.ipc.pcbs.msg r = some buf) :
    Inv tasks
      { s with
        ipc := ((s.ipc.store buf (s.ipc.mem a)).setQueue d
          { s.ipc.msgQueues d with waitingReceiver := none }).setStat r .ready
        accepted := s.accepted ++ [s.ipc.mem a] } := by
  obtain ⟨hrt, hrd, k, hrc, hrb, hrm⟩ := h.receiver d r hr
  obtain rfl : buf = ⟨r, k⟩ := by
    rw [hbuf] at hrm
    exact Option.some.inj hrm
  set s' : Sys := { s with
        ipc := ((s.ipc.store ⟨r, k⟩ (s.ipc.mem a)).setQueue d
          { s.ipc.msgQueues d with waitingReceiver := none }).setStat r .ready
        accepted := s.accepted ++ [s.ipc.mem a] } with hs'
  have hpid : s'.ipc.pcbs.pid = s.ipc.pcbs.pid := rfl
  have hcall : s'.call = s.call := rfl
  have hstat : ∀ q, s'.ipc.pcbs.stat q = if q = r then .ready else s.ipc.pcbs.stat q :=
    fun q => s.ipc.pcbs.setStat_stat r q .ready
  have hqueue : ∀ e, e ≠ d → s'.ipc.msgQueues e = s.ipc.msgQueues e :=
    fun e he => Function.update_of_ne he _ _
  have hqd : s'.ipc.msgQueues d = { s.ipc.msgQueues d with waitingReceiver := none } :=
    Function.update_self ..
  have hsame : ∀ q, q ≠ r → Same s s' q := fun q hq =>
    ⟨rfl, by rw [hstat, if_neg hq], rfl, fun j =>
      Function.update_of_ne (fun hj => hq (congrArg MsgPtr.owner hj)) _ _⟩
  have hsend : ∀ j, s.call r ≠ some (.sending j) := fun j => by simp [hrc]
  refine h.of_frame (T := (· = r)) (D := (· = d)) hpid hsame hqueue ?_ ?_ ?_ ?_ ?_ ?_
  · rintro e q he rfl
    refine ⟨fun hq => he ?_, fun hq => h.sender_ne hq hsend rfl⟩
    obtain ⟨-, hqe, -⟩ := h.receiver e q hq
    exact_mod_cast hqe.symm.trans hrd
  · rintro e rfl
    rw [hqd]; exact h.ring e
  · rintro e rfl q hq
    rw [hqd] at hq
    cases hq
  · rintro e rfl q hq
    rw [hqd] at hq
    obtain ⟨j, hb, hmsg, hs, hqd'⟩ := h.sender e q hq
    have hsq := hsame q (h.sender_ne hq hsend)
    rw [← hsq.mem j] at hs hqd'
    exact ⟨j, hsq.blockedInSend.mpr hb, hsq.msg.trans hmsg, hs, hqd'⟩
  · intro q j hb _
    have hsq := hsame q (ne_of_blockedInSend hb hsend)
    have hq := h.referred q j (hsq.blockedInSend.mp hb)
    rw [hsq.mem j]
    by_cases he : (s.ipc.mem ⟨q, j⟩).dstPid = d
    · rw [he, hqd]; rw [he] at hq; exact hq
    · rw [hqueue _ he]; exact hq
  · intro e
    have hrec : s'.recorded e = s.recorded e := by
      refine h.recorded_congr ?_ fun q hq => hsame q (h.sender_ne hq hsend)
      by_cases he : e = d
      · rw [he, hqd]
      · rw [hqueue e he]
    have hret : s'.returnedBy e = s.returnedBy e := rfl
    rw [hrec, hret]
    by_cases he : e = d
    · have hacc : s'.acceptedFor e = s.acceptedFor e ++ [s.ipc.mem a] := by
        rw [acceptedFor_append rfl, if_pos (hd.trans he.symm)]
      have hold : inHand tasks s e = [] := by
        rw [he, h.inHand_eq hrt hrd, inHandOf, hrc]
        simp [hrb]
      have hnew : inHand tasks s' e = [s.ipc.mem a] := by
        rw [inHand, hpid, he, h.find?_pid hrt hrd]
        simp only [inHandOf, hcall, hrc, hstat r, if_true]
        simp [hs']
      have hl := h.ledger e
      rw [hold, List.append_nil] at hl
      rw [hacc, hnew]
      refine (hl.append_right _).trans ?_
      rw [List.append_assoc, List.append_assoc]
      exact (List.perm_append_comm).append_left _
    · have hacc : s'.acceptedFor e = s.acceptedFor e := by
        rw [acceptedFor_append rfl, if_neg fun hde => he (hde.symm.trans hd), List.append_nil]
      have hhand : inHand tasks s' e = inHand tasks s e := by
        refine inHand_congr hpid fun q _ hqe => (hsame q ?_).inHandOf
        rintro rfl
        exact he (by exact_mod_cast hqe.symm.trans hrd)
      rw [hacc, hhand]
      exact h.ledger e

/-- **A message is parked.**  It stays in the caller's object, and the queue, which
recorded nobody, records the caller. -/
theorem Inv.park (h : Inv tasks s) {p : PcbId} {slot d : Nat} (hc : s.call p = none)
    (hd : (s.ipc.mem ⟨p, slot⟩).dstPid = d) (hs : (s.ipc.mem ⟨p, slot⟩).sender = some p)
    (hfree : (s.ipc.msgQueues d).waitingSender = none) :
    Inv tasks
      (({ s with
          ipc := ((s.ipc.setMsg p ⟨p, slot⟩).setQueue d
            { s.ipc.msgQueues d with waitingSender := some p }).setStat p .blocked
          accepted := s.accepted ++ [s.ipc.mem ⟨p, slot⟩] } : Sys).setCall p
        (some (.sending slot))) := by
  set s' : Sys := ({ s with
      ipc := ((s.ipc.setMsg p ⟨p, slot⟩).setQueue d
        { s.ipc.msgQueues d with waitingSender := some p }).setStat p .blocked
      accepted := s.accepted ++ [s.ipc.mem ⟨p, slot⟩] } : Sys).setCall p
        (some (.sending slot)) with hs'
  have hpid : s'.ipc.pcbs.pid = s.ipc.pcbs.pid := rfl
  have hmem : s'.ipc.mem = s.ipc.mem := rfl
  have hcallp : s'.call p = some (.sending slot) := Function.update_self ..
  have hstatp : s'.ipc.pcbs.stat p = .blocked := Function.update_self ..
  have hmsgp : s'.ipc.pcbs.msg p = some ⟨p, slot⟩ := Function.update_self ..
  have hsame : ∀ q, q ≠ p → Same s s' q := fun q hq =>
    ⟨Function.update_of_ne hq _ _, Function.update_of_ne hq _ _,
      Function.update_of_ne hq _ _, fun _ => rfl⟩
  have hqueue : ∀ e, e ≠ d → s'.ipc.msgQueues e = s.ipc.msgQueues e :=
    fun e he => Function.update_of_ne he _ _
  have hqd : s'.ipc.msgQueues d = { s.ipc.msgQueues d with waitingSender := some p } :=
    Function.update_self ..
  have hsend : ∀ k, s.call p ≠ some (.sending k) := fun k => by simp [hc]
  have hrecv : ∀ k, s.call p ≠ some (.receiving k) := fun k => by simp [hc]
  have hblocked : s'.BlockedInSend p slot := ⟨hcallp, hstatp⟩
  refine h.of_frame (T := (· = p)) (D := (· = d)) hpid hsame hqueue ?_ ?_ ?_ ?_ ?_ ?_
  · rintro e q - rfl
    exact h.idle hc e
  · rintro e rfl
    rw [hqd]; exact h.ring e
  · rintro e rfl r hr
    rw [hqd] at hr
    obtain ⟨hrt, hrd, k, hrc, hrb, hrm⟩ := h.receiver e r hr
    have hsr := hsame r fun hrp => (h.idle hc e).1 (hrp ▸ hr)
    exact ⟨hrt, hrd, k, hsr.call.trans hrc, hsr.stat.trans hrb, hsr.msg.trans hrm⟩
  · rintro e rfl q hq
    rw [hqd] at hq
    obtain rfl : p = q := Option.some.inj hq
    exact ⟨slot, hblocked, hmsgp, hs, hd⟩
  · intro q k hb hq
    rw [hmem]
    by_cases hqp : q = p
    · subst hqp
      rw [slot_unique hcallp hb.1, hd, hqd]
    · -- nobody else is blocked in a send to `d`, since the queue recorded nobody
      have hq' := h.referred q k ((hsame q hqp).blockedInSend.mp hb)
      rcases hq with hq | hq
      · exact absurd hq hqp
      · rw [hmem] at hq
        rw [hq, hfree] at hq'
        cases hq'
  · intro e
    have hhand : inHand tasks s' e = inHand tasks s e := by
      refine inHand_of_frame (T := (· = p)) hpid hsame ?_ e
      rintro q rfl
      exact ⟨inHandOf_eq_nil hrecv, inHandOf_eq_nil fun k => by simp [hcallp]⟩
    have hret : s'.returnedBy e = s.returnedBy e := rfl
    rw [hhand, hret]
    by_cases he : e = d
    · have hacc : s'.acceptedFor e = s.acceptedFor e ++ [s.ipc.mem ⟨p, slot⟩] := by
        rw [acceptedFor_append rfl, if_pos (hd.trans he.symm)]
      have hold : s.recorded e = [] := by
        rw [Sys.recorded, he, hfree]
      have hnew : s'.recorded e = [s.ipc.mem ⟨p, slot⟩] := by
        rw [Sys.recorded, he, hqd]
        simp [hmsgp, hmem]
      have hl := h.ledger e
      rw [hold, List.append_nil] at hl
      rw [hacc, hnew]
      exact hl.append_right _
    · have hacc : s'.acceptedFor e = s.acceptedFor e := by
        rw [acceptedFor_append rfl, if_neg fun hde => he (hde.symm.trans hd), List.append_nil]
      have hrec : s'.recorded e = s.recorded e :=
        h.recorded_congr (by rw [hqueue e he]) fun q hq => hsame q (h.sender_ne hq hsend)
      rw [hacc, hrec]
      exact h.ledger e

/-- The buffer of a recorded sender is the object it sends from, with its true sender. -/
theorem Inv.sender_buffer (h : Inv tasks s) {q : PcbId} {d : Nat} {buf : MsgPtr}
    (hq : (s.ipc.msgQueues d).waitingSender = some q) (hbuf : s.ipc.pcbs.msg q = some buf) :
    ∃ k, buf = ⟨q, k⟩ ∧ s.BlockedInSend q k ∧
      ({ s.ipc.mem buf with sender := some q } : Message) = s.ipc.mem buf := by
  obtain ⟨k, hb, hm, hms, -⟩ := h.sender d q hq
  obtain rfl : buf = ⟨q, k⟩ := by
    rw [hbuf] at hm
    exact Option.some.inj hm
  exact ⟨k, rfl, hb, by rw [← hms]⟩

/-- **A message is collected.**  It moves from the object of the recorded sender
into what the caller's `Receive` returns, and the queue records nobody. -/
theorem Inv.collect (h : Inv tasks s) {p q : PcbId} (slot : Nat) {d : Nat} {buf : MsgPtr}
    (hc : s.call p = none) (hd : s.ipc.pcbs.pid p = d)
    (hq : (s.ipc.msgQueues d).waitingSender = some q)
    (hbuf : s.ipc.pcbs.msg q = some buf) :
    Inv tasks
      { s with
        ipc := ((s.ipc.store ⟨p, slot⟩ { s.ipc.mem buf with sender := some q }).setQueue d
          { s.ipc.msgQueues d with waitingSender := none }).setStat q .ready
        returned := s.returned ++ [(p, { s.ipc.mem buf with sender := some q })] } := by
  obtain ⟨k, rfl, hb, hstamp⟩ := h.sender_buffer hq hbuf
  rw [hstamp]
  set s' : Sys := { s with
        ipc := ((s.ipc.store ⟨p, slot⟩ (s.ipc.mem ⟨q, k⟩)).setQueue d
          { s.ipc.msgQueues d with waitingSender := none }).setStat q .ready
        returned := s.returned ++ [(p, s.ipc.mem ⟨q, k⟩)] } with hs'
  have hpid : s'.ipc.pcbs.pid = s.ipc.pcbs.pid := rfl
  have hcall : s'.call = s.call := rfl
  have hstatq : s'.ipc.pcbs.stat q = .ready := Function.update_self ..
  have hsame : ∀ r, ¬ (r = p ∨ r = q) → Same s s' r := fun r hr =>
    ⟨rfl, Function.update_of_ne (fun hrq => hr (Or.inr hrq)) _ _, rfl, fun j =>
      Function.update_of_ne (fun hj => hr (Or.inl (congrArg MsgPtr.owner hj))) _ _⟩
  have hqueue : ∀ e, e ≠ d → s'.ipc.msgQueues e = s.ipc.msgQueues e :=
    fun e he => Function.update_of_ne he _ _
  have hqd : s'.ipc.msgQueues d = { s.ipc.msgQueues d with waitingSender := none } :=
    Function.update_self ..
  have hsend : ∀ j, s.call p ≠ some (.sending j) := fun j => by simp [hc]
  have hrecv : ∀ j, s.call p ≠ some (.receiving j) := fun j => by simp [hc]
  have hrecvq : ∀ j, s.call q ≠ some (.receiving j) := fun j => by simp [hb.1]
  refine h.of_frame (T := fun r => r = p ∨ r = q) (D := (· = d)) hpid hsame hqueue
    ?_ ?_ ?_ ?_ ?_ ?_
  · rintro e r he (rfl | rfl)
    · exact h.idle hc e
    · refine ⟨fun hr => ?_, fun hr => he (h.recorded_once hq hr)⟩
      obtain ⟨-, -, j, hrc, -⟩ := h.receiver e r hr
      exact hrecvq j hrc
  · rintro e rfl
    rw [hqd]; exact h.ring e
  · rintro e rfl r hr
    rw [hqd] at hr
    obtain ⟨hrt, hrd, j, hrc, hrb, hrm⟩ := h.receiver e r hr
    have hsr := hsame r (by
      rintro (rfl | rfl)
      · exact hrecv j hrc
      · exact hrecvq j hrc)
    exact ⟨hrt, hrd, j, hsr.call.trans hrc, hsr.stat.trans hrb, hsr.msg.trans hrm⟩
  · rintro e rfl r hr
    rw [hqd] at hr
    cases hr
  · intro r j hbr hr
    by_cases hrp : r = p
    · exact absurd (hrp ▸ hbr.1) (hsend j)
    by_cases hrq : r = q
    · have hst := hbr.2
      rw [hrq, hstatq] at hst
      cases hst
    · -- `r` is blocked in a send to `d`, and is not `q`, whom `d` recorded
      have hsr := hsame r (by rintro (hr' | hr') <;> contradiction)
      have hrd := h.referred r j (hsr.blockedInSend.mp hbr)
      rcases hr with (hr | hr) | hr
      · exact absurd hr hrp
      · exact absurd hr hrq
      · rw [hsr.mem j] at hr
        rw [hr, hq] at hrd
        exact absurd (Option.some.inj hrd).symm hrq
  · intro e
    have hacc : s'.acceptedFor e = s.acceptedFor e := rfl
    have hhand : inHand tasks s' e = inHand tasks s e := by
      refine inHand_of_frame (T := fun r => r = p ∨ r = q) hpid hsame ?_ e
      rintro r (rfl | rfl)
      · exact ⟨inHandOf_eq_nil hrecv, inHandOf_eq_nil hrecv⟩
      · exact ⟨inHandOf_eq_nil hrecvq, inHandOf_eq_nil hrecvq⟩
    rw [hacc, hhand]
    by_cases he : e = d
    · have hret : s'.returnedBy e = s.returnedBy e ++ [s.ipc.mem ⟨q, k⟩] := by
        rw [returnedBy_append hpid rfl, if_pos (by rw [hd, he])]
      have hold : s.recorded e = [s.ipc.mem ⟨q, k⟩] := by
        rw [he]; exact h.recorded_eq hq hb.1
      have hnew : s'.recorded e = [] := by
        rw [Sys.recorded, he, hqd]
      have hl := h.ledger e
      rw [hold] at hl
      rw [hret, hnew, List.append_nil]
      refine hl.trans ?_
      rw [List.append_assoc, List.append_assoc]
      exact (List.perm_append_comm).append_left _
    · have hne : ¬ s.ipc.pcbs.pid p = e := by
        rw [hd]
        exact fun hde => he (by exact_mod_cast hde.symm)
      have hret : s'.returnedBy e = s.returnedBy e := by
        rw [returnedBy_append hpid rfl, if_neg hne, List.append_nil]
      have hrec : s'.recorded e = s.recorded e := by
        refine h.recorded_congr (by rw [hqueue e he]) fun r hr => hsame r ?_
        rintro (hrp | hrq)
        · exact h.sender_ne hr hsend hrp
        · exact he (h.recorded_once hq (hrq ▸ hr))
      rw [hret, hrec]
      exact h.ledger e

/-- **A receiver blocks.**  Its own queue refers to it, and it holds nothing yet. -/
theorem Inv.await (h : Inv tasks s) {p : PcbId} {slot d : Nat} (hp : p ∈ tasks)
    (hc : s.call p = none) (hd : s.ipc.pcbs.pid p = d) :
    Inv tasks
      (({ s with
          ipc := ((s.ipc.setMsg p ⟨p, slot⟩).setStat p .blocked).setQueue d
            { s.ipc.msgQueues d with waitingReceiver := some p } } : Sys).setCall p
        (some (.receiving slot))) := by
  set s' : Sys := ({ s with
      ipc := ((s.ipc.setMsg p ⟨p, slot⟩).setStat p .blocked).setQueue d
        { s.ipc.msgQueues d with waitingReceiver := some p } } : Sys).setCall p
          (some (.receiving slot)) with hs'
  have hpid : s'.ipc.pcbs.pid = s.ipc.pcbs.pid := rfl
  have hmem : s'.ipc.mem = s.ipc.mem := rfl
  have hcallp : s'.call p = some (.receiving slot) := Function.update_self ..
  have hstatp : s'.ipc.pcbs.stat p = .blocked := Function.update_self ..
  have hmsgp : s'.ipc.pcbs.msg p = some ⟨p, slot⟩ := Function.update_self ..
  have hsame : ∀ q, q ≠ p → Same s s' q := fun q hq =>
    ⟨Function.update_of_ne hq _ _, Function.update_of_ne hq _ _,
      Function.update_of_ne hq _ _, fun _ => rfl⟩
  have hqueue : ∀ e, e ≠ d → s'.ipc.msgQueues e = s.ipc.msgQueues e :=
    fun e he => Function.update_of_ne he _ _
  have hqd : s'.ipc.msgQueues d = { s.ipc.msgQueues d with waitingReceiver := some p } :=
    Function.update_self ..
  have hws : ∀ e, (s'.ipc.msgQueues e).waitingSender =
      (s.ipc.msgQueues e).waitingSender := by
    intro e
    by_cases he : e = d
    · rw [he, hqd]
    · rw [hqueue e he]
  have hsend : ∀ k, s.call p ≠ some (.sending k) := fun k => by simp [hc]
  have hsend' : ∀ k, s'.call p ≠ some (.sending k) := fun k => by simp [hcallp]
  refine h.of_frame (T := (· = p)) (D := (· = d)) hpid hsame hqueue ?_ ?_ ?_ ?_ ?_ ?_
  · rintro e q - rfl
    exact h.idle hc e
  · rintro e rfl
    rw [hqd]; exact h.ring e
  · rintro e rfl r hr
    rw [hqd] at hr
    obtain rfl : p = r := Option.some.inj hr
    exact ⟨hp, hd, slot, hcallp, hstatp, hmsgp⟩
  · rintro e rfl q hq
    rw [hws] at hq
    obtain ⟨k, hb, hmsg, hs, hqe⟩ := h.sender e q hq
    have hsq := hsame q (h.sender_ne hq hsend)
    exact ⟨k, hsq.blockedInSend.mpr hb, hsq.msg.trans hmsg, hs, hqe⟩
  · intro q k hb _
    have hsq := hsame q (ne_of_blockedInSend hb hsend')
    rw [hmem, hws]
    exact h.referred q k (hsq.blockedInSend.mp hb)
  · intro e
    have hhand : inHand tasks s' e = inHand tasks s e := by
      refine inHand_of_frame (T := (· = p)) hpid hsame ?_ e
      rintro q rfl
      exact ⟨inHandOf_eq_nil fun k => by simp [hc], by simp [inHandOf, hcallp, hstatp]⟩
    have hrec : s'.recorded e = s.recorded e :=
      h.recorded_congr (hws e) fun q hq => hsame q (h.sender_ne hq hsend)
    have hacc : s'.acceptedFor e = s.acceptedFor e := rfl
    have hret : s'.returnedBy e = s.returnedBy e := rfl
    rw [hacc, hret, hhand, hrec]
    exact h.ledger e

/-- No queue refers to a task that is not blocked. -/
theorem Inv.awake (h : Inv tasks s) {p : PcbId} (hp : s.ipc.pcbs.stat p ≠ .blocked)
    (d : Nat) : (s.ipc.msgQueues d).waitingReceiver ≠ some p ∧
      (s.ipc.msgQueues d).waitingSender ≠ some p := by
  constructor
  · intro hr
    obtain ⟨-, -, slot, -, hb, -⟩ := h.receiver d p hr
    exact hp hb
  · intro hs
    obtain ⟨slot, hb, -⟩ := h.sender d p hs
    exact hp hb.2

/-- **A call returns.**  A `Receive` gives its caller the message in its hand. -/
theorem Inv.resume (h : Inv tasks s) {p : PcbId} {c : Call} (hp : p ∈ tasks)
    (hc : s.call p = some c) (hb : s.ipc.pcbs.stat p ≠ .blocked) :
    Inv tasks (s.resume p c) := by
  set s' : Sys := s.resume p c with hs'
  have hipc : s'.ipc = s.ipc := by cases c <;> rfl
  have hcallp : s'.call p = none := by cases c <;> exact Function.update_self ..
  have hsame : ∀ q, q ≠ p → Same s s' q := by
    intro q hq
    refine ⟨?_, by rw [hipc], by rw [hipc], fun _ => by rw [hipc]⟩
    cases c <;> exact Function.update_of_ne hq _ _
  refine h.of_frame (T := (· = p)) (D := fun _ => False) (by rw [hipc]) hsame
    (fun _ _ => by rw [hipc]) ?_ (fun _ => False.elim) (fun _ => False.elim)
    (fun _ => False.elim) ?_ ?_
  · rintro e q - rfl
    exact h.awake hb e
  · rintro q k hbq (rfl | hd)
    · have hq := hbq.1
      rw [hcallp] at hq
      cases hq
    · exact hd.elim
  · intro e
    have hrec : s'.recorded e = s.recorded e :=
      h.recorded_congr (by rw [hipc]) fun q hq => hsame q fun hqp =>
        (h.awake hb e).2 (hqp ▸ hq)
    have hacc : s'.acceptedFor e = s.acceptedFor e := by cases c <;> rfl
    have hother : s.ipc.pcbs.pid p ≠ e → inHand tasks s' e = inHand tasks s e := by
      intro he
      refine inHand_congr (by rw [hipc]) fun q _ hqe => (hsame q ?_).inHandOf
      exact fun hqp => he (hqp ▸ hqe)
    have hnil : s.ipc.pcbs.pid p = e → inHand tasks s' e = [] := by
      intro he
      rw [inHand, hipc, h.find?_pid hp he]
      exact inHandOf_eq_nil fun k => by simp [hcallp]
    rw [hacc, hrec]
    cases c with
    | sending slot =>
        have hret : s'.returnedBy e = s.returnedBy e := rfl
        have hhand : inHand tasks s' e = inHand tasks s e := by
          refine inHand_of_frame (T := (· = p)) (by rw [hipc]) hsame ?_ e
          rintro q rfl
          exact ⟨inHandOf_eq_nil fun k => by simp [hc], inHandOf_eq_nil fun k => by simp [hcallp]⟩
        rw [hret, hhand]
        exact h.ledger e
    | receiving slot =>
        by_cases he : s.ipc.pcbs.pid p = e
        · have hret : s'.returnedBy e = s.returnedBy e ++ [s.ipc.mem ⟨p, slot⟩] := by
            rw [returnedBy_append (by rw [hipc]) rfl, if_pos he]
          have hold : inHand tasks s e = [s.ipc.mem ⟨p, slot⟩] := by
            rw [h.inHand_eq hp he, inHandOf, hc]
            simp [hb]
          have hl := h.ledger e
          rw [hold] at hl
          rw [hret, hnil he, List.append_nil]
          exact hl
        · have hret : s'.returnedBy e = s.returnedBy e := by
            rw [returnedBy_append (by rw [hipc]) rfl, if_neg he, List.append_nil]
          rw [hret, hother he]
          exact h.ledger e

/-! ## Steps and runs -/

theorem waitingSender_of_slotFree {p : PcbId} {slot : Nat}
    (hfree : SlotFree s (.send p slot)) (hlt : ¬ 256 ≤ (s.message p slot).dstPid)
    (hwr : (s.ipc.msgQueues (s.message p slot).dstPid).waitingReceiver = none) :
    (s.ipc.msgQueues (s.message p slot).dstPid).waitingSender = none := by
  change ¬ 256 ≤ (s.ipc.mem ⟨p, slot⟩).dstPid at hlt
  change (s.ipc.msgQueues (s.ipc.mem ⟨p, slot⟩).dstPid).waitingReceiver = none at hwr
  change (s.ipc.msgQueues (s.ipc.mem ⟨p, slot⟩).dstPid).waitingSender = none
  simpa [SlotFree, slotFree, hlt, hwr] using hfree

/-- **`Send` preserves the invariant** where it finds the slot it needs free. -/
theorem Inv.send (h : Inv tasks s) {p : PcbId} {slot : Nat} (hc : s.call p = none)
    (hfree : SlotFree s (.send p slot)) {r : IpcState × Action}
    (hr : s.ipc.send p ⟨p, slot⟩ = .ok r) : Inv tasks (s.afterSend p slot r) := by
  have h1 := h.store_idle hc slot (s.message p slot)
  have hmem : (s.ipc.store ⟨p, slot⟩ (s.message p slot)).mem ⟨p, slot⟩ = s.message p slot :=
    Function.update_self ..
  have hdst : (s.message p slot).dstPid = (s.ipc.mem ⟨p, slot⟩).dstPid := rfl
  unfold IpcState.send at hr
  simp only [← Sys.message.eq_1, hmem, IpcState.store_msgQueues] at hr
  split at hr
  · injection hr with hr
    rw [← hr]
    exact h1
  · next hlt =>
    split at hr
    · next receiver hwr =>
      unfold IpcState.deliver at hr
      split at hr
      · cases hr
      · next buf hbuf =>
        injection hr with hr
        rw [← hr, hmem]
        have := h1.deliver (a := ⟨p, slot⟩) (congrArg Message.dstPid hmem) hwr hbuf
        rw [hmem] at this
        exact this
    · next hwr =>
      injection hr with hr
      rw [← hr]
      have := h1.park hc (congrArg Message.dstPid hmem)
        (congrArg Message.sender hmem) (waitingSender_of_slotFree hfree hlt hwr)
      rw [hmem] at this
      exact this

/-- **`Receive` preserves the invariant.** -/
theorem Inv.receive (h : Inv tasks s) {p : PcbId} {slot : Nat} (hp : p ∈ tasks)
    (hc : s.call p = none) {r : IpcState × Action}
    (hr : s.ipc.receive p ⟨p, slot⟩ = .ok r) : Inv tasks (s.afterReceive p slot r) := by
  obtain ⟨h0, -⟩ := h.pid_range p hp
  have hd : s.ipc.pcbs.pid p = ((s.ipc.pcbs.pid p).toNat : Int) := (Int.toNat_of_nonneg h0).symm
  unfold IpcState.receive at hr
  simp only [h.ring, ne_eq, not_true_eq_false, if_false] at hr
  split at hr
  · cases hr
  · split at hr
    · next sender hws =>
      unfold IpcState.collect at hr
      split at hr
      · cases hr
      · next buf hbuf =>
        injection hr with hr
        rw [← hr]
        have := h.collect slot hc hd hws hbuf
        simpa [afterReceive] using this
    · injection hr with hr
      rw [← hr]
      exact h.await hp hc hd

/-- **Every step preserves the invariant** whose `Send`, if it is one, finds the
slot it needs free. -/
theorem Inv.step (h : Inv tasks s) {op : Op} (hfree : SlotFree s op)
    (hs : step tasks s op = some s') : Inv tasks s' := by
  unfold Sys.step at hs
  split at hs
  · next hop =>
    split at hs
    · next p slot m hc =>
      rw [← Option.some.inj hs]
      exact h.store_idle hc slot m
    · next p slot hc =>
      obtain ⟨r, hr, rfl⟩ := Option.map_eq_some_iff.mp hs
      exact h.send hc hfree (eq_ok_of_toOption hr)
    · next p slot hc =>
      obtain ⟨r, hr, rfl⟩ := Option.map_eq_some_iff.mp hs
      exact h.receive hop.1 hc (eq_ok_of_toOption hr)
    · next p c hc =>
      rw [← Option.some.inj hs]
      exact h.resume hop.1 hc hop.2
    · cases hs
  · cases hs

/-- **A `Send` that does not find its slot free loses a sender.**  The queue refers
to the new sender alone, and the old one is blocked in its `Send` for good. -/
theorem Inv.not_delivered (h : Inv tasks s) {op : Op} (hfree : ¬ SlotFree s op)
    (hs : Sys.step tasks s op = some s') : ¬ Delivered tasks s' := by
  cases op with
  | send p slot =>
      rw [SlotFree, slotFree] at hfree
      simp only [Bool.or_eq_true, decide_eq_true_eq, Option.isSome_iff_ne_none, ne_eq,
        Option.isNone_iff_eq_none, not_or, not_not] at hfree
      obtain ⟨⟨hlt, hwr⟩, hws⟩ := hfree
      obtain ⟨q, hq⟩ := Option.ne_none_iff_exists'.mp hws
      obtain ⟨k, hb, -, -, hkd⟩ := h.sender _ q hq
      -- the step is the parking of `p` in the queue that recorded `q`
      unfold Sys.step at hs
      split at hs
      · cases hc : s.call p with
        | some c => simp [Op.task, hc] at hs
        | none =>
            have hqp : q ≠ p := by
              rintro rfl
              rw [BlockedInSend, hc] at hb
              cases hb.1
            have hsend : s.ipc.send p ⟨p, slot⟩ =
                .ok ((s.ipc.store ⟨p, slot⟩ (s.message p slot)).park p
                  (s.ipc.mem ⟨p, slot⟩).dstPid ⟨p, slot⟩) := by
              simp [IpcState.send, Sys.message, Function.update_self, hlt, hwr]
            simp only [Op.task, hc, hsend, Except.toOption, Option.map_some,
              Option.some.injEq] at hs
            intro hdel
            have hmem : s'.ipc.mem ⟨q, k⟩ = s.ipc.mem ⟨q, k⟩ := by
              rw [← hs]
              exact Function.update_of_ne (fun hk => hqp (congrArg MsgPtr.owner hk)) _ _
            have hbq : s'.BlockedInSend q k := by
              rw [← hs]
              exact ⟨(Function.update_of_ne hqp _ _).trans hb.1,
                (Function.update_of_ne hqp _ _).trans hb.2⟩
            have href := hdel.referred q k hbq
            rw [hmem, hkd, ← hs] at href
            have hp : (some p : Option PcbId) = some q :=
              (congrArg MessageQueue.waitingSender (Function.update_self ..)).symm.trans href
            exact hqp (Option.some.inj hp).symm
      · cases hs
  | write p slot m => exact absurd rfl hfree
  | receive p slot => exact absurd rfl hfree
  | resume p => exact absurd rfl hfree

/-- **Messages are delivered exactly as long as no sender is overwritten.**  In
every run of `Send`s, `Receive`s and returns by any tasks, each reached state
accounts for every accepted message exactly once if and only if no `Send` without a
waiting receiver has found another sender recorded in the queue. -/
theorem delivered_iff_slotFree {s t : Sys} {ops : List Op} (hinit : Init tasks s) :
    Run (Keeping (Delivered tasks) (ofOption (step tasks))) s ops t ↔
      Run (Guarded SlotFree (ofOption (step tasks))) s ops t :=
  run_keeping_iff_guarded hinit.inv (fun _ _ _ h hfree hstep => h.step hfree hstep)
    (fun _ h => h.delivered) (fun _ _ _ h hfree hstep => h.not_delivered hfree hstep)

end Sys

/-! ## Three tasks -/

/-- Tasks 1, 2 and 3, with these pids; each object of a task is a message of type 7
to task 3 that carries the number of its owner. -/
def threeTasks : Sys where
  ipc :=
    { pcbs :=
        { pid := fun p => p
          stat := fun _ => .ready
          flags := fun _ => threadKernel
          pml4 := fun _ => 0
          msg := fun _ => none }
      mem := fun a => ⟨none, 3, 7, 0, [a.owner]⟩
      msgQueues := fun _ =>
        ⟨fun _ => ⟨none, 0, 0, 0, []⟩, 0, 0, none, none, false⟩ }
  call := fun _ => none
  accepted := []
  returned := []

theorem threeTasks_init : Sys.Init [1, 2, 3] threeTasks := by
  refine ⟨?_, ?_, fun _ => rfl, fun _ => rfl, fun _ => rfl, fun _ => rfl, rfl, rfl⟩
  · intro p hp
    simp only [List.mem_cons, List.not_mem_nil, or_false] at hp
    rcases hp with rfl | rfl | rfl <;> exact ⟨by decide, by decide⟩
  · intro p _ q _ hpq
    exact Int.ofNat_inj.mp hpq

/-- One waits for the other: task 3 waits and gets the message of task 1, then
collects the one task 2 is blocked with. -/
theorem delivered_iff_slotFree_threeTasks :
    ∃ t, Run (Keeping (Sys.Delivered [1, 2, 3]) (ofOption (Sys.step [1, 2, 3])))
      threeTasks [.receive 3 0, .send 1 0, .resume 3, .send 2 0, .receive 3 1, .resume 2]
      t := by
  obtain ⟨t, ht⟩ := Option.isSome_iff_exists.mp
    (by decide : (exec Sys.slotFree (Sys.step [1, 2, 3]) threeTasks
      [.receive 3 0, .send 1 0, .resume 3, .send 2 0, .receive 3 1, .resume 2]).isSome)
  exact ⟨t, (Sys.delivered_iff_slotFree threeTasks_init).mpr (run_of_exec ht)⟩

/-- **A message is lost.**  Tasks 1 and 2 send to task 3, which then receives: task
1 stays blocked in its `Send`, and the queue of task 3 does not refer to it. -/
theorem send_loses_sender :
    ¬ ∀ (tasks : List PcbId) (s t : Sys) (ops : List Op), Sys.Init tasks s →
      Run (ofOption (Sys.step tasks)) s ops t → Sys.Delivered tasks t := by
  intro hclaim
  obtain ⟨t, ht⟩ := Option.isSome_iff_exists.mp
    (by decide : (exec (fun _ _ => true) (Sys.step [1, 2, 3]) threeTasks
      [.send 1 0, .send 2 0, .receive 3 0]).isSome)
  have hend : (exec (fun _ _ => true) (Sys.step [1, 2, 3]) threeTasks
      [.send 1 0, .send 2 0, .receive 3 0]).map (fun t =>
        (t.call 1, t.ipc.pcbs.stat 1,
          (t.ipc.msgQueues (t.ipc.mem ⟨1, 0⟩).dstPid).waitingSender)) =
      some (some (.sending 0), .blocked, none) := by decide
  rw [ht, Option.map_some, Option.some.injEq, Prod.mk.injEq, Prod.mk.injEq] at hend
  have hrun := (run_of_exec ht).mono fun _ _ _ hst => hst.2
  have href := (hclaim _ _ _ _ threeTasks_init hrun).referred 1 0 ⟨hend.1, hend.2.1⟩
  rw [hend.2.2] at href
  cases href

end InfoKernel.Task.Ipc
