import InfoKernel.Task.IpcDelivery

/-!
# Requests and replies

The protocol over `ipc::Send` and `ipc::Receive` that `klibc/ipc.cc` and the services speak.  A
client sends a request to a service, and receives once if the request is one that is replied to
(`open`, `read`, `getchar`), or goes on (`putchar`, `printf`).  A service receives, handles the
request, sends the reply to `msg.sender->pid`, and receives again.

A message says nothing about the request it belongs to, and neither `Send` nor `Receive` asks.
Still every reply is the one to the request of the client that gets it: `rpc_run`, for any number of
clients and services that take turns in any order, as long as no two clients are blocked in a `Send`
to the same service (the second one overwrites the first in the queue).

## The argument

What is on its way to a task is what has been accepted for it and not been returned to it, its
`inbox`.  How the inboxes change can be read off the two histories alone, by the balance that
`Inv.ledger` is: a `Send` puts a message in, a `Receive` that returns takes one out, everything else
leaves them as they are (`inbox_kept`, `inbox_sent`, `inbox_returned`).  A client that waits has its
request in the inbox of one service, or that service handles it, or the reply is in its own inbox;
it is in exactly one of these three places, once.
-/

namespace InfoKernel.Task.Ipc

open InfoKernel.Lib

/-! ## The model -/

/-- The destination of the `Send` that a task is blocked in. -/
def Sys.sendingTo (s : Sys) (q : PcbId) : Option Nat :=
  match s.call q with
  | some (.sending k) =>
      if s.ipc.pcbs.stat q = .blocked then some (s.ipc.mem ⟨q, k⟩).dstPid else none
  | _ => none

/-- Who serves, which requests are replied to, and what a service may reply to one. -/
structure Net where
  server : PcbId → Bool
  needsReply : Message → Bool
  answers : PcbId → Message → Message → Prop

/-- A reply that a client has received, and the request that it had been waiting with. -/
structure Exchange where
  client : PcbId
  request : Message
  reply : Message

/-- The tasks, with the local variables of their programs: the request that a client waits for the
reply to, the request that a service handles, and the exchanges that are over. -/
structure Rpc where
  sys : Sys
  waiting : PcbId → Option Message
  serving : PcbId → Option Message
  log : List Exchange

namespace Rpc

variable (net : Net) (tasks : List PcbId)

/-- Nobody has said anything. -/
def start (s : Sys) : Rpc := ⟨s, fun _ => none, fun _ => none, []⟩

/-- The task follows its program.  A client sends to a service when it waits for nothing, and
receives when it waits; a service receives when it has replied, and sends the reply to the one who
has asked. -/
def Follows (x : Rpc) : Op → Prop
  | .send p slot =>
      if net.server p then
        ∃ req ∈ x.serving p, ∃ c ∈ req.sender,
          ((x.sys.ipc.mem ⟨p, slot⟩).dstPid : Int) = x.sys.ipc.pcbs.pid c ∧
            net.answers p req (x.sys.message p slot)
      else x.waiting p = none ∧ ∃ v ∈ tasks, net.server v = true ∧
        ((x.sys.ipc.mem ⟨p, slot⟩).dstPid : Int) = x.sys.ipc.pcbs.pid v
  | .receive p _ => if net.server p then x.serving p = none else x.waiting p ≠ none
  | .write _ _ _ => True
  | .resume _ => True

/-- What a `Receive` returns to a task makes of its variables. -/
def received (x : Rpc) (p : PcbId) (m : Message) : Rpc :=
  if net.server p then
    { x with serving := Function.update x.serving p (if net.needsReply m then some m else none) }
  else
    { x with
      waiting := Function.update x.waiting p none
      log := x.log ++ ((x.waiting p).map fun req => ⟨p, req, m⟩).toList }

/-- What a `Send` makes of the variables. -/
def sent (x : Rpc) (p : PcbId) (m : Message) : Rpc :=
  if net.server p then { x with serving := Function.update x.serving p none }
  else if net.needsReply m then { x with waiting := Function.update x.waiting p (some m) }
  else x

/-- The variables after a step of the tasks to `s'`. -/
def after (x : Rpc) (op : Op) (s' : Sys) : Rpc :=
  match op with
  | .send p slot => { x.sent net p (x.sys.message p slot) with sys := s' }
  | _ =>
      match s'.returned.drop x.sys.returned.length with
      | (p, m) :: _ => { x.received net p m with sys := s' }
      | [] => { x with sys := s' }

/-- The next state, unless the step cannot be taken. -/
def next (x : Rpc) (op : Op) : Option Rpc :=
  (Sys.step tasks x.sys op).map (x.after net op)

/-- A step of a task that follows its program. -/
def Step : Rpc → Op → Rpc → Prop := Guarded (Follows net tasks) (ofOption (next net tasks))

/-- A `Send` finds no other client blocked in a `Send` to the same task. -/
def Alone (x : Rpc) : Op → Prop
  | .send p slot => ∀ q ∈ tasks, q ≠ p → net.server q = false →
      x.sys.sendingTo q ≠ some (x.sys.ipc.mem ⟨p, slot⟩).dstPid
  | _ => True

instance (x : Rpc) [∀ p req rep, Decidable (net.answers p req rep)] :
    DecidablePred (x.Follows net tasks)
  | .send _ _ => by unfold Follows; infer_instance
  | .receive _ _ => by unfold Follows; infer_instance
  | .write _ _ _ => .isTrue trivial
  | .resume _ => .isTrue trivial

instance (x : Rpc) : DecidablePred (x.Alone net tasks)
  | .send _ _ => by unfold Alone; infer_instance
  | .receive _ _ => .isTrue trivial
  | .write _ _ _ => .isTrue trivial
  | .resume _ => .isTrue trivial

end Rpc

/-! ## What is on its way -/

namespace Sys

/-- What is on its way to a task: what a woken `Receive` of it holds, and what the sender that its
queue records is blocked with. -/
def inbox (tasks : List PcbId) (s : Sys) (p : PcbId) : List Message :=
  inHand tasks s (s.ipc.pcbs.pid p).toNat ++ s.recorded (s.ipc.pcbs.pid p).toNat

variable {tasks : List PcbId} {s s' : Sys} {p q : PcbId} {m : Message}

/-- The balance for a task. -/
theorem Inv.balance (h : Inv tasks s) (p : PcbId) :
    (s.acceptedFor (s.ipc.pcbs.pid p).toNat).Perm
      (s.returnedBy (s.ipc.pcbs.pid p).toNat ++ s.inbox tasks p) := by
  rw [inbox, ← List.append_assoc]
  exact h.ledger _

/-- A message that is on its way has been accepted for the task. -/
theorem Inv.mem_inbox (h : Inv tasks s) (hm : m ∈ s.inbox tasks p) :
    m ∈ s.accepted ∧ m.dstPid = (s.ipc.pcbs.pid p).toNat := by
  have hacc := (h.balance p).mem_iff.mpr (List.mem_append_right _ hm)
  rw [acceptedFor, List.mem_filter, decide_eq_true_iff] at hacc
  exact hacc

/-- No message is accepted or returned. -/
theorem Inv.inbox_kept (h : Inv tasks s) (h' : Inv tasks s')
    (hpid : s'.ipc.pcbs.pid = s.ipc.pcbs.pid) (hacc : s'.accepted = s.accepted)
    (hret : s'.returned = s.returned) (q : PcbId) :
    (s'.inbox tasks q).Perm (s.inbox tasks q) := by
  have hbefore := h.balance q
  have hafter := h'.balance q
  unfold acceptedFor returnedBy at hbefore hafter
  rw [hpid, hacc, hret] at hafter
  exact (List.perm_append_left_iff _).mp (hafter.symm.trans hbefore)

/-- A message is accepted for `v`. -/
theorem Inv.inbox_sent (h : Inv tasks s) (h' : Inv tasks s') {v : PcbId}
    (hpid : s'.ipc.pcbs.pid = s.ipc.pcbs.pid) (hacc : s'.accepted = s.accepted ++ [m])
    (hret : s'.returned = s.returned) (hdst : m.dstPid = (s.ipc.pcbs.pid v).toNat) :
    (s'.inbox tasks v).Perm (m :: s.inbox tasks v) := by
  have hbefore := h.balance v
  have hafter := h'.balance v
  unfold acceptedFor returnedBy at hbefore hafter
  rw [hpid, hacc, hret, List.filter_append, List.filter_singleton, hdst,
    decide_eq_true rfl] at hafter
  have hall := hafter.symm.trans (hbefore.append_right [m])
  rw [List.append_assoc] at hall
  exact ((List.perm_append_left_iff _).mp hall).trans (List.perm_append_singleton m _)

/-- A message is accepted for another task. -/
theorem Inv.inbox_sent_other (h : Inv tasks s) (h' : Inv tasks s')
    (hpid : s'.ipc.pcbs.pid = s.ipc.pcbs.pid) (hacc : s'.accepted = s.accepted ++ [m])
    (hret : s'.returned = s.returned) (hdst : m.dstPid ≠ (s.ipc.pcbs.pid q).toNat) :
    (s'.inbox tasks q).Perm (s.inbox tasks q) := by
  have hbefore := h.balance q
  have hafter := h'.balance q
  unfold acceptedFor returnedBy at hbefore hafter
  rw [hpid, hacc, hret, List.filter_append, List.filter_singleton, decide_eq_false hdst, cond_false,
    List.append_nil] at hafter
  exact (List.perm_append_left_iff _).mp (hafter.symm.trans hbefore)

/-- A message that is accepted for the task `v` comes into its inbox and into no other. -/
theorem Inv.inboxes_sent (h : Inv tasks s) (h' : Inv tasks s') {v : PcbId} (hv : v ∈ tasks)
    (hpid : s'.ipc.pcbs.pid = s.ipc.pcbs.pid) (hacc : s'.accepted = s.accepted ++ [m])
    (hret : s'.returned = s.returned) (hdst : (m.dstPid : Int) = s.ipc.pcbs.pid v) :
    (s'.inbox tasks v).Perm (m :: s.inbox tasks v) ∧
      ∀ q ∈ tasks, q ≠ v → (s'.inbox tasks q).Perm (s.inbox tasks q) := by
  refine ⟨h.inbox_sent h' hpid hacc hret (by rw [← hdst, Int.toNat_natCast]), fun q hq hne => ?_⟩
  refine h.inbox_sent_other h' hpid hacc hret fun heq => hne ?_
  refine h.pid_inj q hq v hv ?_
  rw [← hdst, heq, Int.toNat_of_nonneg (h.pid_range q hq).1]

/-- A message is returned to `p`. -/
theorem Inv.inbox_returned (h : Inv tasks s) (h' : Inv tasks s') (hp : p ∈ tasks)
    (hpid : s'.ipc.pcbs.pid = s.ipc.pcbs.pid) (hacc : s'.accepted = s.accepted)
    (hret : s'.returned = s.returned ++ [(p, m)]) :
    (s.inbox tasks p).Perm (m :: s'.inbox tasks p) := by
  have hbefore := h.balance p
  have hafter := h'.balance p
  obtain ⟨h0, -⟩ := h.pid_range p hp
  have hd : s.ipc.pcbs.pid p = ((s.ipc.pcbs.pid p).toNat : Int) := (Int.toNat_of_nonneg h0).symm
  unfold acceptedFor returnedBy at hbefore hafter
  rw [hpid, hacc, hret, List.filter_append, List.map_append, List.filter_singleton,
    decide_eq_true hd, cond_true, List.map_singleton, List.append_assoc] at hafter
  exact (List.perm_append_left_iff _).mp (hbefore.symm.trans hafter)

/-- A message is returned to another task. -/
theorem Inv.inbox_returned_other (h : Inv tasks s) (h' : Inv tasks s') (hp : p ∈ tasks)
    (hq : q ∈ tasks) (hne : q ≠ p) (hpid : s'.ipc.pcbs.pid = s.ipc.pcbs.pid)
    (hacc : s'.accepted = s.accepted) (hret : s'.returned = s.returned ++ [(p, m)]) :
    (s'.inbox tasks q).Perm (s.inbox tasks q) := by
  have hbefore := h.balance q
  have hafter := h'.balance q
  obtain ⟨h0, -⟩ := h.pid_range q hq
  have hd : s.ipc.pcbs.pid p ≠ ((s.ipc.pcbs.pid q).toNat : Int) := by
    rw [Int.toNat_of_nonneg h0]
    exact fun heq => hne (h.pid_inj q hq p hp heq.symm)
  unfold acceptedFor returnedBy at hbefore hafter
  rw [hpid, hacc, hret, List.filter_append, List.map_append, List.filter_singleton,
    decide_eq_false hd, cond_false, List.map_nil, List.append_nil] at hafter
  exact (List.perm_append_left_iff _).mp (hafter.symm.trans hbefore)

/-! ## What a step adds to the histories -/

/-- **The steps**, one case for each of them. -/
inductive Stepped (s : Sys) : Op → Sys → Prop
  | write {p slot m} (hcall : s.call p = none) :
      Stepped s (.write p slot m) { s with ipc := s.ipc.store ⟨p, slot⟩ m }
  | send {p slot r} (hcall : s.call p = none) (hsend : s.ipc.send p ⟨p, slot⟩ = .ok r) :
      Stepped s (.send p slot) (s.afterSend p slot r)
  | receive {p slot r} (hcall : s.call p = none) (hreceive : s.ipc.receive p ⟨p, slot⟩ = .ok r) :
      Stepped s (.receive p slot) (s.afterReceive p slot r)
  | resume {p c} (hcall : s.call p = some c) : Stepped s (.resume p) (s.resume p c)

theorem step_cases {op : Op} (h : step tasks s op = some s') :
    op.task ∈ tasks ∧ s.ipc.pcbs.stat op.task ≠ .blocked ∧ Stepped s op s' := by
  unfold Sys.step at h
  split at h
  · next htask =>
    refine ⟨htask.1, htask.2, ?_⟩
    split at h
    · next p slot m hcall =>
      rw [← Option.some.inj h]
      exact .write hcall
    · next p slot hcall =>
      obtain ⟨r, hr, rfl⟩ := Option.map_eq_some_iff.mp h
      exact .send hcall (eq_ok_of_toOption hr)
    · next p slot hcall =>
      obtain ⟨r, hr, rfl⟩ := Option.map_eq_some_iff.mp h
      exact .receive hcall (eq_ok_of_toOption hr)
    · next p c hcall =>
      rw [← Option.some.inj h]
      exact .resume hcall
    · cases h
  · cases h

theorem send_pid {s : IpcState} {current : PcbId} {a : MsgPtr} {r : IpcState × Action}
    (h : s.send current a = .ok r) : r.1.pcbs.pid = s.pcbs.pid := by
  unfold IpcState.send at h
  dsimp only at h
  split at h
  · rw [← Except.ok.inj h]
    rfl
  · split at h
    · unfold IpcState.deliver at h
      split at h
      · cases h
      · rw [← Except.ok.inj h]
        rfl
    · rw [← Except.ok.inj h]
      rfl

theorem receive_pid {s : IpcState} {current : PcbId} {a : MsgPtr} {r : IpcState × Action}
    (h : s.receive current a = .ok r) : r.1.pcbs.pid = s.pcbs.pid := by
  unfold IpcState.receive at h
  dsimp only at h
  split at h
  · cases h
  · split at h
    · rw [← Except.ok.inj h]
      rfl
    · split at h
      · unfold IpcState.collect at h
        split at h
        · cases h
        · rw [← Except.ok.inj h]
          rfl
      · rw [← Except.ok.inj h]
        rfl

/-- A `Send` to a pid in range does not return at once. -/
theorem send_action {s : IpcState} {current : PcbId} {a : MsgPtr} {r : IpcState × Action}
    (h : s.send current a = .ok r) (hdst : (s.mem a).dstPid < 256) (ret : Int) :
    r.2 ≠ .done ret := by
  unfold IpcState.send at h
  dsimp only at h
  have hmem : ((s.store a { s.mem a with sender := some current }).mem a).dstPid =
      (s.mem a).dstPid := by
    rw [IpcState.store_mem, Function.update_self]
  rw [hmem, if_neg (Nat.not_le.mpr hdst)] at h
  split at h
  · unfold IpcState.deliver at h
    split at h
    · cases h
    · rw [← Except.ok.inj h]
      nofun
  · rw [← Except.ok.inj h]
    nofun

/-- **A `Send`** that a task enters adds its message to what has been accepted. -/
theorem step_send {slot : Nat} (h : step tasks s (.send p slot) = some s')
    (hdst : (s.ipc.mem ⟨p, slot⟩).dstPid < 256) :
    s.call p = none ∧ p ∈ tasks ∧ s'.ipc.pcbs.pid = s.ipc.pcbs.pid ∧
      s'.accepted = s.accepted ++ [s.message p slot] ∧ s'.returned = s.returned := by
  obtain ⟨htask, -, hstep⟩ := step_cases h
  cases hstep with
  | @send _ _ r hcall hsend =>
      refine ⟨hcall, htask, ?_⟩
      have hpid := send_pid hsend
      have haction := send_action hsend hdst
      unfold afterSend
      cases hact : r.2 with
      | done ret => exact absurd hact (haction ret)
      | wake receiver => exact ⟨hpid, rfl, rfl⟩
      | schedule => exact ⟨hpid, rfl, rfl⟩

/-- **Another step** adds nothing to what has been accepted, and at most one message that the task
has received to what has been returned. -/
theorem step_other {op : Op} (h : step tasks s op = some s') (hop : ∀ p slot, op ≠ .send p slot) :
    op.task ∈ tasks ∧ s'.ipc.pcbs.pid = s.ipc.pcbs.pid ∧ s'.accepted = s.accepted ∧
      (s'.returned = s.returned ∨
        ((∃ slot, op = .receive op.task slot) ∨ ∃ slot, s.call op.task = some (.receiving slot)) ∧
          ∃ m, s'.returned = s.returned ++ [(op.task, m)]) := by
  obtain ⟨htask, -, hstep⟩ := step_cases h
  refine ⟨htask, ?_⟩
  cases hstep with
  | @send p slot _ _ _ => exact absurd rfl (hop p slot)
  | write hcall => exact ⟨rfl, rfl, .inl rfl⟩
  | @receive p slot r hcall hreceive =>
      have hpid := receive_pid hreceive
      unfold afterReceive
      cases r.2 with
      | done ret => exact ⟨hpid, rfl, .inr ⟨.inl ⟨slot, rfl⟩, _, rfl⟩⟩
      | wake sender => exact ⟨hpid, rfl, .inr ⟨.inl ⟨slot, rfl⟩, _, rfl⟩⟩
      | schedule => exact ⟨hpid, rfl, .inl rfl⟩
  | @resume p c hcall =>
      cases c with
      | sending slot => exact ⟨rfl, rfl, .inl rfl⟩
      | receiving slot => exact ⟨rfl, rfl, .inr ⟨.inr ⟨slot, hcall⟩, _, rfl⟩⟩

/-- A step changes the call of its own task only.  A task is in a `Receive` only by entering one,
and not when it has just received something. -/
theorem step_call {op : Op} (h : step tasks s op = some s') :
    ∃ c, s'.call = Function.update s.call op.task c ∧
      ∀ k, c = some (.receiving k) → op = .receive op.task k ∧ s'.returned = s.returned := by
  have hkeep : ∀ {p}, s.call p = none → s.call = Function.update s.call p none := by
    intro p hcall
    rw [← hcall, Function.update_eq_self]
  obtain ⟨-, -, hstep⟩ := step_cases h
  cases hstep with
  | write hcall => exact ⟨none, hkeep hcall, fun _ hk => by cases hk⟩
  | @send p slot r hcall hsend =>
      unfold afterSend
      cases r.2 with
      | done ret => exact ⟨none, hkeep hcall, fun _ hk => by cases hk⟩
      | wake receiver => exact ⟨none, hkeep hcall, fun _ hk => by cases hk⟩
      | schedule => exact ⟨some (.sending slot), rfl, fun _ hk => by cases hk⟩
  | @receive p slot r hcall hreceive =>
      unfold afterReceive
      cases r.2 with
      | done ret => exact ⟨none, hkeep hcall, fun _ hk => by cases hk⟩
      | wake sender => exact ⟨none, hkeep hcall, fun _ hk => by cases hk⟩
      | schedule =>
          refine ⟨some (.receiving slot), rfl, fun k hk => ?_⟩
          cases hk
          exact ⟨rfl, rfl⟩
  | @resume p c hcall =>
      cases c with
      | sending slot => exact ⟨none, rfl, fun _ hk => by cases hk⟩
      | receiving slot => exact ⟨none, rfl, fun _ hk => by cases hk⟩

end Sys

/-! ## The invariant -/

namespace Rpc

variable (net : Net) (tasks : List PcbId)

/-- `p` is a client. -/
def Client (p : PcbId) : Prop := p ∈ tasks ∧ net.server p = false

/-- `p` is a service. -/
def Server (p : PcbId) : Prop := p ∈ tasks ∧ net.server p = true

/-- `rep` is what the service `v` has answered to the request. -/
structure Answered (x : Rpc) (req rep : Message) (v : PcbId) : Prop where
  server : Server net tasks v
  sender : rep.sender = some v
  target : (req.dstPid : Int) = x.sys.ipc.pcbs.pid v
  answers : net.answers v req rep

/-- Where the request of a client that waits is, with the service `v` that it is for: in the inbox
of the service, or with it, or the reply is in the inbox of the client. -/
def places (x : Rpc) (c v : PcbId) (req : Message) : Nat :=
  (x.sys.inbox tasks v).count req + (if x.serving v = some req then 1 else 0) +
    (x.sys.inbox tasks c).length

/-- The requests of a client that are replied to, in the order in which they have been accepted. -/
def requestsOf (x : Rpc) (c : PcbId) : List Message :=
  x.sys.accepted.filter fun m => m.sender = some c ∧ net.needsReply m = true

/-- The exchanges of a client. -/
def exchangesOf (x : Rpc) (c : PcbId) : List Exchange := x.log.filter fun e => e.client = c

/-- **What every step preserves.** -/
structure Safe (x : Rpc) : Prop where
  base : Sys.Inv tasks x.sys
  /-- what is on its way to a service is from a client, which waits if it is replied to -/
  requests : ∀ v, Server net tasks v → ∀ m ∈ x.sys.inbox tasks v, ∃ c, Client net tasks c ∧
    m.sender = some c ∧ (net.needsReply m = true → x.waiting c = some m)
  /-- what is on its way to a client answers the request that it waits with -/
  replies : ∀ c, Client net tasks c → ∀ rep ∈ x.sys.inbox tasks c, ∃ req v,
    x.waiting c = some req ∧ x.Answered net tasks req rep v
  /-- what a service handles is the request of a client that waits with it -/
  serving : ∀ v req, Server net tasks v → x.serving v = some req → ∃ c, Client net tasks c ∧
    req.sender = some c ∧ x.waiting c = some req ∧ (req.dstPid : Int) = x.sys.ipc.pcbs.pid v
  /-- a client that waits has its request in one place -/
  once : ∀ c req, Client net tasks c → x.waiting c = some req → req.sender = some c ∧
    net.needsReply req = true ∧ ∃ v, Server net tasks v ∧
      (req.dstPid : Int) = x.sys.ipc.pcbs.pid v ∧ x.places tasks c v req = 1
  /-- a service in a `Receive` handles nothing -/
  receiving : ∀ v k, x.sys.call v = some (.receiving k) → net.server v = true →
    x.serving v = none
  /-- the exchanges are right -/
  log : ∀ e ∈ x.log, ∃ v, x.Answered net tasks e.request e.reply v
  /-- no request has been forgotten -/
  requested : ∀ c, Client net tasks c → x.requestsOf net c =
    (x.exchangesOf c).map Exchange.request ++ (x.waiting c).toList
  /-- nor has any other message come to a client -/
  returned : ∀ c, Client net tasks c →
    (x.sys.returned.filter fun r => r.1 = c).map Prod.snd = (x.exchangesOf c).map Exchange.reply

variable {net : Net} {tasks : List PcbId} {x y : Rpc} {s' : Sys} {p v c : PcbId} {m req : Message}

theorem Answered.of_pid (h : x.Answered net tasks req m v)
    (hpid : y.sys.ipc.pcbs.pid = x.sys.ipc.pcbs.pid) : y.Answered net tasks req m v :=
  ⟨h.server, h.sender, by rw [hpid]; exact h.target, h.answers⟩

/-- The variables after a step that is no `Send`. -/
theorem after_other {op : Op} (hop : ∀ p slot, op ≠ .send p slot) :
    x.after net op s' = match s'.returned.drop x.sys.returned.length with
      | (p, m) :: _ => { x.received net p m with sys := s' }
      | [] => { x with sys := s' } := by
  cases op with
  | send p slot => exact absurd rfl (hop p slot)
  | write p slot m => rfl
  | receive p slot => rfl
  | resume p => rfl

/-- The variables after the `Send` of a client that waits for nothing. -/
theorem sent_client (hp : Client net tasks p) (hidle : x.waiting p = none) :
    x.sent net p m = { x with
      waiting := Function.update x.waiting p (if net.needsReply m then some m else none) } := by
  unfold sent
  rw [if_neg (by rw [hp.2]; exact Bool.false_ne_true)]
  split
  · rfl
  · rw [← hidle, Function.update_eq_self]

/-- A client is no service. -/
theorem Client.ne (hc : Client net tasks c) (hv : Server net tasks v) : c ≠ v := by
  rintro rfl
  exact absurd (hc.2.symm.trans hv.2) Bool.false_ne_true

namespace Safe

/-- Two services with the pid that a request is for are one. -/
theorem target_unique (h : x.Safe net tasks) {v' : PcbId} (hv : Server net tasks v)
    (hv' : Server net tasks v') (hdst : (req.dstPid : Int) = x.sys.ipc.pcbs.pid v)
    (hdst' : (req.dstPid : Int) = x.sys.ipc.pcbs.pid v') : v = v' :=
  h.base.pid_inj v hv.1 v' hv'.1 (hdst.symm.trans hdst')

/-- The service that a message in its inbox is for. -/
theorem target_of_mem (h : x.Safe net tasks) (hp : p ∈ tasks) (hm : m ∈ x.sys.inbox tasks p) :
    (m.dstPid : Int) = x.sys.ipc.pcbs.pid p := by
  rw [(h.base.mem_inbox hm).2, Int.toNat_of_nonneg (h.base.pid_range p hp).1]

/-- A step that neither accepts nor returns a message. -/
theorem quiet (h : x.Safe net tasks) (hbase : Sys.Inv tasks s')
    (hpid : s'.ipc.pcbs.pid = x.sys.ipc.pcbs.pid) (hacc : s'.accepted = x.sys.accepted)
    (hret : s'.returned = x.sys.returned)
    (hrecv : ∀ v k, s'.call v = some (.receiving k) → net.server v = true → x.serving v = none) :
    ({ x with sys := s' } : Rpc).Safe net tasks := by
  have hinbox := fun q => h.base.inbox_kept hbase hpid hacc hret q
  refine ⟨hbase, fun v hv m hm => h.requests v hv m ((hinbox v).mem_iff.mp hm), ?_, ?_, ?_, hrecv,
    ?_, ?_, ?_⟩
  · intro c hc rep hrep
    obtain ⟨req, v, hwait, hans⟩ := h.replies c hc rep ((hinbox c).mem_iff.mp hrep)
    exact ⟨req, v, hwait, hans.of_pid hpid⟩
  · intro v req hv hserve
    obtain ⟨c, hc, hsender, hwait, hdst⟩ := h.serving v req hv hserve
    refine ⟨c, hc, hsender, hwait, ?_⟩
    rw [hpid]
    exact hdst
  · intro c req hc hwait
    obtain ⟨hsender, hneeds, v, hv, hdst, hplaces⟩ := h.once c req hc hwait
    refine ⟨hsender, hneeds, v, hv, ?_, ?_⟩
    · rw [hpid]
      exact hdst
    · rw [places, (hinbox v).count_eq, (hinbox c).length_eq]
      exact hplaces
  · intro e he
    obtain ⟨v, hans⟩ := h.log e he
    exact ⟨v, hans.of_pid hpid⟩
  · intro c hc
    rw [requestsOf, hacc]
    exact h.requested c hc
  · intro c hc
    rw [hret]
    exact h.returned c hc

/-- Nothing is on its way to a client that waits for nothing. -/
theorem inbox_eq_nil (h : x.Safe net tasks) (hp : Client net tasks p) (hidle : x.waiting p = none) :
    x.sys.inbox tasks p = [] := by
  refine List.eq_nil_iff_forall_not_mem.mpr fun rep hrep => ?_
  obtain ⟨req, -, hwait, -⟩ := h.replies p hp rep hrep
  rw [hidle] at hwait
  cases hwait

/-- No request of it is on its way to a service, or with one. -/
theorem not_placed (h : x.Safe net tasks) (hidle : x.waiting p = none) (hv : Server net tasks v)
    (hsender : m.sender = some p) (hneeds : net.needsReply m = true) :
    m ∉ x.sys.inbox tasks v ∧ x.serving v ≠ some m := by
  have hnot : ∀ c, m.sender = some c → x.waiting c ≠ some m := by
    intro c hsender' hwait
    obtain rfl : c = p := Option.some.inj (hsender'.symm.trans hsender)
    rw [hidle] at hwait
    cases hwait
  refine ⟨fun hmem => ?_, fun hserve => ?_⟩
  · obtain ⟨c, -, hsender', hwait⟩ := h.requests v hv m hmem
    exact hnot c hsender' (hwait hneeds)
  · obtain ⟨c, -, hsender', hwait, -⟩ := h.serving v m hv hserve
    exact hnot c hsender' hwait

/-- **A client sends.**  It has waited for nothing, so nothing of it is anywhere. -/
theorem clientSent (h : x.Safe net tasks) (hbase : Sys.Inv tasks s') (hp : Client net tasks p)
    (hv : Server net tasks v) (hpid : s'.ipc.pcbs.pid = x.sys.ipc.pcbs.pid)
    (hacc : s'.accepted = x.sys.accepted ++ [m]) (hret : s'.returned = x.sys.returned)
    (hsender : m.sender = some p) (hdst : (m.dstPid : Int) = x.sys.ipc.pcbs.pid v)
    (hidle : x.waiting p = none)
    (hrecv : ∀ v k, s'.call v = some (.receiving k) → net.server v = true → x.serving v = none) :
    ({ x.sent net p m with sys := s' } : Rpc).Safe net tasks := by
  rw [sent_client hp hidle]
  obtain ⟨hinbox, hkept⟩ := h.base.inboxes_sent hbase hv.1 hpid hacc hret hdst
  -- one who waits is another client, and goes on waiting
  have hwaits : ∀ c req, x.waiting c = some req → Function.update x.waiting p
      (if net.needsReply m then some m else none) c = some req := by
    intro c req hwait
    have hne : c ≠ p := by
      rintro rfl
      rw [hidle] at hwait
      cases hwait
    exact (Function.update_of_ne hne ..).trans hwait
  refine ⟨hbase, ?_, ?_, ?_, ?_, hrecv, ?_, ?_, ?_⟩
  · intro v' hv' m' hm'
    have hold : m' ∈ x.sys.inbox tasks v' → ∃ c, Client net tasks c ∧ m'.sender = some c ∧
        (net.needsReply m' = true → Function.update x.waiting p
          (if net.needsReply m then some m else none) c = some m') := by
      intro hmem
      obtain ⟨c, hc, hsender', hwait⟩ := h.requests v' hv' m' hmem
      exact ⟨c, hc, hsender', fun hneeds => hwaits c m' (hwait hneeds)⟩
    by_cases heq : v' = v
    · subst heq
      rcases List.mem_cons.mp (hinbox.mem_iff.mp hm') with rfl | hmem
      · refine ⟨p, hp, hsender, fun hneeds => ?_⟩
        show Function.update x.waiting p _ p = some m'
        rw [Function.update_self, if_pos hneeds]
      · exact hold hmem
    · exact hold ((hkept v' hv'.1 heq).mem_iff.mp hm')
  · intro c hc rep hrep
    obtain ⟨req, v', hwait, hans⟩ := h.replies c hc rep
      ((hkept c hc.1 (hc.ne hv)).mem_iff.mp hrep)
    exact ⟨req, v', hwaits c req hwait, hans.of_pid hpid⟩
  · intro v' req hv' hserve
    obtain ⟨c, hc, hsender', hwait, hdst'⟩ := h.serving v' req hv' hserve
    refine ⟨c, hc, hsender', hwaits c req hwait, ?_⟩
    show (req.dstPid : Int) = s'.ipc.pcbs.pid v'
    rw [hpid]
    exact hdst'
  · intro c req hc hwaiting
    have hwait : Function.update x.waiting p (if net.needsReply m then some m else none) c =
      some req := hwaiting
    by_cases heq : c = p
    · subst heq
      rw [Function.update_self] at hwait
      obtain ⟨hneeds, hreq⟩ := Option.ite_none_right_eq_some.mp hwait
      obtain rfl : m = req := Option.some.inj hreq
      obtain ⟨hnot, hserve⟩ := h.not_placed hidle hv hsender hneeds
      refine ⟨hsender, hneeds, v, hv, ?_, ?_⟩
      · show (m.dstPid : Int) = s'.ipc.pcbs.pid v
        rw [hpid]
        exact hdst
      · show (s'.inbox tasks v).count m + (if x.serving v = some m then 1 else 0) +
          (s'.inbox tasks c).length = 1
        rw [if_neg hserve, hinbox.count_eq, (hkept c hc.1 (hc.ne hv)).length_eq,
          h.inbox_eq_nil hc hidle, List.count_cons_self, List.count_eq_zero.mpr hnot]
        rfl
    · rw [Function.update_of_ne heq] at hwait
      obtain ⟨hsender', hneeds, v', hv', hdst', hplaces⟩ := h.once c req hc hwait
      refine ⟨hsender', hneeds, v', hv', ?_, ?_⟩
      · show (req.dstPid : Int) = s'.ipc.pcbs.pid v'
        rw [hpid]
        exact hdst'
      · have hne : m ≠ req := by
          rintro rfl
          exact heq (Option.some.inj (hsender'.symm.trans hsender))
        have hcount : (s'.inbox tasks v').count req = (x.sys.inbox tasks v').count req := by
          by_cases hvv : v' = v
          · rw [hvv, hinbox.count_eq, List.count_cons_of_ne hne]
          · exact (hkept v' hv'.1 hvv).count_eq req
        show (s'.inbox tasks v').count req + (if x.serving v' = some req then 1 else 0) +
          (s'.inbox tasks c).length = 1
        rw [hcount, (hkept c hc.1 (hc.ne hv)).length_eq]
        exact hplaces
  · intro e he
    obtain ⟨v', hans⟩ := h.log e he
    exact ⟨v', hans.of_pid hpid⟩
  · intro c hc
    have hbefore := h.requested c hc
    unfold requestsOf exchangesOf at hbefore ⊢
    rw [show s'.accepted = x.sys.accepted ++ [m] from hacc, List.filter_append, hbefore]
    dsimp only
    by_cases heq : c = p
    · subst heq
      rw [hidle, Function.update_self]
      by_cases hneeds : net.needsReply m = true
      · simp [hsender, hneeds]
      · simp [hneeds]
    · rw [Function.update_of_ne heq]
      have hne : m.sender ≠ some c := fun hsender' =>
        heq (Option.some.inj (hsender'.symm.trans hsender))
      simp [hne]
  · intro c hc
    rw [show s'.returned = x.sys.returned from hret]
    exact h.returned c hc

/-- **A service replies.**  The client that it replies to waits, and nothing else of it is
anywhere. -/
theorem serverSent (h : x.Safe net tasks) (hbase : Sys.Inv tasks s') (hp : Server net tasks p)
    (hpid : s'.ipc.pcbs.pid = x.sys.ipc.pcbs.pid)
    (hacc : s'.accepted = x.sys.accepted ++ [m]) (hret : s'.returned = x.sys.returned)
    (hsender : m.sender = some p) (hserve : x.serving p = some req) (hclient : req.sender = some c)
    (hdst : (m.dstPid : Int) = x.sys.ipc.pcbs.pid c) (hans : net.answers p req m)
    (hrecv : ∀ v k, s'.call v = some (.receiving k) → net.server v = true → x.serving v = none) :
    ({ x.sent net p m with sys := s' } : Rpc).Safe net tasks := by
  have hy : x.sent net p m = { x with serving := Function.update x.serving p none } := by
    unfold sent
    rw [if_pos hp.2]
  rw [hy]
  obtain ⟨c', hc, hclient', hwait, htarget⟩ := h.serving p req hp hserve
  obtain rfl : c' = c := Option.some.inj (hclient'.symm.trans hclient)
  obtain ⟨-, hneeds, v, hv, hdst', hplaces⟩ := h.once c' req hc hwait
  obtain rfl : v = p := h.target_unique hv hp hdst' htarget
  rw [places, if_pos hserve] at hplaces
  have hempty : x.sys.inbox tasks c' = [] := List.eq_nil_of_length_eq_zero (by omega)
  have hcount : (x.sys.inbox tasks v).count req = 0 := by omega
  obtain ⟨hinbox, hkept⟩ := h.base.inboxes_sent hbase hc.1 hpid hacc hret hdst
  refine ⟨hbase, ?_, ?_, ?_, ?_, ?_, ?_, ?_, ?_⟩
  · intro v' hv' m' hm'
    exact h.requests v' hv' m' ((hkept v' hv'.1 (hc.ne hv').symm).mem_iff.mp hm')
  · intro c hc₂ rep hrep
    by_cases heq : c = c'
    · subst heq
      have hrep' := hinbox.mem_iff.mp hrep
      rw [hempty, List.mem_singleton] at hrep'
      subst hrep'
      refine ⟨req, v, hwait, ⟨hp, hsender, ?_, hans⟩⟩
      show (req.dstPid : Int) = s'.ipc.pcbs.pid v
      rw [hpid]
      exact hdst'
    · obtain ⟨req', v', hwait', hans'⟩ := h.replies c hc₂ rep ((hkept c hc₂.1 heq).mem_iff.mp hrep)
      exact ⟨req', v', hwait', hans'.of_pid hpid⟩
  · intro v' req' hv' hserving
    have hserve' : Function.update x.serving v none v' = some req' := hserving
    have hne : v' ≠ v := by
      rintro rfl
      rw [Function.update_self] at hserve'
      cases hserve'
    rw [Function.update_of_ne hne] at hserve'
    obtain ⟨c, hc₂, hsender', hwait', hdst₂⟩ := h.serving v' req' hv' hserve'
    refine ⟨c, hc₂, hsender', hwait', ?_⟩
    show (req'.dstPid : Int) = s'.ipc.pcbs.pid v'
    rw [hpid]
    exact hdst₂
  · intro c req' hc₂ hwait'
    obtain ⟨hsender', hneeds', v', hv', hdst₂, hplaces'⟩ := h.once c req' hc₂ hwait'
    refine ⟨hsender', hneeds', v', hv', ?_, ?_⟩
    · show (req'.dstPid : Int) = s'.ipc.pcbs.pid v'
      rw [hpid]
      exact hdst₂
    · show (s'.inbox tasks v').count req' +
        (if Function.update x.serving v none v' = some req' then 1 else 0) +
          (s'.inbox tasks c).length = 1
      rw [(hkept v' hv'.1 (hc.ne hv').symm).count_eq]
      by_cases heq : c = c'
      · subst heq
        obtain rfl : req = req' := Option.some.inj (hwait.symm.trans hwait')
        obtain rfl : v' = v := h.target_unique hv' hp hdst₂ hdst'
        rw [hcount, Function.update_self, if_neg nofun, hinbox.length_eq, hempty]
        rfl
      · have hserving : (Function.update x.serving v none v' = some req') ↔
            x.serving v' = some req' := by
          by_cases hvv : v' = v
          · subst hvv
            rw [Function.update_self, hserve]
            refine iff_of_false nofun fun hsame => heq ?_
            obtain rfl := Option.some.inj hsame
            exact Option.some.inj (hsender'.symm.trans hclient)
          · rw [Function.update_of_ne hvv]
        rw [(hkept c hc₂.1 heq).length_eq]
        simp only [hserving]
        exact hplaces'
  · intro v' k hcall hserver
    show Function.update x.serving v none v' = none
    by_cases hvv : v' = v
    · rw [hvv, Function.update_self]
    · rw [Function.update_of_ne hvv]
      exact hrecv v' k hcall hserver
  · intro e he
    obtain ⟨v', hans'⟩ := h.log e he
    exact ⟨v', hans'.of_pid hpid⟩
  · intro c hc₂
    have hbefore := h.requested c hc₂
    have hne : m.sender ≠ some c := by
      rw [hsender]
      exact fun heq => hc₂.ne hp (Option.some.inj heq).symm
    unfold requestsOf at hbefore ⊢
    rw [show s'.accepted = x.sys.accepted ++ [m] from hacc, List.filter_append, hbefore]
    simp [hne]
    rfl
  · intro c hc₂
    rw [show s'.returned = x.sys.returned from hret]
    exact h.returned c hc₂

/-- **A service receives.**  It has handled nothing, so its requests are all in its inbox. -/
theorem serverReceived (h : x.Safe net tasks) (hbase : Sys.Inv tasks s') (hp : Server net tasks p)
    (hpid : s'.ipc.pcbs.pid = x.sys.ipc.pcbs.pid) (hacc : s'.accepted = x.sys.accepted)
    (hret : s'.returned = x.sys.returned ++ [(p, m)]) (hidle : x.serving p = none)
    (hcall : ∀ v k, s'.call v = some (.receiving k) → v ≠ p ∧ x.sys.call v = some (.receiving k)) :
    ({ x.received net p m with sys := s' } : Rpc).Safe net tasks := by
  have hy : x.received net p m = { x with
      serving := Function.update x.serving p (if net.needsReply m then some m else none) } := by
    unfold received
    rw [if_pos hp.2]
  rw [hy]
  have hinbox := h.base.inbox_returned hbase hp.1 hpid hacc hret
  have hkept : ∀ q, q ∈ tasks → q ≠ p → (s'.inbox tasks q).Perm (x.sys.inbox tasks q) :=
    fun q hq hne => h.base.inbox_returned_other hbase hp.1 hq hne hpid hacc hret
  have hmem : m ∈ x.sys.inbox tasks p := hinbox.mem_iff.mpr List.mem_cons_self
  refine ⟨hbase, ?_, ?_, ?_, ?_, ?_, ?_, ?_, ?_⟩
  · intro v hv m' hm'
    by_cases hvp : v = p
    · subst hvp
      exact h.requests v hv m' (hinbox.mem_iff.mpr (List.mem_cons_of_mem _ hm'))
    · exact h.requests v hv m' ((hkept v hv.1 hvp).mem_iff.mp hm')
  · intro c hc rep hrep
    obtain ⟨req, v, hwait, hans⟩ := h.replies c hc rep ((hkept c hc.1 (hc.ne hp)).mem_iff.mp hrep)
    exact ⟨req, v, hwait, hans.of_pid hpid⟩
  · intro v req hv hserving
    have hserve : Function.update x.serving p (if net.needsReply m then some m else none) v =
      some req := hserving
    by_cases hvp : v = p
    · subst hvp
      rw [Function.update_self] at hserve
      by_cases hneeds : net.needsReply m = true
      · rw [if_pos hneeds] at hserve
        obtain rfl : m = req := Option.some.inj hserve
        obtain ⟨c, hc, hsender, hwait⟩ := h.requests v hv m hmem
        refine ⟨c, hc, hsender, hwait hneeds, ?_⟩
        show (m.dstPid : Int) = s'.ipc.pcbs.pid v
        rw [hpid]
        exact h.target_of_mem hp.1 hmem
      · rw [if_neg hneeds] at hserve
        cases hserve
    · rw [Function.update_of_ne hvp] at hserve
      obtain ⟨c, hc, hsender, hwait, hdst⟩ := h.serving v req hv hserve
      refine ⟨c, hc, hsender, hwait, ?_⟩
      show (req.dstPid : Int) = s'.ipc.pcbs.pid v
      rw [hpid]
      exact hdst
  · intro c req hc hwait
    obtain ⟨hsender, hneeds, v, hv, hdst, hplaces⟩ := h.once c req hc hwait
    refine ⟨hsender, hneeds, v, hv, ?_, ?_⟩
    · show (req.dstPid : Int) = s'.ipc.pcbs.pid v
      rw [hpid]
      exact hdst
    · show (s'.inbox tasks v).count req +
        (if Function.update x.serving p (if net.needsReply m then some m else none) v = some req
          then 1 else 0) + (s'.inbox tasks c).length = 1
      refine Eq.trans ?_ hplaces
      rw [places, (hkept c hc.1 (hc.ne hp)).length_eq]
      by_cases hvp : v = p
      · subst hvp
        have hfree : ¬ x.serving v = some req := by
          rw [hidle]
          nofun
        rw [Function.update_self, if_neg hfree, hinbox.count_eq]
        by_cases hreq : m = req
        · subst hreq
          rw [if_pos hneeds, if_pos rfl, List.count_cons_self]
        · have hother : ¬ (if net.needsReply m = true then some m else none) = some req := by
            split
            · exact fun heq => hreq (Option.some.inj heq)
            · nofun
          rw [if_neg hother, List.count_cons_of_ne hreq]
      · rw [Function.update_of_ne hvp, (hkept v hv.1 hvp).count_eq]
  · intro v k hreceiving hserver
    obtain ⟨hne, hold⟩ := hcall v k hreceiving
    show Function.update x.serving p _ v = none
    rw [Function.update_of_ne hne]
    exact h.receiving v k hold hserver
  · intro e he
    obtain ⟨v, hans⟩ := h.log e he
    exact ⟨v, hans.of_pid hpid⟩
  · intro c hc
    show s'.accepted.filter _ = _
    rw [hacc]
    exact h.requested c hc
  · intro c hc
    have hne : ¬ p = c := fun heq => hc.ne hp heq.symm
    rw [show s'.returned = _ from hret, List.filter_append, List.filter_singleton,
      decide_eq_false hne, cond_false, List.append_nil]
    exact h.returned c hc

/-- **A client receives** the reply that it waits for: nothing else could have been in its inbox. -/
theorem clientReceived (h : x.Safe net tasks) (hbase : Sys.Inv tasks s') (hp : Client net tasks p)
    (hpid : s'.ipc.pcbs.pid = x.sys.ipc.pcbs.pid) (hacc : s'.accepted = x.sys.accepted)
    (hret : s'.returned = x.sys.returned ++ [(p, m)])
    (hcall : ∀ v k, s'.call v = some (.receiving k) → x.sys.call v = some (.receiving k)) :
    ({ x.received net p m with sys := s' } : Rpc).Safe net tasks := by
  have hinbox := h.base.inbox_returned hbase hp.1 hpid hacc hret
  have hkept : ∀ q, q ∈ tasks → q ≠ p → (s'.inbox tasks q).Perm (x.sys.inbox tasks q) :=
    fun q hq hne => h.base.inbox_returned_other hbase hp.1 hq hne hpid hacc hret
  obtain ⟨req, v, hwait, hans⟩ := h.replies p hp m (hinbox.mem_iff.mpr List.mem_cons_self)
  have hy : x.received net p m = { x with
      waiting := Function.update x.waiting p none
      log := x.log ++ [⟨p, req, m⟩] } := by
    unfold received
    rw [if_neg (by rw [hp.2]; exact Bool.false_ne_true), hwait]
    rfl
  rw [hy]
  obtain ⟨hsender, -, w, hw, hdst, hplaces⟩ := h.once p req hp hwait
  rw [places, hinbox.length_eq, List.length_cons] at hplaces
  have hempty : s'.inbox tasks p = [] := List.eq_nil_of_length_eq_zero (by omega)
  have hcount : (x.sys.inbox tasks w).count req = 0 := by omega
  have hserved : ¬ x.serving w = some req := by
    intro hserve
    rw [if_pos hserve] at hplaces
    omega
  refine ⟨hbase, ?_, ?_, ?_, ?_, ?_, ?_, ?_, ?_⟩
  · intro v' hv' m' hm'
    have hold := (hkept v' hv'.1 (hp.ne hv').symm).mem_iff.mp hm'
    obtain ⟨c, hc, hsender', hwait'⟩ := h.requests v' hv' m' hold
    refine ⟨c, hc, hsender', fun hneeds => ?_⟩
    have hne : c ≠ p := by
      rintro rfl
      obtain rfl : req = m' := Option.some.inj (hwait.symm.trans (hwait' hneeds))
      obtain rfl : v' = w := h.target_unique hv' hw (h.target_of_mem hv'.1 hold) hdst
      exact List.count_eq_zero.mp hcount hold
    exact (Function.update_of_ne hne ..).trans (hwait' hneeds)
  · intro c hc rep hrep
    by_cases hcp : c = p
    · subst hcp
      have hnil : rep ∈ ([] : List Message) := hempty ▸ hrep
      cases hnil
    · obtain ⟨req', v', hwait', hans'⟩ := h.replies c hc rep ((hkept c hc.1 hcp).mem_iff.mp hrep)
      exact ⟨req', v', (Function.update_of_ne hcp ..).trans hwait', hans'.of_pid hpid⟩
  · intro v' req' hv' hserve
    obtain ⟨c, hc, hsender', hwait', hdst'⟩ := h.serving v' req' hv' hserve
    have hne : c ≠ p := by
      rintro rfl
      obtain rfl : req = req' := Option.some.inj (hwait.symm.trans hwait')
      obtain rfl : v' = w := h.target_unique hv' hw hdst' hdst
      exact hserved hserve
    refine ⟨c, hc, hsender', (Function.update_of_ne hne ..).trans hwait', ?_⟩
    show (req'.dstPid : Int) = s'.ipc.pcbs.pid v'
    rw [hpid]
    exact hdst'
  · intro c req' hc hwaiting
    have hwait' : Function.update x.waiting p none c = some req' := hwaiting
    have hne : c ≠ p := by
      rintro rfl
      rw [Function.update_self] at hwait'
      cases hwait'
    rw [Function.update_of_ne hne] at hwait'
    obtain ⟨hsender', hneeds', v', hv', hdst', hplaces'⟩ := h.once c req' hc hwait'
    refine ⟨hsender', hneeds', v', hv', ?_, ?_⟩
    · show (req'.dstPid : Int) = s'.ipc.pcbs.pid v'
      rw [hpid]
      exact hdst'
    · show (s'.inbox tasks v').count req' + (if x.serving v' = some req' then 1 else 0) +
        (s'.inbox tasks c).length = 1
      rw [(hkept v' hv'.1 (hp.ne hv').symm).count_eq, (hkept c hc.1 hne).length_eq]
      exact hplaces'
  · intro v' k hreceiving hserver
    exact h.receiving v' k (hcall v' k hreceiving) hserver
  · intro e he
    rcases List.mem_append.mp he with hold | hnew
    · obtain ⟨v', hans'⟩ := h.log e hold
      exact ⟨v', hans'.of_pid hpid⟩
    · rw [List.mem_singleton.mp hnew]
      exact ⟨v, hans.of_pid hpid⟩
  · intro c hc
    have hbefore := h.requested c hc
    unfold requestsOf exchangesOf at hbefore ⊢
    rw [show s'.accepted = x.sys.accepted from hacc, hbefore, List.filter_append]
    dsimp only
    by_cases hcp : c = p
    · subst hcp
      rw [hwait, Function.update_self]
      simp
    · rw [Function.update_of_ne hcp]
      simp [Ne.symm hcp]
  · intro c hc
    have hbefore := h.returned c hc
    unfold exchangesOf at hbefore ⊢
    rw [show s'.returned = _ from hret, List.filter_append, List.filter_append, List.map_append,
      List.map_append, hbefore, List.filter_singleton, List.filter_singleton]
    by_cases hpc : p = c
    · rw [decide_eq_true hpc]
      rfl
    · rw [decide_eq_false hpc]
      rfl

/-- **A `Send` finds the slot that it needs free**: nothing is on its way to a client that is
replied to, and what is on its way to a service has been sent by another client. -/
theorem slotFree (h : x.Safe net tasks) {slot : Nat} (halone : x.Alone net tasks (.send p slot))
    (hfollows : x.Follows net tasks (.send p slot)) (hp : p ∈ tasks) (hcall : x.sys.call p = none) :
    Sys.SlotFree x.sys (.send p slot) := by
  cases hsender : (x.sys.ipc.msgQueues (x.sys.ipc.mem ⟨p, slot⟩).dstPid).waitingSender with
  | none => simp [Sys.SlotFree, Sys.slotFree, hsender]
  | some q =>
      exfalso
      obtain ⟨k, hblocked, -, hfrom, hdst⟩ := h.base.sender _ q hsender
      have hrecorded := h.base.recorded_eq hsender hblocked.1
      have hne : q ≠ p := by
        rintro rfl
        exact Option.some_ne_none _ (hblocked.1.symm.trans hcall)
      -- the message that `q` is blocked with is in the inbox of the destination
      have hmem : ∀ v, ((x.sys.ipc.mem ⟨p, slot⟩).dstPid : Int) = x.sys.ipc.pcbs.pid v →
          x.sys.ipc.mem ⟨q, k⟩ ∈ x.sys.inbox tasks v := by
        intro v hv
        unfold Sys.inbox
        rw [← hv, Int.toNat_natCast, hrecorded]
        exact List.mem_append_right _ (List.mem_singleton_self _)
      unfold Follows at hfollows
      dsimp only at hfollows
      split at hfollows
      · next hserver =>
        obtain ⟨req, hserve, c, hclient, hreply, -⟩ := hfollows
        obtain ⟨c', hc, hclient', hwait, htarget⟩ := h.serving p req ⟨hp, hserver⟩ hserve
        obtain rfl : c' = c := Option.some.inj (hclient'.symm.trans hclient)
        obtain ⟨-, -, v, hv, hdst', hplaces⟩ := h.once c' req hc hwait
        obtain rfl : v = p := h.target_unique hv ⟨hp, hserver⟩ hdst' htarget
        rw [places, if_pos (Option.mem_def.mp hserve)] at hplaces
        have hempty : x.sys.inbox tasks c' = [] := List.eq_nil_of_length_eq_zero (by omega)
        have hnil := hmem c' hreply
        rw [hempty] at hnil
        cases hnil
      · obtain ⟨-, v, hv, hserver, hrequest⟩ := hfollows
        obtain ⟨c, hc, hclient, -⟩ := h.requests v ⟨hv, hserver⟩ _ (hmem v hrequest)
        obtain rfl : q = c := Option.some.inj (hfrom.symm.trans hclient)
        refine halone q hc.1 hne hc.2 ?_
        unfold Sys.sendingTo
        rw [hblocked.1]
        dsimp only
        rw [if_pos hblocked.2, hdst]

/-- A `Send` is to a task, a client's to a service and a service's to a client. -/
theorem target (h : x.Safe net tasks) {slot : Nat} (hp : p ∈ tasks)
    (hfollows : x.Follows net tasks (.send p slot)) :
    ∃ d ∈ tasks, ((x.sys.ipc.mem ⟨p, slot⟩).dstPid : Int) = x.sys.ipc.pcbs.pid d ∧
      net.server d = !net.server p := by
  unfold Follows at hfollows
  dsimp only at hfollows
  split at hfollows
  · next hserver =>
    obtain ⟨req, hserve, c, hclient, hdst, -⟩ := hfollows
    obtain ⟨c', hc, hclient', -⟩ := h.serving p req ⟨hp, hserver⟩ hserve
    obtain rfl : c' = c := Option.some.inj (hclient'.symm.trans hclient)
    exact ⟨c', hc.1, hdst, by rw [hc.2, hserver]; rfl⟩
  · next hserver =>
    obtain ⟨-, v, hv, hserves, hdst⟩ := hfollows
    exact ⟨v, hv, hdst, by rw [hserves, Bool.eq_false_iff.mpr hserver]; rfl⟩

/-- **A step of a task that follows its program**, in which no client overwrites another one. -/
theorem step (h : x.Safe net tasks) {op : Op} (halone : x.Alone net tasks op)
    (hstep : x.Step net tasks op y) :
    y.Safe net tasks := by
  obtain ⟨hfollows, hnext⟩ := hstep
  obtain ⟨s', hs, rfl⟩ := Option.map_eq_some_iff.mp hnext
  obtain ⟨c, hcalls, hreceiving⟩ := Sys.step_call hs
  have hrecv : ∀ v k, s'.call v = some (.receiving k) →
      (v = op.task → op = .receive v k ∧ s'.returned = x.sys.returned) ∧
        (v ≠ op.task → x.sys.call v = some (.receiving k)) := by
    intro v k hv
    rw [hcalls] at hv
    refine ⟨?_, fun hne => (Function.update_of_ne hne ..).symm.trans hv⟩
    rintro rfl
    rw [Function.update_self] at hv
    exact hreceiving k hv
  by_cases hsend : ∃ p slot, op = .send p slot
  · obtain ⟨p, slot, rfl⟩ := hsend
    have htask : p ∈ tasks := (Sys.step_cases hs).1
    obtain ⟨d, hd, hdst, -⟩ := h.target htask hfollows
    have hlt : (x.sys.ipc.mem ⟨p, slot⟩).dstPid < 256 := by
      have hrange := (h.base.pid_range d hd).2
      omega
    obtain ⟨hcall, hp, hpid, hacc, hret⟩ := Sys.step_send hs hlt
    have hbase := h.base.step (h.slotFree halone hfollows hp hcall) hs
    have hidle : ∀ v k, s'.call v = some (.receiving k) → net.server v = true →
        x.serving v = none := by
      intro v k hv hserver
      by_cases hvp : v = p
      · exact absurd ((hrecv v k hv).1 hvp).1 nofun
      · exact h.receiving v k ((hrecv v k hv).2 hvp) hserver
    unfold Follows at hfollows
    dsimp only at hfollows
    split at hfollows
    · next hserver =>
      obtain ⟨req, hserve, c, hclient, hreply, hans⟩ := hfollows
      exact h.serverSent hbase ⟨hp, hserver⟩ hpid hacc hret rfl hserve hclient hreply hans hidle
    · next hserver =>
      obtain ⟨hwait, v, hv, hserves, hrequest⟩ := hfollows
      exact h.clientSent hbase ⟨hp, Bool.eq_false_iff.mpr hserver⟩ ⟨hv, hserves⟩ hpid hacc hret rfl
        hrequest hwait hidle
  · have hop : ∀ p slot, op ≠ .send p slot := fun p slot heq => hsend ⟨p, slot, heq⟩
    obtain ⟨hp, hpid, hacc, hret⟩ := Sys.step_other hs hop
    have hbase : Sys.Inv tasks s' := by
      refine h.base.step ?_ hs
      cases op with
      | send p slot => exact absurd rfl (hop p slot)
      | write p slot m => rfl
      | receive p slot => rfl
      | resume p => rfl
    rw [after_other hop]
    rcases hret with hret | ⟨hentered, m, hret⟩
    · rw [hret, List.drop_length]
      refine h.quiet hbase hpid hacc hret fun v k hv hserver => ?_
      by_cases hvp : v = op.task
      · obtain ⟨rfl, -⟩ := (hrecv v k hv).1 hvp
        unfold Follows at hfollows
        dsimp only at hfollows
        rw [if_pos hserver] at hfollows
        exact hfollows
      · exact h.receiving v k ((hrecv v k hv).2 hvp) hserver
    · rw [hret, List.drop_left]
      -- one that has just received something is not in a `Receive`
      have hleft : ∀ v k, s'.call v = some (.receiving k) →
          v ≠ op.task ∧ x.sys.call v = some (.receiving k) := by
        intro v k hv
        have hne : v ≠ op.task := by
          intro hvp
          have hlength := congrArg List.length (((hrecv v k hv).1 hvp).2.symm.trans hret)
          rw [List.length_append, List.length_singleton] at hlength
          omega
        exact ⟨hne, (hrecv v k hv).2 hne⟩
      cases hserver : net.server op.task with
      | true =>
          refine h.serverReceived hbase ⟨hp, hserver⟩ hpid hacc hret ?_ hleft
          rcases hentered with ⟨slot, heq⟩ | ⟨slot, hcall⟩
          · rw [heq] at hfollows
            unfold Follows at hfollows
            dsimp only at hfollows
            rw [if_pos hserver] at hfollows
            exact hfollows
          · exact h.receiving op.task slot hcall hserver
      | false =>
          exact h.clientReceived hbase ⟨hp, hserver⟩ hpid hacc hret fun v k hv => (hleft v k hv).2

end Safe

/-- Before anybody has said anything. -/
theorem start_safe {s : Sys} (hinit : Sys.Init tasks s) : (start s).Safe net tasks := by
  have hempty : ∀ p, s.inbox tasks p = [] := by
    intro p
    refine List.eq_nil_iff_forall_not_mem.mpr fun m hm => ?_
    have hacc := (hinit.inv.mem_inbox hm).1
    rw [hinit.accepted] at hacc
    cases hacc
  refine ⟨hinit.inv, ?_, ?_, nofun, nofun, fun _ _ _ _ => rfl, nofun, ?_, ?_⟩
  · intro v _ m hm
    have hnil : m ∈ ([] : List Message) := hempty v ▸ hm
    cases hnil
  · intro c _ rep hrep
    have hnil : rep ∈ ([] : List Message) := hempty c ▸ hrep
    cases hnil
  · intro c _
    show s.accepted.filter _ = _
    rw [hinit.accepted]
    rfl
  · intro c _
    show (s.returned.filter _).map _ = _
    rw [hinit.returned]
    rfl

/-- **Every reply is the one to the request of the client that gets it.**  In every run of clients
and services in which no client overwrites another one's `Send`: each exchange is a request with a
reply to it, by the service that the request was for; the requests of a client are those of its
exchanges, in order, and the one that it waits with; what it has received are the replies of its
exchanges, in order; and the request that a client waits with is on its way to the service, or
handled by it, or the reply is on its way back, in one of the three places, once. -/
theorem rpc_run {s : Sys} {ops : List Op} (hinit : Sys.Init tasks s)
    (hrun : Run (Guarded (Alone net tasks) (Step net tasks)) (start s) ops x) :
    (∀ e ∈ x.log, ∃ v, x.Answered net tasks e.request e.reply v) ∧
      ∀ c, Client net tasks c →
        x.requestsOf net c = (x.exchangesOf c).map Exchange.request ++ (x.waiting c).toList ∧
        (x.sys.returned.filter fun r => r.1 = c).map Prod.snd =
          (x.exchangesOf c).map Exchange.reply ∧
        ∀ req, x.waiting c = some req → ∃ v, Server net tasks v ∧
          (req.dstPid : Int) = x.sys.ipc.pcbs.pid v ∧ x.places tasks c v req = 1 := by
  have h : x.Safe net tasks :=
    hrun.invariant (start_safe hinit) fun _ _ _ hsafe hstep => hsafe.step hstep.1 hstep.2
  refine ⟨h.log, fun c hc => ⟨h.requested c hc, h.returned c hc, fun req hwait => ?_⟩⟩
  obtain ⟨-, -, v, hv, hdst, hplaces⟩ := h.once c req hc hwait
  exact ⟨v, hv, hdst, hplaces⟩

end Rpc

/-! ## One exchange -/

/-- Task 3 replies to the messages of type 7, with what they carry. -/
def echoNet : Net where
  server p := p == 3
  needsReply m := m.type == 7
  answers _ req rep := rep.num = req.num

instance (p : PcbId) (req rep : Message) : Decidable (echoNet.answers p req rep) :=
  inferInstanceAs (Decidable (rep.num = req.num))

/-- Tasks 1 and 2 ask task 3. -/
def asking : List Op := [.receive 3 0, .send 1 0, .resume 3, .receive 1 0, .send 2 0]

/-- Task 3 replies to task 1. -/
def replying : List Op :=
  [.write 3 0 ⟨none, 1, 0, 0, [1]⟩, .send 3 0, .resume 1, .receive 3 0, .resume 2]

/-- The steps computed. -/
def echo (ops : List Op) : Option Rpc :=
  exec (fun (x : Rpc) op => decide (x.Alone echoNet [1, 2, 3] op ∧ x.Follows echoNet [1, 2, 3] op))
    (Rpc.next echoNet [1, 2, 3]) (Rpc.start threeTasks) ops

theorem run_of_echo {ops : List Op} {x : Rpc} (h : echo ops = some x) :
    Run (Guarded (Rpc.Alone echoNet [1, 2, 3]) (Rpc.Step echoNet [1, 2, 3])) (Rpc.start threeTasks)
      ops x := by
  refine (run_of_exec h).mono fun a op b hstep => ?_
  obtain ⟨halone, hfollows⟩ := of_decide_eq_true hstep.1
  exact ⟨halone, hfollows, hstep.2⟩

/-- There is an exchange, and it has been answered by a service that the request was for. -/
theorem rpc_run_echoes : ∃ x : Rpc, x.log.length = 1 ∧
    ∀ e ∈ x.log, ∃ v, x.Answered echoNet [1, 2, 3] e.request e.reply v := by
  obtain ⟨x, hx, hlog⟩ := Option.map_eq_some_iff.mp
    (by decide : (echo (asking ++ replying)).map (fun x => x.log.length) = some 1)
  exact ⟨x, hlog, (Rpc.rpc_run threeTasks_init (run_of_echo hx)).1⟩

end InfoKernel.Task.Ipc
