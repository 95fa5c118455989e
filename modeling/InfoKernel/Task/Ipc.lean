import InfoKernel.Task.Basic

/-!
# Message passing

The model of `src/task/ipc.cc`: the 256 message queues, `Send` and `Receive`.

Both functions are modelled up to the point where they leave `ipc.cc`, and say
with an `Action` how they leave it: they return a value, they hand a task they
have just made `Ready` to `cfs::sched.Enqueue` and return 1, or they call
`Schedule()` and return 1 when the caller runs again.  The queue lock is held from
the first access to the queue to the last, and each call is one step here.

`dst_pid` is an unsigned 64-bit number, so the test `msg->dst_pid < 0` of the
source is never true and only the upper bound is left.
-/

namespace InfoKernel.Task.Ipc

/-- `struct Message`.  The union is kept as its `num` view. -/
structure Message where
  sender : Option PcbId
  dstPid : Nat
  type : Nat
  size : Nat
  num : List Nat
  deriving DecidableEq, Repr

/-- `struct MessageQueue`, without the lock. -/
structure MessageQueue where
  messages : Nat → Message
  head : Nat
  tail : Nat
  waitingSender : Option PcbId
  waitingReceiver : Option PcbId
  hasMessage : Bool

/-- What `Send` and `Receive` read and write: the control blocks, the message
objects of the callers, and `msg_queues`. -/
structure IpcState where
  pcbs : PcbTable
  mem : MsgPtr → Message
  msgQueues : Nat → MessageQueue

/-- How a call leaves `ipc.cc`. -/
inductive Action where
  /-- `return ret` -/
  | done (ret : Int)
  /-- `cfs::sched.Enqueue(pcb); return 1` -/
  | wake (pcb : PcbId)
  /-- `Schedule(); return 1` -/
  | schedule
  deriving DecidableEq, Repr

namespace IpcState

/-- A write to a message object. -/
def store (s : IpcState) (a : MsgPtr) (m : Message) : IpcState :=
  { s with mem := Function.update s.mem a m }

/-- A write to a message queue. -/
def setQueue (s : IpcState) (d : Nat) (q : MessageQueue) : IpcState :=
  { s with msgQueues := Function.update s.msgQueues d q }

/-- `pcb->stat = st`. -/
def setStat (s : IpcState) (p : PcbId) (st : State) : IpcState :=
  { s with pcbs := s.pcbs.setStat p st }

/-- `pcb->msg = a`. -/
def setMsg (s : IpcState) (p : PcbId) (a : MsgPtr) : IpcState :=
  { s with pcbs := s.pcbs.setMsg p a }

section Fields

variable (s : IpcState) (a : MsgPtr) (m : Message) (d : Nat) (q : MessageQueue)
  (p : PcbId) (st : State)

@[simp] theorem store_pcbs : (s.store a m).pcbs = s.pcbs := rfl
@[simp] theorem store_msgQueues : (s.store a m).msgQueues = s.msgQueues := rfl
@[simp] theorem store_mem : (s.store a m).mem = Function.update s.mem a m := rfl
@[simp] theorem setQueue_pcbs : (s.setQueue d q).pcbs = s.pcbs := rfl
@[simp] theorem setQueue_mem : (s.setQueue d q).mem = s.mem := rfl
@[simp] theorem setQueue_msgQueues :
    (s.setQueue d q).msgQueues = Function.update s.msgQueues d q := rfl
@[simp] theorem setStat_pcbs : (s.setStat p st).pcbs = s.pcbs.setStat p st := rfl
@[simp] theorem setStat_mem : (s.setStat p st).mem = s.mem := rfl
@[simp] theorem setStat_msgQueues : (s.setStat p st).msgQueues = s.msgQueues := rfl
@[simp] theorem setMsg_pcbs : (s.setMsg p a).pcbs = s.pcbs.setMsg p a := rfl
@[simp] theorem setMsg_mem : (s.setMsg p a).mem = s.mem := rfl
@[simp] theorem setMsg_msgQueues : (s.setMsg p a).msgQueues = s.msgQueues := rfl

end Fields

/-- The branch of `Send` for a waiting receiver: copy the message into the buffer
the receiver left in its control block, and wake the receiver. -/
def deliver (s : IpcState) (d : Nat) (receiver : PcbId) (msg : MsgPtr) :
    Except Fault (IpcState × Action) :=
  match s.pcbs.msg receiver with
  | none => .error .nullDeref
  | some buf =>
      .ok ((((s.store buf (s.mem msg)).setQueue d
          { s.msgQueues d with waitingReceiver := none }).setStat receiver .ready),
        .wake receiver)

/-- The branch of `Send` without a waiting receiver: leave the message in the
caller's own object, enter the caller in the queue, and block. -/
def park (s : IpcState) (current : PcbId) (d : Nat) (msg : MsgPtr) : IpcState × Action :=
  ((((s.setMsg current msg).setQueue d
      { s.msgQueues d with waitingSender := some current }).setStat current .blocked),
    .schedule)

/-- `ipc::Send(msg)`, called by `current`. -/
def send (s : IpcState) (current : PcbId) (msg : MsgPtr) : Except Fault (IpcState × Action) :=
  let s := s.store msg { s.mem msg with sender := some current }
  let d := (s.mem msg).dstPid
  if 256 ≤ d then
    .ok (s, .done (-1))
  else
    match (s.msgQueues d).waitingReceiver with
    | some receiver => s.deliver d receiver msg
    | none => .ok (s.park current d msg)

/-- The branch of `Receive` that takes a message out of the ring. -/
def takeRing (s : IpcState) (d : Nat) (msg : MsgPtr) : IpcState × Action :=
  let q := s.msgQueues d
  let head := (q.head + 1) % 16
  ((s.store msg (q.messages q.head)).setQueue d
      { q with head := head, hasMessage := q.hasMessage && head ≠ q.tail },
    .done 1)

/-- The branch of `Receive` that takes the message out of the recorded sender's
own object and wakes the sender. -/
def collect (s : IpcState) (d : Nat) (sender : PcbId) (msg : MsgPtr) :
    Except Fault (IpcState × Action) :=
  match s.pcbs.msg sender with
  | none => .error .nullDeref
  | some buf =>
      .ok ((((s.store msg { s.mem buf with sender := some sender }).setQueue d
          { s.msgQueues d with waitingSender := none }).setStat sender .ready),
        .wake sender)

/-- The branch of `Receive` without a message: leave the buffer in the control
block, enter the caller in its own queue, and block. -/
def await (s : IpcState) (current : PcbId) (d : Nat) (msg : MsgPtr) : IpcState × Action :=
  ((((s.setMsg current msg).setStat current .blocked).setQueue d
      { s.msgQueues d with waitingReceiver := some current }),
    .schedule)

/-- `ipc::Receive(msg)`, called by `current`.  The queue is the one of the caller's
pid; `msg_queues` has 256 of them. -/
def receive (s : IpcState) (current : PcbId) (msg : MsgPtr) : Except Fault (IpcState × Action) :=
  let pid := s.pcbs.pid current
  if pid < 0 ∨ 256 ≤ pid then
    .error .outOfBounds
  else
    let d := pid.toNat
    let q := s.msgQueues d
    if q.head ≠ q.tail then
      .ok (s.takeRing d msg)
    else
      match q.waitingSender with
      | some sender => s.collect d sender msg
      | none => .ok (s.await current d msg)

end IpcState

end InfoKernel.Task.Ipc
