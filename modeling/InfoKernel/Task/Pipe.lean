import InfoKernel.Lib.Bytes
import InfoKernel.Lib.Ring
import InfoKernel.Lib.Run
import InfoKernel.Machine
import InfoKernel.Task.Basic

/-!
# Pipes

`pipe.cc`: `PipeCreate`, `PipeRead`, `PipeWrite` and `PipeClose`, called by any number of
tasks on the 64 pipes of `pipe_table`.  What a call does between `lock.lock()` and
`lock.unlock()` is one step, and so is each `wait()`, each `signal()` and each return;
between any two steps of a task the others may take any number of theirs, and the memories
of the tasks may change in any way.

`Sem::signal` does nothing, its body being commented out, so a task that blocks in `wait()`
is made ready by somebody else.  Nothing below depends on when that happens: the loops of
`PipeRead` and `PipeWrite` look at the pipe again each time.

The log records what each critical section has done: the bytes that a `PipeRead` has stored
in the buffer of its caller, the bytes that a `PipeWrite` has taken from it, and the
closings.  A pipe is a queue of bytes (`pipes_fifo`): what its reads have returned, followed
by what is still in the ring, is what its writes have accepted.
-/

namespace InfoKernel.Task.Pipes

open Lib

/-- The memory of a task. -/
abbrev Mem := Nat → UInt8

/-- `task::Sem` -/
structure Sem where
  value : Int

/-- `Sem::wait`: the semaphore behind a wait that returns at once; otherwise the task
blocks. -/
def Sem.wait (s : Sem) : Option Sem := if 0 < s.value then some ⟨s.value - 1⟩ else none

/-- `Sem::signal` -/
def Sem.signal (s : Sem) : Sem := s

/-- `task::ipc::Pipe` -/
structure Pipe where
  buffer : Nat → UInt8
  readPos : Nat
  writePos : Nat
  bufferSize : Nat
  readable : Sem
  writable : Sem
  reader : Option PcbId
  writer : Option PcbId
  isClosed : Bool

/-- The conversion from `std::uint64_t` to `std::int64_t`. -/
def toInt64 (n : Nat) : Int := if n < 2 ^ 63 then n else n - 2 ^ 64

/-- What comes behind a critical section: the wait of the loop, a return, or the signal
and then a return. -/
inductive Next where
  | wait
  | done (v : Int)
  | signal (v : Int)

namespace Pipe

/-- The fields that `PipeCreate` fills in. -/
def create (p : Pipe) : Pipe :=
  { p with
    readPos := 0
    writePos := 0
    bufferSize := 0
    reader := none
    writer := none
    isClosed := false
    readable := ⟨0⟩
    writable := ⟨4096⟩ }

/-- The first `n` turns of the loop of `PipeRead`. -/
def readBytes (p : Pipe) (mem : Mem) (buf : Nat) : Nat → Pipe × Mem
  | 0 => (p, mem)
  | i + 1 =>
      let r := readBytes p mem buf i
      ({ r.1 with readPos := (r.1.readPos + 1) % 4096 },
        Function.update r.2 (buf + i) (r.1.buffer r.1.readPos))

/-- The first `n` turns of the loop of `PipeWrite`. -/
def writeBytes (p : Pipe) (mem : Mem) (buf : Nat) : Nat → Pipe
  | 0 => p
  | i + 1 =>
      let q := writeBytes p mem buf i
      { q with
        buffer := Function.update q.buffer q.writePos (mem (buf + i))
        writePos := (q.writePos + 1) % 4096 }

/-- The critical section of `PipeRead`. -/
def read (p : Pipe) (mem : Mem) (buf size : Nat) : Next × Pipe × Mem :=
  if p.bufferSize = 0 ∧ p.isClosed = false then (.wait, p, mem)
  else if p.bufferSize = 0 then (.done 0, p, mem)
  else
    let readSize := if size < p.bufferSize then size else p.bufferSize
    let r := p.readBytes mem buf readSize
    (.signal (toInt64 readSize),
      { r.1 with bufferSize := sub64 r.1.bufferSize readSize }, r.2)

/-- The critical section of `PipeWrite`. -/
def write (p : Pipe) (mem : Mem) (buf size : Nat) : Next × Pipe :=
  if p.bufferSize = 4096 ∧ p.isClosed = false then (.wait, p)
  else if p.isClosed then (.done (-1), p)
  else
    let writeSize := if size < sub64 4096 p.bufferSize then size else sub64 4096 p.bufferSize
    let q := p.writeBytes mem buf writeSize
    (.signal (toInt64 writeSize), { q with bufferSize := u64 (q.bufferSize + writeSize) })

/-- The critical section of `PipeClose`. -/
def close (p : Pipe) : Pipe := { p with isClosed := true }

end Pipe

/-! ## The system -/

/-- A call, with its arguments. -/
inductive Call where
  | read (fd : Int) (buf size : Nat)
  | write (fd : Int) (buf size : Nat)
  | close (fd : Int)

/-- The descriptor of a call. -/
def Call.fd : Call → Int
  | .read fd _ _ => fd
  | .write fd _ _ => fd
  | .close fd => fd

/-- What a call returns that finds its descriptor out of range; `PipeClose` returns
nothing. -/
def Call.refused : Call → Option Int
  | .read _ _ _ => some (-1)
  | .write _ _ _ => some (-1)
  | .close _ => none

/-- The semaphore that the loop of a call waits on. -/
def Call.wait (p : Pipe) : Call → Option Pipe
  | .read _ _ _ => p.readable.wait.map fun s => { p with readable := s }
  | .write _ _ _ => p.writable.wait.map fun s => { p with writable := s }
  | .close _ => none

/-- The signals at the end of a call. -/
def Call.signal (p : Pipe) : Call → Pipe
  | .read _ _ _ => { p with writable := p.writable.signal }
  | .write _ _ _ => { p with readable := p.readable.signal }
  | .close _ => { p with readable := p.readable.signal, writable := p.writable.signal }

/-- Where a task is in the code of the pipes. -/
inductive Point where
  /-- in none of the functions -/
  | out
  /-- in front of the critical section -/
  | lock (c : Call) (id : Nat)
  /-- in front of the `wait()` of the loop -/
  | wait (c : Call) (id : Nat)
  /-- in the `Schedule()` of that `wait()` -/
  | blocked (c : Call) (id : Nat)
  /-- in front of the `signal()` -/
  | signal (c : Call) (id : Nat) (v : Option Int)
  /-- in front of the return -/
  | done (v : Option Int)

/-- The pipe that a task is using. -/
def Point.pipe : Point → Option Nat
  | .lock _ id => some id
  | .wait _ id => some id
  | .blocked _ id => some id
  | .signal _ id _ => some id
  | _ => none

/-- What a critical section has done. -/
inductive Entry where
  | read (id : Nat) (bytes : List UInt8)
  | wrote (id : Nat) (bytes : List UInt8)
  | closed (id : Nat)

/-- The pipe of an entry. -/
def Entry.pipe : Entry → Nat
  | .read id _ => id
  | .wrote id _ => id
  | .closed id => id

/-- The pipes, the tasks, and the log. -/
structure Sys (ι : Type*) where
  pipeTable : Nat → Pipe
  pipeCount : Nat
  memory : ι → Mem
  point : ι → Point
  log : List Entry

/-- What happens next: a task enters `PipeCreate`, with the address of its `pipefd`, or
another call; a task goes on; the memory of a task changes. -/
inductive Act (ι : Type*) where
  | create (t : ι) (pipefd : Nat)
  | call (t : ι) (c : Call)
  | go (t : ι)
  | store (t : ι) (mem : Mem)

/-- The pipe of a descriptor, as the three functions find it. -/
def pipeOf (pipeCount : Nat) (fd : Int) : Option Nat :=
  if fd < 0 ∨ 128 ≤ fd then none
  else if pipeCount ≤ fd.toNat / 2 then none
  else some (fd.toNat / 2)

variable {ι : Type*} [DecidableEq ι]

namespace Sys

/-- Task `t` goes to a point. -/
def goTo (s : Sys ι) (t : ι) (p : Point) : Sys ι :=
  { s with point := Function.update s.point t p }

/-- Pipe `id` changes. -/
def setPipe (s : Sys ι) (id : Nat) (p : Pipe) : Sys ι :=
  { s with pipeTable := Function.update s.pipeTable id p }

/-- The memory of task `t` changes. -/
def setMemory (s : Sys ι) (t : ι) (mem : Mem) : Sys ι :=
  { s with memory := Function.update s.memory t mem }

/-- The log gets an entry. -/
def record (s : Sys ι) (e : Entry) : Sys ι := { s with log := s.log ++ [e] }

/-- `PipeCreate` -/
def create (s : Sys ι) (t : ι) (pipefd : Nat) : Sys ι :=
  if 64 ≤ s.pipeCount then s.goTo t (.done (some (-1)))
  else
    let id := s.pipeCount
    let mem := setLE (setLE (s.memory t) pipefd 4 (id * 2)) (pipefd + 4) 4 (id * 2 + 1)
    ({ s with pipeCount := id + 1 }.setPipe id (s.pipeTable id).create).setMemory t mem
      |>.goTo t (.done (some 0))

/-- The critical section of a call of `t` on pipe `id`, up to its `unlock()`. -/
def critical (s : Sys ι) (t : ι) (id : Nat) : Call → Sys ι
  | .read fd buf size =>
      let r := (s.pipeTable id).read (s.memory t) buf size
      match r.1 with
      | .wait => s.goTo t (.wait (.read fd buf size) id)
      | .done v => s.goTo t (.done (some v))
      | .signal v =>
          (((s.setPipe id r.2.1).setMemory t r.2.2).record
            (.read id (window r.2.2 buf v.toNat))).goTo t (.signal (.read fd buf size) id (some v))
  | .write fd buf size =>
      let r := (s.pipeTable id).write (s.memory t) buf size
      match r.1 with
      | .wait => s.goTo t (.wait (.write fd buf size) id)
      | .done v => s.goTo t (.done (some v))
      | .signal v =>
          ((s.setPipe id r.2).record (.wrote id (window (s.memory t) buf v.toNat))).goTo t
            (.signal (.write fd buf size) id (some v))
  | .close fd =>
      ((s.setPipe id (s.pipeTable id).close).record (.closed id)).goTo t
        (.signal (.close fd) id none)

end Sys

/-- One step, if it can be taken. -/
def step (s : Sys ι) : Act ι → Option (Sys ι)
  | .create t pipefd =>
      match s.point t with
      | .out => some (s.create t pipefd)
      | _ => none
  | .call t c =>
      match s.point t with
      | .out =>
          match pipeOf s.pipeCount c.fd with
          | none => some (s.goTo t (.done c.refused))
          | some id => some (s.goTo t (.lock c id))
      | _ => none
  | .go t =>
      match s.point t with
      | .out => none
      | .lock c id => some (s.critical t id c)
      | .wait c id =>
          match c.wait (s.pipeTable id) with
          | some p => some ((s.setPipe id p).goTo t (.lock c id))
          | none => some (s.goTo t (.blocked c id))
      | .blocked c id => some (s.goTo t (.lock c id))
      | .signal c id v => some ((s.setPipe id (c.signal (s.pipeTable id))).goTo t (.done v))
      | .done _ => some (s.goTo t .out)
  | .store t mem => some (s.setMemory t mem)

/-- The start: there are no pipes, and no task is in the code of the pipes. -/
def Sys.boot (pipeTable : Nat → Pipe) (memory : ι → Mem) : Sys ι where
  pipeTable := pipeTable
  pipeCount := 0
  memory := memory
  point _ := .out
  log := []

/-! ## What is proved about them -/

/-- The bytes in the ring, the next one to read first. -/
def Pipe.buffered (p : Pipe) : List UInt8 := ringList 4096 p.buffer p.readPos p.bufferSize

/-- The positions of a pipe. -/
structure Pipe.InRange (p : Pipe) : Prop where
  read : p.readPos < 4096
  size : p.bufferSize ≤ 4096
  write : p.writePos = (p.readPos + p.bufferSize) % 4096

/-- The bytes of an entry if it is of a read from pipe `id`. -/
def Entry.readFrom (id : Nat) : Entry → List UInt8
  | .read i bytes => if i = id then bytes else []
  | _ => []

/-- The bytes of an entry if it is of a write to pipe `id`. -/
def Entry.wroteTo (id : Nat) : Entry → List UInt8
  | .wrote i bytes => if i = id then bytes else []
  | _ => []

/-- What the reads from pipe `id` have returned, in order. -/
def returned (log : List Entry) (id : Nat) : List UInt8 := log.flatMap (Entry.readFrom id)

/-- What the writes to pipe `id` have accepted, in order. -/
def accepted (log : List Entry) (id : Nat) : List UInt8 := log.flatMap (Entry.wroteTo id)

/-- No write to a pipe follows a closing of it. -/
def Sealed (log : List Entry) : Prop :=
  log.Pairwise fun e e' => ∀ id bytes, e = .closed id → e' ≠ .wrote id bytes

/-- The pipe that a step is on. -/
def Sys.target (s : Sys ι) : Act ι → Option Nat
  | .create _ _ => some s.pipeCount
  | .call _ _ => none
  | .go t => (s.point t).pipe
  | .store _ _ => none

/-! ## One pipe -/

theorem toInt64_of_lt {n : Nat} (h : n < 2 ^ 63) : toInt64 n = n := if_pos h

theorem sub64_of_le {a b : Nat} (h : b ≤ a) (ha : a < 2 ^ 64) : sub64 a b = a - b := by
  rw [sub64, u64, u64, Nat.mod_eq_of_lt (by omega : b < 2 ^ 64)]
  omega

namespace Pipe

variable {p : Pipe} {mem : Mem} {buf size n : Nat}

theorem length_buffered (p : Pipe) : p.buffered.length = p.bufferSize := length_ringList _ _ _

theorem take_buffered (h : n ≤ p.bufferSize) :
    p.buffered.take n = ringList 4096 p.buffer p.readPos n := by
  obtain ⟨k, hk⟩ := Nat.exists_eq_add_of_le h
  rw [buffered, hk, ringList_add]
  exact List.take_left' (length_ringList _ _ _)

/-- The loop of `PipeRead` moves `readPos` only. -/
theorem readBytes_fst (h : p.readPos < 4096) (mem : Mem) (buf n : Nat) :
    (p.readBytes mem buf n).1 = { p with readPos := (p.readPos + n) % 4096 } := by
  induction n with
  | zero => rw [readBytes, Nat.add_zero, Nat.mod_eq_of_lt h]
  | succ n ih =>
      rw [readBytes, ih]
      show { p with readPos := ((p.readPos + n) % 4096 + 1) % 4096 } = _
      rw [Nat.mod_add_mod, Nat.add_assoc]

/-- The loop of `PipeRead` stores the values from `readPos` on, wrapping around. -/
theorem window_readBytes (h : p.readPos < 4096) (mem : Mem) (buf n : Nat) :
    window (p.readBytes mem buf n).2 buf n = ringList 4096 p.buffer p.readPos n := by
  induction n with
  | zero => rfl
  | succ n ih =>
      have hlast : (p.readBytes mem buf (n + 1)).2 =
          Function.update (p.readBytes mem buf n).2 (buf + n)
            (p.buffer ((p.readPos + n) % 4096)) := by
        rw [readBytes, readBytes_fst h]
      have hold : window (p.readBytes mem buf (n + 1)).2 buf n =
          window (p.readBytes mem buf n).2 buf n := by
        rw [hlast]
        exact window_congr fun i hi => Function.update_of_ne (by omega) _ _
      rw [window_succ, hold, ih, hlast, Function.update_self, ringList_succ]

/-- The loop of `PipeWrite` appends to the queue, as long as the ring has room. -/
theorem writeBytes_spec (h : p.InRange) (mem : Mem) (buf : Nat) (hn : p.bufferSize + n ≤ 4096) :
    ∃ buffer, p.writeBytes mem buf n =
        { p with buffer := buffer, writePos := (p.writePos + n) % 4096 } ∧
      ringList 4096 buffer p.readPos (p.bufferSize + n) = p.buffered ++ window mem buf n := by
  induction n with
  | zero =>
      have hpos : (p.writePos + 0) % 4096 = p.writePos := by
        rw [h.write, Nat.add_zero, Nat.mod_mod]
      exact ⟨p.buffer, by rw [hpos]; rfl, by rw [window_zero, List.append_nil]; rfl⟩
  | succ n ih =>
      obtain ⟨buffer, hp, hlist⟩ := ih (by omega)
      have hslot : (p.writePos + n) % 4096 = (p.readPos + (p.bufferSize + n)) % 4096 := by
        rw [h.write, Nat.mod_add_mod, Nat.add_assoc]
      refine ⟨Function.update buffer ((p.writePos + n) % 4096) (mem (buf + n)), ?_, ?_⟩
      · rw [writeBytes, hp]
        show { p with buffer := _, writePos := ((p.writePos + n) % 4096 + 1) % 4096 } = _
        rw [Nat.mod_add_mod, Nat.add_assoc]
      · have hroom : p.bufferSize + n < 4096 := by omega
        rw [hslot, ← Nat.add_assoc p.bufferSize, ringList_put _ _ _ hroom, hlist, window_succ,
          List.append_assoc]

/-- What the critical section of `PipeRead` does: nothing while the pipe is empty, and
otherwise it takes bytes off the front of the queue. -/
theorem read_cases (h : p.InRange) (mem : Mem) (buf size : Nat) :
    (p.bufferSize = 0 ∧ ∃ next, (next = .wait ∨ next = .done 0) ∧
      p.read mem buf size = (next, p, mem)) ∨
    (0 < p.bufferSize ∧ ∃ n mem', n = min size p.bufferSize ∧ p.read mem buf size =
        (.signal n, { p with
          readPos := (p.readPos + n) % 4096
          bufferSize := p.bufferSize - n }, mem') ∧
      window mem' buf n = p.buffered.take n) := by
  by_cases hzero : p.bufferSize = 0
  · refine .inl ⟨hzero, ?_⟩
    by_cases hopen : p.isClosed = false
    · exact ⟨.wait, .inl rfl, by rw [read, if_pos ⟨hzero, hopen⟩]⟩
    · exact ⟨.done 0, .inr rfl, by rw [read, if_neg fun hc => hopen hc.2, if_pos hzero]⟩
  · have hsize := h.size
    have hmin : (if size < p.bufferSize then size else p.bufferSize) = min size p.bufferSize := by
      split <;> omega
    have hle : min size p.bufferSize ≤ p.bufferSize := Nat.min_le_right _ _
    refine .inr ⟨by omega, _, (p.readBytes mem buf (min size p.bufferSize)).2, rfl, ?_, ?_⟩
    · rw [read, if_neg fun hc => hzero hc.1, if_neg hzero, hmin]
      dsimp only
      rw [readBytes_fst h.read, toInt64_of_lt (by omega), sub64_of_le hle (by omega)]
    · rw [window_readBytes h.read, take_buffered hle]

/-- What the critical section of `PipeWrite` does: nothing while the pipe is full or closed,
and otherwise it appends bytes to the queue. -/
theorem write_cases (h : p.InRange) (mem : Mem) (buf size : Nat) :
    (∃ next, (next = .wait ∨ next = .done (-1)) ∧ p.write mem buf size = (next, p)) ∨
    (p.isClosed = false ∧ ∃ n buffer, p.bufferSize + n ≤ 4096 ∧ p.write mem buf size =
        (.signal n, { p with
          buffer := buffer
          writePos := (p.writePos + n) % 4096
          bufferSize := p.bufferSize + n }) ∧
      ringList 4096 buffer p.readPos (p.bufferSize + n) = p.buffered ++ window mem buf n) := by
  by_cases hopen : p.isClosed = false
  · by_cases hfull : p.bufferSize = 4096
    · exact .inl ⟨.wait, .inl rfl, by rw [write, if_pos ⟨hfull, hopen⟩]⟩
    · have hsize := h.size
      have hsub : sub64 4096 p.bufferSize = 4096 - p.bufferSize := sub64_of_le hsize (by decide)
      have hmin : (if size < 4096 - p.bufferSize then size else 4096 - p.bufferSize) =
          min size (4096 - p.bufferSize) := by
        split <;> omega
      have hroom : p.bufferSize + min size (4096 - p.bufferSize) ≤ 4096 := by omega
      have hadd : u64 (p.bufferSize + min size (4096 - p.bufferSize)) =
          p.bufferSize + min size (4096 - p.bufferSize) := Nat.mod_eq_of_lt (by omega)
      obtain ⟨buffer, hbytes, hlist⟩ := writeBytes_spec h mem buf hroom
      refine .inr ⟨hopen, _, buffer, hroom, ?_, hlist⟩
      rw [write, if_neg fun hc => hfull hc.1, if_neg (by rw [hopen]; decide), hsub, hmin]
      dsimp only
      rw [hbytes, toInt64_of_lt (by omega)]
      dsimp only
      rw [hadd]
  · have hclosed : p.isClosed = true := by simpa using hopen
    exact .inl ⟨.done (-1), .inr rfl, by
      rw [write, if_neg fun hc => hopen hc.2, if_pos hclosed]⟩

/-- Taking bytes off the front. -/
theorem InRange.drop (h : p.InRange) (hn : n ≤ p.bufferSize) :
    InRange { p with readPos := (p.readPos + n) % 4096, bufferSize := p.bufferSize - n } where
  read := Nat.mod_lt _ (by decide)
  size := Nat.le_trans (Nat.sub_le _ _) h.size
  write := by
    show p.writePos = ((p.readPos + n) % 4096 + (p.bufferSize - n)) % 4096
    rw [Nat.mod_add_mod, h.write, Nat.add_assoc, Nat.add_sub_of_le hn]

/-- Appending bytes at the back. -/
theorem InRange.append (h : p.InRange) (hn : p.bufferSize + n ≤ 4096) (buffer : Nat → UInt8) :
    InRange { p with
      buffer := buffer
      writePos := (p.writePos + n) % 4096
      bufferSize := p.bufferSize + n } where
  read := h.read
  size := hn
  write := by
    show (p.writePos + n) % 4096 = (p.readPos + (p.bufferSize + n)) % 4096
    rw [h.write, Nat.mod_add_mod, Nat.add_assoc]

theorem buffered_drop (p : Pipe) (hn : n ≤ p.bufferSize) :
    p.buffered.take n ++
      buffered { p with readPos := (p.readPos + n) % 4096, bufferSize := p.bufferSize - n } =
    p.buffered := by
  rw [take_buffered hn, buffered, buffered, ringList_mod, ← ringList_add, Nat.add_sub_of_le hn]

end Pipe

/-! ## The log -/

section Log

variable {log log' : List Entry} {id : Nat}

theorem returned_append : returned (log ++ log') id = returned log id ++ returned log' id :=
  List.flatMap_append

theorem accepted_append : accepted (log ++ log') id = accepted log id ++ accepted log' id :=
  List.flatMap_append

theorem returned_of_ne (h : ∀ e ∈ log, e.pipe ≠ id) : returned log id = [] := by
  refine List.flatMap_eq_nil_iff.mpr fun e he => ?_
  cases e with
  | read i bytes => exact if_neg (h _ he)
  | wrote i bytes => rfl
  | closed i => rfl

theorem accepted_of_ne (h : ∀ e ∈ log, e.pipe ≠ id) : accepted log id = [] := by
  refine List.flatMap_eq_nil_iff.mpr fun e he => ?_
  cases e with
  | read i bytes => rfl
  | wrote i bytes => exact if_neg (h _ he)
  | closed i => rfl

@[simp] theorem returned_nil (id : Nat) : returned [] id = [] := rfl

@[simp] theorem accepted_nil (id : Nat) : accepted [] id = [] := rfl

theorem returned_read (id : Nat) (bytes : List UInt8) :
    returned [.read id bytes] id = bytes := by
  simp [returned, Entry.readFrom]

theorem accepted_wrote (id : Nat) (bytes : List UInt8) :
    accepted [.wrote id bytes] id = bytes := by
  simp [accepted, Entry.wroteTo]

end Log

/-! ## One step -/

/-- What a step may do to its pipe, and the entries it may make. -/
structure Change (id : Nat) (p p' : Pipe) (es : List Entry) : Prop where
  range : p'.InRange
  fifo : returned es id ++ p'.buffered = p.buffered ++ accepted es id
  pipe : ∀ e ∈ es, e.pipe = id
  length : es.length ≤ 1
  keep : p.isClosed = true → p'.isClosed = true
  closed : .closed id ∈ es → p'.isClosed = true
  wrote : ∀ bytes, .wrote id bytes ∈ es → p.isClosed = false

/-- What a step may do that is on a given pipe, or on none. -/
inductive Effect (s s' : Sys ι) : Option Nat → Prop
  | still {o : Option Nat} (t : ι) (pt : Point) (hpt : ∀ i, pt.pipe = some i → i < s.pipeCount)
      (hpoint : s'.point = Function.update s.point t pt) (hcount : s'.pipeCount = s.pipeCount)
      (htable : s'.pipeTable = s.pipeTable) (hlog : s'.log = s.log) : Effect s s' o
  | create (t : ι) (pt : Point) (hpt : pt.pipe = none)
      (hpoint : s'.point = Function.update s.point t pt) (hcount : s'.pipeCount = s.pipeCount + 1)
      (htable : s'.pipeTable =
        Function.update s.pipeTable s.pipeCount (s.pipeTable s.pipeCount).create)
      (hlog : s'.log = s.log) : Effect s s' (some s.pipeCount)
  | change (t : ι) (pt : Point) {id : Nat} {p' : Pipe} {es : List Entry} (hid : id < s.pipeCount)
      (hpt : ∀ i, pt.pipe = some i → i = id)
      (hpoint : s'.point = Function.update s.point t pt) (hcount : s'.pipeCount = s.pipeCount)
      (htable : s'.pipeTable = Function.update s.pipeTable id p') (hlog : s'.log = s.log ++ es)
      (hchange : Change id (s.pipeTable id) p' es) : Effect s s' (some id)

/-- The invariant of the runs. -/
structure Safe (s : Sys ι) : Prop where
  range : ∀ id < s.pipeCount, (s.pipeTable id).InRange
  fifo : ∀ id < s.pipeCount,
    returned s.log id ++ (s.pipeTable id).buffered = accepted s.log id
  closed : ∀ id, .closed id ∈ s.log → (s.pipeTable id).isClosed = true
  fresh : ∀ e ∈ s.log, e.pipe < s.pipeCount
  shut : Sealed s.log
  point : ∀ t id, (s.point t).pipe = some id → id < s.pipeCount

variable {s s' : Sys ι} {t : ι} {id : Nat} {a : Act ι}

/-- A step that leaves its pipe as it is, up to the semaphores. -/
theorem Change.of_queue {p p' : Pipe} (hp : p.InRange) (hpos : p'.readPos = p.readPos)
    (hwrite : p'.writePos = p.writePos) (hsize : p'.bufferSize = p.bufferSize)
    (hbuffer : p'.buffer = p.buffer) (hclosed : p'.isClosed = p.isClosed) :
    Change id p p' [] where
  range := ⟨by rw [hpos]; exact hp.read, by rw [hsize]; exact hp.size,
    by rw [hwrite, hpos, hsize]; exact hp.write⟩
  fifo := by
    rw [returned_nil, accepted_nil, List.nil_append, List.append_nil, Pipe.buffered, Pipe.buffered,
      hbuffer, hpos, hsize]
  pipe _ he := absurd he List.not_mem_nil
  length := Nat.zero_le 1
  keep h := by rw [hclosed]; exact h
  closed he := absurd he List.not_mem_nil
  wrote _ he := absurd he List.not_mem_nil

/-- The critical section of `PipeRead` takes what it returns off the queue. -/
theorem Change.read {p : Pipe} (hp : p.InRange) {n : Nat} (hn : n ≤ p.bufferSize)
    {bytes : List UInt8} (hbytes : bytes = p.buffered.take n) :
    Change id p { p with readPos := (p.readPos + n) % 4096, bufferSize := p.bufferSize - n }
      [.read id bytes] where
  range := hp.drop hn
  fifo := by
    rw [returned_read, hbytes, Pipe.buffered_drop p hn]
    exact (List.append_nil _).symm
  pipe e he := by
    rw [List.mem_singleton.mp he]
    rfl
  length := Nat.le_refl 1
  keep h := h
  closed he := nomatch List.mem_singleton.mp he
  wrote _ he := nomatch List.mem_singleton.mp he

/-- The critical section of `PipeWrite` appends what it accepts to the queue. -/
theorem Change.write {p : Pipe} (hp : p.InRange) (hopen : p.isClosed = false) {n : Nat}
    (hn : p.bufferSize + n ≤ 4096) {buffer : Nat → UInt8} {bytes : List UInt8}
    (hlist : ringList 4096 buffer p.readPos (p.bufferSize + n) = p.buffered ++ bytes) :
    Change id p { p with
        buffer := buffer
        writePos := (p.writePos + n) % 4096
        bufferSize := p.bufferSize + n }
      [.wrote id bytes] where
  range := hp.append hn buffer
  fifo := by
    rw [accepted_wrote, ← hlist]
    rfl
  pipe e he := by
    rw [List.mem_singleton.mp he]
    rfl
  length := Nat.le_refl 1
  keep h := h
  closed he := nomatch List.mem_singleton.mp he
  wrote _ _ := hopen

/-- The critical section of `PipeClose`. -/
theorem Change.close {p : Pipe} (hp : p.InRange) : Change id p p.close [.closed id] where
  range := ⟨hp.read, hp.size, hp.write⟩
  fifo := (List.append_nil _).symm
  pipe e he := by
    rw [List.mem_singleton.mp he]
    rfl
  length := Nat.le_refl 1
  keep _ := rfl
  closed _ := rfl
  wrote _ he := nomatch List.mem_singleton.mp he

/-- The critical section of a call. -/
theorem critical_effect (hs : Safe s) (hid : id < s.pipeCount) (t : ι) (c : Call) :
    Effect s (s.critical t id c) (some id) := by
  have hp := hs.range id hid
  have hback : ∀ {pt : Point}, (∀ i, pt.pipe = some i → i = id) →
      Effect s (s.goTo t pt) (some id) := fun {pt} hpt =>
    .still t pt (fun i hi => by rw [hpt i hi]; exact hid) rfl rfl rfl rfl
  cases c with
  | read fd buf size =>
      rcases Pipe.read_cases hp (s.memory t) buf size with
        ⟨-, next, hnext, hread⟩ | ⟨-, n, mem', hn, hread, hbytes⟩
      · rw [Sys.critical, hread]
        rcases hnext with rfl | rfl
        · exact hback fun i hi => (Option.some.inj hi).symm
        · exact hback fun i hi => nomatch hi
      · rw [Sys.critical, hread]
        refine .change t (.signal (.read fd buf size) id (some n)) hid
          (fun i hi => (Option.some.inj hi).symm) rfl rfl rfl rfl ?_
        refine Change.read hp (by omega) ?_
        rw [Int.toNat_natCast, hbytes]
  | write fd buf size =>
      rcases Pipe.write_cases hp (s.memory t) buf size with
        ⟨next, hnext, hwrite⟩ | ⟨hopen, n, buffer, hn, hwrite, hlist⟩
      · rw [Sys.critical, hwrite]
        rcases hnext with rfl | rfl
        · exact hback fun i hi => (Option.some.inj hi).symm
        · exact hback fun i hi => nomatch hi
      · rw [Sys.critical, hwrite]
        refine .change t (.signal (.write fd buf size) id (some n)) hid
          (fun i hi => (Option.some.inj hi).symm) rfl rfl rfl rfl ?_
        refine Change.write hp hopen hn ?_
        rw [Int.toNat_natCast, hlist]
  | close fd =>
      exact .change t (.signal (.close fd) id none) hid (fun i hi => (Option.some.inj hi).symm)
        rfl rfl rfl rfl (Change.close hp)

/-- The `wait()` of a loop touches the semaphore only. -/
theorem Call.wait_change {c : Call} {p p' : Pipe} (hp : p.InRange) (h : c.wait p = some p') :
    Change id p p' [] := by
  cases c with
  | read fd buf size =>
      rw [Call.wait, Option.map_eq_some_iff] at h
      obtain ⟨sem, -, rfl⟩ := h
      exact Change.of_queue hp rfl rfl rfl rfl rfl
  | write fd buf size =>
      rw [Call.wait, Option.map_eq_some_iff] at h
      obtain ⟨sem, -, rfl⟩ := h
      exact Change.of_queue hp rfl rfl rfl rfl rfl
  | close fd => cases h

theorem Call.signal_change (c : Call) {p : Pipe} (hp : p.InRange) :
    Change id p (c.signal p) [] := by
  cases c <;> exact Change.of_queue hp rfl rfl rfl rfl rfl

/-- A descriptor leads to a pipe that has been created. -/
theorem lt_of_pipeOf {count : Nat} {fd : Int} (h : pipeOf count fd = some id) : id < count := by
  rw [pipeOf] at h
  split at h
  · cases h
  · split at h
    · cases h
    · injection h with h
      omega

/-- **One step.** -/
theorem step_effect (hs : Safe s) (h : step s a = some s') : Effect s s' (s.target a) := by
  cases a with
  | create t pipefd =>
      rw [step] at h
      split at h
      · injection h with h
        rw [← h, Sys.create]
        split
        · exact .still t (.done (some (-1))) (fun i hi => nomatch hi) rfl rfl rfl rfl
        · exact .create t _ rfl rfl rfl rfl rfl
      · cases h
  | call t c =>
      rw [step] at h
      split at h
      · split at h
        · injection h with h
          rw [← h]
          exact .still t (.done c.refused) (fun i hi => nomatch hi) rfl rfl rfl rfl
        · next id hid =>
          injection h with h
          rw [← h]
          refine .still t _ (fun i hi => ?_) rfl rfl rfl rfl
          rw [← Option.some.inj hi]
          exact lt_of_pipeOf hid
      · cases h
  | go t =>
      have hpoint := hs.point t
      rw [step] at h
      show Effect s s' (s.point t).pipe
      split at h
      · cases h
      · next c id hpt =>
        rw [hpt] at hpoint ⊢
        injection h with h
        rw [← h]
        exact critical_effect hs (hpoint id rfl) t c
      · next c id hpt =>
        rw [hpt] at hpoint ⊢
        have hid := hpoint id rfl
        split at h
        · next p hwait =>
          injection h with h
          rw [← h]
          exact .change t (.lock c id) hid (fun i hi => (Option.some.inj hi).symm) rfl rfl rfl
            (List.append_nil _).symm (Call.wait_change (hs.range id hid) hwait)
        · injection h with h
          rw [← h]
          refine .still t _ (fun i hi => ?_) rfl rfl rfl rfl
          rw [← Option.some.inj hi]
          exact hid
      · next c id hpt =>
        rw [hpt] at hpoint ⊢
        injection h with h
        rw [← h]
        refine .still t _ (fun i hi => ?_) rfl rfl rfl rfl
        rw [← Option.some.inj hi]
        exact hpoint id rfl
      · next c id v hpt =>
        rw [hpt] at hpoint ⊢
        have hid := hpoint id rfl
        injection h with h
        rw [← h]
        exact .change t (.done v) hid (fun i hi => nomatch hi) rfl rfl rfl
          (List.append_nil _).symm (c.signal_change (hs.range id hid))
      · injection h with h
        rw [← h]
        exact .still t .out (fun i hi => nomatch hi) rfl rfl rfl rfl
  | store t mem =>
      injection h with h
      rw [← h]
      exact .still t (s.point t) (hs.point t) (Function.update_eq_self t s.point).symm rfl rfl rfl

/-! ## Runs -/

omit [DecidableEq ι] in
theorem Safe.boot (pipeTable : Nat → Pipe) (memory : ι → Mem) :
    Safe (Sys.boot pipeTable memory) where
  range _ h := absurd h (Nat.not_lt_zero _)
  fifo _ h := absurd h (Nat.not_lt_zero _)
  closed _ h := absurd h List.not_mem_nil
  fresh _ h := absurd h List.not_mem_nil
  shut := List.Pairwise.nil
  point _ _ h := nomatch h

/-- A task that comes to a point keeps the points of the others. -/
theorem points_of_update {pt : Point} {count : Nat}
    (hold : ∀ u i, (s.point u).pipe = some i → i < count) (hpt : ∀ i, pt.pipe = some i → i < count)
    (hpoint : s'.point = Function.update s.point t pt) :
    ∀ u i, (s'.point u).pipe = some i → i < count := by
  intro u i hi
  rw [hpoint, Function.update_apply] at hi
  split at hi
  · exact hpt i hi
  · exact hold u i hi

/-- **The frame.**  A step on one pipe leaves the others, and what their calls have done, as
they are. -/
theorem Effect.frame {o : Option Nat} (h : Effect s s' o) (hid : o ≠ some id) :
    s'.pipeTable id = s.pipeTable id ∧ returned s'.log id = returned s.log id ∧
      accepted s'.log id = accepted s.log id := by
  cases h with
  | still t pt hpt hpoint hcount htable hlog =>
      rw [htable, hlog]
      exact ⟨rfl, rfl, rfl⟩
  | create t pt hpt hpoint hcount htable hlog =>
      rw [htable, hlog]
      exact ⟨Function.update_of_ne (fun heq => hid (congrArg some heq.symm)) _ _, rfl, rfl⟩
  | @change t pt i p' es hi hpt hpoint hcount htable hlog hchange =>
      have hne : id ≠ i := fun heq => hid (congrArg some heq.symm)
      have hnone : ∀ e ∈ es, e.pipe ≠ id := fun e he => by
        rw [hchange.pipe e he]
        exact hne.symm
      rw [htable, hlog, returned_append, accepted_append, returned_of_ne hnone,
        accepted_of_ne hnone, List.append_nil, List.append_nil]
      exact ⟨Function.update_of_ne hne _ _, rfl, rfl⟩

/-- A log behind which one more entry stands, unless it is a write behind a closing. -/
theorem Sealed.append {log es : List Entry} (h : Sealed log) (hlen : es.length ≤ 1)
    (hopen : ∀ i bytes, .wrote i bytes ∈ es → .closed i ∉ log) : Sealed (log ++ es) := by
  refine List.pairwise_append.mpr ⟨h, ?_, fun e he e' he' i bytes hclosed hwrote => ?_⟩
  · match es, hlen with
    | [], _ => exact List.Pairwise.nil
    | [e], _ => exact List.pairwise_singleton _ _
  · rw [hclosed] at he
    rw [hwrote] at he'
    exact hopen i bytes he' he

/-- A step on no pipe. -/
theorem Safe.still {pt : Point} (hs : Safe s) (hpt : ∀ i, pt.pipe = some i → i < s.pipeCount)
    (hpoint : s'.point = Function.update s.point t pt) (hcount : s'.pipeCount = s.pipeCount)
    (htable : s'.pipeTable = s.pipeTable) (hlog : s'.log = s.log) : Safe s' where
  range := by
    rw [hcount, htable]
    exact hs.range
  fifo := by
    rw [hcount, htable, hlog]
    exact hs.fifo
  closed := by
    rw [htable, hlog]
    exact hs.closed
  fresh := by
    rw [hcount, hlog]
    exact hs.fresh
  shut := by
    rw [hlog]
    exact hs.shut
  point := by
    rw [hcount]
    exact points_of_update hs.point hpt hpoint

/-- A new pipe, on which nothing has been done. -/
theorem Safe.create {pt : Point} (hs : Safe s) (hpt : pt.pipe = none)
    (hpoint : s'.point = Function.update s.point t pt) (hcount : s'.pipeCount = s.pipeCount + 1)
    (htable : s'.pipeTable =
      Function.update s.pipeTable s.pipeCount (s.pipeTable s.pipeCount).create)
    (hlog : s'.log = s.log) : Safe s' := by
  have hnew : s'.pipeTable s.pipeCount = (s.pipeTable s.pipeCount).create := by
    rw [htable, Function.update_self]
  have hold : ∀ id, id ≠ s.pipeCount → s'.pipeTable id = s.pipeTable id := fun id hne => by
    rw [htable, Function.update_of_ne hne]
  refine ⟨fun id hid => ?_, fun id hid => ?_, fun id he => ?_, fun e he => ?_, ?_, ?_⟩
  · by_cases hid' : id = s.pipeCount
    · rw [hid', hnew]
      exact ⟨Nat.succ_pos _, Nat.zero_le _, rfl⟩
    · rw [hold id hid']
      exact hs.range id (by omega)
  · rw [hlog]
    by_cases hid' : id = s.pipeCount
    · have hnone : ∀ e ∈ s.log, e.pipe ≠ id := fun e he => by
        have hlt := hs.fresh e he
        omega
      rw [returned_of_ne hnone, accepted_of_ne hnone, hid', hnew]
      rfl
    · rw [hold id hid']
      exact hs.fifo id (by omega)
  · rw [hlog] at he
    have hlt : id < s.pipeCount := hs.fresh _ he
    rw [hold id (by omega)]
    exact hs.closed id he
  · rw [hlog] at he
    have hlt := hs.fresh e he
    omega
  · rw [hlog]
    exact hs.shut
  · refine points_of_update (fun u i hi => ?_) (fun i hi => ?_) hpoint
    · have hlt := hs.point u i hi
      omega
    · rw [hpt] at hi
      cases hi

/-- A step on one pipe. -/
theorem Safe.change {pt : Point} {p' : Pipe} {es : List Entry} (hs : Safe s)
    (hid : id < s.pipeCount) (hpt : ∀ i, pt.pipe = some i → i = id)
    (hpoint : s'.point = Function.update s.point t pt) (hcount : s'.pipeCount = s.pipeCount)
    (htable : s'.pipeTable = Function.update s.pipeTable id p') (hlog : s'.log = s.log ++ es)
    (hchange : Change id (s.pipeTable id) p' es) : Safe s' := by
  have hnew : s'.pipeTable id = p' := by rw [htable, Function.update_self]
  have hframe : ∀ i, i ≠ id → s'.pipeTable i = s.pipeTable i ∧
      returned s'.log i = returned s.log i ∧ accepted s'.log i = accepted s.log i :=
    fun i hne => (Effect.change t pt hid hpt hpoint hcount htable hlog hchange).frame
      fun heq => hne (Option.some.inj heq).symm
  refine ⟨fun i hi => ?_, fun i hi => ?_, fun i he => ?_, fun e he => ?_, ?_, ?_⟩
  · rw [hcount] at hi
    by_cases hi' : i = id
    · rw [hi', hnew]
      exact hchange.range
    · rw [(hframe i hi').1]
      exact hs.range i hi
  · rw [hcount] at hi
    by_cases hi' : i = id
    · rw [hi', hnew, hlog, returned_append, accepted_append, List.append_assoc, hchange.fifo,
        ← List.append_assoc, hs.fifo id hid]
    · obtain ⟨htab, hret, hacc⟩ := hframe i hi'
      rw [htab, hret, hacc]
      exact hs.fifo i hi
  · rw [hlog] at he
    by_cases hi : i = id
    · subst hi
      rw [hnew]
      rcases List.mem_append.mp he with he | he
      · exact hchange.keep (hs.closed i he)
      · exact hchange.closed he
    · rw [(hframe i hi).1]
      refine hs.closed i ((List.mem_append.mp he).resolve_right fun he => hi ?_)
      exact hchange.pipe _ he
  · rw [hcount]
    rw [hlog] at he
    rcases List.mem_append.mp he with he | he
    · exact hs.fresh e he
    · rw [hchange.pipe e he]
      exact hid
  · rw [hlog]
    refine hs.shut.append hchange.length fun i bytes hwrote hclosed => ?_
    obtain rfl : i = id := hchange.pipe _ hwrote
    have hopen := hchange.wrote bytes hwrote
    rw [hs.closed i hclosed] at hopen
    cases hopen
  · rw [hcount]
    refine points_of_update hs.point (fun i hi => ?_) hpoint
    rw [hpt i hi]
    exact hid

/-- **The step lemma.** -/
theorem Safe.effect {o : Option Nat} (hs : Safe s) (h : Effect s s' o) : Safe s' := by
  cases h with
  | still t pt hpt hpoint hcount htable hlog =>
      exact hs.still hpt hpoint hcount htable hlog
  | create t pt hpt hpoint hcount htable hlog =>
      exact hs.create hpt hpoint hcount htable hlog
  | change t pt hid hpt hpoint hcount htable hlog hchange =>
      exact hs.change hid hpt hpoint hcount htable hlog hchange

/-- A `PipeRead` that finds bytes returns as many of them as it has room for, whether the
pipe has been closed or not. -/
theorem step_read (hs : Safe s) {fd : Int} {buf size : Nat}
    (hpt : s.point t = .lock (.read fd buf size) id) (hsome : 0 < (s.pipeTable id).bufferSize) :
    ∃ s', step s (.go t) = some s' ∧
      s'.point t = .signal (.read fd buf size) id
        (some (min size (s.pipeTable id).bufferSize : Nat)) ∧
      s'.log = s.log ++ [.read id ((s.pipeTable id).buffered.take size)] := by
  have hid : id < s.pipeCount := hs.point t id (by rw [hpt]; rfl)
  have hstep : step s (.go t) = some (s.critical t id (.read fd buf size)) := by rw [step, hpt]
  refine ⟨_, hstep, ?_⟩
  rcases Pipe.read_cases (hs.range id hid) (s.memory t) buf size with
    ⟨hzero, -⟩ | ⟨-, n, mem', hn, hread, hbytes⟩
  · omega
  · have htake : (s.pipeTable id).buffered.take n = (s.pipeTable id).buffered.take size := by
      rw [hn, ← Pipe.length_buffered, List.take_eq_take_iff, Nat.min_assoc, Nat.min_self]
    rw [Sys.critical, hread]
    refine ⟨?_, ?_⟩
    · rw [← hn]
      exact Function.update_self _ _ _
    · show s.log ++ [Entry.read id (window mem' buf (n : Int).toNat)] = _
      rw [Int.toNat_natCast, hbytes, htake]

/-- **The pipes are queues.**  In every state that calls of any tasks on any pipes can lead
to, what the reads from a pipe have returned, followed by what is in its ring, is what its
writes have accepted, and the positions of the ring are where its fill level says.  No write
is accepted behind a closing, a read that finds bytes returns them, and a step on one pipe
leaves every other pipe as it is. -/
theorem pipes_fifo {pipeTable : Nat → Pipe} {memory : ι → Mem} {acts : List (Act ι)}
    (h : Run (ofOption step) (Sys.boot pipeTable memory) acts s) :
    (∀ id < s.pipeCount,
      returned s.log id ++ (s.pipeTable id).buffered = accepted s.log id ∧
        (s.pipeTable id).InRange) ∧
    Sealed s.log ∧
    (∀ t id fd buf size, s.point t = .lock (.read fd buf size) id →
      0 < (s.pipeTable id).bufferSize → ∃ s', step s (.go t) = some s' ∧
        s'.point t = .signal (.read fd buf size) id
          (some (min size (s.pipeTable id).bufferSize : Nat)) ∧
        s'.log = s.log ++ [.read id ((s.pipeTable id).buffered.take size)]) ∧
    (∀ a s' id, step s a = some s' → s.target a ≠ some id →
      s'.pipeTable id = s.pipeTable id ∧ returned s'.log id = returned s.log id ∧
        accepted s'.log id = accepted s.log id) := by
  have hs : Safe s := h.invariant (Safe.boot pipeTable memory) fun _ _ _ ha hstep =>
    ha.effect (step_effect ha hstep)
  exact ⟨fun id hid => ⟨hs.fifo id hid, hs.range id hid⟩, hs.shut,
    fun _ _ _ _ _ hpt hsome => step_read hs hpt hsome,
    fun _ _ _ hstep hid => (step_effect hs hstep).frame hid⟩

/-- One task writes three bytes and closes the pipe, and another reads two of them. -/
theorem pipes_fifo_threeBytes : ∃ s : Sys Nat, Run (ofOption step)
    (Sys.boot (fun _ => ⟨fun _ => 0, 0, 0, 0, ⟨0⟩, ⟨0⟩, none, none, false⟩) fun _ => UInt8.ofNat)
      [.create 0 0, .go 0, .call 0 (.write 1 65 3), .call 1 (.read 0 65 2), .go 1, .go 1, .go 0,
        .go 0, .go 0, .call 0 (.close 1), .go 0, .go 1, .go 1, .go 1] s ∧
    s.point 1 = .done (some 2) ∧
    returned s.log 0 ++ (s.pipeTable 0).buffered = accepted s.log 0 := by
  have hexec : ((exec (fun _ _ => true) step (Sys.boot
      (fun _ => ⟨fun _ => 0, 0, 0, 0, ⟨0⟩, ⟨0⟩, none, none, false⟩) fun _ => UInt8.ofNat : Sys Nat)
      [.create 0 0, .go 0, .call 0 (.write 1 65 3), .call 1 (.read 0 65 2), .go 1, .go 1, .go 0,
        .go 0, .go 0, .call 0 (.close 1), .go 0, .go 1, .go 1, .go 1]).map fun s =>
          (s.pipeCount, s.point 1)) = some (1, .done (some 2)) := by
    rfl
  rw [Option.map_eq_some_iff] at hexec
  obtain ⟨s, hs, hboth⟩ := hexec
  injection hboth with hcount hpoint
  have hrun := (run_of_exec hs).mono fun _ _ _ h => h.2
  exact ⟨s, hrun, hpoint, ((pipes_fifo hrun).1 0 (by rw [hcount]; exact Nat.one_pos)).1⟩

end InfoKernel.Task.Pipes
