import InfoKernel.Fs.Vfs
import InfoKernel.Task.Exec

/-!
# What the services do for a process

The requests that `vfs::Service` and `task::Service` handle on behalf of the process that has
sent them, and which control blocks they change.  `SYS_TASK_EXECVE` is `Execve` up to its jump
into the program, which `task::Service` runs itself: it opens the file as any process does, by a
request to `vfs::Service`, and loads it with the functions of `Task.Exec`.  The arguments that it
copies behind the loading go to memory only.

The handlers are meant to work on `msg.sender`.  `FdDup2` and `Execve` work on `current_proc`,
which is the service: `SYS_FS_DUP2` copies a descriptor of the service, and `Execve` opens the
file in the table of the service and then turns the service into the program.  `proper_iff` says
when this is not to be seen.
-/

namespace InfoKernel.Task.Service

open InfoKernel.Lib InfoKernel.Mm InfoKernel.Mm.Page InfoKernel.Vfs
open InfoKernel.Task.Exec (Elf)

/-- The operations on files, and what `Execve` reads of a file and leaves of it. -/
structure ExecOps (φ : Type) extends FileOps φ where
  load : φ → FileId → φ × Elf

/-- The files, the processes, and the memory that page tables are made in. -/
structure Machine (φ : Type) where
  sys : Sys φ
  arena : Arena FrameMem

/-- Constants of the kernel: its page table, the address of `ret_syscall`, and for each control
block the place of the registers on its stack. -/
structure Layout where
  kernelPml4 : Nat
  retSyscall : Nat
  registers : PcbId → Nat

/-- How `Execve` ends: it returns, it jumps to the program, or a fault stops it. -/
inductive ExecEnd where
  | returned (ret : Int)
  | entered
  | fault (e : Fault)

variable {φ : Type}

/-- The control block changes. -/
def setProc (s : Sys φ) (p : PcbId) (f : Proc → Proc) : Sys φ :=
  { s with proc := Function.update s.proc p (f (s.proc p)) }

/-- The assignments to `mm.text_start` and `mm.text_end` in the loop of `Execve`, for its
program header 1. -/
def setText (f : Elf) (q : Proc) : Proc :=
  match f.phdrs[1]? with
  | none => q
  | some t =>
      if t.pType = Exec.ptLoad then
        { q with textStart := t.pVaddr, textEnd := u64 (t.pVaddr + t.pMemsz) }
      else q

/-- The assignments behind the loop. -/
def enter (k : Layout) (p : PcbId) (pml4 : Nat) (q : Proc) : Proc :=
  { q with
    thread := { q.thread with rip := k.retSyscall, rsp := k.registers p }
    pml4 := pml4
    flags := q.flags ^^^ threadKernel }

/-- The file is one that `Execve` loads. -/
def Loadable (f : Elf) : Prop :=
  getLE f.bytes 0 4 = 0x464c457f ∧ f.eType = Exec.etExec ∧ f.eMachine = Exec.emX86_64

instance (f : Elf) : Decidable (Loadable f) := inferInstanceAs (Decidable (_ ∧ _ ∧ _))

/-- The new page table, and the first two turns of the loop, up to the assignments in it. -/
def loadFirst (fuel kernelPml4 : Nat) (f : Elf) : Program (Arena FrameMem) Fault Nat := do
  let pml4 ← Exec.userTable fuel kernelPml4
  Exec.loadAll fuel f pml4 (f.phdrs.take 2)
  return pml4

/-- `Execve` of an open file. -/
def loadAndEnter (k : Layout) (fuel : Nat) (cur : PcbId) (f : Elf) (m : Machine φ) :
    Machine φ × ExecEnd :=
  if ¬ Loadable f then (m, .returned (-1))
  else
    match loadFirst fuel k.kernelPml4 f m.arena with
    | .error e => (m, .fault e)
    | .ok (pml4, arena) =>
        let sys := setProc m.sys cur (setText f)
        match Exec.loadAll fuel f pml4 (f.phdrs.drop 2) arena with
        | .error e => (⟨sys, arena⟩, .fault e)
        | .ok (_, arena) => (⟨setProc sys cur (enter k cur pml4), arena⟩, .entered)

/-- `Execve`, called by `cur`.  The descriptor that `open` has returned is used. -/
def execve (ops : ExecOps φ) (k : Layout) (fuel : Nat) (cur : PcbId) (path : List UInt8)
    (m : Machine φ) : Machine φ × ExecEnd :=
  let (sys, fd) := serveOpen ops.toFileOps m.sys cur path 0
  match (sys.files cur).get fd with
  | none => (⟨sys, m.arena⟩, .returned (-1))
  | some file =>
      let (fs, f) := ops.load sys.fs file
      loadAndEnter k fuel cur f ⟨{ sys with fs := fs }, m.arena⟩

/-- The requests of both services. -/
inductive Call where
  | fs (req : Request)
  | execve (path : List UInt8)

/-- The processes that the services run in. -/
structure Services where
  vfs : PcbId
  task : PcbId

/-- A request is handled: the state, and the reply if there is one. -/
def handle (ops : ExecOps φ) (k : Layout) (fuel : Nat) (sv : Services) (sender : PcbId)
    (m : Machine φ) : Call → Machine φ × Option Int
  | .fs req =>
      let r := serve ops.toFileOps m.sys sv.vfs sender req
      (⟨r.1, m.arena⟩, some r.2)
  | .execve path => ((execve ops k fuel sv.task path m).1, none)

/-- Descriptor `newfd` refers to the `File` that `oldfd` referred to before. -/
def Refers (before after : FdTable) (oldfd newfd : Int) : Prop :=
  before.Valid oldfd ∧ after.Valid newfd ∧
    (after.fds newfd.toNat).file = (before.fds oldfd.toNat).file

/-- **What a handler is meant to do**: it changes no control block but that of the sender, and a
`dup2` that reports success has made the descriptor of the sender refer to the file. -/
def Proper (sender : PcbId) (m : Machine φ) (c : Call) (r : Machine φ × Option Int) : Prop :=
  (∀ p, p ≠ sender → r.1.sys.proc p = m.sys.proc p) ∧
  ∀ oldfd newfd, c = .fs (.dup2 oldfd newfd) → (∃ v, r.2 = some v ∧ 0 ≤ v) →
    Refers (m.sys.files sender) (r.1.sys.files sender) oldfd newfd

/-- The condition: `dup2` fails on the descriptors of the service, or comes from the service, or
finds its work done in both tables; and the file of an `execve` does not open. -/
def Safe (ops : ExecOps φ) (sv : Services) (sender : PcbId) (m : Machine φ) : Call → Prop
  | .fs (.dup2 oldfd newfd) =>
      let t := m.sys.files sv.vfs
      ¬ (t.Valid oldfd ∧ 0 ≤ newfd ∧ newfd < maxFd) ∨ sender = sv.vfs ∨
        t.fds newfd.toNat = t.fds oldfd.toNat ∧
          Refers (m.sys.files sender) (m.sys.files sender) oldfd newfd
  | .fs _ => True
  | .execve path => sender = sv.task ∨ (ops.openFile m.sys.fs path 0).2 = none ∨
      (m.sys.files sv.task).freeSlot = none

/-! ## `Execve` and the control blocks -/

section Execve

variable {ops : ExecOps φ} {k : Layout} {fuel : Nat} {cur p : PcbId} {f : Elf} {m : Machine φ}
  {path : List UInt8}

theorem setProc_of_ne (s : Sys φ) (hp : p ≠ cur) (g : Proc → Proc) :
    (setProc s cur g).proc p = s.proc p :=
  Function.update_of_ne hp ..

theorem setProc_files (s : Sys φ) {g : Proc → Proc} (hg : ∀ q, (g q).files = q.files) :
    (setProc s cur g).files p = s.files p := by
  by_cases hp : p = cur
  · rw [hp]
    show (Function.update s.proc cur (g (s.proc cur)) cur).files = _
    rw [Function.update_self, hg]
    rfl
  · show (Function.update s.proc cur (g (s.proc cur)) p).files = _
    rw [Function.update_of_ne hp]
    rfl

theorem setText_files (f : Elf) (q : Proc) : (setText f q).files = q.files := by
  rw [setText]
  split
  · rfl
  · split <;> rfl

/-- Loading changes the control block of `current_proc` only, and not its descriptors. -/
theorem loadAndEnter_frame :
    (p ≠ cur → (loadAndEnter k fuel cur f m).1.sys.proc p = m.sys.proc p) ∧
      (loadAndEnter k fuel cur f m).1.sys.files p = m.sys.files p := by
  have htext : ∀ q, (setProc m.sys cur (setText f)).files q = m.sys.files q := fun q =>
    setProc_files _ (setText_files f)
  rw [loadAndEnter]
  split
  · exact ⟨fun _ => rfl, rfl⟩
  · split
    · exact ⟨fun _ => rfl, rfl⟩
    · dsimp only
      split
      · exact ⟨fun hp => setProc_of_ne _ hp _, htext p⟩
      · refine ⟨fun hp => ?_, ?_⟩
        · rw [setProc_of_ne _ hp, setProc_of_ne _ hp]
        · exact (setProc_files _ (g := enter k cur _) fun _ => rfl).trans (htext p)

theorem execve_of_ne (hp : p ≠ cur) :
    (execve ops k fuel cur path m).1.sys.proc p = m.sys.proc p := by
  have hopen : (serveOpen ops.toFileOps m.sys cur path 0).1.proc p = m.sys.proc p :=
    serveOpen_of_ne hp path 0
  rw [execve]
  dsimp only
  split
  · exact hopen
  · rw [loadAndEnter_frame.1 hp]
    exact hopen

theorem execve_files :
    (execve ops k fuel cur path m).1.sys.files p =
      (serveOpen ops.toFileOps m.sys cur path 0).1.files p := by
  rw [execve]
  dsimp only
  split
  · rfl
  · exact loadAndEnter_frame.2

/-- Where the file does not open, `Execve` changes no control block. -/
theorem execve_of_not_open
    (h : (ops.openFile m.sys.fs path 0).2 = none ∨ (m.sys.files cur).freeSlot = none) :
    (execve ops k fuel cur path m).1.sys.proc = m.sys.proc := by
  obtain ⟨hproc, hfd⟩ := serveOpen_of_fails h
  have hget : ((serveOpen ops.toFileOps m.sys cur path 0).1.files cur).get
      (serveOpen ops.toFileOps m.sys cur path 0).2 = none := by
    rw [hfd]
    exact if_neg fun hvalid => absurd hvalid.1 (by decide)
  rw [execve]
  dsimp only
  rw [hget]
  exact hproc

variable (k fuel) in
/-- Where it opens, a descriptor of `current_proc` has been used for it. -/
theorem execve_of_open (h : ¬ ((ops.openFile m.sys.fs path 0).2 = none ∨
      (m.sys.files cur).freeSlot = none)) :
    (execve ops k fuel cur path m).1.sys.proc cur ≠ m.sys.proc cur := by
  rw [not_or] at h
  obtain ⟨file, hfile⟩ := Option.ne_none_iff_exists'.mp h.1
  obtain ⟨i, hslot⟩ := Option.ne_none_iff_exists'.mp h.2
  have hunused : ((m.sys.files cur).fds i).used = false := by
    rcases (m.sys.files cur).alloc_cases file 0 with ⟨j, hj, -, -, hused, -⟩ | ⟨hnone, -⟩
    · rw [hslot] at hj
      rw [Option.some.inj hj]
      exact hused
    · rw [hslot] at hnone
      cases hnone
  intro heq
  have hfiles : (execve ops k fuel cur path m).1.sys.files cur = m.sys.files cur :=
    congrArg Proc.files heq
  rw [execve_files, serveOpen_of_opens hfile hslot, Sys.files, Sys.setFiles_self] at hfiles
  have hused : ((m.sys.files cur).set i ⟨true, some file, 0⟩).fds i = (m.sys.files cur).fds i :=
    congrArg (FdTable.fds · i) hfiles
  rw [FdTable.set_self] at hused
  rw [← hused] at hunused
  cases hunused

end Execve

/-! ## When the handlers do what they are meant to -/

section Proper

variable {ops : ExecOps φ} {k : Layout} {fuel : Nat} {sv : Services} {sender : PcbId}
  {m : Machine φ}

theorem proper_execve_iff (path : List UInt8) :
    Proper sender m (.execve path) (handle ops k fuel sv sender m (.execve path)) ↔
      Safe ops sv sender m (.execve path) := by
  constructor
  · rintro ⟨hframe, -⟩
    by_contra hunsafe
    simp only [Safe, not_or] at hunsafe
    refine execve_of_open k fuel (not_or.mpr hunsafe.2) ?_
    exact hframe sv.task (Ne.symm hunsafe.1)
  · intro hsafe
    refine ⟨fun p hp => ?_, fun _ _ h => by cases h⟩
    rcases hsafe with rfl | hfails
    · exact execve_of_ne hp
    · exact congrFun (execve_of_not_open hfails) p

/-- A slot that is copied over another has changed unless the two were equal. -/
theorem copySlot_eq_iff {t : FdTable} {i j : Nat} : t.copySlot i j = t ↔ t.fds j = t.fds i := by
  constructor
  · intro h
    have hj : (t.copySlot i j).fds j = t.fds j := congrArg (FdTable.fds · j) h
    rw [FdTable.copySlot, FdTable.set_self] at hj
    exact hj.symm
  · intro h
    rw [FdTable.copySlot, FdTable.set, ← h, Function.update_eq_self]

/-- After `dup2` the descriptor of the service refers to the file. -/
theorem refers_copySlot {t : FdTable} {oldfd newfd : Int} (hold : t.Valid oldfd)
    (hlo : 0 ≤ newfd) (hhi : newfd < maxFd) :
    Refers t (t.copySlot oldfd.toNat newfd.toNat) oldfd newfd := by
  refine ⟨hold, ⟨hlo, hhi, ?_⟩, ?_⟩
  · rw [FdTable.copySlot, FdTable.set_self]
    exact hold.2.2
  · rw [FdTable.copySlot, FdTable.set_self]

theorem proper_dup2_iff (oldfd newfd : Int) :
    Proper sender m (.fs (.dup2 oldfd newfd))
        (handle ops k fuel sv sender m (.fs (.dup2 oldfd newfd))) ↔
      Safe ops sv sender m (.fs (.dup2 oldfd newfd)) := by
  rcases fdDup2_cases (m.sys.files sv.vfs) oldfd newfd with ⟨hfails, hdup⟩ | ⟨hold, hlo, hhi, hdup⟩
  · refine iff_of_true ?_ (.inl hfails)
    rw [handle, serve, serveDup2, hdup]
    dsimp only
    rw [Sys.setFiles_files]
    refine ⟨fun _ _ => rfl, ?_⟩
    rintro - - - ⟨v, hv, hpos⟩
    rw [← Option.some.inj hv] at hpos
    exact absurd hpos (by decide)
  · rw [handle, serve, serveDup2, hdup]
    dsimp only
    by_cases hsender : sender = sv.vfs
    · refine iff_of_true ⟨fun p hp => Sys.setFiles_of_ne _ (hsender ▸ hp) _, ?_⟩
        (.inr (.inl hsender))
      rintro o n hreq -
      injection hreq with hreq
      injection hreq with ho hn
      subst ho hn hsender
      show Refers _ ((m.sys.setFiles _ _).proc _).files _ _
      rw [Sys.setFiles_self]
      exact refers_copySlot hold hlo hhi
    · have hfiles : (m.sys.setFiles sv.vfs ((m.sys.files sv.vfs).copySlot oldfd.toNat
          newfd.toNat)).files sender = m.sys.files sender :=
        congrArg Proc.files (Sys.setFiles_of_ne _ hsender _)
      constructor
      · rintro ⟨hframe, hrefers⟩
        refine .inr (.inr ⟨?_, ?_⟩)
        · have hvfs := congrArg Proc.files (hframe sv.vfs (Ne.symm hsender))
          rw [Sys.setFiles_self] at hvfs
          exact copySlot_eq_iff.mp hvfs
        · have hafter := hrefers oldfd newfd rfl ⟨newfd, rfl, hlo⟩
          rwa [hfiles] at hafter
      · rintro (hno | heq | ⟨hslot, hrefers⟩)
        · exact absurd ⟨hold, hlo, hhi⟩ hno
        · exact absurd heq hsender
        · rw [copySlot_eq_iff.mpr hslot, Sys.setFiles_files]
          refine ⟨fun _ _ => rfl, ?_⟩
          rintro o n hreq -
          injection hreq with hreq
          injection hreq with ho hn
          subst ho hn
          exact hrefers

/-- **The handlers work on the sender alone exactly when the condition holds**, for every
request, and every state of the processes, the files and the memory. -/
theorem proper_iff (c : Call) :
    Proper sender m c (handle ops k fuel sv sender m c) ↔ Safe ops sv sender m c := by
  cases c with
  | execve path => exact proper_execve_iff path
  | fs req =>
      cases req with
      | dup2 oldfd newfd => exact proper_dup2_iff oldfd newfd
      | _ => exact iff_of_true ⟨fun p hp => serve_proc_of_ne _ hp, fun _ _ h => by cases h⟩ trivial

end Proper

/-- Files of which none opens. -/
def noFiles : ExecOps Unit where
  openFile _ _ _ := ((), none)
  close _ _ := ((), 0)
  read _ _ _ _ := ((), -1)
  write _ _ _ _ := ((), -1)
  seek _ _ _ _ := ((), -1)
  load _ _ := ((), ⟨0, fun _ => 0⟩)

/-- Processes that have opened nothing. -/
def fresh : Machine Unit where
  sys := ⟨(), fun _ => ⟨.new, 0, 0, 0, 0, ⟨0, 0, 0⟩⟩⟩
  arena := ⟨⟨0, 0, fun _ => 0, fun _ => 0, fun _ => 0, 0⟩, fun _ => 0⟩

/-- **`dup2` works on the service.**  Process 7 calls `dup2(1, 5)`: the reply is 5, and it is
the service, process 3, whose descriptor 5 is in use now. -/
theorem dup2_changes_service :
    ¬ ∀ (ops : ExecOps Unit) (k : Layout) (fuel : Nat) (sv : Services) (sender : PcbId)
      (m : Machine Unit) (c : Call), Proper sender m c (handle ops k fuel sv sender m c) := by
  intro hclaim
  obtain ⟨hframe, -⟩ := hclaim noFiles ⟨0, 0, fun _ => 0⟩ 0 ⟨3, 6⟩ 7 fresh (.fs (.dup2 1 5))
  have hused : ((handle noFiles ⟨0, 0, fun _ => 0⟩ 0 ⟨3, 6⟩ 7 fresh
      (.fs (.dup2 1 5))).1.sys.files 3).fds 5 = (fresh.sys.files 3).fds 5 :=
    congrArg (fun q => q.files.fds 5) (hframe 3 (by decide))
  exact absurd hused (by decide)

end InfoKernel.Task.Service
