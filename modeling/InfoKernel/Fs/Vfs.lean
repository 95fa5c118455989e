import InfoKernel.Task.Basic

/-!
# Descriptor tables and the file service

`vfs.cc`: the descriptor table of a process, and the requests that `vfs::Service` handles for the
process that has sent them.  While it runs, `current_proc` is the service.

What `Open`, `Close`, `Read`, `Write` and `Seek` do to the files is a parameter: they get and
return the state of the files, of any type, and use no control block.  A request changes the table
of its sender and no other, but for `SYS_FS_DUP2`, which works on `current_proc`
(`serve_proc_of_ne`, `serve_dup2`).
-/

namespace InfoKernel.Vfs

open InfoKernel.Task (PcbId)

/-- The address of a `File`. -/
abbrev FileId := Nat

/-- `FileDescriptor` -/
structure FileDescriptor where
  used : Bool
  file : Option FileId
  flags : Nat
  deriving DecidableEq

/-- `MAX_FD` -/
def maxFd : Nat := 64

/-- `FileDescriptorTable` -/
structure FdTable where
  fds : Nat → FileDescriptor

namespace FdTable

/-- The descriptors that a table is made with. -/
def new : FdTable := ⟨fun i => ⟨decide (i < 2), none, 0⟩⟩

variable (t : FdTable)

/-- One slot changes. -/
def set (i : Nat) (d : FileDescriptor) : FdTable := ⟨Function.update t.fds i d⟩

/-- The slot that the loop of `Alloc` stops at. -/
def freeSlot : Option Nat := (List.range' 5 (maxFd - 5)).find? fun i => !(t.fds i).used

/-- `FileDescriptorTable::Alloc` -/
def alloc (file : FileId) (flags : Nat) : FdTable × Int :=
  match t.freeSlot with
  | some i => (t.set i ⟨true, some file, flags⟩, i)
  | none => (t, -1)

/-- The descriptor is in the range of the table, and used. -/
def Valid (fd : Int) : Prop := 0 ≤ fd ∧ fd < maxFd ∧ (t.fds fd.toNat).used = true

instance (fd : Int) : Decidable (t.Valid fd) := inferInstanceAs (Decidable (_ ∧ _ ∧ _))

/-- `FileDescriptorTable::Get` -/
def get (fd : Int) : Option FileId := if t.Valid fd then (t.fds fd.toNat).file else none

/-- The end of `FileDescriptorTable::Free`. -/
def clear (i : Nat) : FdTable := t.set i ⟨false, none, 0⟩

/-- The slots as `Dup2` leaves them. -/
def copySlot (oldfd newfd : Nat) : FdTable := t.set newfd (t.fds oldfd)

end FdTable

/-- The thread state of a process: `rsp0`, `rip` and `rsp` of its `Tcb`. -/
structure Tcb where
  rsp0 : Nat
  rip : Nat
  rsp : Nat

/-- A control block, with the fields that the handlers reach. -/
structure Proc where
  files : FdTable
  flags : Nat
  pml4 : Nat
  textStart : Nat
  textEnd : Nat
  thread : Tcb

/-- What `Open`, `Close`, `Read`, `Write` and `Seek` do to the files. -/
structure FileOps (φ : Type) where
  openFile : φ → List UInt8 → Nat → φ × Option FileId
  close : φ → FileId → φ × Int
  read : φ → FileId → Nat → Nat → φ × Int
  write : φ → FileId → Nat → Nat → φ × Int
  seek : φ → FileId → Int → Int → φ × Int

/-- The files and the processes. -/
structure Sys (φ : Type) where
  fs : φ
  proc : PcbId → Proc

variable {φ : Type}

namespace Sys

variable (s : Sys φ)

/-- The descriptor table of a process changes. -/
def setFiles (p : PcbId) (t : FdTable) : Sys φ :=
  { s with proc := Function.update s.proc p { s.proc p with files := t } }

/-- The descriptor table of a process. -/
def files (p : PcbId) : FdTable := (s.proc p).files

@[simp] theorem setFiles_fs (p : PcbId) (t : FdTable) : (s.setFiles p t).fs = s.fs := rfl

@[simp] theorem setFiles_self (p : PcbId) (t : FdTable) :
    (s.setFiles p t).proc p = { s.proc p with files := t } :=
  Function.update_self ..

theorem setFiles_of_ne {p q : PcbId} (h : q ≠ p) (t : FdTable) :
    (s.setFiles p t).proc q = s.proc q :=
  Function.update_of_ne h ..

theorem setFiles_files (p : PcbId) : s.setFiles p (s.files p) = s := by
  rw [setFiles, files, Function.update_eq_self]

end Sys

/-- The requests, with the arguments of their messages. -/
inductive Request where
  | openFile (path : List UInt8) (flags : Nat)
  | read (fd : Int) (buf count : Nat)
  | write (fd : Int) (buf count : Nat)
  | close (fd : Int)
  | lseek (fd offset whence : Int)
  | dup (oldfd : Int)
  | dup2 (oldfd newfd : Int)
  deriving DecidableEq

/-- `FdDup2` of the table of `current_proc`. -/
def fdDup2 (t : FdTable) (oldfd newfd : Int) : FdTable × Int :=
  if ¬ t.Valid oldfd then (t, -1)
  else if newfd < 0 ∨ maxFd ≤ newfd then (t, -1)
  else if oldfd = newfd then (t, newfd)
  else (t.copySlot oldfd.toNat newfd.toNat, newfd)

section Service

variable (ops : FileOps φ) (s : Sys φ)

/-- `SYS_FS_OPEN` -/
def serveOpen (sender : PcbId) (path : List UInt8) (flags : Nat) : Sys φ × Int :=
  match ops.openFile s.fs path flags with
  | (fs, none) => ({ s with fs := fs }, -1)
  | (fs, some file) =>
      let (t, fd) := (s.files sender).alloc file flags
      if fd < 0 then ({ s with fs := (ops.close fs file).1 }, -1)
      else ({ s with fs := fs }.setFiles sender t, fd)

/-- `SYS_FS_READ`, `SYS_FS_WRITE` and `SYS_FS_LSEEK`: an operation on the file of a descriptor. -/
def serveFile (sender : PcbId) (fd : Int) (op : φ → FileId → φ × Int) : Sys φ × Int :=
  match (s.files sender).get fd with
  | none => (s, -1)
  | some file =>
      let (fs, ret) := op s.fs file
      ({ s with fs := fs }, ret)

/-- `SYS_FS_CLOSE`: `FileDescriptorTable::Free` of the table of the sender. -/
def serveClose (sender : PcbId) (fd : Int) : Sys φ × Int :=
  if ¬ (s.files sender).Valid fd then (s, -1)
  else
    let fs :=
      match ((s.files sender).fds fd.toNat).file with
      | none => s.fs
      | some file => (ops.close s.fs file).1
    ({ s with fs := fs }.setFiles sender ((s.files sender).clear fd.toNat), 0)

/-- `SYS_FS_DUP` -/
def serveDup (sender : PcbId) (oldfd : Int) : Sys φ × Int :=
  match (s.files sender).get oldfd with
  | none => (s, -1)
  | some file =>
      let (t, fd) := (s.files sender).alloc file ((s.files sender).fds oldfd.toNat).flags
      (s.setFiles sender t, fd)

/-- `SYS_FS_DUP2` -/
def serveDup2 (cur : PcbId) (oldfd newfd : Int) : Sys φ × Int :=
  let (t, fd) := fdDup2 (s.files cur) oldfd newfd
  (s.setFiles cur t, fd)

/-- A turn of the loop of `vfs::Service`, run by `cur`: the new state, and the reply. -/
def serve (cur sender : PcbId) : Request → Sys φ × Int
  | .openFile path flags => serveOpen ops s sender path flags
  | .read fd buf count => serveFile s sender fd fun fs file => ops.read fs file buf count
  | .write fd buf count => serveFile s sender fd fun fs file => ops.write fs file buf count
  | .close fd => serveClose ops s sender fd
  | .lseek fd offset whence => serveFile s sender fd fun fs file => ops.seek fs file offset whence
  | .dup oldfd => serveDup s sender oldfd
  | .dup2 oldfd newfd => serveDup2 s cur oldfd newfd

end Service

/-! ## The tables -/

namespace FdTable

variable {t : FdTable} {i j : Nat} {d : FileDescriptor}

@[simp] theorem set_self : (t.set i d).fds i = d := Function.update_self ..

theorem set_of_ne (h : j ≠ i) : (t.set i d).fds j = t.fds j := Function.update_of_ne h ..

theorem Valid.lt {fd : Int} (h : t.Valid fd) : fd.toNat < maxFd := by
  have hlt := h.2.1
  rw [maxFd] at hlt ⊢
  omega

/-- `Alloc` fills the first unused slot from 5 on, or there is none. -/
theorem alloc_cases (t : FdTable) (file : FileId) (flags : Nat) :
    (∃ i, t.freeSlot = some i ∧ 5 ≤ i ∧ i < maxFd ∧ (t.fds i).used = false ∧
      t.alloc file flags = (t.set i ⟨true, some file, flags⟩, (i : Int))) ∨
    (t.freeSlot = none ∧ t.alloc file flags = (t, -1)) := by
  cases hslot : t.freeSlot with
  | none => exact .inr ⟨rfl, by rw [alloc, hslot]⟩
  | some i =>
      have hused := List.find?_some hslot
      have hmem := List.mem_of_find?_eq_some hslot
      rw [List.mem_range'] at hmem
      obtain ⟨k, hk, rfl⟩ := hmem
      rw [maxFd] at hk
      refine .inl ⟨_, rfl, by omega, by rw [maxFd]; omega, by simpa using hused, ?_⟩
      rw [alloc, hslot]

end FdTable

/-! ## What a request can change -/

section Frame

variable {ops : FileOps φ} {s : Sys φ} {cur sender p : PcbId}

theorem serveOpen_of_ne (hp : p ≠ sender) (path : List UInt8) (flags : Nat) :
    (serveOpen ops s sender path flags).1.proc p = s.proc p := by
  rw [serveOpen]
  split
  · rfl
  · dsimp only
    split
    · rfl
    · exact Sys.setFiles_of_ne _ hp _

/-- An `open` that fails changes no table. -/
theorem serveOpen_of_fails {path : List UInt8} {flags : Nat}
    (h : (ops.openFile s.fs path flags).2 = none ∨ (s.files sender).freeSlot = none) :
    (serveOpen ops s sender path flags).1.proc = s.proc ∧
      (serveOpen ops s sender path flags).2 = -1 := by
  rw [serveOpen]
  split
  · exact ⟨rfl, rfl⟩
  · next fs file hopen =>
    rw [hopen] at h
    have hfull : (s.files sender).freeSlot = none := h.resolve_left nofun
    have halloc : (s.files sender).alloc file flags = (s.files sender, -1) := by
      rw [FdTable.alloc, hfull]
    rw [halloc]
    exact ⟨rfl, rfl⟩

/-- An `open` that succeeds fills the first unused slot. -/
theorem serveOpen_of_opens {path : List UInt8} {flags i : Nat} {file : FileId}
    (hopen : (ops.openFile s.fs path flags).2 = some file)
    (hslot : (s.files sender).freeSlot = some i) :
    serveOpen ops s sender path flags =
      ({ s with fs := (ops.openFile s.fs path flags).1 }.setFiles sender
        ((s.files sender).set i ⟨true, some file, flags⟩), (i : Int)) := by
  have halloc : (s.files sender).alloc file flags =
      ((s.files sender).set i ⟨true, some file, flags⟩, (i : Int)) := by
    rw [FdTable.alloc, hslot]
  rw [serveOpen]
  split
  · next fs hnone =>
    rw [hnone] at hopen
    cases hopen
  · next fs file' hsome =>
    rw [hsome] at hopen
    obtain rfl : file' = file := Option.some.inj hopen
    rw [halloc, hsome]
    exact if_neg (by omega)

theorem serveFile_proc (fd : Int) (op : φ → FileId → φ × Int) :
    (serveFile s sender fd op).1.proc = s.proc := by
  rw [serveFile]
  split <;> rfl

/-- **A request changes no control block but that of its sender**, and `SYS_FS_DUP2` none but
that of the service. -/
theorem serve_proc_of_ne (req : Request)
    (hp : p ≠ if req matches .dup2 .. then cur else sender) :
    (serve ops s cur sender req).1.proc p = s.proc p := by
  cases req with
  | openFile path flags => exact serveOpen_of_ne hp path flags
  | read fd buf count => exact congrFun (serveFile_proc fd _) p
  | write fd buf count => exact congrFun (serveFile_proc fd _) p
  | lseek fd offset whence => exact congrFun (serveFile_proc fd _) p
  | close fd =>
      rw [serve, serveClose]
      split
      · rfl
      · exact Sys.setFiles_of_ne _ hp _
  | dup oldfd =>
      rw [serve, serveDup]
      split
      · rfl
      · exact Sys.setFiles_of_ne _ hp _
  | dup2 oldfd newfd => exact Sys.setFiles_of_ne _ hp _

/-- `SYS_FS_DUP2` fails, or copies a slot of the table of the service. -/
theorem fdDup2_cases (t : FdTable) (oldfd newfd : Int) :
    (¬ (t.Valid oldfd ∧ 0 ≤ newfd ∧ newfd < maxFd) ∧ fdDup2 t oldfd newfd = (t, -1)) ∨
    (t.Valid oldfd ∧ 0 ≤ newfd ∧ newfd < maxFd ∧
      fdDup2 t oldfd newfd = (t.copySlot oldfd.toNat newfd.toNat, newfd)) := by
  by_cases hold : t.Valid oldfd
  · by_cases hnew : newfd < 0 ∨ maxFd ≤ newfd
    · refine .inl ⟨?_, by rw [fdDup2, if_neg (not_not.mpr hold), if_pos hnew]⟩
      rintro ⟨-, hlo, hhi⟩
      rcases hnew with h | h <;> omega
    · have hrange : 0 ≤ newfd ∧ newfd < maxFd := by omega
      refine .inr ⟨hold, hrange.1, hrange.2, ?_⟩
      rw [fdDup2, if_neg (not_not.mpr hold), if_neg hnew]
      split
      · next heq =>
        rw [heq, FdTable.copySlot, FdTable.set, Function.update_eq_self]
      · rfl
  · exact .inl ⟨fun h => hold h.1, by rw [fdDup2, if_pos hold]⟩

end Frame

end InfoKernel.Vfs
