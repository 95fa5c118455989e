import InfoKernel.Fs.Vfs
import InfoKernel.Lib.Run
import Mathlib.Tactic.ByContra

/-!
# Who closes a file

The requests of any processes to `vfs::Service`, and calls of `Fork`, which copies the control
block of its caller and the descriptors with it.  `Open` makes a `File` that has not been there
before and `Close` deletes one; what else they do, and what `Read`, `Write` and `Seek` do, is a
parameter.

A `File` has no count of the descriptors that refer to it.  `SYS_FS_CLOSE` deletes it whoever
else refers to it, and `SYS_FS_DUP2` overwrites a descriptor without closing its `File`.  The
`File`s are right (`Right`) exactly in the runs in which a descriptor is closed only when it is
the last of its `File`, and overwritten only when it is not (`right_iff_countsKept`).
-/

namespace InfoKernel.Vfs

open InfoKernel.Task (PcbId)
open InfoKernel.Lib

/-- The `File`s: how many have been made, and how often each has been closed. -/
structure FileHeap where
  next : FileId
  closed : FileId → Nat

/-- The rest of the file systems. -/
structure Disks (ψ : Type) where
  opens : ψ → List UInt8 → Nat → ψ × Bool
  close : ψ → FileId → ψ × Int
  read : ψ → FileId → Nat → Nat → ψ × Int
  write : ψ → FileId → Nat → Nat → ψ × Int
  seek : ψ → FileId → Int → Int → ψ × Int

variable {ψ : Type}

/-- `Ext2Close` -/
def FileHeap.delete (h : FileHeap) (f : FileId) : FileHeap :=
  { h with closed := Function.update h.closed f (h.closed f + 1) }

theorem FileHeap.delete_self (h : FileHeap) (f : FileId) :
    (h.delete f).closed f = h.closed f + 1 :=
  Function.update_self ..

theorem FileHeap.delete_of_ne (h : FileHeap) {f g : FileId} (hne : g ≠ f) :
    (h.delete f).closed g = h.closed g :=
  Function.update_of_ne hne ..

/-- The operations on files, with the `File`s that they make and delete. -/
def fileOps (d : Disks ψ) : FileOps (FileHeap × ψ) where
  openFile h path flags :=
    match d.opens h.2 path flags with
    | (e, true) => (({ h.1 with next := h.1.next + 1 }, e), some h.1.next)
    | (e, false) => ((h.1, e), none)
  close h f := ((h.1.delete f, (d.close h.2 f).1), (d.close h.2 f).2)
  read h f buf count := ((h.1, (d.read h.2 f buf count).1), (d.read h.2 f buf count).2)
  write h f buf count := ((h.1, (d.write h.2 f buf count).1), (d.write h.2 f buf count).2)
  seek h f offset whence := ((h.1, (d.seek h.2 f offset whence).1), (d.seek h.2 f offset whence).2)

/-- The system, with the live processes. -/
structure World (ψ : Type) where
  sys : Sys (FileHeap × ψ)
  live : PcbId → Bool

/-- What happens next: a request of a process, or a `Fork`. -/
inductive Act where
  | request (sender : PcbId) (req : Request)
  | fork (parent child : PcbId) (flags pml4 : Nat) (thread : Tcb)

namespace World

/-- `*child = *current_proc`, and what `Fork` assigns behind it. -/
def fork (w : World ψ) (parent child : PcbId) (flags pml4 : Nat) (thread : Tcb) : World ψ where
  sys := { w.sys with
    proc := Function.update w.sys.proc child
      { w.sys.proc parent with flags := flags, pml4 := pml4, thread := thread } }
  live := Function.update w.live child true

/-- One step, if it can be taken; `cur` is the service. -/
def step (d : Disks ψ) (cur : PcbId) (w : World ψ) : Act → Option (World ψ)
  | .request sender req =>
      if w.live sender then some { w with sys := (serve (fileOps d) w.sys cur sender req).1 }
      else none
  | .fork parent child flags pml4 thread =>
      if w.live parent ∧ w.live child = false then some (w.fork parent child flags pml4 thread)
      else none

variable (w : World ψ)

/-- The `File`s. -/
def heap : FileHeap := w.sys.fs.1

/-- A used descriptor of a live process refers to the `File`. -/
structure Refers (p : PcbId) (i : Nat) (f : FileId) : Prop where
  live : w.live p = true
  lt : i < maxFd
  used : ((w.sys.files p).fds i).used = true
  file : ((w.sys.files p).fds i).file = some f

/-- Some descriptor refers to the `File`. -/
def Referred (f : FileId) : Prop := ∃ p i, w.Refers p i f

/-- A descriptor other than `i` of `p` refers to the `File`. -/
def ReferredElsewhere (p : PcbId) (i : Nat) (f : FileId) : Prop :=
  ∃ q j, w.Refers q j f ∧ ¬ (q = p ∧ j = i)

/-- **Each `File` is open as long as a descriptor refers to it**, and has been closed once when
none does. -/
def Right : Prop :=
  ∀ f, f < w.heap.next →
    (w.Referred f → w.heap.closed f = 0) ∧ (¬ w.Referred f → w.heap.closed f = 1)

/-- The condition: a descriptor that is closed is the last one of its `File`, and one of the
service that `dup2` overwrites is not. -/
def CountsKept (cur : PcbId) : Act → Prop
  | .request sender (.close fd) =>
      (w.sys.files sender).Valid fd → ∀ f, w.Refers sender fd.toNat f →
        ¬ w.ReferredElsewhere sender fd.toNat f
  | .request _ (.dup2 oldfd newfd) =>
      (w.sys.files cur).Valid oldfd → 0 ≤ newfd → newfd < maxFd → oldfd ≠ newfd →
        ∀ f, w.Refers cur newfd.toNat f → w.ReferredElsewhere cur newfd.toNat f
  | _ => True

/-- The start: the service and other processes, whose descriptors refer to no `File`. -/
structure Init (cur : PcbId) : Prop where
  live : w.live cur = true
  next : w.heap.next = 0
  closed : ∀ f, w.heap.closed f = 0
  refers : ∀ p i f, ¬ w.Refers p i f

/-! ## What a step does to the references -/

variable {w} {w' : World ψ} {d : Disks ψ} {cur sender p q : PcbId} {i j : Nat} {f g : FileId}

theorem refers_congr (hlive : w'.live = w.live) (hproc : w'.sys.proc = w.sys.proc) :
    w'.Refers p i f ↔ w.Refers p i f := by
  obtain ⟨⟨fs, proc⟩, live⟩ := w
  obtain ⟨⟨fs', proc'⟩, live'⟩ := w'
  obtain rfl : live' = live := hlive
  obtain rfl : proc' = proc := hproc
  exact ⟨fun h => ⟨h.live, h.lt, h.used, h.file⟩, fun h => ⟨h.live, h.lt, h.used, h.file⟩⟩

/-- A world in which one slot of one table has changed. -/
def setSlot (w : World ψ) (fs : FileHeap × ψ) (q : PcbId) (j : Nat) (e : FileDescriptor) :
    World ψ :=
  { w with sys := { w.sys with fs := fs }.setFiles q ((w.sys.files q).set j e) }

theorem files_setSlot_of_ne {fs : FileHeap × ψ} {e : FileDescriptor} (h : ¬ (p = q ∧ i = j)) :
    ((w.setSlot fs q j e).sys.files p).fds i = (w.sys.files p).fds i := by
  by_cases hp : p = q
  · subst hp
    have hi : i ≠ j := fun hi => h ⟨rfl, hi⟩
    show (({ w.sys with fs := fs }.setFiles p _).proc p).files.fds i = _
    rw [Sys.setFiles_self]
    exact FdTable.set_of_ne hi
  · show (({ w.sys with fs := fs }.setFiles q _).proc p).files.fds i = _
    rw [Sys.setFiles_of_ne _ hp]
    rfl

theorem files_setSlot_self {fs : FileHeap × ψ} {e : FileDescriptor} :
    ((w.setSlot fs q j e).sys.files q).fds j = e := by
  show (({ w.sys with fs := fs }.setFiles q _).proc q).files.fds j = _
  rw [Sys.setFiles_self]
  exact FdTable.set_self

/-- The references of the other slots are as before. -/
theorem refers_setSlot_of_ne {fs : FileHeap × ψ} {e : FileDescriptor} (h : ¬ (p = q ∧ i = j)) :
    (w.setSlot fs q j e).Refers p i f ↔ w.Refers p i f := by
  have hslot : ((w.setSlot fs q j e).sys.files p).fds i = _ := files_setSlot_of_ne h
  constructor
  · rintro ⟨hlive, hlt, hused, hfile⟩
    rw [hslot] at hused hfile
    exact ⟨hlive, hlt, hused, hfile⟩
  · rintro ⟨hlive, hlt, hused, hfile⟩
    rw [← hslot] at hused hfile
    exact ⟨hlive, hlt, hused, hfile⟩

theorem refers_setSlot_self {fs : FileHeap × ψ} {e : FileDescriptor} :
    (w.setSlot fs q j e).Refers q j f ↔
      w.live q = true ∧ j < maxFd ∧ e.used = true ∧ e.file = some f := by
  constructor
  · rintro ⟨hlive, hlt, hused, hfile⟩
    rw [files_setSlot_self] at hused hfile
    exact ⟨hlive, hlt, hused, hfile⟩
  · rintro ⟨hlive, hlt, hused, hfile⟩
    refine ⟨hlive, hlt, ?_, ?_⟩
    · rw [files_setSlot_self]
      exact hused
    · rw [files_setSlot_self]
      exact hfile

theorem referred_iff (p : PcbId) (i : Nat) :
    w.Referred f ↔ w.Refers p i f ∨ w.ReferredElsewhere p i f := by
  constructor
  · rintro ⟨q, j, h⟩
    by_cases hslot : q = p ∧ j = i
    · obtain ⟨rfl, rfl⟩ := hslot
      exact .inl h
    · exact .inr ⟨q, j, h, hslot⟩
  · rintro (h | ⟨q, j, h, -⟩)
    · exact ⟨p, i, h⟩
    · exact ⟨q, j, h⟩

theorem referred_iff_of_unused (h : ((w.sys.files p).fds i).used = false) :
    w.Referred f ↔ w.ReferredElsewhere p i f := by
  refine (referred_iff p i).trans (or_iff_right fun hr => ?_)
  rw [hr.used] at h
  cases h

theorem Refers.unique (hf : w.Refers p i f) (hg : w.Refers p i g) : f = g :=
  Option.some.inj (hf.file.symm.trans hg.file)

/-- The `File`s that are referred to when a slot has changed. -/
theorem referred_setSlot {fs : FileHeap × ψ} {e : FileDescriptor} :
    (w.setSlot fs q j e).Referred f ↔
      (w.live q = true ∧ j < maxFd ∧ e.used = true ∧ e.file = some f) ∨
        w.ReferredElsewhere q j f := by
  rw [referred_iff q j, refers_setSlot_self]
  refine or_congr Iff.rfl ⟨?_, ?_⟩
  · rintro ⟨p, i, h, hne⟩
    exact ⟨p, i, (refers_setSlot_of_ne hne).mp h, hne⟩
  · rintro ⟨p, i, h, hne⟩
    exact ⟨p, i, (refers_setSlot_of_ne hne).mpr h, hne⟩

/-- What a request does: nothing to the `File`s; a new `File` with a descriptor, or without one
and closed again; a descriptor less, and its `File` closed; one more for a `File` that has one;
a descriptor of the service overwritten by another. -/
inductive Served (cur sender : PcbId) (w : World ψ) : Request → World ψ → Prop
  | same {req w'} : w.CountsKept cur (.request sender req) → w'.heap = w.heap →
      w'.live = w.live → (∀ p i f, w'.Refers p i f ↔ w.Refers p i f) →
      Served cur sender w req w'
  | opened {path flags e j} : j < maxFd → ((w.sys.files sender).fds j).used = false →
      Served cur sender w (.openFile path flags) (w.setSlot
        ({ w.heap with next := w.heap.next + 1 }, e) sender j ⟨true, some w.heap.next, flags⟩)
  | refused {path flags w'} :
      w'.heap = ({ w.heap with next := w.heap.next + 1 } : FileHeap).delete w.heap.next →
      w'.live = w.live → (∀ p i f, w'.Refers p i f ↔ w.Refers p i f) →
      Served cur sender w (.openFile path flags) w'
  | closed {fd : Int} {f e} : (w.sys.files sender).Valid fd → w.Refers sender fd.toNat f →
      Served cur sender w (.close fd)
        (w.setSlot (w.heap.delete f, e) sender fd.toNat ⟨false, none, 0⟩)
  | duped {oldfd : Int} {f j flags} : w.Refers sender oldfd.toNat f → j < maxFd →
      ((w.sys.files sender).fds j).used = false →
      Served cur sender w (.dup oldfd) (w.setSlot w.sys.fs sender j ⟨true, some f, flags⟩)
  | copied {oldfd newfd : Int} : (w.sys.files cur).Valid oldfd → 0 ≤ newfd → newfd < maxFd →
      oldfd ≠ newfd → Served cur sender w (.dup2 oldfd newfd)
        (w.setSlot w.sys.fs cur newfd.toNat ((w.sys.files cur).fds oldfd.toNat))

/-- A request on a file leaves the descriptors alone. -/
theorem served_file {req : Request} (hreq : w.CountsKept cur (.request sender req)) (fd : Int)
    {op : FileHeap × ψ → FileId → (FileHeap × ψ) × Int} (hop : ∀ h f, (op h f).1.1 = h.1) :
    Served cur sender w req { w with sys := (serveFile w.sys sender fd op).1 } := by
  refine .same hreq ?_ rfl fun p i f => refers_congr rfl (serveFile_proc fd op)
  show (serveFile w.sys sender fd op).1.fs.1 = w.sys.fs.1
  rw [serveFile]
  split
  · rfl
  · exact hop _ _

theorem served_open (d : Disks ψ) (path : List UInt8) (flags : Nat) :
    Served cur sender w (.openFile path flags)
      { w with sys := (serveOpen (fileOps d) w.sys sender path flags).1 } := by
  rcases hopen : d.opens w.sys.fs.2 path flags with ⟨e, b⟩
  cases b with
  | false =>
      have hops : (fileOps d).openFile w.sys.fs path flags = ((w.heap, e), none) := by
        simp only [fileOps, hopen]
        rfl
      rw [serveOpen, hops]
      exact .same trivial rfl rfl fun _ _ _ => refers_congr rfl rfl
  | true =>
      have hops : (fileOps d).openFile w.sys.fs path flags =
          (({ w.heap with next := w.heap.next + 1 }, e), some w.heap.next) := by
        simp only [fileOps, hopen]
        rfl
      rcases (w.sys.files sender).alloc_cases w.heap.next flags with
        ⟨j, hslot, -, hj, hused, halloc⟩ | ⟨hslot, halloc⟩
      · rw [serveOpen_of_opens (congrArg Prod.snd hops) hslot, hops]
        exact .opened hj hused
      · rw [serveOpen, hops]
        dsimp only
        rw [halloc]
        exact .refused rfl rfl fun _ _ _ => refers_congr rfl rfl

theorem served (d : Disks ψ) (hlive : w.live sender = true) (req : Request) :
    Served cur sender w req { w with sys := (serve (fileOps d) w.sys cur sender req).1 } := by
  cases req with
  | openFile path flags => exact served_open d path flags
  | read fd buf count =>
      have hreq : w.CountsKept cur (.request sender (.read fd buf count)) := trivial
      exact served_file hreq fd fun _ _ => rfl
  | write fd buf count =>
      have hreq : w.CountsKept cur (.request sender (.write fd buf count)) := trivial
      exact served_file hreq fd fun _ _ => rfl
  | lseek fd offset whence =>
      have hreq : w.CountsKept cur (.request sender (.lseek fd offset whence)) := trivial
      exact served_file hreq fd fun _ _ => rfl
  | close fd =>
      rw [serve, serveClose]
      split
      · next hvalid =>
        exact .same (fun h => absurd h hvalid) rfl rfl fun _ _ _ => refers_congr rfl rfl
      · next hvalid =>
        rw [not_not] at hvalid
        cases hfile : ((w.sys.files sender).fds fd.toNat).file with
        | none =>
            refine .same (fun _ f hr => by cases hfile.symm.trans hr.file) rfl rfl fun p i f => ?_
            show (w.setSlot w.sys.fs sender fd.toNat ⟨false, none, 0⟩).Refers p i f ↔ _
            by_cases hslot : p = sender ∧ i = fd.toNat
            · obtain ⟨rfl, rfl⟩ := hslot
              rw [refers_setSlot_self]
              refine iff_of_false (fun h => by cases h.2.2.1) fun h => ?_
              cases hfile.symm.trans h.file
            · exact refers_setSlot_of_ne hslot
        | some f => exact .closed hvalid ⟨hlive, hvalid.lt, hvalid.2.2, hfile⟩
  | dup oldfd =>
      rw [serve, serveDup]
      split
      · exact .same trivial rfl rfl fun _ _ _ => refers_congr rfl rfl
      · next f hget =>
        have hvalid : (w.sys.files sender).Valid oldfd := by
          by_contra hno
          rw [FdTable.get, if_neg hno] at hget
          cases hget
        rw [FdTable.get, if_pos hvalid] at hget
        have hrefers : w.Refers sender oldfd.toNat f :=
          ⟨hlive, hvalid.lt, hvalid.2.2, hget⟩
        rcases (w.sys.files sender).alloc_cases f ((w.sys.files sender).fds oldfd.toNat).flags with
          ⟨j, -, -, hj, hused, halloc⟩ | ⟨-, halloc⟩
        · rw [halloc]
          exact .duped hrefers hj hused
        · rw [halloc]
          dsimp only
          rw [Sys.setFiles_files]
          exact .same trivial rfl rfl fun _ _ _ => refers_congr rfl rfl
  | dup2 oldfd newfd =>
      rw [serve, serveDup2]
      rcases fdDup2_cases (w.sys.files cur) oldfd newfd with ⟨hno, hdup⟩ | ⟨hold, hlo, hhi, hdup⟩
      · rw [hdup]
        dsimp only
        rw [Sys.setFiles_files]
        exact .same (fun hold hlo hhi => absurd ⟨hold, hlo, hhi⟩ hno) rfl rfl fun _ _ _ =>
          refers_congr rfl rfl
      · rw [hdup]
        by_cases heq : oldfd = newfd
        · have hcopy : (w.sys.files cur).copySlot oldfd.toNat newfd.toNat = w.sys.files cur := by
            rw [heq, FdTable.copySlot, FdTable.set, Function.update_eq_self]
          dsimp only
          rw [hcopy, Sys.setFiles_files]
          exact .same (fun _ _ _ hne => absurd heq hne) rfl rfl fun _ _ _ => refers_congr rfl rfl
        · exact .copied hold hlo hhi heq

/-! ## The invariant -/

/-- The `File`s are right, the descriptors refer to `File`s that have been made, none has been
closed that has not been made, and the service lives. -/
structure Counted (cur : PcbId) (w : World ψ) : Prop where
  right : w.Right
  bound : ∀ f, w.Referred f → f < w.heap.next
  fresh : ∀ f, w.heap.next ≤ f → w.heap.closed f = 0
  live : w.live cur = true

theorem Init.counted (h : w.Init cur) : Counted cur w where
  right f hf := by
    rw [h.next] at hf
    exact absurd hf (Nat.not_lt_zero f)
  bound f hf := by
    obtain ⟨p, i, hr⟩ := hf
    exact absurd hr (h.refers p i f)
  fresh f _ := h.closed f
  live := h.live

/-- A step that keeps the `File`s, and which of them the descriptors refer to. -/
theorem Counted.of_heap_eq (h : Counted cur w) (hheap : w'.heap = w.heap)
    (hlive : w'.live cur = w.live cur) (href : ∀ f, w'.Referred f ↔ w.Referred f) :
    Counted cur w' where
  right f hf := by
    rw [href, hheap]
    rw [hheap] at hf
    exact h.right f hf
  bound f hf := by
    rw [hheap]
    exact h.bound f ((href f).mp hf)
  fresh f hf := by
    rw [hheap] at hf ⊢
    exact h.fresh f hf
  live := hlive.trans h.live

/-- A `File` that is open has not been closed. -/
theorem Counted.open_of_refers (h : Counted cur w) (hr : w.Refers p i f) :
    f < w.heap.next ∧ w.heap.closed f = 0 :=
  ⟨h.bound f ⟨p, i, hr⟩, (h.right f (h.bound f ⟨p, i, hr⟩)).1 ⟨p, i, hr⟩⟩

/-- A new `File` with its first descriptor. -/
theorem Counted.opened {flags : Nat} {e : ψ} (h : Counted cur w) (hlive : w.live sender = true)
    (hj : j < maxFd) (hused : ((w.sys.files sender).fds j).used = false) :
    Counted cur (w.setSlot ({ w.heap with next := w.heap.next + 1 }, e) sender j
      ⟨true, some w.heap.next, flags⟩) := by
  have href : ∀ f, (w.setSlot ({ w.heap with next := w.heap.next + 1 }, e) sender j
      ⟨true, some w.heap.next, flags⟩).Referred f ↔ f = w.heap.next ∨ w.Referred f := by
    intro f
    rw [referred_setSlot, referred_iff_of_unused hused]
    simp only [hlive, hj, true_and, Option.some.injEq, eq_comm]
  refine ⟨fun f hf => ?_, fun f hf => ?_, fun f hf => h.fresh f (Nat.le_of_succ_le hf), h.live⟩
  · rw [href]
    rcases Nat.lt_succ_iff_lt_or_eq.mp hf with hlt | rfl
    · rw [or_iff_right (Nat.ne_of_lt hlt)]
      exact h.right f hlt
    · exact ⟨fun _ => h.fresh _ (Nat.le_refl _), fun hno => absurd (.inl rfl) hno⟩
  · rcases (href f).mp hf with rfl | hf
    · exact Nat.lt_succ_self _
    · exact Nat.lt_succ_of_lt (h.bound f hf)

/-- A new `File` for which no descriptor is left, and which is closed again. -/
theorem Counted.refused (h : Counted cur w)
    (hheap : w'.heap = ({ w.heap with next := w.heap.next + 1 } : FileHeap).delete w.heap.next)
    (hlive : w'.live cur = w.live cur) (href : ∀ f, w'.Referred f ↔ w.Referred f) :
    Counted cur w' := by
  have hnew : ¬ w.Referred w.heap.next := fun hf => Nat.lt_irrefl _ (h.bound _ hf)
  refine ⟨fun f hf => ?_, fun f hf => ?_, fun f hf => ?_, hlive.trans h.live⟩
  · rw [href, hheap]
    rw [hheap] at hf
    rcases Nat.lt_succ_iff_lt_or_eq.mp hf with hlt | rfl
    · rw [FileHeap.delete_of_ne _ (Nat.ne_of_lt hlt)]
      exact h.right f hlt
    · refine ⟨fun hf => absurd hf hnew, fun _ => ?_⟩
      rw [FileHeap.delete_self]
      exact congrArg Nat.succ (h.fresh _ (Nat.le_refl _))
  · rw [hheap]
    exact Nat.lt_succ_of_lt (h.bound f ((href f).mp hf))
  · rw [hheap] at hf ⊢
    rw [FileHeap.delete_of_ne _ (Nat.ne_of_gt (Nat.lt_of_succ_le hf))]
    exact h.fresh f (Nat.le_of_succ_le hf)

/-- The last descriptor of a `File`, closed with it. -/
theorem Counted.closed {k : Nat} {e : ψ} (h : Counted cur w) (hrefers : w.Refers sender k f)
    (hlast : ¬ w.ReferredElsewhere sender k f) :
    Counted cur (w.setSlot (w.heap.delete f, e) sender k ⟨false, none, 0⟩) := by
  have href : ∀ g, (w.setSlot (w.heap.delete f, e) sender k ⟨false, none, 0⟩).Referred g ↔
      g ≠ f ∧ w.Referred g := by
    intro g
    rw [referred_setSlot, or_iff_right fun hno => by cases hno.2.2.1]
    constructor
    · intro hg
      refine ⟨?_, (referred_iff sender k).mpr (.inr hg)⟩
      rintro rfl
      exact hlast hg
    · rintro ⟨hne, hg⟩
      exact ((referred_iff sender k).mp hg).resolve_left fun hr => hne (hr.unique hrefers)
  obtain ⟨hbound, hopen⟩ := h.open_of_refers hrefers
  refine ⟨fun g hg => ?_, fun g hg => h.bound g ((href g).mp hg).2, fun g hg => ?_, h.live⟩
  · rw [href]
    show (_ → (w.heap.delete f).closed g = 0) ∧ (_ → (w.heap.delete f).closed g = 1)
    by_cases hgf : g = f
    · subst hgf
      rw [FileHeap.delete_self, hopen]
      exact ⟨fun hno => absurd rfl hno.1, fun _ => rfl⟩
    · rw [FileHeap.delete_of_ne _ hgf, and_iff_right hgf]
      exact h.right g hg
  · show (w.heap.delete f).closed g = 0
    rw [FileHeap.delete_of_ne _ (Nat.ne_of_gt (Nat.lt_of_lt_of_le hbound hg))]
    exact h.fresh g hg

/-- One more descriptor for a `File` that has one. -/
theorem Counted.duped {k flags : Nat} (h : Counted cur w) (hlive : w.live sender = true)
    (hrefers : w.Refers sender k f) (hj : j < maxFd)
    (hused : ((w.sys.files sender).fds j).used = false) :
    Counted cur (w.setSlot w.sys.fs sender j ⟨true, some f, flags⟩) := by
  refine h.of_heap_eq rfl rfl fun g => ?_
  rw [referred_setSlot, ← referred_iff_of_unused hused]
  simp only [hlive, hj, true_and, Option.some.injEq, or_iff_right_iff_imp]
  rintro rfl
  exact ⟨_, _, hrefers⟩

/-- A descriptor of the service overwritten by another, whose `File` has one more. -/
theorem Counted.copied {k l : Nat} (h : Counted cur w) (hk : k < maxFd)
    (hkept : ∀ f, w.Refers cur l f → w.ReferredElsewhere cur l f) :
    Counted cur (w.setSlot w.sys.fs cur l ((w.sys.files cur).fds k)) := by
  refine h.of_heap_eq rfl rfl fun g => ?_
  rw [referred_setSlot]
  constructor
  · rintro (⟨-, -, hused, hfile⟩ | hg)
    · exact ⟨cur, k, h.live, hk, hused, hfile⟩
    · exact (referred_iff cur l).mpr (.inr hg)
  · intro hg
    rcases (referred_iff cur l).mp hg with hr | hg
    · exact .inr (hkept g hr)
    · exact .inr hg

theorem Counted.request {req : Request} (h : Counted cur w) (hlive : w.live sender = true)
    (hok : w.CountsKept cur (.request sender req)) (hs : Served cur sender w req w') :
    Counted cur w' := by
  cases hs with
  | same _ hheap hl hr =>
      exact h.of_heap_eq hheap (congrFun hl cur) fun f =>
        exists_congr fun p => exists_congr fun i => hr p i f
  | opened hj hused => exact h.opened hlive hj hused
  | refused hheap hl hr =>
      exact h.refused hheap (congrFun hl cur) fun f =>
        exists_congr fun p => exists_congr fun i => hr p i f
  | closed hvalid hrefers => exact h.closed hrefers (hok hvalid _ hrefers)
  | duped hrefers hj hused => exact h.duped hlive hrefers hj hused
  | copied hold hlo hhi hne => exact h.copied hold.lt (hok hold hlo hhi hne)

/-- A request that does not meet the condition leaves a `File` wrong: closed while a descriptor
refers to it, or open with none. -/
theorem Counted.not_right {req : Request} (h : Counted cur w)
    (hno : ¬ w.CountsKept cur (.request sender req)) (hs : Served cur sender w req w') :
    ¬ w'.Right := by
  intro hright
  cases hs with
  | same hkept => exact hno hkept
  | opened => exact hno trivial
  | refused => exact hno trivial
  | duped => exact hno trivial
  | @closed fd f e hvalid hrefers =>
      simp only [CountsKept, not_forall, not_not] at hno
      obtain ⟨-, g, hg, helse⟩ := hno
      obtain rfl := hg.unique hrefers
      obtain ⟨hbound, hopen⟩ := h.open_of_refers hrefers
      have hclosed := (hright g hbound).1 (referred_setSlot.mpr (.inr helse))
      have honce : (w.heap.delete g).closed g = 0 := hclosed
      rw [FileHeap.delete_self] at honce
      cases honce
  | @copied oldfd newfd hold hlo hhi hne =>
      simp only [CountsKept, not_forall] at hno
      obtain ⟨-, -, -, -, g, hg, helse⟩ := hno
      obtain ⟨hbound, hopen⟩ := h.open_of_refers hg
      have hclosed : w.heap.closed g = 1 := by
        refine (hright g hbound).2 fun hr => ?_
        rcases referred_setSlot.mp hr with ⟨-, -, hused, hfile⟩ | hr
        · refine helse ⟨cur, oldfd.toNat, ⟨h.live, hold.lt, hused, hfile⟩, fun heq => ?_⟩
          have hlo' := hold.1
          omega
        · exact helse hr
      rw [hopen] at hclosed
      cases hclosed

/-- `Fork` adds descriptors for the `File`s of the parent. -/
theorem referred_fork {parent child : PcbId} {flags pml4 : Nat} {thread : Tcb}
    (hparent : w.live parent = true) (hchild : w.live child = false) :
    (w.fork parent child flags pml4 thread).Referred f ↔ w.Referred f := by
  have hproc : ∀ p, p ≠ child → ((w.fork parent child flags pml4 thread).sys.files p) =
      w.sys.files p := fun p hp => congrArg Proc.files (Function.update_of_ne hp ..)
  have hself : (w.fork parent child flags pml4 thread).sys.files child = w.sys.files parent := by
    show (Function.update w.sys.proc child _ child).files = _
    rw [Function.update_self]
    rfl
  have hlive : ∀ p, p ≠ child → (w.fork parent child flags pml4 thread).live p = w.live p :=
    fun p hp => Function.update_of_ne hp ..
  constructor
  · rintro ⟨p, i, hl, hlt, hused, hfile⟩
    by_cases hp : p = child
    · subst hp
      rw [hself] at hused hfile
      exact ⟨parent, i, hparent, hlt, hused, hfile⟩
    · rw [hproc p hp] at hused hfile
      rw [hlive p hp] at hl
      exact ⟨p, i, hl, hlt, hused, hfile⟩
  · rintro ⟨p, i, hl, hlt, hused, hfile⟩
    have hp : p ≠ child := by
      rintro rfl
      rw [hl] at hchild
      cases hchild
    refine ⟨p, i, (hlive p hp).trans hl, hlt, ?_, ?_⟩
    · rw [hproc p hp]
      exact hused
    · rw [hproc p hp]
      exact hfile

theorem Counted.fork {parent child : PcbId} {flags pml4 : Nat} {thread : Tcb} (h : Counted cur w)
    (hparent : w.live parent = true) (hchild : w.live child = false) :
    Counted cur (w.fork parent child flags pml4 thread) := by
  refine ⟨fun f hf => ?_, fun f hf => ?_, h.fresh, ?_⟩
  · rw [referred_fork hparent hchild]
    exact h.right f hf
  · exact h.bound f ((referred_fork hparent hchild).mp hf)
  · have hne : cur ≠ child := by
      rintro rfl
      rw [h.live] at hchild
      cases hchild
    exact (Function.update_of_ne hne ..).trans h.live

/-- A step is a request that is served, or a `Fork`. -/
theorem step_cases {d : Disks ψ} {a : Act} (hs : step d cur w a = some w') :
    (∃ sender req, a = .request sender req ∧ w.live sender = true ∧
      Served cur sender w req w') ∨
    ∃ parent child flags pml4 thread, a = .fork parent child flags pml4 thread ∧
      w.live parent = true ∧ w.live child = false ∧ w' = w.fork parent child flags pml4 thread := by
  cases a with
  | request sender req =>
      rw [step] at hs
      split at hs
      · next hlive =>
        rw [← Option.some.inj hs]
        exact .inl ⟨sender, req, rfl, hlive, served d hlive req⟩
      · cases hs
  | fork parent child flags pml4 thread =>
      rw [step] at hs
      split at hs
      · next hlive =>
        exact .inr ⟨parent, child, flags, pml4, thread, rfl, hlive.1, hlive.2,
          (Option.some.inj hs).symm⟩
      · cases hs

/-- **The `File`s are right exactly as long as the condition is met.** -/
theorem right_iff_countsKept {d : Disks ψ} {acts : List Act} (hinit : w.Init cur) :
    Run (Keeping Right (ofOption (step d cur))) w acts w' ↔
      Run (Guarded (fun w a => w.CountsKept cur a) (ofOption (step d cur))) w acts w' := by
  refine run_keeping_iff_guarded hinit.counted (fun w a w' h hok hs => ?_) (fun _ h => h.right)
    fun w a w' h hno hs => ?_
  · rcases step_cases hs with ⟨sender, req, rfl, hlive, hserved⟩ | ⟨p, c, _, _, _, -, hp, hc, rfl⟩
    · exact h.request hlive hok hserved
    · exact h.fork hp hc
  · rcases step_cases hs with ⟨sender, req, rfl, -, hserved⟩ | ⟨_, _, _, _, _, rfl, -⟩
    · exact h.not_right hno hserved
    · exact absurd trivial hno

/-- Every path opens. -/
def anyDisk : Disks Unit where
  opens _ _ _ := ((), true)
  close _ _ := ((), 0)
  read _ _ _ _ := ((), 0)
  write _ _ _ _ := ((), 0)
  seek _ _ _ _ := ((), 0)

/-- The service, process 3, and process 7. -/
def twoProcs : World Unit where
  sys := ⟨(⟨0, fun _ => 0⟩, ()), fun _ => ⟨.new, 0, 0, 0, 0, ⟨0, 0, 0⟩⟩⟩
  live p := p == 3 || p == 7

theorem twoProcs_init : twoProcs.Init 3 where
  live := rfl
  next := rfl
  closed _ := rfl
  refers p i f h := by cases h.file

/-- Process 7 opens a file, duplicates its descriptor and forks. -/
theorem right_iff_countsKept_twoProcs : ∃ w,
    Run (Keeping Right (ofOption (step anyDisk 3))) twoProcs
      [.request 7 (.openFile [47, 97] 0), .request 7 (.dup 5), .fork 7 8 0 0 ⟨0, 0, 0⟩] w :=
  ⟨_, (right_iff_countsKept twoProcs_init).mpr
    (Run.cons ⟨trivial, rfl⟩ (Run.cons ⟨trivial, rfl⟩ (Run.cons ⟨trivial, rfl⟩ Run.nil)))⟩

/-- **A descriptor is left dangling.**  Process 7 opens a file, duplicates descriptor 5, and
closes it: descriptor 6 refers to a `File` that has been deleted. -/
theorem dup_left_dangling :
    ¬ ∀ (d : Disks Unit) (cur : PcbId) (w w' : World Unit) (acts : List Act), w.Init cur →
      Run (ofOption (step d cur)) w acts w' → w'.Right := by
  intro hclaim
  have hright := hclaim anyDisk 3 twoProcs _
    [.request 7 (.openFile [47, 97] 0), .request 7 (.dup 5), .request 7 (.close 5)] twoProcs_init
    (Run.cons rfl (Run.cons rfl (Run.cons rfl Run.nil)))
  have hopen := (hright 0 (by decide)).1 ⟨7, 6, rfl, by decide, rfl, rfl⟩
  exact absurd hopen (by decide)

end World

end InfoKernel.Vfs
