import InfoKernel.Mm.PageWalk

/-!
# Loading a program

The model of `Execve` in `src/task/exec.cc`, up to the end of the loop that loads the segments of
the file: the checks of the header, the new page table, and for each program header of type
`PT_LOAD` the pages that are allocated, mapped and filled from the file.

`open`, `lseek` and `read` are the file's bytes: `readInto` copies what there is of them.  The
addresses of the segments lie in the lower half, so that the entries of the kernel, which the new
root shares, are not looked at.

## What is loaded

A segment is read to the beginning of its pages, not to the place of `p_vaddr` in them, and what
the file does not fill keeps what the pages held before, but for the number of pages that `Alloc`
stores at their beginning.  The segment whose pages are mapped last has a page.
`virtByte_of_loaded` says so for each address, and `loadsRight_iff` says for which files that is
right.
-/

namespace InfoKernel.Task.Exec

open InfoKernel.Lib InfoKernel.Mm InfoKernel.Mm.Page

/-! ## The file -/

/-- A file: its size, and its bytes as far as they go. -/
structure Elf where
  size : Nat
  bytes : Nat → UInt8

/-- `Elf64_Phdr`, with the fields that `Execve` uses. -/
structure Phdr where
  pType : Nat
  pOffset : Nat
  pVaddr : Nat
  pFilesz : Nat
  pMemsz : Nat
  deriving DecidableEq, Repr

namespace Elf

variable (f : Elf)

/-- `e_type` -/
def eType : Nat := getLE f.bytes 16 2

/-- `e_machine` -/
def eMachine : Nat := getLE f.bytes 18 2

/-- `e_phoff` -/
def ePhoff : Nat := getLE f.bytes 32 8

/-- `e_phentsize` -/
def ePhentsize : Nat := getLE f.bytes 54 2

/-- `e_phnum` -/
def ePhnum : Nat := getLE f.bytes 56 2

/-- The program header `i`. -/
def phdr (i : Nat) : Phdr :=
  let off := u64 (f.ePhoff + i * f.ePhentsize)
  { pType := getLE f.bytes off 4
    pOffset := getLE f.bytes (off + 8) 8
    pVaddr := getLE f.bytes (off + 16) 8
    pFilesz := getLE f.bytes (off + 32) 8
    pMemsz := getLE f.bytes (off + 40) 8 }

/-- The program headers. -/
def phdrs : List Phdr := (List.range f.ePhnum).map f.phdr

end Elf

/-- `PT_LOAD` -/
def ptLoad : Nat := 1

/-- `ET_EXEC` -/
def etExec : Nat := 2

/-- `EM_X86_64` -/
def emX86_64 : Nat := 0x3e

/-- The segments that are to be loaded. -/
def Elf.loads (f : Elf) : List Phdr := f.phdrs.filter fun t => t.pType = ptLoad

/-! ## `Execve` -/

/-- `mm::page::Alloc` -/
def allocBlock (fuel size : Nat) : Program (Arena FrameMem) Fault Nat :=
  fun a => do
    let (h, p) ← Heap.alloc ⟨a.frames, a.mem⟩ fuel size
    return (p, ⟨h.frame, h.mem⟩)

/-- The copy of the kernel's half of the root. -/
def copyKernel (mem : Nat → UInt8) (pml4 kernelPml4 : Nat) : Nat → UInt8 :=
  fun i => if pml4 + 2048 ≤ i ∧ i < pml4 + 4096 then mem (kernelPml4 + (i - pml4)) else mem i

/-- The new page table. -/
def userTable (fuel kernelPml4 : Nat) : Program (Arena FrameMem) Fault Nat := do
  let pml4 ← allocBlock fuel (512 * 8)
  fun a =>
    if pml4 = 0 then .error .nullDeref
    else .ok (pml4, { a with mem := copyKernel (zeroPage a.mem pml4) pml4 kernelPml4 })

namespace Phdr

variable (t : Phdr)

/-- `page_start` -/
def pageStart : Nat := t.pVaddr &&& pageMask

/-- `page_end` -/
def pageEnd : Nat := u64 (t.pVaddr + t.pMemsz + 0xfff) &&& pageMask

/-- `page_count` -/
def pageCount : Nat := sub64 t.pageEnd t.pageStart / 0x1000

/-- The calls of `Map` for the segment, with its pages at `pageAddr`. -/
def calls (pageAddr : Nat) : List MapCall :=
  (List.range (t.pageCount + 1)).map fun j =>
    { virt := u64 (t.pageStart + j * 0x1000)
      phys := vir2Phy (u64 (pageAddr + j * 0x1000))
      flags := ptePresent ||| pteWritable ||| pteUser }

end Phdr

/-- The memory after `read` of `n` bytes from `off` on to `addr`. -/
def readInto (f : Elf) (mem : Nat → UInt8) (off n addr : Nat) : Nat → UInt8 :=
  fun i => if addr ≤ i ∧ i < addr + min n (f.size - off) then f.bytes (off + (i - addr)) else mem i

/-- `lseek` and `read`, of the segment. -/
def readSegment (f : Elf) (t : Phdr) (pageAddr : Nat) : Program (Arena FrameMem) Fault Unit :=
  fun a =>
    if pageAddr = 0 then .error .nullDeref
    else .ok ((), { a with mem := readInto f a.mem t.pOffset t.pFilesz pageAddr })

/-- What the loop does for a program header of type `PT_LOAD`. -/
def loadSegment (fuel : Nat) (f : Elf) (pml4 : Nat) (t : Phdr) :
    Program (Arena FrameMem) Fault Unit := do
  let pageAddr ← allocBlock fuel (sub64 t.pageEnd t.pageStart)
  mapAll fuel pml4 (t.calls pageAddr)
  readSegment f t pageAddr

/-- The body of the loop. -/
def loadHeader (fuel : Nat) (f : Elf) (pml4 : Nat) (t : Phdr) :
    Program (Arena FrameMem) Fault Unit :=
  if t.pType = ptLoad then loadSegment fuel f pml4 t else pure ()

/-- The loop over the program headers. -/
def loadAll (fuel : Nat) (f : Elf) (pml4 : Nat) : List Phdr → Program (Arena FrameMem) Fault Unit
  | [] => pure ()
  | t :: ts => do
      loadHeader fuel f pml4 t
      loadAll fuel f pml4 ts

/-- `Execve`, to the end of the loop; the result is the root, or `none` where it returns -1. -/
def execve (fuel kernelPml4 : Nat) (f : Elf) : Program (Arena FrameMem) Fault (Option Nat) :=
  if getLE f.bytes 0 4 ≠ 0x464c457f then return none
  else if f.eType ≠ etExec then return none
  else if f.eMachine ≠ emX86_64 then return none
  else do
    let pml4 ← userTable fuel kernelPml4
    loadAll fuel f pml4 f.phdrs
    return some pml4

/-! ## Blocks of pages -/

section Blocks

variable {a a' : Arena FrameMem} {frame : FrameMem} {fuel size n p x i j c len : Nat}

/-- The size of the kernel's window. -/
def windowSize : Nat := 2 ^ 64 - identityBase

/-- The pages `p`, `p + pageSize` and so on, `n` of them, have been allocated. -/
structure Block (a a' : Arena FrameMem) (p n : Nat) : Prop where
  frames : FramesOk windowSize a'.frames
  ne : p ≠ 0
  aligned : p % pageSize = 0
  bound : p + n * pageSize ≤ 2 ^ 64
  was_free : ∀ j, j < n → FreePage a.frames (p + j * pageSize)
  taken : ∀ j, j < n → ¬ FreePage a'.frames (p + j * pageSize)
  free : ∀ x, FreePage a'.frames x → FreePage a.frames x
  mem : a'.mem = setLE a.mem p 8 n

/-- The address of a frame in the window. -/
theorem addr_of_window (h : FramesOk windowSize frame) (hi : i < frame.totalPages) :
    phy2Vir (u64 (frame.startUsable + i * pageSize)) =
        identityBase + frame.startUsable + i * pageSize ∧
      identityBase + frame.startUsable + i * pageSize + pageSize ≤ 2 ^ 64 := by
  have hwindow := h.region
  have haddr := h.addr hi
  rw [windowSize, identityBase, pageSize] at hwindow
  rw [haddr, phy2Vir, u64, identityBase, pageSize]
  omega

/-- The pages that `AllocPages` has marked. -/
theorem block_of_allocated {first : Nat} (h : FramesOk windowSize a.frames) (hn : 0 < n)
    (hall : Allocated a.frames n first a'.frames p) (hmem : a'.mem = setLE a.mem p 8 n) :
    Block a a' p n := by
  have hfits := hall.fits
  have hpage : ∀ j, j < n → p + j * pageSize =
      phy2Vir (u64 (a.frames.startUsable + (first + j) * pageSize)) := by
    intro j hj
    rw [hall.addr, (addr_of_window h (by omega)).1, (addr_of_window h (by omega)).1, Nat.add_mul,
      Nat.add_assoc _ _
      (j * pageSize)]
  have hlast := (addr_of_window h (i := first + (n - 1)) (by omega)).2
  have hok' : FramesOk windowSize a'.frames :=
    { aligned := by
        rw [hall.startUsable]
        exact h.aligned
      region := by
        rw [hall.startUsable, hall.totalPages]
        exact h.region
      lower := h.lower
      freePages := by
        rw [hall.freePages]
        exact Nat.mod_lt _ (by decide) }
  refine
    { frames := hok'
      ne := ?_
      aligned := ?_
      bound := ?_
      was_free := fun j hj => ?_
      taken := fun j hj hfree => ?_
      free := ?_
      mem := hmem }
  · rw [hall.addr, (addr_of_window h (by omega)).1, identityBase]
    omega
  · have hpage' := (h.page (i := first) (by omega)).1
    rwa [← hall.addr] at hpage'
  · rw [hall.addr, (addr_of_window h (by omega)).1]
    have hidx : (first + (n - 1)) + 1 = first + n := by omega
    rw [Nat.add_assoc, ← Nat.succ_mul, Nat.succ_eq_add_one, hidx, Nat.add_mul] at hlast
    rwa [Nat.add_assoc]
  · rw [hpage j hj]
    refine ⟨?_, first + j, FrameMem.mem_freeFrames.mpr ⟨by omega,
      hall.wasFree _ ⟨by omega, by omega⟩⟩,
      rfl⟩
    rw [(addr_of_window h (by omega)).1, identityBase]
    omega
  · obtain ⟨-, k, hk, haddr⟩ := hfree
    obtain ⟨hklt, hkfree⟩ := FrameMem.mem_freeFrames.mp hk
    rw [hall.totalPages] at hklt
    rw [hpage j hj, hall.startUsable] at haddr
    have hjk := h.page_inj (by omega) hklt haddr
    rw [← hjk, ← Bool.not_eq_true, hall.used] at hkfree
    exact hkfree (.inl ⟨by omega, by omega⟩)
  · rintro x ⟨hx, k, hk, rfl⟩
    obtain ⟨hklt, hkfree⟩ := FrameMem.mem_freeFrames.mp hk
    rw [hall.totalPages] at hklt
    rw [hall.startUsable] at hx ⊢
    refine ⟨hx, k, FrameMem.mem_freeFrames.mpr ⟨hklt, ?_⟩, rfl⟩
    rw [← Bool.not_eq_true, hall.used, not_or, Bool.not_eq_true] at hkfree
    exact hkfree.2

/-- The pages of a block: one more than its size fills. -/
theorem pagesFor_mul (hc : c < 2 ^ 40) : Heap.pagesFor (c * pageSize) = c + 1 := by
  rw [Heap.pagesFor]
  have hsize : ∀ s, s < 2 ^ 60 → u64 (u64 (s + 8) + pageSize - 1) = s + 8 + pageSize - 1 := by
    intro s hs
    have hfirst : u64 (s + 8) = s + 8 := Nat.mod_eq_of_lt (by omega)
    rw [hfirst, u64, pageSize]
    omega
  rw [pageSize] at hsize ⊢
  split
  · next hzero =>
    rw [hsize 1 (by omega)]
    omega
  · rw [hsize _ (by omega)]
    omega

theorem allocBlock_of_allocPages (hpages : Heap.pagesFor size = n)
    (h : allocPages fuel a.frames n = .ok (frame, p)) (hp : p ≠ 0) :
    allocBlock fuel size a = .ok (p, ⟨frame, setLE a.mem p 8 n⟩) := by
  have halloc : Heap.alloc ⟨a.frames, a.mem⟩ fuel size = .ok (⟨frame, setLE a.mem p 8 n⟩, p) := by
    rw [Heap.alloc, hpages, h]
    exact if_neg hp
  rw [allocBlock, halloc]
  rfl

/-- **`Alloc`** takes the pages that it asks for, or returns a null pointer. -/
theorem allocBlock_ends (h : FramesOk windowSize a.frames) (hpages : Heap.pagesFor size =
    n) (hn : 0 < n)
    (hlt : n < 2 ^ 52) :
    Ends (allocBlock fuel size) a (fun _ => True) fun p a' => p = 0 ∨ Block a a' p n := by
  rw [Ends, allocBlock]
  cases hrun : Heap.alloc ⟨a.frames, a.mem⟩ fuel size with
  | error e => exact True.intro
  | ok r =>
      obtain ⟨⟨frame, mem⟩, p⟩ := r
      show p = 0 ∨ Block a ⟨frame, mem⟩ p n
      rw [Heap.alloc, hpages] at hrun
      simp only at hrun
      rw [bind_eq_ok_iff] at hrun
      obtain ⟨⟨frame', base⟩, halloc, hrun⟩ := hrun
      simp only at hrun
      split at hrun
      · injection hrun with hrun
        exact .inl (Prod.mk.inj hrun).2.symm
      · next hbase =>
        injection hrun with hrun
        obtain ⟨hheap, rfl⟩ := Prod.mk.inj hrun
        obtain ⟨rfl, rfl⟩ := Heap.mk.inj hheap
        have htotal : a.frames.totalPages < 2 ^ 53 := by
          have hregion := Nat.le_trans h.region h.lower
          rw [upperHalf, pageSize] at hregion
          omega
        rcases allocPages_spec (by omega) (by omega) halloc with ⟨-, hnull⟩ | ⟨first, hall⟩
        · exact absurd hnull hbase
        · rw [if_neg (by omega)] at hall
          exact .inr (block_of_allocated h hn hall rfl)

theorem Block.first (hb : Block a a' p n) (hn : 0 < n) : FreePage a.frames p := by
  have hfree := hb.was_free 0 hn
  rwa [Nat.zero_mul, Nat.add_zero] at hfree

/-- The number of pages is stored in the first of them. -/
theorem Block.samePage (hb : Block a a' p n) (hx : Apart x p) : SamePage a.mem a'.mem x := by
  intro i hi hi'
  rw [Apart, pageSize] at hx
  rw [pageSize] at hi'
  rw [hb.mem]
  exact setLE_of_not_mem (by omega)

/-- What an allocation and a read leave alone, in the lower half of a page table. -/
structure Keeps (fuel pml4 : Nat) (a a' : Arena FrameMem) : Prop where
  tables : Tables (pageSupply fuel windowSize) 256 a' pml4
  entry : ∀ v, pml4Entry v < 256 → entryFor fuel a' pml4 v = entryFor fuel a pml4 v
  block : ∀ x, (mapper fuel).Block 256 a' pml4 x → (mapper fuel).Block 256 a pml4 x
  free : ∀ x, FreePage a'.frames x → FreePage a.frames x ∧ SamePage a.mem a'.mem x

theorem Keeps.foreign {pml4 : Nat} (hk : Keeps fuel pml4 a a')
    (hx : Foreign (pageSupply fuel windowSize) 256 a pml4 x) :
      Foreign (pageSupply fuel windowSize) 256 a' pml4 x := by
  obtain ⟨hblock, hfree⟩ := foreign_iff.mp hx
  exact foreign_iff.mpr ⟨fun y hy => hblock y (hk.block y hy), fun y hy => hfree y (hk.free y hy).1⟩

theorem keeps_of_same {pml4 : Nat} (h : Tables (pageSupply fuel windowSize) 256 a pml4)
    (hok : FramesOk windowSize a'.frames) (hfree : ∀ x, FreePage a'.frames x → FreePage a.frames x)
    (hblock : ∀ x, (mapper fuel).Block 256 a pml4 x → SamePage a.mem a'.mem x)
    (hsame : ∀ x, FreePage a'.frames x → SamePage a.mem a'.mem x) : Keeps fuel pml4 a a' := by
  obtain ⟨htables, hpte, hblocks⟩ := h.undisturbed hok hfree hblock
  exact
    { tables := htables
      entry := fun v hv => hpte _ (leaf_tablePos hv) _ (and_entryMask_lt _)
      block := hblocks
      free := fun x hx => ⟨hfree x hx, hsame x hx⟩ }

/-- A byte in a row of pages that stay the same. -/
theorem byte_of_samePage {mem mem' : Nat → UInt8}
    (h : ∀ j, j < n → SamePage mem mem' (p + j * pageSize)) (hi : i < n * pageSize) :
    mem' (p + i) = mem (p + i) := by
  have hj : i / pageSize < n := Nat.div_lt_of_lt_mul (by rwa [Nat.mul_comm])
  have hdiv : i / pageSize * pageSize ≤ i := Nat.div_mul_le_self i pageSize
  have hmod : i < i / pageSize * pageSize + pageSize := Nat.lt_div_mul_add (by decide)
  exact h _ hj (p + i) (by omega) (by omega)

/-- **An allocation** leaves the page table alone, and its pages are foreign to it. -/
theorem Block.keeps {pml4 : Nat} (hb : Block a a' p n) (hn : 0 < n)
    (h : Tables (pageSupply fuel windowSize) 256 a pml4) :
    Keeps fuel pml4 a a' ∧
      ∀ j, j < n → Foreign (pageSupply fuel windowSize) 256 a' pml4 (p + j * pageSize) := by
  have hfirst := hb.first hn
  have haligned : ∀ x, FreePage a.frames x → x % pageSize = 0 :=
    fun x hx => ((pageSupply fuel windowSize).frame h.ok hx).2.1
  have htaken : ∀ j, j < n → ∀ x, FreePage a'.frames x → Apart x (p + j * pageSize) := by
    intro j hj x hx
    refine apart_of_ne (haligned x (hb.free x hx)) (haligned _ (hb.was_free j hj)) ?_
    rintro rfl
    exact hb.taken j hj hx
  have hkeeps : Keeps fuel pml4 a a' := by
    refine keeps_of_same h hb.frames hb.free
      (fun x hx => hb.samePage (h.block_free hx hfirst)) fun x hx => hb.samePage ?_
    have hapart := htaken 0 hn x hx
    rwa [Nat.zero_mul, Nat.add_zero] at hapart
  exact ⟨hkeeps, fun j hj => foreign_iff.mpr
    ⟨fun y hy => h.block_free (hkeeps.block y hy) (hb.was_free j hj), htaken j hj⟩⟩

/-- A read into a block leaves the pages outside alone. -/
theorem samePage_readInto {f : Elf} {mem : Nat → UInt8} {off : Nat}
    (hx : ∀ j, j < n → Apart x (p + j * pageSize)) (hlen : len ≤ n * pageSize) :
    SamePage mem (readInto f mem off len p) x := by
  intro i hi hi'
  refine if_neg fun hin => ?_
  have hlt : i - p < n * pageSize := by omega
  have happart := hx ((i - p) / pageSize) (Nat.div_lt_of_lt_mul (by rwa [Nat.mul_comm]))
  rw [Apart, pageSize] at happart
  rw [pageSize] at hi'
  omega

/-- **A read** into pages that are foreign to the page table leaves it alone. -/
theorem keeps_readInto {f : Elf} {pml4 off : Nat}
    (h : Tables (pageSupply fuel windowSize) 256 a pml4)
    (hforeign : ∀ j, j < n → Foreign (pageSupply fuel windowSize) 256 a pml4 (p + j * pageSize))
    (hlen : len ≤ n * pageSize) :
    Keeps fuel pml4 a { a with mem := readInto f a.mem off len p } :=
  keeps_of_same h h.ok (fun _ hx => hx)
    (fun x hx => samePage_readInto (fun j hj => (foreign_iff.mp (hforeign j hj)).1 x hx) hlen)
    fun x hx => samePage_readInto (fun j hj => (hforeign j hj).free x hx) hlen

end Blocks

/-! ## The segments in memory -/

section Loaded

variable {f : Elf} {mem₀ : Nat → UInt8} {a a' : Arena FrameMem} {t : Phdr} {fuel pml4 v b j m : Nat}
  {done : List (Phdr × Nat)}

namespace Phdr

/-- What the program header of a user program meets: the segment lies in the file, is no longer
there than in memory, and ends a page before the end of the lower half. -/
structure Fits (t : Phdr) (f : Elf) : Prop where
  file : t.pOffset + t.pFilesz ≤ f.size
  filesz : t.pFilesz ≤ t.pMemsz
  user : t.pVaddr + t.pMemsz + pageSize ≤ 2 ^ 47

/-- The pages of a segment. -/
structure Pages (t : Phdr) : Prop where
  start : t.pageStart = t.pVaddr - t.pVaddr % pageSize
  size : sub64 t.pageEnd t.pageStart = t.pageCount * pageSize
  covers : t.pVaddr + t.pMemsz ≤ t.pageStart + t.pageCount * pageSize
  user : t.pageStart + t.pageCount * pageSize < 2 ^ 47

theorem Fits.pages (h : t.Fits f) : t.Pages := by
  have huser := h.user
  rw [pageSize] at huser
  have hstart : t.pageStart = t.pVaddr - t.pVaddr % pageSize := and_pageMask (by omega)
  have hround : u64 (t.pVaddr + t.pMemsz + 0xfff) = t.pVaddr + t.pMemsz + 0xfff :=
    Nat.mod_eq_of_lt (by omega)
  have hend : t.pageEnd = (t.pVaddr + t.pMemsz + 0xfff) -
      (t.pVaddr + t.pMemsz + 0xfff) % pageSize := by
    rw [pageEnd, hround, and_pageMask (by omega)]
  have hsub : sub64 t.pageEnd t.pageStart = t.pageEnd - t.pageStart := by
    rw [pageSize] at hstart hend
    rw [sub64, u64, u64]
    omega
  have hcount : t.pageCount * pageSize = t.pageEnd - t.pageStart := by
    rw [pageCount, hsub]
    rw [pageSize] at hstart hend ⊢
    omega
  rw [pageSize] at hstart hend
  exact
    { start := by rw [pageSize]; exact hstart
      size := hsub.trans hcount.symm
      covers := by rw [hcount]; omega
      user := by rw [hcount]; omega }

/-- The address lies in a page that is mapped for the segment. -/
def covers (t : Phdr) (v : Nat) : Bool :=
  t.pageStart ≤ v && v < t.pageStart + (t.pageCount + 1) * pageSize

end Phdr

/-- A byte of the number of pages, as `Alloc` stores it. -/
def headerByte (pages i : Nat) : UInt8 := UInt8.ofNat (pages / 256 ^ i)

/-- Byte `i` of the pages of a segment at `b`, when the memory was `mem₀` before. -/
def blockByte (f : Elf) (mem₀ : Nat → UInt8) (t : Phdr) (b i : Nat) : UInt8 :=
  if i < t.pFilesz then f.bytes (t.pOffset + i)
  else if i < 8 then headerByte (t.pageCount + 1) i
  else mem₀ (b + i)

/-- The entry for an address in the pages of a segment at `b`. -/
def segmentEntry (t : Phdr) (b v : Nat) : Nat :=
  (vir2Phy (b + (v - t.pageStart) / pageSize * pageSize) &&& pageMask) |||
    (ptePresent ||| pteWritable ||| pteUser)

/-- The last of the segments with the page of an address, with its pages. -/
def lastOn (done : List (Phdr × Nat)) (v : Nat) : Option (Phdr × Nat) :=
  done.reverse.find? fun s => s.1.covers v

/-- **The invariant of the loop**: the segments of `done` are loaded, each with its pages. -/
structure Loaded (fuel : Nat) (f : Elf) (mem₀ : Nat → UInt8) (pml4 : Nat) (a : Arena FrameMem)
    (done : List (Phdr × Nat)) : Prop where
  tables : Tables (pageSupply fuel windowSize) 256 a pml4
  foreign : ∀ s ∈ done, ∀ j, j < s.1.pageCount + 1 →
    Foreign (pageSupply fuel windowSize) 256 a pml4 (s.2 + j * pageSize)
  place : ∀ s ∈ done, s.2 % pageSize = 0 ∧ s.2 + (s.1.pageCount + 1) * pageSize ≤ 2 ^ 64
  content : ∀ s ∈ done, ∀ i, i < (s.1.pageCount + 1) * pageSize →
    a.mem (s.2 + i) = blockByte f mem₀ s.1 s.2 i
  pristine : ∀ x, FreePage a.frames x → SamePage mem₀ a.mem x
  entry : ∀ v, v < 2 ^ 47 → entryFor fuel a pml4 v =
    match lastOn done v with
    | some s => segmentEntry s.1 s.2 v
    | none => 0

theorem Phdr.covers_iff : t.covers v = true ↔
    t.pageStart ≤ v ∧ v < t.pageStart + (t.pageCount + 1) * pageSize := by
  rw [covers, Bool.and_eq_true, decide_eq_true_iff, decide_eq_true_iff]

theorem lastOn_append (done : List (Phdr × Nat)) (s : Phdr × Nat) (v : Nat) :
    lastOn (done ++ [s]) v = if s.1.covers v then some s else lastOn done v := by
  rw [lastOn, List.reverse_append, List.reverse_singleton, List.singleton_append, List.find?_cons]
  cases s.1.covers v <;> rfl

/-- The page of call `j`. -/
theorem Phdr.Pages.call (ht : t.Pages) (hj : j < t.pageCount + 1) (hv : v < 2 ^ 47) :
    pageNumber (u64 (t.pageStart + j * 0x1000)) = pageNumber v ↔
      t.pageStart ≤ v ∧ (v - t.pageStart) / pageSize = j := by
  have hstart := ht.start
  have huser := ht.user
  have hle : j * 0x1000 ≤ t.pageCount * 0x1000 := Nat.mul_le_mul_right _ (by omega)
  have hlt : t.pageStart + j * 0x1000 < 2 ^ 47 :=
    Nat.lt_of_le_of_lt (Nat.add_le_add_left hle _) huser
  have hvirt : u64 (t.pageStart + j * 0x1000) = t.pageStart + j * 0x1000 :=
    Nat.mod_eq_of_lt (Nat.lt_trans hlt (by decide))
  have hmod : t.pageStart % pageSize = 0 := by
    rw [hstart, pageSize]
    omega
  clear hstart huser hle
  rw [pageSize] at hmod
  rw [hvirt, pageNumber, pageNumber, pageSize]
  omega

/-- The last of the calls for a segment that maps the page of an address. -/
theorem Phdr.Pages.last_calls (ht : t.Pages) (hb : b + (t.pageCount + 1) * pageSize ≤ 2 ^ 64)
    (hv : v < 2 ^ 47) :
    (match MapCall.last (fun c => pageNumber c.virt = pageNumber v) (t.calls b) with
      | some c => some c.entry
      | none => none) = if t.covers v then some (segmentEntry t b v) else none := by
  cases hlast : MapCall.last (fun c => pageNumber c.virt = pageNumber v) (t.calls b) with
  | none =>
      rw [if_neg]
      intro hcovers
      obtain ⟨hle, hlt⟩ := covers_iff.mp hcovers
      have hj : (v - t.pageStart) / pageSize < t.pageCount + 1 :=
        Nat.div_lt_of_lt_mul (by rw [Nat.mul_comm]; omega)
      have hnone := List.find?_eq_none.mp hlast _
        (List.mem_reverse.mpr (List.mem_map.mpr ⟨_, List.mem_range.mpr hj, rfl⟩))
      exact hnone (decide_eq_true ((ht.call hj hv).mpr ⟨hle, rfl⟩))
  | some c =>
      obtain ⟨j, hj, rfl⟩ := List.mem_map.mp
        (List.mem_reverse.mp (List.mem_of_find?_eq_some hlast))
      have hj' := List.mem_range.mp hj
      have hfind : (t.calls b).reverse.find? (fun c => decide (pageNumber c.virt = pageNumber v)) =
        some _ := hlast
      obtain ⟨hle, hdiv⟩ := (ht.call hj' hv).mp (by simpa using List.find?_some hfind)
      have hmul : j * pageSize ≤ t.pageCount * pageSize := Nat.mul_le_mul_right _ (by omega)
      have hcovers : t.covers v = true := by
        refine covers_iff.mpr ⟨hle, ?_⟩
        rw [pageSize] at hdiv hmul ⊢
        omega
      have haddr : u64 (b + j * 0x1000) = b + j * pageSize := by
        refine Nat.mod_eq_of_lt ?_
        rw [pageSize] at hb hmul
        omega
      rw [if_pos hcovers, segmentEntry, hdiv]
      show some ((vir2Phy (u64 (b + j * 0x1000)) &&& pageMask) ||| _) = _
      rw [haddr]

/-- The calls for a segment meet what is asked of calls. -/
theorem Phdr.Pages.calls_low (ht : t.Pages) :
    ∀ c ∈ t.calls b, c.flags < pageSize ∧ pml4Entry c.virt < 256 := by
  intro c hc
  obtain ⟨j, hj, rfl⟩ := List.mem_map.mp hc
  have hj' := List.mem_range.mp hj
  have huser := ht.user
  have hle : j * 0x1000 ≤ t.pageCount * 0x1000 := Nat.mul_le_mul_right _ (by omega)
  have hlt : t.pageStart + j * 0x1000 < 2 ^ 47 :=
    Nat.lt_of_le_of_lt (Nat.add_le_add_left hle _) huser
  constructor
  · show ptePresent ||| pteWritable ||| pteUser < pageSize
    decide
  · show pml4Entry (u64 (t.pageStart + j * 0x1000)) < 256
    rw [pml4Entry_eq, u64]
    omega

theorem pml4Entry_lt_of_lt (hv : v < 2 ^ 47) : pml4Entry v < 256 := by
  rw [pml4Entry_eq]
  omega

/-- What a step keeps of the segments that are loaded. -/
theorem Loaded.keeps (h : Loaded fuel f mem₀ pml4 a done) (hk : Keeps fuel pml4 a a')
    (hsame : ∀ s ∈ done, ∀ j, j < s.1.pageCount + 1 →
      SamePage a.mem a'.mem (s.2 + j * pageSize)) : Loaded fuel f mem₀ pml4 a' done where
  tables := hk.tables
  foreign s hs j hj := hk.foreign (h.foreign s hs j hj)
  place := h.place
  content s hs i hi := (byte_of_samePage (hsame s hs) hi).trans (h.content s hs i hi)
  pristine x hx := (h.pristine x (hk.free x hx).1).trans (hk.free x hx).2
  entry v hv := (hk.entry v (pml4Entry_lt_of_lt hv)).trans (h.entry v hv)

/-- The entries after the calls of `Map` for a segment. -/
theorem Loaded.entry_of_mapsAll (h : Loaded fuel f mem₀ pml4 a done)
    (hmaps : MapsAll fuel windowSize 256 a a' pml4 (t.calls b)) (ht : t.Pages)
    (hb : b + (t.pageCount + 1) * pageSize ≤ 2 ^ 64) (hv : v < 2 ^ 47) :
    entryFor fuel a' pml4 v =
      match lastOn (done ++ [(t, b)]) v with
      | some s => segmentEntry s.1 s.2 v
      | none => 0 := by
  rw [hmaps.entry v (pml4Entry_lt_of_lt hv), lastOn_append]
  have hlast := ht.last_calls hb hv
  cases hmatch : MapCall.last (fun c => pageNumber c.virt = pageNumber v) (t.calls b) with
  | some c =>
      rw [hmatch] at hlast
      by_cases hcovers : t.covers v = true
      · rw [if_pos hcovers, Option.some.injEq] at hlast
        show c.entry = match (if t.covers v = true then some (t, b) else lastOn done v) with
          | some s => segmentEntry s.1 s.2 v
          | none => 0
        rw [if_pos hcovers]
        exact hlast
      · rw [if_neg hcovers] at hlast
        cases hlast
  | none =>
      rw [hmatch] at hlast
      by_cases hcovers : t.covers v = true
      · rw [if_pos hcovers] at hlast
        cases hlast
      · show entryFor fuel a pml4 v = match (if t.covers v = true then some (t, b)
            else lastOn done v) with
          | some s => segmentEntry s.1 s.2 v
          | none => 0
        rw [if_neg hcovers]
        exact h.entry v hv

/-- **The pages of a segment are mapped and filled**, or there are too few frames for tables. -/
theorem Loaded.fill {a₁ : Arena FrameMem} (h : Loaded fuel f mem₀ pml4 a done) (ht : t.Fits f)
    (hb : Block a a₁ b (t.pageCount + 1)) :
    Ends (do mapAll fuel pml4 (t.calls b); readSegment f t b) a₁
      (fun _ => stock fuel a₁.frames < 3 * (t.pageCount + 1))
      fun _ a' => Loaded fuel f mem₀ pml4 a' (done ++ [(t, b)]) := by
  have hp := ht.pages
  obtain ⟨hk₁, hnew₁⟩ := hb.keeps (Nat.succ_pos _) h.tables
  have h₁ : Loaded fuel f mem₀ pml4 a₁ done := h.keeps hk₁ fun s hs j hj =>
    hb.samePage ((h.foreign s hs j hj).free b (hb.first (Nat.succ_pos _))).symm
  have hlength : (t.calls b).length = t.pageCount + 1 := by
    rw [Phdr.calls, List.length_map, List.length_range]
  refine Ends.bind ((mapAll_ends h₁.tables hp.calls_low).mono_error fun _ hfail => ?_) ?_
  · rwa [hlength] at hfail
  intro _ a₂ hmaps
  refine Ends.of_ok (if_neg hb.ne) ?_
  have hfits : t.pFilesz ≤ (t.pageCount + 1) * pageSize := by
    have hcovers := hp.covers
    have hstart := hp.start
    have hfilesz := ht.filesz
    rw [Nat.add_mul]
    omega
  have hnew₂ : ∀ j, j < t.pageCount + 1 →
      Foreign (pageSupply fuel windowSize) 256 a₂ pml4 (b + j * pageSize) :=
    fun j hj => (hmaps.foreign _ (hnew₁ j hj)).1
  have hk₃ : Keeps fuel pml4 a₂ { a₂ with mem := readInto f a₂.mem t.pOffset t.pFilesz b } :=
    keeps_readInto hmaps.tables hnew₂ hfits
  refine
    { tables := hk₃.tables
      foreign := fun s hs j hj => hk₃.foreign ?_
      place := fun s hs => ?_
      content := fun s hs i hi => ?_
      pristine := fun x hx => ?_
      entry := fun v hv => (hk₃.entry v (pml4Entry_lt_of_lt hv)).trans
        (h₁.entry_of_mapsAll hmaps hp hb.bound hv) }
  · rcases List.mem_append.mp hs with hs | hs
    · exact (hmaps.foreign _ (h₁.foreign s hs j hj)).1
    · rw [List.mem_singleton.mp hs] at hj ⊢
      exact hnew₂ j hj
  · rcases List.mem_append.mp hs with hs | hs
    · exact h.place s hs
    · rw [List.mem_singleton.mp hs]
      exact ⟨hb.aligned, hb.bound⟩
  · rcases List.mem_append.mp hs with hs | hs
    · -- the pages of the segments before
      have hsame : ∀ j, j < s.1.pageCount + 1 → SamePage a₁.mem
          (readInto f a₂.mem t.pOffset t.pFilesz b) (s.2 + j * pageSize) := by
        intro j hj
        refine (hmaps.foreign _ (h₁.foreign s hs j hj)).2.trans (samePage_readInto ?_ hfits)
        exact fun i hi => ((h.foreign s hs j hj).free _ (hb.was_free i hi)).symm
      exact (byte_of_samePage hsame hi).trans (h₁.content s hs i hi)
    · -- the pages of this segment
      rw [List.mem_singleton.mp hs] at hi ⊢
      have hold : a₂.mem (b + i) = a₁.mem (b + i) :=
        byte_of_samePage (fun j hj => (hmaps.foreign _ (hnew₁ j hj)).2) hi
      have hpristine : a.mem (b + i) = mem₀ (b + i) :=
        byte_of_samePage (fun j hj => h.pristine _ (hb.was_free j hj)) hi
      have hmin : min t.pFilesz (f.size - t.pOffset) = t.pFilesz := by
        have hfile := ht.file
        omega
      have hadd : b + i - b = i := by omega
      show readInto f a₂.mem t.pOffset t.pFilesz b (b + i) = blockByte f mem₀ t b i
      rw [readInto, blockByte, hmin, hadd]
      by_cases hread : i < t.pFilesz
      · rw [if_pos hread, if_pos (by omega)]
      · rw [if_neg hread, if_neg (by omega), hold, hb.mem]
        by_cases hheader : i < 8
        · rw [if_pos hheader, setLE_of_mem hheader]
          rfl
        · rw [if_neg hheader, setLE_of_not_mem (by omega), hpristine]
  · exact (h₁.pristine x (hmaps.free x (hk₃.free x hx).1).1).trans
      ((hmaps.free x (hk₃.free x hx).1).2.trans (hk₃.free x hx).2)

/-- **A segment is loaded**, or `Alloc` or `AllocPages` returns a null pointer. -/
theorem Loaded.load (h : Loaded fuel f mem₀ pml4 a done) (ht : t.Fits f) :
    Ends (loadSegment fuel f pml4 t) a (fun _ => True)
      fun _ a' => ∃ b, Loaded fuel f mem₀ pml4 a' (done ++ [(t, b)]) := by
  have huser := ht.pages.user
  have hcount : t.pageCount < 2 ^ 40 := by
    rw [pageSize] at huser
    omega
  have hpages : Heap.pagesFor (sub64 t.pageEnd t.pageStart) = t.pageCount + 1 := by
    rw [ht.pages.size, pagesFor_mul hcount]
  refine Ends.bind (allocBlock_ends h.tables.ok hpages (Nat.succ_pos _) (by omega)) ?_
  rintro b a₁ (rfl | hb)
  · -- nothing is read to a null pointer
    exact Ends.bind Ends.trivial fun _ a₂ _ => True.intro
  · exact ((h.fill ht hb).mono_error fun _ _ => True.intro).mono fun _ a₂ h₂ => ⟨b, h₂⟩

theorem samePage_copyKernel {mem : Nat → UInt8} {kernelPml4 x : Nat} (h : Apart x pml4) :
    SamePage mem (copyKernel (zeroPage mem pml4) pml4 kernelPml4) x := by
  refine (samePage_zeroPage h).trans fun i hi hi' => if_neg ?_
  rw [Apart, pageSize] at h
  rw [pageSize] at hi'
  omega

/-- The kernel's half is copied behind the cleared entries. -/
theorem readEntry_copyKernel {mem : Nat → UInt8} {kernelPml4 r : Nat} (hr : r < 256) :
    readEntry (copyKernel (zeroPage mem pml4) pml4 kernelPml4) pml4 r = 0 := by
  refine getLE_zero fun i hi hi' => ?_
  rw [copyKernel, if_neg (by omega), zeroPage, pageSize, if_pos (by omega)]

/-- **The new page table** has no tables in the lower half. -/
theorem userTable_ends {kernelPml4 : Nat} (h : FramesOk windowSize a.frames) :
    Ends (userTable fuel kernelPml4) a (fun _ => True)
      fun pml4 a' => Loaded fuel f a.mem pml4 a' [] := by
  refine Ends.bind (allocBlock_ends h (n := 2) (by decide) (by decide) (by decide)) ?_
  rintro pml4 a₁ (rfl | hb)
  · exact True.intro
  refine Ends.of_ok (if_neg hb.ne) ?_
  have htaken : ∀ x, FreePage a₁.frames x → Apart pml4 x := by
    intro x hx
    refine apart_of_ne hb.aligned (h.page_of_free (hb.free x hx)) ?_
    rintro rfl
    have hnot := hb.taken 0 (by decide)
    rw [Nat.zero_mul, Nat.add_zero] at hnot
    exact hnot hx
  generalize hmem : copyKernel (zeroPage a₁.mem pml4) pml4 kernelPml4 = mem
  obtain ⟨hzero, htables⟩ := Tables.of_empty (S := pageSupply fuel windowSize) (n := 256)
    (a := ⟨a₁.frames, mem⟩) hb.frames (by decide) hb.ne htaken fun r hr => by
      rw [← hmem]
      exact readEntry_copyKernel hr
  exact
    { tables := htables
      foreign := nofun
      place := nofun
      content := nofun
      pristine := fun x hx => (hb.samePage (htaken x hx).symm).trans
        (hmem ▸ samePage_copyKernel (htaken x hx).symm)
      entry := fun v hv => if_pos (hzero _ (leaf_tablePos (pml4Entry_lt_of_lt hv)).pos) }

/-- **The loop** loads the segments, or an allocation fails. -/
theorem Loaded.loadAll {ts : List Phdr} (h : Loaded fuel f mem₀ pml4 a done)
    (hts : ∀ t ∈ ts, t.pType = ptLoad → t.Fits f) :
    Ends (loadAll fuel f pml4 ts) a (fun _ => True) fun _ a' =>
      ∃ more, more.map Prod.fst = ts.filter (fun t => t.pType = ptLoad) ∧
        Loaded fuel f mem₀ pml4 a' (done ++ more) := by
  induction ts generalizing a done with
  | nil => exact Ends.pure ⟨[], rfl, by rwa [List.append_nil]⟩
  | cons t ts ih =>
      have hrest : ∀ s ∈ ts, s.pType = ptLoad → s.Fits f :=
        fun s hs => hts s (List.mem_cons_of_mem _ hs)
      by_cases hload : t.pType = ptLoad
      · refine Ends.bind (P := fun _ a' => ∃ b, Loaded fuel f mem₀ pml4 a' (done ++ [(t, b)])) ?_ ?_
        · rw [loadHeader, if_pos hload]
          exact h.load (hts t List.mem_cons_self hload)
        rintro _ a₁ ⟨b, h₁⟩
        refine (ih h₁ hrest).mono ?_
        rintro _ a₂ ⟨more, hmore, h₂⟩
        refine ⟨(t, b) :: more, ?_, ?_⟩
        · rw [List.map_cons, hmore, List.filter_cons, if_pos (decide_eq_true hload)]
        · rwa [List.append_assoc, List.singleton_append] at h₂
      · refine Ends.bind (P := fun _ a' => a' = a) ?_ ?_
        · rw [loadHeader, if_neg hload]
          exact Ends.pure rfl
        rintro _ _ rfl
        refine (ih h hrest).mono ?_
        rintro _ a₂ ⟨more, hmore, h₂⟩
        refine ⟨more, ?_, h₂⟩
        rw [hmore, List.filter_cons, if_neg (by rwa [decide_eq_true_iff])]

/-- What is promised about the file: a program for this machine whose headers lie in it, and
segments that fit. -/
structure Loadable (f : Elf) : Prop where
  magic : getLE f.bytes 0 4 = 0x464c457f
  type : f.eType = etExec
  machine : f.eMachine = emX86_64
  phentsize : f.ePhentsize = 56
  headers : f.ePhoff + f.ePhnum * 56 ≤ f.size
  segments : ∀ t ∈ f.loads, t.Fits f

/-- **`Execve`** has loaded the segments at the end of its loop. -/
theorem loaded_of_execve {frames : FrameMem} {mem : Nat → UInt8} {kernelPml4 : Nat}
    (hf : Loadable f) (hframes : FramesOk windowSize frames)
    (hrun : execve fuel kernelPml4 f ⟨frames, mem⟩ = .ok (some pml4, a)) :
    ∃ done, done.map Prod.fst = f.loads ∧ Loaded fuel f mem pml4 a done := by
  have hends : Ends (execve fuel kernelPml4 f) ⟨frames, mem⟩ (fun _ => True) fun r a =>
      ∀ pml4, r = some pml4 → ∃ done, done.map Prod.fst = f.loads ∧
        Loaded fuel f mem pml4 a done := by
    rw [execve, if_neg (not_not.mpr hf.magic), if_neg (not_not.mpr hf.type),
      if_neg (not_not.mpr hf.machine)]
    have htable : Ends (userTable fuel kernelPml4) ⟨frames, mem⟩ _ _ :=
      userTable_ends (f := f) hframes
    refine Ends.bind htable fun pml4 a₁ h₁ => ?_
    refine Ends.bind (h₁.loadAll fun t ht hload => hf.segments t ?_) ?_
    · exact List.mem_filter.mpr ⟨ht, decide_eq_true hload⟩
    rintro _ a₂ ⟨more, hmore, h₂⟩
    refine Ends.pure fun pml4' heq => ?_
    injection heq with heq
    rw [← heq]
    exact ⟨more, hmore, h₂⟩
  exact hends.of_result hrun pml4 rfl

/-! ## What the program finds -/

/-- The byte at a virtual address. -/
def virtByte (fuel : Nat) (a : Arena FrameMem) (pml4 virt : Nat) : Option UInt8 :=
  let e := entryFor fuel a pml4 virt
  if e &&& ptePresent = 0 then none
  else some (a.mem (phy2Vir ((e &&& pageMask) + (virt &&& 0xfff))))

/-- The address in an entry for a segment, and the address of the byte. -/
theorem segmentEntry_addr (ht : t.Pages) (hb : b % pageSize = 0)
    (hbound : b + (t.pageCount + 1) * pageSize ≤ 2 ^ 64) (hv : t.covers v = true) :
    phy2Vir ((segmentEntry t b v &&& pageMask) + (v &&& 0xfff)) = b + (v - t.pageStart) := by
  obtain ⟨hle, hlt⟩ := Phdr.covers_iff.mp hv
  have hstart := ht.start
  have hlow : ptePresent ||| pteWritable ||| pteUser < pageSize := by decide
  have hoff : v &&& 0xfff = v % pageSize := Nat.and_two_pow_sub_one_eq_mod v 12
  rw [segmentEntry, entry_and_pageMask hlow, hoff]
  -- the page of the address, and the place in it
  have hplace : (v - t.pageStart) % pageSize = v % pageSize := by
    rw [pageSize] at hstart ⊢
    omega
  have hdiv := Nat.div_add_mod' (v - t.pageStart) pageSize
  rw [hplace] at hdiv
  generalize hx : b + (v - t.pageStart) / pageSize * pageSize = x
  have hxmod : x % pageSize = 0 := by
    rw [← hx, Nat.add_mul_mod_self_right, hb]
  have hsum : x + v % pageSize = b + (v - t.pageStart) := by omega
  have hxlt : x + v % pageSize < 2 ^ 64 := by omega
  have hmask : vir2Phy x &&& pageMask = vir2Phy x := by
    have hphys : vir2Phy x < 2 ^ 64 := Nat.mod_lt _ (by decide)
    have hmod : vir2Phy x % pageSize = 0 := by
      rw [pageSize] at hxmod ⊢
      rw [vir2Phy, sub64, u64, u64, identityBase]
      omega
    rw [and_pageMask hphys, hmod, Nat.sub_zero]
  rw [hmask, ← hsum, phy2Vir, vir2Phy, sub64, u64, u64, u64, identityBase]
  omega

/-- **What the loop has built.**  The byte at an address comes from the pages of the last segment
that has its page. -/
theorem virtByte_of_loaded (h : Loaded fuel f mem₀ pml4 a done) (hdone : ∀ s ∈ done, s.1.Pages)
    (hv : v < 2 ^ 47) : virtByte fuel a pml4 v = (lastOn done v).map fun s =>
      blockByte f mem₀ s.1 s.2 (v - s.1.pageStart) := by
  rw [virtByte, h.entry v hv]
  cases hlast : lastOn done v with
  | none =>
      show (if 0 &&& ptePresent = 0 then none else _) = none
      rw [Nat.zero_and, if_pos rfl]
  | some s =>
      have hs : s ∈ done := List.mem_reverse.mp (List.mem_of_find?_eq_some hlast)
      have hfind : done.reverse.find? (fun s => s.1.covers v) = some s := hlast
      have hcovers : s.1.covers v = true := by simpa using List.find?_some hfind
      obtain ⟨haligned, hbound⟩ := h.place s hs
      have hpresent : segmentEntry s.1 s.2 v &&& ptePresent ≠ 0 := by
        rw [segmentEntry, entry_and_present]
        decide
      show (if segmentEntry s.1 s.2 v &&& ptePresent = 0 then none else some (a.mem (phy2Vir
        ((segmentEntry s.1 s.2 v &&& pageMask) + (v &&& 0xfff))))) = some _
      rw [if_neg hpresent, segmentEntry_addr (hdone s hs) haligned hbound hcovers]
      obtain ⟨hle, hlt⟩ := Phdr.covers_iff.mp hcovers
      rw [h.content s hs _ (by omega)]

/-- The byte that a program expects at place `k` of a segment. -/
def segmentByte (f : Elf) (t : Phdr) (k : Nat) : UInt8 :=
  if k < t.pFilesz then f.bytes (t.pOffset + k) else 0

/-- **What loading is for**: each segment is where its header says. -/
def Right (fuel : Nat) (f : Elf) (a : Arena FrameMem) (pml4 : Nat) : Prop :=
  ∀ t ∈ f.loads, ∀ k, k < t.pMemsz →
    virtByte fuel a pml4 (t.pVaddr + k) = some (segmentByte f t k)

/-- The last segment that has the page of an address. -/
def lastSegment (f : Elf) (v : Nat) : Option Phdr := f.loads.reverse.find? fun t => t.covers v

/-- Place `k` of segment `t` gets the right byte whatever the pages held before: from the file,
or from the number of pages that `Alloc` stores. -/
def Served (f : Elf) (t : Phdr) (k : Nat) : Prop :=
  ∃ s, lastSegment f (t.pVaddr + k) = some s ∧
    ((t.pVaddr + k - s.pageStart < s.pFilesz ∧
        f.bytes (s.pOffset + (t.pVaddr + k - s.pageStart)) = segmentByte f t k) ∨
      (s.pFilesz ≤ t.pVaddr + k - s.pageStart ∧ t.pVaddr + k - s.pageStart < 8 ∧
        headerByte (s.pageCount + 1) (t.pVaddr + k - s.pageStart) = segmentByte f t k))

theorem lastOn_map (hdone : done.map Prod.fst = f.loads) :
    (lastOn done v).map Prod.fst = lastSegment f v := by
  rw [lastSegment, ← hdone, ← List.map_reverse, List.find?_map]
  rfl

/-- An address of a segment lies in its pages. -/
theorem Phdr.Fits.covers_add {k : Nat} (ht : t.Fits f) (hk : k < t.pMemsz) :
    t.covers (t.pVaddr + k) = true ∧ t.pVaddr + k < 2 ^ 47 := by
  have hp := ht.pages
  have hstart := hp.start
  have hcovers := hp.covers
  have huser := hp.user
  refine ⟨covers_iff.mpr ⟨by omega, ?_⟩, by omega⟩
  rw [Nat.add_mul]
  omega

/-- The byte that a segment gets, when its place in the pages is served. -/
theorem byte_of_loaded {k : Nat} (hf : Loadable f) (h : Loaded fuel f mem₀ pml4 a done)
    (hdone : done.map Prod.fst = f.loads) (ht : t ∈ f.loads) (hk : k < t.pMemsz) :
    ∃ s b, lastSegment f (t.pVaddr + k) = some s ∧ virtByte fuel a pml4 (t.pVaddr + k) =
      some (blockByte f mem₀ s b (t.pVaddr + k - s.pageStart)) := by
  have hpages : ∀ s ∈ done, s.1.Pages := by
    intro s hs
    refine (hf.segments s.1 ?_).pages
    rw [← hdone]
    exact List.mem_map_of_mem hs
  obtain ⟨hcovers, hlt⟩ := (hf.segments t ht).covers_add hk
  have hlast := lastOn_map (v := t.pVaddr + k) hdone
  have hbyte := virtByte_of_loaded h hpages hlt
  cases hfind : lastOn done (t.pVaddr + k) with
  | none =>
      rw [hfind, Option.map_none] at hlast
      have hnone := List.find?_eq_none.mp hlast.symm t (List.mem_reverse.mpr ht)
      exact absurd hcovers hnone
  | some s =>
      rw [hfind, Option.map_some] at hlast hbyte
      exact ⟨s.1, s.2, hlast.symm, hbyte⟩

/-- Segments that begin at the border of a page and have no part that is not in the file are
served, when they lie one behind the other. -/
theorem served_of_aligned {k : Nat} (hf : Loadable f)
    (hsorted : f.loads.Pairwise fun s t => s.pVaddr + s.pMemsz ≤ t.pVaddr)
    (haligned : ∀ t ∈ f.loads, t.pVaddr % pageSize = 0 ∧ t.pFilesz = t.pMemsz)
    (ht : t ∈ f.loads) (hk : k < t.pMemsz) : Served f t k := by
  have hcovers := ((hf.segments t ht).covers_add hk).1
  have hmem : t ∈ f.loads.reverse := List.mem_reverse.mpr ht
  have hstart : ∀ s ∈ f.loads, s.pageStart = s.pVaddr := by
    intro s hs
    rw [(hf.segments s hs).pages.start, (haligned s hs).1, Nat.sub_zero]
  cases hlast : lastSegment f (t.pVaddr + k) with
  | none => exact absurd hcovers (List.find?_eq_none.mp hlast t hmem)
  | some s =>
      obtain ⟨hs, as, bs, hsplit, hnone⟩ := List.find?_eq_some_iff_append.mp hlast
      have hst : s = t := by
        rw [hsplit, List.mem_append, List.mem_cons] at hmem
        rcases hmem with hmem | rfl | hmem
        · have hnot := hnone t hmem
          rw [hcovers] at hnot
          cases hnot
        · rfl
        · -- a later segment begins behind the address
          have hrev := List.pairwise_reverse.mpr hsorted
          rw [hsplit, List.pairwise_append, List.pairwise_cons] at hrev
          have hle := hrev.2.1.1 t hmem
          have hsmem : s ∈ f.loads := by
            rw [← List.mem_reverse, hsplit]
            exact List.mem_append_right as List.mem_cons_self
          have hcov := (Phdr.covers_iff.mp hs).1
          rw [hstart s hsmem] at hcov
          omega
      subst hst
      have hfilesz := (haligned s ht).2
      have hplace : s.pVaddr + k - s.pageStart = k := by
        rw [hstart s ht]
        omega
      refine ⟨s, hlast, .inl ?_⟩
      rw [hplace, segmentByte, if_pos (by omega)]
      exact ⟨by omega, rfl⟩

/-- A segment that no other covers at its end, and that ends behind the number of pages, is served
there only if it begins at the border of a page and has no part that is not in the file. -/
theorem aligned_of_served (hf : Loadable f) (ht : t ∈ f.loads) (hpos : 0 < t.pMemsz)
    (hlast : lastSegment f (t.pVaddr + (t.pMemsz - 1)) = some t)
    (hend : t.pageStart + 8 < t.pVaddr + t.pMemsz) (h : Served f t (t.pMemsz - 1)) :
    t.pVaddr % pageSize = 0 ∧ t.pFilesz = t.pMemsz := by
  obtain ⟨s, hs, hplace⟩ := h
  rw [hlast, Option.some.injEq] at hs
  subst hs
  have hfilesz := (hf.segments t ht).filesz
  have hstart := (hf.segments t ht).pages.start
  rw [pageSize] at hstart ⊢
  rcases hplace with ⟨hread, -⟩ | ⟨-, hheader, -⟩
  · omega
  · omega

/-- **Which programs are loaded right.**  Whatever the memory held before, the loop puts every
segment where its header says, exactly when each place of each segment is served. -/
theorem right_iff_served {frames : FrameMem} {kernelPml4 : Nat} (hf : Loadable f)
    (hframes : FramesOk windowSize frames)
    (hreturns : ∀ mem, ∃ pml4 a, execve fuel kernelPml4 f ⟨frames, mem⟩ = .ok (some pml4, a)) :
    (∀ mem pml4 a, execve fuel kernelPml4 f ⟨frames, mem⟩ = .ok (some pml4, a) →
      Right fuel f a pml4) ↔ ∀ t ∈ f.loads, ∀ k, k < t.pMemsz → Served f t k := by
  constructor
  · intro hright t ht k hk
    -- memory that holds a wrong byte everywhere
    let wrong : UInt8 := if segmentByte f t k = 0 then 1 else 0
    have hwrong : wrong ≠ segmentByte f t k := by
      show (if segmentByte f t k = 0 then 1 else 0) ≠ segmentByte f t k
      split
      · next hzero =>
        rw [hzero]
        decide
      · next hne => exact Ne.symm hne
    obtain ⟨pml4, a, hrun⟩ := hreturns fun _ => wrong
    obtain ⟨done, hdone, hloaded⟩ := loaded_of_execve hf hframes hrun
    obtain ⟨s, b, hlast, hbyte⟩ := byte_of_loaded hf hloaded hdone ht hk
    rw [hright _ pml4 a hrun t ht k hk, Option.some.injEq, blockByte] at hbyte
    refine ⟨s, hlast, ?_⟩
    split at hbyte
    · next hread => exact .inl ⟨hread, hbyte.symm⟩
    · next hread =>
      split at hbyte
      · next hheader => exact .inr ⟨Nat.le_of_not_lt hread, hheader, hbyte.symm⟩
      · exact absurd hbyte.symm hwrong
  · intro hserved mem pml4 a hrun t ht k hk
    obtain ⟨done, hdone, hloaded⟩ := loaded_of_execve hf hframes hrun
    obtain ⟨s, b, hlast, hbyte⟩ := byte_of_loaded hf hloaded hdone ht hk
    obtain ⟨s', hlast', hs'⟩ := hserved t ht k hk
    rw [hlast, Option.some.injEq] at hlast'
    rw [← hlast'] at hs'
    rw [hbyte, blockByte]
    rcases hs' with ⟨hread, heq⟩ | ⟨hread, hheader, heq⟩
    · rw [if_pos hread, heq]
    · rw [if_neg (Nat.not_lt.mpr hread), if_pos hheader, heq]

end Loaded

/-! ## A small program -/

/-- A program header for 16 bytes from place `0x78` of the file on, at `0x400078`, and 16 more
bytes in memory. -/
def smallPhdr : Phdr where
  pType := ptLoad
  pOffset := 0x78
  pVaddr := 0x400078
  pFilesz := 16
  pMemsz := 32

/-- A file with this header, in which the 16 bytes are `0x90`. -/
def smallElf : Elf where
  size := 0x88
  bytes := fun i => [
    0x7f, 0x45, 0x4c, 0x46, 2, 1, 1, 0, 0, 0, 0, 0, 0, 0, 0, 0, 2, 0, 0x3e, 0, 1, 0, 0, 0,
    0x78, 0, 0x40, 0, 0, 0, 0, 0, 0x40, 0, 0, 0, 0, 0, 0, 0, 0, 0, 0, 0, 0, 0, 0, 0,
    0, 0, 0, 0, 0x40, 0, 0x38, 0, 1, 0, 0x40, 0, 0, 0, 0, 0,
    1, 0, 0, 0, 7, 0, 0, 0, 0x78, 0, 0, 0, 0, 0, 0, 0, 0x78, 0, 0x40, 0, 0, 0, 0, 0,
    0x78, 0, 0x40, 0, 0, 0, 0, 0, 0x10, 0, 0, 0, 0, 0, 0, 0, 0x20, 0, 0, 0, 0, 0, 0, 0,
    0, 0x10, 0, 0, 0, 0, 0, 0, 0x90, 0x90, 0x90, 0x90, 0x90, 0x90, 0x90, 0x90,
    0x90, 0x90, 0x90, 0x90, 0x90, 0x90, 0x90, 0x90].getD i 0

theorem smallElf_loads : smallElf.phdrs = [smallPhdr] ∧ smallElf.loads = [smallPhdr] := by decide

theorem smallPhdr_fits : smallPhdr.Fits smallElf := ⟨by decide, by decide, by decide⟩

theorem smallElf_loadable : Loadable smallElf where
  magic := by decide
  type := by decide
  machine := by decide
  phentsize := by decide
  headers := by decide
  segments := by
    intro t ht
    rw [smallElf_loads.2] at ht
    rw [List.mem_singleton.mp ht]
    exact smallPhdr_fits

/-- Sixteen free frames from the physical address `0x300000` on. -/
def sixteenFrames : FrameMem where
  totalPages := 16
  freePages := 16
  bitmap := fun _ => 0
  flag := fun _ => pageFree
  count := fun _ => 0
  startUsable := 0x300000

theorem sixteenFrames_ok : FramesOk windowSize sixteenFrames :=
  ⟨by decide, by decide, by decide, by decide⟩

/-- The pages for the root and for the segment, and what is left for tables. -/
theorem sixteenFrames_alloc :
    (do
      let root ← allocPages 17 sixteenFrames 2
      let segment ← allocPages 17 root.1 2
      return (root.2, segment.2, stock 17 segment.1)) =
    (.ok (phy2Vir 0x300000, phy2Vir 0x302000, 12) : Except Fault (Nat × Nat × Nat)) := by
  decide

/-- The program is loaded, whatever the memory holds. -/
theorem execve_smallElf (mem : Nat → UInt8) :
    ∃ pml4 a, execve 17 0 smallElf ⟨sixteenFrames, mem⟩ = .ok (some pml4, a) := by
  obtain ⟨⟨frame₁, pml4⟩, halloc₁, h⟩ := bind_eq_ok_iff.mp sixteenFrames_alloc
  obtain ⟨⟨frame₂, b⟩, halloc₂, h⟩ := bind_eq_ok_iff.mp h
  injection h with h
  simp only [Prod.mk.injEq] at h halloc₂
  obtain ⟨hroot, hb, hstock⟩ := h
  have hroot_ne : pml4 ≠ 0 := by
    rw [hroot]
    decide
  have hb_ne : b ≠ 0 := by
    rw [hb]
    decide
  -- the root
  have hroot_run : allocBlock 17 (512 * 8) ⟨sixteenFrames, mem⟩ = _ :=
    allocBlock_of_allocPages (by decide) halloc₁ hroot_ne
  obtain ⟨a₁, rfl, huser⟩ : ∃ a₁, a₁.frames = frame₁ ∧
      userTable 17 0 ⟨sixteenFrames, mem⟩ = .ok (pml4, a₁) :=
    ⟨_, rfl, (bind_apply_of_ok hroot_run).trans (if_neg hroot_ne)⟩
  have hloaded := (userTable_ends (f := smallElf) sixteenFrames_ok).of_result huser
  -- the segment
  have hpages : Heap.pagesFor (sub64 smallPhdr.pageEnd smallPhdr.pageStart) = 2 := by decide
  have hsegment : allocBlock 17 (sub64 smallPhdr.pageEnd smallPhdr.pageStart) a₁ = _ :=
    allocBlock_of_allocPages hpages halloc₂ hb_ne
  have hblock := ((allocBlock_ends hloaded.tables.ok hpages (by decide) (by decide)).of_result
    hsegment).resolve_left hb_ne
  have hlow : ¬ stock 17 frame₂ < 3 * (smallPhdr.pageCount + 1) := by
    rw [hstock]
    decide
  obtain ⟨_, a, hfill, -⟩ := ((hloaded.fill smallPhdr_fits hblock).mono_error fun _ hfail =>
    absurd hfail hlow).exists_ok
  have hheader : loadHeader 17 smallElf pml4 smallPhdr a₁ = .ok ((), a) :=
    (congrFun (if_pos rfl) a₁).trans ((bind_apply_of_ok hsegment).trans hfill)
  have hall : loadAll 17 smallElf pml4 smallElf.phdrs a₁ = .ok ((), a) := by
    rw [smallElf_loads.1]
    exact bind_apply_of_ok hheader
  refine ⟨pml4, a, ?_⟩
  rw [execve, if_neg (by decide), if_neg (by decide), if_neg (by decide)]
  exact (bind_apply_of_ok huser).trans (bind_apply_of_ok hall)

/-- The small program is loaded right exactly when its places are served; place 0 is not. -/
theorem right_iff_served_smallElf :
    (∀ mem pml4 a, execve 17 0 smallElf ⟨sixteenFrames, mem⟩ = .ok (some pml4, a) →
      Right 17 smallElf a pml4) ↔ ∀ t ∈ smallElf.loads, ∀ k, k < t.pMemsz → Served smallElf t k :=
  right_iff_served smallElf_loadable sixteenFrames_ok execve_smallElf

/-- **The program is not there.**  In memory full of `0xaa` its first byte is `0xaa`, where the
file has `0x90`. -/
theorem smallElf_not_right :
    ∃ pml4 a, execve 17 0 smallElf ⟨sixteenFrames, fun _ => 0xaa⟩ = .ok (some pml4, a) ∧
      virtByte 17 a pml4 smallPhdr.pVaddr = some 0xaa ∧
      segmentByte smallElf smallPhdr 0 = 0x90 ∧ ¬ Right 17 smallElf a pml4 := by
  obtain ⟨pml4, a, hrun⟩ := execve_smallElf fun _ => 0xaa
  obtain ⟨done, hdone, hloaded⟩ := loaded_of_execve smallElf_loadable sixteenFrames_ok hrun
  have hmem : smallPhdr ∈ smallElf.loads := by
    rw [smallElf_loads.2]
    exact List.mem_singleton_self _
  obtain ⟨s, b, hlast, hbyte⟩ := byte_of_loaded smallElf_loadable hloaded hdone hmem
    (by decide : 0 < smallPhdr.pMemsz)
  have hlast' : lastSegment smallElf (smallPhdr.pVaddr + 0) = some smallPhdr := by
    rw [lastSegment, smallElf_loads.2]
    decide
  rw [hlast', Option.some.injEq] at hlast
  subst hlast
  have hold : blockByte smallElf (fun _ => 0xaa) smallPhdr b
      (smallPhdr.pVaddr + 0 - smallPhdr.pageStart) = 0xaa := by
    rw [blockByte, if_neg (by decide), if_neg (by decide)]
  rw [hold] at hbyte
  have hwant : segmentByte smallElf smallPhdr 0 = 0x90 := by decide
  refine ⟨pml4, a, hrun, hbyte, hwant, fun hright => ?_⟩
  have hbyte' := hright smallPhdr hmem 0 (by decide)
  rw [hbyte, hwant, Option.some.injEq] at hbyte'
  exact absurd hbyte' (by decide)

end InfoKernel.Task.Exec
