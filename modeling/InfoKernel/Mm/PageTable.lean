import InfoKernel.Lib.Program
import InfoKernel.Mm.Page

/-!
# Page tables

The model of `Map` and `AnalyzePageTable` in `src/mm/page.cc`.

A page table is a tree of four levels in memory.  `Map` goes down the tree, makes the tables that
it misses from new page frames, and writes the last entry; the boot code has a copy of it,
`boot::mm::mapping`, with another allocator and without the change between physical addresses and
addresses of the kernel's window.  The two are one definition here, `Mapper.map`, and a `Mapper`
holds what they differ in.

Behind the definitions stand the facts about single words that the proofs need: which bits of an
entry are its address, and which bytes of a page an entry has.
-/

namespace InfoKernel.Mm.Page

open InfoKernel.Lib

/-! ## Entries -/

/-- `PTE_PRESENT` -/
def ptePresent : Nat := 0x1

/-- `PTE_WRITABLE` -/
def pteWritable : Nat := 0x2

/-- `PTE_USER` -/
def pteUser : Nat := 0x4

/-- `PAGE_MASK`, widened to 64 bits. -/
def pageMask : Nat := 0xfffffffffffff000

/-- `PT_ENTRY` -/
def ptEntry (addr : Nat) : Nat := (addr >>> 12) &&& 0x1ff

/-- `PD_ENTRY` -/
def pdEntry (addr : Nat) : Nat := (addr >>> 21) &&& 0x1ff

/-- `PDPT_ENTRY` -/
def pdptEntry (addr : Nat) : Nat := (addr >>> 30) &&& 0x1ff

/-- `PML4_ENTRY` -/
def pml4Entry (addr : Nat) : Nat := (addr >>> 39) &&& 0x1ff

/-- The entry `idx` of the table at the address `table`. -/
def readEntry (mem : Nat → UInt8) (table idx : Nat) : Nat := getLE mem (table + 8 * idx) 8

/-- `table[idx].value = v` -/
def writeEntry (mem : Nat → UInt8) (table idx v : Nat) : Nat → UInt8 :=
  setLE mem (table + 8 * idx) 8 v

/-- `memset(table, 0, PAGE_SIZE)` -/
def zeroPage (mem : Nat → UInt8) (table : Nat) : Nat → UInt8 :=
  fun i => if table ≤ i ∧ i < table + pageSize then 0 else mem i

/-! ## The builders -/

/-- The page frames and the memory that tables are built in. -/
structure Arena (φ : Type) where
  frames : φ
  mem : Nat → UInt8

/-- What the two builders of page tables differ in: where a new table comes from, what stands for
it in an entry, and how a table is found again. -/
structure Mapper (φ : Type) where
  alloc : φ → Except Fault (φ × Nat)
  toEntry : Nat → Nat
  toTable : Nat → Nat

section Builder

variable {φ : Type}

/-- Read an entry. -/
def load (table idx : Nat) : Program (Arena φ) Fault Nat :=
  fun a => if table = 0 then .error .nullDeref else .ok (readEntry a.mem table idx, a)

/-- Write an entry. -/
def store (table idx v : Nat) : Program (Arena φ) Fault Unit :=
  fun a =>
    if table = 0 then .error .nullDeref
    else .ok ((), { a with mem := writeEntry a.mem table idx v })

namespace Mapper

variable (m : Mapper φ)

/-- A new table, cleared. -/
def newTable : Program (Arena φ) Fault Nat :=
  fun a => do
    let (frames, table) ← m.alloc a.frames
    if table = 0 then .error .nullDeref else .ok (table, ⟨frames, zeroPage a.mem table⟩)

/-- Make the table below an entry, if there is none. -/
def makeTable (table idx flags : Nat) : Program (Arena φ) Fault Unit := do
  let e ← load table idx
  if e &&& ptePresent = 0 then
    let next ← m.newTable
    store table idx ((m.toEntry next &&& pageMask) ||| ptePresent ||| pteWritable ||| flags)
  else pure ()

/-- The table below an entry. -/
def nextTable (table idx flags : Nat) : Program (Arena φ) Fault Nat := do
  m.makeTable table idx flags
  let e ← load table idx
  return m.toTable (e &&& pageMask)

/-- The body of `mm::page::Map` and of `boot::mm::mapping`. -/
def map (pml4 virt phys flags : Nat) : Program (Arena φ) Fault Unit := do
  let pdpt ← m.nextTable pml4 (pml4Entry virt) flags
  let pd ← m.nextTable pdpt (pdptEntry virt) flags
  let pt ← m.nextTable pd (pdEntry virt) flags
  store pt (ptEntry virt) ((phys &&& pageMask) ||| flags)

end Mapper

end Builder

/-- The lowest address that `Map` and `AnalyzePageTable` take for one of the kernel's. -/
def upperHalf : Nat := 0xffff800000000000

/-- The address at which a table is accessed. -/
def tableAddr (table : Nat) : Nat := if table < upperHalf then phy2Vir table else table

/-- The builder of `mm/page.cc`, with fuel for the search of `AllocPages`. -/
def mapper (fuel : Nat) : Mapper FrameMem where
  alloc frame := allocPages fuel frame 1
  toEntry := vir2Phy
  toTable := tableAddr

/-- `mm::page::Map` -/
def map (fuel pml4 virt phys flags : Nat) : Program (Arena FrameMem) Fault Unit :=
  (mapper fuel).map pml4 virt phys flags

/-- An entry that `AnalyzePageTable` reads. -/
def entryOf (mem : Nat → UInt8) (table idx : Nat) : Except Fault Nat :=
  if table = 0 then .error .nullDeref else .ok (readEntry mem table idx)

/-- `AnalyzePageTable`, without what it prints. -/
def analyzePageTable (mem : Nat → UInt8) (pml4 virt : Nat) : Except Fault Nat := do
  let aligned := virt &&& pageMask
  let e ← entryOf mem pml4 (pml4Entry aligned)
  if e &&& ptePresent = 0 then return 0
  else
    let e ← entryOf mem (tableAddr (e &&& pageMask)) (pdptEntry aligned)
    if e &&& ptePresent = 0 then return 0
    else
      let e ← entryOf mem (tableAddr (e &&& pageMask)) (pdEntry aligned)
      if e &&& ptePresent = 0 then return 0
      else
        let e ← entryOf mem (tableAddr (e &&& pageMask)) (ptEntry aligned)
        if e &&& ptePresent = 0 then return 0
        else return (e &&& pageMask) + (virt &&& 0xfff)

/-! ## Numbers -/

section Numbers

variable {x f i : Nat}

theorem testBit_pageMask : pageMask.testBit i = decide (12 ≤ i ∧ i < 64) := by
  have h : pageMask = (2 ^ 52 - 1) <<< 12 := by decide
  rw [h, Nat.testBit_shiftLeft, Nat.testBit_two_pow_sub_one]
  by_cases hi : 12 ≤ i
  · simp only [hi, decide_true, Bool.true_and, true_and]
    exact decide_eq_decide.mpr (by omega)
  · simp [hi]

/-- What `PAGE_MASK` keeps of a word. -/
theorem and_pageMask (hx : x < 2 ^ 64) : x &&& pageMask = x - x % pageSize := by
  have hmul : x - x % pageSize = (x >>> 12) <<< 12 := by
    rw [Nat.shiftRight_eq_div_pow, Nat.shiftLeft_eq, pageSize]
    omega
  rw [hmul]
  refine Nat.eq_of_testBit_eq fun i => ?_
  rw [Nat.testBit_and, testBit_pageMask, Nat.testBit_shiftLeft, Nat.testBit_shiftRight]
  by_cases hi : 12 ≤ i
  · have hsum : 12 + (i - 12) = i := by omega
    by_cases hi' : i < 64
    · simp [hi, hi', hsum]
    · have hbit : x.testBit i = false :=
        Nat.testBit_lt_two_pow (Nat.lt_of_lt_of_le hx (Nat.pow_le_pow_right (by decide) (by omega)))
      simp [hi, hsum, hbit]
  · simp [hi]

theorem and_pageMask_of_lt (hf : f < pageSize) : f &&& pageMask = 0 := by
  rw [pageSize] at hf
  rw [and_pageMask (by omega), pageSize, Nat.mod_eq_of_lt hf, Nat.sub_self]

/-- The address in an entry. -/
theorem entry_and_pageMask (hf : f < pageSize) :
    ((x &&& pageMask) ||| f) &&& pageMask = x &&& pageMask := by
  rw [Nat.and_or_distrib_right, and_pageMask_of_lt hf, Nat.or_zero, Nat.and_assoc, Nat.and_self]

/-- The present bit of an entry. -/
theorem entry_and_present : ((x &&& pageMask) ||| f) &&& ptePresent = f &&& ptePresent := by
  have h : pageMask &&& ptePresent = 0 := by decide
  rw [Nat.and_or_distrib_right, Nat.and_assoc, h, Nat.and_zero, Nat.zero_or]

theorem entry_lt (hf : f < pageSize) : (x &&& pageMask) ||| f < 2 ^ 64 := by
  refine Nat.or_lt_two_pow (Nat.lt_of_le_of_lt Nat.and_le_right (by decide)) ?_
  rw [pageSize] at hf
  omega

end Numbers

/-! ## Pages of memory -/

/-- The pages at `a` and `b` have no byte in common. -/
def Apart (a b : Nat) : Prop := a + pageSize ≤ b ∨ b + pageSize ≤ a

/-- The page at `x` holds the same bytes. -/
def SamePage (mem mem' : Nat → UInt8) (x : Nat) : Prop :=
  ∀ i, x ≤ i → i < x + pageSize → mem' i = mem i

theorem Apart.symm {a b : Nat} (h : Apart a b) : Apart b a := Or.symm h

theorem Apart.ne {a b : Nat} (h : Apart a b) : a ≠ b := by
  rw [Apart, pageSize] at h
  omega

theorem apart_of_ne {a b : Nat} (ha : a % pageSize = 0) (hb : b % pageSize = 0) (h : a ≠ b) :
    Apart a b := by
  rw [pageSize] at ha hb
  rw [Apart, pageSize]
  omega

section Memory

variable {mem mem' : Nat → UInt8} {x y i j v : Nat}

theorem SamePage.refl : SamePage mem mem x := fun _ _ _ => rfl

theorem SamePage.trans {mem'' : Nat → UInt8} (h : SamePage mem mem' x)
    (h' : SamePage mem' mem'' x) :
    SamePage mem mem'' x :=
  fun i hi hi' => (h' i hi hi').trans (h i hi hi')

theorem SamePage.readEntry (h : SamePage mem mem' x) (hi : i < 512) :
    readEntry mem' x i = readEntry mem x i := by
  refine getLE_congr fun k hk hk' => h k (by omega) ?_
  rw [pageSize]
  omega

theorem samePage_zeroPage (h : Apart x y) : SamePage mem (zeroPage mem y) x := by
  intro i hi hi'
  rw [Apart] at h
  rw [zeroPage, if_neg (by omega)]

theorem samePage_writeEntry (h : Apart x y) (hj : j < 512) :
    SamePage mem (writeEntry mem y j v) x := by
  intro i hi hi'
  rw [Apart, pageSize] at h
  rw [pageSize] at hi'
  exact setLE_of_not_mem (by omega)

theorem readEntry_zeroPage (hi : i < 512) : readEntry (zeroPage mem x) x i = 0 := by
  refine getLE_zero fun k hk hk' => ?_
  rw [zeroPage, pageSize, if_pos (by omega)]

theorem readEntry_writeEntry (hv : v < 2 ^ 64) : readEntry (writeEntry mem x i v) x i = v :=
  getLE_setLE_of_lt hv

theorem readEntry_writeEntry_of_ne (h : j ≠ i) :
    readEntry (writeEntry mem x i v) x j = readEntry mem x j :=
  getLE_setLE_of_disjoint (by omega)

end Memory

end InfoKernel.Mm.Page
