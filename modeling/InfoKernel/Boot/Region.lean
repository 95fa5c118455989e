import InfoKernel.Boot.Mm
import Mathlib.Data.Set.Lattice
import Mathlib.Order.CompletePartialOrder
import Mathlib.Order.Interval.Set.Basic

/-!
# The region of the frames

`Init` takes the first available entry of the memory map at or above the first megabyte, skips a
megabyte of it, where the kernel lies, and gives the rest to `frameInit`.  How many frames fit
there depends on the size of the metadata, which depends on the number of pages; `frameInit`
computes the metadata for all pages of the region and takes the frames that are left.

What is proved first is that this is consistent: the metadata fits in the pages that are reserved
for it (`metadata_le`), and in a region that has its ends in order all frames lie behind them and
before the end (`framesRight_of_le`).

The skipped megabyte is not compared with the length of the entry.  In an entry that is shorter,
the end of the region lies before its start, the size wraps around, and `frameInit` counts almost
`2 ^ 52` frames.  Then the bitmap has almost `2 ^ 49` bytes, and wherever it starts `memset` comes
to an address that the processor does not take (`exists_not_has`): `frameInit` does not return.
So in whatever memory it returns, the frames lie where they should (`framesRight_of_returns`).
-/

namespace InfoKernel.Boot.Mm

open InfoKernel.Mm InfoKernel.Mm.Page

/-- `struct multiboot_mmap_entry` -/
structure MmapEntry where
  addr : Nat
  len : Nat
  type : Nat

/-- `MULTIBOOT_MEMORY_AVAILABLE` -/
def multibootMemoryAvailable : Nat := 1

/-- The entry whose region `Init` uses. -/
def selected (entries : List MmapEntry) : Option MmapEntry :=
  entries.find? fun mmap => mmap.type = multibootMemoryAvailable && 0x100000 ≤ mmap.addr

/-- `pm` before `Init`. -/
def emptyPm : Pm where
  totalPages := 0
  freePages := 0
  bitmap := fun _ => 0
  flag := fun _ => 0
  count := fun _ => 0
  startUsable := 0
  bitmapSize := 0
  startAddr := 0

/-- The start of the region, behind the skipped megabyte. -/
def MmapEntry.startAddr (mmap : MmapEntry) : Nat := u64 (mmap.addr + 0x100000)

/-- The end of the region. -/
def MmapEntry.endAddr (mmap : MmapEntry) : Nat := u64 (mmap.addr + mmap.len)

/-- The loop of `Init` over the entries of the memory map. -/
def initFrames (ram : Ram) (entries : List MmapEntry) : Except Fault Pm :=
  match selected entries with
  | some mmap => frameInit ram mmap.startAddr mmap.endAddr
  | none => .ok emptyPm

/-- The bytes of frame `i`. -/
def Pm.frameBytes (pm : Pm) (i : Nat) : Set Nat :=
  Set.Ico (pm.frameAddr i) (pm.frameAddr i + pageSize)

/-- The bytes of the bitmap. -/
def Pm.bitmapBytes (pm : Pm) : Set Nat := Set.Ico pm.startAddr (pm.startAddr + pm.bitmapSize)

/-- The bytes of a `Page` array with `maxPages` entries behind the bitmap. -/
def Pm.pagesBytes (pm : Pm) (maxPages : Nat) : Set Nat :=
  Set.Ico (pm.startAddr + pm.bitmapSize) (pm.startAddr + pm.bitmapSize + maxPages * sizeofPage)

/-- The frames lie where they should: in the entry behind the skipped megabyte, and apart from
the metadata, which has room in front of them. -/
structure FramesRight (mmap : MmapEntry) (pm : Pm) : Prop where
  inside : ∀ i, i < pm.totalPages →
    pm.frameBytes i ⊆ Set.Ico (mmap.addr + 0x100000) (mmap.addr + mmap.len)
  bitmap : ∀ i, i < pm.totalPages → Disjoint (pm.frameBytes i) pm.bitmapBytes
  pages : ∀ i, i < pm.totalPages →
    Disjoint (pm.frameBytes i) (pm.pagesBytes (maxPages mmap.startAddr mmap.endAddr))
  fits : pm.bitmapSize + maxPages mmap.startAddr mmap.endAddr * sizeofPage ≤
    reservePages (maxPages mmap.startAddr mmap.endAddr) * pageSize

variable {ram : Ram} {mmap : MmapEntry} {pm : Pm} {startAddr endAddr n : Nat}

/-- A region has at most `2 ^ 52` pages, as its size is a 64-bit number. -/
theorem maxPages_le (startAddr endAddr : Nat) : maxPages startAddr endAddr ≤ 2 ^ 52 := by
  rw [maxPages, sub64, u64, u64, pageSize]
  omega

theorem reservePages_eq (hn : n ≤ 2 ^ 52) :
    reservePages n = ((n + 7) / 8 + n * sizeofPage + (pageSize - 1)) / pageSize := by
  have hbits : u64 (n + 7) = n + 7 := Nat.mod_eq_of_lt (by omega)
  have harray : u64 (n * sizeofPage) = n * sizeofPage :=
    Nat.mod_eq_of_lt (by rw [sizeofPage]; omega)
  have hsum : u64 ((n + 7) / 8 + n * sizeofPage) = (n + 7) / 8 + n * sizeofPage :=
    Nat.mod_eq_of_lt (by rw [sizeofPage]; omega)
  have hround : u64 ((n + 7) / 8 + n * sizeofPage + pageSize - 1) =
      (n + 7) / 8 + n * sizeofPage + (pageSize - 1) :=
    Nat.mod_eq_of_lt (by rw [sizeofPage, pageSize]; omega)
  rw [reservePages, hbits, harray, hsum, hround]

/-- **The metadata fits** in the pages that are reserved for it. -/
theorem metadata_le (hn : n ≤ 2 ^ 52) :
    u64 (n + 7) / 8 + n * sizeofPage ≤ reservePages n * pageSize := by
  have hbits : u64 (n + 7) = n + 7 := Nat.mod_eq_of_lt (by omega)
  rw [reservePages_eq hn, hbits, sizeofPage, pageSize]
  omega

/-- In a region whose ends are in order, the pages end before the end. -/
theorem maxPages_mul_le (hle : startAddr ≤ endAddr) (hlt : endAddr < 2 ^ 64) :
    startAddr + maxPages startAddr endAddr * pageSize ≤ endAddr := by
  have hsub : sub64 endAddr startAddr = endAddr - startAddr := by
    rw [sub64, u64, u64]
    omega
  have hpages := Nat.div_mul_le_self (endAddr - startAddr) pageSize
  rw [maxPages, hsub]
  omega

/-- The frames of an entry that is not shorter than the skipped megabyte. -/
theorem framesRight_of_le (hlen : 0x100000 ≤ mmap.len) (hwrap : mmap.addr + mmap.len < 2 ^ 64)
    (hpm : frameInit ram mmap.startAddr mmap.endAddr = .ok pm) : FramesRight mmap pm := by
  have hstart : mmap.startAddr = mmap.addr + 0x100000 := Nat.mod_eq_of_lt (by omega)
  have hend : mmap.endAddr = mmap.addr + mmap.len := Nat.mod_eq_of_lt hwrap
  have hpages := maxPages_mul_le (show mmap.startAddr ≤ mmap.endAddr by omega) (by omega)
  have hmeta := metadata_le (maxPages_le mmap.startAddr mmap.endAddr)
  obtain ⟨hroom, hpm, -⟩ := frameInit_eq_ok hpm
  rw [framePm] at hpm
  generalize hm : maxPages mmap.startAddr mmap.endAddr = m at hpm hpages hmeta hroom
  generalize hr : reservePages m = r at hpm hmeta hroom
  -- the reserved pages lie in the region
  have husable : u64 (mmap.startAddr + r * pageSize) = mmap.startAddr + r * pageSize := by
    rw [pageSize] at hpages ⊢
    exact Nat.mod_eq_of_lt (by omega)
  have haddr : ∀ i, pm.frameAddr i = mmap.startAddr + r * pageSize + i * pageSize := fun i => by
    rw [hpm, Pm.frameAddr, husable]
  have htotal : pm.totalPages = m - r := by rw [hpm]
  have hsize : pm.bitmapSize = u64 (m + 7) / 8 := by rw [hpm]
  have hfirst : pm.startAddr = mmap.startAddr := by rw [hpm]
  refine
    { inside := fun i hi => ?_
      bitmap := fun i _ => ?_
      pages := fun i _ => ?_
      fits := by rw [hm, hr, hsize]; exact hmeta }
  · rw [Pm.frameBytes, haddr]
    rintro a ⟨hge, hlt⟩
    rw [pageSize] at hpages hge hlt
    exact ⟨by omega, by omega⟩
  · rw [Pm.frameBytes, Pm.bitmapBytes, haddr, hfirst, hsize, Set.disjoint_left]
    rintro a ⟨hge, -⟩ ⟨-, hlt⟩
    omega
  · rw [Pm.frameBytes, Pm.pagesBytes, hm, haddr, hfirst, hsize, Set.disjoint_left]
    rintro a ⟨hge, -⟩ ⟨-, hlt⟩
    omega

/-- **More than `2 ^ 48` bytes in a row are never all there**: from any address on, the addresses
that the processor does not take begin before these end. -/
theorem exists_not_has (ram : Ram) (addr : Nat) :
    ∃ j, j ≤ 2 ^ 48 ∧ ram.has (u64 (addr + j)) = false := by
  have hhole : ∀ a, 2 ^ 47 ≤ a → a < 2 ^ 64 - 2 ^ 47 → ram.has a = false := by
    intro a hlo hhi
    by_contra hhas
    rw [Bool.not_eq_false] at hhas
    have hcanonical := ram.canonical hhas
    omega
  have hmod : ∀ j, u64 (addr + j) = (addr % 2 ^ 64 + j) % 2 ^ 64 := fun j => by
    rw [u64, Nat.mod_add_mod]
  have hlt : addr % 2 ^ 64 < 2 ^ 64 := Nat.mod_lt _ (by decide)
  -- before the hole, in it, or behind it, from where the addresses wrap around
  rcases Nat.lt_or_ge (addr % 2 ^ 64) (2 ^ 47) with hlow | hge
  · refine ⟨2 ^ 47 - addr % 2 ^ 64, by omega, hhole _ ?_ ?_⟩
    · rw [hmod]
      omega
    · rw [hmod]
      omega
  · rcases Nat.lt_or_ge (addr % 2 ^ 64) (2 ^ 64 - 2 ^ 47) with hin | hhigh
    · refine ⟨0, by decide, hhole _ ?_ ?_⟩
      · rw [hmod]
        omega
      · rw [hmod]
        omega
    · refine ⟨2 ^ 64 - addr % 2 ^ 64 + 2 ^ 47, by omega, hhole _ ?_ ?_⟩
      · rw [hmod]
        omega
      · rw [hmod]
        omega

/-- **A shorter entry** does not make `frameInit` return. -/
theorem le_len_of_returns (hpm : frameInit ram mmap.startAddr mmap.endAddr = .ok pm) :
    0x100000 ≤ mmap.len := by
  by_contra hlen
  have hsize : sub64 mmap.endAddr mmap.startAddr = 2 ^ 64 - (0x100000 - mmap.len) := by
    rw [MmapEntry.endAddr, MmapEntry.startAddr, sub64, u64, u64, u64, u64]
    omega
  have hmax : 2 ^ 52 - 256 ≤ maxPages mmap.startAddr mmap.endAddr := by
    rw [maxPages, hsize, pageSize]
    omega
  have hle := maxPages_le mmap.startAddr mmap.endAddr
  obtain ⟨-, rfl, hbitmap⟩ := frameInit_eq_ok hpm
  obtain ⟨j, hj, hno⟩ := exists_not_has ram mmap.startAddr
  have hbytes : 2 ^ 48 < (framePm mmap.startAddr mmap.endAddr).bitmapSize := by
    show 2 ^ 48 < u64 (maxPages mmap.startAddr mmap.endAddr + 7) / 8
    rw [u64]
    omega
  rw [hbitmap j (Nat.lt_of_le_of_lt hj hbytes)] at hno
  cases hno

/-- **When `frameInit` returns, the frames lie where they should**, whatever entry of the memory map
`Init` has taken and whatever memory there is. -/
theorem framesRight_of_returns {entries : List MmapEntry} (hsel : selected entries = some mmap)
    (hwrap : mmap.addr + mmap.len < 2 ^ 64) (hpm : initFrames ram entries = .ok pm) :
    FramesRight mmap pm := by
  rw [initFrames, hsel] at hpm
  exact framesRight_of_le (le_len_of_returns hpm) hwrap hpm

/-- The memory map of a machine with 16 MiB, whose first entry is too low. -/
def lowMemory : List MmapEntry :=
  [⟨0, 0x9fc00, 1⟩, ⟨0x100000, 0xf00000, 1⟩]

theorem framesRight_lowMemory :
    initFrames firstGigabyte lowMemory = .ok (framePm 0x200000 0x1000000) ∧
      FramesRight ⟨0x100000, 0xf00000, 1⟩ (framePm 0x200000 0x1000000) := by
  have hpm : initFrames firstGigabyte lowMemory = .ok (framePm 0x200000 0x1000000) :=
    frameInit_returns (by decide) fun j hj => by
      have hsize : (framePm 0x200000 0x1000000).bitmapSize +
          (framePm 0x200000 0x1000000).totalPages * sizeofPage = 85936 := by decide
      have hj : j < 85936 := hsize ▸ hj
      have hin : (0x200000 + j) % 2 ^ 64 < 2 ^ 30 := by omega
      exact decide_eq_true hin
  exact ⟨hpm, framesRight_of_returns (show selected lowMemory = some _ from rfl) (by decide) hpm⟩

end InfoKernel.Boot.Mm
