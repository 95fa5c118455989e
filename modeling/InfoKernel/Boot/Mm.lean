import InfoKernel.Mm.Frames
import InfoKernel.Mm.PageWalk
import Mathlib.Tactic.ByContra

/-!
# The memory of the boot code

The model of `src/kernel/boot/mm.cc`: `frameInit` divides the region it is given into metadata
and page frames, `Alloc` hands out single frames, `mapping` is the boot code's copy of `Map`, and
`MappingIdentity` maps the low memory to itself and the memory of the region into the kernel's
window.  `identityTables` is the part of `Init` from `frameInit` to `MappingIdentity`.

The boot code runs with physical addresses, so an entry of a table holds the address at which the
table is accessed.  Where its stores go through is left open, but for what the hardware fixes: a
`Ram` has no memory at the addresses that four levels of tables do not translate.

## What the window covers

`MappingIdentity` is given the size `start_addr + total_pages * PAGE_SIZE`, but the frames start
behind the metadata, at `start_usable`.  `translate_frame_iff` says for each frame whether its
address in the window is mapped to it: when as many frames as the metadata takes follow it.
There is always metadata, so the last frames are never mapped (`not_covered`).
-/

namespace InfoKernel.Boot.Mm

open InfoKernel.Lib InfoKernel.Mm InfoKernel.Mm.Page

/-- `pm`: the frames, with the fields of `struct FrameMem` that only the boot code uses. -/
structure Pm extends FrameMem where
  bitmapSize : Nat
  startAddr : Nat

/-- `sizeof(Page)` -/
def sizeofPage : Nat := 24

/-- The number of pages in a region. -/
def maxPages (startAddr endAddr : Nat) : Nat := sub64 endAddr startAddr / pageSize

/-- The number of pages that the bitmap and the `Page` array take. -/
def reservePages (maxPages : Nat) : Nat :=
  u64 (u64 (u64 (maxPages + 7) / 8 + u64 (maxPages * sizeofPage)) + pageSize - 1) / pageSize

/-- The addresses at which a store of the boot code goes through.  The upper bits of an address,
from bit 47 on, are all equal there, or the processor does not take it. -/
structure Ram where
  has : Nat → Bool
  canonical {a : Nat} : has a = true → a < 2 ^ 47 ∨ 2 ^ 64 - 2 ^ 47 ≤ a

/-- `boot::mm::memset` over `len` bytes, which stops at the first of them that is not there. -/
def memset (ram : Ram) : Nat → Nat → Except Fault Unit
  | _, 0 => .ok ()
  | dest, len + 1 => if ram.has (u64 dest) then memset ram (dest + 1) len else .error .outOfBounds

/-- The bytes of the fields `flag`, `vaddr` and `count` of `struct Page`. -/
def pageFields : Nat := 20

/-- The loop of `frameInit` over the `Page` array: `n` entries are left, `i` is the next. -/
def initPages (ram : Ram) (pages : Nat) : Nat → Nat → Except Fault Unit
  | 0, _ => .ok ()
  | n + 1, i =>
      if (List.range pageFields).all fun j => ram.has (u64 (pages + i * sizeofPage + j)) then
        initPages ram pages n (i + 1)
      else .error .outOfBounds

/-- What `frameInit` has filled in when it returns. -/
def framePm (startAddr endAddr : Nat) : Pm :=
  let maxPages := maxPages startAddr endAddr
  let reservePages := reservePages maxPages
  { totalPages := maxPages - reservePages
    freePages := maxPages - reservePages
    bitmap := fun _ => 0
    flag := fun _ => pageFree
    count := fun _ => 0
    startUsable := u64 (startAddr + reservePages * pageSize)
    bitmapSize := u64 (maxPages + 7) / 8
    startAddr := startAddr }

/-- `frameInit`, which hangs when there is no room for a frame. -/
def frameInit (ram : Ram) (startAddr endAddr : Nat) : Except Fault Pm :=
  if reservePages (maxPages startAddr endAddr) ≥ maxPages startAddr endAddr then .error .outOfFuel
  else do
    let pm := framePm startAddr endAddr
    memset ram pm.startAddr pm.bitmapSize
    initPages ram (pm.startAddr + pm.bitmapSize) pm.totalPages 0
    return pm

namespace Pm

variable (pm : Pm)

/-- The inner loop of `Alloc`: the first free bit of a byte of the bitmap. -/
def freeBit (byte : Nat) : Option Nat :=
  ((List.range 8).takeWhile fun bit => byte * 8 + bit < pm.totalPages).find?
    fun bit => !pm.bitmap.used (byte * 8 + bit)

/-- The search of `Alloc`. -/
def firstFree : Option Nat :=
  (List.range pm.bitmapSize).findSome? fun byte =>
    if pm.bitmap byte ≠ 0xff then (pm.freeBit byte).map fun bit => byte * 8 + bit else none

/-- `Alloc`, which hangs when no frame is left. -/
def alloc : Except Fault (Pm × Nat) :=
  if pm.freePages = 0 then .error .outOfFuel
  else
    match pm.firstFree with
    | some idx =>
        .ok ({ pm with toFrameMem :=
                { pm.toFrameMem.markPage idx with freePages := sub64 pm.freePages 1 } },
          u64 (pm.startUsable + idx * pageSize))
    | none => .error .outOfFuel

end Pm

/-- The builder of `boot/mm.cc`. -/
def mapper : Mapper Pm where
  alloc := Pm.alloc
  toEntry := id
  toTable := id

/-- `boot::mm::mapping` -/
def mapping (pml4 virt phys flags : Nat) : Program (Arena Pm) Fault Unit :=
  mapper.map pml4 virt phys flags

/-- A turn of a loop of `MappingIdentity`, with the loop variable `addr`. -/
def mappingTurn (pml4 base : Nat) (more : Nat → Bool) (addr : Nat) :
    Program (Arena Pm) Fault (Turn Nat Unit) :=
  if more addr then do
    mapping pml4 (u64 (base + addr)) addr (ptePresent ||| pteWritable)
    return .again (u64 (addr + pageSize))
  else return .leave ()

/-- The condition of the first loop of `MappingIdentity`. -/
def lowMore (addr : Nat) : Bool := addr < 0xf00000

/-- The condition of its second loop. -/
def windowMore (size addr : Nat) : Bool := addr < size && size < 0xfffffffffff

/-- `MappingIdentity` -/
def mappingIdentity (fuel pml4 size : Nat) : Program (Arena Pm) Fault Unit := do
  Program.loop (mappingTurn pml4 0 lowMore) Fault.outOfFuel fuel 0
  Program.loop (mappingTurn pml4 identityBase (windowMore size)) Fault.outOfFuel fuel 0

/-- The size that `Init` passes to `MappingIdentity`. -/
def windowSize (pm : Pm) : Nat := u64 (pm.startAddr + pm.totalPages * pageSize)

/-- The root that `Init` makes, with the tables of `MappingIdentity`. -/
def rootTable (fuel size : Nat) : Program (Arena Pm) Fault Nat := do
  let pml4 ← mapper.newTable
  mappingIdentity fuel pml4 size
  return pml4

/-- `Init`, from `frameInit` to `MappingIdentity`; the result is the root that it makes. -/
def identityTables (ram : Ram) (fuel startAddr endAddr : Nat) (mem : Nat → UInt8) :
    Except Fault (Nat × Arena Pm) := do
  let pm ← frameInit ram startAddr endAddr
  rootTable fuel (windowSize pm) ⟨pm, mem⟩

/-- Where the tables lead from an address, with the page tables that the boot code builds. -/
def translate (mem : Nat → UInt8) (pml4 virt : Nat) : Option Nat :=
  let e := mapper.pte mem pml4 (tablePos virt) (ptEntry virt)
  if e &&& ptePresent = 0 then none else some ((e &&& pageMask) + (virt &&& 0xfff))

/-- The physical address of frame `i`. -/
def Pm.frameAddr (pm : Pm) (i : Nat) : Nat := pm.startUsable + i * pageSize

/-! ## The allocator -/

section Alloc

variable {pm pm' : Pm} {i j p byte bit idx : Nat}

/-- The bits that the inner loop of `Alloc` looks at before its `break`. -/
theorem takeWhile_range (b t n : Nat) :
    ((List.range n).takeWhile fun j => b + j < t) = List.range (min n (t - b)) := by
  induction n with
  | zero => rw [Nat.zero_min]; rfl
  | succ n ih =>
      rw [List.range_succ, List.takeWhile_append, ih, List.length_range, List.length_range]
      by_cases hn : n < t - b
      · have hmin : min n (t - b) = n := by omega
        have hmin' : min (n + 1) (t - b) = n + 1 := by omega
        have htake : [n].takeWhile (fun j => b + j < t) = [n] := by
          rw [List.takeWhile_cons, if_pos (decide_eq_true (by omega))]
          rfl
        rw [hmin, hmin', if_pos rfl, htake, List.range_succ]
      · have hmin : min (n + 1) (t - b) = min n (t - b) := by omega
        rw [hmin]
        split
        · next hlen =>
          have htake : [n].takeWhile (fun j => b + j < t) = [] := by
            rw [List.takeWhile_cons, if_neg (by rw [decide_eq_true_iff]; omega)]
          rw [htake, List.append_nil, hlen]
        · rfl

/-- The search of `Alloc` ends at a free frame. -/
theorem firstFree_spec (h : pm.firstFree = some idx) :
    idx < pm.totalPages ∧ pm.bitmap.used idx = false := by
  obtain ⟨byte, -, hbyte⟩ := List.exists_of_findSome?_eq_some h
  split at hbyte
  · obtain ⟨bit, hbit, rfl⟩ := Option.map_eq_some_iff.mp hbyte
    rw [Pm.freeBit, takeWhile_range] at hbit
    have hmem := List.mem_range.mp (List.mem_of_find?_eq_some hbit)
    have hfree := List.find?_some hbit
    exact ⟨by omega, by simpa using hfree⟩
  · cases hbyte

/-- A byte with a free bit is not full. -/
theorem byte_ne_full (hi : pm.bitmap.used i = false) : pm.bitmap (i / 8) ≠ 0xff := by
  intro hfull
  rw [Bitmap.used_eq_testBit, hfull] at hi
  have hbits : ∀ k, k < 8 → (0xff : UInt8).toNat.testBit k = true := by decide
  rw [hbits (i % 8) (Nat.mod_lt i (by decide))] at hi
  cases hi

/-- The search of `Alloc` finds a frame, if one is free and the bitmap has a bit for it. -/
theorem firstFree_isSome (hi : i ∈ pm.freeFrames) (hsize : pm.totalPages ≤ 8 * pm.bitmapSize) :
    ∃ idx, pm.firstFree = some idx := by
  obtain ⟨hlt, hfree⟩ := FrameMem.mem_freeFrames.mp hi
  rw [← Option.isSome_iff_exists, Pm.firstFree, List.findSome?_isSome_iff]
  refine ⟨i / 8, List.mem_range.mpr (by omega), ?_⟩
  rw [if_pos (byte_ne_full hfree), Option.isSome_map, Pm.freeBit, takeWhile_range,
    List.find?_isSome]
  refine ⟨i % 8, List.mem_range.mpr (by omega), ?_⟩
  have hidx : i / 8 * 8 + i % 8 = i := by omega
  rw [hidx, hfree]
  rfl

/-- What the boot code relies on: frames that start at the border of a page and have 64-bit
addresses. -/
structure FramesOk (pm : Pm) : Prop where
  aligned : pm.startUsable % pageSize = 0
  pos : 0 < pm.startUsable
  region : pm.startUsable + pm.totalPages * pageSize ≤ 2 ^ 64
  freePages : pm.freePages < 2 ^ 64

/-- The frame `idx` has been handed out. -/
theorem takes_of_alloc (hfree : pm.freePages < 2 ^ 64) (h : pm.alloc = .ok (pm', p)) :
    ∃ idx, Takes pm.toFrameMem pm'.toFrameMem idx ∧ pm'.bitmapSize = pm.bitmapSize ∧
      p = u64 (pm.frameAddr idx) := by
  rw [Pm.alloc] at h
  split at h
  · cases h
  · next hne =>
    split at h
    · next idx hidx =>
      injection h with h
      obtain ⟨rfl, rfl⟩ := Prod.mk.inj h
      obtain ⟨hlt, hused⟩ := firstFree_spec hidx
      refine ⟨idx,
        { lt := hlt
          wasFree := hused
          used := fun j => ?_
          enough := Nat.pos_of_ne_zero hne
          freePages := ?_
          totalPages := rfl
          startUsable := rfl }, rfl, rfl⟩
      · show (pm.bitmap.mark idx).used j = true ↔ _
        rw [Bitmap.used_mark, Bool.or_eq_true, decide_eq_true_iff]
      · show sub64 pm.freePages 1 = pm.freePages - 1
        rw [sub64, u64, u64]
        omega
    · cases h

theorem alloc_of_firstFree (hne : pm.freePages ≠ 0) (hidx : pm.firstFree = some idx) :
    ∃ pm', pm.alloc = .ok (pm', u64 (pm.frameAddr idx)) := by
  rw [Pm.alloc, if_neg hne, hidx]
  exact ⟨_, rfl⟩

/-- A number of calls of `Alloc` that return. -/
def stock (pm : Pm) : Nat :=
  if pm.totalPages ≤ 8 * pm.bitmapSize then min pm.freePages pm.freeFrames.card else 0

theorem FramesOk.addr (h : FramesOk pm) (hi : i < pm.totalPages) :
    u64 (pm.frameAddr i) = pm.frameAddr i := by
  have hregion := h.region
  rw [pageSize] at hregion
  rw [Pm.frameAddr, u64, pageSize]
  omega

theorem FramesOk.page (h : FramesOk pm) (hi : i < pm.totalPages) :
    pm.frameAddr i ≠ 0 ∧ pm.frameAddr i % pageSize = 0 ∧ pm.frameAddr i < 2 ^ 64 := by
  have hregion := h.region
  have haligned := h.aligned
  have hpos := h.pos
  rw [pageSize] at hregion haligned
  rw [Pm.frameAddr, pageSize]
  omega

theorem and_pageMask_of_aligned {x : Nat} (hx : x < 2 ^ 64) (h : x % pageSize = 0) :
    x &&& pageMask = x := by
  rw [and_pageMask hx, h, Nat.sub_zero]

/-- The page of a free frame. -/
def FreePage (pm : Pm) (p : Nat) : Prop := ∃ i ∈ pm.freeFrames, p = pm.frameAddr i

theorem FramesOk.freePage {p : Nat} (hok : FramesOk pm) (hp : FreePage pm p) :
    p ≠ 0 ∧ p % pageSize = 0 ∧ mapper.toTable (mapper.toEntry p &&& pageMask) = p := by
  obtain ⟨i, hi, rfl⟩ := hp
  obtain ⟨hne, hmod, hlt⟩ := hok.page (FrameMem.mem_freeFrames.mp hi).1
  exact ⟨hne, hmod, and_pageMask_of_aligned hlt hmod⟩

theorem FramesOk.alloc {pm' : Pm} {p : Nat} (hok : FramesOk pm)
    (halloc : mapper.alloc pm = .ok (pm', p)) (_ : p ≠ 0) :
    FramesOk pm' ∧ FreePage pm p ∧ (∀ q, FreePage pm' q → FreePage pm q ∧ q ≠ p) ∧
      stock pm ≤ stock pm' + 1 := by
  obtain ⟨idx, htakes, hbitmap, rfl⟩ := takes_of_alloc hok.freePages halloc
  rw [hok.addr htakes.lt]
  refine ⟨⟨?_, ?_, ?_, ?_⟩, ⟨idx, htakes.mem, rfl⟩, ?_, ?_⟩
  · rw [htakes.startUsable]
    exact hok.aligned
  · rw [htakes.startUsable]
    exact hok.pos
  · rw [htakes.startUsable, htakes.totalPages]
    exact hok.region
  · have hfree := hok.freePages
    rw [htakes.freePages]
    omega
  · rintro q ⟨j, hj, rfl⟩
    rw [htakes.freeFrames, Finset.mem_erase] at hj
    rw [Pm.frameAddr, htakes.startUsable]
    refine ⟨⟨j, hj.2, rfl⟩, fun heq => hj.1 ?_⟩
    rw [Pm.frameAddr, pageSize] at heq
    omega
  · have hcard := htakes.card
    have hfree := htakes.freePages
    rw [stock, stock, hbitmap, htakes.totalPages]
    split <;> omega

theorem FramesOk.alloc_ok (hok : FramesOk pm) (hstock : 0 < stock pm) :
    ∃ pm' p, mapper.alloc pm = .ok (pm', p) ∧ p ≠ 0 := by
  rw [stock] at hstock
  split at hstock
  · next hsize =>
    obtain ⟨i, hi⟩ : pm.freeFrames.Nonempty := Finset.card_pos.mp (by omega)
    obtain ⟨idx, hidx⟩ := firstFree_isSome hi hsize
    have hlt := (firstFree_spec hidx).1
    obtain ⟨pm', halloc⟩ := alloc_of_firstFree (by omega) hidx
    rw [hok.addr hlt] at halloc
    exact ⟨pm', _, halloc, (hok.page hlt).1⟩
  · exact absurd hstock (Nat.lt_irrefl 0)

/-- **The `Alloc` of the boot code is an allocator of tables.** -/
def supply : mapper.Supply where
  Ok := FramesOk
  Free := FreePage
  stock := stock
  frame := FramesOk.freePage
  alloc := FramesOk.alloc
  succeeds := FramesOk.alloc_ok

end Alloc

/-! ## A range of pages -/

section Range

variable {a a₀ b : Arena Pm} {pml4 base fuel n j : Nat}

/-- The entry for an address. -/
def entryAt (a : Arena Pm) (pml4 virt : Nat) : Nat :=
  mapper.pte a.mem pml4 (tablePos virt) (ptEntry virt)

/-- The entry that `MappingIdentity` writes for page `j` of the memory. -/
def identityEntry (j : Nat) : Nat := (j * pageSize &&& pageMask) ||| (ptePresent ||| pteWritable)

/-- The first `n` pages from `base` on are mapped to the first `n` pages of the memory. -/
def RangeMapped (base n : Nat) (E E' : Nat → Nat) : Prop :=
  ∀ v, (∃ k, k < n ∧ pageNumber v = pageNumber (base + k * pageSize) ∧ E' v = identityEntry k) ∨
    ((∀ k, k < n → pageNumber v ≠ pageNumber (base + k * pageSize)) ∧ E' v = E v)

/-- A number of frames that suffices for the tables of `j` pages in a row. -/
def tablesFor (j : Nat) : Nat := 3 * ((j + 511) / 512)

/-- The first `j` turns of a loop of `MappingIdentity` have been taken. -/
structure Progress (base pml4 : Nat) (a₀ a : Arena Pm) (j : Nat) : Prop where
  tables : Tables supply 512 a pml4
  mapped : RangeMapped base j (entryAt a₀ pml4) (entryAt a pml4)
  last : j % 512 ≠ 0 → (mapper.forest a.mem pml4).ref (tablePos (base + (j - 1) * pageSize)) ≠ 0
  stock : stock a₀.frames ≤ stock a.frames + tablesFor j

theorem Progress.zero (h : Tables supply 512 a pml4) : Progress base pml4 a a 0 where
  tables := h
  mapped _ := .inr ⟨nofun, rfl⟩
  last hne := absurd rfl hne
  stock := Nat.le_refl _

/-- No table is missing for an address whose last table is there. -/
theorem missingFor_eq_zero {virt : Nat} (h : (mapper.forest a.mem pml4).ref (tablePos virt) ≠ 0) :
    mapper.missingFor a pml4 virt = 0 := by
  have hprefix : ∀ js is, (pml4Entry virt, js ++ is) = tablePos virt →
      mapper.missing a pml4 (pml4Entry virt, js) = 0 := by
    intro js is hpos
    refine if_neg fun hzero => h ?_
    rw [← hpos, Forest.ref_append, hzero, walk_zero]
  rw [Mapper.missingFor, hprefix [] _ rfl, hprefix [pdptEntry virt] _ rfl, Mapper.missing, if_neg h]

/-- The pages of two megabytes have one last table. -/
theorem tablePos_succ (hbase : base % 2 ^ 21 = 0) (hj : j % 512 ≠ 0) :
    tablePos (base + j * pageSize) = tablePos (base + (j - 1) * pageSize) := by
  simp only [tablePos, pdEntry_eq, pdptEntry_eq, pml4Entry_eq, pageSize, Prod.mk.injEq,
    List.cons.injEq, and_true]
  omega

/-- **One turn** of a loop of `MappingIdentity`. -/
theorem Progress.step (h : Progress base pml4 a₀ a j) (hbase : base % 2 ^ 21 = 0) :
    Ends (mapping pml4 (base + j * pageSize) (j * pageSize) (ptePresent ||| pteWritable)) a
      (fun _ => Boot.Mm.stock a₀.frames < tablesFor (j + 1))
      fun _ b => Progress base pml4 a₀ b (j + 1) := by
  -- the tables that are missing have been paid for
  have hmissing : tablesFor j + mapper.missingFor a pml4 (base + j * pageSize) ≤
      tablesFor (j + 1) := by
    rw [tablesFor, tablesFor]
    by_cases hj : j % 512 = 0
    · have hle : mapper.missingFor a pml4 (base + j * pageSize) ≤ 3 :=
        Nat.add_le_add (Nat.add_le_add Mapper.missing_le Mapper.missing_le) Mapper.missing_le
      omega
    · have hlast := h.last hj
      rw [← tablePos_succ hbase hj] at hlast
      rw [missingFor_eq_zero hlast]
      omega
  have hstock := h.stock
  have hmap : Ends (mapping pml4 (base + j * pageSize) (j * pageSize) (ptePresent ||| pteWritable))
      a _ _ :=
    Mapper.map_ends h.tables (pml4Entry_lt _) (by decide : ptePresent ||| pteWritable < pageSize)
  refine (hmap.mono_error fun _ hfail => ?_).mono fun _ b hb => ?_
  · have hfail' : Boot.Mm.stock a.frames < _ := hfail
    omega
  · refine
      { tables := hb.tables
        mapped := fun v => ?_
        last := fun _ => hb.found
        stock := ?_ }
    · have hpte : entryAt b pml4 v = _ :=
        hb.pte _ (leaf_tablePos (pml4Entry_lt v)) (ptEntry v) (and_entryMask_lt _)
      by_cases hpage : pageNumber v = pageNumber (base + j * pageSize)
      · rw [if_pos (tablePos_eq_iff.mpr hpage)] at hpte
        exact .inl ⟨j, Nat.lt_succ_self j, hpage, hpte⟩
      · rw [if_neg fun hsame => hpage (tablePos_eq_iff.mp hsame)] at hpte
        rcases h.mapped v with ⟨k, hk, hpage', hentry⟩ | ⟨hnone, hentry⟩
        · exact .inl ⟨k, Nat.lt_succ_of_lt hk, hpage', hpte.trans hentry⟩
        · refine .inr ⟨fun k hk => ?_, hpte.trans hentry⟩
          rcases Nat.lt_succ_iff_lt_or_eq.mp hk with hk | rfl
          · exact hnone k hk
          · exact hpage
    · have hstock' : Boot.Mm.stock a.frames ≤ Boot.Mm.stock b.frames + _ := hb.stock
      omega

/-- **A loop of `MappingIdentity`** maps the pages for which its condition holds. -/
theorem mappingLoop_ends {more : Nat → Bool} (h : Tables supply 512 a pml4)
    (hbase : base % 2 ^ 21 = 0) (hn : base + n * pageSize ≤ 2 ^ 64) (hlt : n * pageSize < 2 ^ 64)
    (hmore : ∀ k, k ≤ n → (more (k * pageSize) = true ↔ k < n)) :
    Ends (Program.loop (mappingTurn pml4 base more) Fault.outOfFuel fuel 0) a
      (fun _ => stock a.frames < tablesFor n ∨ fuel ≤ n)
      fun _ b => Progress base pml4 a b n := by
  rw [pageSize] at hn hlt
  refine Ends.loop_or_out (I := fun k addr b => k ≤ n ∧ addr = (n - k) * pageSize ∧
    Progress base pml4 a b (n - k)) (k := n) ?_ ⟨Nat.le_refl n, ?_, ?_⟩ fun hle => .inr hle
  · rintro k addr b ⟨hk, rfl, hb⟩
    rw [mappingTurn]
    by_cases hlast : k = 0
    · rw [if_neg (by rw [hmore _ (Nat.sub_le n k)]; omega)]
      rw [hlast, Nat.sub_zero] at hb
      exact Ends.pure hb
    · rw [if_pos ((hmore _ (Nat.sub_le n k)).mpr (by omega))]
      have haddr : u64 (base + (n - k) * pageSize) = base + (n - k) * pageSize := by
        rw [u64, pageSize]
        omega
      have hnext : u64 ((n - k) * pageSize + pageSize) = (n - (k - 1)) * pageSize := by
        rw [u64, pageSize]
        omega
      have hj : n - k + 1 = n - (k - 1) := by omega
      rw [haddr, hnext]
      refine Ends.bind ((hb.step hbase).mono_error fun _ hfail => .inl ?_) fun _ c hc => ?_
      · refine Nat.lt_of_lt_of_le hfail ?_
        rw [tablesFor, tablesFor]
        omega
      · rw [hj] at hc
        exact Ends.pure ⟨k - 1, by omega, by omega, rfl, hc⟩
  · rw [Nat.sub_self, Nat.zero_mul]
  · rw [Nat.sub_self]
    exact Progress.zero h

end Range

/-! ## What `MappingIdentity` maps -/

section Identity

variable {a b : Arena Pm} {pml4 size fuel k v f : Nat}

/-- The number of pages that the second loop of `MappingIdentity` maps. -/
def windowPages (size : Nat) : Nat :=
  if size < 0xfffffffffff then (size + (pageSize - 1)) / pageSize else 0

theorem windowPages_lt (size : Nat) : windowPages size ≤ 2 ^ 32 := by
  rw [windowPages, pageSize]
  split <;> omega

/-- A page is mapped if it begins below the size. -/
theorem lt_windowPages : k < windowPages size ↔ k * pageSize < size ∧ size < 0xfffffffffff := by
  rw [windowPages, pageSize]
  split <;> omega

/-- The tables after `MappingIdentity`, on a root without tables. -/
structure Identity (a b : Arena Pm) (pml4 size : Nat) : Prop where
  mapped : ∃ E, RangeMapped 0 0xf00 (entryAt a pml4) E ∧
    RangeMapped identityBase (windowPages size) E (entryAt b pml4)

theorem mappingIdentity_ends (h : Tables supply 512 a pml4) :
    Ends (mappingIdentity fuel pml4 size) a
      (fun _ => stock a.frames < tablesFor 0xf00 + tablesFor (windowPages size) ∨
        fuel ≤ 0xf00 ∨ fuel ≤ windowPages size)
      fun _ b => Identity a b pml4 size := by
  have hlow : Ends (Program.loop (mappingTurn pml4 0 lowMore) Fault.outOfFuel fuel 0) a _ _ :=
    mappingLoop_ends (n := 0xf00) h (by decide) (by decide) (by decide) fun k hk => by
      rw [lowMore, decide_eq_true_iff, pageSize]
      omega
  refine Ends.bind (hlow.mono_error fun _ hfail => ?_) fun _ b hb => ?_
  · omega
  · have hwindow := windowPages_lt size
    have hhigh : Ends (Program.loop (mappingTurn pml4 identityBase (windowMore size))
        Fault.outOfFuel fuel 0) b _ _ :=
      mappingLoop_ends (n := windowPages size) hb.tables (by decide)
        (by rw [identityBase, pageSize]; omega) (by rw [pageSize]; omega) fun k hk => by
          rw [windowMore, Bool.and_eq_true, decide_eq_true_iff, decide_eq_true_iff,
            lt_windowPages]
    refine (hhigh.mono_error fun _ hfail => ?_).mono fun _ c hc => ⟨_, hb.mapped, hc.mapped⟩
    have hstock := hb.stock
    omega

theorem identityEntry_present (k : Nat) : identityEntry k &&& ptePresent ≠ 0 := by
  rw [identityEntry, entry_and_present]
  decide

/-- The address in an entry. -/
theorem identityEntry_addr (hk : k * pageSize < 2 ^ 64) :
    identityEntry k &&& pageMask = k * pageSize := by
  rw [identityEntry, entry_and_pageMask (by decide),
    and_pageMask_of_aligned hk (Nat.mul_mod_left k pageSize)]

theorem translate_of_entry (he : entryAt b pml4 v = identityEntry k) (hk : k * pageSize < 2 ^ 64)
    (hv : v % pageSize = 0) : translate b.mem pml4 v = some (k * pageSize) := by
  have hoff : v &&& 0xfff = 0 := (Nat.and_two_pow_sub_one_eq_mod v 12).trans hv
  show (if entryAt b pml4 v &&& ptePresent = 0 then none
    else some ((entryAt b pml4 v &&& pageMask) + (v &&& 0xfff))) = _
  rw [he, if_neg (identityEntry_present k), identityEntry_addr hk, hoff, Nat.add_zero]

/-- The page in the window of page `f` of the memory. -/
theorem pageNumber_phy2Vir : pageNumber (phy2Vir (k * pageSize)) = (0xf00000000 + k) % 2 ^ 36 := by
  rw [pageNumber, phy2Vir, u64, identityBase, pageSize]
  omega

theorem pageNumber_identityBase :
    pageNumber (identityBase + k * pageSize) = (0xf00000000 + k) % 2 ^ 36 := by
  rw [pageNumber, identityBase, pageSize]
  omega

theorem phy2Vir_mod (k : Nat) : phy2Vir (k * pageSize) % pageSize = 0 := by
  rw [phy2Vir, u64, identityBase, pageSize]
  omega

theorem small_page (hk : k ≤ 2 ^ 32) : k * pageSize < 2 ^ 64 := by
  rw [pageSize]
  omega

/-- A page that begins below the size is mapped at its address in the window. -/
theorem Identity.translate_of_lt (h : Identity a b pml4 size) (hf : f < windowPages size) :
    translate b.mem pml4 (phy2Vir (f * pageSize)) = some (f * pageSize) := by
  obtain ⟨E, -, hhigh⟩ := h.mapped
  have hbound := windowPages_lt size
  rcases hhigh (phy2Vir (f * pageSize)) with ⟨k, hk, hpage, he⟩ | ⟨hnone, -⟩
  · rw [pageNumber_phy2Vir, pageNumber_identityBase] at hpage
    have hkf : k = f := by omega
    rw [hkf] at he
    exact translate_of_entry he (small_page (by omega)) (phy2Vir_mod f)
  · refine absurd ?_ (hnone f hf)
    rw [pageNumber_phy2Vir, pageNumber_identityBase]

/-- No other page is, and its address is not mapped at all when it lies in the window. -/
theorem Identity.translate_of_ge (h : Identity a b pml4 size)
    (hempty : ∀ v, entryAt a pml4 v = 0) (hf : windowPages size ≤ f) :
    translate b.mem pml4 (phy2Vir (f * pageSize)) ≠ some (f * pageSize) ∧
      (f < 2 ^ 32 → translate b.mem pml4 (phy2Vir (f * pageSize)) = none) := by
  obtain ⟨E, hlow, hhigh⟩ := h.mapped
  have hbound := windowPages_lt size
  have hother : ∀ k, k ≤ 2 ^ 32 → k ≠ f →
      translate b.mem pml4 (phy2Vir (f * pageSize)) = some (k * pageSize) →
      translate b.mem pml4 (phy2Vir (f * pageSize)) ≠ some (f * pageSize) := by
    intro k _ hne htranslate heq
    rw [htranslate, Option.some.injEq] at heq
    exact hne (Nat.eq_of_mul_eq_mul_right (by decide : 0 < pageSize) heq)
  rcases hhigh (phy2Vir (f * pageSize)) with ⟨k, hk, hpage, he⟩ | ⟨-, he⟩
  · rw [pageNumber_phy2Vir, pageNumber_identityBase] at hpage
    have htranslate := translate_of_entry he (small_page (by omega)) (phy2Vir_mod f)
    exact ⟨hother k (by omega) (by omega) htranslate, fun hsmall => absurd hpage (by omega)⟩
  · rcases hlow (phy2Vir (f * pageSize)) with ⟨k, hk, hpage, hE⟩ | ⟨-, hE⟩
    · rw [pageNumber_phy2Vir, pageNumber, Nat.zero_add, pageSize] at hpage
      have htranslate := translate_of_entry (he.trans hE) (small_page (by omega)) (phy2Vir_mod f)
      exact ⟨hother k (by omega) (by omega) htranslate, fun hsmall => absurd hpage (by omega)⟩
    · have hzero : entryAt b pml4 (phy2Vir (f * pageSize)) = 0 := (he.trans hE).trans (hempty _)
      have htranslate : translate b.mem pml4 (phy2Vir (f * pageSize)) = none := by
        show (if entryAt b pml4 _ &&& ptePresent = 0 then none else _) = none
        rw [hzero, Nat.zero_and, if_pos rfl]
      rw [htranslate]
      exact ⟨(Option.some_ne_none _).symm, fun _ => rfl⟩

end Identity

/-! ## The frames and the window -/

section Init

variable {ram : Ram} {startAddr endAddr fuel pml4 i : Nat} {pm : Pm} {mem : Nat → UInt8}
  {a : Arena Pm}

/-- A region of memory that starts at the border of a page. -/
structure Region (startAddr endAddr : Nat) : Prop where
  aligned : startAddr % pageSize = 0
  le : startAddr ≤ endAddr
  lt : endAddr < 2 ^ 64

/-- `memset` returns when all of its bytes are there. -/
theorem memset_eq_ok_iff {dest len : Nat} :
    memset ram dest len = .ok () ↔ ∀ j, j < len → ram.has (u64 (dest + j)) = true := by
  induction len generalizing dest with
  | zero => exact ⟨fun _ j hj => absurd hj (Nat.not_lt_zero j), fun _ => rfl⟩
  | succ len ih =>
      rw [memset]
      by_cases hfirst : ram.has (u64 dest) = true
      · rw [if_pos hfirst, ih]
        constructor
        · intro hrest j hj
          cases j with
          | zero => exact hfirst
          | succ j =>
              have hnext := hrest j (Nat.lt_of_succ_lt_succ hj)
              rwa [Nat.add_assoc, Nat.add_comm 1] at hnext
        · intro hall j hj
          rw [Nat.add_assoc, Nat.add_comm 1]
          exact hall (j + 1) (Nat.succ_lt_succ hj)
      · rw [if_neg hfirst]
        exact ⟨nofun, fun hall => absurd (hall 0 (Nat.succ_pos len)) hfirst⟩

theorem initPages_eq_ok {pages n : Nat}
    (h : ∀ j, j < (i + n) * sizeofPage → ram.has (u64 (pages + j)) = true) :
    initPages ram pages n i = .ok () := by
  induction n generalizing i with
  | zero => rfl
  | succ n ih =>
      rw [initPages, if_pos, ih fun j hj => h j (by rwa [Nat.add_assoc, Nat.add_comm 1] at hj)]
      rw [List.all_eq_true]
      intro j hj
      rw [List.mem_range] at hj
      rw [Nat.add_assoc]
      refine h _ ?_
      simp only [pageFields, sizeofPage] at hj ⊢
      omega

/-- **When `frameInit` returns** there is room for a frame, and the bitmap lies in memory. -/
theorem frameInit_eq_ok (h : frameInit ram startAddr endAddr = .ok pm) :
    reservePages (maxPages startAddr endAddr) < maxPages startAddr endAddr ∧
      pm = framePm startAddr endAddr ∧
      ∀ j, j < pm.bitmapSize → ram.has (u64 (startAddr + j)) = true := by
  rw [frameInit] at h
  split at h
  · cases h
  · next hroom =>
    cases hbits : memset ram (framePm startAddr endAddr).startAddr
        (framePm startAddr endAddr).bitmapSize with
    | error f =>
        simp only [hbits] at h
        cases h
    | ok u =>
        cases hpages : initPages ram
            ((framePm startAddr endAddr).startAddr + (framePm startAddr endAddr).bitmapSize)
              (framePm startAddr endAddr).totalPages 0 with
        | error f =>
            simp only [hbits, hpages] at h
            cases h
        | ok u' =>
            simp only [hbits, hpages] at h
            injection h with h
            subst h
            exact ⟨Nat.lt_of_not_le hroom, rfl, memset_eq_ok_iff.mp hbits⟩

/-- It does return when there is room, and bitmap and `Page` array lie in memory. -/
theorem frameInit_returns
    (hroom : reservePages (maxPages startAddr endAddr) < maxPages startAddr endAddr)
    (hram : ∀ j, j < (framePm startAddr endAddr).bitmapSize +
      (framePm startAddr endAddr).totalPages * sizeofPage → ram.has (u64 (startAddr + j)) = true) :
    frameInit ram startAddr endAddr = .ok (framePm startAddr endAddr) := by
  have hstart : (framePm startAddr endAddr).startAddr = startAddr := rfl
  have hbits := memset_eq_ok_iff.mpr fun j hj => hram j (Nat.lt_add_right _ hj)
  have hpages : initPages ram (startAddr + (framePm startAddr endAddr).bitmapSize)
      (framePm startAddr endAddr).totalPages 0 = .ok () := by
    refine initPages_eq_ok fun j hj => ?_
    rw [Nat.zero_add] at hj
    rw [Nat.add_assoc]
    exact hram _ (Nat.add_lt_add_left hj _)
  rw [frameInit, if_neg (Nat.not_le.mpr hroom)]
  simp only [hstart, hbits, hpages]
  rfl

/-- What `frameInit` makes of a region that it accepts. -/
structure Initialised (startAddr endAddr : Nat) (pm : Pm) : Prop where
  frames : FramesOk pm
  start : pm.startAddr = startAddr
  metadata : pm.startUsable = startAddr + reservePages (maxPages startAddr endAddr) * pageSize
  reserved : 0 < reservePages (maxPages startAddr endAddr)
  some : 0 < pm.totalPages
  size : startAddr + pm.totalPages * pageSize < 2 ^ 64
  stock : Boot.Mm.stock pm = pm.totalPages

/-- The metadata of a region with a page takes a page. -/
theorem reservePages_pos {n : Nat} (hn : 0 < n) (hlt : n < 2 ^ 52) : 0 < reservePages n := by
  have hbits : u64 (n + 7) = n + 7 := Nat.mod_eq_of_lt (by omega)
  have hpages : u64 (n * sizeofPage) = n * 24 := Nat.mod_eq_of_lt (by rw [sizeofPage]; omega)
  have hbytes : u64 ((n + 7) / 8 + n * 24) = (n + 7) / 8 + n * 24 := Nat.mod_eq_of_lt (by omega)
  have hround : (n + 7) / 8 + n * 24 + pageSize - 1 < 2 ^ 64 := by
    rw [pageSize]
    omega
  rw [reservePages, hbits, hpages, hbytes, u64, Nat.mod_eq_of_lt hround]
  exact Nat.div_pos (by omega) (by decide)

theorem initialised_of_frameInit (h : Region startAddr endAddr)
    (hpm : frameInit ram startAddr endAddr = .ok pm) : Initialised startAddr endAddr pm := by
  have haligned := h.aligned
  have hle := h.le
  have hlt := h.lt
  have hmax : maxPages startAddr endAddr * pageSize ≤ endAddr - startAddr := by
    have hsub : sub64 endAddr startAddr = endAddr - startAddr := by
      rw [sub64, u64, u64]
      omega
    rw [maxPages, hsub]
    exact Nat.div_mul_le_self _ _
  obtain ⟨hroom, rfl, -⟩ := frameInit_eq_ok hpm
  have hbitmap : ∀ i, Bitmap.used (fun _ => 0) i = false := by
    intro i
    rw [Bitmap.used_eq_testBit]
    exact Nat.zero_testBit _
  have htotal : (framePm startAddr endAddr).totalPages =
      maxPages startAddr endAddr - reservePages (maxPages startAddr endAddr) := rfl
  have hbytes : (framePm startAddr endAddr).bitmapSize = u64 (maxPages startAddr endAddr + 7) / 8 :=
    rfl
  have hfree : (framePm startAddr endAddr).freePages = (framePm startAddr endAddr).totalPages := rfl
  have hstart : (framePm startAddr endAddr).startUsable =
      u64 (startAddr + reservePages (maxPages startAddr endAddr) * pageSize) := rfl
  rw [pageSize] at haligned hmax
  generalize hn : maxPages startAddr endAddr = n at hmax hroom htotal hbytes hstart
  have hpos := reservePages_pos (n := n) (by omega) (by omega)
  generalize hr : reservePages n = r at hroom htotal hstart hpos
  have husable : u64 (startAddr + r * pageSize) = startAddr + r * pageSize := by
    rw [u64, pageSize]
    omega
  rw [husable] at hstart
  refine
    { frames := ⟨?_, ?_, ?_, ?_⟩
      start := rfl
      metadata := by rw [hn, hr]; exact hstart
      reserved := by rw [hn, hr]; exact hpos
      some := by omega
      size := ?_
      stock := ?_ }
  · rw [hstart, pageSize]
    omega
  · rw [hstart, pageSize]
    omega
  · rw [hstart, htotal, pageSize]
    omega
  · rw [hfree, htotal]
    omega
  · rw [htotal, pageSize]
    omega
  · have hsize : (framePm startAddr endAddr).totalPages ≤
        8 * (framePm startAddr endAddr).bitmapSize := by
      rw [htotal, hbytes, u64]
      omega
    have hall : ∀ f : FrameMem, f.bitmap = (fun _ => 0) → f.freeFrames.card = f.totalPages := by
      intro f hf
      rw [FrameMem.freeFrames, hf, Finset.filter_true_of_mem fun i _ => hbitmap i,
        Finset.card_range]
    rw [Boot.Mm.stock, if_pos hsize, hall _ rfl, hfree]
    exact Nat.min_self _

/-- **The tables of `Init`**, or there are too few frames for them. -/
theorem rootTable_ends {size : Nat} (hok : FramesOk pm) :
    Ends (rootTable fuel size) ⟨pm, mem⟩
      (fun _ => stock pm < 1 + tablesFor 0xf00 + tablesFor (windowPages size) ∨
        fuel ≤ 0xf00 ∨ fuel ≤ windowPages size)
      fun pml4 b => ∃ a, Identity a b pml4 size ∧ ∀ v, entryAt a pml4 v = 0 := by
  have hnew := Mapper.newRoot_ends (S := supply) (a := ⟨pm, mem⟩) hok
  refine Ends.bind (hnew.mono_error fun _ hfail => ?_) ?_
  · have hfail' : stock pm = 0 := hfail
    omega
  rintro pml4 a ⟨htables, hempty, hstock⟩
  have hstock' : stock pm ≤ stock a.frames + 1 := hstock
  refine Ends.bind ((mappingIdentity_ends htables).mono_error fun _ hfail => ?_) ?_
  · omega
  rintro _ b hidentity
  refine Ends.pure ⟨a, hidentity, fun v => ?_⟩
  exact if_pos (hempty _ (leaf_tablePos (pml4Entry_lt v)).pos)

theorem identityTables_of_frameInit (hpm : frameInit ram startAddr endAddr = .ok pm) :
    identityTables ram fuel startAddr endAddr mem = rootTable fuel (windowSize pm) ⟨pm, mem⟩ := by
  rw [identityTables, hpm]
  rfl

/-- The tables that a run of `Init` has made. -/
theorem identity_of_identityTables (hok : FramesOk pm)
    (hpm : frameInit ram startAddr endAddr = .ok pm)
    (hrun : identityTables ram fuel startAddr endAddr mem = .ok (pml4, a)) :
    ∃ b, Identity b a pml4 (windowSize pm) ∧ ∀ v, entryAt b pml4 v = 0 := by
  rw [identityTables_of_frameInit hpm] at hrun
  exact (rootTable_ends hok).of_result hrun

/-- The tables are made when there are frames for them. -/
theorem identityTables_returns (h : Initialised startAddr endAddr pm)
    (hpm : frameInit ram startAddr endAddr = .ok pm)
    (hframes : 1 + tablesFor 0xf00 + tablesFor (windowPages (windowSize pm)) ≤ pm.totalPages)
    (hlow : 0xf00 < fuel) (hwindow : windowPages (windowSize pm) < fuel) :
    ∃ pml4 b, identityTables ram fuel startAddr endAddr mem = .ok (pml4, b) := by
  have hends : Ends (rootTable fuel (windowSize pm)) ⟨pm, mem⟩ _ _ := rootTable_ends h.frames
  rw [h.stock] at hends
  obtain ⟨pml4, b, hrun, -⟩ := (hends.mono_error fun _ hfail => by omega).exists_ok
  exact ⟨pml4, b, (identityTables_of_frameInit hpm).trans hrun⟩

/-- The page of frame `i`. -/
def framePage (pm : Pm) (i : Nat) : Nat := pm.startUsable / pageSize + i

theorem frameAddr_eq (h : FramesOk pm) : pm.frameAddr i = framePage pm i * pageSize := by
  rw [Pm.frameAddr, framePage, Nat.add_mul, Nat.div_mul_cancel (Nat.dvd_of_mod_eq_zero h.aligned)]

/-- A frame begins below the size of the window when the metadata would fit behind it. -/
theorem framePage_lt_iff (h : Initialised startAddr endAddr pm) :
    framePage pm i < windowPages (windowSize pm) ↔
      i + reservePages (maxPages startAddr endAddr) < pm.totalPages ∧
        windowSize pm < 0xfffffffffff := by
  have hsize : windowSize pm = startAddr + pm.totalPages * pageSize := by
    rw [windowSize, h.start, u64, Nat.mod_eq_of_lt h.size]
  rw [lt_windowPages, ← frameAddr_eq h.frames, hsize, Pm.frameAddr, h.metadata, Nat.add_assoc,
    Nat.add_lt_add_iff_left, ← Nat.add_mul, Nat.mul_lt_mul_right (by decide), Nat.add_comm i]

/-- **Which frames the window covers.**  Frame `i` is mapped at its address in the window exactly
when the metadata would fit behind it. -/
theorem translate_frame_iff (h : Region startAddr endAddr)
    (hpm : frameInit ram startAddr endAddr = .ok pm)
    (hrun : identityTables ram fuel startAddr endAddr mem = .ok (pml4, a)) :
    translate a.mem pml4 (phy2Vir (pm.frameAddr i)) = some (pm.frameAddr i) ↔
      i + reservePages (maxPages startAddr endAddr) < pm.totalPages ∧
        windowSize pm < 0xfffffffffff := by
  have hinit := initialised_of_frameInit h hpm
  obtain ⟨b, hidentity, hempty⟩ := identity_of_identityTables hinit.frames hpm hrun
  rw [← framePage_lt_iff hinit, frameAddr_eq hinit.frames]
  constructor
  · intro htranslate
    by_contra hge
    exact (hidentity.translate_of_ge hempty (Nat.le_of_not_lt hge)).1 htranslate
  · exact hidentity.translate_of_lt

/-- The window covers the frames: each of them is mapped at its address. -/
def Covers (pm : Pm) (mem : Nat → UInt8) (pml4 : Nat) : Prop :=
  ∀ i, i < pm.totalPages → translate mem pml4 (phy2Vir (pm.frameAddr i)) = some (pm.frameAddr i)

/-- **The window never covers the frames.**  Whatever the region is, the last of its frames is
not mapped at the address that `Phy2Vir` gives it. -/
theorem not_covers (h : Region startAddr endAddr) (hpm : frameInit ram startAddr endAddr = .ok pm)
    (hrun : identityTables ram fuel startAddr endAddr mem = .ok (pml4, a)) :
    ¬ Covers pm a.mem pml4 := by
  intro hall
  have hinit := initialised_of_frameInit h hpm
  have hsome := hinit.some
  have hreserved := hinit.reserved
  have hlast := (translate_frame_iff h hpm hrun).mp (hall (pm.totalPages - 1) (by omega))
  omega

end Init

/-! ## Sixteen megabytes -/

/-- What `frameInit` makes of the sixteen megabytes from `0x200000` on. -/
def sixteenMegabytes : Pm where
  totalPages := 4071
  freePages := 4071
  bitmap := fun _ => 0
  flag := fun _ => pageFree
  count := fun _ => 0
  startUsable := 0x219000
  bitmapSize := 512
  startAddr := 0x200000

theorem sixteenMegabytes_region : Region 0x200000 0x1200000 := ⟨by decide, by decide, by decide⟩

/-- The first gigabyte, which the tables of `head.S` map. -/
def firstGigabyte : Ram where
  has a := a < 2 ^ 30
  canonical h := .inl (Nat.lt_trans (of_decide_eq_true h) (by decide))

theorem frameInit_sixteenMegabytes :
    frameInit firstGigabyte 0x200000 0x1200000 = .ok sixteenMegabytes :=
  frameInit_returns (by decide) fun j hj => by
    have hsize : (framePm 0x200000 0x1200000).bitmapSize +
        (framePm 0x200000 0x1200000).totalPages * sizeofPage = 98216 := by decide
    rw [hsize] at hj
    refine decide_eq_true ?_
    rw [u64]
    omega

theorem identityTables_sixteenMegabytes :
    ∃ pml4 a, identityTables firstGigabyte 5000 0x200000 0x1200000 (fun _ => 0) = .ok (pml4, a) :=
  identityTables_returns
    (initialised_of_frameInit sixteenMegabytes_region frameInit_sixteenMegabytes)
    frameInit_sixteenMegabytes (by decide) (by decide) (by decide)

/-- The window does not cover them. -/
theorem not_covers_sixteenMegabytes :
    ∃ pml4 a, identityTables firstGigabyte 5000 0x200000 0x1200000 (fun _ => 0) = .ok (pml4, a) ∧
      ¬ Covers sixteenMegabytes a.mem pml4 := by
  obtain ⟨pml4, a, hrun⟩ := identityTables_sixteenMegabytes
  exact ⟨pml4, a, hrun, not_covers sixteenMegabytes_region frameInit_sixteenMegabytes hrun⟩

/-- **The last frame has no address**: nothing is mapped where `Phy2Vir` puts it. -/
theorem last_frame_not_mapped :
    ∃ pml4 a, identityTables firstGigabyte 5000 0x200000 0x1200000 (fun _ => 0) = .ok (pml4, a) ∧
      4070 < sixteenMegabytes.totalPages ∧
      translate a.mem pml4 (phy2Vir (sixteenMegabytes.frameAddr 4070)) = none := by
  obtain ⟨pml4, a, hrun⟩ := identityTables_sixteenMegabytes
  have hinit := initialised_of_frameInit sixteenMegabytes_region frameInit_sixteenMegabytes
  refine ⟨pml4, a, hrun, Nat.lt_succ_self 4070, ?_⟩
  obtain ⟨b, hidentity, hempty⟩ :=
    identity_of_identityTables hinit.frames frameInit_sixteenMegabytes hrun
  have hge : windowPages (windowSize sixteenMegabytes) ≤ framePage sixteenMegabytes 4070 := by
    decide
  have hlt : framePage sixteenMegabytes 4070 < 2 ^ 32 := by decide
  rw [frameAddr_eq hinit.frames]
  exact (hidentity.translate_of_ge hempty hge).2 hlt

end InfoKernel.Boot.Mm
