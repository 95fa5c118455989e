import InfoKernel.Boot.Mm
import InfoKernel.Mm.PageRuns

/-!
# The frames change hands

The boot code hands out single frames with its own `Alloc`, and the kernel goes on with
`AllocPages` on the same `FrameMem`.  The two searches are written differently: `Alloc` goes
through the bytes of the bitmap, jumps over the full ones and breaks out of the eight bits of a
byte at the last frame, while `AllocPages` goes from frame to frame.

Both end at the lowest free frame (`firstFree_isLeast`, `search_lowest`), whatever the bits behind
the last frame are, and both mark it in the same way.  So it does not matter to the frames which of
the two is called (`alloc_eq_allocPages`); only the address is physical in the one case and in the
kernel's window in the other.
-/

namespace InfoKernel.Boot.Mm

open InfoKernel.Lib InfoKernel.Mm InfoKernel.Mm.Page

variable {pm : Pm} {fuel i idx byte bit : Nat}

/-- The first free bit of a byte comes before the other free bits of the byte. -/
theorem freeBit_least (h : pm.freeBit byte = some bit) (hfree : pm.bitmap.used i = false)
    (hbyte : i / 8 = byte) : bit ≤ i % 8 := by
  rw [Pm.freeBit, takeWhile_range, List.find?_range_eq_some] at h
  obtain ⟨-, -, hbefore⟩ := h
  by_contra hgt
  have hused := hbefore (i % 8) (Nat.lt_of_not_le hgt)
  have hidx : byte * 8 + i % 8 = i := by omega
  rw [hidx, hfree] at hused
  exact absurd hused (by decide)

/-- A byte without a free bit has no free frame. -/
theorem freeBit_none (h : pm.freeBit byte = none) (hlt : i < pm.totalPages)
    (hbyte : i / 8 = byte) : pm.bitmap.used i = true := by
  rw [Pm.freeBit, takeWhile_range, List.find?_eq_none] at h
  have hused := h (i % 8) (List.mem_range.mpr (by omega))
  have hidx : byte * 8 + i % 8 = i := by omega
  rw [hidx] at hused
  simpa using hused

/-- A byte that `Alloc` jumps over, or leaves without a result, has no free frame. -/
theorem used_of_byte {f : Nat → Nat}
    (h : (if pm.bitmap byte ≠ 0xff then (pm.freeBit byte).map f else none) = none)
    (hlt : i < pm.totalPages) (hbyte : i / 8 = byte) : pm.bitmap.used i = true := by
  by_cases hfull : pm.bitmap byte ≠ 0xff
  · rw [if_pos hfull, Option.map_eq_none_iff] at h
    exact freeBit_none h hlt hbyte
  · by_contra hfree
    rw [Bool.not_eq_true] at hfree
    rw [← hbyte] at hfull
    exact hfull (byte_ne_full hfree)

/-- **The search of `Alloc`** ends at the lowest free frame. -/
theorem firstFree_isLeast (h : pm.firstFree = some idx) :
    IsLeast {i | i ∈ pm.freeFrames} idx := by
  refine ⟨FrameMem.mem_freeFrames.mpr (firstFree_spec h), fun i hi => ?_⟩
  obtain ⟨hlt, hfree⟩ := FrameMem.mem_freeFrames.mp hi
  rw [Pm.firstFree, List.findSome?_eq_some_iff] at h
  obtain ⟨before, byte, after, hrange, hbyte, hbefore⟩ := h
  have hsorted : (before ++ byte :: after).Pairwise (· < ·) := hrange ▸ List.pairwise_lt_range
  have hmem : ∀ b, b ∈ before ++ byte :: after ↔ b < pm.bitmapSize := fun b => by
    rw [← hrange, List.mem_range]
  have hidx : ∃ bit, pm.freeBit byte = some bit ∧ byte * 8 + bit = idx := by
    split at hbyte
    · exact Option.map_eq_some_iff.mp hbyte
    · cases hbyte
  obtain ⟨bit, hbit, rfl⟩ := hidx
  rcases Nat.lt_trichotomy (i / 8) byte with hlow | hsame | hhigh
  · -- the bytes before have no free frame
    have hin : i / 8 ∈ before := by
      have hsize := (hmem byte).mp (List.mem_append_right _ List.mem_cons_self)
      have hall := (hmem (i / 8)).mpr (by omega)
      rw [List.mem_append, List.mem_cons] at hall
      rcases hall with hin | hsame | hafter
      · exact hin
      · omega
      · have hgt := List.rel_of_pairwise_cons (List.pairwise_append.mp hsorted).2.1 hafter
        omega
    rw [used_of_byte (hbefore (i / 8) hin) hlt rfl] at hfree
    exact absurd hfree (by decide)
  · have hle := freeBit_least hbit hfree hsame
    omega
  · have hlt' : bit < 8 := by
      rw [Pm.freeBit, takeWhile_range] at hbit
      have hin := List.mem_range.mp (List.mem_of_find?_eq_some hbit)
      omega
    omega

/-- A run of one frame is a free frame. -/
theorem freeRun_one {frame : FrameMem} : FreeRun frame 1 i ↔ i ∈ frame.freeFrames := by
  rw [FrameMem.mem_freeFrames]
  constructor
  · intro h
    have hfits := h.fits
    exact ⟨by omega, h.free i ⟨Nat.le_refl i, Nat.lt_succ_self i⟩⟩
  · rintro ⟨hlt, hfree⟩
    refine ⟨hlt, fun j hj => ?_⟩
    obtain ⟨hge, hlt'⟩ := hj
    have hji : j = i := by omega
    rw [hji]
    exact hfree

/-- **`Alloc` and `AllocPages(1)` hand out the same frame** and leave the same frames, and neither
fails while the counter is right and not 0. -/
theorem alloc_eq_allocPages (htotal : pm.totalPages < 2 ^ 64)
    (hright : CountRight pm.toFrameMem) (hpos : 0 < pm.freePages)
    (hbitmap : pm.totalPages ≤ pm.bitmapSize * 8) (hfuel : pm.totalPages < fuel) :
    ∃ idx pm', IsLeast {i | i ∈ pm.freeFrames} idx ∧
      pm.alloc = .ok (pm', u64 (pm.frameAddr idx)) ∧
      allocPages fuel pm.toFrameMem 1 =
        .ok (pm'.toFrameMem, phy2Vir (u64 (pm.frameAddr idx))) ∧
      pm'.bitmapSize = pm.bitmapSize ∧ pm'.startAddr = pm.startAddr := by
  have hcard : pm.freePages = pm.freeFrames.card := hright
  obtain ⟨i, hi⟩ : pm.freeFrames.Nonempty := Finset.card_pos.mp (by omega)
  obtain ⟨idx, hidx⟩ := firstFree_isSome hi (by omega)
  have hleast := firstFree_isLeast hidx
  obtain ⟨r, hloop, hr⟩ :=
    search_lowest (n := 1) (show pm.toFrameMem.totalPages < 2 ^ 64 from htotal)
    (fun hnone => absurd (freeRun_one.mpr hi) (hnone i)) hfuel
  have hsame : r = some idx := by
    cases r with
    | none => exact absurd (freeRun_one.mpr hi) (hr i)
    | some first =>
        have hle := hr.2 (freeRun_one.mpr hleast.1)
        have hge := hleast.2 (freeRun_one.mp hr.1)
        rw [Nat.le_antisymm hle hge]
  have hlt := (FrameMem.mem_freeFrames.mp hleast.1).1
  have hmark : pm.toFrameMem.markPages idx 1 = pm.toFrameMem.markPage idx := by
    have h0 : u64 (idx + 0) = idx := Nat.mod_eq_of_lt (by omega)
    rw [FrameMem.markPages_succ, h0]
    rfl
  let frame' : FrameMem := { pm.toFrameMem.markPage idx with freePages := sub64 pm.freePages 1 }
  refine ⟨idx, { pm with toFrameMem := frame' }, hleast, ?_, ?_, rfl, rfl⟩
  · rw [Pm.alloc, if_neg (Nat.pos_iff_ne_zero.mp hpos), hidx]
    rfl
  · rw [allocPages]
    simp only [Nat.one_ne_zero, if_false]
    rw [if_neg (Nat.not_lt.mpr hpos), hloop, hsame]
    show Except.ok ({ pm.toFrameMem.markPages idx 1 with freePages := sub64 pm.freePages 1 }, _) = _
    rw [hmark]
    rfl

/-- Ten frames, of which only the last is free. -/
def tenFrames : Pm where
  totalPages := 10
  freePages := 1
  bitmap := fun byte => if byte = 0 then 0xff else 0xfd
  flag := fun _ => pageUsed
  count := fun _ => 1
  startUsable := 0x200000
  bitmapSize := 2
  startAddr := 0x1ff000

/-- The last frame is found in the byte behind the full one. -/
theorem alloc_eq_allocPages_tenFrames : ∃ pm', tenFrames.alloc = .ok (pm', 0x209000) ∧
    allocPages 11 tenFrames.toFrameMem 1 = .ok (pm'.toFrameMem, phy2Vir 0x209000) := by
  have hright : CountRight tenFrames.toFrameMem :=
    show 1 = tenFrames.freeFrames.card by decide
  obtain ⟨idx, pm', hleast, hboot, hkernel, -⟩ := alloc_eq_allocPages (by decide)
    hright (by decide) (by decide) (show tenFrames.totalPages < 11 by decide)
  have hidx : idx = 9 := by
    have hmem : idx ∈ tenFrames.freeFrames := hleast.1
    have hall : tenFrames.freeFrames = {9} := by decide
    rwa [hall, Finset.mem_singleton] at hmem
  rw [hidx] at hboot hkernel
  exact ⟨pm', hboot, hkernel⟩

end InfoKernel.Boot.Mm
