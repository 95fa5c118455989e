import InfoKernel.Fault
import InfoKernel.Machine
import InfoKernel.Lib.Bitmap
import InfoKernel.Lib.Bytes
import InfoKernel.Lib.Loop

/-!
# Page frames

The model of the allocator in `src/mm/page.cc`: `AllocPages` and `FreePages`, which keep the
bitmap of the page frames, and `Alloc` and `Free`, which store the number of pages in the
memory that they hand out.

The bitmap and the array of `Page` records lie outside the frames they describe, so they are
parts of `FrameMem` of their own.  `Heap` adds the memory, addressed as the kernel sees it.
-/

namespace InfoKernel.Mm.Page

open InfoKernel.Lib

/-- `PAGE_SIZE` -/
def pageSize : Nat := 0x1000

/-- `PAGE_FREE` -/
def pageFree : Nat := 0

/-- `PAGE_USED` -/
def pageUsed : Nat := 1

/-- `struct FrameMem`, with the fields `flag` and `count` of the `Page` array. -/
structure FrameMem where
  totalPages : Nat
  freePages : Nat
  bitmap : Bitmap
  flag : Nat → Nat
  count : Nat → Nat
  startUsable : Nat

namespace FrameMem

variable (frame : FrameMem)

/-- Mark the frame `idx` used. -/
def markPage (idx : Nat) : FrameMem :=
  { frame with
    bitmap := frame.bitmap.mark idx
    flag := Function.update frame.flag idx pageUsed
    count := Function.update frame.count idx 1 }

/-- Mark the frame `cur` free. -/
def clearPage (cur : Nat) : FrameMem :=
  { frame with
    bitmap := frame.bitmap.clear cur
    flag := Function.update frame.flag cur pageFree
    count := Function.update frame.count cur 0 }

/-- The loop of `AllocPages` that marks `n` frames. -/
def markPages (start n : Nat) : FrameMem :=
  (List.range n).foldl (fun f j => f.markPage (u64 (start + j))) frame

/-- The loop of `FreePages`, after `n` turns. -/
def clearPages (idx n : Nat) : FrameMem :=
  (List.range n).foldl (fun f i => f.clearPage (idx + i)) frame

/-- The inner loop of the search in `AllocPages`: the first of `n` frames that is used. -/
def firstUsed (start n : Nat) : Option Nat :=
  (List.range n).find? fun j => frame.bitmap.used (u64 (start + j))

/-- A turn of the search in `AllocPages`, with the loop variable `start`. -/
def searchTurn (n start : Nat) : Except Fault (Turn Nat (Option Nat)) :=
  if u64 (start + n) ≤ frame.totalPages then
    match frame.firstUsed start n with
    | some j => .ok (.again (u64 (start + j + 1)))
    | none => .ok (.leave (some start))
  else .ok (.leave none)

end FrameMem

/-- `AllocPages`; the second component is the address it returns. -/
def allocPages (fuel : Nat) (frame : FrameMem) (n : Nat) : Except Fault (FrameMem × Nat) :=
  let n := if n = 0 then 1 else n
  if frame.freePages < n then .ok (frame, 0)
  else do
    match ← loop (frame.searchTurn n) Fault.outOfFuel fuel 0 with
    | none => return (frame, 0)
    | some start =>
        return ({ frame.markPages start n with freePages := sub64 frame.freePages n },
          phy2Vir (u64 (frame.startUsable + start * pageSize)))

/-- `FreePages` -/
def freePages (frame : FrameMem) (addr n : Nat) : FrameMem :=
  if addr = 0 ∨ n = 0 then frame
  else if addr < frame.startUsable then frame
  else
    let idx := (addr - frame.startUsable) / pageSize
    if idx ≥ frame.totalPages then frame
    else
      { frame.clearPages idx (min n (frame.totalPages - idx)) with
        freePages := u64 (frame.freePages + n) }

/-- The page frames and the memory. -/
structure Heap where
  frame : FrameMem
  mem : Nat → UInt8

namespace Heap

variable (h : Heap)

/-- The number of pages for which `Alloc` asks `AllocPages`. -/
def pagesFor (size : Nat) : Nat :=
  let size := if size = 0 then 1 else size
  let total := u64 (size + 8)
  u64 (total + pageSize - 1) / pageSize

/-- `Alloc` -/
def alloc (fuel size : Nat) : Except Fault (Heap × Nat) := do
  let pages := pagesFor size
  let (frame, base) ← allocPages fuel h.frame pages
  if base = 0 then return ({ h with frame := frame }, 0)
  else return (⟨frame, setLE h.mem base 8 pages⟩, base)

/-- The page that holds the header which `Free` reads. -/
def headerPage (addr : Nat) : Nat :=
  let header := sub64 addr 8
  header - header % pageSize

/-- `Free` -/
def free (addr : Nat) : Heap :=
  if addr = 0 then h
  else { h with frame := freePages h.frame addr (getLE h.mem (headerPage addr) 8) }

end Heap

/-! ## The bitmap -/

namespace FrameMem

variable {frame : FrameMem}

theorem markPages_succ (start n : Nat) :
    frame.markPages start (n + 1) = (frame.markPages start n).markPage (u64 (start + n)) := by
  rw [markPages, List.range_succ, List.foldl_append]
  rfl

theorem clearPages_succ (idx n : Nat) :
    frame.clearPages idx (n + 1) = (frame.clearPages idx n).clearPage (idx + n) := by
  rw [clearPages, List.range_succ, List.foldl_append]
  rfl

@[simp] theorem markPages_totalPages (start n : Nat) :
    (frame.markPages start n).totalPages = frame.totalPages := by
  induction n with
  | zero => rfl
  | succ n ih => rw [markPages_succ, ← ih]; rfl

@[simp] theorem markPages_startUsable (start n : Nat) :
    (frame.markPages start n).startUsable = frame.startUsable := by
  induction n with
  | zero => rfl
  | succ n ih => rw [markPages_succ, ← ih]; rfl

@[simp] theorem clearPages_totalPages (idx n : Nat) :
    (frame.clearPages idx n).totalPages = frame.totalPages := by
  induction n with
  | zero => rfl
  | succ n ih => rw [clearPages_succ, ← ih]; rfl

@[simp] theorem clearPages_startUsable (idx n : Nat) :
    (frame.clearPages idx n).startUsable = frame.startUsable := by
  induction n with
  | zero => rfl
  | succ n ih => rw [clearPages_succ, ← ih]; rfl

/-- The bits after `n` frames from `start` on have been marked. -/
theorem used_markPages {start n : Nat} (hn : start + n ≤ 2 ^ 64) (i : Nat) :
    (frame.markPages start n).bitmap.used i = true ↔
      (start ≤ i ∧ i < start + n) ∨ frame.bitmap.used i = true := by
  induction n with
  | zero =>
      simp [markPages]
  | succ n ih =>
      have hidx : u64 (start + n) = start + n := Nat.mod_eq_of_lt (by omega)
      rw [markPages_succ, hidx, markPage, Bitmap.used_mark, Bool.or_eq_true, decide_eq_true_eq,
        ih (by omega)]
      constructor
      · rintro (h | h | h)
        · exact .inl (by omega)
        · exact .inl (by omega)
        · exact .inr h
      · rintro (h | h)
        · by_cases hi : i = start + n
          · exact .inl hi
          · exact .inr (.inl (by omega))
        · exact .inr (.inr h)

/-- The bits after `n` frames from `idx` on have been cleared. -/
theorem used_clearPages (idx n i : Nat) :
    (frame.clearPages idx n).bitmap.used i = true ↔
      ¬ (idx ≤ i ∧ i < idx + n) ∧ frame.bitmap.used i = true := by
  induction n with
  | zero =>
      simp [clearPages]
  | succ n ih =>
      rw [clearPages_succ, clearPage, Bitmap.used_clear, Bool.and_eq_true, decide_eq_true_eq, ih]
      constructor
      · rintro ⟨hne, hout, h⟩
        exact ⟨by omega, h⟩
      · rintro ⟨hout, h⟩
        exact ⟨by omega, by omega, h⟩

/-- The inner loop finds none of the frames used. -/
theorem not_used_of_firstUsed_eq_none {start n j : Nat} (h : frame.firstUsed start n = none)
    (hj : j < n) : frame.bitmap.used (u64 (start + j)) = false := by
  rw [firstUsed, List.find?_eq_none] at h
  exact Bool.eq_false_iff.mpr (h j (List.mem_range.mpr hj))

end FrameMem

/-! ## What the calls do -/

variable {frame frame' : FrameMem} {fuel n p : Nat}

/-- The frames `first` to `first + n - 1`. -/
def InRange (first n i : Nat) : Prop := first ≤ i ∧ i < first + n

/-- **The search of `AllocPages`** ends at `n` free frames. -/
theorem search_spec {start : Nat} (hn : frame.totalPages + n < 2 ^ 64)
    (h : loop (frame.searchTurn n) Fault.outOfFuel fuel 0 = .ok (some start)) :
    start + n ≤ frame.totalPages ∧ ∀ i, InRange start n i → frame.bitmap.used i = false := by
  let I : Nat → Prop := fun s => s ≤ frame.totalPages
  let Q : Option Nat → Prop := fun r => ∀ s, r = some s → s + n ≤ frame.totalPages ∧
    ∀ i, InRange s n i → frame.bitmap.used i = false
  refine loop_post (I := I) (Q := Q) (fun s u hs hu => ?_) (Nat.zero_le _) h start rfl
  have hs' : s ≤ frame.totalPages := hs
  have hsum : u64 (s + n) = s + n := Nat.mod_eq_of_lt (by omega)
  rw [FrameMem.searchTurn, hsum] at hu
  split at hu
  · next hle =>
    split at hu
    · next j hj =>
      have hlt : j < n := List.mem_range.mp (List.mem_of_find?_eq_some hj)
      have hnext : u64 (s + j + 1) = s + j + 1 := Nat.mod_eq_of_lt (by omega)
      rw [hnext] at hu
      exact .again hu (show s + j + 1 ≤ frame.totalPages by omega)
    · next hnone =>
      refine .leave hu fun s' hs'' => ?_
      injection hs'' with hs''
      rw [← hs'']
      refine ⟨hle, fun i hi => ?_⟩
      have hi' := FrameMem.not_used_of_firstUsed_eq_none hnone (j := i - s)
        (by have := hi.1; have := hi.2; omega)
      have hidx : u64 (s + (i - s)) = i := by
        have := hi.1
        have := hi.2
        rw [u64, Nat.mod_eq_of_lt (by omega)]
        omega
      rwa [hidx] at hi'
  · exact .leave hu fun s' hs'' => by cases hs''

/-- What `AllocPages` has done when it returns the frames from `first` on. -/
structure Allocated (frame : FrameMem) (n first : Nat) (frame' : FrameMem) (p : Nat) :
    Prop where
  fits : first + n ≤ frame.totalPages
  enough : n ≤ frame.freePages
  wasFree : ∀ i, InRange first n i → frame.bitmap.used i = false
  used : ∀ i, frame'.bitmap.used i = true ↔ InRange first n i ∨ frame.bitmap.used i = true
  freePages : frame'.freePages = sub64 frame.freePages n
  totalPages : frame'.totalPages = frame.totalPages
  startUsable : frame'.startUsable = frame.startUsable
  addr : p = phy2Vir (u64 (frame.startUsable + first * pageSize))

/-- **`AllocPages`** fails and changes nothing, or marks the frames that it returns. -/
theorem allocPages_spec (hn : frame.totalPages + n < 2 ^ 64) (htotal : frame.totalPages < 2 ^ 63)
    (h : allocPages fuel frame n = .ok (frame', p)) :
    (frame' = frame ∧ p = 0) ∨
      ∃ first, Allocated frame (if n = 0 then 1 else n) first frame' p := by
  rw [allocPages] at h
  generalize hm : (if n = 0 then 1 else n) = m at h ⊢
  have hm' : frame.totalPages + m < 2 ^ 64 := by
    split at hm <;> omega
  simp only at h
  split at h
  · injection h with h
    obtain ⟨rfl, rfl⟩ := Prod.mk.inj h
    exact .inl ⟨rfl, rfl⟩
  · next henough =>
    rw [bind_eq_ok_iff] at h
    obtain ⟨r, hloop, h⟩ := h
    cases r with
    | none =>
        injection h with h
        obtain ⟨rfl, rfl⟩ := Prod.mk.inj h
        exact .inl ⟨rfl, rfl⟩
    | some start =>
        injection h with h
        obtain ⟨rfl, rfl⟩ := Prod.mk.inj h
        obtain ⟨hfits, hfree⟩ := search_spec hm' hloop
        exact .inr ⟨start,
          { fits := hfits
            enough := Nat.le_of_not_lt henough
            wasFree := hfree
            used := fun i => FrameMem.used_markPages (by omega) i
            freePages := rfl
            totalPages := FrameMem.markPages_totalPages _ _
            startUsable := FrameMem.markPages_startUsable _ _
            addr := rfl }⟩

/-- Eight free frames from the physical address `0x300000` on. -/
def eightFrames : FrameMem where
  totalPages := 8
  freePages := 8
  bitmap := fun _ => 0
  flag := fun _ => pageFree
  count := fun _ => 0
  startUsable := 0x300000

end InfoKernel.Mm.Page
