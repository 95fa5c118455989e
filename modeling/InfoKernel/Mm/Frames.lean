import Mathlib.Data.Finset.Card
import InfoKernel.Mm.Page
import Mathlib.Tactic.ByContra

/-!
# Single frames

Page tables are built from single frames.  `Takes` says what it means that an allocator has
handed out frame `i`, and `freeFrames` is the set of frames that are left; each call makes it
smaller by one.  `allocPages_one` says that `AllocPages(1)` returns a frame as long as one is
left and `free_pages` admits it.
-/

namespace InfoKernel.Mm.Page

open InfoKernel.Lib

namespace FrameMem

/-- The frames that are marked free. -/
def freeFrames (frame : FrameMem) : Finset Nat :=
  (Finset.range frame.totalPages).filter fun i => frame.bitmap.used i = false

theorem mem_freeFrames {frame : FrameMem} {i : Nat} :
    i ∈ frame.freeFrames ↔ i < frame.totalPages ∧ frame.bitmap.used i = false := by
  rw [freeFrames, Finset.mem_filter, Finset.mem_range]

end FrameMem

variable {frame frame' : FrameMem} {fuel i p : Nat}

/-- The frame `i` has been handed out. -/
structure Takes (frame frame' : FrameMem) (i : Nat) : Prop where
  lt : i < frame.totalPages
  wasFree : frame.bitmap.used i = false
  used : ∀ j, frame'.bitmap.used j = true ↔ j = i ∨ frame.bitmap.used j = true
  enough : 0 < frame.freePages
  freePages : frame'.freePages = frame.freePages - 1
  totalPages : frame'.totalPages = frame.totalPages
  startUsable : frame'.startUsable = frame.startUsable

namespace Takes

theorem mem (h : Takes frame frame' i) : i ∈ frame.freeFrames :=
  FrameMem.mem_freeFrames.mpr ⟨h.lt, h.wasFree⟩

/-- The frames that are left. -/
theorem freeFrames (h : Takes frame frame' i) : frame'.freeFrames = frame.freeFrames.erase i := by
  ext j
  rw [Finset.mem_erase, FrameMem.mem_freeFrames, FrameMem.mem_freeFrames, h.totalPages,
    ← Bool.not_eq_true, h.used, not_or, Bool.not_eq_true]
  exact and_left_comm

theorem card (h : Takes frame frame' i) :
    frame.freeFrames.card = frame'.freeFrames.card + 1 := by
  rw [h.freeFrames, Finset.card_erase_add_one h.mem]

end Takes

/-- What `AllocPages(1)` does when it returns a page. -/
theorem takes_of_allocPages (htotal : frame.totalPages < 2 ^ 63) (hfree : frame.freePages < 2 ^ 64)
    (h : allocPages fuel frame 1 = .ok (frame', p)) (hp : p ≠ 0) :
    ∃ i, Takes frame frame' i ∧ p = phy2Vir (u64 (frame.startUsable + i * pageSize)) := by
  rcases allocPages_spec (by omega) htotal h with ⟨-, hnull⟩ | ⟨i, hall⟩
  · exact absurd hnull hp
  · rw [if_neg (by decide)] at hall
    have hfits := hall.fits
    have henough := hall.enough
    refine ⟨i,
      { lt := by omega
        wasFree := hall.wasFree i ⟨Nat.le_refl i, by omega⟩
        used := fun j => ?_
        enough := henough
        freePages := ?_
        totalPages := hall.totalPages
        startUsable := hall.startUsable }, hall.addr⟩
    · rw [hall.used, InRange]
      exact or_congr_left (by omega)
    · rw [hall.freePages, sub64, u64, u64]
      omega

/-- The first used of one frame. -/
theorem firstUsed_one {s : Nat} (hs : s < 2 ^ 64) :
    frame.firstUsed s 1 = if frame.bitmap.used s = true then some 0 else none := by
  have hidx : u64 (s + 0) = s := Nat.mod_eq_of_lt hs
  rw [FrameMem.firstUsed, List.range_one, List.find?_cons, hidx]
  cases frame.bitmap.used s <;> rfl

/-- **`AllocPages(1)` returns a frame** while there is one and `free_pages` is not 0. -/
theorem allocPages_one (hfuel : frame.totalPages < fuel) (htotal : frame.totalPages < 2 ^ 63)
    (henough : 0 < frame.freePages) (hleft : 0 < frame.freeFrames.card) :
    ∃ frame' p, allocPages fuel frame 1 = .ok (frame', p) ∧
      ∃ i, i < frame.totalPages ∧ p = phy2Vir (u64 (frame.startUsable + i * pageSize)) := by
  obtain ⟨i₀, hi₀⟩ := Finset.card_pos.mp hleft
  rw [FrameMem.mem_freeFrames] at hi₀
  -- all frames before `s` are used
  let I : Nat → Nat → Prop := fun k s => s + k = frame.totalPages ∧
    ∀ i, i < s → frame.bitmap.used i = true
  let Q : Option Nat → Prop := fun r => ∃ s, r = some s ∧ s < frame.totalPages
  have hloop : ∃ r, loop (frame.searchTurn 1) Fault.outOfFuel fuel 0 = .ok r ∧ Q r := by
    refine loop_returns (I := I) (k := frame.totalPages) ?_ ⟨Nat.zero_add _, nofun⟩ hfuel
    rintro k s ⟨hk, hused⟩
    have hs : s ≤ i₀ := by
      by_contra hlt
      rw [hused i₀ (by omega)] at hi₀
      exact absurd hi₀.2 (by decide)
    have hsum : u64 (s + 1) = s + 1 := Nat.mod_eq_of_lt (by omega)
    have hlt := hi₀.1
    rw [FrameMem.searchTurn, hsum, if_pos (by omega), firstUsed_one (by omega)]
    by_cases hbit : frame.bitmap.used s = true
    · rw [if_pos hbit]
      refine ⟨_, rfl, k - 1, by omega, ?_, fun i hi => ?_⟩
      · show u64 (s + 0 + 1) + (k - 1) = frame.totalPages
        rw [Nat.add_zero, hsum]
        omega
      · have hi' : i < s + 1 := by
          rw [← hsum]
          exact hi
        rcases Nat.lt_succ_iff_lt_or_eq.mp hi' with hi' | rfl
        · exact hused i hi'
        · exact hbit
    · rw [if_neg hbit]
      exact ⟨_, rfl, s, rfl, by omega⟩
  obtain ⟨r, hr, s, rfl, hs⟩ := hloop
  refine ⟨{ frame.markPages s 1 with freePages := sub64 frame.freePages 1 }, _, ?_, s, hs, rfl⟩
  rw [allocPages]
  simp only [Nat.one_ne_zero, if_false]
  rw [if_neg (by omega), hr]
  rfl

end InfoKernel.Mm.Page
