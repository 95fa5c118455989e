import InfoKernel.Lib.Run
import InfoKernel.Mm.Frames
import Mathlib.Order.Bounds.Defs
import Mathlib.Order.Interval.Finset.Nat

/-!
# Runs of page frames

`AllocPages` hands out frames that follow each other.  Its search goes on behind the first used
frame that it meets, by changing the variable of the outer loop within the inner one.  That this
never jumps over frames it could have taken is `FreeRun.lt_of_used`: free frames that begin at or
behind the place of the search, with a used frame less than `n` places on, begin behind that frame.
So `AllocPages` takes the lowest frames that there are (`allocPages_lowest`), and it fails only
when there are none.

## The counter

`free_pages` decides whether a search is made at all.  `AllocPages` and the loop of `FreePages`
change the bitmap frame by frame, and the loop stops at the last frame; what `FreePages` adds to
the counter is the number that it was given.  The two agree exactly for frames that are all there
and all in use (`FreeSafe`), and `countRight_iff_freeSafe` says that the counter stays right over
exactly the runs whose calls are of this kind.
-/

namespace InfoKernel.Mm.Page

open InfoKernel.Lib

variable {frame frame' : FrameMem} {fuel n first i addr p : Nat}

instance (first n i : Nat) : Decidable (InRange first n i) :=
  inferInstanceAs (Decidable (_ ∧ _))

/-- The `n` frames from `first` on are there and free. -/
structure FreeRun (frame : FrameMem) (n first : Nat) : Prop where
  fits : first + n ≤ frame.totalPages
  free : ∀ i, InRange first n i → frame.bitmap.used i = false

/-- `free_pages` is the number of the frames that are marked free. -/
def CountRight (frame : FrameMem) : Prop := frame.freePages = frame.freeFrames.card

/-- A frame state with the right counter.  A `Page` takes 24 bytes, and the `Page` array lies in
the memory. -/
structure Counted (frame : FrameMem) : Prop where
  right : CountRight frame
  pages : frame.totalPages * 24 ≤ 2 ^ 64

/-! ## The search -/

/-- **Nothing is jumped over.**  Frames that begin at or behind the place of the search begin
behind a used frame that is less than `n` places on. -/
theorem FreeRun.lt_of_used {s j : Nat} (h : FreeRun frame n first) (hs : s ≤ first)
    (hj : j < n) (hused : frame.bitmap.used (s + j) = true) : s + j < first := by
  by_contra hle
  have hfree := h.free (s + j) ⟨by omega, by omega⟩
  rw [hused] at hfree
  exact absurd hfree (by decide)

/-- The frames of a run are free frames. -/
theorem FreeRun.subset (h : FreeRun frame n first) :
    Finset.Ico first (first + n) ⊆ frame.freeFrames := by
  intro i hi
  rw [Finset.mem_Ico] at hi
  have hfits := h.fits
  exact FrameMem.mem_freeFrames.mpr ⟨by omega, h.free i hi⟩

/-- There are as many free frames as a run has. -/
theorem FreeRun.le_card (h : FreeRun frame n first) : n ≤ frame.freeFrames.card := by
  have hle := Finset.card_le_card h.subset
  rw [Nat.card_Ico] at hle
  omega

/-- There are not more free frames than frames. -/
theorem card_freeFrames_le : frame.freeFrames.card ≤ frame.totalPages := by
  have hle := Finset.card_filter_le (Finset.range frame.totalPages)
    fun i => frame.bitmap.used i = false
  rwa [Finset.card_range] at hle

/-- What the search for `n` frames may answer. -/
def Searched (frame : FrameMem) (n : Nat) : Option Nat → Prop
  | none => ∀ first, ¬ FreeRun frame n first
  | some first => IsLeast {f | FreeRun frame n f} first

/-- **The search of `AllocPages`** ends at the lowest `n` free frames that follow each other.
Where there are such frames, it does not get to a place where the sum `start + n` could wrap. -/
theorem search_lowest (htotal : frame.totalPages < 2 ^ 64)
    (hn : (∀ first, ¬ FreeRun frame n first) → frame.totalPages + n < 2 ^ 64)
    (hfuel : frame.totalPages < fuel) :
    ∃ r, loop (frame.searchTurn n) Fault.outOfFuel fuel 0 = .ok r ∧ Searched frame n r := by
  -- no `n` free frames begin before the place of the search
  let I : Nat → Nat → Prop := fun k s => s + k = frame.totalPages ∧
    ∀ first, FreeRun frame n first → s ≤ first
  refine loop_returns (I := I) (k := frame.totalPages) ?_
    ⟨Nat.zero_add _, fun first _ => Nat.zero_le first⟩ hfuel
  rintro k s ⟨hk, hbehind⟩
  have hsum : u64 (s + n) = s + n := by
    refine Nat.mod_eq_of_lt ?_
    by_cases hnone : ∀ first, ¬ FreeRun frame n first
    · have hlt := hn hnone
      omega
    · push Not at hnone
      obtain ⟨first, hrun⟩ := hnone
      have hs := hbehind first hrun
      have hfits := hrun.fits
      omega
  rw [FrameMem.searchTurn, hsum]
  by_cases hfits : s + n ≤ frame.totalPages
  · rw [if_pos hfits]
    cases hfirst : frame.firstUsed s n with
    | none =>
        refine ⟨_, rfl, ⟨hfits, fun i hi => ?_⟩, fun first hrun => hbehind first hrun⟩
        obtain ⟨hge, hlt⟩ := hi
        have hfree := FrameMem.not_used_of_firstUsed_eq_none hfirst (j := i - s) (by omega)
        have hidx : u64 (s + (i - s)) = i := by
          rw [u64, Nat.mod_eq_of_lt (by omega)]
          omega
        rwa [hidx] at hfree
    | some j =>
        have hj : j < n := List.mem_range.mp (List.mem_of_find?_eq_some hfirst)
        have hused := List.find?_some hfirst
        have hidx : u64 (s + j) = s + j := Nat.mod_eq_of_lt (by omega)
        have hnext : u64 (s + j + 1) = s + j + 1 := Nat.mod_eq_of_lt (by omega)
        rw [hidx] at hused
        refine ⟨_, rfl, k - (j + 1), by omega, ?_⟩
        rw [hnext]
        exact ⟨by omega, fun first hrun => hrun.lt_of_used (hbehind first hrun) hj hused⟩
  · rw [if_neg hfits]
    refine ⟨_, rfl, fun first hrun => hfits ?_⟩
    have hle := hrun.fits
    have hs := hbehind first hrun
    omega

/-! ## What `AllocPages` returns -/

/-- The `Page` records after `n` frames from `start` on have been marked. -/
theorem pages_markPages (frame : FrameMem) {start : Nat} (hn : start + n ≤ 2 ^ 64) (i : Nat) :
    (frame.markPages start n).flag i =
        (if InRange start n i then pageUsed else frame.flag i) ∧
      (frame.markPages start n).count i =
        (if InRange start n i then 1 else frame.count i) := by
  induction n with
  | zero =>
      have hnot : ¬ InRange start 0 i := fun h => absurd h.2 (Nat.not_lt.mpr h.1)
      rw [if_neg hnot, if_neg hnot]
      exact ⟨rfl, rfl⟩
  | succ n ih =>
      obtain ⟨hflag, hcount⟩ := ih (by omega)
      have hidx : u64 (start + n) = start + n := Nat.mod_eq_of_lt (by omega)
      rw [FrameMem.markPages_succ, hidx, FrameMem.markPage]
      by_cases hi : i = start + n
      · have hin : InRange start (n + 1) i := ⟨by omega, by omega⟩
        rw [if_pos hin, if_pos hin, hi]
        exact ⟨Function.update_self .., Function.update_self ..⟩
      · have hiff : InRange start (n + 1) i ↔ InRange start n i := by
          rw [InRange, InRange]
          omega
        simp only [hiff, Function.update_of_ne hi]
        exact ⟨hflag, hcount⟩

/-- `AllocPages` has returned the lowest `n` free frames that follow each other. -/
structure AllocatedLowest (frame : FrameMem) (n first : Nat) (frame' : FrameMem) (p : Nat) : Prop
    extends Allocated frame n first frame' p where
  least : ∀ f, FreeRun frame n f → first ≤ f
  left : frame'.freePages + n = frame.freePages
  flag : ∀ i, frame'.flag i = if InRange first n i then pageUsed else frame.flag i
  count : ∀ i, frame'.count i = if InRange first n i then 1 else frame.count i

/-- The address of frame `first`, as the kernel sees it. -/
def frameAddr (frame : FrameMem) (first : Nat) : Nat :=
  phy2Vir (u64 (frame.startUsable + first * pageSize))

/-- **`AllocPages` takes the lowest frames that there are**, and returns the null pointer without
a change when there are none.  The null pointer is also what the address of a frame at the end of
the kernel's window is; where no frame lies there, it means that there are no `n` free frames. -/
theorem allocPages_lowest (hframe : Counted frame) (hfuel : frame.totalPages < fuel) :
    ∃ frame' p, allocPages fuel frame n = .ok (frame', p) ∧
      (((∀ first, ¬ FreeRun frame (if n = 0 then 1 else n) first) ∧ frame' = frame ∧ p = 0) ∨
        ∃ first, AllocatedLowest frame (if n = 0 then 1 else n) first frame' p) ∧
      ((∀ i, i < frame.totalPages → frameAddr frame i ≠ 0) →
        (p = 0 ↔ ∀ first, ¬ FreeRun frame (if n = 0 then 1 else n) first)) := by
  have hpages := hframe.pages
  have hright : frame.freePages = frame.freeFrames.card := hframe.right
  have hcard : frame.freeFrames.card ≤ frame.totalPages := card_freeFrames_le
  rw [allocPages]
  have hpos : 0 < if n = 0 then 1 else n := by
    split <;> omega
  generalize hm : (if n = 0 then 1 else n) = m at hpos ⊢
  simp only
  by_cases henough : frame.freePages < m
  · rw [if_pos henough]
    have hnone : ∀ first, ¬ FreeRun frame m first := fun first hrun => by
      have hle := hrun.le_card
      omega
    exact ⟨frame, 0, rfl, .inl ⟨hnone, rfl, rfl⟩, fun _ => ⟨fun _ => hnone, fun _ => rfl⟩⟩
  · rw [if_neg henough]
    obtain ⟨r, hloop, hr⟩ := search_lowest (n := m) (by omega) (fun _ => by omega) hfuel
    rw [hloop]
    cases r with
    | none => exact ⟨frame, 0, rfl, .inl ⟨hr, rfl, rfl⟩, fun _ => ⟨fun _ => hr, fun _ => rfl⟩⟩
    | some first =>
        have hrun : FreeRun frame m first := hr.1
        have hfits := hrun.fits
        have hmarked := pages_markPages frame (show first + m ≤ 2 ^ 64 by omega)
        refine ⟨_, _, rfl, .inr ⟨first,
          { fits := hrun.fits
            enough := Nat.le_of_not_lt henough
            wasFree := hrun.free
            used := fun i => FrameMem.used_markPages (by omega) i
            freePages := rfl
            totalPages := FrameMem.markPages_totalPages _ _
            startUsable := FrameMem.markPages_startUsable _ _
            addr := rfl
            least := fun f hf => hr.2 hf
            left := ?_
            flag := fun i => (hmarked i).1
            count := fun i => (hmarked i).2 }⟩, fun hwindow => ⟨fun hnull => ?_, fun hnone => ?_⟩⟩
        · show sub64 frame.freePages m + m = frame.freePages
          rw [sub64, u64, u64]
          omega
        · exact absurd hnull (hwindow first (by omega))
        · exact absurd hrun (hnone first)

/-- Eight frames, of which the frames 1 and 4 are used. -/
def eight : FrameMem where
  totalPages := 8
  freePages := 6
  bitmap := fun _ => 0x12
  flag := fun _ => pageFree
  count := fun _ => 0
  startUsable := 0x200000

theorem eight_counted : Counted eight where
  right := show 6 = eight.freeFrames.card by decide
  pages := by decide

/-- Two frames are taken behind the first used one. -/
theorem allocPages_lowest_eight : ∃ frame' p, allocPages 9 eight 2 = .ok (frame', p) ∧
    AllocatedLowest eight 2 2 frame' p := by
  obtain ⟨frame', p, hcall, hresult, -⟩ :=
    allocPages_lowest (n := 2) eight_counted (show eight.totalPages < 9 by decide)
  have hrun : FreeRun eight 2 2 := by
    refine ⟨by decide, fun i hi => ?_⟩
    obtain ⟨hge, hlt⟩ := hi
    obtain rfl | rfl : i = 2 ∨ i = 3 := by omega
    · decide
    · decide
  rcases hresult with ⟨hnone, -⟩ | ⟨first, hall⟩
  · exact absurd hrun (hnone 2)
  · have hle := hall.least 2 hrun
    have hused := hall.wasFree 1
    have hfirst : first = 2 := by
      by_contra hne
      obtain rfl | rfl : first = 0 ∨ first = 1 := by omega
      · exact absurd (hused ⟨by omega, by decide⟩) (by decide)
      · exact absurd (hused ⟨by omega, by decide⟩) (by decide)
    rw [hfirst] at hall
    exact ⟨frame', p, hcall, hall⟩

/-! ## The counter over runs -/

/-- A call of the allocator, with its arguments. -/
inductive Call where
  | alloc (n : Nat)
  | free (addr n : Nat)

/-- A call with 64-bit arguments, and what it makes of the frames. -/
def called (frame : FrameMem) : Call → FrameMem → Prop
  | .alloc n, frame' => n < 2 ^ 64 ∧ ∃ fuel p, allocPages fuel frame n = .ok (frame', p)
  | .free addr n, frame' => addr < 2 ^ 64 ∧ n < 2 ^ 64 ∧ frame' = freePages frame addr n

/-- The frame that begins at or before an address. -/
def frameIdx (frame : FrameMem) (addr : Nat) : Nat := (addr - frame.startUsable) / pageSize

/-- `FreePages` returns at once. -/
def Rejected (frame : FrameMem) (addr n : Nat) : Prop :=
  addr = 0 ∨ n = 0 ∨ addr < frame.startUsable ∨ frame.totalPages ≤ frameIdx frame addr

/-- `FreePages` is given frames that are all there and all in use, or rejects what it is given. -/
def FreeSafe (frame : FrameMem) : Call → Prop
  | .alloc _ => True
  | .free addr n => Rejected frame addr n ∨
      (frameIdx frame addr + n ≤ frame.totalPages ∧
        ∀ i, InRange (frameIdx frame addr) n i → frame.bitmap.used i = true)

/-- The frames that are in use among `n` frames from `first` on. -/
def usedFrames (frame : FrameMem) (first n : Nat) : Finset Nat :=
  (Finset.Ico first (first + n)).filter fun i => frame.bitmap.used i = true

/-- The frames that are free after `n` frames from `first` on have been taken. -/
theorem Allocated.card (h : Allocated frame n first frame' p) :
    frame'.freeFrames.card + n = frame.freeFrames.card := by
  have hrun : FreeRun frame n first := ⟨h.fits, h.wasFree⟩
  have hsplit : frame'.freeFrames = frame.freeFrames \ Finset.Ico first (first + n) := by
    ext i
    rw [Finset.mem_sdiff, Finset.mem_Ico, FrameMem.mem_freeFrames, FrameMem.mem_freeFrames,
      h.totalPages, ← Bool.not_eq_true, h.used, not_or, Bool.not_eq_true, and_assoc]
    exact and_congr_right fun _ => and_comm
  have hcard := Finset.card_sdiff_add_card_eq_card hrun.subset
  rw [Nat.card_Ico, Nat.add_sub_cancel_left] at hcard
  rw [hsplit]
  exact hcard

/-- The frames that are free after `n` frames from `idx` on have been given back. -/
theorem card_clearPages (frame : FrameMem) {idx : Nat} (hfits : idx + n ≤ frame.totalPages) :
    (frame.clearPages idx n).freeFrames.card =
      frame.freeFrames.card + (usedFrames frame idx n).card := by
  have hsplit : (frame.clearPages idx n).freeFrames =
      frame.freeFrames ∪ usedFrames frame idx n := by
    ext i
    rw [Finset.mem_union, FrameMem.mem_freeFrames, FrameMem.mem_freeFrames, usedFrames,
      Finset.mem_filter, Finset.mem_Ico, FrameMem.clearPages_totalPages, ← Bool.not_eq_true,
      FrameMem.used_clearPages]
    cases frame.bitmap.used i
    · simp
    · simp only [and_true, Bool.true_eq_false, and_false, false_or, not_not]
      omega
  have hdisj : Disjoint frame.freeFrames (usedFrames frame idx n) := by
    rw [Finset.disjoint_left]
    intro i hfree hused
    rw [FrameMem.mem_freeFrames] at hfree
    rw [usedFrames, Finset.mem_filter, hfree.2] at hused
    exact absurd hused.2 (by decide)
  rw [hsplit, Finset.card_union_of_disjoint hdisj]

/-- All of `n` frames are in use when `n` of them are. -/
theorem card_usedFrames_eq_iff {idx : Nat} :
    (usedFrames frame idx n).card = n ↔
      ∀ i, InRange idx n i → frame.bitmap.used i = true := by
  have hcard : (Finset.Ico idx (idx + n)).card = n := by
    rw [Nat.card_Ico, Nat.add_sub_cancel_left]
  have hiff := Finset.card_filter_eq_iff (s := Finset.Ico idx (idx + n))
    (p := fun i => frame.bitmap.used i = true)
  rw [hcard] at hiff
  rw [usedFrames, hiff]
  exact forall_congr' fun i => by rw [Finset.mem_Ico, InRange]

theorem card_usedFrames_le {idx : Nat} : (usedFrames frame idx n).card ≤ n := by
  have hle := Finset.card_filter_le (Finset.Ico idx (idx + n))
    fun i => frame.bitmap.used i = true
  rwa [Nat.card_Ico, Nat.add_sub_cancel_left] at hle

theorem freePages_of_rejected (h : Rejected frame addr n) : freePages frame addr n = frame := by
  rw [Rejected, frameIdx] at h
  rw [freePages]
  by_cases hnull : addr = 0 ∨ n = 0
  · rw [if_pos hnull]
  · rw [if_neg hnull]
    by_cases hbelow : addr < frame.startUsable
    · rw [if_pos hbelow]
    · rw [if_neg hbelow]
      exact if_pos (by tauto)

theorem freePages_of_not_rejected (h : ¬ Rejected frame addr n) :
    freePages frame addr n =
      { frame.clearPages (frameIdx frame addr) (min n (frame.totalPages - frameIdx frame addr)) with
        freePages := u64 (frame.freePages + n) } := by
  rw [Rejected] at h
  push Not at h
  obtain ⟨hnull, hzero, habove, hlt⟩ := h
  rw [freePages, if_neg (by tauto), if_neg (Nat.not_lt.mpr habove)]
  exact if_neg (Nat.not_le.mpr hlt)

/-- `AllocPages` keeps the counter right. -/
theorem Counted.alloc (h : Counted frame) (hcall : allocPages fuel frame n = .ok (frame', p)) :
    Counted frame' := by
  have hpages := h.pages
  have hright : frame.freePages = frame.freeFrames.card := h.right
  have hcard : frame.freeFrames.card ≤ frame.totalPages := card_freeFrames_le
  by_cases hn : frame.totalPages + n < 2 ^ 64
  · rcases allocPages_spec hn (by omega) hcall with ⟨rfl, -⟩ | ⟨first, hall⟩
    · exact h
    · have hleft := hall.card
      have hfree := hall.freePages
      have henough := hall.enough
      refine ⟨?_, ?_⟩
      · show frame'.freePages = frame'.freeFrames.card
        rw [hfree, sub64, u64, u64]
        omega
      · rw [hall.totalPages]
        exact hpages
  · -- more frames are asked for than there are
    rw [allocPages, if_neg (by omega : n ≠ 0)] at hcall
    simp only at hcall
    rw [if_pos (by omega)] at hcall
    injection hcall with hcall
    rw [← (Prod.mk.inj hcall).1]
    exact h

/-- `FreePages` keeps the counter right exactly for frames that are there and in use. -/
theorem Counted.free_iff (h : Counted frame) (hn : n < 2 ^ 64) (hrej : ¬ Rejected frame addr n) :
    CountRight (freePages frame addr n) ↔ FreeSafe frame (.free addr n) := by
  have hpages := h.pages
  have hright : frame.freePages = frame.freeFrames.card := h.right
  rw [freePages_of_not_rejected hrej]
  have hlt : frameIdx frame addr < frame.totalPages := by
    by_contra hge
    exact hrej (.inr (.inr (.inr (Nat.le_of_not_lt hge))))
  generalize hidx : frameIdx frame addr = idx at hlt ⊢
  generalize hm : min n (frame.totalPages - idx) = m
  have hcard := card_clearPages frame (show idx + m ≤ frame.totalPages by omega)
  have htotal : (frame.clearPages idx m).freeFrames.card ≤ frame.totalPages := by
    have hle : (frame.clearPages idx m).freeFrames.card ≤ (frame.clearPages idx m).totalPages :=
      card_freeFrames_le
    rwa [FrameMem.clearPages_totalPages] at hle
  have hused : (usedFrames frame idx m).card ≤ m := card_usedFrames_le
  have hcount : CountRight { frame.clearPages idx m with freePages := u64 (frame.freePages + n) } ↔
      (usedFrames frame idx m).card = n := by
    show u64 (frame.freePages + n) = (frame.clearPages idx m).freeFrames.card ↔ _
    rw [hcard, u64]
    omega
  rw [hcount, FreeSafe, hidx, or_iff_right hrej]
  constructor
  · intro hall
    have hmn : m = n := by omega
    rw [hmn] at hall
    exact ⟨by omega, card_usedFrames_eq_iff.mp hall⟩
  · rintro ⟨hfits, hall⟩
    have hmn : m = n := by omega
    rw [hmn]
    exact card_usedFrames_eq_iff.mpr hall

/-- **One call.**  The counter stays right under the calls that `FreeSafe` describes, and goes
wrong with each of the others. -/
theorem Counted.step {c : Call} (h : Counted frame) (hstep : called frame c frame') :
    (FreeSafe frame c → Counted frame') ∧ (¬ FreeSafe frame c → ¬ CountRight frame') := by
  cases c with
  | alloc n =>
      obtain ⟨-, fuel, p, hcall⟩ := hstep
      exact ⟨fun _ => h.alloc hcall, fun hunsafe => absurd trivial hunsafe⟩
  | free addr n =>
      obtain ⟨-, hn, rfl⟩ := hstep
      by_cases hrej : Rejected frame addr n
      · rw [freePages_of_rejected hrej]
        exact ⟨fun _ => h, fun hunsafe => absurd (.inl hrej) hunsafe⟩
      · refine ⟨fun hsafe => ⟨(h.free_iff hn hrej).mpr hsafe, ?_⟩, fun hunsafe hright =>
          hunsafe ((h.free_iff hn hrej).mp hright)⟩
        rw [freePages_of_not_rejected hrej]
        show (frame.clearPages _ _).totalPages * 24 ≤ 2 ^ 64
        rw [FrameMem.clearPages_totalPages]
        exact h.pages

/-- **The counter is right exactly as long as `FreePages` is given frames that are there and in
use**, or numbers and addresses that it rejects. -/
theorem countRight_iff_freeSafe {calls : List Call} (hframe : Counted frame) :
    Run (Keeping CountRight called) frame calls frame' ↔
      Run (Guarded FreeSafe called) frame calls frame' :=
  run_keeping_iff_guarded hframe (fun _ _ _ h hok hs => (h.step hs).1 hok) (fun _ h => h.right)
    fun _ _ _ h hbad hs => (h.step hs).2 hbad

/-- Two frames are taken and given back. -/
theorem countRight_iff_freeSafe_eight : ∃ frame', Run (Keeping CountRight called) eight
    [.alloc 2, .free 0x202000 2] frame' := by
  have hsafe : ∃ frame', Run (Guarded FreeSafe called) eight [.alloc 2, .free 0x202000 2] frame' :=
    ⟨_, .snoc (.snoc .nil ⟨trivial, by decide, 9, _, rfl⟩)
      ⟨.inr ⟨by decide, fun i hi => by
        obtain ⟨hge, hlt⟩ := hi
        change 2 ≤ i at hge
        change i < 4 at hlt
        obtain rfl | rfl : i = 2 ∨ i = 3 := by omega
        · decide
        · decide⟩, by decide, by decide, rfl⟩⟩
  obtain ⟨frame', hrun⟩ := hsafe
  exact ⟨frame', (countRight_iff_freeSafe eight_counted).mpr hrun⟩

/-- A frame that is free already is given back. -/
theorem not_countRight_eight : ¬ ∀ (frame frame' : FrameMem) (calls : List Call), Counted frame →
    Run called frame calls frame' → CountRight frame' := by
  intro h
  have hright := h eight (freePages eight 0x200000 1) [.free 0x200000 1] eight_counted
    (.snoc .nil ⟨by decide, by decide, rfl⟩)
  exact absurd hright (by unfold CountRight; decide)

end InfoKernel.Mm.Page
