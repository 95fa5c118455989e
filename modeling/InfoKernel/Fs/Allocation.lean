import InfoKernel.Fs.Volume

/-!
# What the allocators do to a volume

The search of `AllocBlock` and `AllocInode` ends at a clear bit that may be taken, in a group
whose count of free ones is not `0`, or finds that there is none; and taking or freeing a bit is a
`Flip`.  A device and a memory that do not fail are assumed throughout, and of the volume only
its `Roles`.

The descriptors are read from one block.  A group whose descriptor lies behind it is the one
thing that can stop an allocator, with the fault `outOfBounds`, and the search comes to it only
when nothing can be taken before (`Strays`).
-/

namespace InfoKernel.Ext2

open Lib

/-- The bit with number `n` may be taken. -/
structure Free (e : Env) (s : State) (k : Kind) (n : Nat) : Prop where
  group : n / k.perGroup s.super < s.groups k
  lowest : k.lowest s.super ≤ n
  clear : s.bit e k n = false

/-- The number of groups that an allocator searches. -/
def State.searched (s : State) (k : Kind) : Nat :=
  ceilDiv (k.count s.super) (k.perGroup s.super)

/-- The descriptors of all groups that an allocator searches lie in the block they are read from. -/
def State.SearchFits (s : State) (k : Kind) : Prop := ∀ g < s.searched k, s.Fits g

/-- Nothing can be taken before group `g`: where a bit may be, the count of its group is `0`. -/
def State.Passed (s : State) (e : Env) (k : Kind) (g : Nat) : Prop :=
  ∀ n, n / k.perGroup s.super < g → Free e s k n →
    k.free (s.desc e (n / k.perGroup s.super)) = 0

/-- How a search of `groups` groups stops on the way: it has taken nothing, and comes to a
descriptor that it cannot read. -/
def Strays (e : Env) (k : Kind) (groups : Nat) (s : State) (f : Fault) : Prop :=
  f = .outOfBounds ∧ ∃ g, g < groups ∧ ¬ s.Fits g ∧ s.Passed e k g

/-- How an allocator stops on the way: it comes to a descriptor that it cannot read. -/
def Unfit (s : State) (k : Kind) (f : Fault) : Prop :=
  f = .outOfBounds ∧ ∃ g, g < s.searched k ∧ ¬ s.Fits g

/-- Bit `n` has been taken. -/
structure Took (e : Env) (k : Kind) (n : Nat) (s t : State) : Prop where
  free : Free e s k n
  counted : k.free (s.desc e (n / k.perGroup s.super)) ≠ 0
  fits : s.Fits (n / k.perGroup s.super)
  flip : Flip e k n true (k.free (s.desc e (n / k.perGroup s.super)) - 1)
    (sub32 (k.superFree s.super) 1) (fun _ => False) s t
  noSpace : t.noSpace = s.noSpace

variable {e : Env} {s t : State} {k : Kind}

/-! ## The arithmetic of groups -/

theorem first_le_iff {sb : SuperBlock} {start i : Nat} :
    k.first sb start ≤ i ∧ k.usable (start + i) = true ↔ k.lowest sb ≤ start + i := by
  cases k with
  | block =>
      simp only [Kind.first, Kind.usable, Kind.lowest, and_true]
      split <;> omega
  | inode =>
      have hroot : rootIno = 2 := rfl
      simp only [Kind.first, Kind.usable, Kind.lowest, Bool.not_eq_true', decide_eq_false_iff_not]
      omega

/-- The source counts no more groups than there are. -/
theorem ceilDiv_le {a b : Nat} (hb : 0 < b) : ceilDiv a b ≤ (a + (b - 1)) / b := by
  refine Nat.div_le_div_right ?_
  rw [sub32, u32, u32, u32]
  omega

theorem SameLayout.searched (h : SameLayout e s t) (k : Kind) : t.searched k = s.searched k := by
  rw [State.searched, State.searched, k.count_congr h.geometry, h.perGroup]

theorem SameLayout.searchFits (h : SameLayout e s t) : t.SearchFits k ↔ s.SearchFits k := by
  rw [State.SearchFits, State.SearchFits, h.searched]
  refine forall₂_congr fun g _ => ?_
  rw [State.Fits, State.Fits, h.geometry.blockSize]

theorem State.searched_le (hpos : 0 < k.perGroup s.super) : s.searched k ≤ s.groups k :=
  ceilDiv_le hpos

/-- All numbers in the groups that the source counts have 32 bits. -/
theorem ceilDiv_mul_lt {a b : Nat} : ceilDiv a b * b < 2 ^ 32 :=
  Nat.lt_of_le_of_lt (Nat.div_mul_le_self _ b) (Nat.mod_lt _ (by decide))

/-- It counts all of them when the sum it forms does not leave the range of its type. -/
theorem ceilDiv_eq {a b : Nat} (hb : 0 < b) (h : a + b ≤ 2 ^ 32) :
    ceilDiv a b = (a + (b - 1)) / b := by
  rw [ceilDiv]
  congr 1
  rw [sub32, u32, u32, u32]
  omega

/-! ## The search in a bitmap -/

theorem findClear_spec (bitmap : Bitmap) (start : Nat) {size n i : Nat}
    (h : n = 0 ∨ i + n ≤ 8 * size) :
    ∃ r, findClear k bitmap size start n i = .ok r ∧
      (r = none → ∀ j, i ≤ j → j < i + n → k.usable (start + j) = true →
        bitmap.used j = true) ∧
      ∀ j, r = some j → i ≤ j ∧ j < i + n ∧ k.usable (start + j) = true ∧
        bitmap.used j = false := by
  induction n generalizing i with
  | zero =>
      refine ⟨none, rfl, fun _ j hij hj => by omega, fun j hj => ?_⟩
      cases hj
  | succ n ih =>
      rw [findClear, if_pos (show i / 8 < size by omega)]
      by_cases hclear : bitmap.used i = false ∧ k.usable (start + i) = true
      · refine ⟨some i, ?_, ?_, ?_⟩
        · rw [hclear.1, hclear.2]
          rfl
        · intro h
          cases h
        · intro j hj
          injection hj with hj
          subst hj
          exact ⟨Nat.le_refl i, by omega, hclear.2, hclear.1⟩
      · have hnot : (!bitmap.used i && k.usable (start + i)) = false := by
          cases hu : bitmap.used i
          · cases ha : k.usable (start + i)
            · rfl
            · exact absurd ⟨hu, ha⟩ hclear
          · rfl
        obtain ⟨r, hr, hnone, hsome⟩ := ih (i := i + 1) (by omega)
        refine ⟨r, ?_, ?_, ?_⟩
        · rw [hnot]
          exact hr
        · intro h j hij hj hu
          by_cases hji : j = i
          · subst hji
            by_contra hused
            exact hclear ⟨by simpa using hused, hu⟩
          · exact hnone h j (by omega) (by omega) hu
        · intro j hj
          obtain ⟨h1, h2, h3, h4⟩ := hsome j hj
          exact ⟨by omega, by omega, h3, h4⟩

/-! ## Flips -/

namespace Flip

variable {n a b : Nat} {v : Bool} {C : Nat → Prop}

theorem layout (h : Flip e k n v a b C s t) : SameLayout e s t where
  geometry := by
    rw [h.super]
    exact Kind.sameGeometry_setSuperFree k
  bitmapBlock := h.bitmapBlock
  inodeTable := h.inodeTable

theorem mono {D : Nat → Prop} (h : Flip e k n v a b C s t) (hCD : ∀ y, C y → D y) :
    Flip e k n v a b D s t :=
  ⟨h.super, h.bitmapBlock, h.inodeTable, h.bit, h.free,
    fun hy hgd hne hD => h.block hy hgd hne fun hC => hD (hCD _ hC)⟩

theorem at_right (h : Flip e k n v a b C s t) (c : Nat) : Flip e k n v a b C s (t.at c) :=
  ⟨h.super, h.bitmapBlock, h.inodeTable, h.bit, h.free, h.block⟩

theorem of_at_left {c : Nat} (h : Flip e k n v a b C (s.at c) t) : Flip e k n v a b C s t :=
  ⟨h.super, h.bitmapBlock, h.inodeTable, h.bit, h.free, h.block⟩

end Flip

theorem Roles.at (hr : Roles e s) (c : Nat) : Roles e (s.at c) :=
  ⟨hr.size_pos, hr.per_pos, hr.per_le, hr.bitmap_inj, hr.bitmap_ne_desc, hr.super_lt_bitmap,
    hr.walled⟩

/-! ## Taking and freeing a bit -/

section Runs

variable (he : e.Reliable) (hr : Roles e s)

include he hr

omit hr in
/-- A descriptor that can be read. -/
theorem readGroupDesc_fits {g : Nat} (hfit : s.Fits g) : ∃ gd, (s.desc e g).Same gd ∧
    readGroupDesc e g s = .ok (.ok gd, s.at (s.clock + 2)) := by
  refine ⟨_, GroupDesc.same_of_bytes fun i hi => ?_,
    (readGroupDesc_run he g).trans (if_pos hfit.descThere)⟩
  have hlt : GroupDesc.size * g + i < s.super.blockSize := by
    have h : GroupDesc.size * g + GroupDesc.size ≤ s.super.blockSize := hfit
    omega
  show copyOut e s.disk _ _ _ = s.disk _
  rw [copyOut_of_lt hlt, Nat.add_assoc]

/-- Writing a bitmap with one byte changed, and the counts. -/
theorem writeBit_run {g i : Nat} {v : UInt8} {gd : GroupDesc} (bitmap : Bitmap) {a b : Nat}
    (hbuf : bitmap = Function.update
      (copyOut e s.disk (s.origin e (s.bitmapBlock e k g)) s.super.blockSize) (i / 8) v)
    (hi : i < k.perGroup s.super) (hfit : s.Fits g) (hgd : (s.desc e g).Same gd) :
    ∃ c, (do
      let _ ← writeBlock e (k.bitmap gd) bitmap
      setCounts k e g gd a b : Io PUnit) s = .ok (⟨⟩, (s.flipped e k g i v gd a b).at c) := by
  have hper := hr.per_le k
  have hblock : k.bitmap gd = s.bitmapBlock e k g := k.bitmap_congr hgd
  have hdisk : copyIn s.disk (s.origin e (s.bitmapBlock e k g)) s.super.blockSize bitmap =
      Function.update s.disk (s.origin e (s.bitmapBlock e k g) + i / 8) v := by
    rw [hbuf]
    exact copyIn_update_copyOut (by omega)
  rw [bind_apply_of_ok (writeBlock_run he _ _), hblock, hdisk]
  exact setCounts_run he hfit

theorem takeBit_ends {F : Fault → Prop} {g i : Nat} {gd : GroupDesc} {bitmap : Bitmap}
    (hbuf : bitmap = copyOut e s.disk (s.origin e (s.bitmapBlock e k g)) s.super.blockSize)
    (hg : g < s.groups k) (hi : i < k.perGroup s.super) (hfit : s.Fits g)
    (hgd : (s.desc e g).Same gd) :
    Ends (takeBit k e g gd bitmap i) s F fun r t => r = some (g * k.perGroup s.super + i) ∧
      Flip e k (g * k.perGroup s.super + i) true (k.free (s.desc e g) - 1)
        (sub32 (k.superFree s.super) 1) (fun _ => False) s t ∧ t.noSpace = s.noSpace := by
  have hper := hr.per_le k
  obtain ⟨c, hc⟩ := writeBit_run (k := k) (g := g) (i := i) (a := k.free gd - 1)
    (b := sub32 (k.superFree s.super) 1) he hr (bitmap.mark i) (by rw [hbuf]; rfl) hi hfit hgd
  have hw := writeBlock_run (s := s) he (k.bitmap gd) (bitmap.mark i)
  rw [bind_apply_of_ok hw] at hc
  refine Ends.step hw ?_
  refine Ends.step (a := s.super) rfl ?_
  refine Ends.step hc ?_
  refine Ends.pure ⟨rfl, Flip.at_right ?_ c, rfl⟩
  rw [k.free_congr hgd]
  refine flip_flipped hr hg hi hfit hgd fun j => ?_
  have hmark : Function.update (s.block e (s.bitmapBlock e k g)) (i / 8)
      (copyOut e s.disk (s.origin e (s.bitmapBlock e k g)) s.super.blockSize (i / 8) |||
        Bitmap.mask i) = Bitmap.mark (s.block e (s.bitmapBlock e k g)) i := by
    rw [copyOut_of_lt (by omega)]
    rfl
  rw [hmark, Bitmap.used_mark]
  by_cases hj : j = i
  · simp [hj]
  · simp [hj]

/-- What a call of an allocator leaves behind: no bit was free among those it looks at, or one
has been taken. -/
def AllocBit (e : Env) (k : Kind) (groups : Nat) (s : State) (r : Option Nat) (t : State) : Prop :=
  (r = none ∧ (∃ c, t = s.at c) ∧ s.Passed e k groups ∧ ∀ g < groups, s.Fits g) ∨
  ∃ n, r = some n ∧ n / k.perGroup s.super < groups ∧ Took e k n s t

omit he hr in
theorem State.Passed.of_at {g c : Nat} (h : (s.at c).Passed e k g) : s.Passed e k g :=
  fun n hn hf => h n hn ⟨hf.group, hf.lowest, hf.clear⟩

omit he hr in
theorem Strays.of_at {groups c : Nat} {f : Fault} (h : Strays e k groups (s.at c) f) :
    Strays e k groups s f := by
  obtain ⟨hf, g, hg, hfit, hpassed⟩ := h
  exact ⟨hf, g, hg, hfit, hpassed.of_at⟩

omit he hr in
theorem AllocBit.of_at {groups c : Nat} {r : Option Nat}
    (h : AllocBit e k groups (s.at c) r t) : AllocBit e k groups s r t := by
  rcases h with ⟨hr, ⟨c', hc'⟩, hnone, hfits⟩ | ⟨n, hn, hlt, ht⟩
  · exact .inl ⟨hr, ⟨c', hc'⟩, hnone.of_at, hfits⟩
  · exact .inr ⟨n, hn, hlt, ⟨ht.free.group, ht.free.lowest, ht.free.clear⟩, ht.counted, ht.fits,
      ht.flip.of_at_left, ht.noSpace⟩

theorem allocBitFrom_ends {left g : Nat} (hleft : g + left ≤ s.groups k)
    (hbefore : s.Passed e k g) (hfits : ∀ g' < g, s.Fits g') :
    Ends (allocBitFrom k e left g) s (Strays e k (g + left) s) (AllocBit e k (g + left) s) := by
  induction left generalizing s g with
  | zero => exact Ends.pure (.inl ⟨rfl, ⟨s.clock, rfl⟩, hbefore, hfits⟩)
  | succ left ih =>
      have hg : g < s.groups k := by omega
      have hper := hr.per_le k
      have hpos := hr.per_pos k
      have hnext : ∀ c, s.Fits g → (∀ n, n / k.perGroup s.super = g → Free e s k n →
          k.free (s.desc e g) = 0) → Ends (allocBitFrom k e left (g + 1)) (s.at c)
            (Strays e k (g + (left + 1)) s) (AllocBit e k (g + (left + 1)) s) := by
        intro c hfit hnone
        rw [show g + (left + 1) = g + 1 + left by omega]
        refine ((ih (hr.at c) (by exact (by omega : g + 1 + left ≤ s.groups k)) ?_ ?_).mono
          fun _ _ h => h.of_at).mono_error fun _ h => h.of_at
        · intro n hn hf
          have hf : Free e s k n := ⟨hf.group, hf.lowest, hf.clear⟩
          have hn : n / k.perGroup s.super < g + 1 := hn
          by_cases hng : n / k.perGroup s.super = g
          · show k.free (s.desc e (n / k.perGroup s.super)) = 0
            rw [hng]
            exact hnone n hng hf
          · exact hbefore n (by omega) hf
        · intro g' hg'
          rcases Nat.lt_succ_iff_lt_or_eq.mp hg' with hlt | rfl
          · exact hfits g' hlt
          · exact hfit
      rw [allocBitFrom]
      by_cases hfit : s.Fits g
      · obtain ⟨gd, hgd, hrun⟩ := readGroupDesc_fits he hfit
        refine Ends.step hrun ?_
        have hblock : k.bitmap gd = s.bitmapBlock e k g := k.bitmap_congr hgd
        by_cases hfree : k.free gd = 0
        · simp only [if_pos hfree]
          rw [k.free_congr hgd] at hfree
          exact hnext _ hfit fun n _ _ => hfree
        · simp only [if_neg hfree]
          rw [hblock]
          refine Ends.step (a := some (copyOut e s.disk (s.origin e (s.bitmapBlock e k g))
            s.super.blockSize)) (readBlock_run he _) ?_
          refine Ends.step (a := s.super) rfl ?_
          have hbits : k.first s.super (g * k.perGroup s.super) +
              (k.perGroup s.super - k.first s.super (g * k.perGroup s.super)) ≤
                8 * s.super.blockSize ∨
              k.perGroup s.super - k.first s.super (g * k.perGroup s.super) = 0 := by omega
          obtain ⟨r, hfind, hnone, hsome⟩ := findClear_spec (k := k)
            (copyOut e s.disk (s.origin e (s.bitmapBlock e k g)) s.super.blockSize)
            (g * k.perGroup s.super) hbits.symm
          have hused : ∀ j, j < k.perGroup s.super → Bitmap.used
              (copyOut e s.disk (s.origin e (s.bitmapBlock e k g)) s.super.blockSize) j =
                s.bit e k (g * k.perGroup s.super + j) := by
            intro j hj
            rw [State.bit, (number_div_mod hj).1, (number_div_mod hj).2]
            exact Bitmap.used_congr (copyOut_of_lt (by omega))
          simp only [hfind]
          cases r with
          | none =>
              refine hnext _ hfit fun n hn hf => absurd hf.clear ?_
              have hj := Nat.mod_lt n hpos
              have heq : g * k.perGroup s.super + n % k.perGroup s.super = n :=
                ((number_eq_iff hj).mpr ⟨hn, rfl⟩).symm
              have hlow := first_le_iff.mpr (show k.lowest s.super ≤
                g * k.perGroup s.super + n % k.perGroup s.super from heq.symm ▸ hf.lowest)
              have h := hnone rfl (n % k.perGroup s.super) hlow.1 (by omega) hlow.2
              rw [hused _ hj, heq] at h
              rw [h]
              decide
          | some i =>
              obtain ⟨hfirst, hlt, husable, hclear⟩ := hsome i rfl
              have hi : i < k.perGroup s.super := by omega
              have hnum := number_div_mod (g := g) hi
              have htake := takeBit_ends (F := Strays e k (g + (left + 1)) s) (i := i)
                (s := (s.at (s.clock + 2)).at (s.clock + 2 + 1)) he ((hr.at _).at _) rfl hg hi
                hfit hgd
              refine Ends.mono htake fun r t h => Or.inr ⟨g * k.perGroup s.super + i, h.1, ?_⟩
              rw [hnum.1]
              refine ⟨by omega, ⟨?_, first_le_iff.mp ⟨hfirst, husable⟩, ?_⟩, ?_, ?_, ?_, h.2.2⟩
              · rw [hnum.1]
                exact hg
              · rw [← hused i hi]
                exact hclear
              · rw [hnum.1, ← k.free_congr hgd]
                exact hfree
              · rw [hnum.1]
                exact hfit
              · rw [hnum.1]
                exact h.2.1.of_at_left.of_at_left
      · refine Ends.step_error ((readGroupDesc_run he g).trans ?_) ⟨rfl, g, by omega, hfit, hbefore⟩
        rw [State.descThere_eq_false hfit (hr.walled hg hfit), if_neg Bool.false_ne_true]

/-- **What an allocator does.** -/
theorem allocBit_ends : Ends (allocBit k e) s (Strays e k (s.searched k) s)
    (AllocBit e k (s.searched k) s) := by
  have hpos := hr.per_pos k
  have hle := State.searched_le hpos
  refine Ends.step (a := s.super) rfl ?_
  rw [if_neg (by omega)]
  refine Ends.step (pageAlloc_run he) ?_
  simp only [Bool.not_true, Bool.false_eq_true, if_false]
  have hleft : 0 + s.searched k ≤ (s.at (s.clock + 1)).groups k := by
    rw [Nat.zero_add]
    exact hle
  have h := allocBitFrom_ends he (hr.at _) hleft (fun n hn _ => absurd hn (Nat.not_lt_zero _))
    fun g hg => absurd hg (Nat.not_lt_zero g)
  rw [Nat.zero_add] at h
  exact (h.mono fun _ _ h => h.of_at).mono_error fun _ h => h.of_at

/-- **What a release does**: it clears the bit, or finds it clear. -/
theorem freeBit_ends {n : Nat} (hn : n / k.perGroup s.super < s.groups k) :
    Ends (freeBit k e n) s
      (fun f => f = .outOfBounds ∧ ¬ s.Fits (n / k.perGroup s.super)) fun _ t =>
      s.Fits (n / k.perGroup s.super) ∧ ((s.bit e k n = false ∧ ∃ c, t = s.at c) ∨
        (s.bit e k n = true ∧
          Flip e k n false (u16 (k.free (s.desc e (n / k.perGroup s.super)) + 1))
            (u32 (k.superFree s.super + 1)) (fun _ => False) s t)) := by
  have hpos := hr.per_pos k
  have hper := hr.per_le k
  have hi := Nat.mod_lt n hpos
  refine Ends.step (a := s.super) rfl ?_
  rw [if_neg (by omega)]
  by_cases hfit : s.Fits (n / k.perGroup s.super)
  · obtain ⟨gd, hgd, hrun⟩ := readGroupDesc_fits he hfit
    have hblock : k.bitmap gd = s.bitmapBlock e k (n / k.perGroup s.super) := k.bitmap_congr hgd
    refine Ends.step hrun ?_
    refine Ends.step (pageAlloc_run he) ?_
    simp only [Bool.not_true, Bool.false_eq_true, if_false]
    refine Ends.step (readBlock_run he _) ?_
    rw [hblock]
    have hused : Bitmap.used (copyOut e s.disk
        (s.origin e (s.bitmapBlock e k (n / k.perGroup s.super))) s.super.blockSize)
          (n % k.perGroup s.super) = s.bit e k n :=
      Bitmap.used_congr (copyOut_of_lt (by omega))
    show Ends (if n % k.perGroup s.super / 8 < s.super.blockSize then
        if Bitmap.used (copyOut e s.disk
          (s.origin e (s.bitmapBlock e k (n / k.perGroup s.super))) s.super.blockSize)
            (n % k.perGroup s.super) = true then _
        else _ else _) _ _ _
    rw [if_pos (by omega), hused]
    by_cases hbit : s.bit e k n = true
    · rw [if_pos hbit]
      obtain ⟨c, hc⟩ := writeBit_run (k := k) (g := n / k.perGroup s.super)
        (i := n % k.perGroup s.super) (a := u16 (k.free gd + 1))
        (b := u32 (k.superFree s.super + 1))
        (s := ((s.at (s.clock + 2)).at (s.clock + 2 + 1)).at (s.clock + 2 + 1 + 1))
        he (((hr.at _).at _).at _) (Bitmap.clear (copyOut e s.disk
          (s.origin e (s.bitmapBlock e k (n / k.perGroup s.super))) s.super.blockSize)
            (n % k.perGroup s.super)) rfl hi hfit hgd
      rw [hblock] at hc
      refine Ends.of_ok hc ⟨hfit, .inr ⟨hbit, ?_⟩⟩
      rw [← k.free_congr hgd]
      have hclear : Function.update (s.block e (s.bitmapBlock e k (n / k.perGroup s.super)))
          (n % k.perGroup s.super / 8) (copyOut e s.disk
            (s.origin e (s.bitmapBlock e k (n / k.perGroup s.super))) s.super.blockSize
              (n % k.perGroup s.super / 8) &&& ~~~Bitmap.mask (n % k.perGroup s.super)) =
          Bitmap.clear (s.block e (s.bitmapBlock e k (n / k.perGroup s.super)))
            (n % k.perGroup s.super) := by
        rw [copyOut_of_lt (by omega)]
        rfl
      have hflip : Flip e k (n / k.perGroup s.super * k.perGroup s.super + n % k.perGroup s.super)
          false (u16 (k.free gd + 1)) (u32 (k.superFree s.super + 1)) (fun _ => False) s
            (s.flipped e k (n / k.perGroup s.super) (n % k.perGroup s.super) _ gd _ _) :=
        flip_flipped hr hn hi hfit hgd fun j => by
          rw [hclear, Bitmap.used_clear]
          by_cases hj : j = n % k.perGroup s.super
          · simp [hj]
          · simp [hj]
      rw [Nat.div_add_mod'] at hflip
      exact hflip.at_right c
    · rw [if_neg hbit]
      exact Ends.pure ⟨hfit, .inl ⟨by simpa using hbit, _, rfl⟩⟩
  · refine Ends.step_error ((readGroupDesc_run he _).trans ?_) ⟨rfl, hfit⟩
    rw [State.descThere_eq_false hfit (hr.walled hn hfit), if_neg Bool.false_ne_true]

end Runs

/-! ## Writing a block -/

/-- Block `x` holds `buf` now, and nothing else has changed. -/
structure Written (e : Env) (x : Nat) (buf : Bytes) (s t : State) : Prop where
  super : t.super = s.super
  noSpace : t.noSpace = s.noSpace
  self {i : Nat} : i < s.super.blockSize → t.block e x i = buf i
  of_ne {y i : Nat} : y ≠ x → i < s.super.blockSize → t.block e y i = s.block e y i

theorem written_of_disk {x : Nat} {buf : Bytes} (hsuper : t.super = s.super)
    (hspace : t.noSpace = s.noSpace)
    (hdisk : t.disk = copyIn s.disk (s.origin e x) s.super.blockSize buf) :
    Written e x buf s t where
  super := hsuper
  noSpace := hspace
  self hi := by
    rw [State.block, State.origin_congr (congrArg _ hsuper), hdisk, copyIn_of_mem hi]
  of_ne {y i} hy hi := by
    rw [State.block, State.block, State.origin_congr (congrArg _ hsuper), hdisk]
    refine copyIn_of_not_mem ?_
    by_contra hin
    obtain ⟨j, hj, heq⟩ : ∃ j, j < s.super.blockSize ∧ s.origin e y + i = s.origin e x + j :=
      ⟨s.origin e y + i - s.origin e x, by omega, by omega⟩
    exact hy (State.origin_inj hi hj heq).1

theorem writeBlock_written (he : e.Reliable) (x : Nat) (buf : Bytes) :
    ∃ t, writeBlock e x buf s = .ok (true, t) ∧ Written e x buf s t := by
  refine ⟨_, writeBlock_run he x buf, ?_⟩
  refine written_of_disk ?_ ?_ ?_
  · rfl
  · rfl
  · rfl

namespace Written

variable {x : Nat} {buf : Bytes}

theorem desc (h : Written e x buf s t) (hr : Roles e s) {g : Nat} (hx : x ≠ s.descBlock g) :
    (s.desc e g).Same (t.desc e g) := by
  refine GroupDesc.same_of_bytes fun i hi => ?_
  obtain ⟨j, hj, heq⟩ := State.desc_bytes (e := e) hr.size_pos (g := g) hi
  have hsame := h.of_ne (Ne.symm hx) hj
  rw [State.block, State.block, State.origin_congr (congrArg _ h.super), ← heq] at hsame
  rw [State.desc, State.desc, State.origin_congr (congrArg _ h.super)]
  exact hsame

theorem bitmapBlock (h : Written e x buf s t) (hr : Roles e s) {g : Nat}
    (hx : x ≠ s.descBlock g) : t.bitmapBlock e k g = s.bitmapBlock e k g :=
  k.bitmap_congr (h.desc hr hx)

theorem bit (h : Written e x buf s t) (hr : Roles e s) {n : Nat}
    (hdesc : x ≠ s.descBlock (n / k.perGroup s.super))
    (hbitmap : x ≠ s.bitmapBlock e k (n / k.perGroup s.super)) : t.bit e k n = s.bit e k n := by
  have hper := hr.per_le k
  have hi := Nat.mod_lt n (hr.per_pos k)
  rw [State.bit, State.bit, h.super, h.bitmapBlock hr hdesc]
  exact Bitmap.used_congr (h.of_ne (Ne.symm hbitmap) (by omega))

end Written

/-! ## Metadata -/

namespace Flip

variable {n a b : Nat} {v : Bool} {C : Nat → Prop}

theorem free_or (h : Flip e k n v a b C s t) {k' : Kind} {n' : Nat} (hf : Free e t k' n') :
    Free e s k' n' ∨ (v = false ∧ k' = k ∧ n' = n) := by
  have hgroup := hf.group
  have hlow := hf.lowest
  have hclear := hf.clear
  rw [h.layout.perGroup, h.layout.groups] at hgroup
  rw [h.layout.lowest] at hlow
  rw [h.bit hgroup] at hclear
  by_cases hsame : k' = k ∧ n' = n
  · rw [if_pos hsame] at hclear
    exact .inr ⟨hclear, hsame⟩
  · rw [if_neg hsame] at hclear
    exact .inl ⟨hgroup, hlow, hclear⟩

end Flip

/-- No block of metadata may be taken. -/
structure Consistent (e : Env) (s : State) : Prop where
  roles : Roles e s
  meta_used {x : Nat} : Meta e s x → ¬ Free e s .block x

/-- A block that holds data: it may not be taken, and it is not metadata. -/
structure Owned (e : Env) (s : State) (x : Nat) : Prop where
  used : ¬ Free e s .block x
  data : ¬ Meta e s x

/-- Time and the marks of the model do not matter. -/
theorem Meta.of_same {x c : Nat} {f : Bool} (hx : Meta e { s with clock := c, noSpace := f } x) :
    Meta e s x := by
  cases hx with
  | super h => exact .super h
  | desc h => exact .desc h
  | bitmap h => exact .bitmap h
  | table h hi => exact .table h hi

theorem Consistent.same (h : Consistent e s) (c : Nat) (f : Bool) :
    Consistent e { s with clock := c, noSpace := f } where
  roles := ⟨h.roles.size_pos, h.roles.per_pos, h.roles.per_le, h.roles.bitmap_inj,
    h.roles.bitmap_ne_desc, h.roles.super_lt_bitmap, h.roles.walled⟩
  meta_used hx hf := h.meta_used hx.of_same ⟨hf.group, hf.lowest, hf.clear⟩

/-- What `AllocBlock` leaves behind when it hands out block `n`. -/
structure NewBlock (e : Env) (n : Nat) (s t : State) : Prop where
  lt : n < 2 ^ 32
  free : Free e s .block n
  flip : Flip e .block n true (Kind.block.free (s.desc e (n / s.super.sBlocksPerGroup)) - 1)
    (sub32 (Kind.block.superFree s.super) 1) (fun y => y = n) s t
  searched : n / s.super.sBlocksPerGroup < s.searched .block
  counted : Kind.block.free (s.desc e (n / s.super.sBlocksPerGroup)) ≠ 0
  fits : s.Fits (n / s.super.sBlocksPerGroup)
  zero {i : Nat} : i < s.super.blockSize → t.block e n i = 0
  noSpace : t.noSpace = (s.noSpace || decide (n = 0))

/-- What `AllocBlock` leaves behind when it returns `0` for want of a block. -/
structure NoBlock (e : Env) (s t : State) : Prop where
  same : ∃ c, t = { s with clock := c, noSpace := true }
  passed : s.Passed e .block (s.searched .block)
  searchFits : s.SearchFits .block

section Runs

variable (he : e.Reliable) (hr : Roles e s)

include he hr

omit he in
/-- Filling a taken block with zeros. -/
theorem Flip.written {n a b : Nat} {u : State} {buf : Bytes}
    (h : Flip e .block n true a b (fun _ => False) s t) (hw : Written e n buf t u)
    (hdesc : ∀ k g, g < s.groups k → n ≠ s.descBlock g)
    (hbitmap : ∀ k g, g < s.groups k → n ≠ s.bitmapBlock e k g) :
    Flip e .block n true a b (fun y => y = n) s u where
  super := hw.super.trans h.super
  bitmapBlock {k' k'' g'} hg' := by
    have hd : n ≠ t.descBlock g' := by
      rw [State.descBlock_congr h.layout.geometry]
      exact hdesc k' g' hg'
    rw [hw.bitmapBlock (h.layout.roles hr) hd, h.bitmapBlock hg']
  inodeTable {k' g'} hg' := by
    have hd : n ≠ t.descBlock g' := by
      rw [State.descBlock_congr h.layout.geometry]
      exact hdesc k' g' hg'
    rw [(hw.desc (h.layout.roles hr) hd).inodeTable, h.inodeTable hg']
  bit {k' n'} hn' := by
    rw [hw.bit (h.layout.roles hr), h.bit hn']
    · rw [State.descBlock_congr h.layout.geometry, Kind.perGroup_congr h.layout.geometry]
      exact hdesc k' _ hn'
    · rw [Kind.perGroup_congr h.layout.geometry, h.bitmapBlock hn']
      exact hbitmap k' _ hn'
  free {k' g'} hg' := by
    have hd : n ≠ t.descBlock g' := by
      rw [State.descBlock_congr h.layout.geometry]
      exact hdesc k' g' hg'
    rw [k'.free_congr (hw.desc (h.layout.roles hr) hd), h.free hg']
  block {y j} hy hgd hne hyn hj := by
    rw [hw.of_ne hyn (by rw [h.layout.geometry.blockSize]; exact hj), h.block hy hgd hne id hj]

/-- **What `AllocBlock` does**, and how it strays. -/
theorem allocBlock_strays (hused : ∀ x, Meta e s x → ¬ Free e s .block x) :
    Ends (allocBlock e) s (Strays e .block (s.searched .block) s) fun n t =>
      (n = 0 ∧ NoBlock e s t) ∨ NewBlock e n s t := by
  refine Ends.bind (allocBit_ends (k := .block) he hr) fun r t h => ?_
  rcases h with ⟨rfl, ⟨c, rfl⟩, hnone, hfits⟩ | ⟨n, rfl, hn, ht⟩
  · have hret : returned 0 (s.at c) = .ok (0, { s with clock := c, noSpace := true }) := by
      rw [returned, decide_eq_true rfl, Bool.or_true]
      rfl
    exact Ends.of_ok hret (.inl ⟨rfl, ⟨c, rfl⟩, hnone, hfits⟩)
  · refine Ends.step (pageAlloc_run he) ?_
    rw [if_pos rfl]
    obtain ⟨u, hu, hw⟩ := writeBlock_written (s := t.at (t.clock + 1)) he n fun _ => 0
    refine Ends.step hu ?_
    refine Ends.of_ok (a := n) (t := { u with noSpace := u.noSpace || decide (n = 0) }) rfl
      (.inr ?_)
    have hflip := (ht.flip.at_right (t.clock + 1)).written hr hw
      (fun k g hg h => hused n (h ▸ .desc hg) ht.free)
      (fun k g hg h => hused n (h ▸ .bitmap hg) ht.free)
    refine ⟨?_, ht.free, ⟨hflip.super, hflip.bitmapBlock, hflip.inodeTable, hflip.bit, hflip.free,
      hflip.block⟩, hn, ht.counted, ht.fits, fun hi => hw.self ?_, ?_⟩
    · have hle := Nat.mul_le_mul_right (Kind.block.perGroup s.super) (Nat.succ_le_of_lt hn)
      have hlt := Nat.lt_mul_div_succ n (hr.per_pos .block)
      rw [Nat.mul_comm] at hlt
      exact Nat.lt_trans (Nat.lt_of_lt_of_le hlt hle) ceilDiv_mul_lt
    · show _ < t.super.blockSize
      rw [ht.flip.layout.geometry.blockSize]
      exact hi
    · show (u.noSpace || _) = _
      rw [hw.noSpace]
      show (t.noSpace || _) = _
      rw [ht.noSpace]

/-- **What `AllocBlock` does.** -/
theorem allocBlock_ends (hused : ∀ x, Meta e s x → ¬ Free e s .block x) :
    Ends (allocBlock e) s (Unfit s .block) fun n t =>
      (n = 0 ∧ NoBlock e s t) ∨ NewBlock e n s t :=
  (allocBlock_strays he hr hused).mono_error fun _ ⟨hf, g, hg, hfit, _⟩ => ⟨hf, g, hg, hfit⟩

end Runs

/-! ## The same bits -/

/-- Superblock, bits and counts are the same. -/
structure SameBits (e : Env) (s t : State) : Prop where
  super : t.super = s.super
  layout : SameLayout e s t
  free {k : Kind} {g : Nat} : g < s.groups k → k.free (t.desc e g) = k.free (s.desc e g)
  bit {k : Kind} {n : Nat} : n / k.perGroup s.super < s.groups k → t.bit e k n = s.bit e k n

namespace SameBits

/-- The descriptors have the same fields. -/
theorem of_desc (hsuper : t.super = s.super)
    (hdesc : ∀ {k : Kind} {g}, g < s.groups k → (s.desc e g).Same (t.desc e g))
    (hbit : ∀ {k : Kind} {n}, n / k.perGroup s.super < s.groups k → t.bit e k n = s.bit e k n) :
    SameBits e s t where
  super := hsuper
  layout := ⟨hsuper ▸ SuperBlock.SameGeometry.refl _, fun hg => Kind.bitmap_congr (hdesc hg) _,
    fun hg => (hdesc hg).inodeTable⟩
  free hg := Kind.free_congr (hdesc hg) _
  bit := hbit

theorem free_iff (h : SameBits e s t) {n : Nat} : Free e t k n ↔ Free e s k n := by
  have hl := h.layout
  constructor
  · intro hf
    have hn := hf.group
    rw [hl.perGroup, hl.groups] at hn
    exact ⟨hn, hl.lowest k ▸ hf.lowest, h.bit hn ▸ hf.clear⟩
  · intro hf
    refine ⟨?_, (hl.lowest k).symm ▸ hf.lowest, (h.bit hf.group).symm ▸ hf.clear⟩
    rw [hl.perGroup, hl.groups]
    exact hf.group

theorem consistent (h : SameBits e s t) (hs : Consistent e s) : Consistent e t where
  roles := h.layout.roles hs.roles
  meta_used hy hf := hs.meta_used (h.layout.meta_of hy) (h.free_iff.mp hf)

theorem owned (h : SameBits e s t) {y : Nat} (hy : Owned e s y) : Owned e t y where
  used hf := hy.used (h.free_iff.mp hf)
  data hm := hy.data (h.layout.meta_of hm)

end SameBits

/-! ## Blocks of data -/

namespace Written

variable {x : Nat} {buf : Bytes}

/-- A block that holds neither descriptors nor a bitmap has been written. -/
theorem sameBits_of_ne (h : Written e x buf s t) (hr : Roles e s)
    (hdesc : ∀ k g, g < s.groups k → x ≠ s.descBlock g)
    (hbitmap : ∀ k g, g < s.groups k → x ≠ s.bitmapBlock e k g) : SameBits e s t :=
  .of_desc h.super (fun hg => h.desc hr (hdesc _ _ hg)) fun hn =>
    h.bit hr (hdesc _ _ hn) (hbitmap _ _ hn)

theorem sameBits (h : Written e x buf s t) (hr : Roles e s) (hx : ¬ Meta e s x) :
    SameBits e s t :=
  h.sameBits_of_ne hr (fun _ _ hg heq => hx (heq ▸ .desc hg)) fun _ _ hg heq =>
    hx (heq ▸ .bitmap hg)

theorem layout (h : Written e x buf s t) (hr : Roles e s) (hx : ¬ Meta e s x) :
    SameLayout e s t := (h.sameBits hr hx).layout

theorem free_iff (h : Written e x buf s t) (hr : Roles e s) (hx : ¬ Meta e s x) {n : Nat} :
    Free e t k n ↔ Free e s k n := (h.sameBits hr hx).free_iff

theorem consistent (h : Written e x buf s t) (hs : Consistent e s) (hx : ¬ Meta e s x) :
    Consistent e t := (h.sameBits hs.roles hx).consistent hs

theorem owned (h : Written e x buf s t) (hr : Roles e s) (hx : ¬ Meta e s x) {y : Nat}
    (hy : Owned e s y) : Owned e t y := (h.sameBits hr hx).owned hy

end Written

namespace NewBlock

variable {n y : Nat}

theorem layout (h : NewBlock e n s t) : SameLayout e s t := h.flip.layout

theorem consistent (h : NewBlock e n s t) (hs : Consistent e s) : Consistent e t where
  roles := h.layout.roles hs.roles
  meta_used hx hf := by
    rcases h.flip.free_or hf with hf | ⟨hv, -⟩
    · exact hs.meta_used (h.layout.meta_of hx) hf
    · cases hv

theorem owned (h : NewBlock e n s t) (hy : Owned e s y) : Owned e t y where
  used hf := by
    rcases h.flip.free_or hf with hf | ⟨hv, -⟩
    · exact hy.used hf
    · cases hv
  data hm := hy.data (h.layout.meta_of hm)

theorem owned_self (h : NewBlock e n s t) (hs : Consistent e s) : Owned e t n where
  used hf := by
    have hclear := hf.clear
    rw [h.flip.bit h.free.group, if_pos ⟨rfl, rfl⟩] at hclear
    cases hclear
  data hm := hs.meta_used (h.layout.meta_of hm) h.free

theorem ne_of_owned (h : NewBlock e n s t) (hy : Owned e s y) : y ≠ n := by
  rintro rfl
  exact hy.used h.free

/-- The data stays. -/
theorem block (h : NewBlock e n s t) (hy : Owned e s y) {i : Nat} (hi : i < s.super.blockSize) :
    t.block e y i = s.block e y i := by
  have hgroup := h.free.group
  refine h.flip.block ?_ ?_ ?_ (h.ne_of_owned hy) hi
  · by_contra hle
    exact hy.data (.super (Nat.le_of_not_lt hle))
  · rintro rfl
    refine hy.data ?_
    have hmeta : Meta e s (s.descBlock 0) :=
      .desc (k := .block) (Nat.lt_of_le_of_lt (Nat.zero_le _) hgroup)
    rwa [State.descBlock, Nat.mul_zero, Nat.zero_div] at hmeta
  · rintro rfl
    exact hy.data (.bitmap hgroup)

end NewBlock

/-! ## Frames -/

/-- A block that holds no superblock, no descriptors and no bitmap. -/
structure Lasting (e : Env) (s : State) (x : Nat) : Prop where
  super_lt : s.superBlock < x
  ne_desc {k : Kind} {g : Nat} : g < s.groups k → x ≠ s.descBlock g
  ne_bitmap {k : Kind} {g : Nat} : g < s.groups k → x ≠ s.bitmapBlock e k g

theorem Lasting.of_data {x : Nat} (h : ¬ Meta e s x) : Lasting e s x where
  super_lt := Nat.lt_of_not_le fun hle => h (.super hle)
  ne_desc hg heq := h (heq ▸ .desc hg)
  ne_bitmap hg heq := h (heq ▸ .bitmap hg)

theorem Lasting.of_layout {x : Nat} (h : Lasting e s x) (hl : SameLayout e s t) :
    Lasting e t x where
  super_lt := by
    rw [State.superBlock_congr hl.geometry]
    exact h.super_lt
  ne_desc hg := by
    rw [hl.groups] at hg
    rw [State.descBlock_congr hl.geometry]
    exact h.ne_desc hg
  ne_bitmap hg := by
    rw [hl.groups] at hg
    rw [hl.bitmapBlock hg]
    exact h.ne_bitmap hg

/-- A changed bit leaves such a block alone. -/
theorem Flip.block_lasting {n a b y i : Nat} {v : Bool} (h : Flip e k n v a b (fun _ => False) s t)
    (hn : n / k.perGroup s.super < s.groups k) (hy : Lasting e s y) (hi : i < s.super.blockSize) :
    t.block e y i = s.block e y i := by
  refine h.block hy.super_lt (fun hgd => ?_) (hy.ne_bitmap hn) id hi
  have hdesc : s.descBlock 0 = gdBlock := by
    rw [State.descBlock, Nat.mul_zero, Nat.zero_div, Nat.add_zero]
  exact hy.ne_desc (Nat.zero_lt_of_lt hn) (hgd.trans hdesc.symm)

/-- A block that keeps what it holds when the allocator works. -/
structure Kept (e : Env) (s : State) (x : Nat) : Prop where
  used : ¬ Free e s .block x
  super_lt : s.superBlock < x
  ne_desc {k : Kind} {g : Nat} : g < s.groups k → x ≠ s.descBlock g
  ne_bitmap {k : Kind} {g : Nat} : g < s.groups k → x ≠ s.bitmapBlock e k g

theorem Owned.kept {x : Nat} (h : Owned e s x) : Kept e s x where
  used := h.used
  super_lt := by
    by_contra hle
    exact h.data (.super (Nat.le_of_not_lt hle))
  ne_desc {k g} hg heq := h.data (heq ▸ .desc hg)
  ne_bitmap {k g} hg heq := h.data (heq ▸ .bitmap hg)

/-- Nothing is freed, the metadata stays where it is, and of the blocks in use only those of
`touched` change. -/
structure Frame (e : Env) (touched : Nat → Prop) (s t : State) : Prop where
  layout : SameLayout e s t
  free {n : Nat} : Free e t .block n → Free e s .block n
  block {y i : Nat} : Kept e s y → ¬ touched y → i < s.super.blockSize →
    t.block e y i = s.block e y i
  noSpace : s.noSpace = true → t.noSpace = true

namespace Frame

variable {A B : Nat → Prop} {u : State} {y : Nat}

theorem at_right (s : State) (c : Nat) : Frame e A s (s.at c) where
  layout := ⟨SuperBlock.SameGeometry.refl s.super, fun _ => rfl, fun _ => rfl⟩
  free hf := ⟨hf.group, hf.lowest, hf.clear⟩
  block _ _ _ := rfl
  noSpace h := h

theorem refl (s : State) : Frame e A s s := at_right s s.clock

theorem mono (h : Frame e A s t) (hAB : ∀ y, Kept e s y → A y → B y) : Frame e B s t where
  layout := h.layout
  free := h.free
  block hy hB hi := h.block hy (fun hA => hB (hAB _ hy hA)) hi
  noSpace := h.noSpace

theorem kept (h : Frame e A s t) (hy : Kept e s y) : Kept e t y where
  used hf := hy.used (h.free hf)
  super_lt := by
    rw [State.superBlock_congr h.layout.geometry]
    exact hy.super_lt
  ne_desc {k g} hg := by
    rw [h.layout.groups] at hg
    rw [State.descBlock_congr h.layout.geometry]
    exact hy.ne_desc hg
  ne_bitmap {k g} hg := by
    rw [h.layout.groups] at hg
    rw [h.layout.bitmapBlock hg]
    exact hy.ne_bitmap hg

theorem trans (h : Frame e A s t) (h' : Frame e B t u) (hBA : ∀ y, Kept e s y → B y → A y) :
    Frame e A s u where
  layout := h.layout.trans h'.layout
  free hf := h.free (h'.free hf)
  block {y i} hy hA hi := by
    have hB : ¬ B y := fun hB => hA (hBA y hy hB)
    rw [h'.block (h.kept hy) hB (by rw [h.layout.geometry.blockSize]; exact hi), h.block hy hA hi]
  noSpace hs := h'.noSpace (h.noSpace hs)

theorem consistent (h : Frame e A s t) (hs : Consistent e s) : Consistent e t where
  roles := h.layout.roles hs.roles
  meta_used hx hf := hs.meta_used (h.layout.meta_of hx) (h.free hf)

theorem owned (h : Frame e A s t) (hy : Owned e s y) : Owned e t y where
  used hf := hy.used (h.free hf)
  data hm := hy.data (h.layout.meta_of hm)

end Frame

theorem Written.frame {x : Nat} {buf : Bytes} (h : Written e x buf s t) (hr : Roles e s)
    (hx : ¬ Meta e s x) : Frame e (fun y => y = x) s t where
  layout := h.layout hr hx
  free hf := (h.free_iff hr hx).mp hf
  block _ hy hi := h.of_ne hy hi
  noSpace hs := by rw [h.noSpace, hs]

theorem NewBlock.frame {n : Nat} {A : Nat → Prop} (h : NewBlock e n s t) : Frame e A s t where
  layout := h.layout
  free hf := by
    rcases h.flip.free_or hf with hf | ⟨hv, -⟩
    · exact hf
    · cases hv
  block {y i} hy _ hi := by
    have hgroup := h.free.group
    have hdesc := hy.ne_desc (k := .block) (Nat.lt_of_le_of_lt (Nat.zero_le _) hgroup)
    rw [State.descBlock, Nat.mul_zero, Nat.zero_div] at hdesc
    refine h.flip.block hy.super_lt hdesc (hy.ne_bitmap hgroup) ?_ hi
    rintro rfl
    exact hy.used h.free
  noSpace hs := by rw [h.noSpace, hs, Bool.true_or]

theorem NoBlock.frame {A : Nat → Prop} (h : NoBlock e s t) : Frame e A s t := by
  obtain ⟨c, rfl⟩ := h.same
  exact ⟨⟨SuperBlock.SameGeometry.refl s.super, fun _ => rfl, fun _ => rfl⟩,
    fun hf => ⟨hf.group, hf.lowest, hf.clear⟩, fun _ _ _ => rfl, fun _ => rfl⟩

/-- On a consistent volume block `0` is not free. -/
theorem Consistent.ne_zero {n : Nat} (hs : Consistent e s) (hn : Free e s .block n) : n ≠ 0 := by
  rintro rfl
  exact hs.meta_used (.super (Nat.zero_le _)) hn

theorem NewBlock.ne_zero {n : Nat} (h : NewBlock e n s t) (hs : Consistent e s) : n ≠ 0 :=
  hs.ne_zero h.free

end InfoKernel.Ext2
