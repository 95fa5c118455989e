import InfoKernel.Fs.SmallVolume
import InfoKernel.Lib.Run
import Mathlib.Algebra.BigOperators.Group.Finset.Basic
import Mathlib.Algebra.Order.BigOperators.Group.Finset
import Mathlib.Data.Set.Card

/-!
# The counts of free blocks and inodes

Each group counts its free blocks and inodes in its descriptor, and the superblock counts
them for the volume.  `Counted` says that all of these counts are right and that no block of
metadata and no reserved inode may be taken.  Every call of the four allocator functions keeps
it (`Counted.step`), so it holds after every sequence of calls, and an allocator of a counted
volume never returns a number that is still live and fails only when nothing is free.
-/

namespace InfoKernel.Ext2

open Lib

/-- The free bits of group `g`. -/
def State.freeBits (s : State) (e : Env) (k : Kind) (g : Nat) : Finset Nat :=
  (Finset.range (k.perGroup s.super)).filter fun i =>
    k.lowest s.super ≤ g * k.perGroup s.super + i ∧ s.bit e k (g * k.perGroup s.super + i) = false

/-- `EXT2_GOOD_OLD_FIRST_INO` -/
def firstIno : Nat := 11

/-- All counts of free blocks and inodes are right. -/
structure Counted (e : Env) (s : State) : Prop where
  consistent : Consistent e s
  /-- the reserved inodes `1` to `10` may not be taken -/
  reserved {n : Nat} : n + 1 < firstIno → ¬ Free e s .inode n
  /-- all descriptors lie in one block -/
  fits {k : Kind} {g : Nat} : g < s.groups k → s.Fits g
  perGroup_lt (k : Kind) : k.perGroup s.super < 2 ^ 16
  /-- the numbers of blocks and inodes fit in 32 bits -/
  numbers_le (k : Kind) : k.count s.super + k.perGroup s.super ≤ 2 ^ 32
  inGroup {k : Kind} {g : Nat} : g < s.groups k → k.free (s.desc e g) = (s.freeBits e k g).card
  onVolume (k : Kind) :
    k.superFree s.super = ∑ g ∈ Finset.range (s.groups k), k.free (s.desc e g)

variable {e : Env} {s t : State} {k : Kind} {n a b : Nat} {v : Bool} {C : Nat → Prop}

/-! ## What a flip does to the free bits -/

theorem mem_freeBits {g i : Nat} : i ∈ s.freeBits e k g ↔ i < k.perGroup s.super ∧
    k.lowest s.super ≤ g * k.perGroup s.super + i ∧
      s.bit e k (g * k.perGroup s.super + i) = false := by
  rw [State.freeBits, Finset.mem_filter, Finset.mem_range]

/-- A free bit, as a free bit of its group. -/
theorem free_iff_mem {g i : Nat} (hg : g < s.groups k) (hi : i < k.perGroup s.super) :
    Free e s k (g * k.perGroup s.super + i) ↔ i ∈ s.freeBits e k g := by
  rw [mem_freeBits]
  constructor
  · intro h
    exact ⟨hi, h.lowest, h.clear⟩
  · rintro ⟨-, hlow, hclear⟩
    exact ⟨by rwa [(number_div_mod hi).1], hlow, hclear⟩

theorem Free.mem (hpos : 0 < k.perGroup s.super) (h : Free e s k n) :
    n % k.perGroup s.super ∈ s.freeBits e k (n / k.perGroup s.super) := by
  rw [← free_iff_mem h.group (Nat.mod_lt n hpos), Nat.div_add_mod']
  exact h

namespace Flip

/-- The free bits of a group after a flip. -/
theorem mem_freeBits (h : Flip e k n v a b C s t) {k' : Kind} {g i : Nat} (hg : g < s.groups k') :
    i ∈ t.freeBits e k' g ↔ i < k'.perGroup s.super ∧
      k'.lowest s.super ≤ g * k'.perGroup s.super + i ∧
        (if k' = k ∧ g * k'.perGroup s.super + i = n then v
          else s.bit e k' (g * k'.perGroup s.super + i)) = false := by
  rw [Ext2.mem_freeBits, h.layout.perGroup, h.layout.lowest]
  refine and_congr_right fun hi => and_congr_right fun _ => ?_
  rw [h.bit (by rwa [(number_div_mod hi).1])]

/-- The groups other than that of the changed bit. -/
theorem freeBits_of_ne (h : Flip e k n v a b C s t) {k' : Kind} {g : Nat} (hg : g < s.groups k')
    (hne : ¬ (k' = k ∧ g = n / k.perGroup s.super)) : t.freeBits e k' g = s.freeBits e k' g := by
  ext i
  rw [h.mem_freeBits hg, Ext2.mem_freeBits]
  refine and_congr_right fun hi => and_congr_right fun _ => ?_
  rw [if_neg]
  rintro ⟨rfl, hn⟩
  exact hne ⟨rfl, by rw [← hn, (number_div_mod hi).1]⟩

/-- A bit that is taken leaves the free ones. -/
theorem freeBits_take (h : Flip e k n true a b C s t)
    (hn : n / k.perGroup s.super < s.groups k) :
    t.freeBits e k (n / k.perGroup s.super) =
      (s.freeBits e k (n / k.perGroup s.super)).erase (n % k.perGroup s.super) := by
  ext i
  rw [h.mem_freeBits hn, Finset.mem_erase, Ext2.mem_freeBits]
  by_cases hi : i = n % k.perGroup s.super
  · rw [hi, Nat.div_add_mod']
    simp
  · have hne : ¬ (k = k ∧ n / k.perGroup s.super * k.perGroup s.super + i = n) := by
      rintro ⟨-, heq⟩
      have h := Nat.div_add_mod' n (k.perGroup s.super)
      omega
    rw [if_neg hne]
    exact ⟨fun h => ⟨hi, h⟩, fun h => h.2⟩

/-- A bit that is released joins the free ones. -/
theorem freeBits_release (h : Flip e k n false a b C s t) (hr : Roles e s)
    (hn : n / k.perGroup s.super < s.groups k) (hlow : k.lowest s.super ≤ n) :
    t.freeBits e k (n / k.perGroup s.super) =
      insert (n % k.perGroup s.super) (s.freeBits e k (n / k.perGroup s.super)) := by
  ext i
  rw [h.mem_freeBits hn, Finset.mem_insert, Ext2.mem_freeBits]
  by_cases hi : i = n % k.perGroup s.super
  · have hlt := Nat.mod_lt n (hr.per_pos k)
    rw [hi, Nat.div_add_mod']
    simp [hlt, hlow]
  · have hne : ¬ (k = k ∧ n / k.perGroup s.super * k.perGroup s.super + i = n) := by
      rintro ⟨-, heq⟩
      have h := Nat.div_add_mod' n (k.perGroup s.super)
      omega
    rw [if_neg hne]
    exact ⟨fun h => .inr h, fun h => h.resolve_left hi⟩

end Flip

/-- The free ones, group by group. -/
theorem free_eq (s : State) (e : Env) (k : Kind) (hpos : 0 < k.perGroup s.super) :
    {n | Free e s k n} = ((Finset.range (s.groups k)).sigma fun g => s.freeBits e k g).image
      fun q => q.1 * k.perGroup s.super + q.2 := by
  ext n
  rw [Set.mem_ofPred_eq, Finset.mem_coe, Finset.mem_image]
  constructor
  · intro hf
    refine ⟨⟨n / k.perGroup s.super, n % k.perGroup s.super⟩, ?_, Nat.div_add_mod' n _⟩
    rw [Finset.mem_sigma, Finset.mem_range]
    exact ⟨hf.group, hf.mem hpos⟩
  · rintro ⟨⟨g, i⟩, hm, rfl⟩
    rw [Finset.mem_sigma, Finset.mem_range] at hm
    exact (free_iff_mem hm.1 (mem_freeBits.mp hm.2).1).mpr hm.2

theorem Counted.finite_free (h : Counted e s) (k : Kind) : {n | Free e s k n}.Finite := by
  rw [free_eq s e k (h.consistent.roles.per_pos k)]
  exact Finset.finite_toSet _

/-- The free ones are as many as the superblock says. -/
theorem Counted.ncard_free (h : Counted e s) (k : Kind) :
    {n | Free e s k n}.ncard = k.superFree s.super := by
  rw [free_eq s e k (h.consistent.roles.per_pos k), Set.ncard_coe_finset,
    Finset.card_image_of_injOn,
    Finset.card_sigma, h.onVolume k]
  · exact Finset.sum_congr rfl fun g hg => (h.inGroup (Finset.mem_range.mp hg)).symm
  · rintro ⟨g, i⟩ hm ⟨g', i'⟩ hm' heq
    rw [Finset.mem_coe, Finset.mem_sigma] at hm hm'
    have hi := number_div_mod (g := g) (mem_freeBits.mp hm.2).1
    have hi' := number_div_mod (g := g') (mem_freeBits.mp hm'.2).1
    dsimp only at heq
    rw [heq] at hi
    have hg : g = g' := hi.1.symm.trans hi'.1
    subst hg
    rw [show i = i' from hi.2.symm.trans hi'.2]

/-! ## The counts after one call -/

namespace Counted

theorem roles (h : Counted e s) : Roles e s := h.consistent.roles

theorem free_le (h : Counted e s) {g : Nat} (hg : g < s.groups k) :
    k.free (s.desc e g) ≤ k.perGroup s.super := by
  rw [h.inGroup hg]
  have hcard := Finset.card_filter_le (Finset.range (k.perGroup s.super)) fun i =>
    k.lowest s.super ≤ g * k.perGroup s.super + i ∧ s.bit e k (g * k.perGroup s.super + i) = false
  rwa [Finset.card_range] at hcard

/-- The numbers of all bits fit in 32 bits. -/
theorem groups_mul_lt (h : Counted e s) (k : Kind) :
    s.groups k * k.perGroup s.super < 2 ^ 32 := by
  have hpos := h.roles.per_pos k
  have hle := h.numbers_le k
  have hdiv : s.groups k * k.perGroup s.super ≤ k.count s.super + (k.perGroup s.super - 1) :=
    Nat.div_mul_le_self _ _
  omega

theorem sum_perGroup (s : State) (k : Kind) :
    ∑ _g ∈ Finset.range (s.groups k), k.perGroup s.super = s.groups k * k.perGroup s.super := by
  rw [Finset.sum_const_nat fun _ _ => rfl, Finset.card_range]

theorem onVolume_le (h : Counted e s) (k : Kind) :
    k.superFree s.super ≤ s.groups k * k.perGroup s.super := by
  rw [h.onVolume k, ← sum_perGroup]
  exact Finset.sum_le_sum fun g hg => h.free_le (Finset.mem_range.mp hg)

/-- A group that is not free as a whole. -/
theorem onVolume_lt (h : Counted e s) {g : Nat} (hg : g < s.groups k)
    (hlt : k.free (s.desc e g) < k.perGroup s.super) :
    k.superFree s.super < s.groups k * k.perGroup s.super := by
  rw [h.onVolume k, ← sum_perGroup]
  exact Finset.sum_lt_sum (fun j hj => h.free_le (Finset.mem_range.mp hj))
    ⟨g, Finset.mem_range.mpr hg, hlt⟩

theorem free_le_onVolume (h : Counted e s) {g : Nat} (hg : g < s.groups k) :
    k.free (s.desc e g) ≤ k.superFree s.super := by
  rw [h.onVolume k]
  exact Finset.single_le_sum (f := fun g => k.free (s.desc e g)) (fun _ _ => Nat.zero_le _)
    (Finset.mem_range.mpr hg)

/-- What is left to check after a flip: the count of the group, and the metadata. -/
theorem of_flip (h : Counted e s) (hf : Flip e k n v a b C s t)
    (hn : n / k.perGroup s.super < s.groups k) (ha : a < 2 ^ 16) (hb : b < 2 ^ 32)
    (hin : a = (t.freeBits e k (n / k.perGroup s.super)).card)
    (hon : b + k.free (s.desc e (n / k.perGroup s.super)) = k.superFree s.super + a)
    (hmeta : ∀ x, Meta e s x → ¬ Free e t .block x)
    (hres : ∀ m, m + 1 < firstIno → ¬ Free e t .inode m) : Counted e t where
  consistent := ⟨hf.layout.roles h.roles, fun hx => hmeta _ (hf.layout.meta_of hx)⟩
  reserved := hres _
  fits {k' g} hg := by
    rw [hf.layout.groups] at hg
    rw [State.Fits, hf.layout.geometry.blockSize]
    exact h.fits hg
  perGroup_lt k' := by
    rw [hf.layout.perGroup]
    exact h.perGroup_lt k'
  numbers_le k' := by
    rw [hf.layout.perGroup, k'.count_congr hf.layout.geometry]
    exact h.numbers_le k'
  inGroup {k' g} hg := by
    rw [hf.layout.groups] at hg
    rw [hf.free hg]
    by_cases hsame : k' = k ∧ g = n / k.perGroup s.super
    · rw [if_pos hsame, hsame.1, hsame.2, Nat.mod_eq_of_lt ha, hin]
    · rw [if_neg hsame, h.inGroup hg, hf.freeBits_of_ne hg hsame]
  onVolume k' := by
    rw [hf.layout.groups]
    by_cases hk : k' = k
    · subst hk
      rw [hf.super, Kind.superFree_setSuperFree_self, Nat.mod_eq_of_lt hb]
      have hmem : n / k'.perGroup s.super ∈ Finset.range (s.groups k') := Finset.mem_range.mpr hn
      have hrest : ∑ g ∈ (Finset.range (s.groups k')).erase (n / k'.perGroup s.super),
          k'.free (t.desc e g) =
          ∑ g ∈ (Finset.range (s.groups k')).erase (n / k'.perGroup s.super),
            k'.free (s.desc e g) :=
        Finset.sum_congr rfl fun g hg => by
          rw [Finset.mem_erase, Finset.mem_range] at hg
          rw [hf.free hg.2, if_neg fun h => hg.1 h.2]
      have hvol := h.onVolume k'
      rw [← Finset.add_sum_erase _ _ hmem] at hvol
      rw [← Finset.add_sum_erase _ _ hmem, hrest, hf.free hn, if_pos ⟨rfl, rfl⟩,
        Nat.mod_eq_of_lt ha]
      omega
    · rw [hf.super, Kind.superFree_setSuperFree_of_ne hk, h.onVolume k']
      refine Finset.sum_congr rfl fun g hg => ?_
      rw [hf.free (Finset.mem_range.mp hg), if_neg fun h => hk h.1]

/-- A counted volume stays counted when a bit is taken. -/
theorem take (h : Counted e s) (hfree : Free e s k n)
    (hf : Flip e k n true (k.free (s.desc e (n / k.perGroup s.super)) - 1)
      (sub32 (k.superFree s.super) 1) C s t) : Counted e t := by
  have hmem := hfree.mem (h.roles.per_pos k)
  have hcard := Finset.card_erase_of_mem hmem
  have hpos := Finset.card_pos.mpr ⟨_, hmem⟩
  have hin := h.inGroup hfree.group
  have hle := h.free_le hfree.group
  have hper := h.perGroup_lt k
  have hvol := h.free_le_onVolume hfree.group
  have hlt := Nat.lt_of_le_of_lt (h.onVolume_le k) (h.groups_mul_lt k)
  have hsub : sub32 (k.superFree s.super) 1 = k.superFree s.super - 1 := by
    rw [sub32, u32, u32]
    omega
  rw [hsub] at hf
  refine h.of_flip hf hfree.group (by omega) (by omega) ?_ (by omega) ?_ ?_
  · rw [hf.freeBits_take hfree.group, hcard, hin]
  · intro x hx hfx
    rcases hf.free_or hfx with hfx | hfx
    · exact h.consistent.meta_used hx hfx
    · cases hfx.1
  · intro m hm hfm
    rcases hf.free_or hfm with hfm | hfm
    · exact h.reserved hm hfm
    · cases hfm.1

/-- It stays counted when a bit that may be taken is released. -/
theorem release (h : Counted e s) (hn : n / k.perGroup s.super < s.groups k)
    (hlow : k.lowest s.super ≤ n) (hbit : s.bit e k n = true)
    (hmeta : k = .block → ¬ Meta e s n) (hres : k = .inode → firstIno ≤ n + 1)
    (hf : Flip e k n false (u16 (k.free (s.desc e (n / k.perGroup s.super)) + 1))
      (u32 (k.superFree s.super + 1)) C s t) : Counted e t := by
  have hlt := Nat.mod_lt n (h.roles.per_pos k)
  have hnot : n % k.perGroup s.super ∉ s.freeBits e k (n / k.perGroup s.super) := by
    rw [mem_freeBits, Nat.div_add_mod', hbit]
    simp
  have hcard := Finset.card_insert_of_notMem hnot
  have hsub : insert (n % k.perGroup s.super) (s.freeBits e k (n / k.perGroup s.super)) ⊆
      Finset.range (k.perGroup s.super) := by
    intro i hi
    rw [Finset.mem_insert] at hi
    rw [Finset.mem_range]
    rcases hi with rfl | hi
    · exact hlt
    · exact (mem_freeBits.mp hi).1
  have hle := Finset.card_le_card hsub
  rw [Finset.card_range, hcard, ← h.inGroup hn] at hle
  have hper := h.perGroup_lt k
  have hlt32 := h.groups_mul_lt k
  have hvol := h.onVolume_lt hn (by omega)
  have h16 : u16 (k.free (s.desc e (n / k.perGroup s.super)) + 1) =
      k.free (s.desc e (n / k.perGroup s.super)) + 1 := Nat.mod_eq_of_lt (by omega)
  have h32 : u32 (k.superFree s.super + 1) = k.superFree s.super + 1 :=
    Nat.mod_eq_of_lt (by omega)
  rw [h16, h32] at hf
  refine h.of_flip hf hn (by omega) (by omega) ?_ (by omega) ?_ ?_
  · rw [hf.freeBits_release h.roles hn hlow, hcard, h.inGroup hn]
  · intro x hx hfx
    rcases hf.free_or hfx with hfx | ⟨-, hk, hxn⟩
    · exact h.consistent.meta_used hx hfx
    · exact hmeta hk.symm (hxn ▸ hx)
  · intro m hm hfm
    rcases hf.free_or hfm with hfm | ⟨-, hk, hmn⟩
    · exact h.reserved hm hfm
    · have := hres hk.symm
      omega

end Counted

/-! ## Calls -/

/-- `AllocBlock` or `AllocInode`. -/
def alloc (e : Env) : Kind → Io Nat
  | .block => allocBlock e
  | .inode => allocInode e

/-- `FreeBlock` or `FreeInode`. -/
def release (e : Env) : Kind → Nat → Io PUnit
  | .block => freeBlock e
  | .inode => freeInode e

/-- The number of the bit that stands for a block or an inode. -/
def Kind.bitOf (num : Nat) : Kind → Nat
  | .block => num
  | .inode => num - 1

/-- A call and the number that it returns or takes. -/
inductive Call where
  | alloc (k : Kind) (num : Nat)
  | release (k : Kind) (num : Nat)

/-- A number that has been handed out and not taken back since. -/
def Live (h : List Call) (k : Kind) (num : Nat) : Prop :=
  ∃ before after, h = before ++ .alloc k num :: after ∧ .release k num ∉ after

/-- The steps of the allocators, with the calls made so far.  A release takes a number that an
allocator has returned. -/
inductive Step (e : Env) : List Call × State → Call → List Call × State → Prop
  | alloc {h : List Call} {s t : State} {k : Kind} {num : Nat} :
      Ext2.alloc e k s = .ok (num, t) → Step e (h, s) (.alloc k num) (h ++ [.alloc k num], t)
  | release {h : List Call} {s t : State} {k : Kind} {num : Nat} :
      num ≠ 0 → .alloc k num ∈ h → Ext2.release e k num s = .ok (⟨⟩, t) →
        Step e (h, s) (.release k num) (h ++ [.release k num], t)

/-- A number that an allocator may return. -/
structure Data (e : Env) (s : State) (k : Kind) (num : Nat) : Prop where
  pos : num ≠ 0
  group : k.bitOf num / k.perGroup s.super < s.groups k
  lowest : k.lowest s.super ≤ k.bitOf num
  notMeta : k = .block → ¬ Meta e s num
  notReserved : k = .inode → firstIno ≤ num

/-- The volume alone matters, not the time and not the marks of the model. -/
theorem Counted.same (h : Counted e s) (c : Nat) (f : Bool) :
    Counted e { s with clock := c, noSpace := f } where
  consistent := h.consistent.same c f
  reserved hn hf := h.reserved hn ⟨hf.group, hf.lowest, hf.clear⟩
  fits := h.fits
  perGroup_lt := h.perGroup_lt
  numbers_le := h.numbers_le
  inGroup := h.inGroup
  onVolume := h.onVolume

theorem SameBits.freeBits (hs : SameBits e s t) {g : Nat} (hg : g < s.groups k) :
    t.freeBits e k g = s.freeBits e k g := by
  have hl := hs.layout
  ext i
  by_cases hi : i < k.perGroup s.super
  · rw [← free_iff_mem hg hi, ← free_iff_mem (by rwa [hl.groups]) (by rwa [hl.perGroup]),
      hl.perGroup, hs.free_iff]
  · rw [mem_freeBits, mem_freeBits, hl.perGroup]
    exact ⟨fun hm => absurd hm.1 hi, fun hm => absurd hm.1 hi⟩

/-- Superblock, descriptors and bits are all that matters. -/
theorem SameBits.counted (hs : SameBits e s t) (h : Counted e s) : Counted e t := by
  have hl := hs.layout
  exact {
    consistent := hs.consistent h.consistent
    reserved := fun hn hf => h.reserved hn (hs.free_iff.mp hf)
    fits := fun {k g} hg => by
      rw [hl.groups] at hg
      rw [State.Fits, hl.geometry.blockSize]
      exact h.fits hg
    perGroup_lt := fun k => by
      rw [hl.perGroup]
      exact h.perGroup_lt k
    numbers_le := fun k => by
      rw [hl.perGroup, k.count_congr hl.geometry]
      exact h.numbers_le k
    inGroup := fun {k g} hg => by
      rw [hl.groups] at hg
      rw [hs.free hg, hs.freeBits hg]
      exact h.inGroup hg
    onVolume := fun k => by
      rw [hl.groups, hs.super, h.onVolume k]
      exact Finset.sum_congr rfl fun g hg => (hs.free (Finset.mem_range.mp hg)).symm }

/-- Writing a block of data does not matter either. -/
theorem Counted.written {x : Nat} {buf : Bytes} (h : Counted e s) (hw : Written e x buf s t)
    (hx : ¬ Meta e s x) : Counted e t := (hw.sameBits h.roles hx).counted h

theorem Counted.newBlock {b : Nat} (h : Counted e s) (hnew : NewBlock e b s t) : Counted e t :=
  h.take hnew.free hnew.flip

/-- Of the free blocks only the new one is taken. -/
theorem NewBlock.free_of_ne {b m : Nat} (hnew : NewBlock e b s t) (hm : Free e s .block m)
    (hne : m ≠ b) : Free e t .block m where
  group := by
    rw [hnew.layout.perGroup, hnew.layout.groups]
    exact hm.group
  lowest := by
    rw [hnew.layout.lowest]
    exact hm.lowest
  clear := by
    rw [hnew.flip.bit hm.group, if_neg fun hc => hne hc.2]
    exact hm.clear

/-- **What an allocator of a counted volume does.**  It returns `0` when nothing is free, and
leaves the volume alone; otherwise it returns a free number and marks it. -/
def AllocCounted (e : Env) (k : Kind) (s : State) (num : Nat) (t : State) : Prop :=
  (num = 0 ∧ (∀ n, ¬ Free e s k n) ∧ ∃ c f, t = { s with clock := c, noSpace := f }) ∨
  (Data e s k num ∧ Free e s k (k.bitOf num) ∧
    Flip e k (k.bitOf num) true (k.free (s.desc e (k.bitOf num / k.perGroup s.super)) - 1)
      (sub32 (k.superFree s.super) 1) (fun y => k = .block ∧ y = num) s t)

/-- Where the counts are right, a group without free ones has no free bit. -/
theorem Counted.not_free (h : Counted e s) (hnone : s.Passed e k (s.searched k)) (n : Nat) :
    ¬ Free e s k n := by
  intro hf
  have hpos := h.roles.per_pos k
  have hgroup := hf.group
  rw [State.groups, ← ceilDiv_eq hpos (h.numbers_le k), ← State.searched] at hgroup
  have hzero := hnone n hgroup hf
  rw [h.inGroup hf.group, Finset.card_eq_zero] at hzero
  have hmem := hf.mem hpos
  rw [hzero] at hmem
  exact absurd hmem (Finset.notMem_empty _)

theorem Counted.searchFits (h : Counted e s) : s.SearchFits k := fun _ hg =>
  h.fits (Nat.lt_of_lt_of_le hg (State.searched_le (h.roles.per_pos k)))

/-- The allocators do not stop on the way. -/
theorem Counted.not_unfit {f : Fault} (h : Counted e s) : ¬ Unfit s k f := fun ⟨_, g, hg, hfit⟩ =>
  hfit (h.searchFits g hg)

/-- `AllocBlock` returns `0` when nothing is free. -/
theorem NoBlock.not_free (hno : NoBlock e s t) (h : Counted e s) (n : Nat) :
    ¬ Free e t .block n := by
  obtain ⟨c, rfl⟩ := hno.same
  exact fun hf => h.not_free (k := .block) hno.passed n ⟨hf.group, hf.lowest, hf.clear⟩

theorem allocBlock_counted (he : e.Reliable) (h : Counted e s) :
    Ends (allocBlock e) s (fun _ => False) (AllocCounted e .block s) := by
  refine ((allocBlock_ends he h.roles fun x => h.consistent.meta_used).mono ?_).mono_error ?_
  · rintro num t (⟨rfl, hno⟩ | hnew)
    · obtain ⟨c, hc⟩ := hno.same
      exact .inl ⟨rfl, h.not_free (k := .block) hno.passed, c, true, hc⟩
    · have hmeta : ¬ Meta e s num := fun hx => h.consistent.meta_used hx hnew.free
      refine .inr ⟨⟨h.consistent.ne_zero hnew.free, hnew.free.group, hnew.free.lowest, fun _ =>
        hmeta, nofun⟩,
        hnew.free, ?_⟩
      exact hnew.flip.mono fun y hy => ⟨rfl, hy⟩
  · exact fun _ => h.not_unfit

theorem allocInode_counted (he : e.Reliable) (h : Counted e s) :
    Ends (allocInode e) s (fun _ => False) (AllocCounted e .inode s) := by
  refine Ends.bind (P := AllocBit e .inode _ s)
    ((allocBit_ends (k := .inode) he h.roles).mono_error ?_) fun r t hr => ?_
  · rintro f ⟨-, g, hg, hfit, -⟩
    exact hfit (h.searchFits g hg)
  · rcases hr with ⟨rfl, ⟨c, rfl⟩, hnone, -⟩ | ⟨n, rfl, -, ht⟩
    · exact Ends.pure (.inl ⟨rfl, h.not_free (k := .inode) hnone, c, s.noSpace, rfl⟩)
    · have hres : firstIno ≤ n + 1 := by
        by_contra hlt
        exact h.reserved (Nat.lt_of_not_le hlt) ht.free
      refine Ends.pure (.inr ⟨⟨Nat.succ_ne_zero n, ht.free.group, ht.free.lowest,
        nofun, fun _ => hres⟩, ht.free, ?_⟩)
      exact ht.flip.mono fun y hy => hy.elim

theorem alloc_counted (he : e.Reliable) (h : Counted e s) (k : Kind) :
    Ends (alloc e k) s (fun _ => False) (AllocCounted e k s) := by
  cases k with
  | block => exact allocBlock_counted he h
  | inode => exact allocInode_counted he h

theorem AllocCounted.counted {num : Nat} (ha : AllocCounted e k s num t) (h : Counted e s) :
    Counted e t := by
  rcases ha with ⟨-, -, c, f, rfl⟩ | ⟨-, hf, hflip⟩
  · exact h.same c f
  · exact h.take hf hflip

/-- **What a release of a number that an allocator has returned does.** -/
def ReleaseCounted (e : Env) (k : Kind) (s : State) (num : Nat) (t : State) : Prop :=
  (∃ c, t = s.at c) ∨ (s.bit e k (k.bitOf num) = true ∧
    Flip e k (k.bitOf num) false
      (u16 (k.free (s.desc e (k.bitOf num / k.perGroup s.super)) + 1))
      (u32 (k.superFree s.super + 1)) (fun _ => False) s t)

theorem release_counted (he : e.Reliable) (h : Counted e s) {num : Nat} (hd : Data e s k num) :
    Ends (release e k num) s (fun _ => False) fun _ t => ReleaseCounted e k s num t := by
  have hrel : release e k num = freeBit k e (k.bitOf num) := by
    cases k with
    | block => rw [release, freeBlock, if_neg hd.pos]; rfl
    | inode => rw [release, freeInode, if_neg hd.pos]; rfl
  rw [hrel]
  refine ((freeBit_ends he h.roles hd.group).mono ?_).mono_error ?_
  · rintro _ t ⟨-, ⟨-, hc⟩ | hflip⟩
    · exact .inl hc
    · exact .inr hflip
  · rintro f ⟨-, hfit⟩
    exact hfit (h.fits hd.group)

theorem ReleaseCounted.counted {num : Nat} (hr : ReleaseCounted e k s num t) (h : Counted e s)
    (hd : Data e s k num) : Counted e t := by
  rcases hr with ⟨c, rfl⟩ | ⟨hbit, hflip⟩
  · exact h.same c s.noSpace
  · refine h.release hd.group hd.lowest hbit ?_ ?_ hflip
    · rintro rfl
      exact hd.notMeta rfl
    · rintro rfl
      have := hd.notReserved rfl
      have hpos := hd.pos
      show firstIno ≤ num - 1 + 1
      omega

/-! ## Sequences of calls -/

theorem Live.mem {h : List Call} {num : Nat} (hl : Live h k num) : .alloc k num ∈ h := by
  obtain ⟨before, after, heq, -⟩ := hl
  rw [heq]
  exact List.mem_append_right _ List.mem_cons_self

theorem Live.of_alloc {h : List Call} {k' : Kind} {num num' : Nat}
    (hl : Live (h ++ [.alloc k' num']) k num) : (k = k' ∧ num = num') ∨ Live h k num := by
  obtain ⟨before, after, heq, hnot⟩ := hl
  rcases List.eq_nil_or_concat after with rfl | ⟨after', c, rfl⟩
  · have hlast := List.append_inj_right' heq rfl
    injection hlast with hlast
    injection hlast with hk hnum
    exact .inl ⟨hk.symm, hnum.symm⟩
  · rw [List.concat_eq_append] at heq hnot
    rw [← List.cons_append, ← List.append_assoc] at heq
    have hinit := List.append_inj_left' heq rfl
    exact .inr ⟨before, after', hinit, fun hmem => hnot (List.mem_append_left _ hmem)⟩

theorem Live.of_release {h : List Call} {k' : Kind} {num num' : Nat}
    (hl : Live (h ++ [.release k' num']) k num) : ¬ (k = k' ∧ num = num') ∧ Live h k num := by
  obtain ⟨before, after, heq, hnot⟩ := hl
  rcases List.eq_nil_or_concat after with rfl | ⟨after', c, rfl⟩
  · have hlast := List.append_inj_right' heq rfl
    injection hlast with hlast
    cases hlast
  · rw [List.concat_eq_append] at heq hnot
    rw [← List.cons_append, ← List.append_assoc] at heq
    have hinit := List.append_inj_left' heq rfl
    have hlast := List.append_inj_right' heq rfl
    refine ⟨?_, before, after', hinit, fun hmem => hnot (List.mem_append_left _ hmem)⟩
    rintro ⟨rfl, rfl⟩
    exact hnot (List.mem_append_right _ (hlast ▸ List.mem_singleton.mpr rfl))

theorem Kind.bitOf_inj {num num' : Nat} (h : num ≠ 0) (h' : num' ≠ 0)
    (heq : k.bitOf num = k.bitOf num') : num = num' := by
  cases k with
  | block => exact heq
  | inode =>
      have heq : num - 1 = num' - 1 := heq
      omega

/-- What holds after a sequence of calls: the counts are right, the numbers handed out are data,
and the bits of the live ones are set. -/
structure Sound (e : Env) (p : List Call × State) : Prop where
  counted : Counted e p.2
  data {k : Kind} {num : Nat} : num ≠ 0 → .alloc k num ∈ p.1 → Data e p.2 k num
  live {k : Kind} {num : Nat} : num ≠ 0 → Live p.1 k num → p.2.bit e k (k.bitOf num) = true

theorem Data.of_layout {num : Nat} (hd : Data e s k num) (h : SameLayout e s t) :
    Data e t k num where
  pos := hd.pos
  group := by
    rw [h.perGroup, h.groups]
    exact hd.group
  lowest := by
    rw [h.lowest]
    exact hd.lowest
  notMeta hk hx := hd.notMeta hk (h.meta_of hx)
  notReserved := hd.notReserved

theorem Data.flip {num : Nat} {k' : Kind} (hd : Data e s k' num) (hf : Flip e k n v a b C s t) :
    Data e t k' num := hd.of_layout hf.layout

theorem Sound.alloc {h : List Call} {num : Nat} (hs : Sound e (h, s))
    (ha : AllocCounted e k s num t) : Sound e (h ++ [.alloc k num], t) := by
  refine ⟨ha.counted hs.counted, fun {k' num'} hpos hmem => ?_, fun {k' num'} hpos hlive => ?_⟩
  · rw [List.mem_append, List.mem_singleton] at hmem
    rcases ha with ⟨rfl, -, c, f, rfl⟩ | ⟨hd, -, hflip⟩
    · rcases hmem with hmem | hmem
      · have hold := hs.data hpos hmem
        exact ⟨hold.pos, hold.group, hold.lowest, fun hk hx => hold.notMeta hk hx.of_same,
          hold.notReserved⟩
      · injection hmem with _ hnum
        exact absurd hnum hpos
    · rcases hmem with hmem | hmem
      · exact (hs.data hpos hmem).flip hflip
      · injection hmem with hk hnum
        rw [hk, hnum]
        exact hd.flip hflip
  · rcases ha with ⟨rfl, -, c, f, rfl⟩ | ⟨hd, -, hflip⟩
    · rcases hlive.of_alloc with ⟨-, hnum⟩ | hlive
      · exact absurd hnum hpos
      · exact hs.live hpos hlive
    · rcases hlive.of_alloc with ⟨rfl, rfl⟩ | hlive
      · rw [hflip.bit hd.group, if_pos ⟨rfl, rfl⟩]
      · rw [hflip.bit (hs.data hpos hlive.mem).group]
        split
        · rfl
        · exact hs.live hpos hlive

theorem Sound.release {h : List Call} {num : Nat} (hs : Sound e (h, s)) (hd : Data e s k num)
    (hr : ReleaseCounted e k s num t) : Sound e (h ++ [.release k num], t) := by
  refine ⟨hr.counted hs.counted hd, fun {k' num'} hpos hmem => ?_, fun {k' num'} hpos hlive => ?_⟩
  · have hmem : .alloc k' num' ∈ h := by
      rw [List.mem_append, List.mem_singleton] at hmem
      rcases hmem with hmem | hmem
      · exact hmem
      · cases hmem
    have hold := hs.data hpos hmem
    rcases hr with ⟨c, rfl⟩ | ⟨-, hflip⟩
    · exact ⟨hold.pos, hold.group, hold.lowest, fun hk hx => hold.notMeta hk
        (Meta.of_same (f := s.noSpace) hx), hold.notReserved⟩
    · exact hold.flip hflip
  · obtain ⟨hne, hbefore⟩ := hlive.of_release
    have hold : s.bit e k' (k'.bitOf num') = true := hs.live hpos hbefore
    rcases hr with ⟨c, rfl⟩ | ⟨-, hflip⟩
    · exact hold
    · rw [hflip.bit (hs.data hpos hbefore.mem).group, if_neg, hold]
      rintro ⟨rfl, hbit⟩
      exact hne ⟨rfl, Kind.bitOf_inj hpos hd.pos hbit⟩

theorem Sound.step (he : e.Reliable) {p q : List Call × State} {c : Call} (hs : Sound e p)
    (h : Step e p c q) : Sound e q := by
  cases h with
  | alloc hcall => exact hs.alloc ((alloc_counted he hs.counted _).of_result hcall)
  | release hpos hmem hcall =>
      have hd := hs.data hpos hmem
      exact hs.release hd ((release_counted he hs.counted hd).of_result hcall)

theorem Counted.sound (h : Counted e s) : Sound e ([], s) :=
  ⟨h, fun _ hmem => absurd hmem List.not_mem_nil, fun _ hlive => absurd hlive.mem List.not_mem_nil⟩

/-- The counts of the small volume are right. -/
theorem counted_small : Counted (Env.ideal 0) (Small.volume 0 0xFF) where
  consistent := ⟨Small.roles_volume Nat.two_pos, fun hx hf => by
    have hlt := Small.meta_volume Nat.two_pos hx
    have hclear := hf.clear
    rw [Small.bit_volume Nat.two_pos (by omega)] at hclear
    cases hclear⟩
  reserved {n} hn hf := by
    have hbit : ∀ n < 10, (Small.volume 0 0xFF).bit (Env.ideal 0) .inode n = true := by
      decide
    have hclear := hf.clear
    rw [hbit n (by rw [firstIno] at hn; omega)] at hclear
    cases hclear
  fits {k g} hg := by
    rw [Small.groups_volume Nat.two_pos, Nat.lt_one_iff] at hg
    subst hg
    decide
  perGroup_lt k := by
    rw [Small.perGroup_volume Nat.two_pos]
    decide
  numbers_le k := by
    cases k <;> decide
  inGroup {k g} hg := by
    rw [Small.groups_volume Nat.two_pos, Nat.lt_one_iff] at hg
    subst hg
    cases k <;> decide
  onVolume k := by
    cases k <;> decide

namespace Small

theorem store_of_lt {m : Bytes} {l : List (Nat × Nat × Nat)} {i : Nat} (h : ∀ p ∈ l, i < p.1) :
    store m l i = m i := by
  induction l generalizing m with
  | nil => rfl
  | cons p l ih =>
      rw [store, ih fun q hq => h q (List.mem_cons_of_mem _ hq)]
      exact setLE_of_not_mem (.inl (h p List.mem_cons_self))

/-- What is stored behind the block numbers in the descriptor leaves the metadata in its place. -/
theorem sameLayout_store {t : State} {l : List (Nat × Nat × Nat)}
    (hgeo : (super 0).SameGeometry t.super) (hdisk : t.disk = store (volume 0 0xFF).disk l)
    (h : ∀ p ∈ l, 2060 ≤ p.1) : SameLayout (Env.ideal 0) (volume 0 0xFF) t := by
  have horigin : (volume 0 0xFF).origin (Env.ideal 0) gdBlock = 2048 := by
    rw [State.origin, blockSize_volume Nat.two_pos]
    rfl
  have hsize : t.super.blockSize = (volume 0 0xFF).super.blockSize := hgeo.blockSize
  have horigin' : t.origin (Env.ideal 0) gdBlock = 2048 :=
    (State.origin_congr hsize gdBlock).trans horigin
  have hdesc : ∀ i, i < 12 → (t.desc (Env.ideal 0) 0).bytes i =
      ((volume 0 0xFF).desc (Env.ideal 0) 0).bytes i := by
    intro i hi
    rw [State.desc, State.desc, horigin, horigin', hdisk]
    exact store_of_lt fun p hp => Nat.lt_of_lt_of_le (by omega) (h p hp)
  refine ⟨hgeo, fun {k k' g} hg => ?_, fun {k g} hg => ?_⟩
  · rw [groups_volume Nat.two_pos, Nat.lt_one_iff] at hg
    subst hg
    cases k' with
    | block => exact getLE_congr fun i _ hi => hdesc i (by omega)
    | inode => exact getLE_congr fun i _ hi => hdesc i (by omega)
  · rw [groups_volume Nat.two_pos, Nat.lt_one_iff] at hg
    subst hg
    exact getLE_congr fun i _ hi => hdesc i (by omega)

/-- What is stored behind the bitmaps of the small volume does not matter to the allocators. -/
theorem sameBits_store {l : List (Nat × Nat × Nat)} (h : ∀ p ∈ l, 5120 ≤ p.1) :
    SameBits (Env.ideal 0) (volume 0 0xFF)
      ((volume 0 0xFF).put (store (volume 0 0xFF).disk l)) := by
  have hdisk : ∀ i, i < 5120 →
      store (volume 0 0xFF).disk l i = (volume 0 0xFF).disk i := fun i hi =>
    store_of_lt fun p hp => Nat.lt_of_lt_of_le hi (h p hp)
  have horigin : ∀ x, (volume 0 0xFF).origin (Env.ideal 0) x = x * 1024 := by
    intro x
    rw [State.origin, blockSize_volume Nat.two_pos]
    exact Nat.zero_add _
  have hdesc : ∀ {k g}, g < (volume 0 0xFF).groups k → ((volume 0 0xFF).desc (Env.ideal 0) g).Same
      (((volume 0 0xFF).put (store (volume 0 0xFF).disk l)).desc (Env.ideal 0) g) := by
    intro k g hg
    rw [groups_volume Nat.two_pos, Nat.lt_one_iff] at hg
    refine GroupDesc.same_of_bytes fun i hi => hdisk _ ?_
    have hsize : GroupDesc.size = 32 := rfl
    show (volume 0 0xFF).origin (Env.ideal 0) gdBlock + GroupDesc.size * g + i < 5120
    rw [horigin, hg, gdBlock]
    omega
  refine .of_desc rfl hdesc fun {k n} hn => ?_
  have hmod : n % k.perGroup (volume 0 0xFF).super < 16 := by
    rw [perGroup_volume Nat.two_pos]
    exact Nat.mod_lt n (by decide)
  have hmap := k.bitmap_congr (hdesc hn)
  rw [groups_volume Nat.two_pos, Nat.lt_one_iff] at hn
  have hblock :
    (volume 0 0xFF).bitmapBlock (Env.ideal 0) k (n / k.perGroup (volume 0 0xFF).super) < 5 := by
    rw [hn, bitmapBlock_volume Nat.two_pos]
    cases k <;> decide
  rw [State.bit, State.bit]
  refine (congrArg (fun x => Bitmap.used (State.block _ _ x) _) hmap).trans (Bitmap.used_congr ?_)
  refine hdisk _ ?_
  show (volume 0 0xFF).origin (Env.ideal 0) _ + _ < 5120
  rw [horigin]
  show (volume 0 0xFF).bitmapBlock (Env.ideal 0) k (n / k.perGroup (volume 0 0xFF).super) * 1024 +
    n % k.perGroup (volume 0 0xFF).super / 8 < 5120
  omega

end Small

end InfoKernel.Ext2
