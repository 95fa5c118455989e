import InfoKernel.Fs.Room
import InfoKernel.Fs.Walls

/-!
# The numbering of blocks

In the format, bit `i` of the block bitmap of group `g` stands for block
`s_first_data_block + g * s_blocks_per_group + i`.  `AllocBlock` returns, and `FreeBlock` takes,
the number `g * s_blocks_per_group + i`.  So the two can be right about a volume that is consistent
under the numbering of the format only when its first data block is block 0; with 1 KiB blocks the
first data block is block 1, and every block that is handed out is the neighbour of the one whose
bit is set.

With block 0 as the first data block they are right as long as they read no descriptor from behind
the block of descriptors (`allocation_right_iff`).
-/

namespace InfoKernel.Ext2

open Lib

/-- The volume has block `x`, by the numbering of the format. -/
def State.Numbers (s : State) (x : Nat) : Prop :=
  s.super.sFirstDataBlock ≤ x ∧
    (x - s.super.sFirstDataBlock) / s.super.sBlocksPerGroup < s.groups .block

instance (s : State) (x : Nat) : Decidable (s.Numbers x) :=
  inferInstanceAs (Decidable (_ ∧ _))

/-- The bit that stands for block `x` is set, by the numbering of the format. -/
def InUse (e : Env) (s : State) (x : Nat) : Prop :=
  s.Numbers x ∧ s.bit e .block (x - s.super.sFirstDataBlock) = true

/-- A volume that is consistent under the numbering of the format. -/
structure Numbered (e : Env) (s : State) : Prop where
  roles : Roles e s
  meta_used {x : Nat} : Meta e s x → s.Numbers x → InUse e s x

/-- `AllocBlock` returns, and the block that it returns was free and is the one whose bit has been
set. -/
def AllocRight (e : Env) (s : State) : Prop :=
  ∃ b t, allocBlock e s = .ok (b, t) ∧ (b ≠ 0 → s.Numbers b ∧ ¬ InUse e s b ∧
    ∀ x, InUse e t x ↔ InUse e s x ∨ x = b)

/-- `FreeBlock` clears the bit of its block and of no other. -/
def FreeRight (e : Env) (s : State) (b : Nat) : Prop :=
  ∃ t, freeBlock e b s = .ok (⟨⟩, t) ∧ ∀ x, InUse e t x ↔ InUse e s x ∧ x ≠ b

variable {e : Env} {s t : State}

theorem Numbered.meta_not_free (hs : Numbered e s) (hfirst : s.super.sFirstDataBlock = 0) {x : Nat}
    (hx : Meta e s x) : ¬ Free e s .block x := by
  intro hf
  have hgroup : x / s.super.sBlocksPerGroup < s.groups .block := hf.group
  have hnum : s.Numbers x := ⟨by omega, by rw [hfirst]; exact hgroup⟩
  have hbit := (hs.meta_used hx hnum).2
  rw [hfirst, Nat.sub_zero, hf.clear] at hbit
  cases hbit

/-- Which blocks are in use after one bit has changed. -/
theorem inUse_flip {n a b : Nat} {v : Bool} {C : Nat → Prop} (h : Flip e .block n v a b C s t)
    (x : Nat) : InUse e t x ↔ s.Numbers x ∧
      (if x - s.super.sFirstDataBlock = n then v
        else s.bit e .block (x - s.super.sFirstDataBlock)) = true := by
  have hnum : t.Numbers x ↔ s.Numbers x := by
    rw [State.Numbers, State.Numbers, h.layout.geometry.firstDataBlock,
      h.layout.geometry.blocksPerGroup,
      h.layout.groups]
  rw [InUse, hnum, h.layout.geometry.firstDataBlock]
  refine and_congr_right fun hx => ?_
  rw [h.bit hx.2]
  simp

/-- What a kernel does without memory behind its buffers, it does with it. -/
theorem AllocRight.of_walled (h : AllocRight e.walled s) : AllocRight e s := by
  obtain ⟨b, t, hrun, hright⟩ := h
  exact ⟨b, t, below_allocBlock hrun, hright⟩

theorem FreeRight.of_walled {b : Nat} (h : FreeRight e.walled s b) : FreeRight e s b := by
  obtain ⟨t, hrun, hright⟩ := h
  exact ⟨t, below_freeBlock b hrun, hright⟩

/-- The search comes to no descriptor behind the block. -/
theorem AllocRight.near (he : e.Reliable) (hs : Numbered e s)
    (hfirst : s.super.sFirstDataBlock = 0) (h : AllocRight e s) :
    s.SearchFits .block ∨ 0 < s.room e .block := by
  obtain ⟨b, t, hrun, -⟩ := h
  have hends := allocBlock_room he hs.roles fun x hx => hs.meta_not_free hfirst hx
  rcases hends.of_result hrun with ⟨-, hno, -⟩ | ⟨-, hroom⟩
  · exact .inl hno.searchFits
  · exact .inr (by omega)

theorem allocRight_of_first (he : e.Reliable) (hs : Numbered e s)
    (hfirst : s.super.sFirstDataBlock = 0) (hnear : s.SearchFits .block ∨ 0 < s.room e .block) :
    AllocRight e s := by
  have hends : Ends (allocBlock e) s (fun _ => False) _ :=
    (allocBlock_room he hs.roles fun x hx => hs.meta_not_free hfirst hx).mono_error
      fun _ ⟨hroom, hfits⟩ => hnear.elim hfits fun hpos => by omega
  obtain ⟨b, t, hrun, hb⟩ := hends.exists_ok
  refine ⟨b, t, hrun, fun hne => ?_⟩
  rcases hb with ⟨h0, -⟩ | ⟨hnew, -⟩
  · exact absurd h0 hne
  · have hgroup : b / s.super.sBlocksPerGroup < s.groups .block := hnew.free.group
    have hnum : s.Numbers b := ⟨by omega, by rw [hfirst]; exact hgroup⟩
    refine ⟨hnum, fun hin => ?_, fun x => ?_⟩
    · have hbit := hin.2
      rw [hfirst, Nat.sub_zero, hnew.free.clear] at hbit
      cases hbit
    · rw [inUse_flip hnew.flip, InUse, hfirst, Nat.sub_zero]
      by_cases hx : x = b
      · simp [hx, hnum]
      · simp [hx]

theorem freeRight_of_first (he : e.Reliable) (hs : Numbered e s)
    (hfirst : s.super.sFirstDataBlock = 0) {b : Nat} (hb : b ≠ 0) (hin : InUse e s b)
    (hfit : s.Fits (b / s.super.sBlocksPerGroup)) : FreeRight e s b := by
  have hgroup : b / s.super.sBlocksPerGroup < s.groups .block := by
    have h := hin.1.2
    rwa [hfirst, Nat.sub_zero] at h
  have hends : Ends (freeBit .block e b) s (fun _ => False) _ :=
    (freeBit_ends (k := .block) he hs.roles hgroup).mono_error fun f hf => hf.2 hfit
  obtain ⟨u, t, hrun, -, hclear | ⟨-, hflip⟩⟩ := hends.exists_ok
  · have hbit := hin.2
    rw [hfirst, Nat.sub_zero, hclear.1] at hbit
    cases hbit
  · refine ⟨t, ?_, fun x => ?_⟩
    · rw [freeBlock, if_neg hb]
      exact hrun
    · rw [inUse_flip hflip, InUse, hfirst, Nat.sub_zero]
      by_cases hx : x = b
      · simp [hx]
      · simp [hx]

/-- With another first data block `FreeBlock` leaves the bit of its block alone. -/
theorem not_freeRight (he : e.Reliable) (hs : Numbered e s)
    (hfirst : s.super.sFirstDataBlock ≠ 0) {b : Nat} (hb : b ≠ 0) (hin : InUse e s b)
    (hlt : b < s.super.sBlocksCount) : ¬ FreeRight e s b := by
  rintro ⟨t, hrun, hright⟩
  have hpos : 0 < s.super.sBlocksPerGroup := hs.roles.per_pos .block
  have hgroup : b / s.super.sBlocksPerGroup < s.groups .block := by
    show b / s.super.sBlocksPerGroup <
      (s.super.sBlocksCount + (s.super.sBlocksPerGroup - 1)) / s.super.sBlocksPerGroup
    rw [Nat.lt_div_iff_mul_lt hpos]
    have h := Nat.div_mul_le_self b s.super.sBlocksPerGroup
    omega
  rw [freeBlock, if_neg hb] at hrun
  have hends := freeBit_ends (k := .block) he hs.roles hgroup
  have hused : InUse e t b := by
    rcases (hends.of_result hrun).2 with ⟨-, c, rfl⟩ | ⟨-, hflip⟩
    · exact hin
    · have hne : b - s.super.sFirstDataBlock ≠ b := by
        have h := hin.1.1
        omega
      rw [inUse_flip hflip, if_neg hne]
      exact hin
  exact ((hright b).mp hused).2 rfl

/-- `FreeBlock` does nothing with block 0. -/
theorem not_freeRight_zero (hin : InUse e s 0) : ¬ FreeRight e s 0 := by
  rintro ⟨t, hrun, hright⟩
  have hsame : t = s := by
    injection hrun with h
    injection h with _ h
    exact h.symm
  rw [hsame] at hright
  exact ((hright 0).mp hin).2 rfl

/-- **When the allocator and the format mean the same block.**  Take a volume that is consistent
under the numbering of the format, and a block `b` of it in use.  Whatever memory there is behind
the buffers, `AllocBlock` hands out a free block and sets its bit, and `FreeBlock` clears the bit of
`b` and no other, exactly when the first data block is block 0, `b` is another block, and the
descriptors of the group of `b` and of all groups that the search comes to lie in the block that
descriptors are read from. -/
theorem allocation_right_iff (he : e.Reliable) (hs : Numbered e.walled s) {b : Nat}
    (hlt : b < s.super.sBlocksCount) (hin : InUse e.walled s b) :
    (∀ mapped, AllocRight (e.over mapped) s ∧ FreeRight (e.over mapped) s b) ↔
      s.super.sFirstDataBlock = 0 ∧ b ≠ 0 ∧ s.Fits (b / s.super.sBlocksPerGroup) ∧
        (s.SearchFits .block ∨ 0 < s.room e.walled .block) := by
  constructor
  · intro h
    obtain ⟨halloc, hfree⟩ : AllocRight e.walled s ∧ FreeRight e.walled s b := h _
    have hb : b ≠ 0 := by
      rintro rfl
      exact not_freeRight_zero hin hfree
    have hfirst : s.super.sFirstDataBlock = 0 := by
      by_contra h
      exact not_freeRight he.walled hs h hb hin hlt hfree
    obtain ⟨t, hrun, -⟩ := hfree
    have hgroup : b / s.super.sBlocksPerGroup < s.groups .block := by
      have h := hin.1.2
      rwa [hfirst, Nat.sub_zero] at h
    rw [freeBlock, if_neg hb] at hrun
    have hends := freeBit_ends (k := .block) he.walled hs.roles hgroup
    exact ⟨hfirst, hb, (hends.of_result hrun).1, halloc.near he.walled hs hfirst⟩
  · rintro ⟨hfirst, hb, hfit, hnear⟩ mapped
    exact ⟨.of_walled (allocRight_of_first he.walled hs hfirst hnear),
      .of_walled (freeRight_of_first he.walled hs hfirst hb hin hfit)⟩

/-- Eight blocks of the small volume are in use, counted from its first data block. -/
theorem numbered_small {first : Nat} (h : first < 2) :
    Numbered (Env.ideal 0) (Small.volume first 0xFF) where
  roles := Small.roles_volume h
  meta_used {x} hx hnum := by
    have hlt := Small.meta_volume h hx
    exact ⟨hnum, Small.bit_volume h (by omega)⟩

/-- With 1 KiB blocks, where the first data block is block 1, `AllocBlock` hands out a block
that is in use. -/
theorem allocBlock_hands_out_block_in_use :
    (Env.ideal 0).Reliable ∧ Numbered (Env.ideal 0) (Small.volume 1 0xFF) ∧
      (Small.volume 1 0xFF).super.sFirstDataBlock = 1 ∧
      (Small.volume 1 0xFF).super.blockSize = 1024 ∧
      InUse (Env.ideal 0) (Small.volume 1 0xFF) 8 ∧
      ∃ t, allocBlock (Env.ideal 0) (Small.volume 1 0xFF) = .ok (8, t) := by
  have hin : InUse (Env.ideal 0) (Small.volume 1 0xFF) 8 := ⟨by decide, by decide⟩
  have hret : (allocBlock (Env.ideal 0) (Small.volume 1 0xFF)).map Prod.fst = .ok 8 := by
    decide +kernel
  refine ⟨Env.ideal_reliable 0, numbered_small (by decide), by decide, by decide, hin, ?_⟩
  cases hrun : allocBlock (Env.ideal 0) (Small.volume 1 0xFF) with
  | error f =>
      rw [hrun] at hret
      cases hret
  | ok r =>
      obtain ⟨b, t⟩ := r
      rw [hrun] at hret
      injection hret with hb
      exact ⟨t, by rw [show b = 8 from hb]⟩

/-- On the same disk with block 0 as the first data block both calls are right, whatever memory
there is behind the buffers. -/
theorem allocation_right_small : 3 < (Small.volume 0 0xFF).super.sBlocksCount ∧
    ∀ mapped, AllocRight ((Env.ideal 0).over mapped) (Small.volume 0 0xFF) ∧
      FreeRight ((Env.ideal 0).over mapped) (Small.volume 0 0xFF) 3 := by
  have hin : InUse (Env.ideal 0) (Small.volume 0 0xFF) 3 := ⟨by decide, by decide⟩
  have hlt : 3 < (Small.volume 0 0xFF).super.sBlocksCount := by decide
  refine ⟨hlt, (allocation_right_iff (Env.ideal_reliable 0) (numbered_small (by decide)) hlt
    hin).mpr ⟨by decide, by decide, by decide, .inl fun g hg => ?_⟩⟩
  have hle := Nat.lt_of_lt_of_le hg (State.searched_le (k := .block) (by decide))
  rw [Small.groups_volume Nat.two_pos, Nat.lt_one_iff] at hle
  subst hle
  decide

end InfoKernel.Ext2
