import InfoKernel.Fs.Allocation

/-!
# A small volume

One group of 16 blocks, on a device and in a memory that do not fail.  Its superblock is given byte
by byte, so that what the modules behind prove of all volumes can be run on it.
-/

namespace InfoKernel.Ext2

open Lib

/-- A device and a memory that do not fail, and a partition that starts at `lba`. -/
def Env.ideal (lba : Nat) : Env where
  lba := lba
  readFails := fun _ => false
  writeFails := fun _ => false
  allocFails := fun _ => false
  behind := fun _ => 0
  mapped := fun _ => false

theorem Env.ideal_reliable (lba : Nat) : (Env.ideal lba).Reliable :=
  ⟨fun _ => rfl, fun _ => rfl, fun _ => rfl⟩

/-- A device that does not fail, and a memory without a free page at the time `t`. -/
def Env.outOfPages (t : Nat) : Env := { Env.ideal 0 with allocFails := fun u => u = t }

namespace Small

/-- Numbers in the memory, each with its address and its size. -/
def store (m : Bytes) : List (Nat × Nat × Nat) → Bytes
  | [] => m
  | (a, n, v) :: rest => store (setLE m a n v) rest

/-- One group of 16 blocks of 1 KiB and of 16 inodes, with 8 free blocks and 6 free inodes. -/
def super (first : Nat) : SuperBlock :=
  ⟨store (fun _ => 0) [(0, 4, 16), (4, 4, 16), (12, 4, 8), (16, 4, 6), (20, 4, first), (32, 4, 16),
    (40, 4, 16), (56, 2, 0xEF53), (88, 2, 128)]⟩

/-- The superblock is in block 1, the descriptor in block 2, the bitmaps are blocks 3 and 4, the
inode table is in the blocks 5 and 6.  `used` are the bits set in the block bitmap. -/
def volume (first used : Nat) : State where
  disk := store (copyIn (fun _ => 0) 1024 1024 (super first).bytes) [(2048, 4, 3), (2052, 4, 4),
    (2056, 4, 5), (2060, 2, 8), (2062, 2, 6), (3072, 2, used), (4096, 2, 0x3FF)]
  super := super first
  clock := 0
  noSpace := false

section Facts

variable {first : Nat} (h : first < 2)

include h

theorem blockSize_volume : (volume first 0xFF).super.blockSize = 1024 := by
  revert first
  decide

theorem perGroup_volume (k : Kind) : k.perGroup (volume first 0xFF).super = 16 := by
  revert first
  cases k <;> decide

theorem groups_volume (k : Kind) : (volume first 0xFF).groups k = 1 := by
  revert first
  cases k <;> decide

theorem bitmapBlock_volume (k : Kind) : (volume first 0xFF).bitmapBlock (Env.ideal 0) k 0 =
    match k with
    | .block => 3
    | .inode => 4 := by
  revert first
  cases k <;> decide

theorem inodeTable_volume : ((volume first 0xFF).desc (Env.ideal 0) 0).bgInodeTable = 5 ∧
    (volume first 0xFF).super.sInodeSize = 128 ∧
      (volume first 0xFF).super.sFirstDataBlock = first := by
  revert first
  decide

theorem bit_volume {n : Nat} (hn : n < 8) :
    (volume first 0xFF).bit (Env.ideal 0) .block n = true := by
  revert first n
  decide

theorem roles_volume : Roles (Env.ideal 0) (volume first 0xFF) where
  size_pos := by
    rw [blockSize_volume h]
    decide
  per_pos k := by
    rw [perGroup_volume h]
    decide
  per_le k := by
    rw [perGroup_volume h, blockSize_volume h]
    decide
  bitmap_inj {k k' g g'} hg hg' heq := by
    rw [groups_volume h, Nat.lt_one_iff] at hg hg'
    subst hg hg'
    rw [bitmapBlock_volume h, bitmapBlock_volume h] at heq
    cases k <;> cases k' <;> first
      | exact ⟨rfl, rfl⟩
      | exact absurd heq (by decide)
  bitmap_ne_desc {k k' g g'} hg hg' := by
    rw [groups_volume h, Nat.lt_one_iff] at hg hg'
    subst hg hg'
    rw [bitmapBlock_volume h, State.descBlock, Nat.mul_zero, Nat.zero_div]
    cases k <;> decide
  super_lt_bitmap {k g} hg := by
    rw [groups_volume h, Nat.lt_one_iff] at hg
    subst hg
    rw [bitmapBlock_volume h, State.superBlock, blockSize_volume h]
    cases k <;> decide
  walled _ _ := rfl

/-- The metadata of the small volume lies in its first seven blocks. -/
theorem meta_volume {x : Nat} (hx : Meta (Env.ideal 0) (volume first 0xFF) x) : x < 7 := by
  cases hx with
  | super hx =>
      rw [State.superBlock, blockSize_volume h] at hx
      omega
  | @desc k g hg =>
      rw [groups_volume h, Nat.lt_one_iff] at hg
      rw [hg, State.descBlock, Nat.mul_zero, Nat.zero_div]
      decide
  | @bitmap k g hg =>
      rw [groups_volume h, Nat.lt_one_iff] at hg
      rw [hg, bitmapBlock_volume h]
      cases k <;> decide
  | @table g i hg hi =>
      rw [groups_volume h, Nat.lt_one_iff] at hg
      have hper : (volume first 0xFF).super.sInodesPerGroup = 16 := perGroup_volume h .inode
      rw [hper] at hi
      rw [hg, (inodeTable_volume h).1, (inodeTable_volume h).2.1, blockSize_volume h, u32]
      omega

end Facts

end Small

end InfoKernel.Ext2
