import InfoKernel.Fs.Device
import InfoKernel.Lib.Bitmap
import InfoKernel.Lib.Bytes

/-!
# The records on the disk

`Ext2SuperBlock`, `Ext2GroupDesc`, `Ext2Inode` and `Ext2DirEntry` are packed structures that
the source lays over bytes read from the device.  They are bytes here as well, and a field is
a number read at the offset that the packed layout gives it; the fields that no modelled
function uses are left out.

What is proved is that setting a field changes that field and no other.
-/

namespace InfoKernel.Ext2

open Lib

/-- `(a + b - 1) / b`, in 32 bits. -/
def ceilDiv (a b : Nat) : Nat := sub32 (u32 (a + b)) 1 / b

/-! ## `Ext2SuperBlock` -/

namespace SuperBlock

/-- `sizeof(Ext2SuperBlock)` -/
def size : Nat := 1024

/-- `EXT2_SUPER_MAGIC` -/
def magic : Nat := 0xEF53

/-- `s_inodes_count` -/
def sInodesCount (sb : SuperBlock) : Nat := getLE sb.bytes 0 4

/-- `s_blocks_count` -/
def sBlocksCount (sb : SuperBlock) : Nat := getLE sb.bytes 4 4

/-- `s_free_blocks_count` -/
def sFreeBlocksCount (sb : SuperBlock) : Nat := getLE sb.bytes 12 4

/-- `s_free_inodes_count` -/
def sFreeInodesCount (sb : SuperBlock) : Nat := getLE sb.bytes 16 4

/-- `s_first_data_block` -/
def sFirstDataBlock (sb : SuperBlock) : Nat := getLE sb.bytes 20 4

/-- `s_log_block_size` -/
def sLogBlockSize (sb : SuperBlock) : Nat := getLE sb.bytes 24 4

/-- `s_blocks_per_group` -/
def sBlocksPerGroup (sb : SuperBlock) : Nat := getLE sb.bytes 32 4

/-- `s_inodes_per_group` -/
def sInodesPerGroup (sb : SuperBlock) : Nat := getLE sb.bytes 40 4

/-- `s_magic` -/
def sMagic (sb : SuperBlock) : Nat := getLE sb.bytes 56 2

/-- `s_inode_size` -/
def sInodeSize (sb : SuperBlock) : Nat := getLE sb.bytes 88 2

/-- Assign `s_free_blocks_count`. -/
def setFreeBlocksCount (sb : SuperBlock) (n : Nat) : SuperBlock := ⟨setLE sb.bytes 12 4 n⟩

/-- Assign `s_free_inodes_count`. -/
def setFreeInodesCount (sb : SuperBlock) (n : Nat) : SuperBlock := ⟨setLE sb.bytes 16 4 n⟩

/-- `1024 << sb->s_log_block_size` -/
def blockSize (sb : SuperBlock) : Nat := u32 (1024 * 2 ^ sb.sLogBlockSize)

/-- `ptrs_per_block` -/
def ptrsPerBlock (sb : SuperBlock) : Nat := sb.blockSize / 4

end SuperBlock

/-! ## `Ext2GroupDesc` -/

/-- `Ext2GroupDesc`, byte by byte. -/
structure GroupDesc where
  bytes : Bytes

namespace GroupDesc

/-- `sizeof(Ext2GroupDesc)` -/
def size : Nat := 32

/-- `bg_block_bitmap` -/
def bgBlockBitmap (gd : GroupDesc) : Nat := getLE gd.bytes 0 4

/-- `bg_inode_bitmap` -/
def bgInodeBitmap (gd : GroupDesc) : Nat := getLE gd.bytes 4 4

/-- `bg_inode_table` -/
def bgInodeTable (gd : GroupDesc) : Nat := getLE gd.bytes 8 4

/-- `bg_free_blocks_count` -/
def bgFreeBlocksCount (gd : GroupDesc) : Nat := getLE gd.bytes 12 2

/-- `bg_free_inodes_count` -/
def bgFreeInodesCount (gd : GroupDesc) : Nat := getLE gd.bytes 14 2

/-- Assign `bg_free_blocks_count`. -/
def setFreeBlocksCount (gd : GroupDesc) (n : Nat) : GroupDesc := ⟨setLE gd.bytes 12 2 n⟩

/-- Assign `bg_free_inodes_count`. -/
def setFreeInodesCount (gd : GroupDesc) (n : Nat) : GroupDesc := ⟨setLE gd.bytes 14 2 n⟩

end GroupDesc

/-! ## `Ext2Inode` -/

/-- `Ext2Inode`, byte by byte. -/
structure Inode where
  bytes : Bytes

namespace Inode

/-- `sizeof(Ext2Inode)` -/
def size : Nat := 128

/-- `EXT2_S_IFDIR` -/
def sIfdir : Nat := 0x4000

/-- `i_mode` -/
def iMode (n : Inode) : Nat := getLE n.bytes 0 2

/-- `i_size` -/
def iSize (n : Inode) : Nat := getLE n.bytes 4 4

/-- `i_block[k]` -/
def iBlock (n : Inode) (k : Nat) : Nat := getLE n.bytes (40 + 4 * k) 4

/-- Assign `i_mode`. -/
def setMode (n : Inode) (v : Nat) : Inode := ⟨setLE n.bytes 0 2 v⟩

/-- Assign `i_size`. -/
def setSize (n : Inode) (v : Nat) : Inode := ⟨setLE n.bytes 4 4 v⟩

/-- Assign `i_mtime`. -/
def setMtime (n : Inode) (v : Nat) : Inode := ⟨setLE n.bytes 16 4 v⟩

/-- `i_links_count` -/
def iLinksCount (n : Inode) : Nat := getLE n.bytes 26 2

/-- Assign `i_links_count`. -/
def setLinksCount (n : Inode) (v : Nat) : Inode := ⟨setLE n.bytes 26 2 v⟩

/-- Assign `i_blocks`. -/
def setBlocks (n : Inode) (v : Nat) : Inode := ⟨setLE n.bytes 28 4 v⟩

/-- Assign `i_block[k]`. -/
def setBlock (n : Inode) (k v : Nat) : Inode := ⟨setLE n.bytes (40 + 4 * k) 4 v⟩

/-- `inode->i_mode & EXT2_S_IFDIR` -/
def isDir (n : Inode) : Bool := n.iMode &&& sIfdir ≠ 0

end Inode

/-! ## Reading the same fields -/

/-- Descriptors with the same bytes have the same fields. -/
structure GroupDesc.Same (gd gd' : GroupDesc) : Prop where
  blockBitmap : gd'.bgBlockBitmap = gd.bgBlockBitmap
  inodeBitmap : gd'.bgInodeBitmap = gd.bgInodeBitmap
  inodeTable : gd'.bgInodeTable = gd.bgInodeTable
  freeBlocksCount : gd'.bgFreeBlocksCount = gd.bgFreeBlocksCount
  freeInodesCount : gd'.bgFreeInodesCount = gd.bgFreeInodesCount

theorem GroupDesc.same_of_bytes {gd gd' : GroupDesc}
    (h : ∀ i, i < GroupDesc.size → gd'.bytes i = gd.bytes i) : gd.Same gd' := by
  have hsize : GroupDesc.size = 32 := rfl
  constructor <;> exact getLE_congr fun i _ hi => h i (by omega)

/-! ## Setting a field -/

section Fields

variable (sb : SuperBlock) (gd : GroupDesc) (n : Inode) {k j v : Nat}

/-- The fields that tell where things lie on the disk.  No function changes them. -/
structure SuperBlock.SameGeometry (sb sb' : SuperBlock) : Prop where
  inodesCount : sb'.sInodesCount = sb.sInodesCount
  blocksCount : sb'.sBlocksCount = sb.sBlocksCount
  firstDataBlock : sb'.sFirstDataBlock = sb.sFirstDataBlock
  logBlockSize : sb'.sLogBlockSize = sb.sLogBlockSize
  blocksPerGroup : sb'.sBlocksPerGroup = sb.sBlocksPerGroup
  inodesPerGroup : sb'.sInodesPerGroup = sb.sInodesPerGroup
  inodeSize : sb'.sInodeSize = sb.sInodeSize

theorem SuperBlock.SameGeometry.refl : sb.SameGeometry sb :=
  ⟨rfl, rfl, rfl, rfl, rfl, rfl, rfl⟩

theorem SuperBlock.SameGeometry.symm {a b : SuperBlock} (h : a.SameGeometry b) :
    b.SameGeometry a :=
  ⟨h.1.symm, h.2.symm, h.3.symm, h.4.symm, h.5.symm, h.6.symm, h.7.symm⟩

theorem SuperBlock.SameGeometry.trans {a b c : SuperBlock} (h : a.SameGeometry b)
    (h' : b.SameGeometry c) : a.SameGeometry c :=
  ⟨h'.1.trans h.1, h'.2.trans h.2, h'.3.trans h.3, h'.4.trans h.4, h'.5.trans h.5,
    h'.6.trans h.6, h'.7.trans h.7⟩

theorem SuperBlock.SameGeometry.blockSize {a b : SuperBlock} (h : a.SameGeometry b) :
    b.blockSize = a.blockSize := by
  rw [SuperBlock.blockSize, SuperBlock.blockSize, h.logBlockSize]

theorem SuperBlock.sameGeometry_setFreeBlocksCount (v : Nat) :
    sb.SameGeometry (sb.setFreeBlocksCount v) := by
  constructor <;> exact getLE_setLE_of_disjoint (by omega)

theorem SuperBlock.sameGeometry_setFreeInodesCount (v : Nat) :
    sb.SameGeometry (sb.setFreeInodesCount v) := by
  constructor <;> exact getLE_setLE_of_disjoint (by omega)

theorem Inode.iBlock_setBlock_self (h : v < 2 ^ 32) : (n.setBlock k v).iBlock k = v :=
  getLE_setLE_of_lt h

theorem Inode.iBlock_setBlock_of_ne (h : j ≠ k) : (n.setBlock k v).iBlock j = n.iBlock j :=
  getLE_setLE_of_disjoint (by omega)

@[simp] theorem Inode.iMode_setBlock : (n.setBlock k v).iMode = n.iMode :=
  getLE_setLE_of_disjoint (by omega)

@[simp] theorem Inode.iSize_setBlock : (n.setBlock k v).iSize = n.iSize :=
  getLE_setLE_of_disjoint (by omega)

@[simp] theorem Inode.iMode_setSize : (n.setSize v).iMode = n.iMode :=
  getLE_setLE_of_disjoint (by omega)

theorem Inode.iSize_setSize (h : v < 2 ^ 32) : (n.setSize v).iSize = v :=
  getLE_setLE_of_lt h

@[simp] theorem Inode.iBlock_setSize : (n.setSize v).iBlock k = n.iBlock k :=
  getLE_setLE_of_disjoint (by omega)

end Fields

end InfoKernel.Ext2
