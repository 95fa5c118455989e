import InfoKernel.Fs.Super

/-!
# The allocators of blocks and of inodes

`AllocBlock` and `AllocInode` walk the groups in order and take the first clear bit of a
bitmap, `FreeBlock` and `FreeInode` clear one bit.  The two pairs differ in the fields they
use, which a `Kind` collects; in addition `AllocBlock` starts behind `s_first_data_block` and
fills the block it hands out with zeros, and `AllocInode` passes over inode 1.

A bit is named by its number over all groups: bit `i` of the bitmap of group `g` is number
`g * perGroup + i`.  `AllocBlock` returns this number as the block, and `FreeBlock` takes it
as the block: `s_first_data_block` is not added or subtracted.
-/

namespace InfoKernel.Ext2

open Lib

/-- What is allocated. -/
inductive Kind where
  | block
  | inode
  deriving DecidableEq

/-- `EXT2_ROOT_INO` -/
def rootIno : Nat := 2

namespace Kind

/-- How many there are on the volume. -/
def count (sb : SuperBlock) : Kind → Nat
  | block => sb.sBlocksCount
  | inode => sb.sInodesCount

/-- How many there are in a group. -/
def perGroup (sb : SuperBlock) : Kind → Nat
  | block => sb.sBlocksPerGroup
  | inode => sb.sInodesPerGroup

/-- The block with the bitmap of a group. -/
def bitmap (gd : GroupDesc) : Kind → Nat
  | block => gd.bgBlockBitmap
  | inode => gd.bgInodeBitmap

/-- How many are free in a group. -/
def free (gd : GroupDesc) : Kind → Nat
  | block => gd.bgFreeBlocksCount
  | inode => gd.bgFreeInodesCount

/-- Assign how many are free in a group. -/
def setFree (gd : GroupDesc) (v : Nat) : Kind → GroupDesc
  | block => gd.setFreeBlocksCount v
  | inode => gd.setFreeInodesCount v

/-- How many are free on the volume. -/
def superFree (sb : SuperBlock) : Kind → Nat
  | block => sb.sFreeBlocksCount
  | inode => sb.sFreeInodesCount

/-- Assign how many are free on the volume. -/
def setSuperFree (sb : SuperBlock) (v : Nat) : Kind → SuperBlock
  | block => sb.setFreeBlocksCount v
  | inode => sb.setFreeInodesCount v

/-- The bit of a group at which the search begins, when its bit 0 has the number `start`. -/
def first (sb : SuperBlock) (start : Nat) : Kind → Nat
  | block => if start < sb.sFirstDataBlock then sb.sFirstDataBlock - start else 0
  | inode => 0

/-- The clear bits that are taken, by their number. -/
def usable (n : Nat) : Kind → Bool
  | block => true
  | inode => !decide (n + 1 < rootIno)

variable {gd gd' : GroupDesc} {sb : SuperBlock} {v : Nat}

theorem bitmap_congr (h : gd.Same gd') (k : Kind) : k.bitmap gd' = k.bitmap gd := by
  cases k with
  | block => exact h.blockBitmap
  | inode => exact h.inodeBitmap

theorem free_congr (h : gd.Same gd') (k : Kind) : k.free gd' = k.free gd := by
  cases k with
  | block => exact h.freeBlocksCount
  | inode => exact h.freeInodesCount

theorem bitmap_setFree (k k' : Kind) : k'.bitmap (k.setFree gd v) = k'.bitmap gd := by
  cases k <;> cases k' <;> exact getLE_setLE_of_disjoint (by omega)

theorem inodeTable_setFree (k : Kind) : (k.setFree gd v).bgInodeTable = gd.bgInodeTable := by
  cases k <;> exact getLE_setLE_of_disjoint (by omega)

theorem free_setFree_self (k : Kind) : k.free (k.setFree gd v) = v % 2 ^ 16 := by
  cases k <;> exact getLE_setLE

theorem free_setFree_of_ne {k k' : Kind} (h : k' ≠ k) :
    k'.free (k.setFree gd v) = k'.free gd := by
  cases k <;> cases k' <;> first
    | exact absurd rfl h
    | exact getLE_setLE_of_disjoint (by omega)

theorem superFree_setSuperFree_self (k : Kind) :
    k.superFree (k.setSuperFree sb v) = v % 2 ^ 32 := by
  cases k <;> exact getLE_setLE

theorem superFree_setSuperFree_of_ne {k k' : Kind} (h : k' ≠ k) :
    k'.superFree (k.setSuperFree sb v) = k'.superFree sb := by
  cases k <;> cases k' <;> first
    | exact absurd rfl h
    | exact getLE_setLE_of_disjoint (by omega)

/-- The count can be set back. -/
theorem setSuperFree_setSuperFree {w : Nat} (k : Kind) (h : w = k.superFree sb) :
    k.setSuperFree (k.setSuperFree sb v) w = sb := by
  cases k <;>
    exact congrArg SuperBlock.mk (setLE_setLE.trans (setLE_eq_self (by
      rw [h]
      exact Nat.mod_eq_of_lt (getLE_lt _ _ _))))

theorem sameGeometry_setSuperFree (k : Kind) : sb.SameGeometry (k.setSuperFree sb v) := by
  cases k with
  | block => exact sb.sameGeometry_setFreeBlocksCount v
  | inode => exact sb.sameGeometry_setFreeInodesCount v

theorem count_congr {sb' : SuperBlock} (h : sb.SameGeometry sb') (k : Kind) :
    k.count sb' = k.count sb := by
  cases k with
  | block => exact h.blocksCount
  | inode => exact h.inodesCount

theorem perGroup_congr {sb' : SuperBlock} (h : sb.SameGeometry sb') (k : Kind) :
    k.perGroup sb' = k.perGroup sb := by
  cases k with
  | block => exact h.blocksPerGroup
  | inode => exact h.inodesPerGroup

end Kind

/-- The first clear bit from `i` on that is usable, among the next `n`, of a bitmap of `size`
bytes whose bit 0 has the number `start`. -/
def findClear (k : Kind) (bitmap : Bitmap) (size start : Nat) :
    Nat → Nat → Except Fault (Option Nat)
  | 0, _ => .ok none
  | n + 1, i =>
      if i / 8 < size then
        if !bitmap.used i && k.usable (start + i) then
          .ok (some i)
        else
          findClear k bitmap size start n (i + 1)
      else
        .error .outOfBlock

/-- The end of every call that has changed a bit of group `group`: the new counts of free ones,
in memory and on the disk. -/
def setCounts (k : Kind) (e : Env) (group : Nat) (gd : GroupDesc) (inGroup onVolume : Nat) :
    Io PUnit := do
  let sb ← super
  setSuper (k.setSuperFree sb onVolume)
  let _ ← writeGroupDesc e group (k.setFree gd inGroup)
  let _ ← writeSuperBlock e

/-- Take bit `i` of group `group`.  Nothing is returned when the bitmap cannot be written. -/
def takeBit (k : Kind) (e : Env) (group : Nat) (gd : GroupDesc) (bitmap : Bitmap) (i : Nat) :
    Io (Option Nat) := do
  if !(← writeBlock e (k.bitmap gd) (bitmap.mark i)) then
    pure none
  else
    let sb ← super
    setCounts k e group gd (k.free gd - 1) (sub32 (k.superFree sb) 1)
    pure (some (group * k.perGroup sb + i))

/-- The loop over the groups: `n` of them are left, `group` is the next. -/
def allocBitFrom (k : Kind) (e : Env) : Nat → Nat → Io (Option Nat)
  | 0, _ => pure none
  | n + 1, group => do
      match ← readGroupDesc e group with
      | .error _ => allocBitFrom k e n (group + 1)
      | .ok gd =>
          if k.free gd = 0 then
            allocBitFrom k e n (group + 1)
          else
            match ← readBlock e (k.bitmap gd) with
            | none => allocBitFrom k e n (group + 1)
            | some bitmap => do
                let sb ← super
                let start := group * k.perGroup sb
                let first := k.first sb start
                match findClear k bitmap sb.blockSize start (k.perGroup sb - first) first with
                | .error f => throw f
                | .ok none => allocBitFrom k e n (group + 1)
                | .ok (some i) => takeBit k e group gd bitmap i

/-- What `AllocBlock` and `AllocInode` have in common: the number of the bit taken. -/
def allocBit (k : Kind) (e : Env) : Io (Option Nat) := do
  let sb ← super
  if k.perGroup sb = 0 then
    throw .divByZero
  else if !(← pageAlloc e) then
    pure none
  else
    allocBitFrom k e (ceilDiv (k.count sb) (k.perGroup sb)) 0

/-- What `FreeBlock` and `FreeInode` have in common: clear the bit with number `n`. -/
def freeBit (k : Kind) (e : Env) (n : Nat) : Io PUnit := do
  let sb ← super
  if k.perGroup sb = 0 then
    throw .divByZero
  else
    let group := n / k.perGroup sb
    let i := n % k.perGroup sb
    match ← readGroupDesc e group with
    | .error _ => pure ⟨⟩
    | .ok gd =>
        if !(← pageAlloc e) then
          pure ⟨⟩
        else
          match ← readBlock e (k.bitmap gd) with
          | none => pure ⟨⟩
          | some bitmap =>
              if i / 8 < sb.blockSize then
                if Bitmap.used bitmap i then do
                  let _ ← writeBlock e (k.bitmap gd) (Bitmap.clear bitmap i)
                  setCounts k e group gd (u16 (k.free gd + 1)) (u32 (k.superFree sb + 1))
                else
                  pure ⟨⟩
              else
                throw .outOfBlock

/-- `ext2::AllocBlock` -/
def allocBlock (e : Env) : Io Nat := do
  match ← allocBit .block e with
  | none => returned 0
  | some block => do
      if ← pageAlloc e then
        let _ ← writeBlock e block fun _ => 0
        returned block
      else
        returned block

/-- `ext2::FreeBlock` -/
def freeBlock (e : Env) (block : Nat) : Io PUnit :=
  if block = 0 then pure ⟨⟩ else freeBit .block e block

/-- `ext2::AllocInode` -/
def allocInode (e : Env) : Io Nat := do
  match ← allocBit .inode e with
  | none => pure 0
  | some n => pure (n + 1)

/-- `ext2::FreeInode` -/
def freeInode (e : Env) (inode : Nat) : Io PUnit :=
  if inode = 0 then pure ⟨⟩ else freeBit .inode e (inode - 1)

end InfoKernel.Ext2
