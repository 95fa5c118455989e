import InfoKernel.Fs.Layout

/-!
# Superblock, group descriptors and blocks

`super.cc`, and the two functions of `balloc.cc` that move one block.  A function of the
source that fills a buffer or a structure and returns a code is one that returns either the
code, as an error, or what it has filled in.

`ReadSuperBlock` fills in the superblock before it finds the wrong magic number, and its caller
drops it then.

The group descriptors are read from block 2 and from no other block.  The descriptor of a group that
does not lie in that block is copied from and to what lies behind the buffer: where there is memory,
the bytes there are taken for the descriptor, and where there is none the copy is the fault
`outOfBounds`.  What is written behind the buffer does not come to the disk, and is not kept: each
call has its own buffer, from pages that have been given back and handed out in between, and finds
behind it the bytes of `Env.behind`.
`WriteSuperBlock` is the one function that has no parameter `ext2_lba`.
-/

namespace InfoKernel.Ext2

open Lib

/-- The first sector of block `x` of the partition. -/
def sectorOf (e : Env) (sb : SuperBlock) (x : Nat) : Nat := e.lba + x * (sb.blockSize / 512)

/-- `ext2::ReadBlock`: the buffer, or nothing when a code other than `0` is returned. -/
def readBlock (e : Env) (x : Nat) : Io (Option Bytes) := do
  let sb ← super
  devRead e (sectorOf e sb x) (sb.blockSize / 512)

/-- `ext2::WriteBlock`: whether `0` is returned. -/
def writeBlock (e : Env) (x : Nat) (buf : Bytes) : Io Bool := do
  let sb ← super
  devWrite e (sectorOf e sb x) (sb.blockSize / 512) buf

/-- `ext2::ReadSuperBlock` -/
def readSuperBlock (e : Env) : Io (Except Int SuperBlock) := do
  if !(← pageAlloc e) then
    pure (.error (-3))
  else
    match ← devRead e (u32 (2 + e.lba)) 2 with
    | none => pure (.error (-4))
    | some buf =>
        if SuperBlock.sMagic ⟨buf⟩ ≠ SuperBlock.magic then
          pure (.error (-5))
        else
          pure (.ok ⟨buf⟩)

/-- `ext2::WriteSuperBlock` -/
def writeSuperBlock (e : Env) : Io Int := do
  let sb ← super
  if !(← pageAlloc e) then
    pure (-2)
  else if !(← devWrite e 2 2 sb.bytes) then
    pure (-3)
  else
    pure 0

/-- `gd_block` -/
def gdBlock : Nat := 2

/-- The `memcpy` of the descriptor of a group stays in memory: it lies in the block, or there is
memory behind the buffer. -/
def descThere (e : Env) (sb : SuperBlock) (group : Nat) : Bool :=
  decide (GroupDesc.size * group + GroupDesc.size ≤ sb.blockSize) || e.mapped group

/-- `ext2::ReadGroupDesc` -/
def readGroupDesc (e : Env) (group : Nat) : Io (Except Int GroupDesc) := do
  let sb ← super
  if !(← pageAlloc e) then
    pure (.error (-2))
  else
    match ← devRead e (sectorOf e sb gdBlock) (sb.blockSize / 512) with
    | none => pure (.error (-3))
    | some buf =>
        if descThere e sb group then
          pure (.ok ⟨fun i => buf (GroupDesc.size * group + i)⟩)
        else
          throw .outOfBounds

/-- `ext2::WriteGroupDesc` -/
def writeGroupDesc (e : Env) (group : Nat) (gd : GroupDesc) : Io Int := do
  let sb ← super
  if !(← pageAlloc e) then
    pure (-2)
  else
    match ← devRead e (sectorOf e sb gdBlock) (sb.blockSize / 512) with
    | none => pure (-3)
    | some buf =>
        if descThere e sb group then
          let buf := copyIn buf (GroupDesc.size * group) GroupDesc.size gd.bytes
          if !(← devWrite e (sectorOf e sb gdBlock) (sb.blockSize / 512) buf) then
            pure (-4)
          else
            pure 0
        else
          throw .outOfBounds

end InfoKernel.Ext2
