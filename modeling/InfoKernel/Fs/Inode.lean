import InfoKernel.Fs.Balloc

/-!
# Inodes and their block maps

`inode.cc`: reading and writing an inode in the inode table, and the map from the block
indices of a file to blocks of the partition, which `GetBlockNum` reads and `SetBlockNum`
changes.

The map has twelve direct entries and three trees of pointer blocks, one, two and three levels
deep.  `GetBlockNum` and `SetBlockNum` spell the levels of each tree out one by one; here
`blockPath` gives the entry of `i_block` and the indices into the pointer blocks below it, with
the arithmetic of the source, and one function goes down one level: `readPtr` when reading,
`linkPtr` and `storePtr` when writing.  A division that the source makes only when a level is
reached is one that fails only then.
-/

namespace InfoKernel.Ext2

open Lib

/-- The block of the inode table that holds inode `num`, and the offset in it; or the code
that `ReadInode` and `WriteInode` return for a group descriptor that cannot be read. -/
def inodeSlot (e : Env) (num : Nat) : Io (Except Int (Nat × Nat)) := do
  let sb ← super
  if sb.sInodeSize = 0 then
    throw .divByZero
  else
    let inodesPerBlock := sb.blockSize / sb.sInodeSize
    if sb.sInodesPerGroup = 0 then
      throw .divByZero
    else
      let group := (num - 1) / sb.sInodesPerGroup
      let inodeInGroup := (num - 1) % sb.sInodesPerGroup
      match ← readGroupDesc e group with
      | .error _ => pure (.error (-2))
      | .ok gd =>
          if inodesPerBlock = 0 then
            throw .divByZero
          else
            pure (.ok (u32 (gd.bgInodeTable + inodeInGroup / inodesPerBlock),
              inodeInGroup % inodesPerBlock * sb.sInodeSize))

/-- `ext2::ReadInode` -/
def readInode (e : Env) (num : Nat) : Io (Except Int Inode) := do
  if num = 0 then
    pure (.error (-1))
  else
    match ← inodeSlot e num with
    | .error code => pure (.error code)
    | .ok (tableBlock, offset) =>
        if !(← pageAlloc e) then
          pure (.error (-3))
        else
          match ← readBlock e tableBlock with
          | none => pure (.error (-4))
          | some buf => do
              let sb ← super
              if offset + Inode.size ≤ sb.blockSize then
                pure (.ok ⟨fun i => buf (offset + i)⟩)
              else
                throw .outOfBlock

/-- `ext2::WriteInode` -/
def writeInode (e : Env) (num : Nat) (inode : Inode) : Io Int := do
  if num = 0 then
    pure (-1)
  else
    match ← inodeSlot e num with
    | .error code => pure code
    | .ok (tableBlock, offset) =>
        if !(← pageAlloc e) then
          pure (-3)
        else
          match ← readBlock e tableBlock with
          | none => pure (-4)
          | some buf => do
              let sb ← super
              if offset + Inode.size ≤ sb.blockSize then
                if !(← writeBlock e tableBlock (copyIn buf offset Inode.size inode.bytes)) then
                  pure (-5)
                else
                  pure 0
              else
                throw .outOfBlock

/-! ## The way to a block -/

/-- `EXT2_NDIR_BLOCKS` -/
def ndirBlocks : Nat := 12

/-- Division where the source divides. -/
def checkedDiv (a b : Nat) : Except Fault Nat :=
  if b = 0 then .error .divByZero else .ok (a / b)

/-- The entry of `i_block` under which block `block` of a file is found, and the index into
each of the pointer blocks below it, `p` pointers to a block. -/
def blockPath (p block : Nat) : Nat × List (Except Fault Nat) :=
  if block < ndirBlocks then
    (block, [])
  else
    let block := block - ndirBlocks
    if block < p then
      (ndirBlocks, [.ok block])
    else
      let block := block - p
      if block < u32 (p * p) then
        (ndirBlocks + 1, [.ok (block / p), .ok (block % p)])
      else
        let block := block - u32 (p * p)
        (ndirBlocks + 2, [checkedDiv block (u32 (p * p)), .ok (block % u32 (p * p) / p),
          .ok (block % u32 (p * p) % p)])

/-- The `index`-th pointer of a pointer block of `size` bytes lies in it. -/
def pointerAt (size : Nat) (index : Except Fault Nat) : Except Fault Nat :=
  match index with
  | .error f => .error f
  | .ok i => if 4 * i + 4 ≤ size then .ok i else .error .outOfBounds

/-! ## `GetBlockNum` -/

/-- The `index`-th pointer of pointer block `x`, or `0` when there is no such block or it
cannot be read. -/
def readPtr (e : Env) (x : Nat) (index : Except Fault Nat) : Io Nat := do
  if x = 0 then
    pure 0
  else if !(← pageAlloc e) then
    pure 0
  else
    match ← readBlock e x with
    | none => pure 0
    | some buf => do
        let sb ← super
        match pointerAt sb.blockSize index with
        | .error f => throw f
        | .ok i => pure (getLE buf (4 * i) 4)

/-- Down the levels below block `x`. -/
def getLevel (e : Env) : Nat → List (Except Fault Nat) → Io Nat
  | x, [] => pure x
  | x, index :: rest => do getLevel e (← readPtr e x index) rest

/-- `ext2::GetBlockNum` -/
def getBlockNum (e : Env) (inode : Inode) (block : Nat) : Io Nat := do
  let sb ← super
  let path := blockPath sb.ptrsPerBlock block
  getLevel e (inode.iBlock path.1) path.2

/-! ## `SetBlockNum` -/

/-- A level above the last: the block below pointer `index` of block `x`, which is allocated
when there is none; or the code to return. -/
def linkPtr (e : Env) (num x : Nat) (index : Except Fault Nat) : Io (Except Int Nat) := do
  if !(← pageAlloc e) then
    pure (.error (-3))
  else
    match ← readBlock e x with
    | none => pure (.error (-4))
    | some buf => do
        let sb ← super
        match pointerAt sb.blockSize index with
        | .error f => throw f
        | .ok i =>
            let child := getLE buf (4 * i) 4
            if child = 0 then
              if num = 0 then
                pure (.error 0)
              else do
                let child ← allocBlock e
                if child = 0 then
                  pure (.error (-2))
                else if !(← writeBlock e x (setLE buf (4 * i) 4 child)) then
                  pure (.error (-5))
                else
                  pure (.ok child)
            else if !(← writeBlock e x buf) then
              pure (.error (-5))
            else
              pure (.ok child)

/-- The last level: store `num` as pointer `index` of block `x`. -/
def storePtr (e : Env) (num x : Nat) (index : Except Fault Nat) : Io Int := do
  if !(← pageAlloc e) then
    pure (-3)
  else
    match ← readBlock e x with
    | none => pure (-4)
    | some buf => do
        let sb ← super
        match pointerAt sb.blockSize index with
        | .error f => throw f
        | .ok i =>
            if !(← writeBlock e x (setLE buf (4 * i) 4 num)) then
              pure (-5)
            else
              pure 0

/-- Down the levels below block `x`. -/
def setLevel (e : Env) (num : Nat) : Nat → List (Except Fault Nat) → Io Int
  | _, [] => pure 0
  | x, [index] => storePtr e num x index
  | x, index :: rest => do
      match ← linkPtr e num x index with
      | .error code => pure code
      | .ok child => setLevel e num child rest

/-- `ext2::SetBlockNum`: the code, and the inode. -/
def setBlockNum (e : Env) (inode : Inode) (block num : Nat) : Io (Int × Inode) := do
  let sb ← super
  let path := blockPath sb.ptrsPerBlock block
  if path.2 = [] then
    pure (0, inode.setBlock path.1 num)
  else if inode.iBlock path.1 = 0 then
    if num = 0 then
      pure (0, inode)
    else do
      let x ← allocBlock e
      let inode := inode.setBlock path.1 x
      if x = 0 then
        pure (-2, inode)
      else
        pure (← setLevel e num x path.2, inode)
  else
    pure (← setLevel e num (inode.iBlock path.1) path.2, inode)

/-! ## `TruncateInode` -/

/-- The direct entries of `i_block`: `left` are left, `i` is the next. -/
def freeDirect (e : Env) (fileBlocks : Nat) : Nat → Nat → Inode → Io Inode
  | 0, _, inode => pure inode
  | left + 1, i, inode =>
      if i < fileBlocks ∧ inode.iBlock i ≠ 0 then do
        freeBlock e (inode.iBlock i)
        freeDirect e fileBlocks left (i + 1) (inode.setBlock i 0)
      else
        freeDirect e fileBlocks left (i + 1) inode

/-- The blocks under a pointer block with the contents `buf`: `left` pointers are left, `i` is
the next, and the first stands for block `first` of the file. -/
def freePtrs (e : Env) (buf : Bytes) (fileBlocks first : Nat) : Nat → Nat → Io PUnit
  | 0, _ => pure ⟨⟩
  | left + 1, i => do
      let x := getLE buf (4 * i) 4
      if u32 (first + i) < fileBlocks ∧ x ≠ 0 then
        freeBlock e x
      freePtrs e buf fileBlocks first left (i + 1)

/-- Pointer block `x` and the blocks under it. -/
def freeIndirect (e : Env) (p fileBlocks first x : Nat) : Io PUnit := do
  if ← pageAlloc e then
    match ← readBlock e x with
    | none => pure ⟨⟩
    | some buf => freePtrs e buf fileBlocks first p 0
  freeBlock e x

/-- The pointer blocks under one with the contents `buf`: `left` pointers are left, `i` is the
next. -/
def freeIndirects (e : Env) (buf : Bytes) (p fileBlocks : Nat) : Nat → Nat → Io PUnit
  | 0, _ => pure ⟨⟩
  | left + 1, i => do
      let x := getLE buf (4 * i) 4
      if x ≠ 0 then
        freeIndirect e p fileBlocks (ndirBlocks + p + i * p) x
      freeIndirects e buf p fileBlocks left (i + 1)

/-- Pointer block `x` of the second level and all under it. -/
def freeDoubleIndirect (e : Env) (p fileBlocks x : Nat) : Io PUnit := do
  if ← pageAlloc e then
    match ← readBlock e x with
    | none => pure ⟨⟩
    | some buf => freeIndirects e buf p fileBlocks p 0
  freeBlock e x

/-- An entry of `i_block` that stands for a tree is freed by `free` and becomes `0`, unless it
is `0`. -/
def freeTree (free : Nat → Io PUnit) (slot : Nat) (inode : Inode) : Io Inode :=
  if inode.iBlock slot ≠ 0 then do
    free (inode.iBlock slot)
    pure (inode.setBlock slot 0)
  else
    pure inode

/-- `ext2::TruncateInode`: the code, and the inode.  Of the third tree only the pointer block at
its root is freed. -/
def truncateInode (e : Env) (inode : Inode) : Io (Int × Inode) := do
  let sb ← super
  if sb.blockSize = 0 then
    throw .divByZero
  else
    let p := sb.ptrsPerBlock
    let fileBlocks := ceilDiv inode.iSize sb.blockSize
    let inode ← freeDirect e fileBlocks ndirBlocks 0 inode
    let inode ← freeTree (freeIndirect e p fileBlocks ndirBlocks) ndirBlocks inode
    let inode ← freeTree (freeDoubleIndirect e p fileBlocks) (ndirBlocks + 1) inode
    let inode ← freeTree (freeBlock e) (ndirBlocks + 2) inode
    pure (0, (inode.setSize 0).setBlocks 0)

end InfoKernel.Ext2
