import InfoKernel.Fs.Inode

/-!
# Directories

`dir.cc`: a directory is a file whose blocks are chains of records, each record an
`Ext2DirEntry` followed by unused bytes up to its `rec_len`.  A record with inode 0 is dead.

A name is a list of bytes other than `0`, the C string without its end.  The walks along a
chain stop only when they run out of the block, so they take fuel: a `rec_len` of `0` is
walked along for ever.
-/

namespace InfoKernel.Ext2

open Lib

/-! ## `Ext2DirEntry`, at an offset of a buffer -/

/-- `offsetof(Ext2DirEntry, name)`, which is `sizeof(Ext2DirEntry) - 256`. -/
def direntHeader : Nat := 8

/-- `entry->inode` -/
def direntInode (buf : Bytes) (o : Nat) : Nat := getLE buf o 4

/-- `entry->rec_len` -/
def direntRecLen (buf : Bytes) (o : Nat) : Nat := getLE buf (o + 4) 2

/-- `entry->name_len` -/
def direntNameLen (buf : Bytes) (o : Nat) : Nat := (buf (o + 6)).toNat

/-- `entry->name[i]` -/
def direntName (buf : Bytes) (o i : Nat) : UInt8 := buf (o + direntHeader + i)

/-- Fill in a record. -/
def putDirent (buf : Bytes) (o inode recLen : Nat) (name : List UInt8) (fileType : UInt8) :
    Bytes :=
  let buf := setLE buf o 4 inode
  let buf := setLE buf (o + 4) 2 recLen
  let buf := Function.update buf (o + 6) (UInt8.ofNat name.length)
  let buf := Function.update buf (o + 7) fileType
  copyIn buf (o + direntHeader) name.length fun i => name.getD i 0

/-- Set the length of a record. -/
def setRecLen (buf : Bytes) (o recLen : Nat) : Bytes := setLE buf (o + 4) 2 recLen

/-- The bytes of a record with a name of `nameLen` bytes, rounded up to a multiple of 4. -/
def direntLen (nameLen : Nat) : Nat := (direntHeader + nameLen + 3) / 4 * 4

/-! ## `FindEntry` -/

/-- `strncmp(name, dir->name, n) == 0`, for the record at `o`. -/
def strncmpEq (buf : Bytes) (o : Nat) : List UInt8 → Nat → Nat → Bool
  | _, _, 0 => true
  | [], i, _ + 1 => direntName buf o i = 0
  | c :: name, i, n + 1 => direntName buf o i = c && strncmpEq buf o name (i + 1) n

/-- The test that `FindEntry` makes on the record at `o`; `name[dir->name_len]` may lie behind
the end of the name. -/
def direntMatches (buf : Bytes) (o : Nat) (name : List UInt8) : Except Fault Bool :=
  let nameLen := direntNameLen buf o
  if direntInode buf o ≠ 0 ∧ 0 < nameLen then
    if strncmpEq buf o name 0 nameLen then
      if nameLen < name.length then
        .ok false
      else if nameLen = name.length then
        .ok true
      else
        .error .outOfBounds
    else
      .ok false
  else
    .ok false

/-- One turn of the walk of `FindEntry` along the records of a block. -/
def findTurn (e : Env) (buf : Bytes) (size : Nat) (name : List UInt8) (o : Nat) :
    Except Fault (Turn Nat (Option Bytes)) :=
  if o < size then
    if o + direntHeader ≤ size then
      match direntMatches buf o name with
      | .error f => .error f
      | .ok true => .ok (.leave (some fun i => if o + i < size then buf (o + i) else e.behind i))
      | .ok false => .ok (.again (o + direntRecLen buf o))
    else
      .error .outOfBounds
  else
    .ok (.leave none)

/-- The blocks of the directory: `left` are left, `block` is the next. -/
def findFrom (e : Env) (inode : Inode) (name : List UInt8) (n : Nat) :
    Nat → Nat → Io (Except Int Bytes)
  | 0, _ => pure (.error (-4))
  | left + 1, block => do
      let blockNum ← getBlockNum e inode block
      if blockNum = 0 then
        findFrom e inode name n left (block + 1)
      else
        match ← readBlock e blockNum with
        | none => findFrom e inode name n left (block + 1)
        | some buf => do
            let sb ← super
            match Lib.loop (findTurn e buf sb.blockSize name) .outOfFuel n 0 with
            | .error f => throw f
            | .ok (some entry) => pure (.ok entry)
            | .ok none => findFrom e inode name n left (block + 1)

/-- `block_count` -/
def dirBlockCount (sb : SuperBlock) (inode : Inode) : Nat := ceilDiv inode.iSize sb.blockSize

/-- `ext2::FindEntry`: the entry found. -/
def findEntry (e : Env) (inode : Inode) (name : List UInt8) (n : Nat) :
    Io (Except Int Bytes) := do
  let sb ← super
  if !inode.isDir then
    pure (.error (-2))
  else if sb.blockSize = 0 then
    throw .divByZero
  else if !(← pageAlloc e) then
    pure (.error (-3))
  else
    findFrom e inode name n (dirBlockCount sb inode) 0

/-! ## `AddEntry` -/

/-- One turn of the walk of `AddEntry` along the records of a block: the block with the new
record in it, when there is room in the record at `o`. -/
def addTurn (size inodeNum : Nat) (name : List UInt8) (fileType : UInt8) (buf : Bytes)
    (o : Nat) : Except Fault (Turn Nat (Option Bytes)) :=
  let entryLen := direntLen name.length
  if o < size then
    if o + direntHeader ≤ size then
      let recLen := direntRecLen buf o
      if direntInode buf o ≠ 0 then
        let usedLen := direntLen (direntNameLen buf o)
        if (recLen : Int) - usedLen ≥ entryLen then
          if o + usedLen + direntHeader + name.length ≤ size then
            .ok (.leave (some (setRecLen
              (putDirent buf (o + usedLen) inodeNum (recLen - usedLen) name fileType) o usedLen)))
          else
            .error .outOfBounds
        else
          .ok (.again (o + recLen))
      else if recLen ≥ entryLen then
        if o + direntHeader + name.length ≤ size then
          .ok (.leave (some (putDirent buf o inodeNum entryLen name fileType)))
        else
          .error .outOfBounds
      else
        .ok (.again (o + recLen))
    else
      .error .outOfBounds
  else
    .ok (.leave none)

/-- Block `block` of the directory, and the block of the partition that holds it: a hole is
filled with a new block. -/
def dirBlock (e : Env) (inode : Inode) (block : Nat) :
    Io (Inode × Except Int (Option (Nat × Bytes))) := do
  let blockNum ← getBlockNum e inode block
  if blockNum = 0 then do
    let blockNum ← allocBlock e
    if blockNum = 0 then
      pure (inode, .error (-5))
    else do
      let (_, inode) ← setBlockNum e inode block blockNum
      pure (inode, .ok (some (blockNum, fun _ => 0)))
  else
    match ← readBlock e blockNum with
    | none => pure (inode, .ok none)
    | some buf => pure (inode, .ok (some (blockNum, buf)))

/-- The blocks of the directory: `left` are left, `block` is the next.  Without a code, no
record had room. -/
def addFrom (e : Env) (inodeNum : Nat) (name : List UInt8) (fileType : UInt8) (n : Nat) :
    Nat → Nat → Inode → Io (Option Int × Inode)
  | 0, _, inode => pure (none, inode)
  | left + 1, block, inode => do
      match ← dirBlock e inode block with
      | (inode, .error code) => pure (some code, inode)
      | (inode, .ok none) => addFrom e inodeNum name fileType n left (block + 1) inode
      | (inode, .ok (some (blockNum, buf))) => do
          let sb ← super
          match Lib.loop (addTurn sb.blockSize inodeNum name fileType buf) .outOfFuel n 0 with
          | .error f => throw f
          | .ok (some buf) =>
              if !(← writeBlock e blockNum buf) then
                pure (some (-6), inode)
              else
                pure (some 0, inode)
          | .ok none => addFrom e inodeNum name fileType n left (block + 1) inode

/-- The end of `AddEntry`: the new record in a block of its own behind the others. -/
def addBlock (e : Env) (inode : Inode) (blockCount inodeNum : Nat) (name : List UInt8)
    (fileType : UInt8) : Io (Int × Inode) := do
  let newBlock ← allocBlock e
  if newBlock = 0 then
    pure (-5, inode)
  else do
    let (_, inode) ← setBlockNum e inode blockCount newBlock
    let sb ← super
    if direntHeader + name.length ≤ sb.blockSize then
      let buf := putDirent (fun _ => 0) 0 inodeNum (u16 sb.blockSize) name fileType
      if !(← writeBlock e newBlock buf) then
        pure (-6, inode)
      else
        pure (0, inode.setSize (u32 (inode.iSize + sb.blockSize)))
    else
      throw .outOfBounds

/-- `ext2::AddEntry`: the code, and the inode of the directory. -/
def addEntry (e : Env) (inode : Inode) (inodeNum : Nat) (name : List UInt8) (fileType : UInt8)
    (n : Nat) : Io (Int × Inode) := do
  let sb ← super
  if !inode.isDir then
    pure (-2, inode)
  else if name.length > 255 then
    pure (-3, inode)
  else if sb.blockSize = 0 then
    throw .divByZero
  else if !(← pageAlloc e) then
    pure (-4, inode)
  else do
    let blockCount := dirBlockCount sb inode
    match ← addFrom e inodeNum name fileType n blockCount 0 inode with
    | (some code, inode) => pure (code, inode)
    | (none, inode) => addBlock e inode blockCount inodeNum name fileType

/-! ## `RemoveEntry` -/

/-- One turn of the walk of `RemoveEntry` along the records of a block, at the record at `o`
behind the one at `prev`: the block without the name. -/
def removeTurn (size : Nat) (name : List UInt8) (buf : Bytes) (st : Option Nat × Nat) :
    Except Fault (Turn (Option Nat × Nat) (Option Bytes)) :=
  let (prev, o) := st
  if o < size then
    if o + direntHeader ≤ size then
      match direntMatches buf o name with
      | .error f => .error f
      | .ok true =>
          match prev with
          | some prev => .ok (.leave (some (setRecLen buf prev
              (direntRecLen buf prev + direntRecLen buf o))))
          | none => .ok (.leave (some (setLE buf o 4 0)))
      | .ok false => .ok (.again (some o, o + direntRecLen buf o))
    else
      .error .outOfBounds
  else
    .ok (.leave none)

/-- The blocks of the directory: `left` are left, `block` is the next. -/
def removeFrom (e : Env) (inode : Inode) (name : List UInt8) (n : Nat) : Nat → Nat → Io Int
  | 0, _ => pure (-5)
  | left + 1, block => do
      let blockNum ← getBlockNum e inode block
      if blockNum = 0 then
        removeFrom e inode name n left (block + 1)
      else
        match ← readBlock e blockNum with
        | none => removeFrom e inode name n left (block + 1)
        | some buf => do
            let sb ← super
            match Lib.loop (removeTurn sb.blockSize name buf) .outOfFuel n (none, 0) with
            | .error f => throw f
            | .ok (some buf) =>
                if !(← writeBlock e blockNum buf) then
                  pure (-4)
                else
                  pure 0
            | .ok none => removeFrom e inode name n left (block + 1)

/-- `ext2::RemoveEntry` -/
def removeEntry (e : Env) (inode : Inode) (name : List UInt8) (n : Nat) : Io Int := do
  let sb ← super
  if !inode.isDir then
    pure (-2)
  else if sb.blockSize = 0 then
    throw .divByZero
  else if !(← pageAlloc e) then
    pure (-3)
  else
    removeFrom e inode name n (dirBlockCount sb inode) 0

/-! ## `LookupPath` -/

/-- `'/'` -/
def slash : UInt8 := 47

/-- One turn of the walk of `LookupPath` along the path: what is left of it, the inode number
reached and the inode. -/
def lookupTurn (e : Env) (n : Nat) (st : List UInt8 × Nat × Inode) :
    Io (Turn (List UInt8 × Nat × Inode) (Except Int Nat)) := do
  match st with
  | ([], num, _) => pure (.leave (.ok num))
  | (start, _, inode) =>
      let name := start.takeWhile (· ≠ slash)
      let rest := start.dropWhile (· ≠ slash)
      if name.length ≥ 256 then
        pure (.leave (.error (-4)))
      else
        match ← findEntry e inode name n with
        | .error _ => pure (.leave (.error (-5)))
        | .ok entry =>
            match ← readInode e (direntInode entry 0) with
            | .error _ => pure (.leave (.error (-3)))
            | .ok inode =>
                if rest = [] then
                  pure (.leave (.ok (direntInode entry 0)))
                else
                  pure (.again (rest.tail, direntInode entry 0, inode))

/-- `ext2::LookupPath`: the inode number. -/
def lookupPath (e : Env) (path : List UInt8) (n : Nat) : Io (Except Int Nat) := do
  if path.head? ≠ some slash then
    pure (.error (-2))
  else
    match ← readInode e rootIno with
    | .error _ => pure (.error (-3))
    | .ok inode => Program.loop (lookupTurn e n) .outOfFuel n (path.tail, rootIno, inode)

end InfoKernel.Ext2
