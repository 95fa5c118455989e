import InfoKernel.Fs.Dir

/-!
# Files

`file.cc`: reading and writing the bytes of a file, creating one and deleting one.  The two copy
loops move the part of one block that lies in the range in each turn; a `new` that returns null
makes the `ReadBlock` behind it return a code.  `CreateFile` is given in two parts, the one that
only looks for the parent directory and the one that makes the new file.
-/

namespace InfoKernel.Ext2

open Lib

/-- A byte of a file lies in this block of it, at this offset. -/
def blockOf (size offset : Nat) : Nat × Nat := (u32 (offset / size), offset % size)

/-- `bytes_in_block`, when `remaining` bytes are left. -/
def bytesInBlock (size blockOffset remaining : Nat) : Nat :=
  if size - blockOffset > remaining then remaining else size - blockOffset

/-! ## `ReadFile` -/

/-- One turn of the loop of `ReadFile`: the bytes read so far, and the buffer. -/
def readTurn (e : Env) (inode : Inode) (offset toRead : Nat) (st : Nat × Bytes) :
    Io (Turn (Nat × Bytes) (Nat × Bytes)) := do
  let (bytesRead, out) := st
  if bytesRead < toRead then
    let sb ← super
    if sb.blockSize = 0 then
      throw .divByZero
    else
      let (blockIndex, blockOffset) := blockOf sb.blockSize (u64 (offset + bytesRead))
      let blockNum ← getBlockNum e inode blockIndex
      if blockNum = 0 then
        pure (.leave st)
      else if !(← pageAlloc e) then
        pure (.leave st)
      else
        match ← readBlock e blockNum with
        | none => pure (.leave st)
        | some buf =>
            let n := bytesInBlock sb.blockSize blockOffset (toRead - bytesRead)
            pure (.again (bytesRead + n, copyIn out bytesRead n fun i => buf (blockOffset + i)))
  else
    pure (.leave st)

/-- `ext2::ReadFile`: what is returned, and the buffer. -/
def readFile (e : Env) (inode : Inode) (buf : Bytes) (count offset n : Nat) :
    Io (Int × Bytes) := do
  if inode.isDir then
    pure (-2, buf)
  else if offset ≥ inode.iSize then
    pure (0, buf)
  else do
    let toRead := if u64 (offset + count) > inode.iSize then inode.iSize - offset else count
    let (bytesRead, buf) ← Program.loop (readTurn e inode offset toRead) .outOfFuel n (0, buf)
    pure ((bytesRead : Int), buf)

/-! ## `WriteFile` -/

/-- The block that `WriteFile` writes to, allocated when there is none. -/
def writeTarget (e : Env) (inode : Inode) (blockIndex : Nat) : Io (Nat × Inode) := do
  let blockNum ← getBlockNum e inode blockIndex
  if blockNum = 0 then do
    let blockNum ← allocBlock e
    if blockNum = 0 then
      pure (0, inode)
    else do
      let (_, inode) ← setBlockNum e inode blockIndex blockNum
      pure (blockNum, inode)
  else
    pure (blockNum, inode)

/-- One turn of the loop of `WriteFile`: the bytes written so far, and the inode. -/
def writeTurn (e : Env) (buf : Bytes) (offset count : Nat) (st : Nat × Inode) :
    Io (Turn (Nat × Inode) (Nat × Inode)) := do
  let (bytesWritten, inode) := st
  if bytesWritten < count then
    let sb ← super
    if sb.blockSize = 0 then
      throw .divByZero
    else
      let (blockIndex, blockOffset) := blockOf sb.blockSize (u64 (offset + bytesWritten))
      let (blockNum, inode) ← writeTarget e inode blockIndex
      if blockNum = 0 then
        pure (.leave (bytesWritten, inode))
      else if !(← pageAlloc e) then
        pure (.leave (bytesWritten, inode))
      else
        match ← readBlock e blockNum with
        | none => pure (.leave (bytesWritten, inode))
        | some block =>
            let n := bytesInBlock sb.blockSize blockOffset (count - bytesWritten)
            let block := copyIn block blockOffset n fun i => buf (bytesWritten + i)
            if !(← writeBlock e blockNum block) then
              pure (.leave (bytesWritten, inode))
            else
              pure (.again (bytesWritten + n, inode))
  else
    pure (.leave st)

/-- `ext2::WriteFile`: what is returned, and the inode. -/
def writeFile (e : Env) (inode : Inode) (buf : Bytes) (count offset n : Nat) :
    Io (Int × Inode) := do
  if inode.isDir then
    pure (-2, inode)
  else do
    let newSize := u64 (offset + count)
    let inode := if newSize > inode.iSize then inode.setSize newSize else inode
    let (bytesWritten, inode) ←
      Program.loop (writeTurn e buf offset count) .outOfFuel n (0, inode)
    pure ((bytesWritten : Int), inode)

/-! ## `CreateFile` -/

/-- The path up to its last slash, and the name behind it; nothing without a slash. -/
def splitLast (path : List UInt8) : Option (List UInt8 × List UInt8) :=
  if slash ∈ path then
    let name := (path.reverse.takeWhile (· ≠ slash)).reverse
    some (path.take (path.length - name.length - 1), name)
  else
    none

/-- The path of the parent directory: the root when nothing stands before the last slash. -/
def parentOf (parentPath : List UInt8) : List UInt8 :=
  if parentPath = [] then [slash] else parentPath

/-- The first part of `CreateFile`, up to the call of `AllocInode`: the inode number and the
inode of the parent directory, and the name; or the code to return. -/
def createParent (e : Env) (path : List UInt8) (n : Nat) :
    Io (Except Int (Nat × Inode × List UInt8)) := do
  match splitLast path with
  | none => pure (.error (-2))
  | some (parentPath, name) =>
      if parentPath.length ≥ 256 then
        pure (.error (-3))
      else if name.length ≥ 256 then
        throw .outOfBounds
      else if name = [] then
        pure (.error (-4))
      else
        match ← lookupPath e (parentOf parentPath) n with
        | .error _ => pure (.error (-5))
        | .ok parentNum =>
            match ← readInode e parentNum with
            | .error _ => pure (.error (-6))
            | .ok parent =>
                if !parent.isDir then
                  pure (.error (-7))
                else
                  match ← findEntry e parent name n with
                  | .ok _ => pure (.error (-8))
                  | .error _ => pure (.ok (parentNum, parent, name))

/-- A `std::uint32_t` as an `int`. -/
def asInt (n : Nat) : Int := Int.bmod n (2 ^ 32)

/-- The inode of a new file. -/
def newInode (mode : Nat) : Inode :=
  Inode.setLinksCount (Inode.setMode ⟨fun _ => 0⟩ mode) 1

/-- `ext2::CreateFile`: the number of the new inode, or a negative code. -/
def createFile (e : Env) (path : List UInt8) (mode n : Nat) : Io Int := do
  match ← createParent e path n with
  | .error code => pure code
  | .ok (parentNum, parent, name) => do
      let num ← allocInode e
      if num = 0 then
        pure (-9)
      else if (← writeInode e num (newInode mode)) ≠ 0 then do
        freeInode e num
        pure (-10)
      else do
        let (code, parent) ← addEntry e parent num name 1 n
        if code ≠ 0 then do
          freeInode e num
          pure (-11)
        else do
          let _ ← writeInode e parentNum (parent.setMtime 0)
          pure (asInt num)

/-! ## `DeleteFile` -/

/-- `ext2::DeleteFile` -/
def deleteFile (e : Env) (path : List UInt8) (n : Nat) : Io Int := do
  match ← lookupPath e path n with
  | .error _ => pure (-2)
  | .ok num =>
      match ← readInode e num with
      | .error _ => pure (-3)
      | .ok inode =>
          if inode.isDir then
            pure (-4)
          else
            match splitLast path with
            | none => pure (-5)
            | some (parentPath, name) =>
                if parentPath.length ≥ 256 then
                  pure (-6)
                else if name.length ≥ 256 then
                  throw .outOfBounds
                else
                  match ← lookupPath e (parentOf parentPath) n with
                  | .error _ => pure (-7)
                  | .ok parentNum =>
                      match ← readInode e parentNum with
                      | .error _ => pure (-8)
                      | .ok parent =>
                          if (← removeEntry e parent name n) ≠ 0 then
                            pure (-9)
                          else do
                            let _ ← truncateInode e inode
                            freeInode e num
                            let _ ← writeInode e parentNum (parent.setMtime 0)
                            pure 0

end InfoKernel.Ext2
