import InfoKernel.Fs.File

/-!
# What lies behind the buffers of descriptors

The descriptor of a group that does not lie in the block that descriptors are read from is taken
from the memory behind the buffer, and the calls go on with whatever they find there.  `Env.walled`
is the same kernel without that memory.  It does the same until it comes to such a descriptor:
every result that it has is the result of the kernel with the memory, whatever the memory holds.
So what is proved of a walled kernel that returns holds of all of them (`ends_over`).

Reading a file takes no descriptor at all, and the two kernels read alike.
-/

namespace InfoKernel.Ext2

open Lib

variable {e : Env}

/-! ## Calls without descriptors -/

theorem copyOut_walled : copyOut e.walled = copyOut e := by
  funext disk start size i
  rw [copyOut, copyOut]
  rfl

theorem devRead_walled : devRead e.walled = devRead e := by
  funext sector count
  rw [devRead, devRead, copyOut_walled]
  rfl

theorem readBlock_walled : readBlock e.walled = readBlock e := by
  funext x
  rw [readBlock, readBlock, devRead_walled]
  rfl

theorem readPtr_walled : readPtr e.walled = readPtr e := by
  funext x index
  rw [readPtr, readPtr, readBlock_walled]
  rfl

theorem getLevel_walled (x : Nat) (path : List (Except Fault Nat)) :
    getLevel e.walled x path = getLevel e x path := by
  induction path generalizing x with
  | nil => rfl
  | cons index rest ih =>
      rw [getLevel, getLevel, readPtr_walled]
      exact congrArg _ (funext fun y => ih y)

theorem getBlockNum_walled (inode : Inode) (block : Nat) :
    getBlockNum e.walled inode block = getBlockNum e inode block := by
  rw [getBlockNum, getBlockNum]
  simp only [getLevel_walled]

theorem readTurn_walled (inode : Inode) (offset toRead : Nat) (st : Nat × Bytes) :
    readTurn e.walled inode offset toRead st = readTurn e inode offset toRead st := by
  obtain ⟨bytesRead, out⟩ := st
  rw [readTurn, readTurn, readBlock_walled]
  simp only [getBlockNum_walled]
  rfl

theorem readFile_walled (inode : Inode) (buf : Bytes) (count offset n : Nat) :
    readFile e.walled inode buf count offset n = readFile e inode buf count offset n := by
  have hturn : ∀ toRead, readTurn e.walled inode offset toRead = readTurn e inode offset toRead :=
    fun toRead => funext (readTurn_walled inode offset toRead)
  simp only [readFile, hturn]

/-! ## Calls with descriptors -/

theorem descThere_of_walled {sb : SuperBlock} {g : Nat} (h : descThere e.walled sb g = true) :
    descThere e sb g = true := by
  rw [descThere, Bool.or_eq_true] at h ⊢
  exact .inl (h.resolve_right Bool.false_ne_true)

theorem below_readGroupDesc (g : Nat) : Below (readGroupDesc e.walled g) (readGroupDesc e g) := by
  rw [readGroupDesc, readGroupDesc, devRead_walled]
  refine Below.bind_right fun sb => Below.bind_right fun _ =>
    Below.ite (fun _ => Below.refl _) fun _ => Below.bind_right fun r => ?_
  cases r with
  | none => exact Below.refl _
  | some buf => exact Below.guard descThere_of_walled (Below.refl _)

theorem below_writeGroupDesc (g : Nat) (gd : GroupDesc) :
    Below (writeGroupDesc e.walled g gd) (writeGroupDesc e g gd) := by
  rw [writeGroupDesc, writeGroupDesc, devRead_walled]
  refine Below.bind_right fun sb => Below.bind_right fun _ =>
    Below.ite (fun _ => Below.refl _) fun _ => Below.bind_right fun r => ?_
  cases r with
  | none => exact Below.refl _
  | some buf => exact Below.guard descThere_of_walled (Below.refl _)

theorem below_setCounts (k : Kind) (g : Nat) (gd : GroupDesc) (inGroup onVolume : Nat) :
    Below (setCounts k e.walled g gd inGroup onVolume) (setCounts k e g gd inGroup onVolume) :=
  Below.bind_right fun _ => Below.bind_right fun _ =>
    (below_writeGroupDesc g _).bind fun _ => Below.refl _

theorem below_takeBit (k : Kind) (g : Nat) (gd : GroupDesc) (bitmap : Bitmap) (i : Nat) :
    Below (takeBit k e.walled g gd bitmap i) (takeBit k e g gd bitmap i) :=
  Below.bind_right fun _ => Below.ite (fun _ => Below.refl _) fun _ => Below.bind_right fun _ =>
    (below_setCounts k g gd _ _).bind fun _ => Below.refl _

theorem below_allocBitFrom (k : Kind) (n group : Nat) :
    Below (allocBitFrom k e.walled n group) (allocBitFrom k e n group) := by
  induction n generalizing group with
  | zero => exact Below.refl _
  | succ n ih =>
      rw [allocBitFrom, allocBitFrom, readBlock_walled]
      refine (below_readGroupDesc group).bind fun r => ?_
      cases r with
      | error code => exact ih (group + 1)
      | ok gd =>
          refine Below.ite (fun _ => ih (group + 1)) fun _ => Below.bind_right fun r => ?_
          cases r with
          | none => exact ih (group + 1)
          | some bitmap =>
              refine Below.bind_right fun sb => ?_
              dsimp only
              split
              · exact Below.refl _
              · exact ih (group + 1)
              · exact below_takeBit k group gd bitmap _

theorem below_allocBit (k : Kind) : Below (allocBit k e.walled) (allocBit k e) :=
  Below.bind_right fun _ => Below.ite (fun _ => Below.refl _) fun _ => Below.bind_right fun _ =>
    Below.ite (fun _ => Below.refl _) fun _ => below_allocBitFrom k _ 0

theorem below_allocBlock : Below (allocBlock e.walled) (allocBlock e) := by
  refine (below_allocBit .block).bind fun r => ?_
  cases r with
  | none => exact Below.refl _
  | some block => exact Below.refl _

theorem below_freeBit (k : Kind) (n : Nat) : Below (freeBit k e.walled n) (freeBit k e n) := by
  rw [freeBit, freeBit, readBlock_walled]
  refine Below.bind_right fun sb => Below.ite (fun _ => Below.refl _) fun _ =>
    (below_readGroupDesc _).bind fun r => ?_
  cases r with
  | error code => exact Below.refl _
  | ok gd =>
      refine Below.bind_right fun _ => Below.ite (fun _ => Below.refl _) fun _ =>
        Below.bind_right fun r => ?_
      cases r with
      | none => exact Below.refl _
      | some bitmap =>
          exact Below.ite (fun _ => Below.ite (fun _ => Below.bind_right fun _ =>
            below_setCounts k _ gd _ _) fun _ => Below.refl _) fun _ => Below.refl _

theorem below_freeBlock (x : Nat) : Below (freeBlock e.walled x) (freeBlock e x) :=
  Below.ite (fun _ => Below.refl _) fun _ => below_freeBit .block x

theorem below_linkPtr (num x : Nat) (index : Except Fault Nat) :
    Below (linkPtr e.walled num x index) (linkPtr e num x index) := by
  rw [linkPtr, linkPtr, readBlock_walled]
  refine Below.bind_right fun _ => Below.ite (fun _ => Below.refl _) fun _ =>
    Below.bind_right fun r => ?_
  cases r with
  | none => exact Below.refl _
  | some buf =>
      refine Below.bind_right fun sb => ?_
      dsimp only
      split
      · exact Below.refl _
      · exact Below.ite (fun _ => Below.ite (fun _ => Below.refl _) fun _ =>
          below_allocBlock.bind fun _ => Below.refl _) fun _ => Below.refl _

theorem storePtr_walled : storePtr e.walled = storePtr e := by
  funext num x index
  rw [storePtr, storePtr, readBlock_walled]
  rfl

theorem below_setLevel (num x : Nat) (path : List (Except Fault Nat)) :
    Below (setLevel e.walled num x path) (setLevel e num x path) := by
  induction path generalizing x with
  | nil => exact Below.refl _
  | cons index rest ih =>
      cases rest with
      | nil =>
          rw [setLevel, setLevel, storePtr_walled]
          exact Below.refl _
      | cons index' rest =>
          refine (below_linkPtr num x index).bind fun r => ?_
          cases r with
          | error code => exact Below.refl _
          | ok child => exact ih child

theorem below_setBlockNum (inode : Inode) (block num : Nat) :
    Below (setBlockNum e.walled inode block num) (setBlockNum e inode block num) := by
  refine Below.bind_right fun sb => Below.ite (fun _ => Below.refl _) fun _ =>
    Below.ite (fun _ => Below.ite (fun _ => Below.refl _) fun _ => ?_) fun _ => ?_
  · exact below_allocBlock.bind fun x => Below.ite (fun _ => Below.refl _) fun _ =>
      (below_setLevel num x _).bind fun _ => Below.refl _
  · exact (below_setLevel num _ _).bind fun _ => Below.refl _

theorem below_writeTarget (inode : Inode) (blockIndex : Nat) :
    Below (writeTarget e.walled inode blockIndex) (writeTarget e inode blockIndex) := by
  rw [writeTarget, writeTarget, getBlockNum_walled]
  refine Below.bind_right fun _ => Below.ite (fun _ => ?_) fun _ => Below.refl _
  exact below_allocBlock.bind fun blockNum => Below.ite (fun _ => Below.refl _) fun _ =>
    (below_setBlockNum inode blockIndex blockNum).bind fun _ => Below.refl _

theorem below_writeTurn (buf : Bytes) (offset count : Nat) (st : Nat × Inode) :
    Below (writeTurn e.walled buf offset count st) (writeTurn e buf offset count st) := by
  obtain ⟨bytesWritten, inode⟩ := st
  rw [writeTurn, writeTurn, readBlock_walled]
  refine Below.ite (fun _ => Below.bind_right fun sb =>
    Below.ite (fun _ => Below.refl _) fun _ => ?_)
    fun _ => Below.refl _
  exact (below_writeTarget inode _).bind fun _ => Below.refl _

theorem below_writeFile (inode : Inode) (buf : Bytes) (count offset n : Nat) :
    Below (writeFile e.walled inode buf count offset n) (writeFile e inode buf count offset n) :=
  Below.ite (fun _ => Below.refl _) fun _ =>
    (Below.loop (below_writeTurn buf offset count) n _).bind fun _ => Below.refl _

theorem below_freeDirect (fileBlocks left i : Nat) (inode : Inode) :
    Below (freeDirect e.walled fileBlocks left i inode) (freeDirect e fileBlocks left i inode) := by
  induction left generalizing i inode with
  | zero => exact Below.refl _
  | succ left ih =>
      exact Below.ite (fun _ => (below_freeBlock _).bind fun _ => ih _ _) fun _ => ih _ _

theorem below_freePtrs (buf : Bytes) (fileBlocks first left i : Nat) :
    Below (freePtrs e.walled buf fileBlocks first left i)
      (freePtrs e buf fileBlocks first left i) := by
  induction left generalizing i with
  | zero => exact Below.refl _
  | succ left ih =>
      rw [freePtrs, freePtrs]
      dsimp only
      split
      · exact (below_freeBlock _).bind fun _ => ih _
      · exact ih _

theorem below_freeIndirect (p fileBlocks first x : Nat) :
    Below (freeIndirect e.walled p fileBlocks first x) (freeIndirect e p fileBlocks first x) := by
  rw [freeIndirect, freeIndirect, readBlock_walled]
  refine Below.bind_right fun page => ?_
  dsimp only
  split
  · refine Below.bind_right fun r => ?_
    cases r with
    | none => exact below_freeBlock x
    | some buf => exact (below_freePtrs buf fileBlocks first p 0).bind fun _ => below_freeBlock x
  · exact below_freeBlock x

theorem below_freeIndirects (buf : Bytes) (p fileBlocks left i : Nat) :
    Below (freeIndirects e.walled buf p fileBlocks left i)
      (freeIndirects e buf p fileBlocks left i) := by
  induction left generalizing i with
  | zero => exact Below.refl _
  | succ left ih =>
      rw [freeIndirects, freeIndirects]
      dsimp only
      split
      · exact (below_freeIndirect _ _ _ _).bind fun _ => ih _
      · exact ih _

theorem below_freeDoubleIndirect (p fileBlocks x : Nat) :
    Below (freeDoubleIndirect e.walled p fileBlocks x) (freeDoubleIndirect e p fileBlocks x) := by
  rw [freeDoubleIndirect, freeDoubleIndirect, readBlock_walled]
  refine Below.bind_right fun page => ?_
  dsimp only
  split
  · refine Below.bind_right fun r => ?_
    cases r with
    | none => exact below_freeBlock x
    | some buf => exact (below_freeIndirects buf p fileBlocks p 0).bind fun _ => below_freeBlock x
  · exact below_freeBlock x

theorem below_freeTree {free free' : Nat → Io PUnit} (h : ∀ x, Below (free x) (free' x))
    (slot : Nat) (inode : Inode) : Below (freeTree free slot inode) (freeTree free' slot inode) :=
  Below.ite (fun _ => (h _).bind fun _ => Below.refl _) fun _ => Below.refl _

theorem below_truncateInode (inode : Inode) :
    Below (truncateInode e.walled inode) (truncateInode e inode) :=
  Below.bind_right fun _ => Below.ite (fun _ => Below.refl _) fun _ =>
    (below_freeDirect _ _ _ _).bind fun _ =>
      (below_freeTree (below_freeIndirect _ _ _) _ _).bind fun _ =>
        (below_freeTree (below_freeDoubleIndirect _ _) _ _).bind fun _ =>
          (below_freeTree below_freeBlock _ _).bind fun _ => Below.refl _

theorem below_inodeSlot (num : Nat) : Below (inodeSlot e.walled num) (inodeSlot e num) :=
  Below.bind_right fun _ => Below.ite (fun _ => Below.refl _) fun _ =>
    Below.ite (fun _ => Below.refl _) fun _ => (below_readGroupDesc _).bind fun _ => Below.refl _

theorem below_readInode (num : Nat) : Below (readInode e.walled num) (readInode e num) := by
  rw [readInode, readInode, readBlock_walled]
  exact Below.ite (fun _ => Below.refl _) fun _ => (below_inodeSlot num).bind fun _ => Below.refl _

theorem below_writeInode (num : Nat) (inode : Inode) :
    Below (writeInode e.walled num inode) (writeInode e num inode) := by
  rw [writeInode, writeInode, readBlock_walled]
  exact Below.ite (fun _ => Below.refl _) fun _ => (below_inodeSlot num).bind fun _ => Below.refl _

/-- **Whatever the memory holds**: what a call has as a result without it, it has with it. -/
theorem ends_over {α : Type} {x : Env → Io α} {s : State} {F : Fault → Prop} {P : α → State → Prop}
    {Q : Env → α → State → Prop} (hx : ∀ e, Below (x e.walled) (x e))
    (h : Ends (x e.walled) s F P) (hQ : ∀ mapped a t, P a t → Q (e.over mapped) a t) :
    Ends (x e.walled) s F fun a t =>
      ∀ mapped, x (e.over mapped) s = .ok (a, t) ∧ Q (e.over mapped) a t := by
  rw [Ends] at h ⊢
  cases hres : x e.walled s with
  | error f =>
      rw [hres] at h
      exact h
  | ok r =>
      rw [hres] at h
      exact fun mapped => ⟨hx (e.over mapped) hres, hQ mapped _ _ h⟩

end InfoKernel.Ext2
