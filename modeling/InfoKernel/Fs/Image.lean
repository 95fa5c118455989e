import InfoKernel.Fs.File
import InfoKernel.Fs.BlockMap
import InfoKernel.Fs.SmallVolume

/-!
# Images that are accepted

`ReadSuperBlock` accepts every image with the right magic number, and the functions that are
called on the volume afterwards divide by its fields, shift by one of them and index the buffers
of bitmaps and inode tables up to others.  `Image.Sound` collects what they need:

* blocks of at most 128 KiB, since the square of the number of pointers in a block, by which the
  third tree of the block map divides, is `0` in 32 bits for larger ones;
* groups that are not empty and whose bits fit in one block;
* inodes that are not empty, and of which the last in a block still has 128 bytes there.

No call on a sound image breaks on any device, whatever reads, writes and allocations fail
(`Image.Sound.stays`), and an image that is not sound breaks one of the calls on a device on
which none fails (`neverBreaks_iff_sound`).  What a call does behind the block of the descriptors
or behind a pointer block are faults of their own, which this module leaves aside.
-/

namespace InfoKernel.Ext2

open Lib

/-! ## The calls -/

/-- The calls on a volume, with their arguments. -/
inductive Op where
  | allocBlock
  | freeBlock (block : Nat)
  | allocInode
  | freeInode (inode : Nat)
  | readInode (num : Nat)
  | writeInode (num : Nat) (inode : Inode)
  | getBlockNum (inode : Inode) (block : Nat)
  | setBlockNum (inode : Inode) (block num : Nat)
  | readFile (inode : Inode) (buf : Bytes) (count offset fuel : Nat)
  | writeFile (inode : Inode) (buf : Bytes) (count offset fuel : Nat)

namespace Op

/-- The numbers are those of their types in the source. -/
def InRange : Op → Prop
  | freeBlock block => block < 2 ^ 32
  | freeInode inode => inode < 2 ^ 32
  | readInode num => num < 2 ^ 32
  | writeInode num _ => num < 2 ^ 32
  | getBlockNum _ block => block < 2 ^ 32
  | setBlockNum _ block num => block < 2 ^ 32 ∧ num < 2 ^ 32
  | readFile _ _ count offset _ => count < 2 ^ 64 ∧ offset < 2 ^ 64
  | writeFile _ _ count offset _ => count < 2 ^ 64 ∧ offset < 2 ^ 64
  | _ => True

/-- The call, without what it returns. -/
def run (e : Env) : Op → Io PUnit
  | allocBlock => do let _ ← Ext2.allocBlock e
  | freeBlock block => Ext2.freeBlock e block
  | allocInode => do let _ ← Ext2.allocInode e
  | freeInode inode => Ext2.freeInode e inode
  | readInode num => do let _ ← Ext2.readInode e num
  | writeInode num inode => do let _ ← Ext2.writeInode e num inode
  | getBlockNum inode block => do let _ ← Ext2.getBlockNum e inode block
  | setBlockNum inode block num => do let _ ← Ext2.setBlockNum e inode block num
  | readFile inode buf count offset fuel => do let _ ← Ext2.readFile e inode buf count offset fuel
  | writeFile inode buf count offset fuel => do
      let _ ← Ext2.writeFile e inode buf count offset fuel

/-- A call that returns. -/
def Step (e : Env) (s : State) (op : Op) (t : State) : Prop :=
  op.InRange ∧ op.run e s = .ok (⟨⟩, t)

end Op

/-- Neither a division by zero nor an index behind a bitmap or a block of an inode table. -/
def Fault.Harmless (f : Fault) : Prop := f ≠ .divByZero ∧ f ≠ .outOfBlock

/-- The image never breaks a call: `1024 << s_log_block_size` fits in 32 bits; and wherever it is
accepted and whatever calls follow, the next call neither divides by zero nor leaves a bitmap
or a block of an inode table. -/
structure SuperBlock.NeverBreaks (sb : SuperBlock) : Prop where
  shift : 1024 * 2 ^ sb.sLogBlockSize < 2 ^ 32
  calls {e : Env} {s t u : State} {ops : List Op} {op : Op} {f : Fault} :
    readSuperBlock e s = .ok (.ok sb, t) → Run (Op.Step e) { t with super := sb } ops u →
      op.InRange → op.run e u = .error f → Fault.Harmless f

/-- What the calls need of an image. -/
structure SuperBlock.Sound (sb : SuperBlock) : Prop where
  log_le : sb.sLogBlockSize ≤ 7
  per_pos (k : Kind) : 0 < k.perGroup sb
  per_le (k : Kind) : k.perGroup sb ≤ 8 * sb.blockSize
  inodeSize_pos : 0 < sb.sInodeSize
  inodeSize_le : sb.sInodeSize ≤ sb.blockSize
  last_fits : (min (sb.blockSize / sb.sInodeSize) sb.sInodesPerGroup - 1) * sb.sInodeSize +
    Inode.size ≤ sb.blockSize

variable {e : Env} {sb sb' : SuperBlock}

theorem blockSize_of_shift (h : 1024 * 2 ^ sb.sLogBlockSize < 2 ^ 32) :
    sb.blockSize = 2 ^ (10 + sb.sLogBlockSize) := by
  rw [SuperBlock.blockSize, u32, Nat.mod_eq_of_lt h, Nat.pow_add]

theorem blockSize_pos_of_shift (h : 1024 * 2 ^ sb.sLogBlockSize < 2 ^ 32) : 0 < sb.blockSize := by
  rw [blockSize_of_shift h]
  exact Nat.two_pow_pos _

theorem ptrsPerBlock_of_shift (h : 1024 * 2 ^ sb.sLogBlockSize < 2 ^ 32) :
    sb.ptrsPerBlock = 2 ^ (8 + sb.sLogBlockSize) := by
  rw [SuperBlock.ptrsPerBlock, blockSize_of_shift h, show 10 + sb.sLogBlockSize =
    8 + sb.sLogBlockSize + 2 by omega, Nat.pow_add _ _ 2]
  exact Nat.mul_div_cancel _ (by decide)

namespace SuperBlock.Sound

theorem of_geometry (h : sb.Sound) (hg : sb.SameGeometry sb') : sb'.Sound where
  log_le := hg.logBlockSize ▸ h.log_le
  per_pos k := by
    rw [k.perGroup_congr hg]
    exact h.per_pos k
  per_le k := by
    rw [k.perGroup_congr hg, hg.blockSize]
    exact h.per_le k
  inodeSize_pos := hg.inodeSize ▸ h.inodeSize_pos
  inodeSize_le := by
    rw [hg.inodeSize, hg.blockSize]
    exact h.inodeSize_le
  last_fits := by
    rw [hg.inodeSize, hg.blockSize, hg.inodesPerGroup]
    exact h.last_fits

variable (h : sb.Sound)

include h

theorem shift_fits : 1024 * 2 ^ sb.sLogBlockSize < 2 ^ 32 := by
  have hle := h.log_le
  rw [← Nat.pow_add 2 10]
  exact Nat.pow_lt_pow_right (by decide) (by omega)

theorem blockSize_pos : 0 < sb.blockSize := blockSize_pos_of_shift h.shift_fits

/-- The square of the number of pointers fits in 32 bits. -/
theorem ptrs_square : sb.ptrsPerBlock * sb.ptrsPerBlock < 2 ^ 32 := by
  have hle := h.log_le
  rw [ptrsPerBlock_of_shift h.shift_fits, ← Nat.pow_add]
  exact Nat.pow_lt_pow_right (by decide) (by omega)

/-- No inode leaves its block. -/
theorem offset_fits {i : Nat} (hi : i < sb.sInodesPerGroup) :
    i % (sb.blockSize / sb.sInodeSize) * sb.sInodeSize + Inode.size ≤ sb.blockSize := by
  have hpos : 0 < sb.blockSize / sb.sInodeSize := Nat.div_pos h.inodeSize_le h.inodeSize_pos
  have hmod := Nat.mod_lt i hpos
  have hle := Nat.mod_le i (sb.blockSize / sb.sInodeSize)
  have hlast : i % (sb.blockSize / sb.sInodeSize) ≤
      min (sb.blockSize / sb.sInodeSize) sb.sInodesPerGroup - 1 := by omega
  exact Nat.le_trans (Nat.add_le_add_right (Nat.mul_le_mul_right _ hlast) _) h.last_fits

end SuperBlock.Sound

/-! ## The calls on a sound image -/

/-- The program keeps the geometry of the image, and breaks nowhere. -/
abbrev Safe (sb : SuperBlock) {α : Type} (x : Io α) : Prop :=
  Stays Fault.Harmless (fun s => sb.SameGeometry s.super) x

theorem harmless_outOfBounds : Fault.Harmless .outOfBounds := ⟨nofun, nofun⟩

theorem harmless_outOfFuel : Fault.Harmless .outOfFuel := ⟨nofun, nofun⟩

theorem safe_super {α : Type} {f : SuperBlock → Io α}
    (hf : ∀ sb', sb.SameGeometry sb' → Safe sb (f sb')) : Safe sb (super >>= f) :=
  fun s hs => hf s.super hs s hs

theorem safe_pageAlloc (e : Env) : Safe sb (pageAlloc e) := fun _ hs => hs

theorem safe_devRead (e : Env) (sector count : Nat) : Safe sb (devRead e sector count) := by
  have htick : Safe sb tick := fun _ hs => hs
  refine htick.bind fun t => Stays.ite (fun _ => Stays.pure _) fun _ _ hs => hs

theorem safe_devWrite (e : Env) (sector count : Nat) (buf : Bytes) :
    Safe sb (devWrite e sector count buf) := by
  have htick : Safe sb tick := fun _ hs => hs
  refine htick.bind fun t => Stays.ite (fun _ => Stays.pure _) fun _ _ hs => hs

theorem safe_readBlock (e : Env) (x : Nat) : Safe sb (readBlock e x) :=
  safe_super fun _ _ => safe_devRead e _ _

theorem safe_writeBlock (e : Env) (x : Nat) (buf : Bytes) : Safe sb (writeBlock e x buf) :=
  safe_super fun _ _ => safe_devWrite e _ _ buf

theorem safe_readGroupDesc (e : Env) (group : Nat) : Safe sb (readGroupDesc e group) := by
  refine safe_super fun sb' _ => (safe_pageAlloc e).bind fun _ => ?_
  refine Stays.ite (fun _ => Stays.pure _) fun _ => (safe_devRead e _ _).bind fun r => ?_
  cases r with
  | none => exact Stays.pure _
  | some buf => exact Stays.ite (fun _ => Stays.pure _) fun _ => Stays.throw harmless_outOfBounds

theorem safe_writeGroupDesc (e : Env) (group : Nat) (gd : GroupDesc) :
    Safe sb (writeGroupDesc e group gd) := by
  refine safe_super fun sb' _ => (safe_pageAlloc e).bind fun _ => ?_
  refine Stays.ite (fun _ => Stays.pure _) fun _ => (safe_devRead e _ _).bind fun r => ?_
  cases r with
  | none => exact Stays.pure _
  | some buf =>
      refine Stays.ite (fun _ => ?_) fun _ => Stays.throw harmless_outOfBounds
      exact (safe_devWrite e _ _ _).bind fun _ =>
        Stays.ite (fun _ => Stays.pure _) fun _ => Stays.pure _

theorem safe_writeSuperBlock (e : Env) : Safe sb (writeSuperBlock e) := by
  refine safe_super fun sb' _ => (safe_pageAlloc e).bind fun _ => ?_
  refine Stays.ite (fun _ => Stays.pure _) fun _ => (safe_devWrite e _ _ _).bind fun _ => ?_
  exact Stays.ite (fun _ => Stays.pure _) fun _ => Stays.pure _

theorem safe_setCounts (k : Kind) (e : Env) (group : Nat) (gd : GroupDesc)
    (inGroup onVolume : Nat) : Safe sb (setCounts k e group gd inGroup onVolume) := by
  refine safe_super fun sb' hsb => ?_
  have hset : Safe sb (setSuper (k.setSuperFree sb' onVolume)) :=
    fun _ _ => hsb.trans k.sameGeometry_setSuperFree
  exact hset.bind fun _ => (safe_writeGroupDesc e _ _).bind fun _ =>
    (safe_writeSuperBlock e).bind fun _ => Stays.pure _

theorem safe_takeBit (k : Kind) (e : Env) (group : Nat) (gd : GroupDesc) (bitmap : Bitmap)
    (i : Nat) : Safe sb (takeBit k e group gd bitmap i) := by
  refine (safe_writeBlock e _ _).bind fun _ => Stays.ite (fun _ => Stays.pure _) fun _ => ?_
  exact safe_super fun sb' _ => (safe_setCounts k e _ _ _ _).bind fun _ => Stays.pure _

section Sound

variable (h : sb.Sound)

include h

/-! ### Bitmaps -/

/-- The search stays in the bitmap. -/
theorem safe_allocBitFrom (k : Kind) (e : Env) (left group : Nat) :
    Safe sb (allocBitFrom k e left group) := by
  induction left generalizing group with
  | zero => exact Stays.pure _
  | succ left ih =>
      refine (safe_readGroupDesc e group).bind fun r => ?_
      cases r with
      | error code => exact ih (group + 1)
      | ok gd =>
          refine Stays.ite (fun _ => ih (group + 1)) fun _ => (safe_readBlock e _).bind fun r => ?_
          cases r with
          | none => exact ih (group + 1)
          | some bitmap =>
              refine safe_super fun sb' hsb => ?_
              have hle := (h.of_geometry hsb).per_le k
              obtain ⟨r, hr, -⟩ := findClear_spec (k := k) bitmap (group * k.perGroup sb')
                (show k.perGroup sb' - k.first sb' (group * k.perGroup sb') = 0 ∨
                  k.first sb' (group * k.perGroup sb') + (k.perGroup sb' -
                    k.first sb' (group * k.perGroup sb')) ≤ 8 * sb'.blockSize by omega)
              simp only [hr]
              cases r with
              | none => exact ih (group + 1)
              | some i => exact safe_takeBit k e group gd bitmap i

theorem safe_allocBit (k : Kind) (e : Env) : Safe sb (allocBit k e) := by
  refine safe_super fun sb' hsb => ?_
  rw [if_neg (Nat.ne_of_gt ((h.of_geometry hsb).per_pos k))]
  exact (safe_pageAlloc e).bind fun _ => Stays.ite (fun _ => Stays.pure _) fun _ =>
    safe_allocBitFrom h k e _ _

theorem safe_freeBit (k : Kind) (e : Env) (n : Nat) : Safe sb (freeBit k e n) := by
  refine safe_super fun sb' hsb => ?_
  rw [if_neg (Nat.ne_of_gt ((h.of_geometry hsb).per_pos k))]
  refine (safe_readGroupDesc e _).bind fun r => ?_
  cases r with
  | error code => exact Stays.pure _
  | ok gd =>
      refine (safe_pageAlloc e).bind fun _ => Stays.ite (fun _ => Stays.pure _) fun _ => ?_
      refine (safe_readBlock e _).bind fun r => ?_
      cases r with
      | none => exact Stays.pure _
      | some bitmap =>
          have hle := (h.of_geometry hsb).per_le k
          have hlt := Nat.mod_lt n ((h.of_geometry hsb).per_pos k)
          refine Stays.ite (fun _ => ?_) fun hout => absurd (by omega) hout
          exact Stays.ite (fun _ => (safe_writeBlock e _ _).bind fun _ =>
            safe_setCounts k e _ _ _ _)
            fun _ => Stays.pure _

theorem safe_allocBlock (e : Env) : Safe sb (allocBlock e) := by
  have hreturned : ∀ block, Safe sb (returned block) := fun _ _ hs => hs
  refine (safe_allocBit h .block e).bind fun r => ?_
  cases r with
  | none => exact hreturned 0
  | some block =>
      refine (safe_pageAlloc e).bind fun _ => Stays.ite (fun _ => ?_) fun _ => hreturned block
      exact (safe_writeBlock e _ _).bind fun _ => hreturned block

theorem safe_allocInode (e : Env) : Safe sb (allocInode e) := by
  refine (safe_allocBit h .inode e).bind fun r => ?_
  cases r with
  | none => exact Stays.pure _
  | some n => exact Stays.pure _

theorem safe_freeBlock (e : Env) (block : Nat) : Safe sb (freeBlock e block) :=
  Stays.ite (fun _ => Stays.pure _) fun _ => safe_freeBit h .block e block

theorem safe_freeInode (e : Env) (inode : Nat) : Safe sb (freeInode e inode) :=
  Stays.ite (fun _ => Stays.pure _) fun _ => safe_freeBit h .inode e _

/-! ### Inodes -/

/-- The offset that is computed leaves room for an inode. -/
theorem inodeSlot_safe (e : Env) (num : Nat) (s : State) (hs : sb.SameGeometry s.super) :
    Ends (inodeSlot e num) s Fault.Harmless fun r t => sb.SameGeometry t.super ∧
      ∀ slot, r = .ok slot → slot.2 + Inode.size ≤ sb.blockSize := by
  have hsound := h.of_geometry hs
  have hper : 0 < s.super.sInodesPerGroup := hsound.per_pos .inode
  have hpos : 0 < s.super.blockSize / s.super.sInodeSize :=
    Nat.div_pos hsound.inodeSize_le hsound.inodeSize_pos
  refine Ends.step (t := s) rfl ?_
  rw [if_neg (Nat.ne_of_gt hsound.inodeSize_pos), if_neg (Nat.ne_of_gt hper)]
  refine Ends.bind (safe_readGroupDesc e _ s hs) fun r t ht => ?_
  cases r with
  | error code => exact Ends.pure ⟨ht, nofun⟩
  | ok gd =>
      simp only [if_neg (Nat.ne_of_gt hpos)]
      refine Ends.pure ⟨ht, fun slot hslot => ?_⟩
      cases hslot
      rw [← hs.blockSize]
      exact hsound.offset_fits (Nat.mod_lt _ hper)

theorem safe_readInode (e : Env) (num : Nat) : Safe sb (readInode e num) := by
  refine Stays.ite (fun _ => Stays.pure _) fun _ => Stays.bind_of (inodeSlot_safe h e num) ?_
  intro r hr
  cases r with
  | error code => exact Stays.pure _
  | ok slot =>
      refine (safe_pageAlloc e).bind fun _ => Stays.ite (fun _ => Stays.pure _) fun _ => ?_
      refine (safe_readBlock e _).bind fun r => ?_
      cases r with
      | none => exact Stays.pure _
      | some buf =>
          refine safe_super fun sb' hsb => Stays.ite (fun _ => Stays.pure _) fun hout => ?_
          rw [hsb.blockSize] at hout
          exact absurd (hr slot rfl) hout

theorem safe_writeInode (e : Env) (num : Nat) (inode : Inode) :
    Safe sb (writeInode e num inode) := by
  refine Stays.ite (fun _ => Stays.pure _) fun _ => Stays.bind_of (inodeSlot_safe h e num) ?_
  intro r hr
  cases r with
  | error code => exact Stays.pure _
  | ok slot =>
      refine (safe_pageAlloc e).bind fun _ => Stays.ite (fun _ => Stays.pure _) fun _ => ?_
      refine (safe_readBlock e _).bind fun r => ?_
      cases r with
      | none => exact Stays.pure _
      | some buf =>
          refine safe_super fun sb' hsb => Stays.ite (fun _ => ?_) fun hout => ?_
          · exact (safe_writeBlock e _ _).bind fun _ =>
              Stays.ite (fun _ => Stays.pure _) fun _ => Stays.pure _
          · rw [hsb.blockSize] at hout
            exact absurd (hr slot rfl) hout

/-! ### Block maps -/

/-- An index that the source computes without dividing by zero. -/
def Computed (index : Except Fault Nat) : Prop := ∃ i, index = .ok i

omit h in
theorem pointerAt_harmless {size : Nat} {index : Except Fault Nat} {f : Fault}
    (hi : Computed index) (hf : pointerAt size index = .error f) : Fault.Harmless f := by
  obtain ⟨i, rfl⟩ := hi
  rw [pointerAt] at hf
  split at hf
  · cases hf
  · cases hf
    exact harmless_outOfBounds

/-- No way to a block divides by zero. -/
theorem computed_blockPath (hsb : sb.SameGeometry sb') (block : Nat) :
    ∀ index ∈ (blockPath sb'.ptrsPerBlock block).2, Computed index := by
  have hsound := h.of_geometry hsb
  intro index hi
  rw [blockPath_of_reached (ptrsPerBlock_pos hsound.blockSize_pos) (.inl hsound.ptrs_square)] at hi
  obtain ⟨i, -, rfl⟩ := List.mem_map.mp hi
  exact ⟨i, rfl⟩

omit h in
theorem safe_readPtr (e : Env) (x : Nat) {index : Except Fault Nat} (hi : Computed index) :
    Safe sb (readPtr e x index) := by
  refine Stays.ite (fun _ => Stays.pure _) fun _ => (safe_pageAlloc e).bind fun _ => ?_
  refine Stays.ite (fun _ => Stays.pure _) fun _ => (safe_readBlock e x).bind fun r => ?_
  cases r with
  | none => exact Stays.pure _
  | some buf =>
      refine safe_super fun sb' _ => ?_
      cases hp : pointerAt sb'.blockSize index with
      | error f => exact Stays.throw (pointerAt_harmless hi hp)
      | ok i => exact Stays.pure _

omit h in
theorem safe_getLevel (e : Env) (x : Nat) {path : List (Except Fault Nat)}
    (hpath : ∀ index ∈ path, Computed index) : Safe sb (getLevel e x path) := by
  induction path generalizing x with
  | nil => exact Stays.pure _
  | cons index rest ih =>
      exact (safe_readPtr e x (hpath index List.mem_cons_self)).bind fun y =>
        ih y fun i hi => hpath i (List.mem_cons_of_mem index hi)

theorem safe_getBlockNum (e : Env) (inode : Inode) (block : Nat) :
    Safe sb (getBlockNum e inode block) :=
  safe_super fun _ hsb => safe_getLevel e _ (computed_blockPath h hsb block)

omit h in
theorem safe_storePtr (e : Env) (num x : Nat) {index : Except Fault Nat} (hi : Computed index) :
    Safe sb (storePtr e num x index) := by
  refine (safe_pageAlloc e).bind fun _ => Stays.ite (fun _ => Stays.pure _) fun _ => ?_
  refine (safe_readBlock e x).bind fun r => ?_
  cases r with
  | none => exact Stays.pure _
  | some buf =>
      refine safe_super fun sb' _ => ?_
      cases hp : pointerAt sb'.blockSize index with
      | error f => exact Stays.throw (pointerAt_harmless hi hp)
      | ok i =>
          exact (safe_writeBlock e _ _).bind fun _ =>
            Stays.ite (fun _ => Stays.pure _) fun _ => Stays.pure _

theorem safe_linkPtr (e : Env) (num x : Nat) {index : Except Fault Nat} (hi : Computed index) :
    Safe sb (linkPtr e num x index) := by
  have hwrite : ∀ buf child, Safe sb (do
      if !(← writeBlock e x buf) then
        pure (.error (-5))
      else
        pure (.ok child) : Io (Except Int Nat)) := fun buf child =>
    (safe_writeBlock e x buf).bind fun _ => Stays.ite (fun _ => Stays.pure _) fun _ => Stays.pure _
  refine (safe_pageAlloc e).bind fun _ => Stays.ite (fun _ => Stays.pure _) fun _ => ?_
  refine (safe_readBlock e x).bind fun r => ?_
  cases r with
  | none => exact Stays.pure _
  | some buf =>
      refine safe_super fun sb' _ => ?_
      cases hp : pointerAt sb'.blockSize index with
      | error f => exact Stays.throw (pointerAt_harmless hi hp)
      | ok i =>
          refine Stays.ite (fun _ => ?_) fun _ => hwrite _ _
          refine Stays.ite (fun _ => Stays.pure _) fun _ =>
            (safe_allocBlock h e).bind fun child => ?_
          exact Stays.ite (fun _ => Stays.pure _) fun _ => hwrite _ _

theorem safe_setLevel (e : Env) (num x : Nat) {path : List (Except Fault Nat)}
    (hpath : ∀ index ∈ path, Computed index) : Safe sb (setLevel e num x path) := by
  induction path generalizing x with
  | nil => exact Stays.pure _
  | cons index rest ih =>
      have hi := hpath index List.mem_cons_self
      cases rest with
      | nil => exact safe_storePtr e num x hi
      | cons next rest =>
          refine (safe_linkPtr h e num x hi).bind fun r => ?_
          cases r with
          | error code => exact Stays.pure _
          | ok child => exact ih child fun i hi => hpath i (List.mem_cons_of_mem index hi)

theorem safe_setBlockNum (e : Env) (inode : Inode) (block num : Nat) :
    Safe sb (setBlockNum e inode block num) := by
  refine safe_super fun sb' hsb => ?_
  have hpath := computed_blockPath h hsb block
  refine Stays.ite (fun _ => Stays.pure _) fun _ => Stays.ite (fun _ => ?_) fun _ => ?_
  · refine Stays.ite (fun _ => Stays.pure _) fun _ => (safe_allocBlock h e).bind fun x => ?_
    exact Stays.ite (fun _ => Stays.pure _) fun _ =>
      (safe_setLevel h e num x hpath).bind fun _ => Stays.pure _
  · exact (safe_setLevel h e num _ hpath).bind fun _ => Stays.pure _

/-! ### Files -/

theorem safe_readTurn (e : Env) (inode : Inode) (offset toRead : Nat) (st : Nat × Bytes) :
    Safe sb (readTurn e inode offset toRead st) := by
  refine Stays.ite (fun _ => safe_super fun sb' hsb => ?_) fun _ => Stays.pure _
  rw [if_neg (Nat.ne_of_gt (h.of_geometry hsb).blockSize_pos)]
  refine (safe_getBlockNum h e inode _).bind fun blockNum => ?_
  refine Stays.ite (fun _ => Stays.pure _) fun _ => (safe_pageAlloc e).bind fun _ => ?_
  refine Stays.ite (fun _ => Stays.pure _) fun _ => (safe_readBlock e _).bind fun r => ?_
  cases r with
  | none => exact Stays.pure _
  | some buf => exact Stays.pure _

theorem safe_readFile (e : Env) (inode : Inode) (buf : Bytes) (count offset n : Nat) :
    Safe sb (readFile e inode buf count offset n) := by
  refine Stays.ite (fun _ => Stays.pure _) fun _ => Stays.ite (fun _ => Stays.pure _) fun _ => ?_
  exact (Stays.loop (safe_readTurn h e inode offset _) harmless_outOfFuel n _).bind fun _ =>
    Stays.pure _

theorem safe_writeTarget (e : Env) (inode : Inode) (blockIndex : Nat) :
    Safe sb (writeTarget e inode blockIndex) := by
  refine (safe_getBlockNum h e inode blockIndex).bind fun blockNum => ?_
  refine Stays.ite (fun _ => ?_) fun _ => Stays.pure _
  refine (safe_allocBlock h e).bind fun blockNum => Stays.ite (fun _ => Stays.pure _) fun _ => ?_
  exact (safe_setBlockNum h e inode blockIndex blockNum).bind fun _ => Stays.pure _

theorem safe_writeTurn (e : Env) (buf : Bytes) (offset count : Nat) (st : Nat × Inode) :
    Safe sb (writeTurn e buf offset count st) := by
  refine Stays.ite (fun _ => safe_super fun sb' hsb => ?_) fun _ => Stays.pure _
  rw [if_neg (Nat.ne_of_gt (h.of_geometry hsb).blockSize_pos)]
  refine (safe_writeTarget h e st.2 _).bind fun target => ?_
  refine Stays.ite (fun _ => Stays.pure _) fun _ => (safe_pageAlloc e).bind fun _ => ?_
  refine Stays.ite (fun _ => Stays.pure _) fun _ => (safe_readBlock e _).bind fun r => ?_
  cases r with
  | none => exact Stays.pure _
  | some block =>
      exact (safe_writeBlock e _ _).bind fun _ =>
        Stays.ite (fun _ => Stays.pure _) fun _ => Stays.pure _

theorem safe_writeFile (e : Env) (inode : Inode) (buf : Bytes) (count offset n : Nat) :
    Safe sb (writeFile e inode buf count offset n) := by
  refine Stays.ite (fun _ => Stays.pure _) fun _ => ?_
  exact (Stays.loop (safe_writeTurn h e buf offset count) harmless_outOfFuel n _).bind fun _ =>
    Stays.pure _

/-- **No call breaks on a sound image**, whatever fails. -/
theorem SuperBlock.Sound.safe (e : Env) (op : Op) : Safe sb (op.run e) := by
  cases op with
  | allocBlock => exact (safe_allocBlock h e).bind fun _ => Stays.pure _
  | freeBlock block => exact safe_freeBlock h e block
  | allocInode => exact (safe_allocInode h e).bind fun _ => Stays.pure _
  | freeInode inode => exact safe_freeInode h e inode
  | readInode num => exact (safe_readInode h e num).bind fun _ => Stays.pure _
  | writeInode num inode => exact (safe_writeInode h e num inode).bind fun _ => Stays.pure _
  | getBlockNum inode block => exact (safe_getBlockNum h e inode block).bind fun _ => Stays.pure _
  | setBlockNum inode block num =>
      exact (safe_setBlockNum h e inode block num).bind fun _ => Stays.pure _
  | readFile inode buf count offset fuel =>
      exact (safe_readFile h e inode buf count offset fuel).bind fun _ => Stays.pure _
  | writeFile inode buf count offset fuel =>
      exact (safe_writeFile h e inode buf count offset fuel).bind fun _ => Stays.pure _

theorem SuperBlock.Sound.neverBreaks : sb.NeverBreaks where
  shift := h.shift_fits
  calls {e s t u ops op f} _ hrun _ hf := by
    have hgeo : sb.SameGeometry u.super := by
      refine hrun.invariant (I := fun s =>
        sb.SameGeometry s.super) (SuperBlock.SameGeometry.refl sb)
        fun a op b ha hstep => ?_
      exact (h.safe e op a ha).of_result hstep.2
    have hends := h.safe e op u hgeo
    rw [Ends, hf] at hends
    exact hends

end Sound

/-! ## The calls on other images -/

theorem run_error {α β : Type} {x : Io α} {g : α → Io β} {s : State} {f : Fault}
    (hx : x s = .error f) : (x >>= g) s = .error f := by
  rw [bind_apply, hx]
  rfl

/-- Every image with the magic number is accepted from some device. -/
theorem accepted (hmagic : sb.sMagic = SuperBlock.magic) :
    ∃ e s t, Env.Reliable e ∧ readSuperBlock e s = .ok (.ok sb, t) := by
  let e : Env := ⟨0, fun _ => false, fun _ => false, fun _ => false, sb.bytes, fun _ => false⟩
  let s : State := ⟨fun a => sb.bytes (a - 1024), sb, 0, false⟩
  have he : e.Reliable := ⟨fun _ => rfl, fun _ => rfl, fun _ => rfl⟩
  have hbuf : copyOut e s.disk (512 * u32 (2 + 0)) (512 * 2) = sb.bytes := by
    funext i
    rw [copyOut]
    split
    · exact congrArg sb.bytes (Nat.add_sub_cancel_left 1024 i)
    · rfl
  refine ⟨e, s, s.at 2, he, ?_⟩
  rw [readSuperBlock, bind_apply_of_ok (pageAlloc_run he)]
  simp only [Bool.not_true, Bool.false_eq_true, if_false]
  rw [bind_apply_of_ok (devRead_run he _ _)]
  show (if SuperBlock.sMagic ⟨copyOut e s.disk (512 * u32 (2 + 0)) (512 * 2)⟩ ≠ SuperBlock.magic
    then pure (.error (-5)) else pure (.ok ⟨copyOut e s.disk (512 * u32 (2 + 0)) (512 * 2)⟩) :
      Io (Except Int SuperBlock)) _ = _
  rw [hbuf, if_neg (not_not.mpr hmagic)]
  rfl

section Breaks

variable {s : State} (he : e.Reliable)

theorem allocBit_breaks {k : Kind} (hper : k.perGroup s.super = 0) :
    allocBit k e s = .error .divByZero := by
  show (if k.perGroup s.super = 0 then throw .divByZero else _ : Io (Option Nat)) s = _
  rw [if_pos hper]
  rfl

include he

/-- The first descriptor can always be read. -/
theorem readGroupDesc_zero (hsize : 0 < s.super.blockSize) :
    ∃ gd, readGroupDesc e 0 s = .ok (.ok gd, s.at (s.clock + 2)) := by
  have hle := s.super.le_blockSize hsize
  have hsz : GroupDesc.size = 32 := rfl
  refine ⟨_, (readGroupDesc_run he 0).trans (if_pos (State.Fits.descThere ?_))⟩
  show _ ≤ _
  omega

/-- Freeing a bit of the first group whose byte lies behind the block. -/
theorem freeBit_breaks {k : Kind} {n : Nat} (hsize : 0 < s.super.blockSize)
    (hn : n < k.perGroup s.super) (hout : 8 * s.super.blockSize ≤ n) :
    freeBit k e n s = .error .outOfBlock := by
  obtain ⟨gd, hgd⟩ := readGroupDesc_zero he hsize
  have hdiv : n / k.perGroup s.super = 0 := Nat.div_eq_of_lt hn
  have hmod : n % k.perGroup s.super = n := Nat.mod_eq_of_lt hn
  rw [freeBit, bind_apply_of_ok (super_run s),
    if_neg (show k.perGroup s.super ≠ 0 by omega), hdiv, hmod, bind_apply_of_ok hgd]
  simp only []
  rw [bind_apply_of_ok (pageAlloc_run he)]
  simp only [Bool.not_true, Bool.false_eq_true, if_false]
  rw [bind_apply_of_ok (readBlock_run he _)]
  simp only [if_neg (show ¬ n / 8 < s.super.blockSize by omega)]
  rfl

/-- The slot of an inode of the first group. -/
theorem inodeSlot_zero {num : Nat} (hsize : 0 < s.super.blockSize) (hinode : s.super.sInodeSize ≠ 0)
    (hlt : num - 1 < s.super.sInodesPerGroup) : ∃ block, inodeSlot e num s =
      if s.super.blockSize / s.super.sInodeSize = 0 then .error .divByZero else
        .ok (.ok (block, (num - 1) % (s.super.blockSize / s.super.sInodeSize) *
          s.super.sInodeSize), s.at (s.clock + 2)) := by
  obtain ⟨gd, hgd⟩ := readGroupDesc_zero he hsize
  have hdiv : (num - 1) / s.super.sInodesPerGroup = 0 := Nat.div_eq_of_lt hlt
  have hmod : (num - 1) % s.super.sInodesPerGroup = num - 1 := Nat.mod_eq_of_lt hlt
  refine ⟨u32 (gd.bgInodeTable + (num - 1) / (s.super.blockSize / s.super.sInodeSize)), ?_⟩
  rw [inodeSlot, bind_apply_of_ok (super_run s), if_neg hinode,
    if_neg (show s.super.sInodesPerGroup ≠ 0 by omega), hdiv, hmod, bind_apply_of_ok hgd]
  simp only []
  split <;> rfl

/-- Reading an inode of the first group that leaves its block. -/
theorem readInode_breaks (num : Nat) (hsize : 0 < s.super.blockSize)
    (hinode : s.super.sInodeSize ≠ 0) (hper : s.super.blockSize / s.super.sInodeSize ≠ 0)
    (hnum : num ≠ 0) (hlt : num - 1 < s.super.sInodesPerGroup)
    (hout : s.super.blockSize < (num - 1) % (s.super.blockSize / s.super.sInodeSize) *
      s.super.sInodeSize + Inode.size) : readInode e num s = .error .outOfBlock := by
  obtain ⟨block, hslot⟩ := inodeSlot_zero he hsize hinode hlt
  rw [if_neg hper] at hslot
  rw [readInode, if_neg hnum, bind_apply_of_ok hslot]
  simp only []
  rw [bind_apply_of_ok (pageAlloc_run he)]
  simp only [Bool.not_true, Bool.false_eq_true, if_false]
  rw [bind_apply_of_ok (readBlock_run he _)]
  simp only []
  rw [bind_apply_of_ok (super_run _), if_neg]
  · rfl
  · exact Nat.not_le.mpr hout

/-- Reading an inode where the size of an inode is `0` or larger than a block. -/
theorem readInode_divides (num : Nat) (hsize : 0 < s.super.blockSize) (hnum : num ≠ 0)
    (hlt : num - 1 < s.super.sInodesPerGroup)
    (hinode : s.super.sInodeSize = 0 ∨ s.super.blockSize < s.super.sInodeSize) :
    readInode e num s = .error .divByZero := by
  have hslot : inodeSlot e num s = .error .divByZero := by
    by_cases hzero : s.super.sInodeSize = 0
    · show (if s.super.sInodeSize = 0 then throw .divByZero else _ :
        Io (Except Int (Nat × Nat))) s = _
      rw [if_pos hzero]
      rfl
    · obtain ⟨block, hslot⟩ := inodeSlot_zero he hsize hzero hlt
      have hlarge : s.super.blockSize < s.super.sInodeSize := hinode.resolve_left hzero
      rw [hslot, if_pos (Nat.div_eq_of_lt hlarge)]
  rw [readInode, if_neg hnum, bind_apply, hslot]
  rfl

end Breaks

/-- No call breaks on the state. -/
def Unbroken (e : Env) (s : State) : Prop :=
  ∀ (op : Op) (f : Fault), op.InRange → op.run e s = .error f → Fault.Harmless f

section Unbroken

variable {s : State} (he : e.Reliable) (hshift : 1024 * 2 ^ s.super.sLogBlockSize < 2 ^ 32)
  (h : Unbroken e s)

include h

theorem Unbroken.per_pos (k : Kind) : 0 < k.perGroup s.super := by
  refine Nat.pos_of_ne_zero fun hper => ?_
  have hbreak := allocBit_breaks (e := e) hper
  cases k with
  | block => exact (h .allocBlock _ True.intro (run_error (run_error hbreak))).1 rfl
  | inode => exact (h .allocInode _ True.intro (run_error (run_error hbreak))).1 rfl

include he hshift

theorem Unbroken.per_le (k : Kind) : k.perGroup s.super ≤ 8 * s.super.blockSize := by
  by_contra hlt
  have hsize := blockSize_pos_of_shift hshift
  have hbreak := freeBit_breaks (k := k) he hsize (Nat.not_le.mp hlt) (Nat.le_refl _)
  cases k with
  | block =>
      have hper : s.super.sBlocksPerGroup < 2 ^ 32 := getLE_lt s.super.bytes 32 4
      have hlt : ¬ s.super.sBlocksPerGroup ≤ 8 * s.super.blockSize := hlt
      refine (h (.freeBlock (8 * s.super.blockSize)) _ (show _ < _ by omega) ?_).2 rfl
      rw [Op.run, freeBlock, if_neg (show 8 * s.super.blockSize ≠ 0 by omega)]
      exact hbreak
  | inode =>
      have hper : s.super.sInodesPerGroup < 2 ^ 32 := getLE_lt s.super.bytes 40 4
      have hlt : ¬ s.super.sInodesPerGroup ≤ 8 * s.super.blockSize := hlt
      refine (h (.freeInode (8 * s.super.blockSize + 1)) _ (show _ < _ by omega) ?_).2 rfl
      rw [Op.run, freeInode, if_neg (Nat.succ_ne_zero _), Nat.add_sub_cancel]
      exact hbreak

/-- The third tree is reached with a divisor that is not `0`. -/
theorem Unbroken.log_le : s.super.sLogBlockSize ≤ 7 := by
  by_contra hlog
  have hp := ptrsPerBlock_of_shift hshift
  have hlt : s.super.sLogBlockSize < 22 := by
    rw [← Nat.pow_add 2 10] at hshift
    have hexp := (Nat.pow_lt_pow_iff_right (by decide)).mp hshift
    omega
  have hreach : ¬ Reached s.super.ptrsPerBlock (ndirBlocks + s.super.ptrsPerBlock) := by
    rw [Reached, hp, ← Nat.pow_add, Nat.pow_lt_pow_iff_right (by decide)]
    omega
  have hrange : ndirBlocks + s.super.ptrsPerBlock < 2 ^ 32 := by
    have hle : 2 ^ (8 + s.super.sLogBlockSize) ≤ 2 ^ 29 :=
      Nat.pow_le_pow_right (by decide) (by omega)
    have hdir : ndirBlocks = 12 := rfl
    rw [hp]
    omega
  -- an inode with a third tree
  have hlookup := lookup_of_not_reached (e := e) he (Inode.setBlock ⟨fun _ => 0⟩ 14 1)
    (blockSize_pos_of_shift hshift) hreach
  rw [if_neg (by decide)] at hlookup
  refine (h (.getBlockNum (Inode.setBlock ⟨fun _ => 0⟩ 14 1) _) .divByZero hrange
    (run_error ?_)).1 rfl
  rw [lookup] at hlookup
  cases hrun : getBlockNum e (Inode.setBlock ⟨fun _ => 0⟩ 14 1)
      (ndirBlocks + s.super.ptrsPerBlock) s with
  | error f =>
      rw [hrun] at hlookup
      exact congrArg Except.error (Except.error.inj hlookup)
  | ok r =>
      rw [hrun] at hlookup
      cases hlookup

theorem Unbroken.inodeSize : 0 < s.super.sInodeSize ∧ s.super.sInodeSize ≤ s.super.blockSize := by
  have hper := h.per_pos .inode
  have hsize := blockSize_pos_of_shift hshift
  by_contra hnot
  have hbreak := readInode_divides he 1 hsize (by decide) hper (by omega)
  exact (h (.readInode 1) _ (show 1 < 2 ^ 32 by decide) (run_error hbreak)).1 rfl

theorem Unbroken.last_fits : (min (s.super.blockSize / s.super.sInodeSize) s.super.sInodesPerGroup -
    1) * s.super.sInodeSize + Inode.size ≤ s.super.blockSize := by
  obtain ⟨hpos, hle⟩ := h.inodeSize he hshift
  have hper : 0 < s.super.sInodesPerGroup := h.per_pos .inode
  have hsize := blockSize_pos_of_shift hshift
  have hmany : 0 < s.super.blockSize / s.super.sInodeSize := Nat.div_pos hle hpos
  have hrange : s.super.sInodesPerGroup < 2 ^ 32 := getLE_lt s.super.bytes 40 4
  by_contra hout
  obtain ⟨i, hi⟩ :
    ∃ i, i = min (s.super.blockSize / s.super.sInodeSize) s.super.sInodesPerGroup - 1 :=
    ⟨_, rfl⟩
  have hmod : (i + 1 - 1) % (s.super.blockSize / s.super.sInodeSize) = i := by
    rw [Nat.add_sub_cancel]
    exact Nat.mod_eq_of_lt (by omega)
  rw [← hi] at hout
  have hbreak := readInode_breaks he (i + 1) hsize (Nat.ne_of_gt hpos) (Nat.ne_of_gt hmany)
    (Nat.succ_ne_zero i) (by omega) (by
      rw [hmod]
      exact Nat.not_le.mp hout)
  exact (h (.readInode (i + 1)) _ (show i + 1 < 2 ^ 32 by omega) (run_error hbreak)).2 rfl

theorem Unbroken.sound : s.super.Sound where
  log_le := h.log_le he hshift
  per_pos := h.per_pos
  per_le := h.per_le he hshift
  inodeSize_pos := (h.inodeSize he hshift).1
  inodeSize_le := (h.inodeSize he hshift).2
  last_fits := h.last_fits he hshift

end Unbroken

/-- **A volume never breaks a call exactly when its image is sound.** -/
theorem neverBreaks_iff_sound (hmagic : sb.sMagic = SuperBlock.magic) :
    sb.NeverBreaks ↔ sb.Sound := by
  refine ⟨fun h => ?_, fun h => h.neverBreaks⟩
  obtain ⟨e, s, t, he, haccept⟩ := accepted hmagic
  have hcall : Unbroken e { t with super := sb } := fun _ _ hin hf =>
    h.calls haccept Run.nil hin hf
  exact Unbroken.sound (s := { t with super := sb }) he h.shift hcall

/-- The image of the small volume is sound. -/
theorem neverBreaks_small : (Small.super 1).NeverBreaks :=
  (neverBreaks_iff_sound (by decide)).mpr {
    log_le := by decide
    per_pos := by
      intro k
      cases k <;> decide
    per_le := by
      intro k
      cases k <;> decide
    inodeSize_pos := by decide
    inodeSize_le := by decide
    last_fits := by decide }

/-- An image that is `0` but for the magic number. -/
def blankImage : SuperBlock := ⟨setLE (fun _ => 0) 56 2 SuperBlock.magic⟩

/-- The blank image is accepted, and the first `AllocInode` divides by its number of inodes in a
group. -/
theorem blankImage_breaks : blankImage.sMagic = SuperBlock.magic ∧
    (∃ e s t, Env.Reliable e ∧ readSuperBlock e s = .ok (.ok blankImage, t) ∧
      Op.run e .allocInode { t with super := blankImage } = .error .divByZero) ∧
    ¬ blankImage.NeverBreaks := by
  have hmagic : blankImage.sMagic = SuperBlock.magic := by decide
  obtain ⟨e, s, t, he, haccept⟩ := accepted hmagic
  have hper : Kind.inode.perGroup blankImage = 0 := by decide
  have hbreak : Op.run e .allocInode { t with super := blankImage } = .error .divByZero :=
    run_error (run_error (allocBit_breaks hper))
  refine ⟨hmagic, ⟨e, s, t, he, haccept, hbreak⟩, fun h => ?_⟩
  have hrange : Op.InRange .allocInode := True.intro
  exact (h.calls haccept Run.nil hrange hbreak).1 rfl

end InfoKernel.Ext2
