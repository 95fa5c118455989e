import InfoKernel.Fs.Inode
import InfoKernel.Fs.SmallVolume

/-!
# The inode table as a store

An inode number leads to a group, to a block of the inode table of that group and to an offset
in that block: the slot of the inode, 128 bytes of the device.  `WriteInode` reads the block,
changes the slot and writes the block back, so that the other inodes of the block are written as
well, with the bytes they had.

`InodeTables` is what a volume must be for this to work, over any number of groups.  The blocks
of a table are named as the source computes them, in 32 bits.  What is proved then is

* that different inode numbers have slots that do not meet (`InodeTables.slot_apart`), for every
  inode size and every number of inodes to a group;
* that a write to a slot leaves all slots where they are (`InodeTables.slot_written`), since no
  table reaches into the block of the descriptors;
* that the table is therefore a store: what is read from a number is what was last written to
  it (`writeInode_then_readInode`).
-/

namespace InfoKernel.Ext2

open Lib

/-- The inodes have the same bytes on the disk. -/
def Inode.Same (x y : Inode) : Prop := ∀ i, i < Inode.size → x.bytes i = y.bytes i

namespace Inode.Same

variable {x y : Inode}

theorem isDir (h : x.Same y) : x.isDir = y.isDir := by
  have hmode : x.iMode = y.iMode := getLE_congr fun i _ hi => h i (by rw [Inode.size]; omega)
  rw [Inode.isDir, Inode.isDir, hmode]

theorem iSize (h : x.Same y) : x.iSize = y.iSize :=
  getLE_congr fun i _ hi => h i (by rw [Inode.size]; omega)

theorem iBlock (h : x.Same y) {slot : Nat} (hslot : slot < 15) : x.iBlock slot = y.iBlock slot :=
  getLE_congr fun i _ hi => h i (by rw [Inode.size]; omega)

theorem iLinksCount (h : x.Same y) : x.iLinksCount = y.iLinksCount :=
  getLE_congr fun i _ hi => h i (by rw [Inode.size]; omega)

end Inode.Same

/-- The inodes have the same type, the same size and the same blocks. -/
structure Inode.Alike (x y : Inode) : Prop where
  isDir : x.isDir = y.isDir
  iSize : x.iSize = y.iSize
  iBlock {slot : Nat} : slot < 15 → x.iBlock slot = y.iBlock slot

namespace Inode

variable {x y z : Inode}

theorem Same.alike (h : x.Same y) : x.Alike y := ⟨h.isDir, h.iSize, h.iBlock⟩

theorem Alike.trans (h : x.Alike y) (h' : y.Alike z) : x.Alike z :=
  ⟨h.isDir.trans h'.isDir, h.iSize.trans h'.iSize, fun hslot =>
    (h.iBlock hslot).trans (h'.iBlock hslot)⟩

/-- The time of the last change is none of these. -/
theorem alike_setMtime (x : Inode) (v : Nat) : (x.setMtime v).Alike x := by
  have hfield : ∀ {o len : Nat}, o + len ≤ 16 ∨ 20 ≤ o →
      getLE (x.setMtime v).bytes o len = getLE x.bytes o len := fun ho =>
    getLE_setLE_of_disjoint (by omega)
  have hmode : (x.setMtime v).iMode = x.iMode := hfield (by omega)
  refine ⟨?_, hfield (by omega), fun _ => hfield (by omega)⟩
  rw [isDir, isDir, hmode]

end Inode

/-- How many inodes lie in a block. -/
def SuperBlock.inodesPerBlock (sb : SuperBlock) : Nat := sb.blockSize / sb.sInodeSize

/-- The block with the `i`-th inode of group `g`. -/
def State.tableBlock (s : State) (e : Env) (g i : Nat) : Nat :=
  u32 ((s.desc e g).bgInodeTable + i / s.super.inodesPerBlock)

/-- The offset in its block of the `i`-th inode of a group. -/
def State.tableOffset (s : State) (i : Nat) : Nat :=
  i % s.super.inodesPerBlock * s.super.sInodeSize

/-- The group of inode `n`. -/
def State.inodeGroup (s : State) (n : Nat) : Nat := (n - 1) / s.super.sInodesPerGroup

/-- The place of inode `n` in its group. -/
def State.inodeInGroup (s : State) (n : Nat) : Nat := (n - 1) % s.super.sInodesPerGroup

/-- The first byte of inode `n` on the device. -/
def State.slot (s : State) (e : Env) (n : Nat) : Nat :=
  s.origin e (s.tableBlock e (s.inodeGroup n) (s.inodeInGroup n)) + s.tableOffset (s.inodeInGroup n)

/-- `n` is the number of an inode of the first `groups` groups. -/
def State.InGroups (s : State) (groups n : Nat) : Prop := 0 < n ∧ s.inodeGroup n < groups

/-- The state with inode `n` changed to `x` on the device. -/
def State.written (s : State) (e : Env) (n : Nat) (x : Inode) : State :=
  s.put (copyIn s.disk (s.slot e n) Inode.size x.bytes)

/-- The inode tables of the first `groups` groups lie apart from each other and from the
descriptors, which all lie in the one block that is read. -/
structure InodeTables (e : Env) (s : State) (groups : Nat) : Prop where
  size_le : Inode.size ≤ s.super.sInodeSize
  size_dvd : s.super.sInodeSize ∣ s.super.blockSize
  per_pos : 0 < s.super.sInodesPerGroup
  desc_fit : GroupDesc.size * groups ≤ s.super.blockSize
  table_apart {g g' i i' : Nat} : g < groups → g' < groups → i < s.super.sInodesPerGroup →
    i' < s.super.sInodesPerGroup → s.tableBlock e g i = s.tableBlock e g' i' → g = g'
  table_ne_desc {g i : Nat} : g < groups → i < s.super.sInodesPerGroup →
    s.tableBlock e g i ≠ gdBlock

variable {e : Env} {s : State} {groups n m : Nat}

namespace InodeTables

variable (h : InodeTables e s groups)

include h

/-! ## Where a slot lies -/

theorem size_pos : 0 < s.super.sInodeSize := Nat.lt_of_lt_of_le (by decide) h.size_le

theorem inodesPerBlock_mul : s.super.inodesPerBlock * s.super.sInodeSize = s.super.blockSize :=
  Nat.div_mul_cancel h.size_dvd

theorem desc_fits {g : Nat} (hg : g < groups) :
    GroupDesc.size * g + GroupDesc.size ≤ s.super.blockSize := by
  have hmul : GroupDesc.size * (g + 1) ≤ GroupDesc.size * groups := Nat.mul_le_mul_left _ hg
  exact Nat.le_trans (Nat.mul_succ _ g ▸ hmul) h.desc_fit

theorem inodesPerBlock_pos {g : Nat} (hg : g < groups) : 0 < s.super.inodesPerBlock := by
  have hfit := h.desc_fits hg
  have hsize : GroupDesc.size = 32 := rfl
  exact Nat.div_pos (Nat.le_of_dvd (by omega) h.size_dvd) h.size_pos

/-- An inode does not run over the end of its block. -/
theorem offset_fits {g : Nat} (hg : g < groups) (i : Nat) :
    s.tableOffset i + Inode.size ≤ s.super.blockSize := by
  have hlt : i % s.super.inodesPerBlock + 1 ≤ s.super.inodesPerBlock :=
    Nat.mod_lt i (h.inodesPerBlock_pos hg)
  have hmul := Nat.mul_le_mul_right s.super.sInodeSize hlt
  rw [h.inodesPerBlock_mul, Nat.add_mul, Nat.one_mul] at hmul
  exact Nat.le_trans (Nat.add_le_add_left h.size_le _) hmul

theorem inodeInGroup_lt (n : Nat) : s.inodeInGroup n < s.super.sInodesPerGroup :=
  Nat.mod_lt _ h.per_pos

omit h in
/-- A number is its group and its place there. -/
theorem eq_of_place (hn : s.InGroups groups n) (hm : s.InGroups groups m)
    (hg : s.inodeGroup n = s.inodeGroup m) (hi : s.inodeInGroup n = s.inodeInGroup m) : n = m := by
  have hn' := Nat.div_add_mod (n - 1) s.super.sInodesPerGroup
  have hm' := Nat.div_add_mod (m - 1) s.super.sInodesPerGroup
  have hpos := hn.1
  have hpos' := hm.1
  simp only [State.inodeGroup, State.inodeInGroup] at hg hi
  rw [hg, hi, hm'] at hn'
  omega

omit h in
/-- Within one table the 32 bits lose nothing, however large the number of its first block. -/
theorem tableBlock_inj {g i i' : Nat} (hi : i < 2 ^ 32) (hi' : i' < 2 ^ 32)
    (heq : s.tableBlock e g i = s.tableBlock e g i') :
    i / s.super.inodesPerBlock = i' / s.super.inodesPerBlock := by
  have hle := Nat.lt_of_le_of_lt (Nat.div_le_self i s.super.inodesPerBlock) hi
  have hle' := Nat.lt_of_le_of_lt (Nat.div_le_self i' s.super.inodesPerBlock) hi'
  simp only [State.tableBlock, u32] at heq
  generalize i / s.super.inodesPerBlock = k at heq hle
  generalize i' / s.super.inodesPerBlock = k' at heq hle'
  omega

/-- **Different numbers have different slots**, and the slots do not meet. -/
theorem slot_apart (hn : s.InGroups groups n) (hm : s.InGroups groups m) (hne : m ≠ n) :
    s.slot e m + Inode.size ≤ s.slot e n ∨ s.slot e n + Inode.size ≤ s.slot e m := by
  by_contra hmeet
  obtain ⟨j, j', hj, hj', heq⟩ : ∃ j j', j < Inode.size ∧ j' < Inode.size ∧
      s.slot e n + j = s.slot e m + j' := by
    by_cases hle : s.slot e n ≤ s.slot e m
    · exact ⟨s.slot e m - s.slot e n, 0, by omega, by decide, by omega⟩
    · exact ⟨0, s.slot e n - s.slot e m, by decide, by omega, by omega⟩
  simp only [State.slot, Nat.add_assoc] at heq
  have hfit := h.offset_fits hn.2 (s.inodeInGroup n)
  have hfit' := h.offset_fits hm.2 (s.inodeInGroup m)
  obtain ⟨hblock, hoff⟩ := State.origin_inj (show _ < s.super.blockSize by omega)
    (show _ < s.super.blockSize by omega) heq
  have hg : s.inodeGroup n = s.inodeGroup m :=
    h.table_apart hn.2 hm.2 (h.inodeInGroup_lt n) (h.inodeInGroup_lt m) hblock
  rw [hg] at hblock
  have hper : s.super.sInodesPerGroup < 2 ^ 32 := getLE_lt s.super.bytes 40 4
  have hdiv := tableBlock_inj (Nat.lt_trans (h.inodeInGroup_lt n) hper)
    (Nat.lt_trans (h.inodeInGroup_lt m) hper) hblock
  -- the two inodes start at the same multiple of the inode size
  have hmod : s.inodeInGroup n % s.super.inodesPerBlock =
      s.inodeInGroup m % s.super.inodesPerBlock := by
    have hsize := h.size_le
    have hpos := h.size_pos
    have hn' : (s.tableOffset (s.inodeInGroup n) + j) / s.super.sInodeSize =
        s.inodeInGroup n % s.super.inodesPerBlock := by
      rw [State.tableOffset, Nat.mul_comm, Nat.mul_add_div hpos,
        Nat.div_eq_of_lt (Nat.lt_of_lt_of_le hj hsize), Nat.add_zero]
    have hm' : (s.tableOffset (s.inodeInGroup m) + j') / s.super.sInodeSize =
        s.inodeInGroup m % s.super.inodesPerBlock := by
      rw [State.tableOffset, Nat.mul_comm, Nat.mul_add_div hpos,
        Nat.div_eq_of_lt (Nat.lt_of_lt_of_le hj' hsize), Nat.add_zero]
    rw [← hn', ← hm', hoff]
  have hplace : s.inodeInGroup n = s.inodeInGroup m := by
    rw [← Nat.div_add_mod (s.inodeInGroup n) s.super.inodesPerBlock, hdiv, hmod,
      Nat.div_add_mod]
  exact hne (eq_of_place hn hm hg hplace).symm

/-- A slot lies outside the block of the descriptors. -/
theorem slot_outside_desc (hn : s.InGroups groups n) {g i j : Nat} (hg : g < groups)
    (hi : i < GroupDesc.size) (hj : j < Inode.size) :
    s.origin e gdBlock + GroupDesc.size * g + i ≠ s.slot e n + j := by
  have hfit := h.desc_fits hg
  have hoff := h.offset_fits hn.2 (s.inodeInGroup n)
  rw [State.slot, Nat.add_assoc, Nat.add_assoc]
  intro heq
  obtain ⟨hblock, -⟩ := State.origin_inj (show _ < s.super.blockSize by omega)
    (show _ < s.super.blockSize by omega) heq
  exact h.table_ne_desc hn.2 (h.inodeInGroup_lt n) hblock.symm

/-! ## What a write to a slot changes -/

theorem desc_written (hn : s.InGroups groups n) {g : Nat} (hg : g < groups) (x : Inode) {i : Nat}
    (hi : i < GroupDesc.size) : ((s.written e n x).desc e g).bytes i = (s.desc e g).bytes i := by
  show copyIn s.disk (s.slot e n) Inode.size x.bytes
    (s.origin e gdBlock + GroupDesc.size * g + i) = s.disk _
  refine copyIn_of_not_mem ?_
  by_contra hin
  obtain ⟨j, hj, heq⟩ : ∃ j, j < Inode.size ∧
      s.origin e gdBlock + GroupDesc.size * g + i = s.slot e n + j :=
    ⟨s.origin e gdBlock + GroupDesc.size * g + i - s.slot e n, by omega, by omega⟩
  exact h.slot_outside_desc hn hg hi hj heq

theorem tableBlock_written (hn : s.InGroups groups n) {g : Nat} (hg : g < groups) (x : Inode)
    (i : Nat) : (s.written e n x).tableBlock e g i = s.tableBlock e g i := by
  have hsame := GroupDesc.same_of_bytes fun i hi => h.desc_written hn hg x (i := i) hi
  rw [State.tableBlock, hsame.inodeTable]
  rfl

/-- The slots stay where they are. -/
theorem slot_written (hn : s.InGroups groups n) (hm : s.InGroups groups m) (x : Inode) :
    (s.written e n x).slot e m = s.slot e m := by
  have hblock := h.tableBlock_written hn hm.2 x (s.inodeInGroup m)
  show (s.written e n x).origin e ((s.written e n x).tableBlock e (s.inodeGroup m)
    (s.inodeInGroup m)) + s.tableOffset (s.inodeInGroup m) = s.slot e m
  rw [hblock]
  rfl

/-- A write to a slot keeps the tables apart. -/
theorem written (hn : s.InGroups groups n) (x : Inode) :
    InodeTables e (s.written e n x) groups where
  size_le := h.size_le
  size_dvd := h.size_dvd
  per_pos := h.per_pos
  desc_fit := h.desc_fit
  table_apart {g g' i i'} hg hg' hi hi' heq := by
    rw [h.tableBlock_written hn hg, h.tableBlock_written hn hg'] at heq
    exact h.table_apart hg hg' hi hi' heq
  table_ne_desc {g i} hg hi := by
    rw [h.tableBlock_written hn hg]
    exact h.table_ne_desc hg hi

omit h in
theorem disk_written_self {x : Inode} {i : Nat} (hi : i < Inode.size) :
    (s.written e n x).disk (s.slot e n + i) = x.bytes i := copyIn_of_mem hi

theorem at_clock (c : Nat) : InodeTables e (s.at c) groups :=
  ⟨h.size_le, h.size_dvd, h.per_pos, h.desc_fit, h.table_apart, h.table_ne_desc⟩

theorem disk_written_of_ne (hn : s.InGroups groups n) (hm : s.InGroups groups m) (hne : m ≠ n)
    (x : Inode) {i : Nat} (hi : i < Inode.size) :
    (s.written e n x).disk (s.slot e m + i) = s.disk (s.slot e m + i) := by
  have hapart := h.slot_apart hn hm hne
  exact copyIn_of_not_mem (by omega)

/-- The blocks other than that with the slot stay. -/
theorem block_written (hn : s.InGroups groups n) (x : Inode) {y j : Nat}
    (hy : y ≠ s.tableBlock e (s.inodeGroup n) (s.inodeInGroup n)) (hj : j < s.super.blockSize) :
    (s.written e n x).block e y j = s.block e y j := by
  have hfit := h.offset_fits hn.2 (s.inodeInGroup n)
  show copyIn s.disk (s.slot e n) Inode.size x.bytes (s.origin e y + j) = s.disk _
  refine copyIn_of_not_mem ?_
  by_contra hin
  rw [State.slot] at hin
  obtain ⟨i, hi, heq⟩ : ∃ i, i < s.super.blockSize ∧ s.origin e y + j =
      s.origin e (s.tableBlock e (s.inodeGroup n) (s.inodeInGroup n)) + i :=
    ⟨s.origin e y + j - s.origin e (s.tableBlock e (s.inodeGroup n) (s.inodeInGroup n)),
      by omega, by omega⟩
  exact hy (s.origin_inj hj hi heq).1

/-- The block with a slot holds no data. -/
theorem tableBlock_meta (hn : s.InGroups groups n) (hle : groups ≤ s.groups .inode) :
    Meta e s (s.tableBlock e (s.inodeGroup n) (s.inodeInGroup n)) :=
  .table (Nat.lt_of_lt_of_le hn.2 hle) (h.inodeInGroup_lt n)

/-- The tables stay when the descriptors say that they do. -/
theorem of_layout {t : State} (hl : SameLayout e s t) (hle : groups ≤ s.groups .inode) :
    InodeTables e t groups := by
  have hgeo := hl.geometry
  have htable : ∀ {g i}, g < groups → t.tableBlock e g i = s.tableBlock e g i := by
    intro g i hg
    rw [State.tableBlock, State.tableBlock, SuperBlock.inodesPerBlock, SuperBlock.inodesPerBlock,
      hl.inodeTable (Nat.lt_of_lt_of_le hg hle), hgeo.blockSize, hgeo.inodeSize]
  refine ⟨?_, ?_, ?_, ?_, fun {g g' i i'} hg hg' hi hi' heq => ?_, fun {g i} hg hi => ?_⟩
  · rw [hgeo.inodeSize]
    exact h.size_le
  · rw [hgeo.inodeSize, hgeo.blockSize]
    exact h.size_dvd
  · rw [hgeo.inodesPerGroup]
    exact h.per_pos
  · rw [hgeo.blockSize]
    exact h.desc_fit
  · rw [htable hg, htable hg'] at heq
    rw [hgeo.inodesPerGroup] at hi hi'
    exact h.table_apart hg hg' hi hi' heq
  · rw [hgeo.inodesPerGroup] at hi
    rw [htable hg]
    exact h.table_ne_desc hg hi

/-! ## The calls -/

variable (he : e.Reliable)

include he

theorem inodeSlot_run (hn : s.InGroups groups n) : inodeSlot e n s =
    .ok (.ok (s.tableBlock e (s.inodeGroup n) (s.inodeInGroup n),
      s.tableOffset (s.inodeInGroup n)), s.at (s.clock + 2)) := by
  have hdesc := readGroupDesc_run (s := s) he (s.inodeGroup n)
  rw [if_pos (State.Fits.descThere (h.desc_fits hn.2))] at hdesc
  have hsame : GroupDesc.Same (s.desc e (s.inodeGroup n)) ⟨fun i => copyOut e s.disk
      (s.origin e gdBlock) s.super.blockSize (GroupDesc.size * s.inodeGroup n + i)⟩ := by
    refine GroupDesc.same_of_bytes fun i hi => ?_
    have hfit := h.desc_fits hn.2
    show copyOut e s.disk _ _ _ = s.disk _
    rw [copyOut_of_lt (by omega), Nat.add_assoc]
  rw [inodeSlot, bind_apply_of_ok (super_run s), if_neg (Nat.ne_of_gt h.size_pos),
    if_neg (Nat.ne_of_gt h.per_pos)]
  refine (bind_apply_of_ok hdesc).trans ?_
  show (if s.super.inodesPerBlock = 0 then throw .divByZero else _ :
    Io (Except Int (Nat × Nat))) _ = _
  rw [if_neg (Nat.ne_of_gt (h.inodesPerBlock_pos hn.2)), hsame.inodeTable]
  rfl

/-- `ReadInode` gives the bytes of the slot. -/
theorem readInode_run (hn : s.InGroups groups n) : ∃ y c, readInode e n s = .ok (.ok y, s.at c) ∧
    ∀ i, i < Inode.size → y.bytes i = s.disk (s.slot e n + i) := by
  have hfit := h.offset_fits hn.2 (s.inodeInGroup n)
  refine ⟨⟨fun i => copyOut e s.disk (s.origin e (s.tableBlock e (s.inodeGroup n)
    (s.inodeInGroup n))) s.super.blockSize (s.tableOffset (s.inodeInGroup n) + i)⟩,
    s.clock + 4, ?_, ?_⟩
  · rw [readInode, if_neg (Nat.ne_of_gt hn.1), bind_apply_of_ok (h.inodeSlot_run he hn)]
    simp only []
    rw [bind_apply_of_ok (pageAlloc_run he)]
    simp only [Bool.not_true, Bool.false_eq_true, if_false]
    rw [bind_apply_of_ok (readBlock_run he _)]
    dsimp only
    rw [bind_apply_of_ok (super_run _)]
    exact congrFun (if_pos hfit) _
  · intro i hi
    show copyOut e s.disk _ _ _ = s.disk _
    rw [copyOut_of_lt (by omega), State.slot, Nat.add_assoc]

/-- `WriteInode` changes the bytes of the slot and no others. -/
theorem writeInode_run (hn : s.InGroups groups n) (x : Inode) :
    ∃ c, writeInode e n x s = .ok (0, (s.written e n x).at c) := by
  have hfit := h.offset_fits hn.2 (s.inodeInGroup n)
  refine ⟨s.clock + 5, ?_⟩
  rw [writeInode, if_neg (Nat.ne_of_gt hn.1), bind_apply_of_ok (h.inodeSlot_run he hn)]
  simp only []
  rw [bind_apply_of_ok (pageAlloc_run he)]
  simp only [Bool.not_true, Bool.false_eq_true, if_false]
  rw [bind_apply_of_ok (readBlock_run he _)]
  dsimp only
  rw [bind_apply_of_ok (super_run _)]
  have hdisk : copyIn s.disk (s.origin e (s.tableBlock e (s.inodeGroup n) (s.inodeInGroup n)))
      s.super.blockSize (copyIn (copyOut e s.disk (s.origin e (s.tableBlock e (s.inodeGroup n)
        (s.inodeInGroup n))) s.super.blockSize) (s.tableOffset (s.inodeInGroup n)) Inode.size
          x.bytes) = (s.written e n x).disk := copyIn_copyIn_copyOut hfit
  refine (congrFun (if_pos hfit) _).trans ?_
  rw [bind_apply_of_ok (writeBlock_run he _ _)]
  exact congrArg (fun disk => Except.ok (0, (s.put disk).at (s.clock + 5))) hdisk

end InodeTables

/-- What is read from inode `n` is `x`. -/
def Reads (e : Env) (n : Nat) (x : Inode) (s : State) : Prop :=
  ∃ y t, readInode e n s = .ok (.ok y, t) ∧ y.Same x

/-- **The inode table is a store.**  `WriteInode` returns `0`; what is read from inode `n` is then
what was written; what is read from another inode is what was read before; and only the 128
bytes of inode `n` have changed on the device. -/
theorem writeInode_then_readInode (he : e.Reliable) (h : InodeTables e s groups)
    (hn : s.InGroups groups n) (x : Inode) : ∃ t, writeInode e n x s = .ok (0, t) ∧
      Reads e n x t ∧
      (∀ m, s.InGroups groups m → m ≠ n → ∃ y, Reads e m y s ∧ Reads e m y t) ∧
      ∀ a, a < s.slot e n ∨ s.slot e n + Inode.size ≤ a → t.disk a = s.disk a := by
  obtain ⟨c, hrun⟩ := h.writeInode_run he hn x
  have hafter : InodeTables e ((s.written e n x).at c) groups := (h.written hn x).at_clock c
  refine ⟨_, hrun, ?_, fun m hm hne => ?_, fun a ha => copyIn_of_not_mem ha⟩
  · obtain ⟨y, c', hread, hy⟩ := hafter.readInode_run he hn
    refine ⟨y, _, hread, fun i hi => ?_⟩
    have hslot : ((s.written e n x).at c).slot e n = s.slot e n := h.slot_written hn hn x
    rw [hy i hi, hslot]
    exact InodeTables.disk_written_self hi
  · obtain ⟨y, c', hread, hy⟩ := h.readInode_run he hm
    obtain ⟨y', c'', hread', hy'⟩ := hafter.readInode_run he hm
    refine ⟨y, ⟨y, _, hread, fun i _ => rfl⟩, y', _, hread', fun i hi => ?_⟩
    have hslot : ((s.written e n x).at c).slot e m = s.slot e m := h.slot_written hn hm x
    rw [hy i hi, hy' i hi, hslot]
    exact h.disk_written_of_ne hn hm hne x hi

/-- The sixteen inodes of the small volume. -/
theorem Small.inodeTables_volume {first : Nat} (h : first < 2) :
    InodeTables (Env.ideal 0) (Small.volume first 0xFF) 1 where
  size_le := by
    rw [(inodeTable_volume h).2.1]
    decide
  size_dvd := by
    rw [(inodeTable_volume h).2.1, blockSize_volume h]
    decide
  per_pos := by
    have hper : (Small.volume first 0xFF).super.sInodesPerGroup = 16 := perGroup_volume h .inode
    rw [hper]
    decide
  desc_fit := by
    rw [blockSize_volume h]
    decide
  table_apart hg hg' _ _ _ := by omega
  table_ne_desc {g i} hg hi := by
    have hper : (Small.volume first 0xFF).super.sInodesPerGroup = 16 := perGroup_volume h .inode
    obtain ⟨htable, hsize, -⟩ := inodeTable_volume h
    rw [hper] at hi
    rw [Nat.lt_one_iff.mp hg, State.tableBlock, SuperBlock.inodesPerBlock, htable, hsize,
      blockSize_volume h, u32, gdBlock]
    omega

theorem inodeTables_small : InodeTables (Env.ideal 0) (Small.volume 1 0xFF) 1 :=
  Small.inodeTables_volume Nat.one_lt_two

/-- The second inode of the small volume, cleared. -/
theorem writeInode_then_readInode_small : ∃ t,
    writeInode (Env.ideal 0) 2 ⟨fun _ => 0⟩ (Small.volume 1 0xFF) = .ok (0, t) ∧
      Reads (Env.ideal 0) 2 ⟨fun _ => 0⟩ t ∧
      (∀ m, (Small.volume 1 0xFF).InGroups 1 m → m ≠ 2 → ∃ y,
        Reads (Env.ideal 0) m y (Small.volume 1 0xFF) ∧ Reads (Env.ideal 0) m y t) ∧
      ∀ a, a < (Small.volume 1 0xFF).slot (Env.ideal 0) 2 ∨
        (Small.volume 1 0xFF).slot (Env.ideal 0) 2 + Inode.size ≤ a →
          t.disk a = (Small.volume 1 0xFF).disk a :=
  writeInode_then_readInode (Env.ideal_reliable 0) inodeTables_small
    ⟨by decide, by decide⟩ ⟨fun _ => 0⟩

end InfoKernel.Ext2
