import InfoKernel.Fs.Balloc
import Mathlib.Tactic.ByContra

/-!
# Volumes

What the bytes of a partition say: the contents of a block, the descriptor of a group, the bits
of the two bitmaps of each group.  `Volume.Roles` is what every volume of the format has, that
bitmaps, descriptors and superblock lie in different places, and it is all that is needed to say
what a change of one bit does: `Flip` lists what the volume holds afterwards.

A bit is named by its number over all groups, as the allocators do: bit `i` of group `g` is
number `g * perGroup + i`.
-/

namespace InfoKernel.Ext2

open Lib

/-! ## Bytes of the partition -/

/-- The state at another time. -/
def State.at (s : State) (c : Nat) : State := { s with clock := c }

/-- The state with another device. -/
def State.put (s : State) (disk : Bytes) : State := { s with disk := disk }

/-- The first byte of block `x` of the partition. -/
def State.origin (s : State) (e : Env) (x : Nat) : Nat := 512 * e.lba + x * s.super.blockSize

/-- The contents of block `x`, from its first byte on. -/
def State.block (s : State) (e : Env) (x : Nat) : Bytes := fun i => s.disk (s.origin e x + i)

/-- The descriptor of group `g`.  The descriptors lie one behind the other from block 2 on. -/
def State.desc (s : State) (e : Env) (g : Nat) : GroupDesc :=
  ⟨fun i => s.disk (s.origin e gdBlock + GroupDesc.size * g + i)⟩

/-- The number of groups that hold all blocks, or all inodes. -/
def State.groups (s : State) (k : Kind) : Nat :=
  (k.count s.super + (k.perGroup s.super - 1)) / k.perGroup s.super

/-- The block with the bitmap of group `g`. -/
def State.bitmapBlock (s : State) (e : Env) (k : Kind) (g : Nat) : Nat := k.bitmap (s.desc e g)

/-- The bit with number `n` is set. -/
def State.bit (s : State) (e : Env) (k : Kind) (n : Nat) : Bool :=
  Bitmap.used (s.block e (s.bitmapBlock e k (n / k.perGroup s.super))) (n % k.perGroup s.super)

/-- The descriptor of group `g` lies in the block that descriptors are read from. -/
def State.Fits (s : State) (g : Nat) : Prop :=
  GroupDesc.size * g + GroupDesc.size ≤ s.super.blockSize

instance (s : State) (g : Nat) : Decidable (s.Fits g) := inferInstanceAs (Decidable (_ ≤ _))

/-- The block with the descriptor of group `g`. -/
def State.descBlock (s : State) (g : Nat) : Nat :=
  gdBlock + GroupDesc.size * g / s.super.blockSize

/-- The block with the superblock. -/
def State.superBlock (s : State) : Nat := 1024 / s.super.blockSize

section Sizes

variable (sb : SuperBlock)

theorem SuperBlock.dvd_blockSize : 1024 ∣ sb.blockSize := by
  rw [SuperBlock.blockSize, u32, Nat.dvd_mod_iff (by decide)]
  exact Nat.dvd_mul_right 1024 _

theorem SuperBlock.blockSize_lt : sb.blockSize < 2 ^ 32 := Nat.mod_lt _ (by decide)

theorem SuperBlock.sectors_mul : 512 * (sb.blockSize / 512) = sb.blockSize :=
  Nat.mul_div_cancel' (Nat.dvd_trans (by decide) sb.dvd_blockSize)

theorem SuperBlock.le_blockSize (h : 0 < sb.blockSize) : 1024 ≤ sb.blockSize :=
  Nat.le_of_dvd h sb.dvd_blockSize

theorem SuperBlock.ptrs_mul : 4 * sb.ptrsPerBlock = sb.blockSize :=
  Nat.mul_div_cancel' (Nat.dvd_trans (by decide) sb.dvd_blockSize)

end Sizes

variable {e : Env} {s t : State}

theorem sectorOf_mul (s : State) (e : Env) (x : Nat) :
    512 * sectorOf e s.super x = s.origin e x := by
  rw [sectorOf, Nat.mul_add, State.origin, Nat.mul_left_comm, s.super.sectors_mul]

/-- Two places in blocks are the same place only in the same block. -/
theorem State.origin_inj {x y i j : Nat} (hi : i < s.super.blockSize) (hj : j < s.super.blockSize)
    (h : s.origin e x + i = s.origin e y + j) : x = y ∧ i = j := by
  have hpos : 0 < s.super.blockSize := by omega
  have h' : x * s.super.blockSize + i = y * s.super.blockSize + j := by
    simp only [State.origin] at h
    omega
  have hxy : x = y := by
    have hdiv : (x * s.super.blockSize + i) / s.super.blockSize =
        (y * s.super.blockSize + j) / s.super.blockSize := by rw [h']
    rw [Nat.mul_comm x, Nat.mul_comm y, Nat.mul_add_div hpos, Nat.mul_add_div hpos,
      Nat.div_eq_of_lt hi, Nat.div_eq_of_lt hj] at hdiv
    exact hdiv
  rw [hxy] at h'
  exact ⟨hxy, by omega⟩

/-- The superblock, at the start of the device or of the partition, lies in the first blocks. -/
theorem State.origin_ge {y : Nat} (hsize : 0 < s.super.blockSize) (hy : s.superBlock < y) :
    2048 ≤ s.origin e y := by
  have hdvd := s.super.dvd_blockSize
  have hle := s.super.le_blockSize hsize
  rw [State.superBlock] at hy
  rw [State.origin]
  by_cases h : s.super.blockSize = 1024
  · rw [h] at hy ⊢
    omega
  · have h2 : 2048 ≤ s.super.blockSize := by omega
    have hy1 : 1 ≤ y := Nat.lt_of_le_of_lt (Nat.zero_le _) hy
    have hmul : 1 * s.super.blockSize ≤ y * s.super.blockSize := Nat.mul_le_mul_right _ hy1
    omega

theorem State.Fits.descThere {g : Nat} (h : s.Fits g) : descThere e s.super g = true := by
  rw [Ext2.descThere, decide_eq_true (show GroupDesc.size * g + GroupDesc.size ≤ _ from h),
    Bool.true_or]

theorem State.descThere_eq_false {g : Nat} (h : ¬ s.Fits g) (hmapped : e.mapped g = false) :
    descThere e s.super g = false := by
  rw [Ext2.descThere, decide_eq_false (show ¬ GroupDesc.size * g + GroupDesc.size ≤ _ from h),
    hmapped, Bool.or_self]

/-! ## Single calls, when nothing fails -/

section Calls

variable (he : e.Reliable)

include he

omit he in
theorem super_run (s : State) : super s = .ok (s.super, s) := rfl

theorem pageAlloc_run : pageAlloc e s = .ok (true, s.at (s.clock + 1)) := by
  have h : pageAlloc e s = .ok (!e.allocFails s.clock, s.at (s.clock + 1)) := rfl
  rw [h, he.alloc]
  rfl

theorem devRead_run (sector count : Nat) : devRead e sector count s =
    .ok (some (copyOut e s.disk (512 * sector) (512 * count)), s.at (s.clock + 1)) := by
  have h : devRead e sector count s = (if e.readFails s.clock then pure none else fun s =>
      .ok (some (copyOut e s.disk (512 * sector) (512 * count)), s) : Io (Option Bytes))
        (s.at (s.clock + 1)) := rfl
  rw [h, he.read]
  rfl

theorem devWrite_run (sector count : Nat) (buf : Bytes) : devWrite e sector count buf s =
    .ok (true, (s.put (copyIn s.disk (512 * sector) (512 * count) buf)).at (s.clock + 1)) := by
  have h : devWrite e sector count buf s = (if e.writeFails s.clock then pure false else fun s =>
      .ok (true, { s with disk := copyIn s.disk (512 * sector) (512 * count) buf }) : Io Bool)
        (s.at (s.clock + 1)) := rfl
  rw [h, he.write]
  rfl

theorem readBlock_run (x : Nat) : readBlock e x s =
    .ok (some (copyOut e s.disk (s.origin e x) s.super.blockSize), s.at (s.clock + 1)) := by
  have h : readBlock e x s = devRead e (sectorOf e s.super x) (s.super.blockSize / 512) s := rfl
  rw [h, devRead_run he, sectorOf_mul, SuperBlock.sectors_mul]

theorem writeBlock_run (x : Nat) (buf : Bytes) : writeBlock e x buf s =
    .ok (true, (s.put (copyIn s.disk (s.origin e x) s.super.blockSize buf)).at (s.clock + 1)) := by
  have h : writeBlock e x buf s =
      devWrite e (sectorOf e s.super x) (s.super.blockSize / 512) buf s := rfl
  rw [h, devWrite_run he, sectorOf_mul, SuperBlock.sectors_mul]

theorem readGroupDesc_run (g : Nat) : readGroupDesc e g s =
    if descThere e s.super g then
      .ok (.ok ⟨fun i => copyOut e s.disk (s.origin e gdBlock) s.super.blockSize
        (GroupDesc.size * g + i)⟩, s.at (s.clock + 2))
    else
      .error .outOfBounds := by
  rw [readGroupDesc, bind_apply_of_ok (super_run s), bind_apply_of_ok (pageAlloc_run he)]
  simp only [Bool.not_true, Bool.false_eq_true, if_false]
  rw [bind_apply_of_ok (devRead_run he _ _), sectorOf_mul, SuperBlock.sectors_mul]
  simp only []
  split <;> rfl

theorem writeGroupDesc_run {g : Nat} {gd : GroupDesc} (hfit : s.Fits g) :
    ∃ c, writeGroupDesc e g gd s = .ok (0, State.at { s with
      disk := copyIn s.disk (s.origin e gdBlock + GroupDesc.size * g) GroupDesc.size
        gd.bytes } c) := by
  refine ⟨s.clock + 3, ?_⟩
  rw [writeGroupDesc, bind_apply_of_ok (super_run s), bind_apply_of_ok (pageAlloc_run he)]
  simp only [Bool.not_true, Bool.false_eq_true, if_false]
  rw [bind_apply_of_ok (devRead_run he _ _), sectorOf_mul, SuperBlock.sectors_mul]
  simp only [hfit.descThere, if_true]
  rw [bind_apply_of_ok (devWrite_run he _ _ _), sectorOf_mul, SuperBlock.sectors_mul]
  simp only [State.at, State.put, copyIn_copyIn_copyOut (show _ ≤ _ from hfit)]
  rfl

theorem writeSuperBlock_run : ∃ c, writeSuperBlock e s = .ok (0, State.at { s with
    disk := copyIn s.disk 1024 1024 s.super.bytes } c) := by
  refine ⟨s.clock + 2, ?_⟩
  rw [writeSuperBlock, bind_apply_of_ok (super_run s), bind_apply_of_ok (pageAlloc_run he)]
  simp only [Bool.not_true, Bool.false_eq_true, if_false]
  rw [bind_apply_of_ok (devWrite_run he _ _ _)]
  rfl

/-- The state with new counts of free ones. -/
def State.countsSet (s : State) (e : Env) (k : Kind) (g : Nat) (gd : GroupDesc)
    (inGroup onVolume : Nat) : State where
  disk := copyIn (copyIn s.disk (s.origin e gdBlock + GroupDesc.size * g) GroupDesc.size
    (k.setFree gd inGroup).bytes) 1024 1024 (k.setSuperFree s.super onVolume).bytes
  super := k.setSuperFree s.super onVolume
  clock := s.clock
  noSpace := s.noSpace

theorem setCounts_run {k : Kind} {g : Nat} {gd : GroupDesc} {inGroup onVolume : Nat}
    (hfit : s.Fits g) :
    ∃ c, setCounts k e g gd inGroup onVolume s =
      .ok (⟨⟩, (s.countsSet e k g gd inGroup onVolume).at c) := by
  have h : setCounts k e g gd inGroup onVolume s = (do
      let _ ← writeGroupDesc e g (k.setFree gd inGroup)
      let _ ← writeSuperBlock e : Io PUnit)
        { s with super := k.setSuperFree s.super onVolume } := rfl
  have hsize := (@Kind.sameGeometry_setSuperFree s.super onVolume k).blockSize
  obtain ⟨c, hc⟩ := @writeGroupDesc_run e { s with super := k.setSuperFree s.super onVolume } he
    g (k.setFree gd inGroup) (by rw [State.Fits, hsize]; exact hfit)
  rw [h, bind_apply_of_ok hc]
  obtain ⟨c', hc'⟩ := writeSuperBlock_run he
  refine ⟨c', ?_⟩
  rw [bind_apply_of_ok hc', State.countsSet]
  simp only [State.at, State.origin, hsize]
  rfl

end Calls

/-! ## Single calls, on any device -/

section AnyDevice

variable {F : Fault → Prop}

theorem pageAlloc_ends : Ends (pageAlloc e) s F fun b t =>
    (e.Reliable → b = true) ∧ ∃ c, t = s.at c :=
  Ends.of_ok (a := !e.allocFails s.clock) (t := s.at (s.clock + 1)) rfl
    ⟨fun he => by rw [he.alloc]; rfl, s.clock + 1, rfl⟩

theorem devRead_ends {sector count : Nat} : Ends (devRead e sector count) s F fun r t =>
    (e.Reliable → r ≠ none) ∧
      (∀ buf, r = some buf → buf = copyOut e s.disk (512 * sector) (512 * count)) ∧
      ∃ c, t = s.at c := by
  refine Ends.step (a := s.clock) (t := s.at (s.clock + 1)) rfl ?_
  by_cases hfail : e.readFails s.clock = true
  · rw [if_pos hfail]
    refine Ends.pure ⟨fun he => ?_, fun _ h => (by cases h), s.clock + 1, rfl⟩
    rw [he.read] at hfail
    cases hfail
  · rw [if_neg hfail]
    refine Ends.of_ok rfl ⟨fun _ => Option.some_ne_none _, fun buf h => ?_, s.clock + 1, rfl⟩
    exact (Option.some.inj h).symm

theorem readBlock_ends {x : Nat} : Ends (readBlock e x) s F fun r t =>
    (e.Reliable → r ≠ none) ∧
      (∀ buf, r = some buf → buf = copyOut e s.disk (s.origin e x) s.super.blockSize) ∧
      ∃ c, t = s.at c := by
  have h : readBlock e x s = devRead e (sectorOf e s.super x) (s.super.blockSize / 512) s := rfl
  have hends : Ends (devRead e (sectorOf e s.super x) (s.super.blockSize / 512)) s F _ :=
    devRead_ends
  rw [Ends, ← h, sectorOf_mul, SuperBlock.sectors_mul] at hends
  exact hends

theorem devWrite_ends {sector count : Nat} {buf : Bytes} :
    Ends (devWrite e sector count buf) s F fun b t => (e.Reliable → b = true) ∧
      t.disk = if b = true then copyIn s.disk (512 * sector) (512 * count) buf else s.disk := by
  refine Ends.step (a := s.clock) (t := s.at (s.clock + 1)) rfl ?_
  by_cases hfail : e.writeFails s.clock = true
  · rw [if_pos hfail]
    refine Ends.pure ⟨fun he => ?_, rfl⟩
    rw [he.write] at hfail
    cases hfail
  · rw [if_neg hfail]
    exact Ends.of_ok rfl ⟨fun _ => rfl, rfl⟩

end AnyDevice

/-! ## One bit changes -/

/-- Bitmaps, descriptors and superblock lie in different places, and no other place is taken for a
descriptor. -/
structure Roles (e : Env) (s : State) : Prop where
  size_pos : 0 < s.super.blockSize
  per_pos (k : Kind) : 0 < k.perGroup s.super
  per_le (k : Kind) : k.perGroup s.super ≤ 8 * s.super.blockSize
  bitmap_inj {k k' : Kind} {g g' : Nat} : g < s.groups k → g' < s.groups k' →
    s.bitmapBlock e k g = s.bitmapBlock e k' g' → k = k' ∧ g = g'
  bitmap_ne_desc {k k' : Kind} {g g' : Nat} : g < s.groups k → g' < s.groups k' →
    s.bitmapBlock e k g ≠ s.descBlock g'
  super_lt_bitmap {k : Kind} {g : Nat} : g < s.groups k → s.superBlock < s.bitmapBlock e k g
  /-- a descriptor that does not lie in the block is not found in memory behind it -/
  walled {k : Kind} {g : Nat} : g < s.groups k → ¬ s.Fits g → e.mapped g = false

theorem State.origin_congr (h : t.super.blockSize = s.super.blockSize) (x : Nat) :
    t.origin e x = s.origin e x := by
  rw [State.origin, State.origin, h]

theorem State.groups_congr (h : s.super.SameGeometry t.super) (k : Kind) :
    t.groups k = s.groups k := by
  rw [State.groups, State.groups, k.count_congr h, k.perGroup_congr h]

theorem State.descBlock_congr (h : s.super.SameGeometry t.super) (g : Nat) :
    t.descBlock g = s.descBlock g := by
  rw [State.descBlock, State.descBlock, h.blockSize]

theorem State.superBlock_congr (h : s.super.SameGeometry t.super) :
    t.superBlock = s.superBlock := by
  rw [State.superBlock, State.superBlock, h.blockSize]

theorem State.superBlock_lt_two (hsize : 0 < s.super.blockSize) : s.superBlock < 2 := by
  have h := s.super.le_blockSize hsize
  rw [State.superBlock, Nat.div_lt_iff_lt_mul (by omega)]
  omega

/-- A byte of a descriptor, as a byte of a block. -/
theorem State.desc_bytes (hsize : 0 < s.super.blockSize) {g i : Nat} (hi : i < GroupDesc.size) :
    ∃ j, j < s.super.blockSize ∧
      s.origin e gdBlock + GroupDesc.size * g + i = s.origin e (s.descBlock g) + j := by
  have hdvd : GroupDesc.size ∣ s.super.blockSize :=
    Nat.dvd_trans (show 32 ∣ 1024 by decide) s.super.dvd_blockSize
  have hmod : GroupDesc.size ∣ GroupDesc.size * g % s.super.blockSize :=
    (Nat.dvd_mod_iff hdvd).mpr (Nat.dvd_mul_right _ g)
  have hlt : GroupDesc.size * g % s.super.blockSize < s.super.blockSize := Nat.mod_lt _ hsize
  have hdiv := Nat.div_add_mod (GroupDesc.size * g) s.super.blockSize
  refine ⟨GroupDesc.size * g % s.super.blockSize + i, ?_, ?_⟩
  · obtain ⟨a, ha⟩ := hmod
    obtain ⟨b, hb⟩ := hdvd
    have hab : a < b := by
      rw [ha, hb] at hlt
      exact Nat.lt_of_mul_lt_mul_left hlt
    have hab' : GroupDesc.size * (a + 1) ≤ GroupDesc.size * b := Nat.mul_le_mul_left _ hab
    rw [Nat.mul_add, Nat.mul_one, ← ha, ← hb] at hab'
    omega
  · have hmul : s.descBlock g * s.super.blockSize = gdBlock * s.super.blockSize +
        s.super.blockSize * (GroupDesc.size * g / s.super.blockSize) := by
      rw [State.descBlock, Nat.add_mul, Nat.mul_comm (_ / _)]
    simp only [State.origin, hmul]
    omega

theorem number_div_mod {per g i : Nat} (hi : i < per) :
    (g * per + i) / per = g ∧ (g * per + i) % per = i := by
  have hpos : 0 < per := by omega
  rw [Nat.mul_comm g, Nat.mul_add_div hpos, Nat.mul_add_mod, Nat.div_eq_of_lt hi,
    Nat.mod_eq_of_lt hi]
  exact ⟨rfl, rfl⟩

theorem number_eq_iff {per g i n : Nat} (hi : i < per) :
    n = g * per + i ↔ n / per = g ∧ n % per = i := by
  constructor
  · intro h
    rw [h]
    exact number_div_mod hi
  · rintro ⟨hg, hm⟩
    have h := Nat.div_add_mod n per
    rw [hg, hm, Nat.mul_comm] at h
    exact h.symm

/-- The blocks that hold no data: those up to the superblock, and those with descriptors,
bitmaps and inodes. -/
inductive Meta (e : Env) (s : State) : Nat → Prop
  | super {x : Nat} (h : x ≤ s.superBlock) : Meta e s x
  | desc {k : Kind} {g : Nat} (h : g < s.groups k) : Meta e s (s.descBlock g)
  | bitmap {k : Kind} {g : Nat} (h : g < s.groups k) : Meta e s (s.bitmapBlock e k g)
  | table {g i : Nat} (h : g < s.groups .inode) (hi : i < s.super.sInodesPerGroup) :
      Meta e s (u32 ((s.desc e g).bgInodeTable + i / (s.super.blockSize / s.super.sInodeSize)))

/-- The number below which nothing is allocated. -/
def Kind.lowest (sb : SuperBlock) : Kind → Nat
  | .block => sb.sFirstDataBlock
  | .inode => 1

/-- The two states have their metadata in the same places. -/
structure SameLayout (e : Env) (s t : State) : Prop where
  geometry : s.super.SameGeometry t.super
  bitmapBlock {k k' : Kind} {g : Nat} : g < s.groups k → t.bitmapBlock e k' g = s.bitmapBlock e k' g
  inodeTable {k : Kind} {g : Nat} : g < s.groups k →
    (t.desc e g).bgInodeTable = (s.desc e g).bgInodeTable

namespace SameLayout

theorem refl (e : Env) (s : State) : SameLayout e s s :=
  ⟨SuperBlock.SameGeometry.refl s.super, fun _ => rfl, fun _ => rfl⟩

theorem groups (h : SameLayout e s t) (k : Kind) : t.groups k = s.groups k :=
  State.groups_congr h.geometry k

theorem perGroup (h : SameLayout e s t) (k : Kind) : k.perGroup t.super = k.perGroup s.super :=
  k.perGroup_congr h.geometry

theorem lowest (h : SameLayout e s t) (k : Kind) : k.lowest t.super = k.lowest s.super := by
  cases k with
  | block => exact h.geometry.firstDataBlock
  | inode => rfl

theorem symm (h : SameLayout e s t) : SameLayout e t s where
  geometry := h.geometry.symm
  bitmapBlock hg := (h.bitmapBlock (by rwa [h.groups] at hg)).symm
  inodeTable hg := (h.inodeTable (by rwa [h.groups] at hg)).symm

theorem trans {u : State} (h : SameLayout e s t) (h' : SameLayout e t u) : SameLayout e s u where
  geometry := h.geometry.trans h'.geometry
  bitmapBlock hg := (h'.bitmapBlock (by rwa [h.groups])).trans (h.bitmapBlock hg)
  inodeTable hg := (h'.inodeTable (by rwa [h.groups])).trans (h.inodeTable hg)

theorem roles (h : SameLayout e s t) (hr : Roles e s) : Roles e t where
  size_pos := by
    rw [h.geometry.blockSize]
    exact hr.size_pos
  per_pos k := by
    rw [h.perGroup]
    exact hr.per_pos k
  per_le k := by
    rw [h.perGroup, h.geometry.blockSize]
    exact hr.per_le k
  bitmap_inj {k k' g g'} hg hg' heq := by
    rw [h.groups] at hg hg'
    rw [h.bitmapBlock hg, h.bitmapBlock hg'] at heq
    exact hr.bitmap_inj hg hg' heq
  bitmap_ne_desc {k k' g g'} hg hg' := by
    rw [h.groups] at hg hg'
    rw [h.bitmapBlock hg, State.descBlock_congr h.geometry]
    exact hr.bitmap_ne_desc hg hg'
  walled {k g} hg hfit := by
    rw [h.groups] at hg
    rw [State.Fits, h.geometry.blockSize] at hfit
    exact hr.walled hg hfit
  super_lt_bitmap {k g} hg := by
    rw [h.groups] at hg
    rw [h.bitmapBlock hg, State.superBlock_congr h.geometry]
    exact hr.super_lt_bitmap hg

/-- The metadata stays where it is. -/
theorem meta_of (h : SameLayout e s t) {x : Nat} (hx : Meta e t x) : Meta e s x := by
  cases hx with
  | super hx =>
      rw [State.superBlock_congr h.geometry] at hx
      exact .super hx
  | @desc k' g hg =>
      rw [h.groups] at hg
      rw [State.descBlock_congr h.geometry]
      exact .desc hg
  | @bitmap k' g hg =>
      rw [h.groups] at hg
      rw [h.bitmapBlock hg]
      exact .bitmap hg
  | @table g i hg hi =>
      rw [h.groups] at hg
      rw [h.geometry.inodesPerGroup] at hi
      rw [h.inodeTable hg, h.geometry.blockSize, h.geometry.inodeSize]
      exact .table hg hi

end SameLayout

/-- **What one changed bit changes.**  Bit `n` of kind `k` becomes `v`, the count of free ones of
its group `inGroup` and that of the volume `onVolume`.  The contents of other blocks stay, but
for those of `changed`. -/
structure Flip (e : Env) (k : Kind) (n : Nat) (v : Bool) (inGroup onVolume : Nat)
    (changed : Nat → Prop) (s t : State) : Prop where
  super : t.super = k.setSuperFree s.super onVolume
  bitmapBlock {k' k'' : Kind} {g' : Nat} : g' < s.groups k' →
    t.bitmapBlock e k'' g' = s.bitmapBlock e k'' g'
  inodeTable {k' : Kind} {g' : Nat} : g' < s.groups k' →
    (t.desc e g').bgInodeTable = (s.desc e g').bgInodeTable
  bit {k' : Kind} {n' : Nat} : n' / k'.perGroup s.super < s.groups k' →
    t.bit e k' n' = if k' = k ∧ n' = n then v else s.bit e k' n'
  free {k' : Kind} {g' : Nat} : g' < s.groups k' → k'.free (t.desc e g') =
    if k' = k ∧ g' = n / k.perGroup s.super then inGroup % 2 ^ 16 else k'.free (s.desc e g')
  block {y i : Nat} : s.superBlock < y → y ≠ gdBlock →
    y ≠ s.bitmapBlock e k (n / k.perGroup s.super) → ¬ changed y → i < s.super.blockSize →
    t.block e y i = s.block e y i

section Flipped

variable {k : Kind} {g i inGroup onVolume : Nat} {v : Bool} {byte : UInt8} {gd : GroupDesc}

/-- The state after the byte with bit `i` of group `g` has been written, and the counts. -/
def State.flipped (s : State) (e : Env) (k : Kind) (g i : Nat) (byte : UInt8) (gd : GroupDesc)
    (inGroup onVolume : Nat) : State where
  disk := copyIn (copyIn
    (Function.update s.disk (s.origin e (s.bitmapBlock e k g) + i / 8) byte)
    (s.origin e gdBlock + GroupDesc.size * g) GroupDesc.size (k.setFree gd inGroup).bytes)
    1024 1024 (k.setSuperFree s.super onVolume).bytes
  super := k.setSuperFree s.super onVolume
  clock := s.clock
  noSpace := s.noSpace

/-- Bytes that none of the three writes hits. -/
theorem flipped_disk {a : Nat} (hbyte : a ≠ s.origin e (s.bitmapBlock e k g) + i / 8)
    (hdesc : a < s.origin e gdBlock + GroupDesc.size * g ∨
      s.origin e gdBlock + GroupDesc.size * g + GroupDesc.size ≤ a)
    (hsuper : a < 1024 ∨ 2048 ≤ a) :
    (s.flipped e k g i byte gd inGroup onVolume).disk a = s.disk a := by
  simp only [State.flipped]
  rw [copyIn_of_not_mem (by omega), copyIn_of_not_mem hdesc, Function.update_of_ne hbyte]

variable (hr : Roles e s) (hg : g < s.groups k) (hi : i < k.perGroup s.super)
  (hfit : GroupDesc.size * g + GroupDesc.size ≤ s.super.blockSize)

include hr hg hi hfit

omit hr hg hi hfit in
theorem flipped_geometry :
    s.super.SameGeometry (s.flipped e k g i byte gd inGroup onVolume).super :=
  @Kind.sameGeometry_setSuperFree s.super onVolume k

omit hr hg hi hfit in
theorem flipped_origin (x : Nat) :
    (s.flipped e k g i byte gd inGroup onVolume).origin e x = s.origin e x :=
  State.origin_congr flipped_geometry.blockSize x

omit hg in
theorem flipped_block {y j : Nat} (hy : s.superBlock < y) (hgd : y ≠ gdBlock)
    (hbit : y ≠ s.bitmapBlock e k g ∨ j ≠ i / 8) (hj : j < s.super.blockSize) :
    (s.flipped e k g i byte gd inGroup onVolume).block e y j = s.block e y j := by
  have hper := hr.per_le k
  have hlow := State.origin_ge (e := e) hr.size_pos hy
  rw [State.block, flipped_origin]
  refine flipped_disk ?_ ?_ (by omega)
  · intro h
    obtain ⟨hy', hj'⟩ := State.origin_inj hj (show i / 8 < s.super.blockSize by omega) h
    rcases hbit with hbit | hbit
    · exact hbit hy'
    · exact hbit hj'
  · by_contra hin
    obtain ⟨r, hr', hr''⟩ : ∃ r, r < s.super.blockSize ∧
        s.origin e y + j = s.origin e gdBlock + r :=
      ⟨s.origin e y + j - s.origin e gdBlock, by omega, by omega⟩
    exact hgd (State.origin_inj hj hr' hr'').1

omit hfit in
theorem flipped_desc {k' : Kind} {g' j : Nat} (hg' : g' < s.groups k') (hj : j < GroupDesc.size) :
    ((s.flipped e k g i byte gd inGroup onVolume).desc e g').bytes j =
      if g' = g then (k.setFree gd inGroup).bytes j else (s.desc e g').bytes j := by
  have hper := hr.per_le k
  have hgd : s.superBlock < s.descBlock g' :=
    Nat.lt_of_lt_of_le (State.superBlock_lt_two hr.size_pos) (Nat.le_add_right 2 _)
  have hlow := State.origin_ge (e := e) hr.size_pos hgd
  obtain ⟨r, hr', heq⟩ := State.desc_bytes (e := e) hr.size_pos (g := g') hj
  simp only [State.desc, flipped_origin]
  by_cases h : g' = g
  · rw [h] at heq hlow
    rw [if_pos h, h]
    simp only [State.flipped]
    rw [copyIn_of_not_mem (by omega), copyIn_of_mem hj]
  · have hapart : GroupDesc.size * g' + GroupDesc.size ≤ GroupDesc.size * g ∨
        GroupDesc.size * g + GroupDesc.size ≤ GroupDesc.size * g' := by
      rw [show GroupDesc.size = 32 from rfl]
      omega
    rw [if_neg h]
    have hhigh : 2048 ≤ s.origin e gdBlock + GroupDesc.size * g' + j := by
      rw [heq]
      omega
    refine flipped_disk ?_ (by omega) (.inr hhigh)
    rw [heq]
    intro hsame
    obtain ⟨hblock, -⟩ := State.origin_inj hr' (show i / 8 < s.super.blockSize by omega) hsame
    exact hr.bitmap_ne_desc hg hg' hblock.symm

/-- The changed bitmap has the changed byte. -/
theorem flipped_byte :
    (s.flipped e k g i byte gd inGroup onVolume).block e (s.bitmapBlock e k g) (i / 8) = byte := by
  have hper := hr.per_le k
  have hlow := State.origin_ge (e := e) hr.size_pos (hr.super_lt_bitmap hg)
  have hdesc : s.bitmapBlock e k g ≠ gdBlock := by
    have h := hr.bitmap_ne_desc hg (Nat.lt_of_le_of_lt (Nat.zero_le g) hg)
    rwa [State.descBlock, Nat.mul_zero, Nat.zero_div] at h
  rw [State.block, flipped_origin]
  simp only [State.flipped]
  rw [copyIn_of_not_mem (by omega), copyIn_of_not_mem, Function.update_self]
  by_contra hin
  obtain ⟨r, hr', hr''⟩ : ∃ r, r < s.super.blockSize ∧
      s.origin e (s.bitmapBlock e k g) + i / 8 = s.origin e gdBlock + r :=
    ⟨s.origin e (s.bitmapBlock e k g) + i / 8 - s.origin e gdBlock, by omega, by omega⟩
  exact hdesc (State.origin_inj (show i / 8 < s.super.blockSize by omega) hr' hr'').1

omit hfit in
theorem flipped_desc_same {k' : Kind} {g' : Nat} (hg' : g' < s.groups k') : GroupDesc.Same
      (if g' = g then k.setFree gd inGroup else s.desc e g')
      ((s.flipped e k g i byte gd inGroup onVolume).desc e g') := by
  refine GroupDesc.same_of_bytes fun j hj => ?_
  rw [flipped_desc hr hg hi hg' hj]
  split <;> rfl

omit hfit in
theorem flipped_bitmapBlock {k' k'' : Kind} {g' : Nat} (hg' : g' < s.groups k')
    (hgd : (s.desc e g).Same gd) :
    (s.flipped e k g i byte gd inGroup onVolume).bitmapBlock e k'' g' = s.bitmapBlock e k'' g' := by
  rw [State.bitmapBlock, k''.bitmap_congr (flipped_desc_same hr hg hi hg')]
  split
  next h => rw [Kind.bitmap_setFree, k''.bitmap_congr hgd, h, State.bitmapBlock]
  next => rfl

theorem flipped_used {k' : Kind} {g' j : Nat} (hg' : g' < s.groups k')
    (hj : j < k'.perGroup s.super)
    (hbyte : ∀ j, Bitmap.used (Function.update (s.block e (s.bitmapBlock e k g)) (i / 8) byte) j =
      if j = i then v else Bitmap.used (s.block e (s.bitmapBlock e k g)) j) :
    Bitmap.used ((s.flipped e k g i byte gd inGroup onVolume).block e (s.bitmapBlock e k' g')) j =
      if k' = k ∧ g' = g ∧ j = i then v else Bitmap.used (s.block e (s.bitmapBlock e k' g')) j := by
  have hper' := hr.per_le k'
  have hgd : s.bitmapBlock e k' g' ≠ gdBlock := by
    have h := hr.bitmap_ne_desc hg' (Nat.lt_of_le_of_lt (Nat.zero_le g) hg)
    rwa [State.descBlock, Nat.mul_zero, Nat.zero_div] at h
  by_cases hsame : k' = k ∧ g' = g
  · obtain ⟨rfl, rfl⟩ := hsame
    have hu : Bitmap.used ((s.flipped e k' g' i byte gd inGroup onVolume).block e
        (s.bitmapBlock e k' g')) j =
        Bitmap.used (Function.update (s.block e (s.bitmapBlock e k' g')) (i / 8) byte) j := by
      refine Bitmap.used_congr ?_
      by_cases hij : j / 8 = i / 8
      · rw [hij, Function.update_self, flipped_byte hr hg hi hfit]
      · rw [Function.update_of_ne hij]
        exact flipped_block hr hi hfit (hr.super_lt_bitmap hg) hgd (.inr hij) (by omega)
    rw [hu, hbyte]
    simp
  · rw [if_neg fun h => hsame ⟨h.1, h.2.1⟩]
    refine Bitmap.used_congr ?_
    refine flipped_block hr hi hfit (hr.super_lt_bitmap hg') hgd (.inl ?_) (by omega)
    exact fun h => hsame (hr.bitmap_inj hg' hg h)

/-- **The writes behind an allocation or a release are a change of one bit.** -/
theorem flip_flipped (hgd : (s.desc e g).Same gd)
    (hbyte : ∀ j, Bitmap.used (Function.update (s.block e (s.bitmapBlock e k g)) (i / 8) byte) j =
      if j = i then v else Bitmap.used (s.block e (s.bitmapBlock e k g)) j) :
    Flip e k (g * k.perGroup s.super + i) v inGroup onVolume (fun _ => False) s
      (s.flipped e k g i byte gd inGroup onVolume) where
  super := rfl
  bitmapBlock hg' := flipped_bitmapBlock hr hg hi hg' hgd
  inodeTable {k' g'} hg' := by
    rw [(flipped_desc_same hr hg hi hg').inodeTable]
    split
    next h => rw [Kind.inodeTable_setFree, hgd.inodeTable, h]
    next => rfl
  bit {k' n'} hn' := by
    rw [State.bit, State.bit, Kind.perGroup_congr flipped_geometry,
      flipped_bitmapBlock hr hg hi hn' hgd,
      flipped_used hr hg hi hfit hn' (Nat.mod_lt n' (hr.per_pos k')) hbyte]
    by_cases hk : k' = k
    · rw [hk]
      simp only [number_eq_iff hi]
    · rw [if_neg fun h => hk h.1, if_neg fun h => hk h.1]
  free {k' g'} hg' := by
    rw [k'.free_congr (flipped_desc_same hr hg hi hg'), (number_div_mod hi).1]
    by_cases hsame : g' = g
    · rw [if_pos hsame]
      by_cases hk : k' = k
      · rw [if_pos ⟨hk, hsame⟩, hk, Kind.free_setFree_self]
      · rw [if_neg fun h => hk h.1, Kind.free_setFree_of_ne hk, k'.free_congr hgd, hsame]
    · rw [if_neg hsame, if_neg fun h => hsame h.2]
  block {y j} hy hgd' hne _ hj := by
    rw [(number_div_mod hi).1] at hne
    exact flipped_block hr hi hfit hy hgd' (.inl hne) hj

end Flipped

end InfoKernel.Ext2
