import InfoKernel.Fs.SmallVolume

/-!
# The table of the groups

By the format the descriptors of the groups follow each other from the block behind the one with
the superblock on, which is block `s_first_data_block + 1`, and go on into as many blocks as they
need.  `ReadGroupDesc` and `WriteGroupDesc` know one of these blocks: they move block 2 whatever
the superblock says, and use the number of the group as an index into it.

So they are right (`TableRight`) for the first groups of a volume whose first data block is block
1, which is a volume with blocks of 1 KiB, and wrong otherwise: `tableRight_iff` is the exact
condition.  A volume with larger blocks has first data block 0 and its table in block 1, and the
descriptors of the groups from `block_size / 32` on are read from behind the buffer.
-/

namespace InfoKernel.Ext2

open Lib

variable {e : Env} {s : State} {sb : SuperBlock} {g : Nat} {gd : GroupDesc}

/-- The first byte of the descriptor of group `g`, by the format. -/
def State.tableByte (s : State) (e : Env) (g : Nat) : Nat :=
  512 * e.lba + (s.super.sFirstDataBlock + 1) * s.super.blockSize + GroupDesc.size * g

/-- The number of groups that hold all blocks from the first data block on. -/
def SuperBlock.groupCount (sb : SuperBlock) : Nat :=
  (sb.sBlocksCount - sb.sFirstDataBlock + (sb.sBlocksPerGroup - 1)) / sb.sBlocksPerGroup

/-- On every device the two functions move the descriptor of group `g` that the format means and
nothing else, and stay in their buffers. -/
structure TableRight (sb : SuperBlock) (g : Nat) : Prop where
  read (e : Env) (s : State) (hs : s.super = sb) :
    Ends (readGroupDesc e g) s (fun _ => False) fun r t => t.disk = s.disk ∧
      (e.Reliable → ∃ gd, r = .ok gd) ∧
      ∀ gd, r = .ok gd → ∀ i, i < GroupDesc.size → gd.bytes i = s.disk (s.tableByte e g + i)
  write (e : Env) (s : State) (gd : GroupDesc) (hs : s.super = sb) :
    Ends (writeGroupDesc e g gd) s (fun _ => False) fun r t => (e.Reliable → r = 0) ∧
      t.disk = if r = 0 then copyIn s.disk (s.tableByte e g) GroupDesc.size gd.bytes else s.disk

/-! ## The descriptors of block 2 -/

/-- What `ReadGroupDesc` reads, for a group whose descriptor would lie in block 2. -/
theorem readGroupDesc_ends (hfit : s.Fits g) :
    Ends (readGroupDesc e g) s (fun _ => False) fun r t => t.disk = s.disk ∧
      (e.Reliable → ∃ gd, r = .ok gd) ∧
      ∀ gd, r = .ok gd → ∀ i, i < GroupDesc.size →
        gd.bytes i = s.disk (s.origin e gdBlock + GroupDesc.size * g + i) := by
  refine Ends.step (super_run s) (Ends.bind pageAlloc_ends fun b t ⟨hb, c, ht⟩ => ?_)
  subst ht
  cases b with
  | false => exact Ends.pure ⟨rfl, fun he => absurd (hb he) (by decide), fun _ h => by cases h⟩
  | true =>
      rw [show (!true) = false from rfl, if_neg (by decide)]
      refine Ends.bind devRead_ends fun r u ⟨hr, hbuf, c', hu⟩ => ?_
      subst hu
      cases r with
      | none => exact Ends.pure ⟨rfl, fun he => absurd rfl (hr he), fun _ h => by cases h⟩
      | some buf =>
          show Ends (if _ then _ else _) _ _ _
          rw [if_pos hfit.descThere]
          refine Ends.pure ⟨rfl, fun _ => ⟨_, rfl⟩, fun gd hgd i hi => ?_⟩
          injection hgd with hgd
          rw [← hgd, hbuf buf rfl, sectorOf_mul, SuperBlock.sectors_mul]
          show copyOut _ _ _ _ _ = _
          have hle : GroupDesc.size * g + GroupDesc.size ≤ s.super.blockSize := hfit
          rw [copyOut_of_lt (by omega), Nat.add_assoc]
          rfl

/-- What `WriteGroupDesc` writes, for a group whose descriptor would lie in block 2. -/
theorem writeGroupDesc_ends (hfit : s.Fits g) :
    Ends (writeGroupDesc e g gd) s (fun _ => False) fun r t => (e.Reliable → r = 0) ∧
      t.disk = if r = 0 then
        copyIn s.disk (s.origin e gdBlock + GroupDesc.size * g) GroupDesc.size gd.bytes
      else s.disk := by
  refine Ends.step (super_run s) (Ends.bind pageAlloc_ends fun b t ⟨hb, c, ht⟩ => ?_)
  subst ht
  cases b with
  | false => exact Ends.pure ⟨fun he => absurd (hb he) (by decide), rfl⟩
  | true =>
      rw [show (!true) = false from rfl, if_neg (by decide)]
      refine Ends.bind devRead_ends fun r u ⟨hr, hbuf, c', hu⟩ => ?_
      subst hu
      cases r with
      | none => exact Ends.pure ⟨fun he => absurd rfl (hr he), rfl⟩
      | some buf =>
          show Ends (if _ then _ else _) _ _ _
          rw [if_pos hfit.descThere]
          refine Ends.bind devWrite_ends fun b v ⟨hb', hdisk⟩ => ?_
          cases b with
          | false => exact Ends.pure ⟨fun he => absurd (hb' he) (by decide), hdisk⟩
          | true =>
              refine Ends.pure ⟨fun _ => rfl, ?_⟩
              rw [if_pos rfl] at hdisk ⊢
              rw [hdisk, hbuf buf rfl, sectorOf_mul, SuperBlock.sectors_mul]
              exact copyIn_copyIn_copyOut (show _ ≤ _ from hfit)

/-- Block 2 is the block behind the first data block. -/
theorem tableByte_eq (hfirst : s.super.sFirstDataBlock = 1) :
    s.tableByte e g = s.origin e gdBlock + GroupDesc.size * g := by
  rw [State.tableByte, State.origin, hfirst]
  rfl

/-! ## When they are right -/

/-- The index of a group of a later block lies behind the buffer, where there need be no memory. -/
theorem readGroupDesc_behind (he : e.Reliable) (hfit : ¬ s.Fits g) (hmapped : e.mapped g = false) :
    readGroupDesc e g s = .error .outOfBounds := by
  rw [readGroupDesc_run he, State.descThere_eq_false hfit hmapped, if_neg Bool.false_ne_true]

theorem TableRight.fits (h : TableRight sb g) (hs : s.super = sb) : s.Fits g := by
  obtain ⟨r, t, hrun, -⟩ := (h.read (Env.ideal 0) s hs).exists_ok
  by_contra hno
  rw [readGroupDesc_behind (Env.ideal_reliable 0) hno rfl] at hrun
  cases hrun

/-- The first byte that is read is the one that the format means. -/
theorem TableRight.byte (h : TableRight sb g) (hs : s.super = sb) :
    s.disk (s.tableByte (Env.ideal 0) g) =
      s.disk (s.origin (Env.ideal 0) gdBlock + GroupDesc.size * g) := by
  have hfit := h.fits hs
  obtain ⟨r, t, hrun, -, hok, hbytes⟩ := (h.read (Env.ideal 0) s hs).exists_ok
  obtain ⟨gd, rfl⟩ := hok (Env.ideal_reliable 0)
  have hbytes' := ((readGroupDesc_ends (e := Env.ideal 0) hfit).of_result hrun).2.2
  have hfirst := (hbytes gd rfl 0 (by decide)).symm.trans (hbytes' gd rfl 0 (by decide))
  rwa [Nat.add_zero, Nat.add_zero] at hfirst

/-- The table starts in block 2 when its bytes are always those of block 2. -/
theorem TableRight.first (h : TableRight sb g) (hpos : 0 < sb.blockSize) :
    sb.sFirstDataBlock = 1 := by
  -- a device that is `1` where the format has the descriptor, and `0` elsewhere
  have hplace : ∀ a b : Nat,
      (∀ disk : Bytes, disk a = disk b) → a = b := fun a b hdisk => by
    by_contra hne
    have hone := hdisk (Function.update (fun _ => 0) a 1)
    rw [Function.update_self, Function.update_of_ne (Ne.symm hne)] at hone
    exact absurd hone (by decide)
  let s : Bytes → State := fun disk => ⟨disk, sb, 0, false⟩
  have heq := hplace ((s fun _ => 0).tableByte (Env.ideal 0) g)
    ((s fun _ => 0).origin (Env.ideal 0) gdBlock + GroupDesc.size * g)
    fun disk => h.byte (s := s disk) rfl
  have hmul : (sb.sFirstDataBlock + 1) * sb.blockSize = gdBlock * sb.blockSize :=
    Nat.add_left_cancel (Nat.add_right_cancel heq)
  have hblock := Nat.eq_of_mul_eq_mul_right hpos hmul
  rw [gdBlock] at hblock
  omega

theorem blockSize_pos_of_log_le (hlog : sb.sLogBlockSize ≤ 2) : 0 < sb.blockSize := by
  have hle : 2 ^ sb.sLogBlockSize ≤ 2 ^ 2 := Nat.pow_le_pow_right (by decide) hlog
  have hlt := Nat.two_pow_pos sb.sLogBlockSize
  rw [SuperBlock.blockSize, u32, Nat.mod_eq_of_lt (by omega)]
  omega

/-- **The descriptors that the format means** are those which the two functions move exactly for
the groups of the first block of a table that starts in block 2. -/
theorem tableRight_iff (hlog : sb.sLogBlockSize ≤ 2) :
    TableRight sb g ↔
      sb.sFirstDataBlock = 1 ∧ GroupDesc.size * g + GroupDesc.size ≤ sb.blockSize := by
  constructor
  · exact fun h => ⟨h.first (blockSize_pos_of_log_le hlog),
      h.fits (s := ⟨fun _ => 0, sb, 0, false⟩) rfl⟩
  · rintro ⟨hfirst, hfit⟩
    refine ⟨fun e s hs => ?_, fun e s gd hs => ?_⟩
    · subst hs
      rw [tableByte_eq hfirst]
      exact readGroupDesc_ends hfit
    · subst hs
      rw [tableByte_eq hfirst]
      exact writeGroupDesc_ends hfit

/-- The descriptor of the only group of a volume with blocks of 1 KiB. -/
theorem tableRight_small : TableRight (Small.super 1) 0 :=
  (tableRight_iff (by decide)).mpr ⟨by decide, by decide⟩

/-- A volume of 32768 blocks of 4 KiB, in one group. -/
def largeBlocks : SuperBlock :=
  ⟨Small.store (fun _ => 0) [(0, 4, 8192), (4, 4, 32768), (20, 4, 0), (24, 4, 2), (32, 4, 32768),
    (40, 4, 8192), (56, 2, 0xEF53), (88, 2, 128)]⟩

/-- With larger blocks the table is in block 1, and block 2 is moved. -/
theorem not_tableRight_largeBlocks : ¬ ∀ (sb : SuperBlock) (g : Nat), sb.sLogBlockSize ≤ 2 →
    g < sb.groupCount → TableRight sb g := by
  intro h
  have hright := h largeBlocks 0 (by decide) (by decide)
  have hfirst := hright.first (by decide)
  exact absurd hfirst (by decide)

end InfoKernel.Ext2
