import InfoKernel.Fs.Directory

/-!
# What the allocators leave alone

An allocator changes a bitmap, a descriptor and the superblock.  All other blocks last: those with
data and, where the inode tables lie apart from the bitmaps (`Tables`), those with inodes.  `Lasts`
says so of two states, but for the blocks of a set, and what is read of the inodes, of the block
maps and of the directories follows from it.
-/

namespace InfoKernel.Ext2

open Lib

variable {e : Env} {s t u : State} {x y : Nat} {A B : Nat → Prop}

/-- The blocks with inodes and data hold what they held, but for those of `A`. -/
structure Lasts (e : Env) (A : Nat → Prop) (s t : State) : Prop where
  layout : SameLayout e s t
  block {y i : Nat} : Lasting e s y → ¬ A y → i < s.super.blockSize →
    t.block e y i = s.block e y i

namespace Lasts

theorem at_right (s : State) (c : Nat) (f : Bool) :
    Lasts e A s { s with clock := c, noSpace := f } where
  layout := ⟨SuperBlock.SameGeometry.refl s.super, fun _ => rfl, fun _ => rfl⟩
  block _ _ _ := rfl

theorem mono (h : Lasts e A s t) (hAB : ∀ y, A y → B y) : Lasts e B s t where
  layout := h.layout
  block hy hB := h.block hy fun hA => hB (hAB _ hA)

theorem trans (h : Lasts e A s t) (h' : Lasts e A t u) : Lasts e A s u where
  layout := h.layout.trans h'.layout
  block {y i} hy hA hi := by
    rw [h'.block (hy.of_layout h.layout) hA (by rwa [h.layout.geometry.blockSize]),
      h.block hy hA hi]

/-- A bit has been changed. -/
theorem of_flip {k : Kind} {n a b : Nat} {v : Bool} (h : Flip e k n v a b (fun _ => False) s t)
    (hn : n / k.perGroup s.super < s.groups k) : Lasts e A s t where
  layout := h.layout
  block hy _ hi := h.block_lasting hn hy hi

/-- A block has been written. -/
theorem of_written {buf : Bytes} (h : Written e x buf s t) (hl : SameLayout e s t) :
    Lasts e (fun y => y = x) s t where
  layout := hl
  block _ hne hi := h.of_ne hne hi

end Lasts

/-! ## Block maps and directories -/

namespace Lasts

variable {κ : Type} {f : κ → Inode} {k : κ} {os : Nat → List Nat}

/-- The pointer blocks hold what they held. -/
theorem ref_eq (h : Lasts e A s t) (hm : Mapped e f s) (hA : ∀ y, s.Points e f y → ¬ A y)
    {p : (κ × Nat) × List Nat} (hp : (s.shape κ).Pos p) :
    (t.forest e f).ref p = (s.forest e f).ref p := by
  have hroot : (t.forest e f).root = (s.forest e f).root := rfl
  refine Forest.ref_of_same hroot (fun q hq hne i hi => ?_) hp
  exact words_congr (fun _ hj =>
    h.block (.of_data (hm.owned hq hne).data) (hA _ ⟨q, hq, rfl⟩) hj) hi

theorem files (h : Lasts e A s t) (hf : Files e f s) (hA : ∀ y, s.Points e f y → ¬ A y)
    (hfree : ∀ {n}, Free e t .block n → Free e s .block n) : Files e f t where
  consistent := ⟨h.layout.roles hf.consistent.roles, fun hy hn =>
    hf.consistent.meta_used (h.layout.meta_of hy) (hfree hn)⟩
  unshared p q hp hq hne heq := by
    rw [State.shape_congr h.layout.geometry] at hp hq
    rw [h.ref_eq hf.mapped hA hp] at hne heq
    rw [h.ref_eq hf.mapped hA hq] at heq
    exact hf.unshared p q hp hq hne heq
  owned {p} hp hne := by
    rw [State.shape_congr h.layout.geometry] at hp
    rw [h.ref_eq hf.mapped hA hp] at hne ⊢
    have hown := hf.owned hp hne
    exact ⟨fun hn => hown.used (hfree hn), fun hx => hown.data (h.layout.meta_of hx)⟩

/-- The directories whose blocks last. -/
theorem directory (h : Lasts e A s t) (hf : Files e f s) (hA : ∀ y, s.Refers e f y → ¬ A y)
    (hd : Directory e f s k os) :
    Directory e f t k os ∧ dirEntries e f t k os = dirEntries e f s k os := by
  have hsize := hf.consistent.roles.size_pos
  have hpoints : ∀ y, s.Points e f y → ¬ A y := by
    rintro y ⟨p, hp, hy⟩
    exact hA y ⟨p, hp.pos, hy⟩
  refine hd.congr h.layout.geometry rfl rfl fun i hi => ?_
  have hpos := (filePos_leaf hsize (dirBlock_in_range hsize hi).1 k).pos
  have hsame : t.dataBlock e f k i = s.dataBlock e f k i := by
    rw [State.dataBlock_congr h.layout.geometry]
    exact h.ref_eq hf.mapped hpoints hpos
  rw [hsame]
  have hne := hd.mapped hi
  exact ⟨hne, fun j hj => h.block (.of_data (hf.owned hpos hne).data) (hA _ ⟨_, hpos, rfl⟩) hj⟩

end Lasts

/-! ## Giving a bit back -/

/-- **A bit that has been taken is given back.**  Between the two the superblock, the descriptors
and the bits have not changed; afterwards they are what they were at first. -/
theorem Flip.undo {k : Kind} {n : Nat} {t' : State} (hc : Counted e s) (hfree : Free e s k n)
    (h : Flip e k n true (k.free (s.desc e (n / k.perGroup s.super)) - 1)
      (sub32 (k.superFree s.super) 1) (fun _ => False) s t) (hsame : SameBits e t t')
    (h' : Flip e k n false (u16 (k.free (t'.desc e (n / k.perGroup t'.super)) + 1))
      (u32 (k.superFree t'.super + 1)) (fun _ => False) t' u) : SameBits e s u := by
  have hl := h.layout.trans hsame.layout
  have hper : n / k.perGroup t'.super = n / k.perGroup s.super := by rw [hl.perGroup]
  have hgroup := hfree.group
  have hgroup' : n / k.perGroup s.super < t.groups k := by rwa [h.layout.groups]
  have hgroup'' : n / k.perGroup s.super < t'.groups k := by rwa [hl.groups]
  -- the counts before
  have hpos : 0 < k.free (s.desc e (n / k.perGroup s.super)) := by
    rw [hc.inGroup hgroup]
    exact Finset.card_pos.mpr ⟨_, hfree.mem (hc.roles.per_pos k)⟩
  have hle := hc.free_le hgroup
  have hlt := hc.perGroup_lt k
  have hsum := hc.free_le_onVolume hgroup
  have hbound : k.superFree s.super < 2 ^ 32 := by
    cases k <;> exact getLE_lt _ _ _
  refine ⟨?_, hl.trans h'.layout, fun {k' g} hg => ?_, fun {k' m} hm => ?_⟩
  · rw [h'.super, hsame.super, h.super]
    refine k.setSuperFree_setSuperFree ?_
    rw [k.superFree_setSuperFree_self]
    simp only [u32, sub32]
    omega
  · rw [h'.free (by rwa [hl.groups]), hper]
    by_cases hkg : k' = k ∧ g = n / k.perGroup s.super
    · obtain ⟨rfl, rfl⟩ := hkg
      rw [if_pos ⟨rfl, rfl⟩, hsame.free hgroup', h.free hgroup, if_pos ⟨rfl, rfl⟩]
      simp only [u16]
      omega
    · rw [if_neg hkg, hsame.free (by rwa [h.layout.groups]), h.free hg, if_neg hkg]
  · rw [h'.bit (by rwa [hl.perGroup, hl.groups])]
    by_cases hkm : k' = k ∧ m = n
    · obtain ⟨rfl, rfl⟩ := hkm
      rw [if_pos ⟨rfl, rfl⟩]
      exact hfree.clear.symm
    · rw [if_neg hkm, hsame.bit (by rwa [h.layout.perGroup, h.layout.groups]), h.bit hm, if_neg hkm]

/-! ## The inodes -/

/-- `n` is the number of an inode. -/
def State.HasInode (s : State) (n : Nat) : Prop := s.InGroups (s.groups .inode) n

/-- The block with inode `n`. -/
def State.inodeBlock (s : State) (e : Env) (n : Nat) : Nat :=
  s.tableBlock e (s.inodeGroup n) (s.inodeInGroup n)

/-- Inode `n`, as it stands on the device. -/
def State.inodeAt (s : State) (e : Env) (n : Nat) : Inode := ⟨fun i => s.disk (s.slot e n + i)⟩

/-- **The inode tables of all groups** lie apart from each other and from all else that is not
data. -/
structure Tables (e : Env) (s : State) : Prop where
  tables : InodeTables e s (s.groups .inode)
  lasting {g i : Nat} : g < s.groups .inode → i < s.super.sInodesPerGroup →
    Lasting e s (s.tableBlock e g i)

variable {n m : Nat}

theorem SameLayout.hasInode (h : SameLayout e s t) : t.HasInode n ↔ s.HasInode n := by
  rw [State.HasInode, State.HasInode, State.InGroups, State.InGroups, State.inodeGroup,
    State.inodeGroup, h.groups, h.geometry.inodesPerGroup]

theorem SameLayout.tableBlock {g i : Nat} (h : SameLayout e s t) (hg : g < s.groups .inode) :
    t.tableBlock e g i = s.tableBlock e g i := by
  rw [State.tableBlock, State.tableBlock, SuperBlock.inodesPerBlock, SuperBlock.inodesPerBlock,
    h.inodeTable hg, h.geometry.blockSize, h.geometry.inodeSize]

theorem SameLayout.inodeBlock (h : SameLayout e s t) (hn : s.HasInode n) :
    t.inodeBlock e n = s.inodeBlock e n := by
  have hg : t.inodeGroup n = s.inodeGroup n := by
    rw [State.inodeGroup, State.inodeGroup, h.geometry.inodesPerGroup]
  have hi : t.inodeInGroup n = s.inodeInGroup n := by
    rw [State.inodeInGroup, State.inodeInGroup, h.geometry.inodesPerGroup]
  rw [State.inodeBlock, State.inodeBlock, hg, hi]
  exact h.tableBlock hn.2

namespace Tables

variable (h : Tables e s)

include h

theorem of_layout (hl : SameLayout e s t) : Tables e t where
  tables := by
    rw [hl.groups]
    exact h.tables.of_layout hl (Nat.le_refl _)
  lasting {g i} hg hi := by
    rw [hl.groups] at hg
    rw [hl.geometry.inodesPerGroup] at hi
    rw [hl.tableBlock hg]
    exact (h.lasting hg hi).of_layout hl

theorem inodeBlock_lasting (hn : s.HasInode n) : Lasting e s (s.inodeBlock e n) :=
  h.lasting hn.2 (h.tables.inodeInGroup_lt n)

theorem inodeBlock_meta (hn : s.HasInode n) : Meta e s (s.inodeBlock e n) :=
  h.tables.tableBlock_meta hn (Nat.le_refl _)

/-- `ReadInode` gives the inode as it stands on the device. -/
theorem readInode_run (he : e.Reliable) (hn : s.HasInode n) :
    ∃ y c, readInode e n s = .ok (.ok y, s.at c) ∧ y.Same (s.inodeAt e n) :=
  h.tables.readInode_run he hn

/-- The inodes in blocks that last. -/
theorem inodeAt_of_lasts (hs : Lasts e A s t) (hn : s.HasInode n) (hA : ¬ A (s.inodeBlock e n)) :
    (t.inodeAt e n).Same (s.inodeAt e n) := by
  intro i hi
  have hfit := h.tables.offset_fits hn.2 (s.inodeInGroup n)
  have hblock := hs.block (h.inodeBlock_lasting hn) hA
    (show s.tableOffset (s.inodeInGroup n) + i < s.super.blockSize by omega)
  have hgeo := hs.layout.geometry
  have hslot : t.slot e n = t.origin e (s.inodeBlock e n) + s.tableOffset (s.inodeInGroup n) := by
    have hoffset : t.tableOffset (t.inodeInGroup n) = s.tableOffset (s.inodeInGroup n) := by
      rw [State.tableOffset, State.tableOffset, State.inodeInGroup, State.inodeInGroup,
        SuperBlock.inodesPerBlock, SuperBlock.inodesPerBlock, hgeo.blockSize, hgeo.inodeSize,
        hgeo.inodesPerGroup]
    rw [← hs.layout.inodeBlock hn, ← hoffset]
    rfl
  show t.disk (t.slot e n + i) = s.disk (s.slot e n + i)
  rw [hslot, State.slot, Nat.add_assoc, Nat.add_assoc]
  exact hblock

/-- **`WriteInode` changes one inode** and nothing else. -/
theorem writeInode_run (he : e.Reliable) (hr : Roles e s) (hn : s.HasInode n) (x : Inode) :
    ∃ t, writeInode e n x s = .ok (0, t) ∧ SameBits e s t ∧
      Lasts e (fun y => y = s.inodeBlock e n) s t ∧ (t.inodeAt e n).Same x ∧
      ∀ m, s.HasInode m → m ≠ n → (t.inodeAt e m).Same (s.inodeAt e m) := by
  obtain ⟨c, hrun⟩ := h.tables.writeInode_run he hn x
  have hlasting := h.inodeBlock_lasting hn
  have hwritten : Written e (s.inodeBlock e n) ((s.written e n x).block e (s.inodeBlock e n)) s
      ((s.written e n x).at c) :=
    ⟨rfl, rfl, fun _ => rfl, fun hy hi => h.tables.block_written hn x hy hi⟩
  have hbits := hwritten.sameBits_of_ne hr (fun _ _ => hlasting.ne_desc)
    fun _ _ => hlasting.ne_bitmap
  refine ⟨_, hrun, hbits, Lasts.of_written hwritten hbits.layout, fun i hi => ?_,
    fun m hm hne i hi => ?_⟩
  · show (s.written e n x).disk ((s.written e n x).slot e n + i) = _
    rw [h.tables.slot_written hn hn]
    exact InodeTables.disk_written_self hi
  · show (s.written e n x).disk ((s.written e n x).slot e m + i) = _
    rw [h.tables.slot_written hn hm]
    exact h.tables.disk_written_of_ne hn hm hne x hi

end Tables

end InfoKernel.Ext2
