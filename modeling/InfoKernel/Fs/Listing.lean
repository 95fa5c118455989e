import InfoKernel.Fs.Records
import InfoKernel.Fs.FileBytes
import InfoKernel.Fs.InodeTable
import InfoKernel.Fs.Looks
import Mathlib.Data.List.Find

/-!
# What a directory lists

A directory is a file whose blocks are tiled by records, and whose live records have different
names; it may have holes, which have no records.  `Listing` says so of the file of one inode of a
family.  What the directory says as a whole are its `dirEntries`, the entries of its blocks in
their order, and `FindEntry` looks a name up in this list (`Listing.findEntry_run`).
-/

namespace InfoKernel.Ext2

open Lib

variable {κ : Type} {e : Env} {f g : κ → Inode} {s t : State} {k : κ} {os : Nat → List Nat}

/-- The block of the partition with block `i` of the file of `k`. -/
def State.dataBlock (s : State) (e : Env) (f : κ → Inode) (k : κ) (i : Nat) : Nat :=
  (s.forest e f).ref (filePos s.super.ptrsPerBlock k i)

/-- What the records in the block `i` of the file of `k` say, when they begin at `os`. -/
def blockEntries (e : Env) (f : κ → Inode) (s : State) (k : κ) (i : Nat) (os : List Nat) :
    List (List UInt8 × Nat) :=
  Dirent.entries (s.block e (s.dataBlock e f k i)) os

/-- What the records of the directory say, in their order. -/
def dirEntries (e : Env) (f : κ → Inode) (s : State) (k : κ) (os : Nat → List Nat) :
    List (List UInt8 × Nat) :=
  (List.range (dirBlockCount s.super (f k))).flatMap fun i => blockEntries e f s k i (os i)

/-- **What a directory lists**: its blocks are tiled by records, those of block `i` begin at
`os i`, and no two live records have the same name.  A hole has no records. -/
structure Listing (e : Env) (f : κ → Inode) (s : State) (k : κ) (os : Nat → List Nat) : Prop where
  isDir : (f k).isDir = true
  tiles {i : Nat} : i < dirBlockCount s.super (f k) → s.dataBlock e f k i ≠ 0 →
    Dirent.Tiles s.super.blockSize (s.block e (s.dataBlock e f k i)) 0 (os i)
  hole {i : Nat} : i < dirBlockCount s.super (f k) → s.dataBlock e f k i = 0 → os i = []
  distinct : Distinct (dirEntries e f s k os)

/-- Kernels whose partition begins at the same sector find the same. -/
theorem Listing.of_lba {e' : Env} (h : Listing e f s k os) (hlba : e'.lba = e.lba) :
    Listing e' f s k os := by
  cases e
  cases e'
  cases hlba
  exact ⟨h.isDir, h.tiles, h.hole, h.distinct⟩

/-! ## The blocks of a directory -/

/-- The blocks of a directory are in range. -/
theorem dirBlock_in_range (hsize : 0 < s.super.blockSize) {inode : Inode} {i : Nat}
    (hi : i < dirBlockCount s.super inode) :
    i < maxBlocks s.super.ptrsPerBlock ∧ Reached s.super.ptrsPerBlock i := by
  have hlt : i * s.super.blockSize < 2 ^ 32 :=
    Nat.lt_of_le_of_lt (Nat.mul_le_mul_right _ (Nat.le_of_lt hi)) ceilDiv_mul_lt
  have h := byte_in_range hsize hlt
  rwa [Nat.mul_div_cancel i hsize] at h

theorem blockEntries_nil (i : Nat) : blockEntries e f s k i [] = [] := rfl

/-- The blocks depend on the bytes of the inode only. -/
theorem dataBlock_of_same (hsize : 0 < s.super.blockSize) (h : (g k).Same (f k)) {i : Nat}
    (hi : i < dirBlockCount s.super (f k)) : s.dataBlock e g k i = s.dataBlock e f k i := by
  have hroot := (filePos_leaf hsize (dirBlock_in_range hsize hi).1 k).pos.root
  exact congrArg (fun x => walk (s.words e) x _) (h.iBlock hroot)

theorem dirBlockCount_of_same {inode inode' : Inode} (h : inode'.Same inode) :
    dirBlockCount s.super inode' = dirBlockCount s.super inode := by
  rw [dirBlockCount, dirBlockCount, h.iSize]

/-- What block `i` of the directory says is read off its bytes. -/
theorem Listing.blockEntries_congr (hd : Listing e f s k os) {i : Nat}
    (hi : i < dirBlockCount s.super (f k)) (hbytes : s.dataBlock e f k i ≠ 0 →
      ∀ j, j < s.super.blockSize → t.block e (t.dataBlock e g k i) j =
        s.block e (s.dataBlock e f k i) j) :
    blockEntries e g t k i (os i) = blockEntries e f s k i (os i) := by
  by_cases hhole : s.dataBlock e f k i = 0
  · rw [hd.hole hi hhole]
    rfl
  · exact (hd.tiles hi hhole).entries_of_block (hbytes hhole)

/-- **What is listed is read off the blocks of the directory**, and off its inode's type, size and
block map. -/
theorem Listing.congr (hd : Listing e f s k os) (hgeo : s.super.SameGeometry t.super)
    (h : (g k).Alike (f k)) (hblock : ∀ i, i < dirBlockCount s.super (f k) →
      t.dataBlock e g k i = s.dataBlock e f k i ∧ (s.dataBlock e f k i ≠ 0 →
        ∀ j, j < s.super.blockSize →
          t.block e (s.dataBlock e f k i) j = s.block e (s.dataBlock e f k i) j)) :
    Listing e g t k os ∧ dirEntries e g t k os = dirEntries e f s k os := by
  have hcount : dirBlockCount t.super (g k) = dirBlockCount s.super (f k) := by
    rw [dirBlockCount, dirBlockCount, h.iSize, hgeo.blockSize]
  have hbytes : ∀ i, i < dirBlockCount s.super (f k) → s.dataBlock e f k i ≠ 0 →
      ∀ j, j < s.super.blockSize →
        t.block e (t.dataBlock e g k i) j = s.block e (s.dataBlock e f k i) j := by
    intro i hi hne j hj
    obtain ⟨hsame, hkept⟩ := hblock i hi
    rw [hsame]
    exact hkept hne j hj
  have hentries : dirEntries e g t k os = dirEntries e f s k os := by
    rw [dirEntries, dirEntries, hcount]
    refine List.flatMap_congr fun i hi => ?_
    exact hd.blockEntries_congr (List.mem_range.mp hi) (hbytes i (List.mem_range.mp hi))
  refine ⟨⟨h.isDir.trans hd.isDir, fun {i} hi hne => ?_, fun {i} hi hhole => ?_, ?_⟩, hentries⟩
  · rw [hcount] at hi
    rw [(hblock i hi).1] at hne
    rw [hgeo.blockSize]
    exact (hd.tiles hi hne).of_block (hbytes i hi hne)
  · rw [hcount] at hi
    rw [(hblock i hi).1] at hhole
    exact hd.hole hi hhole
  · rw [hentries]
    exact hd.distinct

/-- What is listed depends on the bytes of the inode only. -/
theorem Listing.of_same (hd : Listing e f s k os) (hsize : 0 < s.super.blockSize)
    (h : (g k).Same (f k)) :
    Listing e g s k os ∧ dirEntries e g s k os = dirEntries e f s k os :=
  hd.congr (SuperBlock.SameGeometry.refl s.super) h.alike fun _ hi =>
    ⟨dataBlock_of_same hsize h hi, fun _ _ _ => rfl⟩

/-! ## Finding a name -/

/-- What a search says: the inode of the entry, or nothing. -/
def found (r : Except Int Bytes) : Option Nat := r.toOption.map fun entry => direntInode entry 0

section Finding

variable (he : e.Reliable)

include he

/-- Where a block of the directory lies. -/
theorem dataBlock_run (hsize : 0 < s.super.blockSize) {i : Nat} (hi : i <
    dirBlockCount s.super (f k))
    (c : Nat) : ∃ c', getBlockNum e (f k) i (s.at c) = .ok (s.dataBlock e f k i, s.at c') := by
  obtain ⟨hmax, hreach⟩ := dirBlock_in_range hsize hi
  exact getBlockNum_run (s := s.at c) he hsize hmax hreach k

/-- The walk through the blocks, `left` of them from `block` on. -/
theorem findFrom_run (hd : Listing e f s k os) (hsize : 0 < s.super.blockSize) {x : List UInt8}
    {n : Nat} (hn : s.super.blockSize < n) {left block c : Nat}
    (hleft : block + left = dirBlockCount s.super (f k)) : ∃ r c', findFrom e (f k) x n left block
      (s.at c) = .ok (r, s.at c') ∧
        found r = ((List.range' block left).flatMap fun i =>
          blockEntries e f s k i (os i)).lookup x := by
  induction left generalizing block c with
  | zero => exact ⟨.error (-4), c, rfl, rfl⟩
  | succ left ih =>
      have hlt : block < dirBlockCount s.super (f k) := by omega
      obtain ⟨c₁, hget⟩ := dataBlock_run he hsize hlt c
      rw [List.range'_succ, List.flatMap_cons, findFrom, bind_apply_of_ok hget]
      by_cases hhole : s.dataBlock e f k block = 0
      · -- a hole is passed over
        obtain ⟨r, c₂, hrest, hr⟩ := @ih (block + 1) c₁ (by omega)
        rw [if_pos hhole, hd.hole hlt hhole, blockEntries_nil, List.nil_append]
        exact ⟨r, c₂, hrest, hr⟩
      have htiles := hd.tiles hlt hhole
      have hread : readBlock e (s.dataBlock e f k block) (s.at c₁) = .ok (some (copyOut e s.disk
          (s.origin e (s.dataBlock e f k block)) s.super.blockSize), s.at (c₁ + 1)) :=
        readBlock_run he _
      -- the buffer holds the bytes of the block
      obtain ⟨buf, hbuf⟩ : ∃ buf, buf = copyOut e s.disk (s.origin e (s.dataBlock e f k block))
        s.super.blockSize := ⟨_, rfl⟩
      have hbytes : ∀ i, i < s.super.blockSize → buf i = s.block e (s.dataBlock e f k block) i := by
        intro i hi
        rw [hbuf, copyOut_of_lt hi]
        rfl
      have hbtiles := htiles.of_block hbytes
      have hloop := hbtiles.find_loop (e := e) (x := x)
        (Nat.lt_trans (hbtiles.length_lt hsize) hn)
      have hentries : Dirent.entries buf (os block) = blockEntries e f s k block (os block) :=
        htiles.entries_of_block hbytes
      have hfind := Dirent.find_inode buf x (os block)
      rw [hentries] at hfind
      obtain ⟨r, c₂, hrest, hr⟩ := @ih (block + 1) (c₁ + 1) (by omega)
      rw [List.lookup_append, ← hfind, if_neg hhole, bind_apply_of_ok hread, ← hbuf]
      simp only []
      rw [bind_apply_of_ok (super_run _), show (s.at (c₁ + 1)).super = s.super from rfl, hloop]
      cases hfirst : Dirent.find buf (os block) x with
      | none => exact ⟨r, c₂, hrest, hr⟩
      | some a =>
          have hmem := List.mem_of_find?_eq_some hfirst
          obtain ⟨-, hfit, hend⟩ := hbtiles.mem hmem
          have hroom := hfit.room
          refine ⟨.ok (Dirent.copied e s.super.blockSize buf a), c₁ + 1, rfl, ?_⟩
          rw [Option.map_some, Option.some_or, found, Except.toOption, Option.map_some,
            Dirent.copied_inode (by omega)]

/-- **`FindEntry` looks the name up in the entries of the directory.** -/
theorem Listing.findEntry_run (hd : Listing e f s k os) (hsize : 0 < s.super.blockSize)
    (x : List UInt8) {n : Nat} (hn : s.super.blockSize < n) : ∃ r c,
      findEntry e (f k) x n s = .ok (r, s.at c) ∧ found r = (dirEntries e f s k os).lookup x := by
  obtain ⟨r, c, hrun, hr⟩ := findFrom_run he hd hsize hn (x := x) (c := s.clock + 1)
    (Nat.zero_add _)
  refine ⟨r, c, ?_, ?_⟩
  · rw [findEntry, bind_apply_of_ok (super_run s), hd.isDir]
    simp only [Bool.not_true, Bool.false_eq_true, if_false]
    rw [if_neg (Nat.ne_of_gt hsize), bind_apply_of_ok (pageAlloc_run he)]
    exact hrun
  · rw [hr, dirEntries, List.range_eq_range']

end Finding

/-- `FindEntry` gives inode `r` for the name, or nothing, whenever it has the fuel for a block. -/
def Answers (e : Env) (inode : Inode) (s : State) (x : List UInt8) (r : Option Nat) : Prop :=
  ∀ n, s.super.blockSize < n → ∃ out c, findEntry e inode x n s = .ok (out, s.at c) ∧ found out = r

theorem Listing.answers (he : e.Reliable) (hd : Listing e f s k os)
    (hsize : 0 < s.super.blockSize) (x : List UInt8) :
    Answers e (f k) s x ((dirEntries e f s k os).lookup x) := fun _ hn =>
  hd.findEntry_run he hsize x hn

theorem Answers.unique {inode : Inode} {r r' : Option Nat} (h : Answers e inode s x r)
    (h' : Answers e inode s x r') : r = r' := by
  obtain ⟨out, c, hrun, hr⟩ := h _ (Nat.lt_succ_self _)
  obtain ⟨out', c', hrun', hr'⟩ := h' _ (Nat.lt_succ_self _)
  rw [hrun] at hrun'
  obtain ⟨rfl, -⟩ := Prod.mk.inj (Except.ok.inj hrun')
  rw [← hr, hr']

/-! ## A directory of one record -/

namespace Small

/-- A directory of one block, block 7. -/
def dirInode : Inode := ⟨store (fun _ => 0) [(0, 2, 0x41ED), (4, 4, 1024), (40, 4, 7)]⟩

/-- The block of the directory is the only one that its inode refers to. -/
theorem ref_dirInode {p : (Unit × Nat) × List Nat} (hp : (s.shape Unit).Pos p)
    (hne : (s.forest e fun _ => dirInode).ref p ≠ 0) :
    p = (((), 0), []) ∧ (s.forest e fun _ => dirInode).ref p = 7 := by
  obtain ⟨⟨⟨⟩, slot⟩, is⟩ := p
  have hblocks : ∀ slot < 15, dirInode.iBlock slot = if slot = 0 then 7 else 0 := by
    decide
  have hroot := hblocks slot hp.root
  by_cases hzero : slot = 0
  · subst hzero
    have hnil : is = [] := List.eq_nil_of_length_eq_zero (Nat.le_zero.mp hp.length)
    subst hnil
    exact ⟨rfl, hroot⟩
  · rw [if_neg hzero] at hroot
    refine absurd ?_ hne
    show walk _ (dirInode.iBlock slot) is = 0
    rw [hroot, walk_zero]

/-- The small volume with the directory as inode 2: it has the name `a` for inode 12, in a record
as long as the block. -/
def single : State :=
  (volume 0 0xFF).put (store (volume 0 0xFF).disk [(7168, 4, 12), (7172, 2, 1024), (7174, 1, 1),
    (7176, 1, 97), (5248, 2, 0x41ED), (5252, 4, 1024), (5288, 4, 7)])

theorem count_single : dirBlockCount single.super dirInode = 1 := by decide

theorem dataBlock_single :
    single.dataBlock (Env.ideal 0) (fun _ : Unit => dirInode) () 0 = 7 := by decide

theorem entries_single :
    dirEntries (Env.ideal 0) (fun _ : Unit => dirInode) single () (fun _ => [0]) =
      [([97], 12)] := by
  decide

theorem listing_single :
    Listing (Env.ideal 0) (fun _ : Unit => dirInode) single () fun _ => [0] where
  isDir := by decide
  tiles {i} hi _ := by
    rw [count_single, Nat.lt_one_iff] at hi
    rw [hi, dataBlock_single]
    have hrec : direntRecLen (single.block (Env.ideal 0) 7) 0 = 1024 := by decide
    refine ⟨.cons (by decide) ?_, fun a ha => ?_⟩
    · rw [hrec]
      exact .nil
    · rw [List.mem_singleton.mp ha]
      refine ⟨?_, fun _ => ?_⟩
      · rw [hrec]
        decide
      · decide
  hole {i} hi hhole := by
    rw [count_single, Nat.lt_one_iff] at hi
    rw [hi, dataBlock_single] at hhole
    cases hhole
  distinct := by
    rw [entries_single]
    exact List.nodup_singleton _

theorem sameBits_single : SameBits (Env.ideal 0) (volume 0 0xFF) single := sameBits_store (by simp)

theorem inodeTables_single : InodeTables (Env.ideal 0) single 1 :=
  (inodeTables_volume Nat.two_pos).of_layout sameBits_single.layout
    (Nat.le_of_eq (groups_volume Nat.two_pos .inode).symm)

theorem readInode_dir (ht : InodeTables (Env.ideal 0) s 1) (hn : s.InGroups 1 2)
    (hbytes : ∀ i < 128, s.disk (s.slot (Env.ideal 0) 2 + i) = dirInode.bytes i) :
    ∃ y c, readInode (Env.ideal 0) 2 s = .ok (.ok y, s.at c) ∧ y.Same dirInode := by
  obtain ⟨y, c, hrun, hread⟩ := ht.readInode_run (Env.ideal_reliable 0) hn
  exact ⟨y, c, hrun, fun i hi => (hread i hi).trans (hbytes i hi)⟩

theorem readInode_single : ∃ y c, readInode (Env.ideal 0) 2 single = .ok (.ok y, single.at c) ∧
    y.Same dirInode :=
  readInode_dir inodeTables_single ⟨by decide, by decide⟩ (by decide +kernel)

/-- The same directory with the names `a` for inode 12 and `bc` for inode 13, and a dead record
between them. -/
def several : State :=
  (volume 0 0xFF).put (store (volume 0 0xFF).disk [(7168, 4, 12), (7172, 2, 12), (7174, 1, 1),
    (7176, 1, 97), (7180, 4, 0), (7184, 2, 12), (7186, 1, 1), (7192, 4, 13), (7196, 2, 1000),
    (7198, 1, 2), (7200, 1, 98), (7201, 1, 99), (5248, 2, 0x41ED), (5252, 4, 1024), (5288, 4, 7)])

theorem count_several : dirBlockCount several.super dirInode = 1 := by decide

theorem dataBlock_several :
    several.dataBlock (Env.ideal 0) (fun _ : Unit => dirInode) () 0 = 7 := by decide

theorem entries_several :
    dirEntries (Env.ideal 0) (fun _ : Unit => dirInode) several () (fun _ => [0, 12, 24]) =
      [([97], 12), ([98, 99], 13)] := by
  decide

theorem listing_several :
    Listing (Env.ideal 0) (fun _ : Unit => dirInode) several () fun _ => [0, 12, 24] where
  isDir := by decide
  tiles {i} hi _ := by
    rw [count_several, Nat.lt_one_iff] at hi
    rw [hi, dataBlock_several]
    have hfirst : direntRecLen (several.block (Env.ideal 0) 7) 0 = 12 := by decide
    have hdead : direntRecLen (several.block (Env.ideal 0) 7) 12 = 12 := by decide
    have hlast : direntRecLen (several.block (Env.ideal 0) 7) 24 = 1000 := by decide
    have hroom : ∀ a ∈ [0, 12, 24], direntHeader + direntNameLen (several.block (Env.ideal 0) 7) a ≤
        direntRecLen (several.block (Env.ideal 0) 7) a := by
      decide
    have hname : ∀ a ∈ [0, 12, 24], Dirent.Live (several.block (Env.ideal 0) 7) a →
        0 ∉ Dirent.name (several.block (Env.ideal 0) 7) a := by
      decide
    refine ⟨.cons (by decide) ?_, fun a ha => ⟨hroom a ha, hname a ha⟩⟩
    rw [hfirst]
    refine .cons (by decide) ?_
    rw [hdead]
    refine .cons (by decide) ?_
    rw [hlast]
    exact .nil
  hole {i} hi hhole := by
    rw [count_several, Nat.lt_one_iff] at hi
    rw [hi, dataBlock_several] at hhole
    cases hhole
  distinct := by
    rw [entries_several, Distinct]
    decide

theorem sameBits_several : SameBits (Env.ideal 0) (volume 0 0xFF) several :=
  sameBits_store (by simp)

theorem readInode_several : ∃ y c,
    readInode (Env.ideal 0) 2 several = .ok (.ok y, several.at c) ∧ y.Same dirInode :=
  readInode_dir ((inodeTables_volume Nat.two_pos).of_layout sameBits_several.layout
    (Nat.le_of_eq (groups_volume Nat.two_pos .inode).symm)) ⟨by decide, by decide⟩
    (by decide +kernel)

end Small

end InfoKernel.Ext2
