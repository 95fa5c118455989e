import InfoKernel.Fs.DirBlock
import InfoKernel.Fs.Listing

/-!
# Directories on a volume

The directories that `AddEntry` works on have no holes, and their blocks are chains of records;
`Directory` says so of the file of one inode of a family, and a directory of this form lists its
entries (`Directory.listing`).
-/

namespace InfoKernel.Ext2

open Lib

variable {κ : Type} {e : Env} {f g : κ → Inode} {s t u : State} {k : κ}
  {os : Nat → List Nat}

/-- **A well-formed directory**: it has no holes, the records tile each block, and no two live
records have the same name.  The records of block `i` begin at `os i`. -/
structure Directory (e : Env) (f : κ → Inode) (s : State) (k : κ) (os : Nat → List Nat) :
    Prop where
  isDir : (f k).isDir = true
  mapped {i : Nat} : i < dirBlockCount s.super (f k) → s.dataBlock e f k i ≠ 0
  chain {i : Nat} : i < dirBlockCount s.super (f k) →
    Dirent.Chain s.super.blockSize (s.block e (s.dataBlock e f k i)) 0 (os i)
  distinct : Distinct (dirEntries e f s k os)

theorem Directory.listing (hd : Directory e f s k os) : Listing e f s k os where
  isDir := hd.isDir
  tiles hi _ := (hd.chain hi).tiles
  hole hi hhole := absurd hhole (hd.mapped hi)
  distinct := hd.distinct

theorem Files.of_same {inode inode' : Inode} (h : Files e (fileOf inode) s)
    (hsame : inode'.Same inode) : Files e (fileOf inode') s := by
  have href : ∀ {p : (Unit × Nat) × List Nat}, (s.shape Unit).Pos p →
      (s.forest e (fileOf inode')).ref p = (s.forest e (fileOf inode)).ref p := fun hp =>
    congrArg (fun x => walk (s.words e) x _) (hsame.iBlock hp.root)
  refine ⟨h.consistent, fun p q hp hq hne heq => ?_, fun {p} hp hne => ?_⟩
  · rw [href hp] at hne heq
    rw [href hq] at heq
    exact h.unshared p q hp hq hne heq
  · rw [href hp] at hne ⊢
    exact h.owned hp hne

/-! ## Looking for room -/

/-- No record of block `i` has room for a name of `len` bytes. -/
def NoRoom (e : Env) (f : κ → Inode) (s : State) (k : κ) (os : Nat → List Nat)
    (len i : Nat) : Prop :=
  ∀ a ∈ os i, ¬ Dirent.Room len (s.block e (s.dataBlock e f k i)) a

/-- No record of the directory has room. -/
def Crowded (e : Env) (f : κ → Inode) (s : State) (k : κ) (os : Nat → List Nat)
    (len : Nat) : Prop :=
  ∀ i, i < dirBlockCount s.super (f k) → NoRoom e f s k os len i

/-- The first record with room begins at `a` in block `i`. -/
structure FirstRoom (e : Env) (f : κ → Inode) (s : State) (k : κ) (os : Nat → List Nat)
    (len i a : Nat) : Prop where
  block : i < dirBlockCount s.super (f k)
  before {j : Nat} : j < i → NoRoom e f s k os len j
  first : (os i).find? (fun a => Dirent.Room len (s.block e (s.dataBlock e f k i)) a) = some a

theorem Dirent.room_congr {buf buf' : Bytes} {a len : Nat} (h : Dirent.Same buf buf' a) :
    Dirent.Room len buf' a ↔ Dirent.Room len buf a := by
  rw [Dirent.Room, Dirent.Room, Dirent.usedLen, Dirent.usedLen, h.inode, h.nameLen, h.recLen]

section Adding

variable (he : e.Reliable)

include he

/-- The block of a directory as `AddEntry` reads it. -/
theorem dirBlock_run (hd : Directory e f s k os) (hsize : 0 < s.super.blockSize) {i c : Nat}
    (hi : i < dirBlockCount s.super (f k)) : ∃ buf c', dirBlock e (f k) i (s.at c) =
      .ok ((f k, .ok (some (s.dataBlock e f k i, buf))), s.at c') ∧
        ∀ j, j < s.super.blockSize → buf j = s.block e (s.dataBlock e f k i) j := by
  obtain ⟨c₁, hget⟩ := dataBlock_run he hsize hi c
  have hne : s.dataBlock e f k i ≠ 0 := hd.mapped hi
  refine ⟨copyOut e s.disk (s.origin e (s.dataBlock e f k i)) s.super.blockSize, c₁ + 1, ?_,
    fun j hj => copyOut_of_lt hj⟩
  rw [dirBlock, bind_apply_of_ok hget, if_neg hne, bind_apply_of_ok (readBlock_run he _)]
  rfl

/-- The walk of `AddEntry` through the blocks, `left` of them from `block` on: no record has room,
or the new record is put into the first one that has. -/
theorem addFrom_run (hd : Directory e f s k os) (hsize : 0 < s.super.blockSize) (x : List UInt8)
    (num : Nat) (fileType : UInt8) {n : Nat} (hn : s.super.blockSize < n) {left block c : Nat}
    (hleft : block + left = dirBlockCount s.super (f k))
    (hbefore : ∀ j, j < block → NoRoom e f s k os x.length j) :
    (Crowded e f s k os x.length ∧
      ∃ c', addFrom e num x fileType n left block (f k) (s.at c) = .ok ((none, f k), s.at c')) ∨
    ∃ i a buf t, FirstRoom e f s k os x.length i a ∧
      (∀ j, j < s.super.blockSize → buf j = s.block e (s.dataBlock e f k i) j) ∧
      addFrom e num x fileType n left block (f k) (s.at c) = .ok ((some 0, f k), t) ∧
      Written e (s.dataBlock e f k i) (Dirent.placed buf a num x fileType) s t := by
  induction left generalizing block c with
  | zero => exact .inl ⟨fun i hi => hbefore i (by omega), c, rfl⟩
  | succ left ih =>
      have hlt : block < dirBlockCount s.super (f k) := by omega
      obtain ⟨buf, c₁, hread, hbytes⟩ := dirBlock_run (c := c) he hd hsize hlt
      have hchain := hd.chain hlt
      have hbchain := hchain.of_block hbytes
      have hloop := Dirent.add_loop x num fileType hbchain
        (Nat.lt_trans (hbchain.tiles.length_lt hsize) hn)
      have hroom : ∀ a ∈ os block, Dirent.Room x.length buf a ↔
          Dirent.Room x.length (s.block e (s.dataBlock e f k block)) a := fun a ha =>
        Dirent.room_congr (hchain.tiles.same_of_block hbytes a ha)
      have hfind : (os block).find? (fun a => Dirent.Room x.length buf a) =
        (os block).find? fun a =>
          Dirent.Room x.length (s.block e (s.dataBlock e f k block)) a :=
        List.find?_congr fun a ha => decide_eq_decide.mpr (hroom a ha)
      rw [hfind] at hloop
      rw [addFrom, bind_apply_of_ok hread]
      simp only []
      rw [bind_apply_of_ok (super_run _), show (s.at c₁).super = s.super from rfl, hloop]
      cases hfirst : (os block).find? fun a => Dirent.Room x.length
          (s.block e (s.dataBlock e f k block)) a with
      | none =>
          refine ih (by omega) fun j hj => ?_
          rcases Nat.lt_or_eq_of_le (Nat.le_of_lt_succ hj) with hj | rfl
          · exact hbefore j hj
          · exact fun a ha => by simpa using List.find?_eq_none.mp hfirst a ha
      | some a =>
          obtain ⟨t, ht, hw⟩ := writeBlock_written (s := s.at c₁) he (s.dataBlock e f k block)
            (Dirent.placed buf a num x fileType)
          refine .inr ⟨block, a, buf, t, ⟨hlt, fun hj => hbefore _ hj, hfirst⟩, hbytes, ?_,
            hw.super, hw.noSpace, hw.self, hw.of_ne⟩
          show (writeBlock e (s.dataBlock e f k block) _ >>= _) (s.at c₁) = _
          rw [bind_apply_of_ok ht]
          rfl

end Adding

/-! ## The data of the files -/

/-- The data of all files stays, but for the block at `p`. -/
def DataKept (e : Env) (f : κ → Inode) (s : State) (g : κ → Inode) (t : State)
    (p : (κ × Nat) × List Nat) : Prop :=
  ∀ q, (s.shape κ).Leaf q → q ≠ p → (t.forest e g).ref q = (s.forest e f).ref q ∧
    ((s.forest e f).ref q ≠ 0 → ∀ j, j < s.super.blockSize →
      t.block e ((s.forest e f).ref q) j = s.block e ((s.forest e f).ref q) j)

section Data

variable {p : (κ × Nat) × List Nat}

/-- A block of a file is written. -/
theorem Files.write (h : Files e f s) (hp : (s.shape κ).Leaf p) {buf : Bytes}
    (hne : (s.forest e f).ref p ≠ 0) (hw : Written e ((s.forest e f).ref p) buf s t) :
    Files e f t ∧ DataKept e f s f t p ∧ (t.forest e f).ref p = (s.forest e f).ref p := by
  have hown := h.owned hp.pos hne
  have hframe := hw.frame h.consistent.roles hown.data
  have hpoints : ∀ y, s.Points e f y → ¬ y = (s.forest e f).ref p := fun y hy heq =>
    h.not_points hp hne (heq ▸ hy)
  refine ⟨h.of_frame hframe hpoints, fun q hq hqp => ⟨h.mapped.ref_of_frame hframe hpoints hq.pos,
    fun hqne j hj => hw.of_ne (fun heq => hqp ?_) hj⟩, h.mapped.ref_of_frame hframe hpoints hp.pos⟩
  exact h.unshared q p hq.pos hp.pos hqne heq

/-- What a block says is read off its bytes. -/
theorem blockEntries_congr {i : Nat} {l : List Nat}
    (hchain : Dirent.Chain s.super.blockSize (s.block e (s.dataBlock e f k i)) 0 l)
    (hbytes : ∀ j, j < s.super.blockSize → t.block e (t.dataBlock e g k i) j =
      s.block e (s.dataBlock e f k i) j) :
    blockEntries e g t k i l = blockEntries e f s k i l :=
  hchain.tiles.entries_of_block hbytes

/-- **A directory with the same blocks** is well formed as well and says the same. -/
theorem Directory.congr (hd : Directory e f s k os) (hgeo : s.super.SameGeometry t.super)
    (hdir : (g k).isDir = (f k).isDir) (hsize : (g k).iSize = (f k).iSize)
    (hblock : ∀ i, i < dirBlockCount s.super (f k) → t.dataBlock e g k i ≠ 0 ∧
      ∀ j, j < s.super.blockSize →
        t.block e (t.dataBlock e g k i) j = s.block e (s.dataBlock e f k i) j) :
    Directory e g t k os ∧ dirEntries e g t k os = dirEntries e f s k os := by
  have hcount : dirBlockCount t.super (g k) = dirBlockCount s.super (f k) := by
    rw [dirBlockCount, dirBlockCount, hsize, hgeo.blockSize]
  have hentries : dirEntries e g t k os = dirEntries e f s k os := by
    rw [dirEntries, dirEntries, hcount]
    exact List.flatMap_congr fun i hi => blockEntries_congr (hd.chain (List.mem_range.mp hi))
      (hblock i (List.mem_range.mp hi)).2
  refine ⟨⟨hdir.trans hd.isDir, fun hi => (hblock _ (hcount ▸ hi)).1,
    fun {i} hi => ?_, ?_⟩, hentries⟩
  · rw [hcount] at hi
    rw [hgeo.blockSize]
    exact (hd.chain hi).of_block (hblock i hi).2
  · rw [hentries]
    exact hd.distinct

/-- What a directory says depends on the bytes of its inode only. -/
theorem Directory.of_same (hd : Directory e f s k os) (hsize : 0 < s.super.blockSize)
    (h : (g k).Same (f k)) :
    Directory e g s k os ∧ dirEntries e g s k os = dirEntries e f s k os := by
  refine hd.congr (SuperBlock.SameGeometry.refl s.super) h.isDir h.iSize fun i hi => ?_
  rw [dataBlock_of_same hsize h hi]
  exact ⟨hd.mapped hi, fun _ _ => rfl⟩

theorem State.dataBlock_congr (hgeo : s.super.SameGeometry t.super) (i : Nat) :
    t.dataBlock e g k i = (t.forest e g).ref (filePos s.super.ptrsPerBlock k i) := by
  rw [State.dataBlock, SuperBlock.ptrsPerBlock, SuperBlock.ptrsPerBlock, hgeo.blockSize]

/-- The blocks of a directory that are not the one at `p` stay. -/
theorem DataKept.dirBlock (h : DataKept e f s g t p) (hgeo : s.super.SameGeometry t.super)
    (hsize : 0 < s.super.blockSize) {i : Nat} {inode : Inode}
    (hi : i < dirBlockCount s.super inode) (hp : filePos s.super.ptrsPerBlock k i ≠ p)
    (hne : s.dataBlock e f k i ≠ 0) : t.dataBlock e g k i = s.dataBlock e f k i ∧
      ∀ j, j < s.super.blockSize →
        t.block e (t.dataBlock e g k i) j = s.block e (s.dataBlock e f k i) j := by
  have hleaf := filePos_leaf hsize (dirBlock_in_range hsize hi).1 k
  obtain ⟨href, hbytes⟩ := h _ hleaf hp
  have hblock : t.dataBlock e g k i = s.dataBlock e f k i :=
    (State.dataBlock_congr hgeo i).trans href
  refine ⟨hblock, fun j hj => ?_⟩
  rw [hblock]
  exact hbytes hne j hj

/-- A block of the directory is written: what the directory says then. -/
theorem Directory.write (hd : Directory e f s k os) (h : Files e f s) {i : Nat} {buf : Bytes}
    (hi : i < dirBlockCount s.super (f k)) (hw : Written e (s.dataBlock e f k i) buf s t)
    {os' : Nat → List Nat}
    (hother : ∀ j, j < dirBlockCount s.super (f k) → j ≠ i → os' j = os j)
    (hchain : Dirent.Chain s.super.blockSize buf 0 (os' i)) :
    (∀ entry, (dirEntries e f t k os').Perm (entry :: dirEntries e f s k os) ↔
        (Dirent.entries buf (os' i)).Perm (entry :: blockEntries e f s k i (os i))) ∧
      (Distinct (dirEntries e f t k os') → Directory e f t k os') := by
  have hsize := h.consistent.roles.size_pos
  have hleaf := filePos_leaf hsize (dirBlock_in_range hsize hi).1 k
  obtain ⟨-, hkept, href⟩ := h.write hleaf (hd.mapped hi) hw
  have hgeo : s.super.SameGeometry t.super := hw.super ▸ SuperBlock.SameGeometry.refl s.super
  have hcount : dirBlockCount t.super (f k) = dirBlockCount s.super (f k) := by rw [hw.super]
  have hself : t.dataBlock e f k i = s.dataBlock e f k i :=
    (State.dataBlock_congr hgeo i).trans href
  have hbytes : ∀ j, j < s.super.blockSize → t.block e (t.dataBlock e f k i) j = buf j := by
    intro j hj
    rw [hself]
    exact hw.self hj
  have hrest : ∀ j, j < dirBlockCount s.super (f k) → j ≠ i →
      t.dataBlock e f k j = s.dataBlock e f k j ∧ ∀ b, b < s.super.blockSize →
        t.block e (t.dataBlock e f k j) b = s.block e (s.dataBlock e f k j) b := fun j hj hji =>
    hkept.dirBlock hgeo hsize hj (fun heq => hji (filePos_inj heq).2) (hd.mapped hj)
  have hentries : blockEntries e f t k i (os' i) = Dirent.entries buf (os' i) :=
    hchain.tiles.entries_of_block hbytes
  refine ⟨fun entry => ?_, fun hdistinct => ⟨hd.isDir, fun {j} hj => ?_, fun {j} hj => ?_,
    hdistinct⟩⟩
  · rw [dirEntries, dirEntries, hcount, ← hentries]
    refine perm_cons_flatMap_iff hi fun j hj hji => ?_
    rw [hother j hj hji]
    exact blockEntries_congr (hd.chain hj) (hrest j hj hji).2
  · rw [hcount] at hj
    by_cases hji : j = i
    · rw [hji, hself]
      exact hd.mapped hi
    · rw [(hrest j hj hji).1]
      exact hd.mapped hj
  · rw [hcount] at hj
    rw [hw.super]
    by_cases hji : j = i
    · rw [hji]
      exact hchain.of_block hbytes
    · rw [hother j hj hji]
      exact (hd.chain hj).of_block (hrest j hj hji).2

/-- Where the records begin in a directory of which a block has been written. -/
theorem Directory.of_write (hd : Directory e f s k os) (h : Files e f s) {i : Nat} {buf : Bytes}
    (hi : i < dirBlockCount s.super (f k)) (hw : Written e (s.dataBlock e f k i) buf s t)
    {os' : Nat → List Nat} (hd' : Directory e f t k os') :
    (∀ j, j < dirBlockCount s.super (f k) → j ≠ i → os' j = os j) ∧
      Dirent.Chain s.super.blockSize buf 0 (os' i) := by
  have hsize := h.consistent.roles.size_pos
  have hleaf := filePos_leaf hsize (dirBlock_in_range hsize hi).1 k
  obtain ⟨-, hkept, href⟩ := h.write hleaf (hd.mapped hi) hw
  have hgeo : s.super.SameGeometry t.super := hw.super ▸ SuperBlock.SameGeometry.refl s.super
  have hchain : ∀ {j}, j < dirBlockCount s.super (f k) →
      Dirent.Chain s.super.blockSize (t.block e (t.dataBlock e f k j)) 0 (os' j) := fun {j} hj => by
    have hj' : j < dirBlockCount t.super (f k) := by rwa [hw.super]
    have hchain := hd'.chain hj'
    rwa [hw.super] at hchain
  refine ⟨fun j hj hji => ?_, (hchain hi).of_block fun b hb => ?_⟩
  · have hpos : filePos s.super.ptrsPerBlock k j ≠ filePos s.super.ptrsPerBlock k i := fun heq =>
      hji (filePos_inj heq).2
    have hbytes := (hkept.dirBlock hgeo hsize hj hpos (hd.mapped hj)).2
    exact (hchain hj).unique ((hd.chain hj).of_block hbytes)
  · rw [show t.dataBlock e f k i = s.dataBlock e f k i from
      (State.dataBlock_congr hgeo i).trans href]
    exact (hw.self hb).symm

/-- The directories of other inodes stay. -/
theorem DataKept.directory (h : DataKept e f s g t p) (hgeo : s.super.SameGeometry t.super)
    (hsize : 0 < s.super.blockSize) (hk : g k = f k) (hp : k ≠ p.1.1) (hd : Directory e f s k os) :
    Directory e g t k os ∧ dirEntries e g t k os = dirEntries e f s k os := by
  refine hd.congr hgeo (by rw [hk]) (by rw [hk]) fun i hi => ?_
  have hne := hd.mapped hi
  have hpos : filePos s.super.ptrsPerBlock k i ≠ p := fun heq => hp (heq ▸ rfl)
  obtain ⟨hblock, hbytes⟩ := h.dirBlock hgeo hsize hi hpos hne
  exact ⟨hblock ▸ hne, hbytes⟩

end Data

end InfoKernel.Ext2
