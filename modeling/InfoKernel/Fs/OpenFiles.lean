import InfoKernel.Fs.Deletion
import InfoKernel.Fs.Mounted
import InfoKernel.Fs.Reading
import InfoKernel.Fs.Resizing
import InfoKernel.Fs.WriteSpace
import InfoKernel.Lib.Run

/-!
# Files that are open more than once

Each `File` that `Ext2Open` makes has its own copy of the inode.  `Ext2Read` and `Ext2Write` use the
copy and never look at the inode table, and `Ext2Write` stores the whole copy afterwards.  So a
write through one `File` is not seen through another one that was opened before, and the next write
through that one takes the blocks of the first out of the file.

* `ext2Open`, `ext2Write` and the calls of a set of Files (`OpenFiles.exec`).
* `Agrees` is the invariant: the inode on the disk belongs to a sound file that holds what has been
  written last.  A call through a File whose copy is the inode on the disk keeps it
  (`Agrees.read`, `Agrees.write`).
* `openFiles_agree` follows for all runs of such calls.
-/

namespace InfoKernel.Ext2

open Lib

variable {ι : Type} {e : Env} {s t u : State} {num : Nat}

/-! ## Opening and writing -/

/-- A `vfs::File` on an ext2 volume, with all of its `Ext2FileData`. -/
structure OpenFile extends File where
  inodeNum : Nat

/-- The number of the inode that `Ext2Open` opens, which it creates when the flags say so. -/
def openNum (e : Env) (path : List UInt8) (flags n : Nat) : Io (Option Nat) := do
  match ← lookupPath e path n with
  | .ok num => pure (some num)
  | .error _ =>
      if flags &&& 2 ≠ 0 then do
        let ret ← createFile e path 0x81A4 n
        if ret ≤ 0 then
          pure none
        else
          pure (some ret.toNat)
      else
        pure none

/-- `vfs::Ext2Open` -/
def ext2Open (e : Env) (path : List UInt8) (flags n : Nat) : Io (Option OpenFile) := do
  match absPath path with
  | none => pure none
  | some path =>
      match ← openNum e path flags n with
      | none => pure none
      | some num =>
          match ← readInode e num with
          | .error _ => pure none
          | .ok inode =>
              if !(← pageAlloc e) then
                pure none
              else if !(← pageAlloc e) then
                pure none
              else
                pure (some ⟨⟨0, inode⟩, num⟩)

/-- `vfs::Ext2Write`: what is returned, and the file. -/
def ext2Write (e : Env) (file : OpenFile) (buf : Bytes) (count offset n : Nat) :
    Io (Int × OpenFile) := do
  let (ret, inode) ← writeFile e file.inode buf count offset n
  if ret > 0 then do
    let _ ← writeInode e file.inodeNum inode
    pure (ret, ⟨⟨file.position, inode⟩, file.inodeNum⟩)
  else
    pure (ret, ⟨⟨file.position, inode⟩, file.inodeNum⟩)

/-- **A write for which there is room** stores all bytes, and then the copy of the inode. -/
theorem ext2Write_run (file : OpenFile) (buf : Bytes) {count offset : Nat} (he : e.Reliable)
    (hfiles : Files e (fileOf file.inode) s) (hc : Counted e s) (htables : Tables e s)
    (hnum : s.HasInode file.inodeNum) (hdir : file.inode.isDir = false) (hcount : 0 < count)
    (hlt : offset + count < 2 ^ 32)
    (hspace : needed e (fileOf file.inode) s () offset count ≤ s.super.sFreeBlocksCount) :
    ∃ inode t u, ext2Write e file buf count offset (count + 1) s =
        .ok (((count : Int), ⟨⟨file.position, inode⟩, file.inodeNum⟩), u) ∧
      Progress e (fileOf file.inode) s () buf offset (max file.inode.iSize (offset + count)) count
        inode t ∧
      Stored e (Function.update (fileOf file.inode) () inode) t () buf offset count ∧
      Filled e (fileOf file.inode) s (lacking e (fileOf file.inode) s () offset count)
        (Function.update (fileOf file.inode) () inode) t ∧
      SameBits e t u ∧ Lasts e (fun y => y = t.inodeBlock e file.inodeNum) t u ∧
      (u.inodeAt e file.inodeNum).Same inode := by
  have hstopped : Ends (writeFile e file.inode buf count offset (count + 1)) s _ _ :=
    writeFile_stopped (f := fileOf file.inode) (k := ()) he hfiles hc hdir hlt
      (Nat.lt_succ_self count)
  obtain ⟨_, t, hrun, ⟨done, inode⟩, rfl, hstop, hle, hp⟩ := hstopped.exists_ok
  -- there is room for the whole write
  obtain ⟨hst, hfill, hall⟩ := hstop.resolve_right fun hno => hno.1 (.inl hspace)
  obtain rfl : done = count := hall.resolve_right fun hno => absurd hspace (by omega)
  -- the copy is stored
  obtain ⟨u, hwrite, hbits, hlasts, hsame, -⟩ := (htables.of_layout hfill.layout).writeInode_run he
    (hfill.counted hc).roles (hfill.layout.hasInode.mpr hnum) inode
  refine ⟨inode, t, u, ?_, hp, hst, hfill, hbits, hlasts, hsame⟩
  rw [ext2Write, bind_apply_of_ok hrun]
  simp only []
  rw [if_pos (by omega), bind_apply_of_ok hwrite]
  rfl

/-! ## A set of Files -/

/-- A call through one of the Files. -/
inductive FileCall (ι : Type) where
  | read (i : ι) (out : Bytes) (count offset : Nat)
  | write (i : ι) (buf : Bytes) (count offset : Nat)

/-- The File of the call. -/
def FileCall.file : FileCall ι → ι
  | .read i _ _ _ => i
  | .write i _ _ _ => i

/-- What has been written last at each position, after the call has returned `ret`. -/
def FileCall.after (ret : Int) (last : Nat → Option UInt8) : FileCall ι → Nat → Option UInt8
  | .read _ _ _ _, x => last x
  | .write _ buf _ offset, x =>
      if offset ≤ x ∧ (x : Int) < offset + ret then some (buf (x - offset)) else last x

/-- The volume, and the Files. -/
structure OpenFiles (ι : Type) where
  volume : State
  file : ι → OpenFile

namespace OpenFiles

/-- A call: what it returns, and the buffer.  A loop over `count` bytes has at most `count` turns
that go on. -/
def exec [DecidableEq ι] (e : Env) : FileCall ι → Program (OpenFiles ι) Fault (Int × Bytes)
  | .read i out count offset => fun w =>
      (ext2Read e (w.file i).toFile out count offset (count + 1) w.volume).map fun r =>
        (r.1, ⟨r.2, w.file⟩)
  | .write i buf count offset => fun w =>
      (ext2Write e (w.file i) buf count offset (count + 1) w.volume).map fun r =>
        ((r.1.1, buf), ⟨r.2, Function.update w.file i r.1.2⟩)

/-- The steps of a set of Files, with what has been written last. -/
def Step [DecidableEq ι] (e : Env) (x : OpenFiles ι × (Nat → Option UInt8)) (c : FileCall ι)
    (y : OpenFiles ι × (Nat → Option UInt8)) : Prop :=
  ∃ r, exec e c x.1 = .ok (r, y.1) ∧ y.2 = c.after r.1 x.2

/-- All positions are below `2 ^ 32`, and there are enough free blocks. -/
def Fits (e : Env) (w : OpenFiles ι) : FileCall ι → Prop
  | .read _ _ count offset => offset + count < 2 ^ 32
  | .write i _ count offset => offset + count < 2 ^ 32 ∧
      needed e (fileOf (w.file i).inode) w.volume () offset count ≤ w.volume.super.sFreeBlocksCount

/-- The copy of the File is the inode on the disk. -/
def Current (e : Env) (num : Nat) (w : OpenFiles ι) (i : ι) : Prop :=
  (w.file i).inode.Same (w.volume.inodeAt e num)

end OpenFiles

/-- **What a call must return.**  A read gives, for each position, what has been written there last,
or what was there before; and it does not stop where all has been written.  A write of a regular
file writes all bytes. -/
def FileCall.Answered (before : Nat → UInt8) (last : Nat → Option UInt8) (dir : Bool)
    (r : Int × Bytes) : FileCall ι → Prop
  | .read _ _ count offset =>
      (∀ j : Nat, (j : Int) < r.1 → r.2 j = (last (offset + j)).getD (before (offset + j))) ∧
      ∀ j, j < count → (∀ x, offset ≤ x → x ≤ offset + j → last x ≠ none) → (j : Int) < r.1
  | .write _ _ count _ => dir = false → r.1 = count

/-! ## The file -/

/-- **The file of `x` holds what has been written last**, and the bytes of `before` where nothing
has been written; and it has all the blocks that have been taken. -/
structure Holds (e : Env) (s₀ : State) (before : Nat → UInt8) (dir : Bool) (x : Inode) (s : State)
    (last : Nat → Option UInt8) : Prop where
  files : Files e (fileOf x) s
  isDir : x.isDir = dir
  bytes {p : Nat} : p < 2 ^ 32 → fileByte e (fileOf x) s () p = (last p).getD (before p)
  written {p : Nat} : last p ≠ none → p < x.iSize ∧ dir = false ∧
    (s.forest e (fileOf x)).ref (s.bytePos () p) ≠ 0
  taken {y : Nat} : Free e s₀ .block y → ¬ Free e s .block y → s.Refers e (fileOf x) y

namespace Holds

variable {s₀ : State} {before : Nat → UInt8} {dir : Bool} {x y : Inode} {last : Nat → Option UInt8}

theorem lt (h : Holds e s₀ before dir x s last) {p : Nat} (hp : last p ≠ none) : p < 2 ^ 32 :=
  (h.written hp).1.trans (getLE_lt _ _ _)

/-- Only blocks with inodes have changed. -/
theorem carry (h : Holds e s₀ before dir x s last) (hbits : SameBits e s t)
    (hblock : ∀ z, ¬ Meta e s z → ∀ j, j < s.super.blockSize → t.block e z j = s.block e z j)
    (hxy : y.Same x) : Holds e s₀ before dir y t last := by
  have hgeo := hbits.layout.geometry
  have href : ∀ {q : FilePos}, (s.shape Unit).Pos q →
      (t.forest e (fileOf y)).ref q = (s.forest e (fileOf x)).ref q := fun hq =>
    Forest.ref_congr (hxy.iBlock hq.root) hq fun js i _ hin hne hi =>
      words_congr (fun j hj => hblock _ (h.files.owned hin.pos hne).data j hj) hi
  have hsize := h.files.consistent.roles.size_pos
  refine ⟨⟨hbits.consistent h.files.consistent, fun p q hp hq hne heq => ?_, fun {p} hp hne => ?_⟩,
    hxy.isDir.trans h.isDir, fun hp => ?_, fun hp => ?_, fun {z} hz hz' => ?_⟩
  · rw [State.shape_congr hgeo] at hp hq
    rw [href hp] at hne heq
    rw [href hq] at heq
    exact h.files.unshared p q hp hq hne heq
  · rw [State.shape_congr hgeo] at hp
    rw [href hp] at hne ⊢
    have hown := h.files.owned hp hne
    exact ⟨fun hn => hown.used (hbits.free_iff.mp hn), fun hm =>
      hown.data (hbits.layout.meta_of hm)⟩
  · rw [h.files.fileByte_congr hgeo (fun _ hslot => hxy.iBlock hslot) hblock hp, h.bytes hp]
  · obtain ⟨hlt, hdir, hne⟩ := h.written hp
    refine ⟨by rwa [hxy.iSize], hdir, ?_⟩
    rw [bytePos_congr hgeo, href (bytePos_leaf hsize (h.lt hp) ()).pos]
    exact hne
  · obtain ⟨q, hq, rfl⟩ := h.taken hz fun hf => hz' (hbits.free_iff.mpr hf)
    exact ⟨q, by rwa [State.shape_congr hgeo], href hq⟩

theorem of_same (h : Holds e s₀ before dir x s last) (hxy : y.Same x) (c : Nat) :
    Holds e s₀ before dir y (s.at c) last :=
  h.carry (AsBefore.same s c s.noSpace).bits (fun _ _ _ _ => rfl) hxy

/-- All bytes of a write have been stored. -/
theorem write {buf : Bytes} {count offset : Nat} (h : Holds e s₀ before dir x s last)
    (hdir : dir = false) (hc : Counted e s₀)
    (hp : Progress e (fileOf x) s () buf offset (max x.iSize (offset + count)) count y t)
    (hst : Stored e (Function.update (fileOf x) () y) t () buf offset count)
    (hfill : Filled e (fileOf x) s (lacking e (fileOf x) s () offset count)
      (Function.update (fileOf x) () y) t) (i : ι) :
    Holds e s₀ before dir y t ((FileCall.write i buf count offset).after count last) := by
  have hupdate : Function.update (fileOf x) () y = fileOf y := by
    funext k
    exact Function.update_self (f := fileOf x) ..
  have hfiles := hp.files
  have hbytes : ∀ {p}, p < 2 ^ 32 → p < offset ∨ offset + count ≤ p →
      fileByte e _ t () p = fileByte e (fileOf x) s () p := hp.outside
  rw [hupdate] at hst hfill hfiles hbytes
  have hgeo := hfill.layout.geometry
  have hsize := h.files.consistent.roles.size_pos
  -- what was referred to stays so
  have hkept : ∀ {q : FilePos}, (s.shape Unit).Pos q → (s.forest e (fileOf x)).ref q ≠ 0 →
      (t.forest e (fileOf y)).ref q = (s.forest e (fileOf x)).ref q := fun hq hne =>
    hfill.old hq fun hmem => hne (hfill.zero hmem)
  have hafter : ∀ p, (FileCall.write i buf count offset).after count last p =
      if offset ≤ p ∧ p < offset + count then some (buf (p - offset)) else last p := fun p => by
    simp only [FileCall.after]
    norm_cast
  refine ⟨hfiles, ?_, fun {p} hp' => ?_, fun {p} hp' => ?_, fun {z} hz hz' => ?_⟩
  · rw [← h.isDir, Inode.isDir, hp.mode]
    rfl
  · rw [hafter]
    by_cases hin : offset ≤ p ∧ p < offset + count
    · rw [if_pos hin, hst.inside hin.1 hin.2]
      rfl
    · rw [if_neg hin, hbytes hp' (by omega), h.bytes hp']
  · rw [hafter] at hp'
    rw [hp.size]
    by_cases hin : offset ≤ p ∧ p < offset + count
    · exact ⟨lt_max_of_lt_right hin.2, hdir, hst.mapped hin.1 hin.2⟩
    · rw [if_neg hin] at hp'
      obtain ⟨hlt, -, hne⟩ := h.written hp'
      refine ⟨lt_max_of_lt_left hlt, hdir, ?_⟩
      rw [bytePos_congr hgeo, hkept (bytePos_leaf hsize (h.lt hp') ()).pos hne]
      exact hne
  · by_cases hs : Free e s .block z
    · obtain ⟨q, hq, href⟩ := hfill.taken hs hz'
      exact ⟨q, by rw [State.shape_congr hgeo]; exact hfill.pos hq, href⟩
    · obtain ⟨q, hq, href⟩ := h.taken hz hs
      refine ⟨q, by rwa [State.shape_congr hgeo], ?_⟩
      rw [hkept hq (by rw [href]; exact hc.ne_zero hz), href]

end Holds

/-! ## What a call keeps -/

/-- **The Files agree with the disk**: all are of one inode, the counts and the inode tables are
right, and the file of the inode on the disk holds what has been written last. -/
structure Agrees (e : Env) (num : Nat) (s₀ : State) (w : OpenFiles ι) (last : Nat → Option UInt8) :
    Prop where
  counted : Counted e w.volume
  tables : Tables e w.volume
  hasInode : w.volume.HasInode num
  number (i : ι) : (w.file i).inodeNum = num
  holds : Holds e s₀ (fileByte e (fileOf (s₀.inodeAt e num)) s₀ ()) (s₀.inodeAt e num).isDir
    (w.volume.inodeAt e num) w.volume last

namespace Agrees

variable {s₀ : State} {w : OpenFiles ι} {last : Nat → Option UInt8} {i : ι} {buf out : Bytes}
  {count offset : Nat}

theorem at_clock (h : Agrees e num s₀ w last) (c : Nat) :
    Agrees e num s₀ ⟨w.volume.at c, w.file⟩ last where
  counted := h.counted.same c w.volume.noSpace
  tables := h.tables.of_layout (AsBefore.same w.volume c w.volume.noSpace).bits.layout
  hasInode := h.hasInode
  number := h.number
  holds := h.holds.of_same (fun _ _ => rfl) c

variable [DecidableEq ι]

/-- Only the number of a File matters. -/
theorem of_file (h : Agrees e num s₀ w last) (file : File) :
    Agrees e num s₀ ⟨w.volume, Function.update w.file i ⟨file, (w.file i).inodeNum⟩⟩ last := by
  refine ⟨h.counted, h.tables, h.hasInode, fun j => ?_, h.holds⟩
  by_cases hj : j = i
  · subst hj
    simp only [Function.update_self, h.number]
  · simp only [Function.update_of_ne hj, h.number]

omit [DecidableEq ι] in
theorem after_of_nonpos {ret : Int} (hret : ret ≤ 0) :
    (FileCall.write i buf count offset).after ret last = last := by
  funext x
  exact if_neg fun hin => by omega

variable (he : e.Reliable)

include he

/-- **A read through a File whose copy is the inode on the disk.** -/
theorem read (h : Agrees e num s₀ w last) (hcur : w.Current e num i)
    (hlt : offset + count < 2 ^ 32) :
    Ends (OpenFiles.exec e (.read i out count offset)) w (fun _ => False) fun r w' =>
      Agrees e num s₀ w' last ∧
        (FileCall.read i out count offset).Answered
          (fileByte e (fileOf (s₀.inodeAt e num)) s₀ ()) last (s₀.inodeAt e num).isDir r := by
  have hcopy := h.holds.of_same hcur w.volume.clock
  have hsize := h.counted.roles.size_pos
  cases hdir : (s₀.inodeAt e num).isDir with
  | true =>
      -- nothing has been written to a directory, and nothing is read
      have hrun : OpenFiles.exec e (.read i out count offset) w = .ok ((-2, out), w) := by
        have hfile : readFile e (w.file i).inode out count offset (count + 1) w.volume =
            .ok ((-2, out), w.volume) := by
          rw [readFile, if_pos (hcopy.isDir.trans hdir)]
          rfl
        simp only [OpenFiles.exec, ext2Read, hfile]
        rfl
      refine Ends.of_ok hrun ⟨h, fun j hj => absurd hj (by dsimp only; omega), fun j _ hall => ?_⟩
      have hfalse := (h.holds.written (hall offset (Nat.le_refl _) (Nat.le_add_right _ _))).2.1
      rw [hdir] at hfalse
      cases hfalse
  | false =>
      have hread := readFile_ends (F := fun _ => False) (f := fileOf (w.file i).inode) (k := ())
        (s := w.volume) he out offset hsize (hcopy.isDir.trans hdir) (by omega)
        (Nat.lt_succ_self count)
      obtain ⟨⟨ret, buf⟩, t, hrun, ⟨c, rfl⟩, m, hret, hle, hdelivered, hstop⟩ := hread.exists_ok
      obtain rfl : ret = m := hret
      have hexec : OpenFiles.exec e (.read i out count offset) w =
          .ok (((m : Int), buf), ⟨w.volume.at c, w.file⟩) := by
        simp only [OpenFiles.exec, ext2Read, hrun]
        rfl
      refine Ends.of_ok hexec ⟨h.at_clock c, fun j hj => ?_, fun j hj hall => ?_⟩
      · have hj : j < m := Int.ofNat_lt.mp hj
        have hbyte := (hdelivered (offset + j) (Nat.le_add_right _ _) (by dsimp only; omega)).2
        rw [Nat.add_sub_cancel_left] at hbyte
        exact hbyte.trans (hcopy.bytes (by omega))
      · have hend := (hcopy.written (hall (offset + j) (Nat.le_add_right _ _) (Nat.le_refl _))).1
        by_contra hge
        have hge : m ≤ j := Int.ofNat_le.mp (not_lt.mp hge)
        have hhole := hstop.resolve_left (by dsimp only [fileOf]; omega)
        exact (hcopy.written (hall (offset + m) (Nat.le_add_right _ _) (by omega))).2.2 hhole

/-- **A write through a File whose copy is the inode on the disk.** -/
theorem write (h : Agrees e num s₀ w last) (hc : Counted e s₀) (hcur : w.Current e num i)
    (hfits : w.Fits e (.write i buf count offset)) :
    Ends (OpenFiles.exec e (.write i buf count offset)) w (fun _ => False) fun r w' =>
      Agrees e num s₀ w' ((FileCall.write i buf count offset).after r.1 last) ∧
        (FileCall.write i buf count offset).Answered
          (fileByte e (fileOf (s₀.inodeAt e num)) s₀ ()) last (s₀.inodeAt e num).isDir r := by
  obtain ⟨hlt, hspace⟩ := hfits
  have hcopy := h.holds.of_same hcur w.volume.clock
  -- nothing is stored when the write returns no more than 0
  have hnone : ∀ {ret : Int} {inode : Inode}, ret ≤ 0 →
      writeFile e (w.file i).inode buf count offset (count + 1) w.volume =
        .ok ((ret, inode), w.volume) →
      OpenFiles.exec e (.write i buf count offset) w = .ok ((ret, buf),
        ⟨w.volume, Function.update w.file i ⟨⟨(w.file i).position, inode⟩,
          (w.file i).inodeNum⟩⟩) := by
    intro ret inode hret hrun
    have hwrite : ext2Write e (w.file i) buf count offset (count + 1) w.volume =
        .ok ((ret, ⟨⟨(w.file i).position, inode⟩, (w.file i).inodeNum⟩), w.volume) := by
      rw [ext2Write, bind_apply_of_ok hrun]
      simp only []
      rw [if_neg (by omega)]
      rfl
    simp only [OpenFiles.exec, hwrite]
    rfl
  cases hdir : (s₀.inodeAt e num).isDir with
  | true =>
      have hrun : writeFile e (w.file i).inode buf count offset (count + 1) w.volume =
          .ok ((-2, (w.file i).inode), w.volume) := by
        rw [writeFile, if_pos (hcopy.isDir.trans hdir)]
        rfl
      refine Ends.of_ok (hnone (by decide) hrun) ⟨?_, fun hfalse => ?_⟩
      · rw [after_of_nonpos (by dsimp only; omega)]
        exact h.of_file _
      · cases hfalse
  | false =>
      have hdir' : (w.file i).inode.isDir = false := hcopy.isDir.trans hdir
      by_cases hzero : count = 0
      · subst hzero
        have hrun : ∃ inode, writeFile e (w.file i).inode buf 0 offset (0 + 1) w.volume =
            .ok ((0, inode), w.volume) := by
          rw [writeFile, hdir', if_neg Bool.false_ne_true]
          exact ⟨_, rfl⟩
        obtain ⟨inode, hrun⟩ := hrun
        refine Ends.of_ok (hnone (Int.le_refl 0) hrun) ⟨?_, fun _ => rfl⟩
        rw [after_of_nonpos (Int.le_refl 0)]
        exact h.of_file _
      · have hnum := h.hasInode
        rw [← h.number i] at hnum
        obtain ⟨inode, t, u, hwrite, hp, hst, hfill, hbits, hlasts, hsame⟩ :=
          ext2Write_run (s := w.volume) (w.file i) buf he hcopy.files h.counted h.tables hnum hdir'
            (Nat.pos_of_ne_zero hzero) hlt hspace
        rw [h.number i] at hlasts hsame
        have hholds := hcopy.write hdir hc hp hst hfill i
        have htables := h.tables.of_layout hfill.layout
        have hnum : t.HasInode num := hfill.layout.hasInode.mpr h.hasInode
        have hexec : OpenFiles.exec e (.write i buf count offset) w = .ok (((count : Int), buf),
            ⟨u, Function.update w.file i ⟨⟨(w.file i).position, inode⟩, (w.file i).inodeNum⟩⟩) := by
          simp only [OpenFiles.exec, hwrite]
          rfl
        have hstored : Agrees e num s₀ ⟨u, w.file⟩ _ :=
          ⟨hbits.counted (hfill.counted h.counted), htables.of_layout hbits.layout,
            hbits.layout.hasInode.mpr hnum, h.number, hholds.carry hbits (fun z hz j hj =>
              hlasts.block (.of_data hz) (fun heq => hz (heq ▸ htables.inodeBlock_meta hnum)) hj)
              hsame⟩
        exact Ends.of_ok hexec ⟨hstored.of_file _, fun _ => rfl⟩

end Agrees

/-! ## Files opened on one path -/

section Opening

variable {path : List UInt8} {flags n : Nat} {inode : Inode} {file : OpenFile} (he : e.Reliable)

include he

variable (flags) in
/-- **What `Ext2Open` makes of a path that leads to an inode.** -/
theorem ext2Open_run (habs : path.head? = some slash)
    (hlook : lookupPath e path n s = .ok (.ok num, t))
    (hread : readInode e num s = .ok (.ok inode, u)) :
    ∃ c, ext2Open e path flags n s = .ok (some ⟨⟨0, inode⟩, num⟩, s.at c) := by
  obtain ⟨ht, -⟩ := (looks_lookupPath he path n).again hlook
  obtain ⟨c, hread'⟩ := ((looks_readInode he num).again hread).2 t.clock
  have hnum : openNum e path flags n s = .ok (some num, t) := by
    rw [openNum, bind_apply_of_ok hlook]
    rfl
  rw [← ht] at hread'
  refine ⟨c + 1 + 1, ?_⟩
  rw [ext2Open, absPath, if_pos habs]
  simp only []
  rw [bind_apply_of_ok hnum]
  simp only []
  rw [bind_apply_of_ok hread']
  simp only []
  rw [bind_apply_of_ok (pageAlloc_run he)]
  simp only [Bool.not_true, Bool.false_eq_true, if_false]
  rw [bind_apply_of_ok (pageAlloc_run he)]
  rfl

/-- **The copy that `Ext2Open` makes** has been read from the inode table. -/
theorem ext2Open_reads : Ends (ext2Open e path flags n) s (fun _ => True) fun r t => ∀ file,
    r = some file → ∃ u c c', t = u.at c ∧
      readInode e file.inodeNum u = .ok (.ok file.inode, u.at c') := by
  have hnone : ∀ u, Ends (pure none : Io (Option OpenFile)) u (fun _ => True) fun r t =>
      ∀ file, r = some file → ∃ u c c', t = u.at c ∧
        readInode e file.inodeNum u = .ok (.ok file.inode, u.at c') :=
    fun u => .pure fun file hfile => by cases hfile
  rw [ext2Open]
  cases absPath path with
  | none => exact hnone s
  | some path =>
      refine Ends.trivial.bind fun num u _ => ?_
      cases num with
      | none => exact hnone u
      | some num =>
          rcases hread : readInode e num u with f | ⟨r, v⟩
          · exact .step_error hread True.intro
          · have hv := ((looks_readInode he num).again hread).1
            refine .step hread ?_
            cases r with
            | error code => exact hnone _
            | ok inode =>
                refine .step (pageAlloc_run he) ?_
                simp only [Bool.not_true, Bool.false_eq_true, if_false]
                refine .step (pageAlloc_run he) (.pure fun file hfile => ?_)
                obtain rfl := Option.some.inj hfile
                refine ⟨u, v.clock + 1 + 1, v.clock, ?_, hv ▸ hread⟩
                rw [hv]
                rfl

end Opening

/-- **Files that have been opened on one path** of a sound volume: the path leads to inode `num`,
and the last call of `Ext2Open` has left the volume as it is. -/
structure Opened (e : Env) (path : List UInt8) (num : Nat) (w : OpenFiles ι) : Prop where
  counted : Counted e w.volume
  tables : Tables e w.volume
  hasInode : w.volume.HasInode num
  files : Files e (fileOf (w.volume.inodeAt e num)) w.volume
  opened (i : ι) : ∃ flags n s c, ext2Open e path flags n s = .ok (some (w.file i), w.volume.at c)
  number (i : ι) : (w.file i).inodeNum = num

namespace Opened

variable {path : List UInt8} {w : OpenFiles ι}

/-- At first all copies are the inode on the disk. -/
theorem current (h : Opened e path num w) (he : e.Reliable) (i : ι) : w.Current e num i := by
  obtain ⟨flags, n, s, c, hopen⟩ := h.opened i
  obtain ⟨u, c', c'', hclock, hread⟩ := (ext2Open_reads he).of_result hopen _ rfl
  obtain ⟨y, c₁, hrun, hsame⟩ := h.tables.readInode_run he h.hasInode
  have hback : u = w.volume.at u.clock := by
    have hu : u.at u.clock = (u.at c').at u.clock := rfl
    rw [← hclock] at hu
    exact hu
  obtain ⟨c₂, hrun'⟩ := ((looks_readInode he num).again hrun).2 u.clock
  rw [h.number, hback, hrun'] at hread
  obtain ⟨hy, -⟩ := Prod.mk.inj (Except.ok.inj hread)
  rw [OpenFiles.Current, ← Except.ok.inj hy]
  exact hsame

theorem agrees (h : Opened e path num w) : Agrees e num w.volume w fun _ => none where
  counted := h.counted
  tables := h.tables
  hasInode := h.hasInode
  number := h.number
  holds := ⟨h.files, rfl, fun _ => rfl, fun hp => absurd rfl hp, fun hy hy' => absurd hy hy'⟩

end Opened

/-- **The Files are right**: a call that satisfies `ok` returns what it must, and all blocks that
the writes have taken are referred to by the inode on the disk. -/
structure FilesRight [DecidableEq ι] (e : Env) (ok : OpenFiles ι → FileCall ι → Prop) (num : Nat)
    (s₀ : State) (w : OpenFiles ι) (last : Nat → Option UInt8) : Prop where
  answered (c : FileCall ι) : ok w c → ∃ r w', OpenFiles.exec e c w = .ok (r, w') ∧
    c.Answered (fileByte e (fileOf (s₀.inodeAt e num)) s₀ ()) last (s₀.inodeAt e num).isDir r
  referred {y : Nat} : Free e s₀ .block y → ¬ Free e w.volume .block y →
    w.volume.Refers e (fileOf (w.volume.inodeAt e num)) y

section Runs

variable [DecidableEq ι] {path : List UInt8} {w₀ w w' : OpenFiles ι} {last : Nat → Option UInt8}
  {calls : List (FileCall ι)} {c : FileCall ι} (he : e.Reliable)

include he

theorem Agrees.exec (h : Agrees e num w₀.volume w last) (hc : Counted e w₀.volume)
    (hcur : w.Current e num c.file) (hfits : w.Fits e c) :
    Ends (OpenFiles.exec e c) w (fun _ => False) fun r w' =>
      Agrees e num w₀.volume w' (c.after r.1 last) ∧
        c.Answered (fileByte e (fileOf (w₀.volume.inodeAt e num)) w₀.volume ()) last
          (w₀.volume.inodeAt e num).isDir r := by
  cases c with
  | read i out count offset => exact h.read he hcur hfits
  | write i buf count offset => exact h.write he hc hcur hfits

end Runs

/-! ## Two Files of one empty file -/

namespace Small

/-- What `Ext2Open` returns for `/a`. -/
def openedFile : OpenFile :=
  match ext2Open (Env.ideal 0) [47, 97] 0 1027 (linked 0) with
  | .ok (some file, _) => file
  | _ => ⟨⟨0, ⟨fun _ => 0⟩⟩, 0⟩

/-- Two Files. -/
def opened : OpenFiles Bool := ⟨linked 0, fun _ => openedFile⟩

theorem ext2Open_linked : openedFile.inodeNum = 10 ∧
    ∃ c, ext2Open (Env.ideal 0) [47, 97] 0 1027 (linked 0) =
      .ok (some openedFile, (linked 0).at c) := by
  have hval : (lookupPath (Env.ideal 0) [47, 97] 1027 (linked 0)).toOption.map
      (fun r => r.1.toOption) = some (some 10) := by
    decide +kernel
  cases hlook : lookupPath (Env.ideal 0) [47, 97] 1027 (linked 0) with
  | error f =>
      rw [hlook] at hval
      cases hval
  | ok r =>
      obtain ⟨num | num, t⟩ := r
      · rw [hlook] at hval
        cases hval
      · rw [hlook] at hval
        obtain rfl : num = 10 := Option.some.inj (Option.some.inj hval)
        obtain ⟨inode, c, hread, -⟩ := readInode_linked (.inl rfl) (.inr rfl)
        obtain ⟨c', hrun⟩ := ext2Open_run 0 (Env.ideal_reliable 0) rfl hlook hread
        have hfile : openedFile = ⟨⟨0, inode⟩, 10⟩ := by
          rw [openedFile, hrun]
        rw [hfile]
        exact ⟨rfl, c', hrun⟩

theorem opened_linked : Opened (Env.ideal 0) [47, 97] 10 opened where
  counted := (sameBits_linked 0).counted counted_small
  tables := tables_linked 0
  hasInode := ⟨by decide, by decide⟩
  files := by
    obtain ⟨y, c, hread, hsame⟩ := readInode_linked (.inl rfl) (.inr rfl)
    have hnum : (linked 0).HasInode 10 := ⟨by decide, by decide⟩
    obtain ⟨y', c', hread', hsame'⟩ := (tables_linked 0).readInode_run (Env.ideal_reliable 0) hnum
    rw [hread] at hread'
    obtain ⟨hy, -⟩ := Prod.mk.inj (Except.ok.inj hread')
    obtain rfl := Except.ok.inj hy
    have hnone : ∀ {q}, ((linked 0).shape Unit).Pos q →
        ((linked 0).forest (Env.ideal 0) (fileOf y)).ref q = 0 := by
      intro q hq
      by_contra hne
      cases (ref_linked (.inl rfl) (.inr rfl) hread hq hne).1
    have hfiles : Files (Env.ideal 0) (fileOf y) (linked 0) :=
      ⟨((sameBits_linked 0).counted counted_small).consistent,
        fun p _ hp _ hne => absurd (hnone hp) hne, fun hp hne => absurd (hnone hp) hne⟩
    exact hfiles.of_same fun i hi => (hsame' i hi).symm
  opened _ := ⟨0, 1027, linked 0, ext2Open_linked.2⟩
  number _ := ext2Open_linked.1

end Small

section Runs

variable [DecidableEq ι] {path : List UInt8} {w₀ w : OpenFiles ι} {last : Nat → Option UInt8}
  {calls : List (FileCall ι)}

/-- **Files that are open more than once.**  In every run of reads and writes through any Files that
have been opened on one path, in which each call goes through a File whose copy is the inode on the
disk, every such call returns what it must, and the inode on the disk refers to all blocks that have
been taken. -/
theorem openFiles_agree (he : e.Reliable) (hopen : Opened e path num w₀)
    (hrun : Run (Guarded (fun x c => x.1.Current e num c.file ∧ x.1.Fits e c) (OpenFiles.Step e))
      (w₀, fun _ => none) calls (w, last)) :
    FilesRight e (fun w c => w.Current e num c.file ∧ w.Fits e c) num w₀.volume w last := by
  have hagrees : Agrees e num w₀.volume w last := by
    refine hrun.invariant (I := fun x => Agrees e num w₀.volume x.1 x.2) hopen.agrees ?_
    rintro ⟨w, last⟩ c ⟨w', last'⟩ h ⟨⟨hcur, hfits⟩, r, hexec, hlast⟩
    obtain rfl : last' = c.after r.1 last := hlast
    exact ((h.exec he hopen.counted hcur hfits).of_result hexec).1
  refine ⟨fun c hc => ?_, hagrees.holds.taken⟩
  obtain ⟨r, w', hexec, -, hanswered⟩ := (hagrees.exec he hopen.counted hc.1 hc.2).exists_ok
  exact ⟨r, w', hexec, hanswered⟩

end Runs

/-- A byte is written through the first File, and the second one is not used. -/
theorem openFiles_agree_small :
    ∃ w last, Run (Guarded (fun x c => x.1.Current (Env.ideal 0) 10 c.file ∧
      x.1.Fits (Env.ideal 0) c) (OpenFiles.Step (Env.ideal 0))) (Small.opened, fun _ => none)
      [.write true (fun _ => 7) 1 0] (w, last) ∧ last 0 = some 7 ∧
    FilesRight (Env.ideal 0) (fun w c => w.Current (Env.ideal 0) 10 c.file ∧ w.Fits (Env.ideal 0) c)
      10 (Small.linked 0) w last := by
  have he := Env.ideal_reliable 0
  have hstart := openFiles_agree he Small.opened_linked .nil
  have hcall : Small.opened.Current (Env.ideal 0) 10 true ∧
      Small.opened.Fits (Env.ideal 0) (.write true (fun _ => 7) 1 0) :=
    ⟨Small.opened_linked.current he true, by decide, by decide +kernel⟩
  obtain ⟨r, w, hexec, hall⟩ := hstart.answered (.write true (fun _ => 7) 1 0) hcall
  have hdir : ((Small.linked 0).inodeAt (Env.ideal 0) 10).isDir = false := by decide
  have hret : r.1 = 1 := hall hdir
  have hrun : Run (Guarded (fun x c => x.1.Current (Env.ideal 0) 10 c.file ∧
      x.1.Fits (Env.ideal 0) c) (OpenFiles.Step (Env.ideal 0))) (Small.opened, fun _ => none)
      ([] ++ [.write true (fun _ => 7) 1 0])
      (w, FileCall.after r.1 (fun _ => none) (.write true (fun _ => 7) 1 0)) :=
    Run.nil.snoc ⟨hcall, r, hexec, rfl⟩
  refine ⟨w, _, hrun, ?_, openFiles_agree he Small.opened_linked hrun⟩
  rw [hret]
  rfl

/-- The first File writes a byte, the second one writes another byte at the same place, and the
first one reads it. -/
theorem Small.exec_opened : ∃ r w r' w' r'' w'',
    OpenFiles.exec (Env.ideal 0) (.write true (fun _ => 7) 1 0) opened = .ok (r, w) ∧
    OpenFiles.exec (Env.ideal 0) (.write false (fun _ => 9) 1 0) w = .ok (r', w') ∧
    OpenFiles.exec (Env.ideal 0) (.read true (fun _ => 0) 1 0) w' = .ok (r'', w'') ∧
    w.Fits (Env.ideal 0) (.write false (fun _ => 9) 1 0) ∧ r'.1 = 1 ∧ r''.1 = 1 ∧ r''.2 0 = 7 := by
  have hok : ∀ {α : Type} {x : Except Fault α} {a : α}, x.toOption = some a → x = .ok a := by
    intro α x a h
    cases x with
    | error f => cases h
    | ok b => rw [← Option.some.inj h]
  have hval : (OpenFiles.exec (Env.ideal 0) (.write true (fun _ => 7) 1 0) opened).toOption.bind
      (fun r => (OpenFiles.exec (Env.ideal 0) (.write false (fun _ => 9) 1 0) r.2).toOption.bind
        fun r' => (OpenFiles.exec (Env.ideal 0) (.read true (fun _ => 0) 1 0) r'.2).toOption.map
          fun r'' =>
            (decide (needed (Env.ideal 0) (fileOf (r.2.file false).inode) r.2.volume () 0 1 ≤
            r.2.volume.super.sFreeBlocksCount), r'.1.1, r''.1.1, r''.1.2 0)) =
        some (true, 1, 1, 7) := by
    decide +kernel
  simp only [Option.bind_eq_some_iff, Option.map_eq_some_iff, Prod.mk.injEq,
    decide_eq_true_eq] at hval
  obtain ⟨⟨r, w⟩, hfirst, ⟨r', w'⟩, hsecond, ⟨r'', w''⟩, hthird, hroom, hret, hret', hbyte⟩ := hval
  exact ⟨r, w, r', w', r'', w'', hok hfirst, hok hsecond, hok hthird, ⟨by decide, hroom⟩, hret,
    hret', hbyte⟩

/-- Two writes of the same byte, each through its own File: the first File gives what it has written
itself. -/
theorem openFiles_disagree : ¬ ∀ (e : Env) (num : Nat) (path : List UInt8) (w₀ w : OpenFiles Bool)
    (last : Nat → Option UInt8) (calls : List (FileCall Bool)), e.Reliable → Opened e path num w₀ →
    Run (Guarded (fun x c => x.1.Fits e c) (OpenFiles.Step e)) (w₀, fun _ => none) calls (w, last) →
    FilesRight e (fun w c => w.Fits e c) num w₀.volume w last := by
  intro hall
  obtain ⟨r, w, r', w', r'', w'', hfirst, hsecond, hthird, hfits, hret, hret', hbyte⟩ :=
    Small.exec_opened
  have hroom : Small.opened.Fits (Env.ideal 0) (.write true (fun _ => 7) 1 0) :=
    ⟨by decide, by decide +kernel⟩
  have hone : Run (Guarded (fun x c => x.1.Fits (Env.ideal 0) c) (OpenFiles.Step (Env.ideal 0)))
      (Small.opened, fun _ => none) ([] ++ [.write true (fun _ => 7) 1 0])
      (w, FileCall.after r.1 (fun _ => none) (.write true (fun _ => 7) 1 0)) :=
    Run.nil.snoc ⟨hroom, r, hfirst, rfl⟩
  have hrun : Run (Guarded (fun x c => x.1.Fits (Env.ideal 0) c) (OpenFiles.Step (Env.ideal 0)))
      (Small.opened, fun _ => none)
      ([] ++ [.write true (fun _ => 7) 1 0] ++ [.write false (fun _ => 9) 1 0])
      (w', FileCall.after r'.1 (FileCall.after r.1 (fun _ => none) (.write true (fun _ => 7) 1 0))
        (.write false (fun _ => 9) 1 0)) :=
    hone.snoc ⟨hfits, r', hsecond, rfl⟩
  have hright := hall _ _ _ _ _ _ _ (Env.ideal_reliable 0) Small.opened_linked hrun
  obtain ⟨r₃, w₃, hexec, hanswered, -⟩ := hright.answered (.read true (fun _ => 0) 1 0)
    (show 0 + 1 < 2 ^ 32 by decide)
  rw [hthird] at hexec
  obtain ⟨rfl, -⟩ := Prod.mk.inj (Except.ok.inj hexec)
  have hlast : ∀ last, FileCall.after r'.1 last (.write false (fun _ => 9) 1 0) 0 = some 9 := by
    intro last
    rw [hret]
    rfl
  have hnine := hanswered 0 (by rw [hret']; decide)
  rw [hbyte, Nat.add_zero, hlast, Option.getD_some] at hnine
  exact absurd hnine (by decide)

end InfoKernel.Ext2
