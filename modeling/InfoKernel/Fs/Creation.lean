import InfoKernel.Fs.AddEntry
import InfoKernel.Fs.Lasting
import InfoKernel.Fs.Paths

/-!
# Creating a file

`CreateFile` looks for the parent directory, takes an inode, stores it and adds an entry to the
directory.  When it returns a code, it has only looked, or there was no inode, or the entry could
not be added: then the inode is given back.  `createFile_failed` says that on an orderly volume all
is then as it was before.
-/

namespace InfoKernel.Ext2

open Lib

variable {e : Env} {s t u : State} {path name : List UInt8} {n num parentNum mode : Nat}
  {parent : Inode}

/-- **An orderly volume.**  All counts are right and the inode tables lie apart, what a path leads
to is an inode in use, and the directories that a path leads to are well formed and have no
holes. -/
structure Orderly (e : Env) (s : State) : Prop where
  counted : Counted e s
  tables : Tables e s
  /-- no bit behind the inodes is clear -/
  inodes {n : Nat} : Free e s .inode n → n < s.super.sInodesCount
  named {n : Nat} : Named e s n → s.HasInode n ∧ ¬ Free e s .inode (n - 1)
  directory {n : Nat} {inode : Inode} {t : State} : Named e s n →
    readInode e n s = .ok (.ok inode, t) → inode.isDir = true →
    Files e (fileOf inode) s ∧ ∃ os, Directory e (fileOf inode) s () os

theorem Orderly.tree (h : Orderly e s) (he : e.Reliable) : Tree e s where
  size_pos := h.counted.roles.size_pos
  readable hn := by
    obtain ⟨y, c, hrun, -⟩ := h.tables.readInode_run he (h.named hn).1
    exact ⟨y, _, hrun⟩
  listing hn hread hdir := by
    obtain ⟨-, os, hd⟩ := h.directory hn hread hdir
    exact ⟨os, hd.listing⟩

/-- **All is as before**: the bits and counts of the allocators, the inodes in use, the blocks of
data, and with them what the directories say. -/
structure AsBefore (e : Env) (s t : State) : Prop where
  bits : SameBits e s t
  inode {m : Nat} : s.HasInode m → ¬ Free e s .inode (m - 1) → (t.inodeAt e m).Same (s.inodeAt e m)
  data {y i : Nat} : ¬ Meta e s y → i < s.super.blockSize → t.block e y i = s.block e y i
  entries {dir : Inode} {os : Nat → List Nat} : Files e (fileOf dir) s →
    Directory e (fileOf dir) s () os →
    dirEntries e (fileOf dir) t () os = dirEntries e (fileOf dir) s () os

/-- Time and the marks of the model do not matter. -/
theorem AsBefore.same (s : State) (c : Nat) (f : Bool) :
    AsBefore e s { s with clock := c, noSpace := f } where
  bits := ⟨rfl, ⟨SuperBlock.SameGeometry.refl s.super, fun _ => rfl, fun _ => rfl⟩, fun _ => rfl,
    fun _ => rfl⟩
  inode _ _ := fun _ _ => rfl
  data _ _ := rfl
  entries _ _ := rfl

/-! ## Looking for the directory -/

/-- **What `CreateFile` has found**: the part of the path in front of its last slash leads to the
directory `d`, in which there is no entry for the name `c` behind it. -/
structure Found (e : Env) (s : State) (path : List UInt8) (d : Nat) (dir : Inode) (c : List UInt8) :
    Prop where
  leads : ∃ p, splitLast path = some (p, c) ∧ Yields e s (parentOf p) (.ok d)
  nonempty : c ≠ []
  length_lt : c.length < 256
  named : Named e s d
  read : ∃ t, readInode e d s = .ok (.ok dir, t)
  isDir : dir.isDir = true
  absent : Answers e dir s c none

section Looking

variable (he : e.Reliable)

include he

/-- **The first part of `CreateFile`** only looks.  It stops at a name that is too long for its
buffer, which is the end of a path of more than 255 bytes. -/
theorem createParent_ends (hv : Tree e s) (hn : s.super.blockSize + path.length < n) :
    Ends (createParent e path n) s (fun err => err = .outOfBounds ∧ 255 < path.length) fun r t =>
      ∃ c, t = s.at c ∧ ((∃ code, r = .error code ∧ code < 0) ∨
        ∃ d dir name, r = .ok (d, dir, name) ∧ Found e s path d dir name) := by
  have hcode : ∀ {code : Int} {c : Nat}, code < 0 → Ends (pure (.error code) :
      Io (Except Int (Nat × Inode × List UInt8))) (s.at c)
      (fun err => err = .outOfBounds ∧ 255 < path.length) fun r t =>
        ∃ c, t = s.at c ∧ ((∃ code, r = .error code ∧ code < 0) ∨
          ∃ d dir name, r = .ok (d, dir, name) ∧ Found e s path d dir name) := fun {code c} hneg =>
    .pure ⟨c, rfl, .inl ⟨code, rfl, hneg⟩⟩
  rw [createParent]
  cases hsplit : splitLast path with
  | none => exact hcode (c := s.clock) (by decide)
  | some r =>
      obtain ⟨p, name⟩ := r
      have hlength : path.length = p.length + (name.length + 1) := by
        rw [(eq_of_splitLast hsplit).1, List.length_append, List.length_cons]
      have hlen : (parentOf p).length ≤ p.length + 1 := by
        rw [parentOf]
        split
        · exact Nat.le_add_left _ _
        · exact Nat.le_succ _
      simp only []
      by_cases hlong : p.length ≥ 256
      · rw [if_pos hlong]
        exact hcode (c := s.clock) (by decide)
      rw [if_neg hlong]
      by_cases hlong' : name.length ≥ 256
      · rw [if_pos hlong']
        exact .throw ⟨rfl, by omega⟩
      rw [if_neg hlong']
      by_cases hnil : name = []
      · rw [if_pos hnil]
        exact hcode (c := s.clock) (by decide)
      rw [if_neg hnil]
      obtain ⟨r, hyields, hnamed⟩ := hv.exists_yields he (parentOf p)
      obtain ⟨c, hlook⟩ := hyields n (by omega)
      refine .step hlook ?_
      cases r with
      | error code => exact hcode (by decide)
      | ok num =>
          have hnamed := hnamed num rfl
          obtain ⟨inode, t, hread⟩ := hv.readable hnamed
          obtain ⟨c', hread'⟩ := ((looks_readInode he num).again hread).2 c
          refine .step hread' ?_
          simp only []
          by_cases hdir : inode.isDir = true
          · rw [hdir]
            simp only [Bool.not_true, Bool.false_eq_true, if_false]
            obtain ⟨a, ha⟩ := hv.answers he hnamed hread name
            obtain ⟨out, c'', hfind, rfl⟩ := ha.run_at he (n := n) (by omega) c'
            refine .step hfind ?_
            cases out with
            | ok entry => exact hcode (by decide)
            | error code =>
                refine .pure ⟨c'', rfl, .inr ⟨num, inode, name, rfl, ?_⟩⟩
                exact ⟨⟨p, hsplit, hyields⟩, hnil, Nat.not_le.mp hlong', hnamed,
                  ⟨t, hread⟩, hdir, ha⟩
          · rw [Bool.not_eq_true] at hdir
            rw [hdir]
            exact hcode (by decide)

end Looking

/-! ## Taking an inode and giving it back -/

theorem SameBits.trans (h : SameBits e s t) (h' : SameBits e t u) : SameBits e s u where
  super := h'.super.trans h.super
  layout := h.layout.trans h'.layout
  free hg := (h'.free (by rwa [h.layout.groups])).trans (h.free hg)
  bit hn := (h'.bit (by rwa [h.layout.perGroup, h.layout.groups])).trans (h.bit hn)

/-- A block of a file is not one with inodes. -/
theorem Tables.ne_inodeBlock {κ : Type} {f : κ → Inode} {y : Nat} (ht : Tables e s)
    (hf : Files e f s) (hy : s.Refers e f y) (hnum : s.HasInode num) : y ≠ s.inodeBlock e num := by
  obtain ⟨p, hp, rfl⟩ := hy
  intro heq
  by_cases hne : (s.forest e f).ref p = 0
  · have hpos := (ht.inodeBlock_lasting hnum).super_lt
    rw [← heq, hne] at hpos
    exact Nat.not_lt_zero _ hpos
  · refine (hf.owned hp hne).data ?_
    rw [heq]
    exact ht.inodeBlock_meta hnum

/-- A state that differs from a volume with an inode more, or one that was free. -/
theorem AsBefore.of_lasts (ht : Tables e s) (hnum : s.HasInode num)
    (hfree : Free e s .inode (num - 1)) (hbits : SameBits e s t)
    (hlasts : Lasts e (fun y => y = s.inodeBlock e num) s t)
    (hother : ∀ m, s.HasInode m → m ≠ num → (t.inodeAt e m).Same (s.inodeAt e m)) :
    AsBefore e s t where
  bits := hbits
  inode {m} hm hused := hother m hm fun heq => hused (heq ▸ hfree)
  data {y i} hy hi := by
    refine hlasts.block (.of_data hy) (fun heq => hy ?_) hi
    rw [heq]
    exact ht.inodeBlock_meta hnum
  entries hf hd := (hlasts.directory hf (fun _ hy => ht.ne_inodeBlock hf hy hnum) hd).2

/-- A number below `2 ^ 31` is no negative code. -/
theorem asInt_nonneg {m : Nat} (h : m < 2 ^ 31) : 0 ≤ asInt m := by
  unfold asInt
  rw [Int.bmod_eq_of_le_mul_two]
  · exact Int.natCast_nonneg m
  · norm_num
    omega
  · norm_num
    omega

/-- **`AllocInode` and `WriteInode` of a new inode**, which lead from `s` to `t` and to `u`. -/
structure NewInode (e : Env) (s : State) (num mode : Nat) (t u : State) : Prop where
  hasInode : s.HasInode num
  free : Free e s .inode (num - 1)
  flip : Flip e .inode (num - 1) true
    (Kind.inode.free (s.desc e ((num - 1) / Kind.inode.perGroup s.super)) - 1)
    (sub32 (Kind.inode.superFree s.super) 1) (fun _ => False) s t
  bits : SameBits e t u
  counted : Counted e u
  lasts : Lasts e (fun y => y = s.inodeBlock e num) s u
  new : (u.inodeAt e num).Same (newInode mode)
  other {m : Nat} : s.HasInode m → m ≠ num → (u.inodeAt e m).Same (s.inodeAt e m)

namespace NewInode

variable (h : NewInode e s num mode t u)

include h

/-- No block has been given back. -/
theorem free_block {m : Nat} (hm : Free e u .block m) : Free e s .block m :=
  (h.flip.free_or (h.bits.free_iff.mp hm)).resolve_right fun h => by cases h.1

/-- Files have the blocks they had. -/
theorem files (ht : Tables e s) {x : Inode} (hf : Files e (fileOf x) s) : Files e (fileOf x) u := by
  refine h.lasts.files hf ?_ h.free_block
  rintro y ⟨p, hp, hy⟩
  exact ht.ne_inodeBlock hf ⟨p, hp.pos, hy⟩ h.hasInode

/-- Directories are what they were. -/
theorem directory (ht : Tables e s) {x : Inode} {os : Nat → List Nat} (hf : Files e (fileOf x) s)
    (hd : Directory e (fileOf x) s () os) : Directory e (fileOf x) u () os ∧
      dirEntries e (fileOf x) u () os = dirEntries e (fileOf x) s () os :=
  h.lasts.directory hf (fun _ hy => ht.ne_inodeBlock hf hy h.hasInode) hd

omit h in
/-- Time does not matter. -/
theorem of_at {k : Nat} (h : NewInode e (s.at k) num mode t u) : NewInode e s num mode t u where
  hasInode := h.hasInode
  free := ⟨h.free.group, h.free.lowest, h.free.clear⟩
  flip := ⟨h.flip.super, h.flip.bitmapBlock, h.flip.inodeTable, h.flip.bit, h.flip.free,
    h.flip.block⟩
  bits := h.bits
  counted := h.counted
  lasts := (Lasts.at_right s k s.noSpace).trans h.lasts
  new := h.new
  other := h.other

end NewInode

/-- A number that is positive as an `int` is the same number there. -/
theorem toNat_asInt {m : Nat} (hpos : 0 < asInt m) (hlt : m < 2 ^ 32) : (asInt m).toNat = m := by
  have hhalf : asInt m < ((2 ^ 32 : Nat) + 1) / 2 := Int.bmod_lt (by decide)
  have hmod : asInt m % ((2 ^ 32 : Nat) : Int) = m % ((2 ^ 32 : Nat) : Int) := Int.bmod_emod
  generalize asInt m = i at *
  omega

section Creating

variable (he : e.Reliable)

include he

/-- An inode in use is given back. -/
theorem freeInode_ends (hr : Roles e s) (hnum : s.HasInode num)
    (hfits : s.Fits ((num - 1) / Kind.inode.perGroup s.super))
    (hused : s.bit e .inode (num - 1) = true) :
    Ends (freeInode e num) s (fun _ => False) fun _ t =>
      Flip e .inode (num - 1) false
        (u16 (Kind.inode.free (s.desc e ((num - 1) / Kind.inode.perGroup s.super)) + 1))
        (u32 (Kind.inode.superFree s.super + 1)) (fun _ => False) s t := by
  have hgroup : (num - 1) / Kind.inode.perGroup s.super < s.groups .inode := hnum.2
  rw [freeInode, if_neg (Nat.ne_of_gt hnum.1)]
  refine ((freeBit_ends he hr hgroup).mono_error fun _ hf => hf.2 hfits).mono
    fun _ t ht => ?_
  rcases ht.2 with ⟨hclear, -⟩ | ⟨-, hflip⟩
  · rw [hused] at hclear
    cases hclear
  · exact hflip

variable (mode) in
/-- There is no inode, or a new one is taken and stored. -/
theorem newInode_run (hc : Counted e s) (ht : Tables e s) :
    ∃ num t, allocInode e s = .ok (num, t) ∧
      ((num = 0 ∧ ∃ c f, t = { s with clock := c, noSpace := f }) ∨
        (num ≠ 0 ∧ ∃ u, writeInode e num (newInode mode) t = .ok (0, u) ∧
          NewInode e s num mode t u)) := by
  obtain ⟨num, t, halloc, hcases⟩ := (allocInode_counted he hc).exists_ok
  have hct := hcases.counted hc
  refine ⟨num, t, halloc, ?_⟩
  rcases hcases with ⟨rfl, -, c, f, rfl⟩ | ⟨hdata, hfree, hflip⟩
  · exact .inl ⟨rfl, c, f, rfl⟩
  replace hfree : Free e s .inode (num - 1) := hfree
  replace hflip := hflip.mono (D := fun _ => False) fun y hy => by cases hy.1
  have hnum : s.HasInode num := ⟨Nat.pos_of_ne_zero hdata.pos, hdata.group⟩
  have hl := hflip.layout
  obtain ⟨u, hwrite, hbits, hlasts, hnew, hother⟩ :=
    (ht.of_layout hl).writeInode_run he hct.roles (hl.hasInode.mpr hnum) (newInode mode)
  have hst : Lasts e (fun _ => False) s t := Lasts.of_flip hflip hdata.group
  refine .inr ⟨hdata.pos, u, hwrite, hnum, hfree, hflip, hbits, hbits.counted hct,
    (hst.mono fun _ => False.elim).trans (hlasts.mono fun y hy => ?_), hnew, fun hm hne i hi => ?_⟩
  · rw [hy, hl.inodeBlock hnum]
  · exact (hother _ (hl.hasInode.mpr hm) hne i hi).trans (ht.inodeAt_of_lasts hst hm id i hi)

/-- **The rest of `CreateFile`**, once the directory has been found: there was no inode, or the new
inode has been given back, and a code is returned; or the new inode, the entry and the directory
have been stored. -/
theorem createFile_of_parent (h : Orderly e s)
    (hfound : Found e s path parentNum parent name) {k : Nat}
    (hrun : createParent e path n s = .ok (.ok (parentNum, parent, name), s.at k))
    (hn : s.super.blockSize < n) :
    Ends (createFile e path mode n) s (fun _ => False) fun code w => code < 0 ∧ AsBefore e s w ∨
      ∃ num t u v parent', code = asInt num ∧ NewInode e s num mode t u ∧
        addEntry e parent num name 1 n u = .ok ((0, parent'), v) ∧
        writeInode e parentNum (parent'.setMtime 0) v = .ok (0, w) := by
  have hc := h.counted
  have ht := h.tables
  obtain ⟨t, hread⟩ := hfound.read
  obtain ⟨hf, os, hd⟩ := h.directory hfound.named hread hfound.isDir
  rw [createFile]
  refine .step hrun ?_
  simp only []
  -- looking has taken some time
  obtain ⟨num, t, halloc, hcases⟩ := newInode_run mode he (hc.same k s.noSpace)
    (ht.of_layout (AsBefore.same s k s.noSpace).bits.layout)
  refine .step halloc ?_
  rcases hcases with ⟨rfl, c, f, rfl⟩ | ⟨hpos, u, hwrite, hnew⟩
  · rw [if_pos rfl]
    exact .pure (.inl ⟨by decide, .same s c f⟩)
  rw [if_neg hpos]
  refine .step hwrite ?_
  rw [if_neg (fun h => h rfl)]
  replace hnew := hnew.of_at
  have hnum := hnew.hasInode
  have hl := hnew.flip.layout
  -- the entry is added
  obtain ⟨⟨code, parent'⟩, v, hadd, -, hframe, hsame'⟩ :=
    (addEntry_added num 1 he (hnew.files ht hf) hnew.counted (hnew.directory ht hf hd).1
      hfound.length_lt (n := n)
      (by rwa [hnew.lasts.layout.geometry.blockSize])).exists_ok
  have hadd' : addEntry e parent num name 1 n u = .ok ((code, parent'), v) := hadd
  refine .step hadd' ?_
  simp only []
  by_cases hcode : code = 0
  · -- the entry has been added
    subst hcode
    rw [if_neg (fun h => h rfl)]
    have hl'' := hnew.lasts.layout.trans hframe.layout
    have hr'' := hl''.roles hc.roles
    obtain ⟨w, hwrite', -⟩ := (ht.of_layout hl'').writeInode_run he hr''
      (hl''.hasInode.mpr (h.named hfound.named).1) (parent'.setMtime 0)
    exact .step hwrite' (.pure (.inr ⟨num, t, u, v, parent', rfl, hnew, hadd', hwrite'⟩))
  · -- it has not, and the inode is given back
    rw [if_pos hcode]
    obtain ⟨c, f, rfl⟩ := hsame' hcode
    have hbits' : SameBits e t { u with clock := c, noSpace := f } :=
      hnew.bits.trans (AsBefore.same u c f).bits
    have hgroup : (num - 1) / Kind.inode.perGroup t.super < t.groups .inode := by
      rw [hl.perGroup, hl.groups]
      exact hnum.2
    have hused : u.bit e .inode (num - 1) = true := by
      rw [hnew.bits.bit hgroup, hnew.flip.bit hnum.2, if_pos ⟨rfl, rfl⟩]
    have hcv := hnew.counted.same c f
    have hnum' := hnew.lasts.layout.hasInode.mpr hnum
    obtain ⟨_, w, hrelease, hflip'⟩ :=
      (freeInode_ends he hcv.roles hnum' (hcv.fits hnum'.2) hused).exists_ok
    refine .step hrelease (.pure (.inl ⟨by decide, ?_⟩))
    have huw : Lasts e (fun _ => False) u w :=
      (Lasts.at_right u c f).trans (Lasts.of_flip hflip' (hnew.lasts.layout.hasInode.mpr hnum).2)
    refine AsBefore.of_lasts ht hnum hnew.free (hnew.flip.undo hc hnew.free hbits' hflip')
      (hnew.lasts.trans (huw.mono fun _ => False.elim)) fun m hm hne i hi => ?_
    exact ((ht.of_layout hnew.lasts.layout).inodeAt_of_lasts huw
      (hnew.lasts.layout.hasInode.mpr hm) id i hi).trans (hnew.other hm hne i hi)

/-- **A failed `CreateFile` changes nothing.**  On an orderly volume with fewer than `2 ^ 31`
inodes, for a path of at most 255 bytes, `CreateFile` returns; and when it returns a negative code,
the bitmaps, the counts, the inodes in use, the data and the entries of the directories are what
they were. -/
theorem createFile_failed (h : Orderly e s) (hcount : s.super.sInodesCount < 2 ^ 31)
    (hpath : path.length ≤ 255) (hn : s.super.blockSize + path.length < n) :
    Ends (createFile e path mode n) s (fun _ => False) fun code t => code < 0 → AsBefore e s t := by
  obtain ⟨r, _, hrun, c, rfl, hfound⟩ := ((createParent_ends he (h.tree he) hn).mono_error
    fun _ hlong => absurd hlong.2 (Nat.not_lt.mpr hpath)).exists_ok
  rcases hfound with ⟨code, rfl, -⟩ | ⟨parentNum, parent, name, rfl, hfound⟩
  · rw [createFile]
    exact .step hrun (.pure fun _ => .same s c s.noSpace)
  · refine (createFile_of_parent he h hfound hrun
      (Nat.lt_of_le_of_lt (Nat.le_add_right _ _) hn)).mono ?_
    intro code w hcases hneg
    rcases hcases with ⟨-, hsame⟩ | ⟨num, t', u, v, parent', hcode, hnew, -⟩
    · exact hsame
    · -- a number below `2 ^ 31` is no code
      have hlt := h.inodes hnew.free
      have hpos := hnew.hasInode.1
      have hsmall : 0 ≤ asInt num := asInt_nonneg (by omega)
      omega

end Creating

/-! ## Volumes of one directory -/

namespace Small

/-- The small volume with the root directory, which has the name `.` for itself. -/
def dotted : State :=
  (volume 0 0xFF).put (store (volume 0 0xFF).disk [(7168, 4, 2), (7172, 2, 1024), (7174, 1, 1),
    (7176, 1, 46), (5248, 2, 0x41ED), (5252, 4, 1024), (5288, 4, 7)])

theorem sameBits_dotted : SameBits (Env.ideal 0) (volume 0 0xFF) dotted := sameBits_store (by simp)

theorem entries_dotted : dirEntries (Env.ideal 0) (fileOf dirInode) dotted () (fun _ => [0]) =
    [([46], 2)] := by
  decide

theorem directory_dotted : Directory (Env.ideal 0) (fileOf dirInode) dotted () fun _ => [0] := by
  have hcount : dirBlockCount dotted.super dirInode = 1 := by decide
  have hblock : dotted.dataBlock (Env.ideal 0) (fileOf dirInode) () 0 = 7 := by decide
  refine ⟨by decide, fun {i} hi => ?_, fun {i} hi => ?_, ?_⟩
  · rw [hcount, Nat.lt_one_iff] at hi
    rw [hi, hblock]
    decide
  · rw [hcount, Nat.lt_one_iff] at hi
    rw [hi, hblock]
    have hrec : direntRecLen (dotted.block (Env.ideal 0) 7) 0 = 1024 := by decide
    refine .cons (by decide) ⟨?_, ?_, fun _ => ?_⟩ ?_
    · decide
    · rw [hrec]
      decide
    · decide
    · rw [hrec]
      exact .nil
  · rw [entries_dotted]
    exact List.nodup_singleton _

/-- The inodes of the small volume are in the blocks 5 and 6, behind all other metadata. -/
theorem tables_volume : Tables (Env.ideal 0) (volume 0 0xFF) where
  tables := by
    rw [groups_volume Nat.two_pos]
    exact inodeTables_volume Nat.two_pos
  lasting {g i} hg hi := by
    rw [groups_volume Nat.two_pos, Nat.lt_one_iff] at hg
    subst hg
    have hblock : ∀ i < 16, 4 < (volume 0 0xFF).tableBlock (Env.ideal 0) 0 i := by decide
    have hlt := hblock i hi
    refine ⟨Nat.lt_of_le_of_lt (by decide) hlt, fun {k g} hg => ?_, fun {k g} hg => ?_⟩
    · rw [groups_volume Nat.two_pos, Nat.lt_one_iff] at hg
      rw [hg, State.descBlock, Nat.mul_zero, Nat.zero_div]
      exact Nat.ne_of_gt (Nat.lt_of_le_of_lt (by decide) hlt)
    · rw [groups_volume Nat.two_pos, Nat.lt_one_iff] at hg
      rw [hg, bitmapBlock_volume Nat.two_pos]
      refine Nat.ne_of_gt (Nat.lt_of_le_of_lt ?_ hlt)
      cases k <;> decide

theorem tables_dotted : Tables (Env.ideal 0) dotted :=
  tables_volume.of_layout sameBits_dotted.layout

theorem hasInode_dotted : dotted.HasInode 2 := ⟨by decide, by decide⟩

section Rooted

variable {os : Nat → List Nat} {y : Inode} (htables : Tables (Env.ideal 0) s) (hroot : s.HasInode 2)
  (hbytes : ∀ i < 128, (s.inodeAt (Env.ideal 0) 2).bytes i = dirInode.bytes i)

include htables hroot hbytes

theorem readInode_rooted (h : readInode (Env.ideal 0) 2 s = .ok (.ok y, t)) : y.Same dirInode := by
  obtain ⟨y', c, hrun, hsame⟩ := htables.readInode_run (Env.ideal_reliable 0) hroot
  rw [hrun] at h
  cases h
  exact fun i hi => (hsame i hi).trans (hbytes i hi)

variable (hsize : 0 < s.super.blockSize)
  (hdir : Directory (Env.ideal 0) (fileOf dirInode) s () os)
  (hself : ∀ p ∈ dirEntries (Env.ideal 0) (fileOf dirInode) s () os, p.2 = 2)

include hsize hdir hself

/-- A root directory with no names but its own is all that a path leads to. -/
theorem named_rooted (h : Named (Env.ideal 0) s n) : n = 2 := by
  induction h with
  | root => rfl
  | @entry n m x inode t _ hread hanswer ih =>
      subst ih
      obtain ⟨hd, hentries⟩ := hdir.of_same (g := fileOf inode) hsize
        (readInode_rooted htables hroot hbytes hread)
      have hlookup := hanswer.unique (hd.answers (Env.ideal_reliable 0) hsize x)
      have hmem := (lookup_eq_some_iff hd.distinct).mp hlookup.symm
      rw [hentries] at hmem
      exact hself _ hmem

theorem orderly_rooted (hcounted : Counted (Env.ideal 0) s)
    (hinodes : s.groups .inode * Kind.inode.perGroup s.super ≤ s.super.sInodesCount)
    (hbit : s.bit (Env.ideal 0) .inode 1 = true)
    (hfiles : Files (Env.ideal 0) (fileOf dirInode) s) :
    Orderly (Env.ideal 0) s where
  counted := hcounted
  tables := htables
  inodes {n} hn := by
    have hlt := Nat.lt_mul_of_div_lt hn.group (hcounted.roles.per_pos .inode)
    exact Nat.lt_of_lt_of_le hlt hinodes
  named hn := by
    rw [named_rooted htables hroot hbytes hsize hdir hself hn]
    refine ⟨hroot, fun hf => ?_⟩
    have hclear := hf.clear
    rw [hbit] at hclear
    cases hclear
  directory {n inode t} hn hread _ := by
    obtain rfl := named_rooted htables hroot hbytes hsize hdir hself hn
    have hsame := readInode_rooted htables hroot hbytes hread
    exact ⟨hfiles.of_same hsame, _, (hdir.of_same (g := fileOf inode) hsize hsame).1⟩

end Rooted

theorem bytes_dotted :
    ∀ i < 128, (dotted.inodeAt (Env.ideal 0) 2).bytes i = dirInode.bytes i := by
  decide +kernel

theorem readInode_dotted {y : Inode} (h : readInode (Env.ideal 0) 2 dotted = .ok (.ok y, t)) :
    y.Same dirInode :=
  readInode_rooted tables_dotted hasInode_dotted bytes_dotted h

theorem self_dotted : ∀ p ∈ dirEntries (Env.ideal 0) (fileOf dirInode) dotted () fun _ => [0],
    p.2 = 2 := by
  rw [entries_dotted]
  decide

theorem named_dotted (h : Named (Env.ideal 0) dotted n) : n = 2 :=
  named_rooted tables_dotted hasInode_dotted bytes_dotted (by decide) directory_dotted self_dotted h

theorem orderly_dotted : Orderly (Env.ideal 0) dotted :=
  orderly_rooted tables_dotted hasInode_dotted bytes_dotted (by decide) directory_dotted self_dotted
    (sameBits_dotted.counted counted_small) (by decide) (by decide) (files_dirInode sameBits_dotted)

/-- The small volume without a free block.  The root directory has four names for itself, each in
a record with less than 264 bytes to spare. -/
def filled : State :=
  { volume 0 0xFF with
    disk := store (volume 0 0xFF).disk [(2060, 2, 0), (3072, 2, 0xFFFF),
      (7168, 4, 2), (7172, 2, 264), (7174, 1, 1), (7176, 1, 46),
      (7432, 4, 2), (7436, 2, 264), (7438, 1, 1), (7440, 1, 97),
      (7696, 4, 2), (7700, 2, 264), (7702, 1, 1), (7704, 1, 98),
      (7960, 4, 2), (7964, 2, 232), (7966, 1, 1), (7968, 1, 99),
      (5248, 2, 0x41ED), (5252, 4, 1024), (5288, 4, 7)]
    super := (super 0).setFreeBlocksCount 0 }

theorem sameLayout_filled : SameLayout (Env.ideal 0) (volume 0 0xFF) filled :=
  sameLayout_store ((super 0).sameGeometry_setFreeBlocksCount 0) rfl (by simp)

theorem groups_filled (k : Kind) : filled.groups k = 1 :=
  (sameLayout_filled.groups k).trans (groups_volume Nat.two_pos k)

theorem bit_filled : ∀ n < 16, filled.bit (Env.ideal 0) .block n = true := by decide

theorem counted_filled : Counted (Env.ideal 0) filled where
  consistent := ⟨sameLayout_filled.roles (roles_volume Nat.two_pos), fun {x} hx hf => by
    have hlt := meta_volume Nat.two_pos (sameLayout_filled.meta_of hx)
    have hclear := hf.clear
    rw [bit_filled x (by omega)] at hclear
    cases hclear⟩
  reserved {n} hn hf := by
    have hbit : ∀ n < 10, filled.bit (Env.ideal 0) .inode n = true := by decide
    have hclear := hf.clear
    rw [hbit n (by rw [firstIno] at hn; omega)] at hclear
    cases hclear
  fits {k g} hg := by
    rw [groups_filled, Nat.lt_one_iff] at hg
    subst hg
    decide
  perGroup_lt k := by
    rw [sameLayout_filled.perGroup, perGroup_volume Nat.two_pos]
    decide
  numbers_le k := by
    cases k <;> decide
  inGroup {k g} hg := by
    rw [groups_filled, Nat.lt_one_iff] at hg
    subst hg
    cases k <;> decide
  onVolume k := by
    cases k <;> decide

theorem entries_filled : dirEntries (Env.ideal 0) (fileOf dirInode) filled ()
    (fun _ => [0, 264, 528, 792]) = [([46], 2), ([97], 2), ([98], 2), ([99], 2)] := by
  decide

theorem files_filled : Files (Env.ideal 0) (fileOf dirInode) filled := by
  refine files_of_owned counted_filled.consistent
    ⟨fun hf => ?_, fun hm => notMeta_seven (sameLayout_filled.meta_of hm)⟩
  have hclear := hf.clear
  rw [bit_filled 7 (by decide)] at hclear
  cases hclear

theorem directory_filled : Directory (Env.ideal 0) (fileOf dirInode) filled ()
    fun _ => [0, 264, 528, 792] := by
  have hcount : dirBlockCount filled.super dirInode = 1 := by decide
  have hblock : filled.dataBlock (Env.ideal 0) (fileOf dirInode) () 0 = 7 := by decide
  refine ⟨by decide, fun {i} hi => ?_, fun {i} hi => ?_, ?_⟩
  · rw [hcount, Nat.lt_one_iff] at hi
    rw [hi, hblock]
    decide
  · rw [hcount, Nat.lt_one_iff] at hi
    rw [hi, hblock]
    have hrec : ∀ o ∈ [0, 264, 528], direntRecLen (filled.block (Env.ideal 0) 7) o = 264 := by
      decide
    have hlast : direntRecLen (filled.block (Env.ideal 0) 7) 792 = 232 := by decide
    have hname : ∀ o ∈ [0, 264, 528, 792], 0 ∉ Dirent.name (filled.block (Env.ideal 0) 7) o := by
      decide
    have hok : ∀ o ∈ [0, 264, 528, 792], Dirent.Ok (filled.block (Env.ideal 0) 7) o := by
      intro o ho
      have hbounds : ∀ o ∈ [0, 264, 528, 792],
          direntHeader + direntNameLen (filled.block (Env.ideal 0) 7) o ≤
            direntRecLen (filled.block (Env.ideal 0) 7) o ∧
          4 ∣ direntRecLen (filled.block (Env.ideal 0) 7) o := by
        decide
      exact ⟨(hbounds o ho).1, (hbounds o ho).2, fun _ => hname o ho⟩
    refine .cons (by decide) (hok 0 (by decide)) ?_
    rw [hrec 0 (by decide)]
    refine .cons (by decide) (hok 264 (by decide)) ?_
    rw [hrec 264 (by decide)]
    refine .cons (by decide) (hok 528 (by decide)) ?_
    rw [hrec 528 (by decide)]
    refine .cons (by decide) (hok 792 (by decide)) ?_
    rw [hlast]
    exact .nil
  · rw [entries_filled, Distinct]
    decide

theorem orderly_filled : Orderly (Env.ideal 0) filled :=
  orderly_rooted (tables_volume.of_layout sameLayout_filled) ⟨by decide, by decide⟩
    (by decide +kernel) (by decide) directory_filled (by rw [entries_filled]; decide) counted_filled
    (by decide) (by decide) files_filled

/-- A name of 254 bytes in the root directory. -/
def longPath : List UInt8 := 47 :: List.replicate 254 97

theorem length_longPath : longPath.length = 255 := by
  rw [longPath, List.length_cons, List.length_replicate]

end Small

/-- When there is no block for a long name, the inode that has been taken is given back. -/
theorem createFile_failed_filled : ∃ t,
    createFile (Env.ideal 0) Small.longPath 0x81A4 1300 Small.filled = .ok (-11, t) ∧
      AsBefore (Env.ideal 0) Small.filled t := by
  have hrun : (createFile (Env.ideal 0) Small.longPath 0x81A4 1300 Small.filled).toOption.map
      Prod.fst = some (-11) := by
    decide +kernel
  have hsize : Small.filled.super.blockSize = 1024 := by decide
  have hfailed : ∀ path : List UInt8, path.length = 255 → ∃ code t,
      createFile (Env.ideal 0) path 0x81A4 1300 Small.filled = .ok (code, t) ∧
        (code < 0 → AsBefore (Env.ideal 0) Small.filled t) := fun path hpath =>
    (createFile_failed (Env.ideal_reliable 0) Small.orderly_filled (by decide)
      (Nat.le_of_eq hpath) (by omega)).exists_ok
  obtain ⟨code, t, hcreate, hbefore⟩ := hfailed _ Small.length_longPath
  rw [hcreate] at hrun
  obtain rfl : code = -11 := Option.some.inj hrun
  exact ⟨t, hcreate, hbefore (by decide)⟩
end InfoKernel.Ext2
