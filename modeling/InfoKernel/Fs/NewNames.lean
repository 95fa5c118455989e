import InfoKernel.Fs.Carrying

/-!
# The name of a new file

`CreateFile` cuts the path at its last slash, lets `LookupPath` find the directory in front of it
and puts the name behind it into this directory.  For `LookupPath` every slash ends a name.  The two
agree when no slash stands directly before the last one; the file `//a` is made in the root, but it
is looked for under the empty name.

* `Created` is what a call has changed that returns the number of an inode (`createFile_created`).
* `Created.follows` carries names over: where they led, they lead afterwards.
* `createFile_right_iff`: if the directory is safe for the name (`AddSafe`), the path leads to the
  new inode, and all others lead where they led, exactly when the path is closed.
-/

namespace InfoKernel.Ext2

open Lib

variable {e : Env} {s t u : State} {path c : List UInt8} {d num mode n : Nat} {dir x y : Inode}

/-! ## What it should do -/

/-- **A well-formed volume**: an orderly one whose directories have no block in common. -/
structure WellFormed (e : Env) (s : State) : Prop extends Orderly e s where
  apart {n m : Nat} {x y : Inode} {v w : State} {q q' : FilePos} : Named e s n → Named e s m →
    readInode e n s = .ok (.ok x, v) → readInode e m s = .ok (.ok y, w) → x.isDir = true →
    y.isDir = true → n ≠ m → (s.shape Unit).Pos q → (s.shape Unit).Pos q' → s.refAt e x q ≠ 0 →
    s.refAt e x q ≠ s.refAt e y q'

/-- **What creating inode `num` should do**: the path leads to it, and all paths that led to an
inode lead there still. -/
structure CreateRight (e : Env) (s : State) (path : List UInt8) (num : Nat) (t : State) : Prop where
  new : Yields e t path (.ok num)
  old {q : List UInt8} {m : Nat} : Yields e s q (.ok m) → Yields e t q (.ok m)

/-- No slash stands directly before the last one. -/
def Closed (path : List UInt8) : Prop :=
  ∀ p c, splitLast path = some (p, c) → p.getLast? ≠ some slash

/-- The directory that gets the name is safe for it. -/
def SafeFor (e : Env) (s : State) (path : List UInt8) : Prop :=
  ∀ p c d dir t os, splitLast path = some (p, c) → Yields e s (parentOf p) (.ok d) →
    readInode e d s = .ok (.ok dir, t) → Directory e (fileOf dir) s () os →
    AddSafe e (fileOf dir) s () os c

/-- **What `CreateFile` has changed** when it returns inode `num`: the inode, blocks that were free,
and the directory `d`, which has the name `c` now. -/
structure Created (e : Env) (s : State) (d : Nat) (dir : Inode) (c : List UInt8) (num : Nat)
    (t : State) : Prop where
  hasInode : s.HasInode num
  free : Free e s .inode (num - 1)
  lasts : Lasts e (fun y => s.Refers e (fileOf dir) y ∨ Free e s .block y ∨ y = s.inodeBlock e num ∨
    y = s.inodeBlock e d) s t
  inodes {m : Nat} : s.HasInode m → m ≠ num → m ≠ d → (t.inodeAt e m).Same (s.inodeAt e m)
  new {x : Inode} : x.Same (t.inodeAt e d) → Answers e x t c (some num)
  names {x : Inode} {name : List UInt8} {r : Option Nat} : x.Same (t.inodeAt e d) → name ≠ c →
    Answers e dir s name r → Answers e x t name r

/-! ## Adding the entry -/

/-- All blocks that last are in use, but for those that were free. -/
theorem Frame.lasts {A : Nat → Prop} (h : Frame e A s t) :
    Lasts e (fun y => A y ∨ Free e s .block y) s t where
  layout := h.layout
  block hy hA hi := h.block ⟨fun hf => hA (.inr hf), hy.super_lt, hy.ne_desc, hy.ne_bitmap⟩
    (fun hy => hA (.inl hy)) hi

/-- The blocks of the files are sound after an entry has been added to one of them. -/
theorem Added.files {κ : Type} [DecidableEq κ] {f : κ → Inode} {k : κ} {os : Nat → List Nat}
    {fileType : UInt8} {r : Int × Inode} (hf : Files e f s)
    (hd : Directory e f s k os) (hr : r.1 = 0)
    (h : Added e f s k os num c fileType t r) : Files e (Function.update f k r.2) t := by
  cases h with
  | placed hfirst _ hw =>
      have hsize := hf.consistent.roles.size_pos
      have hleaf := filePos_leaf hsize (dirBlock_in_range hsize hfirst.block).1 k
      have hne := hd.mapped hfirst.block
      rw [Function.update_eq_self]
      refine hf.of_frame (hw.frame hf.consistent.roles (hf.owned hleaf.pos hne).data) ?_
      rintro y hy rfl
      exact hf.not_points hleaf hne hy
  | full _ _ => exact absurd hr (show ¬ (-5 : Int) = 0 by decide)
  | appended _ _ happ => exact happ.files

/-- So are the counts. -/
theorem Added.counted {κ : Type} [DecidableEq κ] {f : κ → Inode} {k : κ} {os : Nat → List Nat}
    {fileType : UInt8} {r : Int × Inode} (hf : Files e f s) (hc : Counted e s)
    (hd : Directory e f s k os) (hr : r.1 = 0) (h : Added e f s k os num c fileType t r) :
    Counted e t := by
  cases h with
  | placed hfirst _ hw =>
      have hsize := hf.consistent.roles.size_pos
      have hleaf := filePos_leaf hsize (dirBlock_in_range hsize hfirst.block).1 k
      exact hc.written hw (hf.owned hleaf.pos (hd.mapped hfirst.block)).data
  | full _ _ => exact absurd hr (show ¬ (-5 : Int) = 0 by decide)
  | appended _ _ happ => exact happ.counted

/-- A directory is as safe as before as long as its blocks and the count of free blocks are what
they were. -/
theorem AddSafe.congr {os : Nat → List Nat} (hd : Directory e (fileOf dir) s () os)
    (hsize : 0 < s.super.blockSize) (hgeo : s.super.SameGeometry t.super)
    (hcount : t.super.sFreeBlocksCount = s.super.sFreeBlocksCount)
    (href : ∀ q, (s.shape Unit).Pos q →
      (t.forest e (fileOf dir)).ref q = (s.forest e (fileOf dir)).ref q)
    (hblock : ∀ i, i < dirBlockCount s.super dir → ∀ j, j < s.super.blockSize →
      t.block e (s.dataBlock e (fileOf dir) () i) j = s.block e (s.dataBlock e (fileOf dir) () i) j)
    (h : AddSafe e (fileOf dir) s () os c) : AddSafe e (fileOf dir) t () os c := by
  have hblocks : dirBlockCount t.super dir = dirBlockCount s.super dir := by
    rw [dirBlockCount, dirBlockCount, hgeo.blockSize]
  have hdata : ∀ {i}, i < dirBlockCount s.super dir →
      t.dataBlock e (fileOf dir) () i = s.dataBlock e (fileOf dir) () i := fun hi => by
    rw [State.dataBlock_congr hgeo]
    exact href _ (filePos_leaf hsize (dirBlock_in_range hsize hi).1 ()).pos
  have hroom : ∀ {len i a}, i < dirBlockCount s.super dir → a ∈ os i →
      (Dirent.Room len (t.block e (t.dataBlock e (fileOf dir) () i)) a ↔
        Dirent.Room len (s.block e (s.dataBlock e (fileOf dir) () i)) a) := fun hi ha => by
    rw [hdata hi]
    exact Dirent.room_congr ((hd.chain hi).tiles.same_of_block (hblock _ hi) _ ha)
  have hnoRoom : ∀ {len i}, i < dirBlockCount s.super dir → NoRoom e (fileOf dir) t () os len i →
      NoRoom e (fileOf dir) s () os len i := fun hi hno a ha hr =>
    hno a ha ((hroom hi ha).mpr hr)
  have hleaf : (s.shape Unit).Leaf (behindLast (fileOf dir) s ()) :=
    filePos_leaf hsize (behindLast_in_range hsize).1 ()
  have hbehind : behindLast (fileOf dir) t () = behindLast (fileOf dir) s () := by
    rw [behindLast, behindLast, hblocks, SuperBlock.ptrsPerBlock, SuperBlock.ptrsPerBlock,
      hgeo.blockSize]
  constructor
  case reuse =>
    intro i a hfirst hdead
    have hi : i < dirBlockCount s.super dir := hblocks ▸ hfirst.block
    have hmem := List.mem_of_find?_eq_some hfirst.first
    have hfirst' : FirstRoom e (fileOf dir) s () os c.length i a := by
      refine ⟨hi, fun hj => hnoRoom (hj.trans hi) (hfirst.before hj), ?_⟩
      rw [← hfirst.first]
      exact List.find?_congr fun b hb => decide_eq_decide.mpr (hroom hi hb).symm
    rw [hdata hi, ((hd.chain hi).tiles.same_of_block (hblock i hi) a hmem).inode] at hdead
    intro front back hos
    obtain ⟨rest, hrest, hperm⟩ := h.reuse hfirst' hdead front back hos
    -- what the records of the block say
    have hentries : ∀ {o l}, Dirent.Chain s.super.blockSize
        (s.block e (s.dataBlock e (fileOf dir) () i)) o l →
        blockEntries e (fileOf dir) t () i l = blockEntries e (fileOf dir) s () i l := fun hl => by
      rw [blockEntries, blockEntries, hdata hi, hl.tiles.entries_of_block (hblock i hi)]
    have hback : blockEntries e (fileOf dir) t () i back =
      blockEntries e (fileOf dir) s () i back := by
      cases (hos ▸ hd.chain hi).splice.1 with
      | cons _ _ hback => exact hentries hback
    refine ⟨rest, ?_, ?_⟩
    · rw [hdata hi, hgeo.blockSize]
      exact hrest.of_block (hblock i hi)
    · rw [hentries hrest, hback]
      exact hperm
  case grow =>
    intro hcrowded hfree
    rw [hcount] at hfree ⊢
    obtain ⟨hshort, hgrown, hmissing⟩ :=
      h.grow (fun i hi => hnoRoom hi (hcrowded i (hblocks.symm ▸ hi))) hfree
    rw [hgeo.blockSize, hbehind, missing_congr hleaf href]
    refine ⟨hshort, ?_, hmissing⟩
    rw [grownCount, dirBlockCount, hgeo.blockSize, hblocks]
    exact hgrown

/-- The new inode refers to nothing that a file does, so the file has the blocks that it had. -/
theorem NewInode.ref_eq (h : NewInode e s num mode t u) (ht : Tables e s)
    (hf : Files e (fileOf dir) s) {q : FilePos} (hq : (s.shape Unit).Pos q) :
    (u.forest e (fileOf dir)).ref q = (s.forest e (fileOf dir)).ref q := by
  refine h.lasts.ref_eq hf.mapped ?_ hq
  rintro y ⟨p, hp, hy⟩
  exact ht.ne_inodeBlock hf ⟨p, hp.pos, hy⟩ h.hasInode

/-- The new inode does not make the directory less safe. -/
theorem NewInode.addSafe {os : Nat → List Nat} (h : NewInode e s num mode t u) (ht : Tables e s)
    (hf : Files e (fileOf dir) s) (hd : Directory e (fileOf dir) s () os)
    (hsafe : AddSafe e (fileOf dir) s () os c) : AddSafe e (fileOf dir) u () os c := by
  have hsize := hf.consistent.roles.size_pos
  refine hsafe.congr hd hsize h.lasts.layout.geometry ?_ (fun q hq => h.ref_eq ht hf hq)
    fun i hi j hj => ?_
  · rw [h.bits.super, h.flip.super]
    exact Kind.superFree_setSuperFree_of_ne (show Kind.block ≠ .inode by decide)
  · have hpos := (filePos_leaf hsize (dirBlock_in_range hsize hi).1 ()).pos
    exact h.lasts.block (.of_data (hf.owned hpos (hd.mapped hi)).data)
      (ht.ne_inodeBlock hf ⟨_, hpos, rfl⟩ h.hasInode) hj

section Making

variable (he : e.Reliable)

include he

/-- Storing the directory does not change what it says. -/
theorem Tables.answers_stored {os : Nat → List Nat} {name : List UInt8} {r : Option Nat}
    (ht : Tables e s) (hd₀ : s.HasInode d) (hf : Files e (fileOf dir) s)
    (hd : Directory e (fileOf dir) s () os) (hlasts : Lasts e (fun y => y = s.inodeBlock e d) s t)
    (hsame : (t.inodeAt e d).Same (dir.setMtime 0)) (hx : x.Same (t.inodeAt e d))
    (hans : Answers e dir s name r) : Answers e x t name r := by
  have hsize := hf.consistent.roles.size_pos
  have hset : x.Same (dir.setMtime 0) := fun i hi => (hx i hi).trans (hsame i hi)
  have houtside : Outside e (fun y => y = s.inodeBlock e d) s dir := by
    intro q hq hne
    have hdata : ¬ Meta e s (s.refAt e dir q) := (hf.owned hq hne).data
    exact ⟨hdata, fun heq => hdata (heq ▸ ht.inodeBlock_meta hd₀)⟩
  obtain ⟨hlist, hentries⟩ := hlasts.listing hsize houtside
    (hset.alike.trans (Inode.alike_setMtime dir 0)) hd.listing
  refine hd.listing.answers_carry he hlist hsize ?_ (by rw [hentries]) hans
  rw [hlasts.layout.geometry.blockSize]
  exact hsize

/-- **Storing the inode, adding the entry and storing the directory.** -/
theorem NewInode.created {v w : State} {dir' : Inode} (h : Orderly e s)
    (hfound : Found e s path d dir c) (hnul : 0 ∉ c)
    (hsafe : ∀ os, Directory e (fileOf dir) s () os → AddSafe e (fileOf dir) s () os c)
    (hnew : NewInode e s num mode t u) (hn : s.super.blockSize < n)
    (hadd : addEntry e dir num c 1 n u = .ok ((0, dir'), v))
    (hwrite : writeInode e d (dir'.setMtime 0) v = .ok (0, w)) : Created e s d dir c num w := by
  have hsize := h.counted.roles.size_pos
  obtain ⟨k, hread⟩ := hfound.read
  obtain ⟨hf, os, hd⟩ := h.directory hfound.named hread hfound.isDir
  have hd₀ : s.HasInode d := (h.named hfound.named).1
  have hnum := hnew.hasInode
  -- the new inode is stored
  have hlu := hnew.lasts.layout
  have htu := h.tables.of_layout hlu
  have hsizeu : u.super.blockSize = s.super.blockSize := hlu.geometry.blockSize
  have hfu := hnew.files h.tables hf
  obtain ⟨hdu, hsameu⟩ := hnew.directory h.tables hf hd
  have hansu : ∀ {name r}, Answers e dir s name r → Answers e dir u name r :=
    hd.listing.answers_carry he hdu.listing hsize (hsizeu ▸ hsize) (by rw [hsameu])
  -- the entry is added
  have hlt : num < 2 ^ 32 := by
    have hcount : s.super.sInodesCount < 2 ^ 32 := getLE_lt _ _ _
    have hfree := h.inodes hnew.free
    omega
  have hadd' : addEntry e (fileOf dir ()) num c 1 n u = .ok ((0, dir'), v) := hadd
  obtain ⟨hadded, hframe, -⟩ := (addEntry_added num 1 he hfu hnew.counted hdu hfound.length_lt
    (hsizeu ▸ hn)).of_result hadd'
  have hright : AddRight e (fileOf dir) u () c num dir' v :=
    ((addEntry_right_iff he hfu hnew.counted hdu hfound.nonempty hfound.length_lt hnul
      (hansu hfound.absent) (Nat.ne_of_gt hnum.1) hlt).mpr
        (hnew.addSafe h.tables hf hd (hsafe os hd)) n (hsizeu ▸ hn)).of_result hadd' rfl
  have hfv : Files e (fileOf dir') v := hadded.files hfu hdu rfl
  obtain ⟨os', hdv⟩ : ∃ os', Directory e (fileOf dir') v () os' := hright.directory
  have hlv := hlu.trans hframe.layout
  have htv := h.tables.of_layout hlv
  -- the directory is stored
  obtain ⟨w', hwrite', -, hlasts, hsame, hother⟩ := htv.writeInode_run he
    (hlv.roles h.counted.roles) (hlv.hasInode.mpr hd₀) (dir'.setMtime 0)
  obtain rfl : w = w' := by
    rw [hwrite] at hwrite'
    exact congrArg Prod.snd (Except.ok.inj hwrite')
  have hansw : ∀ {x : Inode} {name r}, x.Same (w.inodeAt e d) → Answers e dir' v name r →
      Answers e x w name r := fun hx =>
    htv.answers_stored he (hlv.hasInode.mpr hd₀) hfv hdv hlasts hsame hx
  constructor
  case hasInode => exact hnum
  case free => exact hnew.free
  case lasts =>
    have huv : Lasts e (fun y => s.Refers e (fileOf dir) y ∨ Free e s .block y) u v := by
      refine hframe.lasts.mono ?_
      rintro y (⟨q, hq, rfl⟩ | hfree)
      · rw [State.shape_congr hlu.geometry] at hq
        exact .inl ⟨q, hq, (hnew.ref_eq h.tables hf hq).symm⟩
      · exact .inr (hnew.free_block hfree)
    refine ((hnew.lasts.mono fun y hy => .inr (.inr (.inl hy))).trans
      (huv.mono fun y hy => ?_)).trans
      (hlasts.mono fun y hy => .inr (.inr (.inr ?_)))
    · exact hy.imp_right .inl
    · rw [hy, hlv.inodeBlock hd₀]
  case inodes =>
    intro m hm hmn hmd i hi
    have hblock :
      ¬ (u.Refers e (fileOf dir) (u.inodeBlock e m) ∨ Free e u .block (u.inodeBlock e m)) := by
      rintro (hrefers | hfree)
      · exact htu.ne_inodeBlock hfu hrefers (hlu.hasInode.mpr hm) rfl
      · exact hfu.consistent.meta_used (htu.inodeBlock_meta (hlu.hasInode.mpr hm)) hfree
    calc (w.inodeAt e m).bytes i = (v.inodeAt e m).bytes i :=
          hother m (hlv.hasInode.mpr hm) hmd i hi
      _ = (u.inodeAt e m).bytes i :=
          htu.inodeAt_of_lasts hframe.lasts (hlu.hasInode.mpr hm) hblock i hi
      _ = (s.inodeAt e m).bytes i := hnew.other hm hmn i hi
  case new => exact fun hx => hansw hx hright.new
  case names => exact fun hx hne hans => hansw hx (hright.other hne (hansu hans))

/-- **The steps of `CreateFile`** when it returns a number: it is that of the inode that has been
stored, and the entry and the directory have been stored as well. -/
theorem createFile_stored (h : Orderly e s) (hnul : 0 ∉ path) (hsafe : SafeFor e s path)
    (hn : s.super.blockSize + path.length < n) {code : Int}
    (hrun : createFile e path mode n s = .ok (code, t)) (hpos : 0 < code) :
    ∃ d dir c u v w dir', Found e s path d dir c ∧ 0 ∉ c ∧
      (∀ os, Directory e (fileOf dir) s () os → AddSafe e (fileOf dir) s () os c) ∧
      NewInode e s code.toNat mode u v ∧ addEntry e dir code.toNat c 1 n v = .ok ((0, dir'), w) ∧
      writeInode e d (dir'.setMtime 0) w = .ok (0, t) := by
  cases hparent : createParent e path n s with
  | error f =>
      rw [createFile, bind_apply, hparent] at hrun
      cases hrun
  | ok r =>
      obtain ⟨r, t₀⟩ := r
      obtain ⟨k, rfl, hcases⟩ := (createParent_ends he (h.tree he) hn).of_result hparent
      rcases hcases with ⟨code', rfl, hneg⟩ | ⟨d, dir, c, rfl, hfound⟩
      · rw [createFile, bind_apply_of_ok hparent] at hrun
        obtain rfl : code' = code := congrArg Prod.fst (Except.ok.inj hrun)
        omega
      have hnblock : s.super.blockSize < n := Nat.lt_of_le_of_lt (Nat.le_add_right _ _) hn
      rcases (createFile_of_parent he h hfound hparent hnblock).of_result hrun with
        ⟨hneg, -⟩ | ⟨num, u, v, w, dir', hcode, hnew, hadd, hwrite⟩
      · omega
      obtain ⟨v₀, hread⟩ := hfound.read
      obtain ⟨p, hsplit, hleads⟩ := hfound.leads
      have hname : 0 ∉ c := fun hmem => hnul (by
        rw [(eq_of_splitLast hsplit).1]
        exact List.mem_append_right _ (List.mem_cons_of_mem _ hmem))
      have hlt : num < 2 ^ 32 := by
        have hcount : s.super.sInodesCount < 2 ^ 32 := getLE_lt _ _ _
        have hfree := h.inodes hnew.free
        omega
      have hnum : code.toNat = num := by
        rw [hcode] at hpos ⊢
        exact toNat_asInt hpos hlt
      rw [hnum]
      exact ⟨d, dir, c, u, v, w, dir', hfound, hname,
        fun os hd => hsafe p c d dir v₀ os hsplit hleads hread hd, hnew, hadd, hwrite⟩

/-- **What `CreateFile` has changed** when it returns a number. -/
theorem createFile_created (h : Orderly e s) (hnul : 0 ∉ path) (hsafe : SafeFor e s path)
    (hn : s.super.blockSize + path.length < n) {code : Int}
    (hrun : createFile e path mode n s = .ok (code, t)) (hpos : 0 < code) :
    ∃ d dir c, Found e s path d dir c ∧ Created e s d dir c code.toNat t := by
  obtain ⟨d, dir, c, u, v, w, dir', hfound, hname, hsafe, hnew, hadd, hwrite⟩ :=
    createFile_stored he h hnul hsafe hn hrun hpos
  exact ⟨d, dir, c, hfound, hnew.created he h hfound hname hsafe
    (Nat.lt_of_le_of_lt (Nat.le_add_right _ _) hn) hadd hwrite⟩

end Making

/-! ## Where paths lead -/

/-- No entry has the empty name. -/
theorem Listing.answers_nil {os : Nat → List Nat} (he : e.Reliable)
    (hd : Listing e (fileOf dir) s () os) (hsize : 0 < s.super.blockSize) :
    Answers e dir s [] none := by
  have hnone : (dirEntries e (fileOf dir) s () os).lookup [] = none := by
    rw [lookup_isNone_iff]
    intro hmem
    obtain ⟨⟨x, m⟩, hentry, rfl⟩ := List.mem_map.mp hmem
    obtain ⟨i, -, hentry⟩ := List.mem_flatMap.mp hentry
    obtain ⟨o, ho, heq⟩ := List.mem_map.mp hentry
    have hlive : Dirent.Live (s.block e (s.dataBlock e (fileOf dir) () i)) o := by
      simpa using (List.mem_filter.mp ho).2
    have hname : Dirent.name (s.block e (s.dataBlock e (fileOf dir) () i)) o = [] :=
      congrArg Prod.fst heq
    have hlen := hlive.2
    rw [← Dirent.name_length, hname] at hlen
    exact Nat.lt_irrefl 0 hlen
  exact hnone ▸ hd.answers he hsize []

section Names

variable (he : e.Reliable) (h : WellFormed e s) (hfound : Found e s path d dir c)
  (hcreated : Created e s d dir c num t)

include he h hfound hcreated

omit hfound in
/-- An inode that a path led to can be read, and is as it was, but for the directory. -/
theorem Created.readInode_run (hn : Named e s n) (hread : ∃ v, readInode e n s = .ok (.ok x, v)) :
    ∃ y v, readInode e n t = .ok (.ok y, v) ∧ (n ≠ d → y.Same x) ∧
      (n = d → y.Same (t.inodeAt e d)) := by
  obtain ⟨v, hread⟩ := hread
  obtain ⟨hm, hused⟩ := h.named hn
  obtain ⟨y, k, hy, hsame⟩ := (h.tables.of_layout hcreated.lasts.layout).readInode_run he
    (hcreated.lasts.layout.hasInode.mpr hm)
  obtain ⟨x', k', hx, hsame'⟩ := h.tables.readInode_run he hm
  rw [hx] at hread
  cases hread
  refine ⟨y, _, hy, fun hnd i hi => ?_, fun hnd => hnd ▸ hsame⟩
  have hne : n ≠ num := by
    rintro rfl
    exact hused hcreated.free
  exact (hsame i hi).trans ((hcreated.inodes hm hne hnd i hi).trans (hsame' i hi).symm)

omit he in
/-- None of the blocks of another directory has changed. -/
theorem Created.outside {v : State} (hn : Named e s n) (hnd : n ≠ d)
    (hx : readInode e n s = .ok (.ok x, v)) (hdir : x.isDir = true) :
    Outside e (fun y => s.Refers e (fileOf dir) y ∨ Free e s .block y ∨ y = s.inodeBlock e num ∨
      y = s.inodeBlock e d) s x := by
  obtain ⟨v', hread⟩ := hfound.read
  obtain ⟨hf, -⟩ := h.directory hn hx hdir
  intro q hq hne
  have hown : Owned e s (s.refAt e x q) := hf.owned hq hne
  refine ⟨hown.data, ?_⟩
  rintro (⟨q', hq', heq⟩ | hfree | heq | heq)
  · exact h.apart hn hfound.named hx hread hdir hfound.isDir hnd hq hq' hne heq.symm
  · exact hown.used hfree
  · exact hown.data (heq ▸ h.tables.inodeBlock_meta hcreated.hasInode)
  · exact hown.data (heq ▸ h.tables.inodeBlock_meta (h.named hfound.named).1)

/-- The other directories say what they said. -/
theorem Created.answers_of_ne {r : Option Nat} {name : List UInt8} {v w : State} (hn : Named e s n)
    (hnd : n ≠ d) (hx : readInode e n s = .ok (.ok x, v)) (hy : readInode e n t = .ok (.ok y, w))
    (hdir : x.isDir = true) (hans : Answers e x s name r) : Answers e y t name r := by
  obtain ⟨y', w', hy', hother, -⟩ := hcreated.readInode_run he h hn ⟨v, hx⟩
  rw [hy] at hy'
  cases hy'
  obtain ⟨-, os, hd⟩ := h.directory hn hx hdir
  have hsize := h.counted.roles.size_pos
  obtain ⟨hlist, hsame⟩ := hcreated.lasts.listing hsize
    (hcreated.outside h hfound hn hnd hx hdir) (hother hnd).alike hd.listing
  refine hd.listing.answers_carry he hlist hsize ?_ (by rw [hsame]) hans
  rw [hcreated.lasts.layout.geometry.blockSize]
  exact hsize

/-- **All entries are still there.** -/
theorem Created.answers {m : Nat} {name : List UInt8} {v w : State} (hn : Named e s n)
    (hx : readInode e n s = .ok (.ok x, v)) (hy : readInode e n t = .ok (.ok y, w))
    (hans : Answers e x s name (some m)) : Answers e y t name (some m) := by
  by_cases hnd : n = d
  · subst hnd
    obtain ⟨y', w', hy', -, hself⟩ := hcreated.readInode_run he h hn ⟨v, hx⟩
    rw [hy] at hy'
    cases hy'
    obtain ⟨v', hdir⟩ := hfound.read
    rw [hdir] at hx
    cases hx
    refine hcreated.names (hself rfl) ?_ hans
    rintro rfl
    cases hans.unique hfound.absent
  · exact hcreated.answers_of_ne he h hfound hn hnd hx hy hans.isDir hans

/-- **A path that led to an inode leads there still.** -/
theorem Created.follows {q : List UInt8} {m : Nat} (hq : Yields e s q (.ok m)) :
    q.head? = some slash ∧ ∃ root v, readInode e rootIno t = .ok (.ok root, v) ∧
      ∃ y w, readInode e m t = .ok (.ok y, w) ∧
        Follows e t (rootIno, root) (components q.tail) (.ok (m, y)) := by
  have habs := hq.absolute
  have htree := h.tree he
  obtain ⟨root, v, hroot⟩ := htree.readable .root
  obtain ⟨r, hr, hfst⟩ := (htree.yields_iff he hroot habs).mp hq
  obtain ⟨pos, rfl, rfl⟩ : ∃ pos, r = .ok pos ∧ pos.1 = m := by
    cases r with
    | error code => cases hfst
    | ok pos => exact ⟨pos, rfl, Except.ok.inj hfst⟩
  obtain ⟨root', v', hroot', -⟩ := hcreated.readInode_run he h .root ⟨v, hroot⟩
  have hreads : ∀ {n x v}, Named e s n → readInode e n s = .ok (.ok x, v) →
      ∃ y w, readInode e n t = .ok (.ok y, w) := fun hn hx => by
    obtain ⟨y, w, hy, -⟩ := hcreated.readInode_run he h hn ⟨_, hx⟩
    exact ⟨y, w, hy⟩
  obtain ⟨y, ⟨w, hy⟩, hfollows⟩ := hr.carry_along hreads
    (fun hn hx hy hans _ _ => hcreated.answers he h hfound hn hx hy hans)
    .root ⟨v, hroot⟩ ⟨v', hroot'⟩
  exact ⟨habs, root', v', hroot', y, w, hy, hfollows⟩

/-- The old paths. -/
theorem Created.old {q : List UInt8} {m : Nat} (hq : Yields e s q (.ok m)) :
    Yields e t q (.ok m) := by
  obtain ⟨habs, root, v, hroot, y, w, -, hfollows⟩ := hcreated.follows he h hfound hq
  exact fun n hn => hfollows.lookupPath he hroot habs hn

/-- **The new path**, when no slash stands directly before the last one. -/
theorem Created.yields_of_closed (hclosed : Closed path) : Yields e t path (.ok num) := by
  obtain ⟨p, hsplit, hleads⟩ := hfound.leads
  obtain ⟨hpath, hslash⟩ := eq_of_splitLast hsplit
  have hend := hclosed p c hsplit
  -- `CreateFile` and `LookupPath` take the path apart in the same way
  have hjoin : path = joinPath (parentOf p) c ∧
      (parentOf p = [slash] ∨ (parentOf p).getLast? ≠ some slash) := by
    by_cases hnil : p = []
    · rw [parentOf, if_pos hnil, joinPath, if_pos rfl, hpath, hnil]
      exact ⟨rfl, .inl rfl⟩
    · have hne : p ≠ [slash] := by
        rintro rfl
        exact hend rfl
      rw [parentOf, if_neg hnil, joinPath, if_neg hne]
      exact ⟨hpath, .inr hend⟩
  obtain ⟨habs, root, v, hroot, y, w, hy, hfollows⟩ := hcreated.follows he h hfound hleads
  obtain ⟨y', w', hy', -, hself⟩ := hcreated.readInode_run he h hfound.named hfound.read
  rw [hy] at hy'
  cases hy'
  have hl := hcreated.lasts.layout
  obtain ⟨z, k, hz, -⟩ :=
    (h.tables.of_layout hl).readInode_run he (hl.hasInode.mpr hcreated.hasInode)
  have hlast : Follows e t (d, y) [c] (.ok (num, z)) :=
    (Follows.singleton_ok_iff hfound.length_lt).mpr ⟨hcreated.new (hself rfl), _, hz⟩
  have hnew : Follows e t (rootIno, root) (components path.tail) (.ok (num, z)) := by
    rw [hjoin.1, components_joinPath habs hjoin.2 hfound.nonempty hslash]
    exact Follows.append_iff.mpr (.inl ⟨_, hfollows, hlast⟩)
  have habs' : path.head? = some slash := by
    rw [hjoin.1]
    exact head?_joinPath habs c
  exact fun n hn => hnew.lookupPath he hroot habs' hn

/-- **Behind two slashes `LookupPath` looks for the empty name**, which no directory has. -/
theorem Created.yields_of_not_closed (hopen : ¬ Closed path) : Yields e t path (.error (-5)) := by
  obtain ⟨p, hsplit, hleads⟩ := hfound.leads
  obtain ⟨hpath, hslash⟩ := eq_of_splitLast hsplit
  have hend : p.getLast? = some slash := by
    by_contra hne
    refine hopen fun p' c' hsplit' => ?_
    rw [hsplit] at hsplit'
    cases hsplit'
    exact hne
  have hne : p ≠ [] := by
    rintro rfl
    cases hend
  rw [parentOf, if_neg hne] at hleads
  obtain ⟨habs, root, v, hroot, y, w, hy, hfollows⟩ := hcreated.follows he h hfound hleads
  obtain ⟨y', w', hy', -, hself⟩ := hcreated.readInode_run he h hfound.named hfound.read
  rw [hy] at hy'
  cases hy'
  have hnames : components path.tail = components p.tail ++ [] :: components c := by
    rw [hpath, List.tail_append_of_ne_nil hne]
    cases p with
    | nil => exact absurd rfl hne
    | cons b rest =>
        cases rest with
        | nil => exact if_pos rfl
        | cons b' rest =>
            exact components_append_of_slash (by rwa [List.getLast?_cons_cons] at hend)
  obtain ⟨v', hdir⟩ := hfound.read
  obtain ⟨-, os, hd⟩ := h.directory hfound.named hdir hfound.isDir
  have hnone := hd.listing.answers_nil he h.counted.roles.size_pos
  have hmissing : Follows e t (d, y) ([] :: components c) (.error (-5)) :=
    .missing (by decide) (hcreated.names (hself rfl) hfound.nonempty.symm hnone)
  have hnew : Follows e t (rootIno, root) (components path.tail) (.error (-5)) := by
    rw [hnames]
    exact Follows.append_iff.mpr (.inl ⟨_, hfollows, hmissing⟩)
  have habs' : path.head? = some slash := by
    rw [hpath, List.head?_append, habs]
    rfl
  exact fun n hn => hnew.lookupPath he hroot habs' hn

end Names

/-- **When the new file is found under its path.**  On a well-formed volume, let `CreateFile` return
a positive number for a path whose directory is safe for the new name.  Then the path leads to the
inode with this number, and all paths that led to an inode lead there still, exactly when no slash
stands directly before the last slash of the path. -/
theorem createFile_right_iff (he : e.Reliable) (h : WellFormed e s) (hnul : 0 ∉ path)
    (hsafe : SafeFor e s path) (hn : s.super.blockSize + path.length < n) {code : Int}
    (hrun : createFile e path mode n s = .ok (code, t)) (hpos : 0 < code) :
    CreateRight e s path code.toNat t ↔ Closed path := by
  obtain ⟨d, dir, c, hfound, hcreated⟩ :=
    createFile_created he h.toOrderly hnul hsafe hn hrun hpos
  constructor
  · intro hright
    by_contra hopen
    cases hright.new.unique (hcreated.yields_of_not_closed he h hfound hopen)
  · exact fun hclosed => ⟨hcreated.yields_of_closed he h hfound hclosed, hcreated.old he h hfound⟩

/-! ## The volume of one directory -/

namespace Small

theorem wellFormed_dotted : WellFormed (Env.ideal 0) dotted where
  toOrderly := orderly_dotted
  apart hn hm _ _ _ _ hne := absurd ((named_dotted hn).trans (named_dotted hm).symm) hne

/-- The one record of the directory is live and has room. -/
theorem safeFor_dotted {p : List UInt8} (hsplit : splitLast path = some (p, [97])) :
    SafeFor (Env.ideal 0) dotted path := by
  intro p' c d dir t os hsplit' hleads hread hd
  rw [hsplit] at hsplit'
  cases hsplit'
  have he := Env.ideal_reliable 0
  obtain ⟨r, hr, hnamed⟩ := (orderly_dotted.tree he).exists_yields he (parentOf p)
  obtain rfl := named_dotted (hnamed d (hr.unique hleads))
  have hsame := readInode_dotted hread
  have hsize : 0 < dotted.super.blockSize := by decide
  have hcount : dirBlockCount dotted.super dir = 1 :=
    (dirBlockCount_of_same hsame).trans (by decide)
  have hblock : dotted.dataBlock (Env.ideal 0) (fileOf dir) () 0 = 7 :=
    (dataBlock_of_same (f := fileOf dirInode) hsize hsame (by decide)).trans (by decide)
  have hroom : Dirent.Room 1 (dotted.block (Env.ideal 0) 7) 0 := by decide
  obtain ⟨rest, hos, -⟩ := (hd.chain (hcount ▸ Nat.zero_lt_one)).head hsize
  constructor
  case reuse =>
    intro i a hfirst hdead
    have hi : i = 0 := Nat.lt_one_iff.mp (hcount ▸ hfirst.block)
    subst hi
    have hfind := hfirst.first
    rw [hos, hblock, List.find?_cons_of_pos (by simpa using hroom)] at hfind
    obtain rfl := Option.some.inj hfind
    rw [hblock] at hdead
    exact absurd hdead (by decide)
  case grow =>
    intro hcrowded
    refine absurd ?_ (hcrowded 0 (hcount ▸ Nat.zero_lt_one) 0 (hos ▸ List.mem_cons_self))
    rw [hblock]
    exact hroom

theorem yields_dotted : Yields (Env.ideal 0) dotted [47, 47, 97] (.error (-5)) := by
  have he := Env.ideal_reliable 0
  obtain ⟨root, v, hroot⟩ := (orderly_dotted.tree he).readable .root
  have hdir : root.isDir = true := (readInode_dotted hroot).isDir.trans (by decide)
  obtain ⟨-, os, hd⟩ := orderly_dotted.directory .root hroot hdir
  have hfollows : Follows (Env.ideal 0) dotted (rootIno, root)
      (components ([47, 47, 97] : List UInt8).tail) (.error (-5)) :=
    .missing (by decide) (hd.listing.answers_nil he (by decide))
  exact fun n hn => hfollows.lookupPath he hroot rfl hn

end Small

/-- **A file that is not found.**  `CreateFile` of `//a` returns 11, and the path leads nowhere,
before and afterwards. -/
theorem createFile_loses_path :
    (Env.ideal 0).Reliable ∧ WellFormed (Env.ideal 0) Small.dotted ∧
      Yields (Env.ideal 0) Small.dotted [47, 47, 97] (.error (-5)) ∧
      ∃ t, createFile (Env.ideal 0) [47, 47, 97] 0x81A4 1028 Small.dotted = .ok (11, t) ∧
        Yields (Env.ideal 0) t [47, 47, 97] (.error (-5)) ∧
        ¬ CreateRight (Env.ideal 0) Small.dotted [47, 47, 97] 11 t := by
  have he := Env.ideal_reliable 0
  refine ⟨he, Small.wellFormed_dotted, Small.yields_dotted, ?_⟩
  have hval :
    (createFile (Env.ideal 0) [47, 47, 97] 0x81A4 1028 Small.dotted).toOption.map Prod.fst =
      some 11 := by
    decide +kernel
  obtain ⟨⟨code, t⟩, hrun, rfl⟩ := Option.map_eq_some_iff.mp hval
  obtain ⟨d, dir, c, hfound, hcreated⟩ := createFile_created he Small.orderly_dotted (by decide)
    (Small.safeFor_dotted (p := [47]) (by decide)) (by decide) (eq_ok_of_toOption hrun) (by decide)
  have hnone := hcreated.yields_of_not_closed he Small.wellFormed_dotted hfound
    fun hclosed => hclosed [47] [97] (by decide) rfl
  exact ⟨t, eq_ok_of_toOption hrun, hnone, fun hright => by cases hright.new.unique hnone⟩

/-- The file `/a`. -/
theorem createFile_right_iff_dotted :
    ∃ t, createFile (Env.ideal 0) [47, 97] 0x81A4 1028 Small.dotted = .ok (11, t) ∧
      (CreateRight (Env.ideal 0) Small.dotted [47, 97] 11 t ↔ Closed [47, 97]) := by
  have hval : (createFile (Env.ideal 0) [47, 97] 0x81A4 1028 Small.dotted).toOption.map Prod.fst =
      some 11 := by
    decide +kernel
  obtain ⟨⟨code, t⟩, hrun, rfl⟩ := Option.map_eq_some_iff.mp hval
  exact ⟨t, eq_ok_of_toOption hrun, createFile_right_iff (Env.ideal_reliable 0)
    Small.wellFormed_dotted (by decide) (Small.safeFor_dotted (p := []) (by decide)) (by decide)
    (eq_ok_of_toOption hrun) (by decide)⟩

end InfoKernel.Ext2
