import InfoKernel.Fs.InodeBits
import InfoKernel.Fs.NewNames
import InfoKernel.Lib.Run

/-!
# Runs of `CreateFile`

One call of `CreateFile` puts one name into one directory.  Over a run of calls the volume stays
well formed, whether they return a number or a code, so each call can rely on what the ones before
it have left.

* `Made` is what a call leaves behind that returns a number, besides the names (`NewInode.made`),
and `Made.wellFormed` puts the two together. * `AsBefore.wellFormed` is the same for a call that
returns a code. * `createFile_run`: after any run, all created paths lead to the numbers that were
returned, these are distinct, and all paths that led to an inode at first lead there still.
-/

namespace InfoKernel.Ext2

open Lib

variable {e : Env} {s t u v w : State} {path c : List UInt8} {d num mode n : Nat} {dir x y : Inode}
  {q q' : FilePos}

/-! ## Two inodes at once -/

/-- The family of two inodes. -/
def bothOf (x y : Inode) : Bool → Inode := fun b => bif b then x else y

theorem Inode.Alike.refAt (h : y.Alike x) (hq : (s.shape Unit).Pos q) :
    s.refAt e y q = s.refAt e x q := congrArg (fun b => walk (s.words e) b _) (h.iBlock hq.root)

/-- Two files that refer to different blocks. -/
theorem Files.both (hx : Files e (fileOf x) s) (hy : Files e (fileOf y) s)
    (hapart : ∀ {q q'}, (s.shape Unit).Pos q → (s.shape Unit).Pos q' → s.refAt e x q ≠ 0 →
      s.refAt e x q ≠ s.refAt e y q') : Files e (bothOf x y) s where
  consistent := hx.consistent
  unshared := by
    rintro ⟨⟨b, i⟩, is⟩ ⟨⟨b', j⟩, js⟩ hp hq hne heq
    have hp' : (s.shape Unit).Pos (((), i), is) := ⟨hp.root, hp.index, hp.length⟩
    have hq' : (s.shape Unit).Pos (((), j), js) := ⟨hq.root, hq.index, hq.length⟩
    cases b <;> cases b'
    · obtain ⟨⟩ := hy.unshared _ _ hp' hq' hne heq
      rfl
    · exact absurd heq.symm (hapart hq' hp' (fun hzero => hne (heq.trans hzero)))
    · exact absurd heq (hapart hp' hq' hne)
    · obtain ⟨⟩ := hx.unshared _ _ hp' hq' hne heq
      rfl
  owned := by
    rintro ⟨⟨b, i⟩, is⟩ hp hne
    have hp' : (s.shape Unit).Pos (((), i), is) := ⟨hp.root, hp.index, hp.length⟩
    cases b
    · exact hy.owned hp' hne
    · exact hx.owned hp' hne

theorem Files.apart (h : Files e (bothOf x y) s) (hq : (s.shape Unit).Pos q)
    (hq' : (s.shape Unit).Pos q') (hne : s.refAt e x q ≠ 0) : s.refAt e x q ≠ s.refAt e y q' := by
  intro heq
  have hsame :=
    h.unshared ((true, q.1.2), q.2) ((false, q'.1.2), q'.2) ⟨hq.root, hq.index, hq.length⟩
    ⟨hq'.root, hq'.index, hq'.length⟩ hne heq
  cases congrArg (fun p => p.1.1) hsame

/-! ## What a call leaves behind -/

namespace Lasts

variable {A : Nat → Prop} {os : Nat → List Nat}

/-- A file none of whose blocks has changed is as sound as it was. -/
theorem files_of_outside (h : Lasts e A s t) (hf : Files e (fileOf x) s) (ho : Outside e A s x)
    (hfree : ∀ {m}, Free e t .block m → Free e s .block m) (hxy : y.Alike x) :
    Files e (fileOf y) t := by
  have href : ∀ {p}, (s.shape Unit).Pos p →
      (t.forest e (fileOf y)).ref p = (s.forest e (fileOf x)).ref p := fun hp =>
    h.refAt_eq (fun hq => ho _ hq.pos) hxy hp
  refine ⟨⟨h.layout.roles hf.consistent.roles, fun hz hn =>
    hf.consistent.meta_used (h.layout.meta_of hz) (hfree hn)⟩, fun p q hp hq hne heq => ?_,
    fun {p} hp hne => ?_⟩
  · rw [State.shape_congr h.layout.geometry] at hp hq
    rw [href hp] at hne heq
    rw [href hq] at heq
    exact hf.unshared p q hp hq hne heq
  · rw [State.shape_congr h.layout.geometry] at hp
    rw [href hp] at hne ⊢
    have hown := hf.owned hp hne
    exact ⟨fun hn => hown.used (hfree hn), fun hz => hown.data (h.layout.meta_of hz)⟩

theorem directory_of_outside (h : Lasts e A s t) (hsize : 0 < s.super.blockSize)
    (ho : Outside e A s x) (hd : Directory e (fileOf x) s () os) (hxy : y.Alike x) :
    Directory e (fileOf y) t () os := by
  refine (hd.congr h.layout.geometry hxy.isDir hxy.iSize fun i hi => ?_).1
  have hpos := (filePos_leaf hsize (dirBlock_in_range hsize hi).1 ()).pos
  have hsame : t.dataBlock e (fileOf y) () i = s.dataBlock e (fileOf x) () i := by
    rw [State.dataBlock_congr h.layout.geometry]
    exact h.refAt_eq (fun hq => ho _ hq.pos) hxy hpos
  rw [hsame]
  obtain ⟨hdata, hA⟩ := ho _ hpos (hd.mapped hi)
  exact ⟨hd.mapped hi, fun j hj => h.block (.of_data hdata) hA hj⟩

end Lasts

/-- **What `CreateFile` leaves behind** when it has stored inode `num` and put its name into the
directory `d`, besides the names: the counts are right, nothing has been given back, and the
directory has its own blocks. -/
structure Made (e : Env) (s : State) (d : Nat) (dir : Inode) (num mode : Nat)
    (t : State) : Prop where
  counted : Counted e t
  freeInode {m : Nat} : Free e t .inode m → Free e s .inode m ∧ m ≠ num - 1
  freeBlock {m : Nat} : Free e t .block m → Free e s .block m
  new : (t.inodeAt e num).Same (newInode mode)
  files {x : Inode} : x.Same (t.inodeAt e d) → Files e (fileOf x) t
  directory {x : Inode} : x.Same (t.inodeAt e d) → ∃ os, Directory e (fileOf x) t () os
  apart {x y : Inode} {q q' : FilePos} : x.Same (t.inodeAt e d) → Files e (bothOf dir y) s →
    y.isDir = true → (s.shape Unit).Pos q → (s.shape Unit).Pos q' → t.refAt e x q ≠ 0 →
    t.refAt e x q ≠ t.refAt e y q'

/-- Only the inode has been taken. -/
theorem NewInode.free_inode {m : Nat} (h : NewInode e s num mode t u) (hm : Free e u .inode m) :
    Free e s .inode m ∧ m ≠ num - 1 := by
  have ht := h.bits.free_iff.mp hm
  refine ⟨(h.flip.free_or ht).resolve_right (fun hv => Bool.noConfusion hv.1), ?_⟩
  rintro rfl
  have hbit : t.bit e .inode (num - 1) = _ := h.flip.bit h.free.group
  rw [if_pos ⟨rfl, rfl⟩] at hbit
  rw [ht.clear] at hbit
  cases hbit

/-- A directory that differs in the time of its last change is the same directory. -/
theorem Directory.of_alike {os : Nat → List Nat} (hd : Directory e (fileOf x) s () os)
    (hsize : 0 < s.super.blockSize) (h : y.Alike x) : Directory e (fileOf y) s () os := by
  refine (hd.congr (SuperBlock.SameGeometry.refl s.super) h.isDir h.iSize fun i hi => ?_).1
  have hpos := (filePos_leaf hsize (dirBlock_in_range hsize hi).1 ()).pos
  have hsame : s.dataBlock e (fileOf y) () i = s.dataBlock e (fileOf x) () i := h.refAt hpos
  rw [hsame]
  exact ⟨hd.mapped hi, fun _ _ => rfl⟩

theorem Files.of_alike (hf : Files e (fileOf x) s) (h : y.Alike x) : Files e (fileOf y) s where
  consistent := hf.consistent
  unshared p q hp hq hne heq := by
    rw [show (s.forest e (fileOf y)).ref p = _ from h.refAt hp] at hne heq
    rw [show (s.forest e (fileOf y)).ref q = _ from h.refAt hq] at heq
    exact hf.unshared p q hp hq hne heq
  owned {p} hp hne := by
    rw [show (s.forest e (fileOf y)).ref p = _ from h.refAt hp] at hne ⊢
    exact hf.owned hp hne

/-- Files stay apart where their pointer blocks last. -/
theorem Lasts.both {A : Nat → Prop} (h : Lasts e A s t) (hf : Files e (bothOf x y) s)
    (hA : ∀ z, s.Points e (bothOf x y) z → ¬ A z) (hq : (s.shape Unit).Pos q)
    (hq' : (s.shape Unit).Pos q') (hne : t.refAt e x q ≠ 0) : t.refAt e x q ≠ t.refAt e y q' := by
  have hx : t.refAt e x q = s.refAt e x q :=
    h.ref_eq hf.mapped hA (p := ((true, q.1.2), q.2)) ⟨hq.root, hq.index, hq.length⟩
  have hy : t.refAt e y q' = s.refAt e y q' :=
    h.ref_eq hf.mapped hA (p := ((false, q'.1.2), q'.2)) ⟨hq'.root, hq'.index, hq'.length⟩
  rw [hx] at hne ⊢
  rw [hy]
  exact hf.apart hq hq' hne

section Making

variable (he : e.Reliable)

include he

/-- **Storing the inode, adding the entry and storing the directory**, besides the names. -/
theorem NewInode.made {dir' : Inode} (h : Orderly e s) (hfound : Found e s path d dir c)
    (hnul : 0 ∉ c) (hsafe : ∀ os, Directory e (fileOf dir) s () os →
      AddSafe e (fileOf dir) s () os c)
    (hnew : NewInode e s num mode t u) (hn : s.super.blockSize < n)
    (hadd : addEntry e dir num c 1 n u = .ok ((0, dir'), v))
    (hwrite : writeInode e d (dir'.setMtime 0) v = .ok (0, w)) : Made e s d dir num mode w := by
  have hsize := h.counted.roles.size_pos
  obtain ⟨k, hread⟩ := hfound.read
  obtain ⟨hf, os, hd⟩ := h.directory hfound.named hread hfound.isDir
  have hd₀ : s.HasInode d := (h.named hfound.named).1
  have hnum := hnew.hasInode
  have hnd : num ≠ d := by
    rintro rfl
    exact (h.named hfound.named).2 hnew.free
  have hlu := hnew.lasts.layout
  have hsizeu : u.super.blockSize = s.super.blockSize := hlu.geometry.blockSize
  have hfu := hnew.files h.tables hf
  obtain ⟨hdu, hsameu⟩ := hnew.directory h.tables hf hd
  have hlt : num < 2 ^ 32 := by
    have hcount : s.super.sInodesCount < 2 ^ 32 := getLE_lt _ _ _
    have hfree := h.inodes hnew.free
    omega
  have hadd' : addEntry e (fileOf dir ()) num c 1 n u = .ok ((0, dir'), v) := hadd
  have hn' : u.super.blockSize < n := hsizeu ▸ hn
  obtain ⟨hadded, hframe, -⟩ :=
    (addEntry_added num 1 he hfu hnew.counted hdu hfound.length_lt hn').of_result hadd'
  have habsent : Answers e dir u c none := by
    refine hd.listing.answers_carry he hdu.listing hsize (hsizeu ▸ hsize) ?_ hfound.absent
    rw [hsameu]
  have hright : AddRight e (fileOf dir) u () c num dir' v :=
    ((addEntry_right_iff he hfu hnew.counted hdu hfound.nonempty hfound.length_lt hnul habsent
      (Nat.ne_of_gt hnum.1) hlt).mpr (hnew.addSafe h.tables hf hd (hsafe os hd)) n hn').of_result
        hadd' rfl
  have hfv : Files e (fileOf dir') v := hadded.files hfu hdu rfl
  obtain ⟨os', hdv⟩ : ∃ os', Directory e (fileOf dir') v () os' := hright.directory
  have hlv := hlu.trans hframe.layout
  have htv := h.tables.of_layout hlv
  have hcv : Counted e v := hadded.counted hfu hnew.counted hdu rfl
  -- the directory is stored
  obtain ⟨w', hwrite', hbits, hlasts, hsame, hother⟩ := htv.writeInode_run he
    (hlv.roles h.counted.roles) (hlv.hasInode.mpr hd₀) (dir'.setMtime 0)
  obtain rfl : w = w' := by
    rw [hwrite] at hwrite'
    exact congrArg Prod.snd (Except.ok.inj hwrite')
  have hfree : ∀ {m}, Free e w .block m → Free e v .block m := hbits.free_iff.mp
  have halike : ∀ {x : Inode}, x.Same (w.inodeAt e d) → x.Alike dir' := fun hx =>
    Inode.Alike.trans (Inode.Same.alike fun i hi => (hx i hi).trans (hsame i hi))
      (Inode.alike_setMtime dir' 0)
  have hne : ∀ {κ : Type} {f : κ → Inode}, Files e f v → ∀ z, v.Refers e f z →
      ¬ z = v.inodeBlock e d := fun hf _ hz =>
    htv.ne_inodeBlock hf hz (hlv.hasInode.mpr hd₀)
  have hfw : Files e (fileOf dir') w := hlasts.files hfv
    (fun z ⟨p, hp, hz⟩ => hne hfv z ⟨p, hp.pos, hz⟩) hfree
  have hdw := (hlasts.directory hfv (hne hfv) hdv).1
  have hinodes := addEntry_sameInodes (k := ()) he hfu hdu num c 1 hn'
  refine ⟨hbits.counted hcv, fun hm => ?_, fun hm => ?_, fun i hi => ?_, fun hx => ?_, fun hx => ?_,
    fun {x y q q'} hx hboth hdir hq hq' hrefne => ?_⟩
  · exact hnew.free_inode ((hinodes.of_result hadd').free_iff.mp (hbits.free_iff.mp hm))
  · exact hnew.free_block (hframe.free (hfree hm))
  · have hblock : ¬ (u.Refers e (fileOf dir) (u.inodeBlock e num) ∨
        Free e u .block (u.inodeBlock e num)) := by
      have hu := hlu.hasInode.mpr hnum
      rintro (hrefers | hfree)
      · exact (h.tables.of_layout hlu).ne_inodeBlock hfu hrefers hu rfl
      · exact hfu.consistent.meta_used ((h.tables.of_layout hlu).inodeBlock_meta hu) hfree
    calc (w.inodeAt e num).bytes i = (v.inodeAt e num).bytes i :=
          hother num (hlv.hasInode.mpr hnum) hnd i hi
      _ = (u.inodeAt e num).bytes i := (h.tables.of_layout hlu).inodeAt_of_lasts hframe.lasts
          (hlu.hasInode.mpr hnum) hblock i hi
      _ = (newInode mode).bytes i := hnew.new i hi
  · exact hfw.of_alike (halike hx)
  · exact ⟨os', hdw.of_alike (hlasts.layout.geometry.blockSize ▸ hlv.geometry.blockSize ▸ hsize)
      (halike hx)⟩
  · -- an entry is added to the first of the two directories
    have hboth' : Files e (bothOf dir y) u := hnew.lasts.files hboth
      (fun z ⟨p, hp, hz⟩ => h.tables.ne_inodeBlock hboth ⟨p, hp.pos, hz⟩ hnum) hnew.free_block
    have hd' : Directory e (bothOf dir y) u true os :=
      ⟨hdu.isDir, hdu.mapped, hdu.chain, hdu.distinct⟩
    have hadd'' : addEntry e (bothOf dir y true) num c 1 n u = .ok ((0, dir'), v) := hadd
    have hupdate : Function.update (bothOf dir y) true dir' = bothOf dir' y := by
      funext b
      cases b <;> rfl
    have hbothv : Files e (bothOf dir' y) v := hupdate ▸
      ((addEntry_added num 1 he hboth' hnew.counted hd' hfound.length_lt hn').of_result
        hadd'').1.files
        hboth' hd' rfl
    have hposv : ∀ {p : FilePos}, (s.shape Unit).Pos p → (v.shape Unit).Pos p := fun hp => by
      rwa [State.shape_congr hlv.geometry]
    have hposw : (w.shape Unit).Pos q := by
      rw [State.shape_congr hlasts.layout.geometry]
      exact hposv hq
    rw [(halike hx).refAt hposw] at hrefne ⊢
    exact hlasts.both hbothv (fun z ⟨p, hp, hz⟩ =>
      hne hbothv z ⟨p, hp.pos, hz⟩) (hposv hq) (hposv hq')
      hrefne

/-- **What `CreateFile` has changed and left behind** when it returns a number. -/
theorem createFile_made (h : Orderly e s) (hnul : 0 ∉ path) (hsafe : SafeFor e s path)
    (hn : s.super.blockSize + path.length < n) {code : Int}
    (hrun : createFile e path mode n s = .ok (code, t)) (hpos : 0 < code) :
    ∃ d dir c, Found e s path d dir c ∧ Created e s d dir c code.toNat t ∧
      Made e s d dir code.toNat mode t := by
  obtain ⟨d, dir, c, u, v, w, dir', hfound, hname, hsafe, hnew, hadd, hwrite⟩ :=
    createFile_stored he h hnul hsafe hn hrun hpos
  have hnblock : s.super.blockSize < n := Nat.lt_of_le_of_lt (Nat.le_add_right _ _) hn
  exact ⟨d, dir, c, hfound, hnew.created he h hfound hname hsafe hnblock hadd hwrite,
    hnew.made he h hfound hname hsafe hnblock hadd hwrite⟩

end Making

/-! ## The volume stays well formed -/

/-- A mode of a file that is no directory. -/
def Regular (mode : Nat) : Prop := (newInode mode).isDir = false

section Creating

variable (he : e.Reliable) (h : WellFormed e s) (hfound : Found e s path d dir c)
  (hcreated : Created e s d dir c num t) (hmade : Made e s d dir num mode t) (hreg : Regular mode)

include he h hfound hcreated hmade

omit hfound in
/-- The new inode is no directory. -/
theorem Made.not_dir (hreg : Regular mode) (hx : readInode e num t = .ok (.ok x, v)) :
    x.isDir = false := by
  have hl := hcreated.lasts.layout
  obtain ⟨y, k, hy, hsame⟩ := (h.tables.of_layout hl).readInode_run he
    (hl.hasInode.mpr hcreated.hasInode)
  rw [hy] at hx
  cases hx
  rw [hsame.isDir, hmade.new.isDir]
  exact hreg

include hreg

/-- **Only the new inode has been named.** -/
theorem Made.named {m : Nat} (hm : Named e t m) : Named e s m ∨ m = num := by
  induction hm with
  | root => exact .inl .root
  | @entry n m name inode v _ hread hans ih =>
      rcases ih with hn | rfl
      · obtain ⟨x, u, hx⟩ := (h.tree he).readable hn
        obtain ⟨y, w, hy, hother, hself⟩ := hcreated.readInode_run he h hn ⟨u, hx⟩
        rw [hread] at hy
        cases hy
        by_cases hnd : n = d
        · subst hnd
          obtain ⟨u', hdir⟩ := hfound.read
          by_cases hname : name = c
          · -- the new entry
            subst hname
            exact .inr (Option.some.inj (hans.unique (hcreated.new (hself rfl))))
          · obtain ⟨r, hr⟩ := (h.tree he).answers he hfound.named hdir name
            have heq := hans.unique (hcreated.names (hself rfl) hname hr)
            exact .inl (hfound.named.entry hdir (heq ▸ hr))
        · have hdir : x.isDir = true := (hother hnd).isDir ▸ hans.isDir
          obtain ⟨r, hr⟩ := (h.tree he).answers he hn hx name
          have heq := hans.unique (hcreated.answers_of_ne he h hfound hn hnd hx hread hdir hr)
          exact .inl (hn.entry hx (heq ▸ hr))
      · have hfile := hmade.not_dir he h hcreated hreg hread
        rw [hans.isDir] at hfile
        cases hfile

/-- A directory is the one with the new name, or it is as it was. -/
theorem Made.directory_cases (hn : Named e t n) (hx : readInode e n t = .ok (.ok x, v))
    (hdir : x.isDir = true) : Named e s n ∧ ((n = d ∧ x.Same (t.inodeAt e d)) ∨
      n ≠ d ∧ ∃ y u, readInode e n s = .ok (.ok y, u) ∧ x.Same y ∧ y.isDir = true) := by
  rcases hmade.named he h hfound hcreated hreg hn with hs | rfl
  · obtain ⟨y, u, hy⟩ := (h.tree he).readable hs
    obtain ⟨x', w, hx', hother, hself⟩ := hcreated.readInode_run he h hs ⟨u, hy⟩
    rw [hx] at hx'
    cases hx'
    refine ⟨hs, ?_⟩
    by_cases hnd : n = d
    · exact .inl ⟨hnd, hself hnd⟩
    · exact .inr ⟨hnd, y, u, hy, hother hnd, (hother hnd).isDir ▸ hdir⟩
  · rw [hmade.not_dir he h hcreated hreg hx] at hdir
    cases hdir

/-- **The volume is well formed afterwards.** -/
theorem Made.wellFormed : WellFormed e t where
  counted := hmade.counted
  tables := h.tables.of_layout hcreated.lasts.layout
  inodes hm := by
    rw [hcreated.lasts.layout.geometry.inodesCount]
    exact h.inodes (hmade.freeInode hm).1
  named hm := by
    have hl := hcreated.lasts.layout
    rcases hmade.named he h hfound hcreated hreg hm with hs | rfl
    · obtain ⟨hnum, hused⟩ := h.named hs
      exact ⟨hl.hasInode.mpr hnum, fun hf => hused (hmade.freeInode hf).1⟩
    · exact ⟨hl.hasInode.mpr hcreated.hasInode, fun hf => (hmade.freeInode hf).2 rfl⟩
  directory hn hx hdir := by
    obtain ⟨hs, ⟨rfl, hsame⟩ | ⟨hnd, y, u, hy, hsame, hydir⟩⟩ :=
      hmade.directory_cases he h hfound hcreated hreg hn hx hdir
    · exact ⟨hmade.files hsame, hmade.directory hsame⟩
    · obtain ⟨hf, os, hd⟩ := h.directory hs hy hydir
      have ho := hcreated.outside h hfound hs hnd hy hydir
      exact ⟨hcreated.lasts.files_of_outside hf ho hmade.freeBlock hsame.alike, os,
        hcreated.lasts.directory_of_outside hf.consistent.roles.size_pos ho hd hsame.alike⟩
  apart {n m x y v w q q'} hn hm hx hy hdir hdir' hne hq hq' href := by
    have hgeo := hcreated.lasts.layout.geometry
    -- the directory with the new name and another one
    have hother : ∀ {m x y v q q'}, Named e s m → m ≠ d → readInode e m s = .ok (.ok y, v) →
        y.isDir = true → x.Same (t.inodeAt e d) → (t.shape Unit).Pos q → (t.shape Unit).Pos q' →
        t.refAt e x q ≠ 0 → t.refAt e x q ≠ t.refAt e y q' := by
      intro m x y v q q' hm hmd hy hydir hx hq hq'
      obtain ⟨v', hread⟩ := hfound.read
      have hboth := Files.both (h.directory hfound.named hread hfound.isDir).1
        (h.directory hm hy hydir).1 fun hq hq' hne =>
          h.apart hfound.named hm hread hy hfound.isDir hydir hmd.symm hq hq' hne
      rw [State.shape_congr hgeo] at hq hq'
      exact hmade.apart hx hboth hydir hq hq'
    have hsame : ∀ {m x y v q}, Named e s m → m ≠ d → readInode e m s = .ok (.ok y, v) →
        x.Same y → y.isDir = true → (t.shape Unit).Pos q → t.refAt e x q = s.refAt e y q := by
      intro m x y v q hm hmd hy hxy hydir hq
      rw [State.shape_congr hgeo] at hq
      exact hcreated.lasts.refAt_eq
        (fun hp => hcreated.outside h hfound hm hmd hy hydir _ hp.pos) hxy.alike hq
    obtain ⟨hn, ⟨rfl, hxd⟩ | ⟨hnd, x', u, hx', hxx, hxdir⟩⟩ :=
      hmade.directory_cases he h hfound hcreated hreg hn hx hdir <;>
    obtain ⟨hm, ⟨rfl, hyd⟩ | ⟨hmd, y', u', hy', hyy, hydir⟩⟩ :=
      hmade.directory_cases he h hfound hcreated hreg hm hy hdir'
    · exact absurd rfl hne
    · rw [hyy.alike.refAt hq']
      exact hother hm hmd hy' hydir hxd hq hq' href
    · intro heq
      refine hother hn hnd hx' hxdir hyd hq' hq (heq ▸ href) ?_
      rw [← hxx.alike.refAt hq, heq]
    · rw [hsame hn hnd hx' hxx hxdir hq] at href ⊢
      rw [hsame hm hmd hy' hyy hydir hq']
      rw [State.shape_congr hgeo] at hq hq'
      exact h.apart hn hm hx' hy' hxdir hydir hne hq hq' href

end Creating

/-! ## Calls that return a code -/

namespace AsBefore

theorem lasts (hb : AsBefore e s t) : Lasts e (Meta e s) s t where
  layout := hb.bits.layout
  block _ hA hi := hb.data hA hi

theorem outside (hf : Files e (fileOf x) s) : Outside e (Meta e s) s x := fun _ hq hne =>
  ⟨(hf.owned hq hne).data, (hf.owned hq hne).data⟩

variable (he : e.Reliable) (h : WellFormed e s) (hb : AsBefore e s t)

include he h hb

/-- An inode that is named is read as before. -/
theorem readInode_run (hn : Named e s n) (hx : readInode e n s = .ok (.ok x, v)) :
    ∃ y w, readInode e n t = .ok (.ok y, w) ∧ y.Same x := by
  obtain ⟨hm, hused⟩ := h.named hn
  obtain ⟨y, k, hy, hsame⟩ := (h.tables.of_layout hb.bits.layout).readInode_run he
    (hb.bits.layout.hasInode.mpr hm)
  obtain ⟨x', k', hx', hsame'⟩ := h.tables.readInode_run he hm
  rw [hx'] at hx
  cases hx
  exact ⟨y, _, hy, fun i hi =>
    (hsame i hi).trans ((hb.inode hm hused i hi).trans (hsame' i hi).symm)⟩

/-- Directories say what they said. -/
theorem answers {name : List UInt8} {r : Option Nat} (hn : Named e s n)
    (hx : readInode e n s = .ok (.ok x, v)) (hy : readInode e n t = .ok (.ok y, w))
    (hans : Answers e x s name r) : Answers e y t name r := by
  obtain ⟨y', w', hy', hsame⟩ := hb.readInode_run he h hn hx
  rw [hy] at hy'
  cases hy'
  cases hdir : x.isDir with
  | false =>
      rw [hans.unique (answers_of_not_dir hdir name)]
      exact answers_of_not_dir (hsame.isDir.trans hdir) name
  | true =>
      obtain ⟨hf, os, hd⟩ := h.directory hn hx hdir
      have hsize := h.counted.roles.size_pos
      obtain ⟨hlist, hentries⟩ := hb.lasts.listing hsize (outside hf) hsame.alike hd.listing
      refine hd.listing.answers_carry he hlist hsize ?_ (by rw [hentries]) hans
      rw [hb.bits.layout.geometry.blockSize]
      exact hsize

/-- No inode has been named. -/
theorem named {m : Nat} (hm : Named e t m) : Named e s m := by
  induction hm with
  | root => exact .root
  | @entry n m name y w _ hy hans ih =>
      obtain ⟨x, v, hx⟩ := (h.tree he).readable ih
      obtain ⟨r, hr⟩ := (h.tree he).answers he ih hx name
      exact ih.entry hx (hans.unique (hb.answers he h ih hx hy hr) ▸ hr)

/-- A directory is as it was. -/
theorem directory_eq (hn : Named e t n) (hx : readInode e n t = .ok (.ok x, v))
    (hdir : x.isDir = true) : Named e s n ∧ ∃ y u, readInode e n s = .ok (.ok y, u) ∧ x.Same y ∧
      y.isDir = true := by
  have hs := hb.named he h hn
  obtain ⟨y, u, hy⟩ := (h.tree he).readable hs
  obtain ⟨x', w, hx', hsame⟩ := hb.readInode_run he h hs hy
  rw [hx] at hx'
  cases hx'
  exact ⟨hs, y, u, hy, hsame, hsame.isDir ▸ hdir⟩

/-- **The volume is as well formed as before.** -/
theorem wellFormed : WellFormed e t where
  counted := hb.bits.counted h.counted
  tables := h.tables.of_layout hb.bits.layout
  inodes hm := by
    rw [hb.bits.layout.geometry.inodesCount]
    exact h.inodes (hb.bits.free_iff.mp hm)
  named hm := by
    obtain ⟨hnum, hused⟩ := h.named (hb.named he h hm)
    exact ⟨hb.bits.layout.hasInode.mpr hnum, fun hf => hused (hb.bits.free_iff.mp hf)⟩
  directory hn hx hdir := by
    obtain ⟨hs, y, u, hy, hsame, hydir⟩ := hb.directory_eq he h hn hx hdir
    obtain ⟨hf, os, hd⟩ := h.directory hs hy hydir
    exact ⟨hb.lasts.files_of_outside hf (outside hf) hb.bits.free_iff.mp hsame.alike, os,
      hb.lasts.directory_of_outside hf.consistent.roles.size_pos (outside hf) hd hsame.alike⟩
  apart {n m x y v w q q'} hn hm hx hy hdir hdir' hne hq hq' href := by
    obtain ⟨hn, x', u, hx', hxx, hxdir⟩ := hb.directory_eq he h hn hx hdir
    obtain ⟨hm, y', u', hy', hyy, hydir⟩ := hb.directory_eq he h hm hy hdir'
    rw [State.shape_congr hb.bits.layout.geometry] at hq hq'
    have hsame : ∀ {m x y v q}, Named e s m → readInode e m s = .ok (.ok y, v) → x.Same y →
        y.isDir = true → (s.shape Unit).Pos q → t.refAt e x q = s.refAt e y q :=
      fun hm hy hxy hydir hq => hb.lasts.refAt_eq
        (fun hp => outside (h.directory hm hy hydir).1 _ hp.pos) hxy.alike hq
    rw [hsame hn hx' hxx hxdir hq] at href ⊢
    rw [hsame hm hy' hyy hydir hq']
    exact h.apart hn hm hx' hy' hxdir hydir hne hq hq' href

/-- **Paths lead where they led.** -/
theorem yields {p : List UInt8} {m : Nat} (hp : Yields e s p (.ok m)) : Yields e t p (.ok m) := by
  have habs := hp.absolute
  have htree := h.tree he
  obtain ⟨root, v, hroot⟩ := htree.readable .root
  obtain ⟨r, hr, hfst⟩ := (htree.yields_iff he hroot habs).mp hp
  obtain ⟨pos, rfl, rfl⟩ : ∃ pos, r = .ok pos ∧ pos.1 = m := by
    cases r with
    | error code => cases hfst
    | ok pos => exact ⟨pos, rfl, Except.ok.inj hfst⟩
  obtain ⟨root', v', hroot', -⟩ := hb.readInode_run he h .root hroot
  have hreads : ∀ {n x v}, Named e s n → readInode e n s = .ok (.ok x, v) →
      ∃ y w, readInode e n t = .ok (.ok y, w) := fun hn hx => by
    obtain ⟨y, w, hy, -⟩ := hb.readInode_run he h hn hx
    exact ⟨y, w, hy⟩
  obtain ⟨y, -, hfollows⟩ := hr.carry_along hreads
    (fun hn hx hy hans _ _ => hb.answers he h hn hx hy hans) .root ⟨v, hroot⟩ ⟨v', hroot'⟩
  exact fun n hn => hfollows.lookupPath he hroot' habs hn

end AsBefore

/-! ## Runs -/

/-- What a path leads to is named. -/
theorem Orderly.named_of_yields (h : Orderly e s) (he : e.Reliable) {p : List UInt8} {m : Nat}
    (hp : Yields e s p (.ok m)) : Named e s m := by
  obtain ⟨r, hr, hnamed⟩ := (h.tree he).exists_yields he p
  exact hnamed m (hr.unique hp)

/-- **`CreateFile` returns a negative code and has changed nothing, or a positive number.** -/
theorem createFile_cases (he : e.Reliable) (h : Orderly e s)
    (hcount : s.super.sInodesCount < 2 ^ 31)
    (hn : s.super.blockSize + path.length < n) {code : Int}
    (hrun : createFile e path mode n s = .ok (code, t)) : code < 0 ∧ AsBefore e s t ∨ 0 < code := by
  cases hparent : createParent e path n s with
  | error f =>
      rw [createFile, bind_apply, hparent] at hrun
      cases hrun
  | ok r =>
      obtain ⟨r, t₀⟩ := r
      obtain ⟨k, rfl, hcases⟩ := (createParent_ends he (h.tree he) hn).of_result hparent
      rcases hcases with ⟨code', rfl, hneg⟩ | ⟨d, dir, c, rfl, hfound⟩
      · rw [createFile, bind_apply_of_ok hparent] at hrun
        cases hrun
        exact .inl ⟨hneg, .same s k s.noSpace⟩
      · refine ((createFile_of_parent he h hfound hparent
          (Nat.lt_of_le_of_lt (Nat.le_add_right _ _) hn)).of_result hrun).imp_right ?_
        rintro ⟨num, u, v, w, dir', hcode, hnew, -⟩
        have hlt := h.inodes hnew.free
        have hpos := hnew.hasInode.1
        have hnonneg : 0 ≤ asInt num := asInt_nonneg (by omega)
        have hne : asInt num ≠ 0 := by
          intro hzero
          have hmod :
            asInt num % ((2 ^ 32 : Nat) : Int) = num % ((2 ^ 32 : Nat) : Int) := Int.bmod_emod
          rw [hzero] at hmod
          omega
        omega

/-- A call of `CreateFile`. -/
structure Creation where
  path : List UInt8
  mode : Nat

/-- The steps of a volume under calls of `CreateFile`, with the paths that have been created and the
numbers that have been returned for them. -/
def CreateStep (e : Env) (x : State × List (List UInt8 × Nat)) (c : Creation)
    (y : State × List (List UInt8 × Nat)) : Prop :=
  ∃ n code, x.1.super.blockSize + c.path.length < n ∧
    createFile e c.path c.mode n x.1 = .ok (code, y.1) ∧
    y.2 = if 0 < code then x.2 ++ [(c.path, code.toNat)] else x.2

/-- The call is for a file, and its directory is safe for its name. -/
structure Creation.Safe (e : Env) (s : State) (c : Creation) : Prop where
  regular : Regular c.mode
  nul : 0 ∉ c.path
  closed : Closed c.path
  safe : SafeFor e s c.path

/-- **What has been created is there**: all created paths lead to the inodes that were returned for
them, which are distinct and new, and all old paths lead where they led. -/
structure AllThere (e : Env) (s t : State) (created : List (List UInt8 × Nat)) : Prop where
  wellFormed : WellFormed e t
  leads {p : List UInt8} {m : Nat} : (p, m) ∈ created → Yields e t p (.ok m)
  paths : (created.map Prod.fst).Nodup
  numbers : (created.map Prod.snd).Nodup
  old {p : List UInt8} {m : Nat} : Yields e s p (.ok m) →
    Yields e t p (.ok m) ∧ m ∉ created.map Prod.snd

section Runs

variable {created created' : List (List UInt8 × Nat)} {call : Creation} {calls : List Creation}
  (he : e.Reliable)

include he

/-- Nothing has been created. -/
theorem AllThere.asBefore (h : AllThere e s t created) (hb : AsBefore e t u) :
    AllThere e s u created where
  wellFormed := hb.wellFormed he h.wellFormed
  leads hp := hb.yields he h.wellFormed (h.leads hp)
  paths := h.paths
  numbers := h.numbers
  old hp := ⟨hb.yields he h.wellFormed (h.old hp).1, (h.old hp).2⟩

/-- **One file more.** -/
theorem AllThere.create (h : AllThere e s t created) (hsafe : call.Safe e t)
    (hn : t.super.blockSize + call.path.length < n) {code : Int}
    (hrun : createFile e call.path call.mode n t = .ok (code, u)) (hpos : 0 < code) :
    AllThere e s u (created ++ [(call.path, code.toNat)]) := by
  have hw := h.wellFormed
  obtain ⟨d, dir, c, hfound, hcreated, hmade⟩ :=
    createFile_made he hw.toOrderly hsafe.nul hsafe.safe hn hrun hpos
  have hold : ∀ {p m}, Yields e t p (.ok m) → Yields e u p (.ok m) := hcreated.old he hw hfound
  have hnew := hcreated.yields_of_closed he hw hfound hsafe.closed
  -- what had a path before was in use
  have hne : ∀ {p m}, Yields e t p (.ok m) → m ≠ code.toNat := by
    rintro p m hp rfl
    exact (hw.named (hw.toOrderly.named_of_yields he hp)).2 hcreated.free
  have hnumber : code.toNat ∉ created.map Prod.snd := by
    intro hmem
    obtain ⟨⟨p, m⟩, hmem, rfl⟩ := List.mem_map.mp hmem
    exact hne (h.leads hmem) rfl
  refine ⟨hmade.wellFormed he hw hfound hcreated hsafe.regular, fun hp => ?_, ?_, ?_, fun hp => ?_⟩
  · rcases List.mem_append.mp hp with hp | hp
    · exact hold (h.leads hp)
    · obtain ⟨rfl, rfl⟩ := Prod.mk.inj (List.mem_singleton.mp hp)
      exact hnew
  · rw [List.map_append, List.map_singleton]
    refine List.nodup_append.mpr ⟨h.paths, List.nodup_singleton _, fun p hp q hq heq => ?_⟩
    obtain rfl := heq.trans (List.mem_singleton.mp hq)
    obtain ⟨⟨p, m⟩, hmem, rfl⟩ := List.mem_map.mp hp
    exact hne (h.leads hmem) (Except.ok.inj ((hold (h.leads hmem)).unique hnew))
  · rw [List.map_append, List.map_singleton]
    refine List.nodup_append.mpr ⟨h.numbers, List.nodup_singleton _, fun m hm k hk heq => ?_⟩
    obtain rfl : m = code.toNat := heq.trans (List.mem_singleton.mp hk)
    exact hnumber hm
  · obtain ⟨hp, hmem⟩ := h.old hp
    refine ⟨hold hp, fun hm => ?_⟩
    rw [List.map_append, List.map_singleton] at hm
    rcases List.mem_append.mp hm with hm | hm
    · exact hmem hm
    · exact hne hp (List.mem_singleton.mp hm)

/-- **After any run of `CreateFile`, all that has been created is there.**  On a well-formed volume
with fewer than `2 ^ 31` inodes, let `CreateFile` be called any number of times, each time for a
file in a directory that is safe for its name.  Whatever the calls return, the volume is well formed
at the end, all paths for which a number has been returned lead to the inode with this number, no
path and no number has been used twice, and all paths that led to an inode at first lead to the same
inode. -/
theorem createFile_run (h : WellFormed e s) (hcount : s.super.sInodesCount < 2 ^ 31)
    (hrun : Run (Guarded (fun x c => c.Safe e x.1) (CreateStep e)) (s, []) calls (t, created)) :
    AllThere e s t created := by
  have hstart : AllThere e s s [] :=
    ⟨h, nofun, List.nodup_nil, List.nodup_nil, fun hp => ⟨hp, List.not_mem_nil⟩⟩
  refine (hrun.invariant (I := fun x => AllThere e s x.1 x.2 ∧ x.1.super.sInodesCount < 2 ^ 31)
    ⟨hstart, hcount⟩ ?_).1
  rintro ⟨t, created⟩ call ⟨u, created'⟩ ⟨h, hcount⟩ ⟨hsafe, n, code, hn, hrun, hcreated⟩
  obtain rfl : created' = _ := hcreated
  rcases createFile_cases he h.wellFormed.toOrderly hcount hn hrun with ⟨hneg, hb⟩ | hpos
  · rw [if_neg (by omega)]
    refine ⟨h.asBefore he hb, ?_⟩
    rw [hb.bits.super]
    exact hcount
  · rw [if_pos hpos]
    refine ⟨h.create he hsafe hn hrun hpos, ?_⟩
    obtain ⟨d, dir, c, -, hmade, -⟩ :=
      createFile_made he h.wellFormed.toOrderly hsafe.nul hsafe.safe hn hrun hpos
    rw [hmade.lasts.layout.geometry.inodesCount]
    exact hcount

end Runs

/-- The file `/a` in an empty root. -/
theorem createFile_run_dotted : ∃ t, AllThere (Env.ideal 0) Small.dotted t [([47, 97], 11)] := by
  have hval : (createFile (Env.ideal 0) [47, 97] 0x81A4 1028 Small.dotted).toOption.map Prod.fst =
      some 11 := by
    decide +kernel
  obtain ⟨⟨code, t⟩, hcreate, rfl⟩ := Option.map_eq_some_iff.mp hval
  have hsafe : Creation.Safe (Env.ideal 0) Small.dotted ⟨[47, 97], 0x81A4⟩ := by
    refine ⟨show (newInode 0x81A4).isDir = false by decide, by decide, ?_,
      Small.safeFor_dotted (p := []) (by decide)⟩
    intro p c hsplit
    obtain ⟨rfl, -⟩ : p = [] ∧ c = [97] := by
      have hsplit' : splitLast ([47, 97] : List UInt8) = some ([], [97]) := by decide
      rw [hsplit'] at hsplit
      cases hsplit
      exact ⟨rfl, rfl⟩
    nofun
  have hrun : Run (Guarded (fun x c => c.Safe (Env.ideal 0) x.1) (CreateStep (Env.ideal 0)))
      (Small.dotted, []) ([] ++ [⟨[47, 97], 0x81A4⟩]) (t, [([47, 97], 11)]) :=
    Run.nil.snoc ⟨hsafe, 1028, 11, by decide, eq_ok_of_toOption hcreate, rfl⟩
  exact ⟨t, createFile_run (Env.ideal_reliable 0) Small.wellFormed_dotted (by decide) hrun⟩

end InfoKernel.Ext2
