import InfoKernel.Fs.Carrying
import InfoKernel.Fs.RemoveEntry
import Mathlib.Data.Set.Card

/-!
# Deleting a file

`DeleteFile` takes the entry out of its directory, frees the blocks of the file and marks its inode
free.  It does not look at `i_links_count`: a file with one name is gone, and its blocks are free as
far as `TruncateInode` frees them; a file with more names is freed as well, and the other names are
left with a free inode (`deleteFile_right_iff`).

The path itself never leads anywhere afterwards.  The entries on the way to the directory lead to
directories, so none of them is the one that has been taken out.
-/

namespace InfoKernel.Ext2

open Lib

variable {e : Env} {s t u : State} {p c : List UInt8} {d num k n : Nat} {inode dir x y : Inode}
  {q q' : FilePos}

/-! ## What it should do -/

/-- The entries that name inode `num`: directories that a path leads to, and names in them. -/
def namesOf (e : Env) (s : State) (num : Nat) : Set (Nat × List UInt8) :=
  {q | Named e s q.1 ∧ ∃ x t, readInode e q.1 s = .ok (.ok x, t) ∧ Answers e x s q.2 (some num)}

/-- The file is still there, with `links` links: its inode can be read, and its blocks are where
they were and hold what they held. -/
def Intact (e : Env) (s : State) (inode : Inode) (num links : Nat) (t : State) : Prop :=
  ∃ x u, readInode e num t = .ok (.ok x, u) ∧ x.iLinksCount = links ∧ x.iSize = inode.iSize ∧
    ∀ q, (s.shape Unit).Pos q → t.refAt e x q = s.refAt e inode q ∧
      (s.refAt e inode q ≠ 0 → ∀ j, j < s.super.blockSize →
        t.block e (s.refAt e inode q) j = s.block e (s.refAt e inode q) j)

/-- **What deleting a name of a file with `k` names should do**: the path leads nowhere; the inode
and all its blocks are marked free exactly if it was the only name; and otherwise the other names
lead to the file, which has one link less. -/
structure DeleteRight (e : Env) (s : State) (path : List UInt8) (name : Nat × List UInt8)
    (inode : Inode) (num k : Nat) (t : State) : Prop where
  gone : ∃ code, Yields e t path (.error code)
  freed : (t.bit e .inode (num - 1) = false ∧ ∀ q, (s.shape Unit).Pos q →
    s.refAt e inode q ≠ 0 → t.bit e .block (s.refAt e inode q) = false) ↔ k = 1
  others : 1 < k → ∀ r ∈ namesOf e s num, r ≠ name →
    r ∈ namesOf e t num ∧ Intact e s inode num (k - 1) t

/-! ## Tidy volumes -/

/-- Inode `n` is that of a directory that a path leads to, or of the file. -/
structure Owner (e : Env) (s : State) (num n : Nat) (x : Inode) : Prop where
  named : Named e s n
  read : ∃ t, readInode e n s = .ok (.ok x, t)
  kind : x.isDir = true ∨ n = num

/-- **A well-formed volume** with the file `num`: the counts are right and the inode tables lie
apart, what a path leads to is an inode in use, the directories that a path leads to are well
formed, and no block of theirs or of the file is metadata, is free or is referred to twice.  The
blocks of data of the file lie inside its size. -/
structure Tidy (e : Env) (s : State) (num : Nat) : Prop where
  counted : Counted e s
  tables : Tables e s
  short : s.super.blockSize ≤ 32768
  named {n : Nat} : Named e s n → s.HasInode n ∧ s.bit e .inode (n - 1) = true
  listing {n : Nat} {x : Inode} {t : State} : Named e s n → readInode e n s = .ok (.ok x, t) →
    x.isDir = true → ∃ os, Listing e (fileOf x) s () os
  unshared {n m : Nat} {x y : Inode} {q q' : FilePos} : Owner e s num n x → Owner e s num m y →
    (s.shape Unit).Pos q → (s.shape Unit).Pos q' → s.refAt e x q ≠ 0 →
    s.refAt e x q = s.refAt e y q' → n = m ∧ q = q'
  held {n : Nat} {x : Inode} {q : FilePos} : Owner e s num n x → (s.shape Unit).Pos q →
    s.refAt e x q ≠ 0 → Held e s (s.refAt e x q)
  inside {x : Inode} {t : State} {q : FilePos} : readInode e num s = .ok (.ok x, t) →
    (s.shape Unit).Leaf q → s.refAt e x q ≠ 0 →
    posBlock s.super.ptrsPerBlock (q.1.2, q.2) * s.super.blockSize < x.iSize

/-- **A name of a file**: the path `p` leads to the directory `d`, in which `c` is one of the `k`
names of inode `num`, that of a file with `k` links. -/
structure NameOf (e : Env) (s : State) (p c : List UInt8) (d num k : Nat)
    (inode : Inode) : Prop where
  tidy : Tidy e s num
  absolute : p.head? = some slash
  closed : p = [slash] ∨ p.getLast? ≠ some slash
  nonempty : c ≠ []
  length_le : c.length ≤ 255
  noSlash : slash ∉ c
  leads : Yields e s p (.ok d)
  entry : (d, c) ∈ namesOf e s num
  read : ∃ t, readInode e num s = .ok (.ok inode, t)
  file : inode.isDir = false
  names : (namesOf e s num).ncard = k
  pos : 0 < k
  links : inode.iLinksCount = k

/-- The blocks with the data of the file. -/
def DataOf (e : Env) (s : State) (x : Inode) (z : Nat) : Prop :=
  ∃ q, (s.shape Unit).Leaf q ∧ s.refAt e x q = z ∧ z ≠ 0

namespace Tidy

variable (h : Tidy e s num)

include h

theorem size_pos : 0 < s.super.blockSize := h.counted.roles.size_pos

theorem tree (he : e.Reliable) : Tree e s where
  size_pos := h.size_pos
  readable hn := by
    obtain ⟨y, c, hrun, -⟩ := h.tables.readInode_run he (h.named hn).1
    exact ⟨y, _, hrun⟩
  listing hn hread hdir := h.listing hn hread hdir

/-- The blocks of the file, on their own. -/
theorem occupied (hx : Owner e s num num x) : Occupied e x s where
  roles := h.counted.roles
  unshared _ _ hp hq hne heq := (h.unshared hx hx hp hq hne heq).2
  held hq hne := h.held hx hq hne
  inside hq hne := by
    obtain ⟨t, hread⟩ := hx.read
    exact h.inside hread hq hne

/-- The blocks of a file are not those with inodes. -/
theorem outside_table (hx : Owner e s num n x) (hd : s.HasInode d) :
    Outside e (fun z => z = s.inodeBlock e d) s x := by
  intro q hq hne
  have hdata := (h.held hx hq hne).data
  exact ⟨hdata, fun heq => hdata (heq ▸ h.tables.inodeBlock_meta hd)⟩

/-- Different files have different blocks. -/
theorem outside_data (hx : Owner e s num n x) (hd : Owner e s num d dir) (hnd : n ≠ d) :
    Outside e (DataOf e s dir) s x := by
  intro q hq hne
  refine ⟨(h.held hx hq hne).data, ?_⟩
  rintro ⟨q', hq', heq, -⟩
  exact hnd (h.unshared hx hd hq hq'.pos hne heq.symm).1

/-- Only an inode that is in use has files. -/
theorem hasInode (hx : Owner e s num n x) : s.HasInode n := (h.named hx.named).1

end Tidy

/-! ## The four steps -/

/-- **What `DeleteFile` has changed** when it returns 0: the entry is no longer in the directory
`d`, the inode is marked free, and of its blocks those that `TruncateInode` comes to.  All other
inodes and the blocks of all other files and directories are as they were. -/
structure Deleted (e : Env) (s : State) (c : List UInt8) (d num : Nat) (dir inode : Inode)
    (t : State) : Prop where
  lasts : Lasts e (fun z => z = s.inodeBlock e d ∨ DataOf e s dir z) s t
  parent : (t.inodeAt e d).Same (dir.setMtime 0)
  inodes {m : Nat} : s.HasInode m → m ≠ d → (t.inodeAt e m).Same (s.inodeAt e m)
  entries : ∃ os os', Listing e (fileOf dir) s () os ∧
    Listing e (fileOf (dir.setMtime 0)) t () os' ∧
    (dirEntries e (fileOf dir) s () os).Perm
      ((c, num) :: dirEntries e (fileOf (dir.setMtime 0)) t () os')
  marked : t.bit e .inode (num - 1) = false
  blocks {q : FilePos} : (s.shape Unit).Pos q → s.refAt e inode q ≠ 0 →
    (t.bit e .block (s.refAt e inode q) = false ↔ Passes s (fileBlockCount s.super inode) q)

/-- The path in two, as `DeleteFile` takes it apart. -/
theorem splitLast_joinPath (habs : p.head? = some slash) (hslash : slash ∉ c) :
    ∃ p', splitLast (joinPath p c) = some (p', c) ∧ parentOf p' = p := by
  have hsplit : ∀ p' : List UInt8, splitLast (p' ++ slash :: c) = some (p', c) := by
    intro p'
    have hall : ∀ b ∈ c.reverse, decide (b ≠ slash) = true := fun b hb =>
      decide_eq_true fun heq => hslash (heq ▸ List.mem_reverse.mp hb)
    have hname : ((p' ++ slash :: c).reverse.takeWhile (· ≠ slash)).reverse = c := by
      rw [List.reverse_append, List.reverse_cons, List.append_assoc,
        List.takeWhile_append_of_pos hall, List.singleton_append,
        List.takeWhile_cons_of_neg (by simp), List.append_nil, List.reverse_reverse]
    rw [splitLast, if_pos (List.mem_append_right _ List.mem_cons_self)]
    simp only [hname]
    rw [List.length_append, List.length_cons, show p'.length + (c.length + 1) - c.length - 1 =
      p'.length by omega, List.take_left]
  by_cases hroot : p = [slash]
  · refine ⟨[], ?_, ?_⟩
    · rw [joinPath, if_pos hroot]
      exact hsplit []
    · rw [parentOf, if_pos rfl, hroot]
  · refine ⟨p, ?_, ?_⟩
    · rw [joinPath, if_neg hroot]
      exact hsplit p
    · rw [parentOf, if_neg fun hnil => by rw [hnil] at habs; cases habs]

/-- A path is not longer than one with a name behind it. -/
theorem length_le_joinPath (p c : List UInt8) : p.length ≤ (joinPath p c).length := by
  rw [joinPath]
  split
  · rename_i hroot
    rw [hroot]
    exact Nat.le_add_left _ _
  · rw [List.length_append]
    exact Nat.le_add_right _ _

/-- A file is not the directory. -/
theorem NameOf.ne (h : NameOf e s p c d num k inode) (hd : Owner e s num d dir)
    (hdir : dir.isDir = true) : num ≠ d := by
  rintro rfl
  obtain ⟨v, hread⟩ := h.read
  obtain ⟨v', hread'⟩ := hd.read
  rw [hread] at hread'
  cases hread'
  rw [h.file] at hdir
  cases hdir

/-- What `TruncateInode` comes to depends on the superblock only. -/
theorem passes_congr {b : Nat} (h : t.super = s.super) : Passes t b q ↔ Passes s b q := by
  have hshape : t.shape Unit = s.shape Unit := by rw [State.shape, State.shape, h]
  constructor
  · intro hp
    exact ⟨hp.third, fun hq => h ▸ hp.data (hshape.symm ▸ hq)⟩
  · intro hp
    exact ⟨hp.third, fun hq => h.symm ▸ hp.data (hshape.symm ▸ hq)⟩

/-- A file whose blocks are as they were, in a state with the same bits. -/
theorem Occupied.carry {A : Nat → Prop} (h : Occupied e x s) (hbits : SameBits e s t)
    (hlasts : Lasts e A s t) (ho : Outside e A s x) : Occupied e x t := by
  have hshape : t.shape Unit = s.shape Unit := State.shape_congr hlasts.layout.geometry
  have href : ∀ {q}, (s.shape Unit).Pos q → t.refAt e x q = s.refAt e x q := fun hq =>
    hlasts.refAt_eq (fun hp => ho _ hp.pos) ⟨rfl, rfl, fun _ => rfl⟩ hq
  refine ⟨hlasts.layout.roles h.roles, fun q q' hq hq' hne heq => ?_, fun {q} hq hne => ?_,
    fun {q} hq hne => ?_⟩
  · rw [hshape] at hq hq'
    have hne : t.refAt e x q ≠ 0 := hne
    have heq : t.refAt e x q = t.refAt e x q' := heq
    rw [href hq] at hne heq
    rw [href hq'] at heq
    exact h.unshared q q' hq hq' hne heq
  · rw [hshape] at hq
    rw [href hq] at hne ⊢
    have hheld := h.held hq hne
    refine ⟨?_, (hbits.bit hheld.group).trans hheld.used, fun hm =>
      hheld.data (hlasts.layout.meta_of hm)⟩
    rw [hlasts.layout.perGroup, hlasts.layout.groups]
    exact hheld.group
  · rw [hshape] at hq
    rw [href hq.pos] at hne
    rw [hbits.super]
    exact h.inside hq hne

/-- **The entry has been taken out**, and of the blocks of data only those of the directory have
changed. -/
structure Removed (e : Env) (s : State) (c : List UInt8) (num : Nat) (dir : Inode) (t : State) :
    Prop where
  groups : 0 < s.groups .block
  bits : SameBits e s t
  lasts : Lasts e (DataOf e s dir) s t
  refs {q : FilePos} : (s.shape Unit).Pos q → t.refAt e dir q = s.refAt e dir q
  entries : ∃ os os', Listing e (fileOf dir) s () os ∧ Listing e (fileOf dir) t () os' ∧
    (dirEntries e (fileOf dir) s () os).Perm ((c, num) :: dirEntries e (fileOf dir) t () os')

section Steps

variable (he : e.Reliable)

include he

/-- **The first step**: the call of `RemoveEntry`, at any time. -/
theorem Tidy.removeEntry_run (h : Tidy e s num) (hd : Owner e s num d dir)
    (hname : Answers e dir s c (some num)) (hn : s.super.blockSize < n) (t₀ : Nat) :
    ∃ t, removeEntry e dir c n (s.at t₀) = .ok (0, t) ∧ Removed e s c num dir t := by
  obtain ⟨v, hread⟩ := hd.read
  have hsize := h.size_pos
  obtain ⟨os, hlist⟩ := h.listing hd.named hread hname.isDir
  have hmem : (c, num) ∈ dirEntries e (fileOf dir) s () os :=
    (lookup_eq_some_iff hlist.distinct).mp ((hlist.answers he hsize c).unique hname)
  have hlist' : Listing e (fileOf dir) (s.at t₀) () os :=
    ⟨hlist.isDir, hlist.tiles, hlist.hole, hlist.distinct⟩
  have hshort := h.short
  obtain ⟨num', i, buf, l, t, hu, hrun⟩ := Ext2.removeEntry_run (s := s.at t₀) he hsize
    (show s.super.blockSize < 2 ^ 16 by omega) hlist' (List.mem_map_of_mem hmem) hn
  have hu : Unlinked e (fileOf dir) s () os c num' i buf l t :=
    ⟨hu.lt, hu.mapped, hu.tiles, hu.entries, hu.written.super, hu.written.noSpace, hu.written.self,
      hu.written.of_ne⟩
  -- the block that has been written holds data of the directory
  have hleaf := filePos_leaf hsize (dirBlock_in_range hsize hu.lt).1 ()
  have hheld : Held e s (s.dataBlock e (fileOf dir) () i) := h.held hd hleaf.pos hu.mapped
  have hinner : ∀ {p}, (s.shape Unit).Inner p → s.refAt e dir p ≠ 0 →
      ∀ {j}, j < dirBlockCount s.super dir → s.refAt e dir p ≠ s.dataBlock e (fileOf dir) () j := by
    intro p hp hne j hj heq
    have hleaf' := filePos_leaf hsize (dirBlock_in_range hsize hj).1 ()
    obtain ⟨-, rfl⟩ := h.unshared hd hd hp.pos hleaf'.pos hne heq
    exact hp.not_leaf hleaf'
  have hbits := hu.written.sameBits h.counted.roles hheld.data
  have hlasts := Lasts.of_written hu.written hbits.layout
  have hloses := hu.loses hsize hlist fun j hj hne hpoints => by
    obtain ⟨p, hp, heq⟩ := hpoints
    have hne' : s.refAt e dir p ≠ 0 := fun hzero => hne (heq.symm.trans hzero)
    exact hinner hp hne' hj heq
  obtain ⟨os', hlist'', -, hperm⟩ := hloses
  -- it was the entry for the file
  have hsame : num' = num := by
    have hmem' : (c, num') ∈ dirEntries e (fileOf dir) s () os :=
      hperm.mem_iff.mpr List.mem_cons_self
    have hlookup := (lookup_eq_some_iff hlist.distinct).mpr hmem'
    rw [(lookup_eq_some_iff hlist.distinct).mpr hmem] at hlookup
    exact (Option.some.inj hlookup).symm
  subst hsame
  refine ⟨t, hrun, Nat.zero_lt_of_lt hheld.group, hbits, hlasts.mono ?_, fun {q} hq => ?_, os, os',
    hlist, hlist'', hperm⟩
  · rintro y rfl
    exact ⟨_, hleaf, rfl, hu.mapped⟩
  · refine hlasts.refAt_eq (fun hp hne => ⟨(h.held hd hp.pos hne).data, fun heq => ?_⟩)
      ⟨rfl, rfl, fun _ => rfl⟩ hq
    exact hinner hp hne hu.lt heq

/-- **The other steps**: truncating the file, freeing its inode and storing the directory. -/
theorem Tidy.rest_ends (h : Tidy e s num) (hfile : Owner e s num num inode)
    (hd : Owner e s num d dir) (hnd : num ≠ d) (hr : Removed e s c num dir t) :
    Ends (do
      let _ ← truncateInode e inode
      freeInode e num
      let _ ← writeInode e d (dir.setMtime 0)
      pure (0 : Int)) t (fun _ => False) fun code u =>
        code = 0 ∧ Deleted e s c d num dir inode u := by
  have hl := hr.bits.layout
  have hcount := hr.bits.counted h.counted
  have hbit := (h.named hfile.named).2
  have hgroup : (num - 1) / Kind.inode.perGroup s.super < s.groups .inode := (h.hasInode hfile).2
  -- the blocks of the file are freed
  have hocc : Occupied e inode t :=
    (h.occupied hfile).carry hr.bits hr.lasts (h.outside_data hfile hd hnd)
  obtain ⟨r, u, htrunc, -, -, hfreed⟩ := (hocc.truncateInode_run he).resolve_right (by
    rintro ⟨-, y, hy, hundesc⟩
    obtain ⟨q, hq, rfl⟩ := List.mem_map.mp hy
    obtain ⟨hpos, hne, -⟩ := mem_released_iff.mp hq
    exact hundesc (hcount.fits (hocc.held hpos hne).group))
  refine .step htrunc ?_
  have hlu := hl.trans hfreed.layout
  -- the inode is marked free
  have hused : u.bit e .inode (num - 1) = true := by
    rw [hfreed.bit (by rwa [hl.perGroup, hl.groups]), if_neg (fun hk => by cases hk.1),
      hr.bits.bit hgroup, hbit]
  have hfits : u.Fits ((num - 1) / Kind.inode.perGroup u.super) := by
    rw [hlu.perGroup, State.Fits, hlu.geometry.blockSize]
    exact h.counted.fits hgroup
  obtain ⟨_, v, hfree, hflip⟩ := (freeInode_ends he (hlu.roles h.counted.roles)
    (hlu.hasInode.mpr (h.hasInode hfile)) hfits hused).exists_ok
  refine .step hfree ?_
  have hlv := hlu.trans hflip.layout
  -- the directory is stored
  obtain ⟨w, hwrite, hbits, hlasts, hparent, hothers⟩ := (h.tables.of_layout hlv).writeInode_run he
    (hlv.roles h.counted.roles) (hlv.hasInode.mpr (h.hasInode hd)) (dir.setMtime 0)
  refine .step hwrite (.pure ⟨rfl, ?_⟩)
  have hblocks : 0 < t.groups .block := by
    rw [hl.groups]
    exact hr.groups
  have htv : ∀ {A}, Lasts e A t v := (hfreed.lasts hblocks).trans (Lasts.of_flip hflip
    (hlu.hasInode.mpr (h.hasInode hfile)).2)
  have hsv : Lasts e (DataOf e s dir) s v := hr.lasts.trans htv
  have htable : v.inodeBlock e d = s.inodeBlock e d := hlv.inodeBlock (h.hasInode hd)
  rw [htable] at hlasts
  have href : ∀ {q}, (s.shape Unit).Pos q → t.refAt e inode q = s.refAt e inode q := fun hq =>
    hr.lasts.refAt_eq (fun hp => h.outside_data hfile hd hnd _ hp.pos) ⟨rfl, rfl, fun _ => rfl⟩ hq
  constructor
  case lasts => exact (hsv.mono fun _ => .inr).trans (hlasts.mono fun _ => .inl)
  case parent => exact hparent
  case inodes =>
    intro m hm hne i hi
    have hdata : ¬ DataOf e s dir (s.inodeBlock e m) := by
      rintro ⟨q, hq, heq, hz⟩
      exact (h.held hd hq.pos (heq ▸ hz)).data (heq ▸ h.tables.inodeBlock_meta hm)
    exact (hothers m (hlv.hasInode.mpr hm) hne i hi).trans
      (h.tables.inodeAt_of_lasts hsv hm hdata i hi)
  case entries =>
    obtain ⟨os, os', hlist, hlist', hperm⟩ := hr.entries
    have houtside : Outside e (fun z => z = s.inodeBlock e d) t dir := by
      intro q hq hne
      rw [State.shape_congr hl.geometry] at hq
      rw [hr.refs hq] at hne ⊢
      obtain ⟨hdata, hA⟩ := h.outside_table hd (h.hasInode hd) q hq hne
      exact ⟨fun hm => hdata (hl.meta_of hm), hA⟩
    have hsize : 0 < t.super.blockSize := by
      rw [hl.geometry.blockSize]
      exact h.size_pos
    obtain ⟨hlist'', hsame⟩ :=
      (htv.trans hlasts).listing hsize houtside (Inode.alike_setMtime dir 0) hlist'
    exact ⟨os, os', hlist, hlist'', hsame ▸ hperm⟩
  case marked =>
    rw [hbits.bit (by rwa [hlv.perGroup, hlv.groups]),
      hflip.bit (by rwa [hlu.perGroup, hlu.groups]),
      if_pos ⟨rfl, rfl⟩]
  case blocks =>
    intro q hq hne
    have hheld := h.held hfile hq hne
    have hgroup' := hheld.group
    have hpos : (t.shape Unit).Pos q := by rwa [State.shape_congr hl.geometry]
    have hmem := hocc.mem_releasedBlocks hpos (by rwa [href hq])
    rw [href hq, passes_congr hr.bits.super, hr.bits.super] at hmem
    rw [hbits.bit (by rwa [hlv.perGroup, hlv.groups]),
      hflip.bit (by rwa [hlu.perGroup, hlu.groups]),
      if_neg (fun hk => by cases hk.1), hfreed.bit (by rwa [hl.perGroup, hl.groups]), ← hmem]
    split
    · rename_i hin
      exact iff_of_true rfl hin.2
    · rename_i hout
      rw [hr.bits.bit hgroup', hheld.used]
      exact iff_of_false (by decide) fun hin => hout ⟨rfl, hin⟩

/-- **What `DeleteFile` does.** -/
theorem NameOf.deleteFile_ends (h : NameOf e s p c d num k inode)
    (hn : s.super.blockSize + (joinPath p c).length < n) :
    Ends (deleteFile e (joinPath p c) n) s (fun _ => False) fun code t =>
      (p.length < 256 → code = 0) ∧ (code = 0 → ∃ dir, Owner e s num d dir ∧
        Answers e dir s c (some num) ∧ Deleted e s c d num dir inode t) := by
  obtain ⟨hnamed, dir, v, hdir, hname⟩ := h.entry
  have hd : Owner e s num d dir := ⟨hnamed, ⟨v, hdir⟩, .inl hname.isDir⟩
  have hfile : Owner e s num num inode := ⟨hnamed.entry hdir hname, h.read, .inr rfl⟩
  have hlen := length_le_joinPath p c
  -- the file and its inode
  obtain ⟨c₁, hpath⟩ := ((h.tidy.tree he).yields_join_iff he h.absolute h.closed h.nonempty
    h.length_le h.noSlash num).mpr ⟨d, dir, v, h.leads, hdir, hname.isDir, hname⟩ n hn
  obtain ⟨w, hread⟩ := h.read
  obtain ⟨c₂, hread'⟩ := ((looks_readInode he num).again hread).2 c₁
  rw [deleteFile]
  refine .step hpath (.step hread' ?_)
  simp only [h.file, Bool.false_eq_true, if_false]
  obtain ⟨p', hsplit, hparent⟩ := splitLast_joinPath h.absolute h.noSlash
  rw [hsplit]
  simp only []
  by_cases hlong : p'.length ≥ 256
  · rw [if_pos hlong]
    refine .pure ⟨fun hlt => ?_, fun hcode => absurd hcode (by decide)⟩
    have hne : p' ≠ [] := List.ne_nil_of_length_pos (by omega)
    rw [← hparent, parentOf, if_neg hne] at hlt
    omega
  have hshort := h.length_le
  rw [if_neg hlong, if_neg (by omega), hparent]
  -- the directory
  obtain ⟨c₃, hlook⟩ := h.leads n (by omega)
  obtain ⟨c₄, hlook'⟩ := ((looks_lookupPath he p n).again hlook).2 c₂
  obtain ⟨c₅, hdir'⟩ := ((looks_readInode he d).again hdir).2 c₄
  refine .step hlook' (.step hdir' ?_)
  obtain ⟨t, hremove, hremoved⟩ := h.tidy.removeEntry_run he hd hname (n := n) (by omega) c₅
  refine .step hremove ?_
  rw [if_neg (fun hne => hne rfl)]
  refine (h.tidy.rest_ends he hfile hd (h.ne hd hname.isDir) hremoved).mono fun code u hu => ?_
  exact ⟨fun _ => hu.1, fun _ => ⟨dir, hd, hname, hu.2⟩⟩

end Steps

/-! ## Afterwards -/

section Afterwards

variable (he : e.Reliable)

include he

/-- An inode that a path has led to can be read, and is as it was, but for the directory, whose time
has been set. -/
theorem Deleted.readInode_run (h : Tidy e s num) (hd : Owner e s num d dir)
    (hdel : Deleted e s c d num dir inode t) (hn : Named e s n)
    (hread : ∃ v, readInode e n s = .ok (.ok x, v)) :
    ∃ y v, readInode e n t = .ok (.ok y, v) ∧ y.Alike x ∧
      (n ≠ d → y.Same x) ∧ (n = d → y.Same (dir.setMtime 0)) := by
  obtain ⟨v, hread⟩ := hread
  obtain ⟨y, v', hy, hsame⟩ := (h.tables.of_layout hdel.lasts.layout).readInode_run he
    (hdel.lasts.layout.hasInode.mpr (h.named hn).1)
  refine ⟨y, _, hy, ?_⟩
  by_cases hnd : n = d
  · subst hnd
    obtain ⟨w, hdir⟩ := hd.read
    rw [hdir] at hread
    cases hread
    have hset : y.Same (dir.setMtime 0) := fun i hi => (hsame i hi).trans (hdel.parent i hi)
    exact ⟨hset.alike.trans (Inode.alike_setMtime dir 0), fun hne => absurd rfl hne, fun _ => hset⟩
  · obtain ⟨x', v'', hx, hsame'⟩ := h.tables.readInode_run he (h.named hn).1
    rw [hx] at hread
    cases hread
    have hyx : y.Same x := fun i hi => (hsame i hi).trans
      ((hdel.inodes (h.named hn).1 hnd i hi).trans (hsame' i hi).symm)
    exact ⟨hyx.alike, fun _ => hyx, fun heq => absurd heq hnd⟩

/-- The directory answers as before for all other names, and it does not find this one. -/
theorem Deleted.answers (h : Tidy e s num) (hdel : Deleted e s c d num dir inode t)
    (hy : y.Same (dir.setMtime 0)) : Answers e y t c none ∧
      ∀ {name r}, name ≠ c → Answers e dir s name r → Answers e y t name r := by
  obtain ⟨os, os', hlist, hlist', hperm⟩ := hdel.entries
  have hsize' : 0 < t.super.blockSize := by
    rw [hdel.lasts.layout.geometry.blockSize]
    exact h.size_pos
  obtain ⟨hlist', hsame⟩ := hlist'.of_same (g := fileOf y) hsize' hy
  rw [← hsame] at hperm
  constructor
  · have hnot := (distinct_cons.mp (hlist.distinct.perm hperm)).1
    have hans := hlist'.answers he hsize' c
    rwa [lookup_isNone_iff.mpr hnot] at hans
  · intro name r hne hans
    refine hlist.answers_carry he hlist' h.size_pos hsize' ?_ hans
    rw [lookup_perm hlist.distinct hperm name, List.lookup_cons, beq_false_of_ne hne]

/-- All other directories answer as before. -/
theorem Deleted.answers_of_ne {name : List UInt8} {m : Nat} (h : Tidy e s num)
    (hd : Owner e s num d dir) (hdel : Deleted e s c d num dir inode t) (hn : Named e s n)
    (hread : ∃ v, readInode e n s = .ok (.ok x, v)) (hnd : n ≠ d) (hyx : y.Alike x)
    (hans : Answers e x s name (some m)) : Answers e y t name (some m) := by
  obtain ⟨v, hx⟩ := hread
  obtain ⟨os, hlist⟩ := h.listing hn hx hans.isDir
  have howner : Owner e s num n x := ⟨hn, ⟨v, hx⟩, .inl hans.isDir⟩
  have houtside : Outside e (fun z => z = s.inodeBlock e d ∨ DataOf e s dir z) s x := by
    intro q hq hne
    obtain ⟨hdata, htable⟩ := h.outside_table howner (h.hasInode hd) q hq hne
    exact ⟨hdata, fun hor => hor.elim htable (h.outside_data howner hd hnd q hq hne).2⟩
  obtain ⟨hlist', hsame⟩ := hdel.lasts.listing h.size_pos houtside hyx hlist
  have hsize' : 0 < t.super.blockSize := by
    rw [hdel.lasts.layout.geometry.blockSize]
    exact h.size_pos
  exact hlist.answers_carry he hlist' h.size_pos hsize' (by rw [hsame]) hans

/-- **The path leads nowhere any more.** -/
theorem Deleted.gone (h : NameOf e s p c d num k inode) (hd : Owner e s num d dir)
    (hname : Answers e dir s c (some num)) (hdel : Deleted e s c d num dir inode t) :
    Yields e t (joinPath p c) (.error (-5)) := by
  have htidy := h.tidy
  have hreads := fun {n x} => hdel.readInode_run he htidy hd (n := n) (x := x)
  -- the way to the directory
  obtain ⟨root, v, hroot⟩ := (htidy.tree he).readable .root
  obtain ⟨r, hr, hfst⟩ := ((htidy.tree he).yields_iff he hroot h.absolute).mp h.leads
  obtain ⟨pos, rfl, rfl⟩ : ∃ pos, r = .ok pos ∧ pos.1 = d := by
    cases r with
    | error code => cases hfst
    | ok pos => exact ⟨pos, rfl, Except.ok.inj hfst⟩
  obtain ⟨-, w, hpos⟩ := hr.named .root ⟨v, hroot⟩
  obtain rfl : pos.2 = dir := by
    obtain ⟨w', hdir⟩ := hd.read
    rw [hdir] at hpos
    exact (Except.ok.inj (congrArg Prod.fst (Except.ok.inj hpos))).symm
  have hread : ∀ {n x v}, Named e s n → readInode e n s = .ok (.ok x, v) →
      ∃ y w, readInode e n t = .ok (.ok y, w) := by
    intro n x v hn hx
    obtain ⟨y, w, hy, -⟩ := hreads hn ⟨v, hx⟩
    exact ⟨y, w, hy⟩
  have hentry : ∀ {n m x y z v v' w name}, Named e s n → readInode e n s = .ok (.ok x, v) →
      readInode e n t = .ok (.ok y, v') → Answers e x s name (some m) →
      readInode e m s = .ok (.ok z, w) → z.isDir = true → Answers e y t name (some m) := by
    intro n m x y z v v' w name hn hx hy hans hz hzdir
    obtain ⟨y', w', hy', halike, -, hset⟩ := hreads hn ⟨v, hx⟩
    rw [hy] at hy'
    cases hy'
    by_cases hnd : n = pos.1
    · subst hnd
      obtain ⟨w'', hdir⟩ := hd.read
      rw [hdir] at hx
      cases hx
      refine (hdel.answers he htidy (hset rfl)).2 ?_ hans
      -- the entry that has been taken out led to no directory
      rintro rfl
      obtain rfl := Option.some.inj (hans.unique hname)
      obtain ⟨u', hread'⟩ := h.read
      rw [hread'] at hz
      cases hz
      rw [h.file] at hzdir
      cases hzdir
    · exact hdel.answers_of_ne he htidy hd hn ⟨v, hx⟩ hnd halike hans
  obtain ⟨root', v', hroot', -⟩ := hreads .root ⟨v, hroot⟩
  obtain ⟨y, ⟨w', hy⟩, hfollows⟩ :=
    hr.carry hread hentry hname.isDir .root ⟨v, hroot⟩ ⟨v', hroot'⟩
  -- the last name is not found
  obtain ⟨y', w'', hy', -, -, hset⟩ := hreads hd.named hd.read
  rw [hy] at hy'
  cases hy'
  have hnone := (hdel.answers he htidy (hset rfl)).1
  have hlen := h.length_le
  have hlast : Follows e t (rootIno, root') (components p.tail ++ [c]) (.error (-5)) :=
    Follows.append_iff.mpr (.inl ⟨_, hfollows, .missing (by omega) hnone⟩)
  rw [← components_joinPath h.absolute h.closed h.nonempty h.noSlash] at hlast
  exact fun _ hn => hlast.lookupPath he hroot' (head?_joinPath h.absolute c) hn

/-- The inode is not written, so the number of links stays. -/
theorem Deleted.not_intact {links : Nat} (h : NameOf e s p c d num k inode)
    (hd : Owner e s num d dir) (hdir : dir.isDir = true) (hdel : Deleted e s c d num dir inode t)
    (hfile : Named e s num) (hlinks : links ≠ k) : ¬ Intact e s inode num links t := by
  rintro ⟨x, v, hread, hcount, -⟩
  obtain ⟨y, w, hy, -, hsame, -⟩ := hdel.readInode_run he h.tidy hd hfile h.read
  rw [hread] at hy
  cases hy
  exact hlinks (hcount.symm.trans ((hsame (h.ne hd hdir)).iLinksCount.trans h.links))

omit he in
/-- The inode and its blocks are marked free exactly if `TruncateInode` comes to all of them. -/
theorem Deleted.freed_iff (h : NameOf e s p c d num k inode) (hfile : Named e s num)
    (hdel : Deleted e s c d num dir inode t) :
    (t.bit e .inode (num - 1) = false ∧ ∀ q, (s.shape Unit).Pos q → s.refAt e inode q ≠ 0 →
      t.bit e .block (s.refAt e inode q) = false) ↔ Truncatable e inode s := by
  have howner : Owner e s num num inode := ⟨hfile, h.read, .inr rfl⟩
  rw [(h.tidy.occupied howner).truncatable_iff, and_iff_right hdel.marked]
  constructor
  · intro hall q hq hne
    have hfits := h.tidy.counted.fits (h.tidy.held howner hq hne).group
    exact ⟨(hdel.blocks hq hne).mp (hall q hq hne), hfits⟩
  · intro hall q hq hne
    exact (hdel.blocks hq hne).mpr (hall q hq hne).1

/-- **When `DeleteFile` does what it should.**  On a well-formed volume it returns, for every name
of a file with as many links as names; and when it returns 0, it has done what it should exactly if
this was the only name and `TruncateInode` frees all blocks of the file. -/
theorem deleteFile_right_iff (h : NameOf e s p c d num k inode)
    (hn : s.super.blockSize + (joinPath p c).length < n) :
    Ends (deleteFile e (joinPath p c) n) s (fun _ => False) fun code t => code = 0 →
      (DeleteRight e s (joinPath p c) (d, c) inode num k t ↔ k = 1 ∧ Truncatable e inode s) := by
  refine (h.deleteFile_ends he hn).mono fun code t hends hcode => ?_
  obtain ⟨dir, hd, hname, hdel⟩ := hends.2 hcode
  obtain ⟨v, hdir⟩ := hd.read
  have hfile : Named e s num := hd.named.entry hdir hname
  have hfreed := hdel.freed_iff h hfile
  constructor
  · intro hright
    have hk : k = 1 := by
      by_contra hne
      have hpos := h.pos
      have hmore : 1 < k := by omega
      obtain ⟨r, hr, hother⟩ := Set.exists_ne_of_one_lt_ncard (h.names ▸ hmore) (d, c)
      exact hdel.not_intact he h hd hname.isDir hfile (by omega) (hright.others hmore r hr hother).2
    exact ⟨hk, hfreed.mp (hright.freed.mpr hk)⟩
  · rintro ⟨hk, htrunc⟩
    exact ⟨⟨_, hdel.gone he h hd hname⟩, iff_of_true (hfreed.mpr htrunc) hk, fun hmore => by omega⟩

end Afterwards

/-! ## A volume with a file of one name, or of two -/

namespace Small

/-- The small volume with the root directory and the empty file 10.  The directory has the name `a`
for the file, and the name `b` for inode `m`. -/
def linked (m : Nat) : State :=
  (volume 0 0xFF).put (store (volume 0 0xFF).disk [(7168, 4, 10), (7172, 2, 512), (7174, 1, 1),
    (7176, 1, 97), (7680, 4, m), (7684, 2, 512), (7686, 1, 1), (7688, 1, 98), (5248, 2, 0x41ED),
    (5252, 4, 1024), (5288, 4, 7), (6272, 2, 0x81A4), (6298, 2, if m = 0 then 1 else 2)])

/-- The inode of the file. -/
def linkedInode (m : Nat) : Inode :=
  ⟨store (fun _ => 0) [(0, 2, 0x81A4), (26, 2, if m = 0 then 1 else 2)]⟩

/-- The names of the file: the second one is a dead record for `m = 0`. -/
def linkedNames (m : Nat) : List (List UInt8 × Nat) :=
  if m = 0 then [([97], 10)] else [([97], 10), ([98], 10)]

theorem sameBits_linked (m : Nat) : SameBits (Env.ideal 0) (volume 0 0xFF) (linked m) :=
  sameBits_store (by simp)

theorem blockSize_linked (m : Nat) : (linked m).super.blockSize = 1024 := by
  rw [(sameBits_linked m).super, blockSize_volume Nat.two_pos]

theorem tables_linked (m : Nat) : Tables (Env.ideal 0) (linked m) :=
  tables_volume.of_layout (sameBits_linked m).layout

theorem held_linked (m : Nat) : Held (Env.ideal 0) (linked m) 7 := by
  have hl := (sameBits_linked m).layout
  have hgroup : 7 / Kind.block.perGroup (volume 0 0xFF).super < (volume 0 0xFF).groups .block := by
    decide
  refine ⟨by rwa [hl.perGroup, hl.groups], ?_, fun hm => ?_⟩
  · rw [(sameBits_linked m).bit hgroup]
    exact bit_volume Nat.two_pos (by decide)
  · exact absurd (meta_volume Nat.two_pos (hl.meta_of hm)) (by decide)

section Linked

variable {m n : Nat} {t : State} {inode : Inode} (hm : m = 0 ∨ m = 10)

include hm

theorem entries_linked : dirEntries (Env.ideal 0) (fileOf dirInode) (linked m) ()
    (fun _ => [0, 512]) = linkedNames m := by
  rcases hm with rfl | rfl <;> decide

theorem listing_linked : Listing (Env.ideal 0) (fileOf dirInode) (linked m) () fun _ =>
    [0, 512] := by
  have hcount : dirBlockCount (linked m).super dirInode = 1 := by
    rw [(sameBits_linked m).super]
    decide
  have hblock : (linked m).dataBlock (Env.ideal 0) (fileOf dirInode) () 0 = 7 := by
    rcases hm with rfl | rfl <;> decide
  refine ⟨by decide, fun {i} hi _ => ?_, fun {i} hi hhole => ?_, ?_⟩
  · rw [hcount, Nat.lt_one_iff] at hi
    rw [hi, hblock, blockSize_linked]
    have hrec : ∀ o ∈ [0, 512], direntRecLen ((linked m).block (Env.ideal 0) 7) o = 512 := by
      rcases hm with rfl | rfl <;> decide
    have hlen : ∀ o ∈ [0, 512], direntNameLen ((linked m).block (Env.ideal 0) 7) o = 1 := by
      rcases hm with rfl | rfl <;> decide
    have hname : ∀ o ∈ [0, 512], 0 ∉ Dirent.name ((linked m).block (Env.ideal 0) 7) o := by
      rcases hm with rfl | rfl <;> decide
    refine ⟨.cons (by decide) ?_, fun o ho => ⟨?_, fun _ => hname o ho⟩⟩
    swap
    · rw [hlen o ho, hrec o ho]
      decide
    rw [hrec 0 (by decide)]
    refine .cons (by decide) ?_
    rw [hrec 512 (by decide)]
    exact .nil
  · rw [hcount, Nat.lt_one_iff] at hi
    rw [hi, hblock] at hhole
    cases hhole
  · rw [entries_linked hm, Distinct]
    rcases hm with rfl | rfl <;> decide

/-- The inodes of the directory and of the file. -/
theorem readInode_linked (hn : n = 2 ∨ n = 10) :
    ∃ y c, readInode (Env.ideal 0) n (linked m) = .ok (.ok y, (linked m).at c) ∧
      y.Same (if n = 2 then dirInode else linkedInode m) := by
  have hinode : (linked m).HasInode n := by
    rcases hn with rfl | rfl <;> rcases hm with rfl | rfl <;> exact ⟨by decide, by decide⟩
  obtain ⟨y, c, hrun, hsame⟩ := (tables_linked m).readInode_run (Env.ideal_reliable 0) hinode
  refine ⟨y, c, hrun, fun i hi => (hsame i hi).trans ?_⟩
  have hall : ∀ i < 128, ((linked m).inodeAt (Env.ideal 0) n).bytes i =
      (if n = 2 then dirInode else linkedInode m).bytes i := by
    rcases hn with rfl | rfl <;> rcases hm with rfl | rfl <;> decide +kernel
  exact hall i hi

theorem same_of_read (hn : n = 2 ∨ n = 10)
    (h : readInode (Env.ideal 0) n (linked m) = .ok (.ok inode, t)) :
    inode.Same (if n = 2 then dirInode else linkedInode m) := by
  obtain ⟨y, c, hrun, hsame⟩ := readInode_linked hm hn
  rw [hrun] at h
  cases h
  exact hsame

theorem isDir_of_read (hn : n = 2 ∨ n = 10)
    (h : readInode (Env.ideal 0) n (linked m) = .ok (.ok inode, t)) :
    inode.isDir = true ↔ n = 2 := by
  rw [(same_of_read hm hn h).isDir]
  rcases hn with rfl | rfl
  · rw [if_pos rfl]
    exact iff_of_true (by decide) rfl
  · rcases hm with rfl | rfl <;> exact iff_of_false (by decide) (by decide)

/-- What the directory answers. -/
theorem answers_linked (h : readInode (Env.ideal 0) 2 (linked m) = .ok (.ok inode, t))
    (x : List UInt8) : Answers (Env.ideal 0) inode (linked m) x ((linkedNames m).lookup x) := by
  have hsize : 0 < (linked m).super.blockSize := by
    rw [blockSize_linked]
    decide
  obtain ⟨hd, hentries⟩ := (listing_linked hm).of_same (g := fileOf inode) hsize
    (same_of_read hm (.inl rfl) h)
  have hans := hd.answers (Env.ideal_reliable 0) hsize x
  rwa [hentries, entries_linked hm] at hans

/-- Whatever is named is the directory or the file, and only the file by an entry. -/
theorem eq_of_answers (hn : n = 2 ∨ n = 10)
    (h : readInode (Env.ideal 0) n (linked m) = .ok (.ok inode, t)) {x : List UInt8} {r : Nat}
    (hans : Answers (Env.ideal 0) inode (linked m) x (some r)) : n = 2 ∧ r = 10 ∧
      (x, 10) ∈ linkedNames m := by
  obtain rfl := (isDir_of_read hm hn h).mp hans.isDir
  have hlookup := (hans.unique (answers_linked hm h x)).symm
  have hdistinct : Distinct (linkedNames m) := entries_linked hm ▸ (listing_linked hm).distinct
  have hmem := (lookup_eq_some_iff hdistinct).mp hlookup
  have hten : ∀ p ∈ linkedNames m, p.2 = 10 := by
    rcases hm with rfl | rfl <;> decide
  obtain rfl : r = 10 := hten _ hmem
  exact ⟨rfl, rfl, hmem⟩

theorem named_linked (h : Named (Env.ideal 0) (linked m) n) : n = 2 ∨ n = 10 := by
  induction h with
  | root => exact .inl rfl
  | entry _ hread hans ih => exact .inr (eq_of_answers hm ih hread hans).2.1

/-- The directory has one block, block 7, and the file has none. -/
theorem ref_linked {q : FilePos} (hn : n = 2 ∨ n = 10)
    (h : readInode (Env.ideal 0) n (linked m) = .ok (.ok inode, t))
    (hq : ((linked m).shape Unit).Pos q) (hne : (linked m).refAt (Env.ideal 0) inode q ≠ 0) :
    n = 2 ∧ q = (((), 0), []) ∧ (linked m).refAt (Env.ideal 0) inode q = 7 := by
  have hsame := same_of_read hm hn h
  have hroot : (linked m).refAt (Env.ideal 0) inode q =
      walk ((linked m).words (Env.ideal 0))
        ((if n = 2 then dirInode else linkedInode m).iBlock q.1.2) q.2 :=
    congrArg (fun b => walk ((linked m).words (Env.ideal 0)) b q.2) (hsame.iBlock hq.root)
  rcases hn with rfl | rfl
  · have hne' : ((linked m).forest (Env.ideal 0) fun _ : Unit => dirInode).ref q ≠ 0 :=
      fun hzero => hne (hroot.trans hzero)
    obtain ⟨hpos, hseven⟩ := ref_dirInode hq hne'
    exact ⟨rfl, hpos, hroot.trans hseven⟩
  · refine absurd ?_ hne
    have hblocks : ∀ slot < 15, (linkedInode m).iBlock slot = 0 := by
      rcases hm with rfl | rfl <;> decide
    rw [hroot, if_neg (by decide), hblocks _ hq.root, walk_zero]

theorem tidy_linked : Tidy (Env.ideal 0) (linked m) 10 where
  counted := (sameBits_linked m).counted counted_small
  tables := tables_linked m
  short := by
    rw [blockSize_linked]
    decide
  named hn := by
    rcases named_linked hm hn with rfl | rfl <;> rcases hm with rfl | rfl <;>
      exact ⟨⟨by decide, by decide⟩, by decide⟩
  listing hn hread hdir := by
    obtain rfl := (isDir_of_read hm (named_linked hm hn) hread).mp hdir
    have hsize : 0 < (linked m).super.blockSize := by
      rw [blockSize_linked]
      decide
    exact ⟨_, ((listing_linked hm).of_same (g := fileOf _) hsize
      (same_of_read hm (.inl rfl) hread)).1⟩
  unshared hx hy hq hq' hne heq := by
    obtain ⟨v, hx'⟩ := hx.read
    obtain ⟨w, hy'⟩ := hy.read
    obtain ⟨rfl, rfl, -⟩ := ref_linked hm (named_linked hm hx.named) hx' hq hne
    obtain ⟨rfl, rfl, -⟩ := ref_linked hm (named_linked hm hy.named) hy' hq' fun hzero =>
      hne (heq.trans hzero)
    exact ⟨rfl, rfl⟩
  held hx hq hne := by
    obtain ⟨v, hx'⟩ := hx.read
    rw [(ref_linked hm (named_linked hm hx.named) hx' hq hne).2.2]
    exact held_linked m
  inside hread hq hne := by
    cases (ref_linked hm (.inr rfl) hread hq.pos hne).1

theorem namesOf_linked : namesOf (Env.ideal 0) (linked m) 10 =
    if m = 0 then {(2, [97])} else {(2, [97]), (2, [98])} := by
  have hmem : ∀ d x, (d, x) ∈ namesOf (Env.ideal 0) (linked m) 10 ↔
      d = 2 ∧ (x, 10) ∈ linkedNames m := by
    intro d x
    constructor
    · rintro ⟨hn, y, t, hy, hans⟩
      obtain ⟨hd, -, hx⟩ := eq_of_answers hm (named_linked hm hn) hy hans
      exact ⟨hd, hx⟩
    · rintro ⟨rfl, hx⟩
      obtain ⟨root, c, hroot, -⟩ := readInode_linked hm (.inl rfl)
      have hdistinct : Distinct (linkedNames m) := entries_linked hm ▸ (listing_linked hm).distinct
      have hans := answers_linked hm hroot x
      rw [(lookup_eq_some_iff hdistinct).mpr hx] at hans
      exact ⟨.root, root, _, hroot, hans⟩
  ext ⟨d, x⟩
  rw [hmem]
  rcases hm with rfl | rfl <;> simp [linkedNames, and_or_left]

/-- The name `a` in the root directory. -/
theorem nameOf_linked : ∃ inode, NameOf (Env.ideal 0) (linked m) [47] [97] 2 10
    (if m = 0 then 1 else 2) inode ∧ Truncatable (Env.ideal 0) inode (linked m) := by
  obtain ⟨root, c, hroot, -⟩ := readInode_linked hm (.inl rfl)
  obtain ⟨inode, c', hread, hsame⟩ := readInode_linked hm (.inr rfl)
  have htidy := tidy_linked hm
  have hnone : ∀ {q}, ((linked m).shape Unit).Pos q →
    (linked m).refAt (Env.ideal 0) inode q = 0 := by
    intro q hq
    by_contra hne
    cases (ref_linked hm (.inr rfl) hread hq hne).1
  have hdir : inode.isDir = false := by
    rw [Bool.eq_false_iff]
    exact fun hdir => absurd ((isDir_of_read hm (.inr rfl) hread).mp hdir) (by decide)
  refine ⟨inode, ⟨htidy, rfl, .inl rfl, by decide, by decide, by decide, ?_, ?_, ⟨_, hread⟩, hdir,
    ?_, ?_, ?_⟩, fun hq _ _ => hnone hq, .inr fun q hq => hnone hq.pos, fun hq hne =>
      absurd (hnone hq) hne⟩
  · exact ((htidy.tree (Env.ideal_reliable 0)).yields_iff (Env.ideal_reliable 0) hroot rfl).mpr
      ⟨.ok (2, root), .nil, rfl⟩
  · rw [namesOf_linked hm]
    split
    · exact Set.mem_singleton _
    · exact Set.mem_insert _ _
  · rw [namesOf_linked hm]
    split
    · exact Set.ncard_singleton _
    · exact Set.ncard_pair (by decide)
  · split <;> decide
  · rw [hsame.iLinksCount]
    rcases hm with rfl | rfl <;> decide

end Linked

end Small

/-- The only name of the file: all is right. -/
theorem deleteFile_right_single : ∃ inode t,
    deleteFile (Env.ideal 0) [47, 97] 1100 (Small.linked 0) = .ok (0, t) ∧
      DeleteRight (Env.ideal 0) (Small.linked 0) [47, 97] (2, [97]) inode 10 1 t := by
  obtain ⟨inode, h, htrunc⟩ := Small.nameOf_linked (m := 0) (.inl rfl)
  have hn : (Small.linked 0).super.blockSize + (joinPath [47] [97]).length < 1100 := by decide
  obtain ⟨code, t, hrun, hcode, -⟩ := (h.deleteFile_ends (Env.ideal_reliable 0) hn).exists_ok
  obtain rfl := hcode (by decide)
  have hright := (deleteFile_right_iff (Env.ideal_reliable 0) h hn).of_result hrun rfl
  exact ⟨inode, t, hrun, hright.mpr ⟨rfl, htrunc⟩⟩

/-- One of two names: the inode is marked free. -/
theorem deleteFile_wrong_double : ∃ inode t,
    NameOf (Env.ideal 0) (Small.linked 10) [47] [97] 2 10 2 inode ∧
      deleteFile (Env.ideal 0) [47, 97] 1100 (Small.linked 10) = .ok (0, t) ∧
        ¬ DeleteRight (Env.ideal 0) (Small.linked 10) [47, 97] (2, [97]) inode 10 2 t := by
  obtain ⟨inode, h, htrunc⟩ := Small.nameOf_linked (m := 10) (.inr rfl)
  have hn : (Small.linked 10).super.blockSize + (joinPath [47] [97]).length < 1100 := by
    decide
  obtain ⟨code, t, hrun, hcode, hends⟩ := (h.deleteFile_ends (Env.ideal_reliable 0) hn).exists_ok
  obtain rfl := hcode (by decide)
  obtain ⟨dir, hd, hname, hdel⟩ := hends rfl
  obtain ⟨v, hdir⟩ := hd.read
  refine ⟨inode, t, h, hrun, fun hright => ?_⟩
  have hone := hright.freed.mp ((hdel.freed_iff h (hd.named.entry hdir hname)).mpr htrunc)
  exact absurd hone (by decide)

end InfoKernel.Ext2
