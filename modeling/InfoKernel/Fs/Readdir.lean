import InfoKernel.Fs.Listing

/-!
# Reading a directory entry by entry

`Readdir` counts the live records of a directory and returns the one with the index that it is
given.  It has a walk of its own through the blocks and along the records, which is not the one of
`FindEntry`; what the two find is the same table (`readdir_lists`).
-/

namespace InfoKernel.Ext2

open Lib

/-! ## `Readdir` -/

/-- `vfs::DirEntry`, but for its link. -/
structure DirEntry where
  name : Bytes
  inode : Nat
  type : UInt8

/-- The entry that is made of the record at `o`, in a page that may hold anything before. -/
def dirEntry (e : Env) (buf : Bytes) (o : Nat) : DirEntry where
  name := Function.update (copyIn e.behind 0 (direntNameLen buf o) (direntName buf o))
    (direntNameLen buf o) 0
  inode := direntInode buf o
  type := buf (o + 7)

/-- One turn of the walk of `Readdir` along the records of a block, with `entry_index`: the count
behind the block, or the record. -/
def readdirTurn (size index : Nat) (buf : Bytes) (st : Nat × Nat) :
    Except Fault (Turn (Nat × Nat) (Nat ⊕ Nat)) :=
  let (entryIndex, o) := st
  if o < size then
    if o + direntHeader ≤ size then
      if direntInode buf o ≠ 0 ∧ 0 < direntNameLen buf o then
        if entryIndex = index then
          .ok (.leave (.inr o))
        else
          .ok (.again (u32 (entryIndex + 1), o + direntRecLen buf o))
      else
        .ok (.again (entryIndex, o + direntRecLen buf o))
    else
      .error .outOfBounds
  else
    .ok (.leave (.inl entryIndex))

/-- The blocks of the directory: `left` are left, `block` is the next. -/
def readdirFrom (e : Env) (inode : Inode) (index n : Nat) : Nat → Nat → Nat → Io (Option DirEntry)
  | 0, _, _ => pure none
  | left + 1, block, entryIndex => do
      let blockNum ← getBlockNum e inode block
      if blockNum = 0 then
        readdirFrom e inode index n left (block + 1) entryIndex
      else
        match ← readBlock e blockNum with
        | none => readdirFrom e inode index n left (block + 1) entryIndex
        | some buf => do
            let sb ← super
            match Lib.loop (readdirTurn sb.blockSize index buf) .outOfFuel n (entryIndex, 0) with
            | .error f => throw f
            | .ok (.inr o) =>
                if !(← pageAlloc e) then
                  pure none
                else
                  pure (some (dirEntry e buf o))
            | .ok (.inl entryIndex) => readdirFrom e inode index n left (block + 1) entryIndex

/-- `ext2::Readdir`: the entry, or null. -/
def readdir (e : Env) (num index n : Nat) : Io (Option DirEntry) := do
  match ← readInode e num with
  | .error _ => pure none
  | .ok inode =>
      if !inode.isDir then
        pure none
      else
        let sb ← super
        if sb.blockSize = 0 then
          throw .divByZero
        else if !(← pageAlloc e) then
          pure none
        else
          readdirFrom e inode index n (dirBlockCount sb inode) 0 0

/-- The name of an entry, as a C string. -/
def DirEntry.cname (d : DirEntry) : List UInt8 := ((List.range 256).map d.name).takeWhile (· ≠ 0)

/-! ## In a block -/

namespace Dirent

variable {size index c : Nat} {buf buf' : Bytes} {o : Nat} {l : List Nat} {e : Env}

/-- The live records among these. -/
def live (buf : Bytes) (l : List Nat) : List Nat := l.filter fun o => Live buf o

/-- **The walk of `Readdir`** ends at the live record with the index, or behind the block. -/
theorem Tiles.readdir_loop {n : Nat} (h : Tiles size buf o l) (hn : l.length < n) (hc : c ≤ index)
    (hlt : c + (live buf l).length < 2 ^ 32) :
    Lib.loop (readdirTurn size index buf) .outOfFuel n (c, o) =
      .ok (match (live buf l)[index - c]? with
        | some a => .inr a
        | none => .inl (c + (live buf l).length)) := by
  obtain ⟨htiling, hfit⟩ := h
  obtain ⟨n, rfl⟩ := Nat.exists_eq_add_of_lt hn
  clear hn
  induction htiling generalizing c with
  | nil =>
      refine loop_of_leave ?_
      rw [readdirTurn, if_neg (Nat.lt_irrefl _)]
      rfl
  | @cons o l ho hrest ih =>
      obtain ⟨hhead, htail⟩ := List.forall_mem_cons.mp hfit
      have hroom := hhead.room
      have hle := hrest.le
      have hin : o + direntHeader ≤ size := by omega
      rw [List.length_cons, show l.length + 1 + n + 1 = l.length + n + 1 + 1 by omega]
      by_cases hlive : Live buf o
      · have hcons : live buf (o :: l) = o :: live buf l :=
          List.filter_cons_of_pos (by simpa using hlive)
        rw [hcons, List.length_cons] at hlt ⊢
        by_cases hhere : c = index
        · have hturn : readdirTurn size index buf (c, o) = .ok (.leave (.inr o)) := by
            simp only [readdirTurn, if_pos ho, if_pos hin, if_pos hhere]
            exact if_pos hlive
          rw [loop_of_leave hturn, hhere, Nat.sub_self]
          rfl
        · have hturn : readdirTurn size index buf (c, o) =
              .ok (.again (c + 1, o + direntRecLen buf o)) := by
            simp only [readdirTurn, if_pos ho, if_pos hin, if_neg hhere,
              u32_of_lt (show c + 1 < 2 ^ 32 by omega)]
            exact if_pos hlive
          rw [loop_of_again hturn, ih (c := c + 1) (by omega) (by omega) htail,
            show index - c = index - (c + 1) + 1 by omega, List.getElem?_cons_succ,
            show c + 1 + (live buf l).length = c + ((live buf l).length + 1) by omega]
      · have hcons : live buf (o :: l) = live buf l :=
          List.filter_cons_of_neg (by simpa using hlive)
        have hturn : readdirTurn size index buf (c, o) =
            .ok (.again (c, o + direntRecLen buf o)) := by
          simp only [readdirTurn, if_pos ho, if_pos hin]
          exact if_neg hlive
        rw [hcons] at hlt ⊢
        rw [loop_of_again hturn, ih hc hlt htail]

/-- The entry says what the record says. -/
theorem cname_dirEntry (hfit : Fit buf o) (hlive : Live buf o) :
    (dirEntry e buf o).cname = name buf o := by
  have hlen : direntNameLen buf o < 256 := (buf (o + 6)).toNat_lt
  obtain ⟨rest, hsplit⟩ : ∃ rest, List.range 256 =
      List.range (direntNameLen buf o) ++ direntNameLen buf o :: rest := by
    rw [show 256 = direntNameLen buf o + (255 - direntNameLen buf o + 1) by omega, List.range_add,
      List.range_succ_eq_map, List.map_cons, Nat.add_zero]
    exact ⟨_, rfl⟩
  have hname : (List.range (direntNameLen buf o)).map (dirEntry e buf o).name = name buf o := by
    refine List.map_congr_left fun i hi => ?_
    have hlt := List.mem_range.mp hi
    show Function.update _ _ _ i = _
    rw [Function.update_of_ne (Nat.ne_of_lt hlt), ← Nat.zero_add i, copyIn_of_mem hlt,
      Nat.zero_add]
  have hend : (dirEntry e buf o).name (direntNameLen buf o) = 0 := Function.update_self ..
  rw [DirEntry.cname, hsplit, List.map_append, List.map_cons, hname, hend,
    List.takeWhile_append_of_pos fun b hb => ?_, List.takeWhile_cons_of_neg (by decide),
    List.append_nil]
  exact decide_eq_true fun hzero : b = 0 => hfit.name hlive (hzero ▸ hb)

theorem live_congr (hsaid : ∀ a ∈ l, Says buf buf' a) : live buf' l = live buf l :=
  List.filter_congr fun a ha => decide_eq_decide.mpr (hsaid a ha).live

/-- The entries are read off the bytes of the block. -/
theorem Tiles.map_dirEntry_of_block (h : Tiles size buf o l)
    (hbytes : ∀ i, i < size → buf' i = buf i) :
    (live buf' l).map (dirEntry e buf') = (live buf l).map (dirEntry e buf) := by
  have hsame := h.same_of_block hbytes
  rw [live_congr fun a ha => (hsame a ha).toSays]
  refine List.map_congr_left fun a ha => ?_
  have ha := List.mem_of_mem_filter ha
  have hroom := (h.fit a ha).room
  have hend := (h.tiling.mem ha).2.2
  have hheader : direntHeader = 8 := rfl
  have hname : copyIn e.behind 0 (direntNameLen buf a) (direntName buf' a) =
      copyIn e.behind 0 (direntNameLen buf a) (direntName buf a) := by
    funext i
    by_cases hi : i < direntNameLen buf a
    · rw [← Nat.zero_add i, copyIn_of_mem hi, copyIn_of_mem hi, direntName, direntName,
        hbytes _ (by omega)]
    · rw [copyIn_of_not_mem (by omega), copyIn_of_not_mem (by omega)]
  rw [dirEntry, dirEntry, (hsame a ha).nameLen, (hsame a ha).inode, hname,
    hbytes (a + 7) (by omega)]

theorem map_entry_dirEntry (h : Tiles size buf o l) :
    ((live buf l).map (dirEntry e buf)).map (fun d => (d.cname, d.inode)) = entries buf l := by
  rw [List.map_map]
  refine List.map_congr_left fun a ha => ?_
  obtain ⟨ha, hlive⟩ := List.mem_filter.mp ha
  show ((dirEntry e buf a).cname, direntInode buf a) = _
  rw [cname_dirEntry (h.fit a ha) (of_decide_eq_true hlive), entry]

end Dirent

/-! ## On the volume -/

variable {κ : Type} {e : Env} {f : κ → Inode} {s t : State} {k : κ} {os : Nat → List Nat}

/-- The entries for the live records of block `i`, which begin at these offsets. -/
def blockRecords (e : Env) (f : κ → Inode) (s : State) (k : κ) (i : Nat) (l : List Nat) :
    List DirEntry :=
  (Dirent.live (s.block e (s.dataBlock e f k i)) l).map
    (dirEntry e (s.block e (s.dataBlock e f k i)))

/-- The entries for the live records of the directory, in their order. -/
def dirRecords (e : Env) (f : κ → Inode) (s : State) (k : κ) (os : Nat → List Nat) :
    List DirEntry :=
  (List.range (dirBlockCount s.super (f k))).flatMap fun i => blockRecords e f s k i (os i)

namespace Listing

variable (hd : Listing e f s k os)

include hd

/-- They say what the directory lists. -/
theorem map_dirRecords :
    (dirRecords e f s k os).map (fun d => (d.cname, d.inode)) = dirEntries e f s k os := by
  rw [dirRecords, List.map_flatMap]
  refine List.flatMap_congr fun i hi => ?_
  have hi := List.mem_range.mp hi
  by_cases hhole : s.dataBlock e f k i = 0
  · rw [hd.hole hi hhole]
    rfl
  · exact Dirent.map_entry_dirEntry (hd.tiles hi hhole)

theorem length_blockRecords {i : Nat} (hi : i < dirBlockCount s.super (f k)) :
    8 * (blockRecords e f s k i (os i)).length ≤ s.super.blockSize := by
  by_cases hhole : s.dataBlock e f k i = 0
  · rw [hd.hole hi hhole]
    exact Nat.zero_le _
  · have hle := (hd.tiles hi hhole).length_le
    have hfilter := List.length_filter_le
      (fun o => decide (Dirent.Live (s.block e (s.dataBlock e f k i)) o)) (os i)
    rw [blockRecords, List.length_map, Dirent.live]
    omega

/-- The live records of a directory can be counted in 32 bits. -/
theorem length_dirRecords : (dirRecords e f s k os).length < 2 ^ 32 := by
  have hsum : ∀ n, n ≤ dirBlockCount s.super (f k) →
      8 * ((List.range n).flatMap fun i => blockRecords e f s k i (os i)).length ≤
        n * s.super.blockSize := by
    intro n
    induction n with
    | zero => intro _; exact Nat.zero_le _
    | succ n ih =>
        intro hn
        have hlast := hd.length_blockRecords hn
        have hinit := ih (Nat.le_of_succ_le hn)
        rw [List.range_succ, List.flatMap_append, List.length_append, List.flatMap_singleton,
          Nat.add_mul, Nat.one_mul]
        omega
  have hall := hsum _ (Nat.le_refl _)
  have hlt : dirBlockCount s.super (f k) * s.super.blockSize < 2 ^ 32 := ceilDiv_mul_lt
  rw [dirRecords]
  omega

/-- The walk through the blocks, `left` of them from `block` on, when `c` live records have been
counted so far. -/
theorem readdirFrom_run (he : e.Reliable) (hsize : 0 < s.super.blockSize) {index n : Nat}
    (hn : s.super.blockSize < n) {left block c m : Nat}
    (hleft : block + left = dirBlockCount s.super (f k)) (hc : c ≤ index)
    (hlt : c + ((List.range' block left).flatMap fun i => blockRecords e f s k i (os i)).length <
      2 ^ 32) :
    ∃ c', readdirFrom e (f k) index n left block c (s.at m) =
      .ok (((List.range' block left).flatMap fun i => blockRecords e f s k i (os i))[index - c]?,
        s.at c') := by
  induction left generalizing block c m with
  | zero => exact ⟨m, rfl⟩
  | succ left ih =>
      have hblock : block < dirBlockCount s.super (f k) := by omega
      obtain ⟨c₁, hget⟩ := dataBlock_run he hsize hblock m
      rw [List.range'_succ, List.flatMap_cons] at hlt ⊢
      rw [readdirFrom, bind_apply_of_ok hget]
      by_cases hhole : s.dataBlock e f k block = 0
      · have hnil : blockRecords e f s k block (os block) = [] := by
          rw [hd.hole hblock hhole]
          rfl
        rw [hnil, List.nil_append] at hlt ⊢
        rw [if_pos hhole]
        exact ih (by omega) hc hlt
      have htiles := hd.tiles hblock hhole
      have hread : readBlock e (s.dataBlock e f k block) (s.at c₁) = .ok (some (copyOut e s.disk
          (s.origin e (s.dataBlock e f k block)) s.super.blockSize), s.at (c₁ + 1)) :=
        readBlock_run he _
      obtain ⟨buf, hbuf⟩ : ∃ buf, buf = copyOut e s.disk (s.origin e (s.dataBlock e f k block))
        s.super.blockSize := ⟨_, rfl⟩
      have hbytes : ∀ i, i < s.super.blockSize → buf i = s.block e (s.dataBlock e f k block) i := by
        intro i hi
        rw [hbuf, copyOut_of_lt hi]
        rfl
      have hbtiles := htiles.of_block hbytes
      have hrecords : blockRecords e f s k block (os block) =
          (Dirent.live buf (os block)).map (dirEntry e buf) :=
        (htiles.map_dirEntry_of_block hbytes).symm
      rw [hrecords, List.length_append, List.length_map] at hlt
      have hloop := hbtiles.readdir_loop (Nat.lt_trans (hbtiles.length_lt hsize) hn) hc
        (by omega)
      rw [if_neg hhole, bind_apply_of_ok hread, ← hbuf, hrecords]
      simp only []
      rw [bind_apply_of_ok (super_run _), show (s.at (c₁ + 1)).super = s.super from rfl, hloop]
      cases hfound : (Dirent.live buf (os block))[index - c]? with
      | some a =>
          obtain ⟨hidx, -⟩ := List.getElem?_eq_some_iff.mp hfound
          refine ⟨c₁ + 2, ?_⟩
          rw [List.getElem?_append_left (by rwa [List.length_map]), List.getElem?_map, hfound]
          show (pageAlloc e >>= _) (s.at (c₁ + 1)) = _
          rw [bind_apply_of_ok (pageAlloc_run he)]
          rfl
      | none =>
          have hidx := List.getElem?_eq_none_iff.mp hfound
          obtain ⟨c₂, hrest⟩ := @ih (block + 1) (c + (Dirent.live buf (os block)).length) (c₁ + 1)
            (by omega) (by omega) (by omega)
          refine ⟨c₂, ?_⟩
          rw [List.getElem?_append_right (by rwa [List.length_map]), List.length_map, Nat.sub_sub]
          exact hrest

end Listing

/-! ## What `Readdir` returns -/

/-- `Readdir` returns `r` whenever it has the fuel for a block. -/
def Returns (e : Env) (num : Nat) (s : State) (index : Nat) (r : Option DirEntry) : Prop :=
  ∀ n, s.super.blockSize < n → ∃ c, readdir e num index n s = .ok (r, s.at c)

/-- **`Readdir` returns the live records by their index.** -/
theorem readdir_returns (he : e.Reliable) (hsize : 0 < s.super.blockSize) {num : Nat}
    {inode : Inode} (hread : readInode e num s = .ok (.ok inode, t)) {os : Nat → List Nat}
    (hd : Listing e (fun _ : Unit => inode) s () os) (index : Nat) :
    Returns e num s index (dirRecords e (fun _ : Unit => inode) s () os)[index]? := by
  intro n hn
  obtain ⟨ht, -⟩ := (looks_readInode he num).again hread
  have hdir : inode.isDir = true := hd.isDir
  have hlength := hd.length_dirRecords
  rw [dirRecords, List.range_eq_range'] at hlength
  obtain ⟨c, hrun⟩ := hd.readdirFrom_run (m := t.clock + 1) he hsize hn (Nat.zero_add _)
    (Nat.zero_le index) (by rwa [Nat.zero_add])
  refine ⟨c, ?_⟩
  rw [readdir, bind_apply_of_ok hread, ht]
  simp only [hdir, Bool.not_true, Bool.false_eq_true, if_false]
  rw [bind_apply_of_ok (super_run _), show (s.at t.clock).super = s.super from rfl,
    if_neg hsize.ne', bind_apply_of_ok (pageAlloc_run he)]
  rw [dirRecords, List.range_eq_range']
  exact hrun

/-- What `Readdir` returns for the indices of a directory, with `entry i` for index `i`: there is an
entry for the `count` indices below the number of live records, different indices have entries with
different names, and the entries say what `FindEntry` says. -/
structure Enumerates (e : Env) (inode : Inode) (s : State) (num count : Nat)
    (entry : Nat → Option DirEntry) : Prop where
  returns (i : Nat) : Returns e num s i (entry i)
  some_iff (i : Nat) : (entry i).isSome = true ↔ i < count
  different {i j : Nat} {d d' : DirEntry} :
    entry i = some d → entry j = some d' → i ≠ j → d.cname ≠ d'.cname
  finds_iff (x : List UInt8) (n : Nat) :
    (∃ i d, entry i = some d ∧ d.cname = x ∧ d.inode = n) ↔ Answers e inode s x (some n)

/-- **`Readdir` and `FindEntry` see the same entries.**  For a directory whose blocks are tiled by
records, with holes and dead records in any places, `Readdir` gives the live records, one for each
index below their number, and a name has an inode in one of them exactly when `FindEntry` finds it
there. -/
theorem readdir_lists (he : e.Reliable) (hsize : 0 < s.super.blockSize) {num : Nat}
    {inode : Inode} (hread : readInode e num s = .ok (.ok inode, t)) {os : Nat → List Nat}
    (hd : Listing e (fun _ : Unit => inode) s () os) :
    ∃ entry, Enumerates e inode s num (dirEntries e (fun _ : Unit => inode) s () os).length
      entry := by
  have hmap := hd.map_dirRecords
  obtain ⟨l, hl⟩ : ∃ l, l = dirRecords e (fun _ : Unit => inode) s () os := ⟨_, rfl⟩
  rw [← hl] at hmap
  have hnames : (l.map DirEntry.cname).Nodup := by
    have hdistinct : ((dirEntries e (fun _ : Unit => inode) s () os).map Prod.fst).Nodup :=
      hd.distinct
    rwa [← hmap, List.map_map] at hdistinct
  refine ⟨fun i => l[i]?, ⟨fun i => hl ▸ readdir_returns he hsize hread hd i, fun i => ?_,
    fun {i j d d'} hi hj hne heq => hne ?_, fun x n => ?_⟩⟩
  · rw [← hmap, List.length_map, Option.isSome_iff_ne_none, ne_eq, List.getElem?_eq_none_iff,
      Nat.not_le]
  · obtain ⟨hilt, rfl⟩ := List.getElem?_eq_some_iff.mp hi
    obtain ⟨hjlt, rfl⟩ := List.getElem?_eq_some_iff.mp hj
    exact (@List.Nodup.getElem_inj_iff _ _ hnames _ (by simpa using hilt) _
      (by simpa using hjlt)).mp
      (by simpa using heq)
  · have hanswers := hd.answers he hsize x
    have hlookup : (dirEntries e (fun _ : Unit => inode) s () os).lookup x = some n ↔
        ∃ (i : Nat) (d : DirEntry), l[i]? = some d ∧ d.cname = x ∧ d.inode = n := by
      rw [lookup_eq_some_iff hd.distinct, ← hmap, List.mem_map]
      constructor
      · rintro ⟨d, hmem, heq⟩
        obtain ⟨i, hi⟩ := List.mem_iff_getElem?.mp hmem
        exact ⟨i, d, hi, congrArg Prod.fst heq, congrArg Prod.snd heq⟩
      · rintro ⟨i, d, hi, rfl, rfl⟩
        exact ⟨d, List.mem_of_getElem? hi, rfl⟩
    rw [← hlookup]
    constructor
    · intro h
      rwa [h] at hanswers
    · intro h
      exact hanswers.unique h

/-- The two entries of a directory with a dead record between them. -/
theorem readdir_lists_several : ∃ inode t entry,
    readInode (Env.ideal 0) 2 Small.several = .ok (.ok inode, t) ∧
      Enumerates (Env.ideal 0) inode Small.several 2 2 entry := by
  obtain ⟨inode, c, hread, hsame⟩ := Small.readInode_several
  obtain ⟨hd, hentries⟩ := Small.listing_several.of_same (g := fun _ => inode)
    (by decide) hsame
  obtain ⟨entry, hall⟩ := readdir_lists (Env.ideal_reliable 0) (by decide) hread hd
  rw [hentries, Small.entries_several] at hall
  exact ⟨inode, _, entry, hread, hall⟩

end InfoKernel.Ext2
