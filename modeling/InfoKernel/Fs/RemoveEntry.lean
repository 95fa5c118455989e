import InfoKernel.Fs.Listing

/-!
# Removing an entry from a directory

`RemoveEntry` takes the record of a name out of its block: the record in front of it takes over its
bytes, or, where there is none, its inode becomes 0.  Either way the records still tile the block
and say what they said, without that entry (`Dirent.Tiles.unlink`).

The block is the only one that changes.  It holds a live record, so no other block of the directory
is the same one, and where no pointer block of the directory is used for records as well, the
directory lists one entry less (`removeEntry_right`).
-/

namespace InfoKernel.Ext2

open Lib

variable {κ : Type} {e : Env} {f : κ → Inode} {s t : State} {k : κ} {os : Nat → List Nat}
  {x : List UInt8}

/-! ## In a block -/

namespace Dirent

variable {size : Nat} {buf : Bytes} {o a : Nat} {l front back : List Nat}

/-- The block without the record at `a`, which lies behind the one at `prev`. -/
def unlinked (buf : Bytes) (prev : Option Nat) (a : Nat) : Bytes :=
  match prev with
  | some prev => setRecLen buf prev (direntRecLen buf prev + direntRecLen buf a)
  | none => setLE buf a 4 0

theorem foldl_last {α : Type*} (l : List α) (c : Option α) :
    l.foldl (fun _ a => some a) c = l.getLast?.or c := by
  induction l using List.reverseRecOn with
  | nil => rfl
  | append_singleton l a _ => rw [List.foldl_append, List.getLast?_concat]; rfl

/-- **The walk of `RemoveEntry`** ends at the first live record with the name. -/
theorem Tiles.remove_loop {n : Nat} (h : Tiles size buf o l) (hn : l.length < n) :
    Lib.loop (removeTurn size x buf) .outOfFuel n (none, o) = .ok ((find buf l x).map
      (unlinked buf (l.takeWhile fun a => ¬ (Live buf a ∧ name buf a = x)).getLast?)) := by
  have hloop := @Tiling.loop_find _ _ _ _ _ _ _ _ (removeTurn size x buf) Fault.outOfFuel n
    (fun (c : Option Nat) a => (c, a)) (fun _ a => some a) (fun a => Live buf a ∧ name buf a = x) _
    (unlinked buf) h.tiling (fun c => ?_) (fun c a ha => ?_) hn none
  · rwa [foldl_last, Option.or_none] at hloop
  · show removeTurn size x buf (c, size) = _
    simp only [removeTurn, if_neg (Nat.lt_irrefl _)]
  · show removeTurn size x buf (c, a) = _
    obtain ⟨-, hlt, hend⟩ := h.tiling.mem ha
    have hroom := (h.fit a ha).room
    have hfits : a + direntHeader ≤ size := by omega
    simp only [removeTurn, if_pos hlt, if_pos hfits, matches_eq (h.fit a ha)]
    by_cases hm : Live buf a ∧ name buf a = x
    · rw [if_pos hm, decide_eq_true hm]
      cases c <;> rfl
    · rw [if_neg hm, decide_eq_false hm]

/-- The first record of a block becomes a dead one. -/
theorem Tiles.unlink_first (h : Tiles size buf o (a :: back)) :
    Tiles size (unlinked buf none a) o (a :: back) ∧
      entries (unlinked buf none a) (a :: back) = entries buf back := by
  have hheader : direntHeader = 8 := rfl
  have hbytes : ∀ i, a + 4 ≤ i → unlinked buf none a i = buf i := fun i hi =>
    setLE_of_not_mem (by omega)
  have hinode : direntInode (unlinked buf none a) a = 0 := getLE_setLE_of_lt (by decide)
  have hdead : ¬ Live (unlinked buf none a) a := fun hl => hl.1 hinode
  have hlen : direntNameLen (unlinked buf none a) a = direntNameLen buf a := by
    rw [direntNameLen, direntNameLen, hbytes _ (by omega)]
  have hrec : direntRecLen (unlinked buf none a) a = direntRecLen buf a :=
    getLE_congr fun i hi _ => hbytes i (by omega)
  have hroom := (h.fit a List.mem_cons_self).room
  have hback : ∀ b ∈ back, Same buf (unlinked buf none a) b := by
    intro b hb
    obtain ⟨rfl, -, -⟩ := h.tiling.eq_of_cons
    have hle := h.tiling.behind hb
    exact same_of_bytes fun i hi _ => hbytes i (by omega)
  refine ⟨⟨h.tiling.congr fun b hb => ?_, fun b hb => ?_⟩, ?_⟩
  · rcases List.mem_cons.mp hb with rfl | hb
    · exact hrec
    · exact (hback b hb).recLen
  · rcases List.mem_cons.mp hb with rfl | hb
    · exact ⟨by rwa [hlen, hrec], fun hl => absurd hl hdead⟩
    · exact (hback b hb).fit (h.fit b (List.mem_cons_of_mem _ hb))
  · rw [entries_cons_dead hdead, entries_says fun b hb => (hback b hb).toSays]

/-- The record in front takes over the bytes of the record. -/
theorem Tiles.unlink_behind {p : Nat} (h : Tiles size buf o (front ++ p :: a :: back))
    (hsize : size < 2 ^ 16) :
    Tiles size (unlinked buf (some p) a) o (front ++ p :: back) ∧
      entries (unlinked buf (some p) a) (front ++ p :: back) =
        entries buf (front ++ p :: back) := by
  have hp : p ∈ front ++ p :: a :: back := List.mem_append_right _ List.mem_cons_self
  obtain ⟨hhere, hfront, -⟩ := h.tiling.splice
  obtain ⟨-, -, hrest⟩ := hhere.eq_of_cons
  obtain ⟨ha, -, -⟩ := hrest.eq_of_cons
  have hend := (hrest.mem List.mem_cons_self).2.2
  have hroom := (h.fit p hp).room
  have hheader : direntHeader = 8 := rfl
  have hbytes : ∀ i, i < p + 4 ∨ p + 6 ≤ i → unlinked buf (some p) a i = buf i := fun i hi =>
    setRecLen_of_not_mem hi
  have hrec : direntRecLen (unlinked buf (some p) a) p = direntRecLen buf p + direntRecLen buf a :=
    direntRecLen_set (by omega)
  have hsaid : Says buf (unlinked buf (some p) a) p := says_setRecLen
  have hbefore : ∀ b ∈ front, Same buf (unlinked buf (some p) a) b := by
    intro b hb
    have hle := hfront b hb
    have hroom := (h.fit b (List.mem_append_left _ hb)).room
    exact same_of_bytes fun i _ hi => hbytes i (.inl (by omega))
  have hbehind : ∀ b ∈ back, Same buf (unlinked buf (some p) a) b := by
    intro b hb
    have hle := hhere.behind (List.mem_cons_of_mem a hb)
    exact same_of_bytes fun i hi _ => hbytes i (.inr (by omega))
  have hall : ∀ b ∈ front ++ p :: back, Says buf (unlinked buf (some p) a) b := by
    intro b hb
    rcases List.mem_append.mp hb with hb | hb
    · exact (hbefore b hb).toSays
    · rcases List.mem_cons.mp hb with rfl | hb
      · exact hsaid
      · exact (hbehind b hb).toSays
  refine ⟨⟨h.tiling.merge (fun b hb => (hbefore b hb).recLen) hrec
    fun b hb => (hbehind b hb).recLen, fun b hb => ?_⟩, entries_says hall⟩
  rcases List.mem_append.mp hb with hb | hb
  · exact (hbefore b hb).fit (h.fit b (List.mem_append_left _ hb))
  · rcases List.mem_cons.mp hb with rfl | hb
    · exact hsaid.fit (h.fit b hp) (by rw [hrec]; omega)
    · refine (hbehind b hb).fit (h.fit b ?_)
      exact List.mem_append_right _ (List.mem_cons_of_mem _ (List.mem_cons_of_mem _ hb))

/-- **A record is taken out of a block**: the records still tile it, and the other entries stay. -/
theorem Tiles.unlink (h : Tiles size buf o (front ++ a :: back)) (hsize : size < 2 ^ 16) :
    ∃ l, Tiles size (unlinked buf front.getLast? a) o l ∧
      entries (unlinked buf front.getLast? a) l = entries buf front ++ entries buf back := by
  rcases List.eq_nil_or_concat' front with rfl | ⟨front, p, rfl⟩
  · exact ⟨_, h.unlink_first⟩
  · rw [List.append_assoc, List.singleton_append] at h
    obtain ⟨htiles, hentries⟩ := h.unlink_behind hsize
    rw [List.getLast?_concat]
    refine ⟨_, htiles, ?_⟩
    rw [hentries, ← entries_append, List.append_assoc, List.singleton_append]

/-- What is found, with the records in front of it. -/
theorem find_split (h : find buf l x = some a) : ∃ front back, l = front ++ a :: back ∧
    l.takeWhile (fun a => ¬ (Live buf a ∧ name buf a = x)) = front ∧ entry buf a =
      (x, direntInode buf a) ∧
      Live buf a := by
  obtain ⟨hmatch, front, back, rfl, hfront⟩ := List.find?_eq_some_iff_append.mp h
  obtain ⟨hlive, hname⟩ := of_decide_eq_true hmatch
  refine ⟨front, back, rfl, ?_, by rw [entry, hname], hlive⟩
  rw [List.takeWhile_append_of_pos fun b hb => by simpa using hfront b hb,
    List.takeWhile_cons_of_neg (by simpa using ⟨hlive, hname⟩), List.append_nil]

end Dirent

/-! ## On the volume -/

/-- The directory has no holes. -/
def Whole (e : Env) (f : κ → Inode) (s : State) (k : κ) : Prop :=
  ∀ i, i < dirBlockCount s.super (f k) → s.dataBlock e f k i ≠ 0

/-- No pointer block of the family holds records of the directory. -/
def RecordsApart (e : Env) (f : κ → Inode) (s : State) (k : κ) : Prop :=
  ∀ i, i < dirBlockCount s.super (f k) → s.dataBlock e f k i ≠ 0 →
    ¬ s.Points e f (s.dataBlock e f k i)

/-- Block `i` has been written without an entry for the name: its records are those that begin at
`l`, and they say what they said but for the entry. -/
structure Unlinked (e : Env) (f : κ → Inode) (s : State) (k : κ) (os : Nat → List Nat)
    (x : List UInt8) (num i : Nat) (buf : Bytes) (l : List Nat) (t : State) : Prop where
  lt : i < dirBlockCount s.super (f k)
  mapped : s.dataBlock e f k i ≠ 0
  tiles : Dirent.Tiles s.super.blockSize buf 0 l
  entries : (blockEntries e f s k i (os i)).Perm ((x, num) :: Dirent.entries buf l)
  written : Written e (s.dataBlock e f k i) buf s t

section Removing

variable (he : e.Reliable)

include he

/-- The walk through the blocks, `left` of them from `block` on: the name is in none of them, or it
is taken out of the first one that has it. -/
theorem removeFrom_run (hd : Listing e f s k os) (hsize : 0 < s.super.blockSize)
    (hshort : s.super.blockSize < 2 ^ 16) (x : List UInt8) {n : Nat} (hn : s.super.blockSize < n)
    {left block c : Nat} (hleft : block + left = dirBlockCount s.super (f k)) :
    (x ∉ ((List.range' block left).flatMap fun i => blockEntries e f s k i (os i)).map Prod.fst ∧
      ∃ c', removeFrom e (f k) x n left block (s.at c) = .ok (-5, s.at c')) ∨
    ∃ num i buf l t, Unlinked e f s k os x num i buf l t ∧
      removeFrom e (f k) x n left block (s.at c) = .ok (0, t) := by
  induction left generalizing block c with
  | zero => exact .inl ⟨List.not_mem_nil, c, rfl⟩
  | succ left ih =>
      have hlt : block < dirBlockCount s.super (f k) := by omega
      obtain ⟨c₁, hget⟩ := dataBlock_run he hsize hlt c
      rw [List.range'_succ, List.flatMap_cons, List.map_append, removeFrom, bind_apply_of_ok hget]
      by_cases hhole : s.dataBlock e f k block = 0
      · rw [if_pos hhole, hd.hole hlt hhole, blockEntries_nil, List.map_nil, List.nil_append]
        exact ih (by omega)
      have htiles := hd.tiles hlt hhole
      have hread : readBlock e (s.dataBlock e f k block) (s.at c₁) = .ok (some (copyOut e s.disk
          (s.origin e (s.dataBlock e f k block)) s.super.blockSize), s.at (c₁ + 1)) :=
        readBlock_run he _
      obtain ⟨buf, hbuf⟩ : ∃ buf, buf = copyOut e s.disk (s.origin e (s.dataBlock e f k block))
        s.super.blockSize := ⟨_, rfl⟩
      have hbytes : ∀ i, i < s.super.blockSize → buf i = s.block e (s.dataBlock e f k block) i := by
        intro i hi
        rw [hbuf, copyOut_of_lt hi]
        rfl
      have hbtiles := htiles.of_block hbytes
      have hloop := hbtiles.remove_loop (x := x) (Nat.lt_trans (hbtiles.length_lt hsize) hn)
      have hentries : Dirent.entries buf (os block) = blockEntries e f s k block (os block) :=
        htiles.entries_of_block hbytes
      rw [if_neg hhole, bind_apply_of_ok hread, ← hbuf]
      simp only []
      rw [bind_apply_of_ok (super_run _), show (s.at (c₁ + 1)).super = s.super from rfl, hloop]
      cases hfirst : Dirent.find buf (os block) x with
      | none =>
          have hnot : x ∉ (blockEntries e f s k block (os block)).map Prod.fst := by
            have hfind := Dirent.find_inode buf x (os block)
            rw [hfirst, hentries] at hfind
            exact lookup_isNone_iff.mp hfind.symm
          rcases @ih (block + 1) (c₁ + 1) (by omega) with ⟨hrest, hrun⟩ | hfound
          · refine .inl ⟨fun hmem => ?_, hrun⟩
            rcases List.mem_append.mp hmem with hmem | hmem
            · exact hnot hmem
            · exact hrest hmem
          · exact .inr hfound
      | some a =>
          obtain ⟨front, back, hos, hfront, hentry, hlive⟩ := Dirent.find_split hfirst
          obtain ⟨l, hl, hlentries⟩ := (hos ▸ hbtiles).unlink hshort
          rw [Option.map_some, hfront]
          obtain ⟨t, ht, hw⟩ := writeBlock_written (s := s.at (c₁ + 1)) he
            (s.dataBlock e f k block) (Dirent.unlinked buf front.getLast? a)
          refine .inr ⟨direntInode buf a, block, _, l, t, ⟨hlt, hhole, hl, ?_,
            ⟨hw.super, hw.noSpace, hw.self, hw.of_ne⟩⟩, ?_⟩
          · rw [hlentries, ← hentries, hos, Dirent.entries_append, Dirent.entries_cons_live hlive,
              hentry]
            exact List.perm_middle
          · show (writeBlock e (s.dataBlock e f k block) _ >>= _) (s.at (c₁ + 1)) = _
            rw [bind_apply_of_ok ht]
            rfl

end Removing

/-! ## The directory afterwards -/

/-- The directory of `k` lists what it listed before, but for `(x, num)`, and has no hole where it
had none. -/
def Loses (e : Env) (f : κ → Inode) (s t : State) (k : κ) (os : Nat → List Nat) (x : List UInt8)
    (num : Nat) : Prop :=
  ∃ os', Listing e f t k os' ∧ (Whole e f s k → Whole e f t k) ∧
    (dirEntries e f s k os).Perm ((x, num) :: dirEntries e f t k os')

namespace Unlinked

variable {num i : Nat} {buf : Bytes} {l : List Nat}

/-- No other block of the directory is the block that has been written: it would hold the same
entry. -/
theorem dataBlock_ne (hu : Unlinked e f s k os x num i buf l t) (hd : Listing e f s k os) {j : Nat}
    (hj : j < dirBlockCount s.super (f k)) (hji : j ≠ i) :
      s.dataBlock e f k j ≠ s.dataBlock e f k i := by
  intro heq
  have htiles := hd.tiles hj (heq ▸ hu.mapped)
  rw [heq] at htiles
  have hos : os j = os i := htiles.tiling.unique (hd.tiles hu.lt hu.mapped).tiling
  have hsame : blockEntries e f s k j (os j) = blockEntries e f s k i (os i) := by
    rw [blockEntries, heq, hos, blockEntries]
  have hmem : (x, num) ∈ blockEntries e f s k i (os i) :=
    hu.entries.mem_iff.mpr List.mem_cons_self
  exact hji (hd.distinct.part_unique hj hu.lt (hsame ▸ hmem) hmem)

/-- The blocks of the directory stay where they are. -/
theorem dataBlock (hu : Unlinked e f s k os x num i buf l t) (hsize : 0 < s.super.blockSize)
    (hapart : RecordsApart e f s k) {j : Nat} (hj : j < dirBlockCount s.super (f k)) :
    t.dataBlock e f k j = s.dataBlock e f k j := by
  have hpoints := hapart i hu.lt hu.mapped
  have hroot : (t.forest e f).root = (s.forest e f).root := rfl
  rw [State.dataBlock, hu.written.super]
  refine Forest.ref_of_same hroot (fun q hq _ b hb => ?_)
    (filePos_leaf hsize (dirBlock_in_range hsize hj).1 k).pos
  exact words_congr (fun a ha => hu.written.of_ne (fun heq => hpoints ⟨q, hq, heq⟩) ha) hb

/-- **The directory lists one entry less.** -/
theorem loses (hu : Unlinked e f s k os x num i buf l t) (hsize : 0 < s.super.blockSize)
    (hd : Listing e f s k os) (hapart : RecordsApart e f s k) : Loses e f s t k os x num := by
  have hsuper := hu.written.super
  have hblock := fun {j} => hu.dataBlock hsize hapart (j := j)
  have hself : ∀ b, b < s.super.blockSize → t.block e (t.dataBlock e f k i) b = buf b := by
    intro b hb
    rw [hblock hu.lt]
    exact hu.written.self hb
  have hrest : ∀ {j}, j < dirBlockCount s.super (f k) → j ≠ i → ∀ b, b < s.super.blockSize →
      t.block e (t.dataBlock e f k j) b = s.block e (s.dataBlock e f k j) b := by
    intro j hj hji b hb
    rw [hblock hj]
    exact hu.written.of_ne (hu.dataBlock_ne hd hj hji) hb
  have hentries : blockEntries e f t k i l = Dirent.entries buf l :=
    hu.tiles.entries_of_block hself
  have hperm : (dirEntries e f s k os).Perm
      ((x, num) :: dirEntries e f t k (Function.update os i l)) := by
    rw [dirEntries, dirEntries, hsuper]
    refine (perm_cons_flatMap_iff hu.lt fun j hj hji => ?_).mpr ?_
    · rw [Function.update_of_ne hji]
      exact (hd.blockEntries_congr hj fun _ => hrest hj hji).symm
    · rw [Function.update_self, hentries]
      exact hu.entries
  refine ⟨Function.update os i l, ⟨hd.isDir, fun {j} hj hne => ?_, fun {j} hj hhole => ?_,
    (distinct_cons.mp (hd.distinct.perm hperm)).2⟩, fun hwhole j hj => ?_, hperm⟩
  · rw [hsuper] at hj ⊢
    by_cases hji : j = i
    · rw [hji, Function.update_self]
      exact hu.tiles.of_block hself
    · rw [hblock hj] at hne
      rw [Function.update_of_ne hji]
      exact (hd.tiles hj hne).of_block (hrest hj hji)
  · rw [hsuper] at hj
    rw [hblock hj] at hhole
    have hji : j ≠ i := fun heq => hu.mapped (heq ▸ hhole)
    rw [Function.update_of_ne hji]
    exact hd.hole hj hhole
  · rw [hsuper] at hj
    rw [hblock hj]
    exact hwhole j hj

end Unlinked

/-- **What `RemoveEntry` does** with a name that the directory lists. -/
theorem removeEntry_run (he : e.Reliable) (hsize : 0 < s.super.blockSize)
    (hshort : s.super.blockSize < 2 ^ 16) (hd : Listing e f s k os)
    (hx : x ∈ (dirEntries e f s k os).map Prod.fst) {n : Nat} (hn : s.super.blockSize < n) :
    ∃ num i buf l t, Unlinked e f s k os x num i buf l t ∧
      removeEntry e (f k) x n s = .ok (0, t) := by
  rw [removeEntry, bind_apply_of_ok (super_run s), hd.isDir]
  simp only [Bool.not_true, Bool.false_eq_true, if_false]
  rw [if_neg hsize.ne', bind_apply_of_ok (pageAlloc_run he)]
  rcases removeFrom_run (c := s.clock + 1) he hd hsize hshort x hn (Nat.zero_add _) with
    ⟨hnot, -⟩ | hfound
  · rw [dirEntries, List.range_eq_range'] at hx
    exact absurd hx hnot
  · exact hfound

/-- After `RemoveEntry` the directory is well formed, `FindEntry` of the name fails, and of every
other name it gives what it gave before. -/
structure RemoveRight (e : Env) (inode : Inode) (s : State) (x : List UInt8)
    (t : State) : Prop where
  directory : ∃ os, Listing e (fun _ : Unit => inode) t () os
  whole : Whole e (fun _ : Unit => inode) t ()
  gone : Answers e inode t x none
  other {y : List UInt8} {r : Option Nat} :
    y ≠ x → Answers e inode s y r → Answers e inode t y r

/-- What is listed says what the searches give. -/
theorem Loses.right {inode : Inode} {os : Nat → List Nat} {num : Nat} (he : e.Reliable)
    (hsize : 0 < s.super.blockSize) (hsize' : 0 < t.super.blockSize)
    (hd : Listing e (fun _ : Unit => inode) s () os) (hwhole : Whole e (fun _ : Unit => inode) s ())
    (h : Loses e (fun _ : Unit => inode) s t () os x num) : RemoveRight e inode s x t := by
  obtain ⟨os', hd', hkept, hperm⟩ := h
  have hdistinct := hd.distinct.perm hperm
  refine ⟨⟨os', hd'⟩, hkept hwhole, ?_, fun {y r} hy hans => ?_⟩
  · have hgone := hd'.answers he hsize' x
    rwa [lookup_isNone_iff.mpr (distinct_cons.mp hdistinct).1] at hgone
  · have hlookup := lookup_perm hd.distinct hperm y
    rw [List.lookup_cons, beq_false_of_ne hy] at hlookup
    rw [hans.unique (hd.answers he hsize y), hlookup]
    exact hd'.answers he hsize' y

/-- **`RemoveEntry` takes the name out, and nothing else.**  In a directory without holes, whose
blocks are tiled by records and no pointer blocks, and where a block has at most 32 KiB, every name
that is listed is removed. -/
theorem removeEntry_right (he : e.Reliable) {inode : Inode} (hsize : 0 < s.super.blockSize)
    (hshort : s.super.blockSize ≤ 32768) {os : Nat → List Nat}
    (hd : Listing e (fun _ : Unit => inode) s () os) (hwhole : Whole e (fun _ : Unit => inode) s ())
    (hapart : RecordsApart e (fun _ : Unit => inode) s ())
    (hx : x ∈ (dirEntries e (fun _ : Unit => inode) s () os).map Prod.fst) {n : Nat}
    (hn : s.super.blockSize < n) :
    ∃ t, removeEntry e inode x n s = .ok (0, t) ∧ RemoveRight e inode s x t := by
  obtain ⟨num, i, buf, l, t, hu, hrun⟩ := removeEntry_run he hsize (by omega) hd hx hn
  have hsize' : 0 < t.super.blockSize := by rwa [hu.written.super]
  exact ⟨t, hrun, (hu.loses hsize hd hapart).right he hsize hsize' hd hwhole⟩

namespace Small

theorem whole_several : Whole (Env.ideal 0) (fun _ : Unit => dirInode) several () := by
  intro i hi
  rw [count_several, Nat.lt_one_iff] at hi
  rw [hi, dataBlock_several]
  decide

theorem recordsApart_several :
    RecordsApart (Env.ideal 0) (fun _ : Unit => dirInode) several () := by
  rintro i hi hne ⟨p, hp, href⟩
  obtain ⟨rfl, -⟩ := ref_dirInode hp.pos (href ▸ hne)
  exact absurd hp.lt (Nat.not_lt_zero _)

end Small

/-- The last name of a directory, behind a dead record. -/
theorem removeEntry_right_several : ∃ t,
    removeEntry (Env.ideal 0) Small.dirInode [98, 99] 1025 Small.several = .ok (0, t) ∧
      RemoveRight (Env.ideal 0) Small.dirInode Small.several [98, 99] t := by
  refine removeEntry_right (Env.ideal_reliable 0) (by decide) (by decide) Small.listing_several
    Small.whole_several Small.recordsApart_several ?_ (by decide)
  rw [Small.entries_several]
  decide

/-- When its page cannot be allocated, the name stays and a code is returned. -/
theorem removeEntry_fails_without_page :
    (∀ t, (Env.outOfPages 0).readFails t = false ∧ (Env.outOfPages 0).writeFails t = false) ∧
      Listing (Env.outOfPages 0) (fun _ : Unit => Small.dirInode) Small.several ()
        (fun _ => [0, 12, 24]) ∧
      Whole (Env.outOfPages 0) (fun _ : Unit => Small.dirInode) Small.several () ∧
      RecordsApart (Env.outOfPages 0) (fun _ : Unit => Small.dirInode) Small.several () ∧
      [98, 99] ∈ (dirEntries (Env.outOfPages 0) (fun _ : Unit => Small.dirInode) Small.several ()
        fun _ => [0, 12, 24]).map Prod.fst ∧
      ∀ n, removeEntry (Env.outOfPages 0) Small.dirInode [98, 99] n Small.several =
        .ok (-3, Small.several.at 1) := by
  refine ⟨fun _ => ⟨rfl, rfl⟩, Small.listing_several.of_lba rfl, Small.whole_several,
    Small.recordsApart_several, ?_, fun n => rfl⟩
  have hentries : dirEntries (Env.outOfPages 0) (fun _ : Unit => Small.dirInode) Small.several ()
      (fun _ => [0, 12, 24]) = [([97], 12), ([98, 99], 13)] := Small.entries_several
  rw [hentries]
  decide

end InfoKernel.Ext2
