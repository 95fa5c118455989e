import InfoKernel.Fs.Dir
import InfoKernel.Lib.Assoc
import InfoKernel.Lib.Tiling

/-!
# The records of a block

A block of a directory is tiled by records, each of which is long enough for its name: `Tiles`
says so of the bytes of the block, from an offset on.  What the live records say is a table of
names and inodes, `entries`.

`FindEntry` walks along the records and stops at the first live one with the name
(`Tiles.find_loop`).  A record may be changed where it says nothing: `Says` and `Same` compare what
is said in two buffers, and a tiling is kept when its records stay the same (`Tiles.same`).
-/

namespace InfoKernel.Ext2

open Lib

namespace Dirent

/-- The name of the record at `o`. -/
def name (buf : Bytes) (o : Nat) : List UInt8 :=
  (List.range (direntNameLen buf o)).map (direntName buf o)

/-- The record names an inode. -/
def Live (buf : Bytes) (o : Nat) : Prop := direntInode buf o ≠ 0 ∧ 0 < direntNameLen buf o

instance (buf : Bytes) (o : Nat) : Decidable (Live buf o) := inferInstanceAs (Decidable (_ ∧ _))

/-- The record is long enough for its name, and a live one has a name without NUL bytes. -/
structure Fit (buf : Bytes) (o : Nat) : Prop where
  room : direntHeader + direntNameLen buf o ≤ direntRecLen buf o
  name : Live buf o → 0 ∉ name buf o

/-- The records that begin at `os` tile the block from `o` on. -/
structure Tiles (size : Nat) (buf : Bytes) (o : Nat) (os : List Nat) : Prop where
  tiling : Tiling (direntRecLen buf) size o os
  fit : ∀ a ∈ os, Fit buf a

/-- What the record says: a name, and the inode that has it. -/
def entry (buf : Bytes) (o : Nat) : List UInt8 × Nat := (name buf o, direntInode buf o)

/-- What the records of a block say. -/
def entries (buf : Bytes) (os : List Nat) : List (List UInt8 × Nat) :=
  (os.filter fun o => Live buf o).map (entry buf)

variable {size : Nat} {buf buf' : Bytes} {o : Nat} {os : List Nat} {x : List UInt8}

theorem name_length : (name buf o).length = direntNameLen buf o := by
  rw [name, List.length_map, List.length_range]

theorem getElem_name {i : Nat} (h : i < (name buf o).length) :
    (name buf o)[i] = direntName buf o i := by
  simp only [name, List.getElem_map, List.getElem_range]

/-- A record ends within the block. -/
theorem Tiles.mem {a : Nat} (h : Tiles size buf o os) (ha : a ∈ os) :
    o ≤ a ∧ Fit buf a ∧ a + direntRecLen buf a ≤ size := by
  obtain ⟨hle, -, hend⟩ := h.tiling.mem ha
  exact ⟨hle, h.fit a ha, hend⟩

theorem Tiles.length_le (h : Tiles size buf o os) : o + 8 * os.length ≤ size := by
  refine h.tiling.length_le fun a ha => ?_
  have hroom := (h.fit a ha).room
  have hheader : direntHeader = 8 := rfl
  omega

/-- The records of a block are fewer than its bytes. -/
theorem Tiles.length_lt (h : Tiles size buf 0 os) (hsize : 0 < size) : os.length < size := by
  have hle := h.length_le
  omega

/-! ## Bytes that stay -/

/-- The records say the same. -/
structure Says (buf buf' : Bytes) (o : Nat) : Prop where
  inode : direntInode buf' o = direntInode buf o
  nameLen : direntNameLen buf' o = direntNameLen buf o
  name : Dirent.name buf' o = Dirent.name buf o

/-- The records say the same and have the same length. -/
structure Same (buf buf' : Bytes) (o : Nat) : Prop extends Says buf buf' o where
  recLen : direntRecLen buf' o = direntRecLen buf o

theorem same_of_bytes (h : ∀ i, o ≤ i → i < o + direntHeader + direntNameLen buf o →
    buf' i = buf i) : Same buf buf' o := by
  have hheader : direntHeader = 8 := rfl
  have hlen : direntNameLen buf' o = direntNameLen buf o := by
    rw [direntNameLen, direntNameLen, h (o + 6) (by omega) (by omega)]
  refine ⟨⟨getLE_congr fun i hi hi' => h i hi (by omega), hlen, ?_⟩,
    getLE_congr fun i hi hi' => h i (by omega) (by omega)⟩
  rw [name, name, hlen]
  refine List.map_congr_left fun i hi => ?_
  have hlt := List.mem_range.mp hi
  rw [direntName, direntName, h _ (by omega) (by omega)]

theorem Says.live (h : Says buf buf' o) : Live buf' o ↔ Live buf o := by
  rw [Live, Live, h.inode, h.nameLen]

theorem Says.entry (h : Says buf buf' o) : entry buf' o = entry buf o := by
  rw [Dirent.entry, Dirent.entry, h.name, h.inode]

theorem Says.trans {buf'' : Bytes} (h : Says buf buf' o) (h' : Says buf' buf'' o) :
    Says buf buf'' o :=
  ⟨h'.inode.trans h.inode, h'.nameLen.trans h.nameLen, h'.name.trans h.name⟩

/-- A record keeps its form when it says the same and has a length for it. -/
theorem Says.fit (h : Says buf buf' o) (hfit : Fit buf o)
    (hroom : direntHeader + direntNameLen buf o ≤ direntRecLen buf' o) : Fit buf' o where
  room := by
    rw [h.nameLen]
    exact hroom
  name hl := by
    rw [h.name]
    exact hfit.name (h.live.mp hl)

theorem Same.fit (h : Same buf buf' o) (hfit : Fit buf o) : Fit buf' o :=
  h.toSays.fit hfit (by rw [h.recLen]; exact hfit.room)

theorem Tiles.same (h : Tiles size buf o os) (hsame : ∀ a ∈ os, Same buf buf' a) :
    Tiles size buf' o os where
  tiling := h.tiling.congr fun a ha => (hsame a ha).recLen
  fit a ha := (hsame a ha).fit (h.fit a ha)

/-- The records are read off the bytes of the block. -/
theorem Tiles.same_of_block (h : Tiles size buf o os) (hbytes : ∀ i, i < size → buf' i = buf i) :
    ∀ a ∈ os, Same buf buf' a := by
  intro a ha
  obtain ⟨-, hfit, hend⟩ := h.mem ha
  have hroom := hfit.room
  exact same_of_bytes fun i _ hi => hbytes i (by omega)

theorem Tiles.of_block (h : Tiles size buf o os) (hbytes : ∀ i, i < size → buf' i = buf i) :
    Tiles size buf' o os := h.same (h.same_of_block hbytes)

theorem entries_says (hsame : ∀ a ∈ os, Says buf buf' a) : entries buf' os = entries buf os := by
  have hfilter : os.filter (fun a => Live buf' a) = os.filter fun a => Live buf a :=
    List.filter_congr fun a ha => decide_eq_decide.mpr (hsame a ha).live
  rw [entries, entries, hfilter]
  exact List.map_congr_left fun a ha => (hsame a (List.mem_of_mem_filter ha)).entry

theorem entries_append (os os' : List Nat) :
    entries buf (os ++ os') = entries buf os ++ entries buf os' := by
  rw [entries, List.filter_append, List.map_append]
  rfl

theorem entries_cons_live (h : Live buf o) : entries buf (o :: os) =
    entry buf o :: entries buf os := by
  rw [entries, List.filter_cons_of_pos (by simpa using h)]
  rfl

theorem entries_cons_dead (h : ¬ Live buf o) : entries buf (o :: os) = entries buf os := by
  rw [entries, List.filter_cons_of_neg (by simpa using h)]
  rfl

theorem Tiles.entries_of_block (h : Tiles size buf o os)
    (hbytes : ∀ i, i < size → buf' i = buf i) : entries buf' os = entries buf os :=
  entries_says fun a ha => (h.same_of_block hbytes a ha).toSays

/-! ## `FindEntry` -/

theorem strncmpEq_iff {n i : Nat} (h : ∀ j, j < n → direntName buf o (i + j) ≠ 0) :
    strncmpEq buf o x i n = true ↔ (List.range n).map (fun j =>
      direntName buf o (i + j)) <+: x := by
  induction n generalizing x i with
  | zero => simp only [strncmpEq, List.range_zero, List.map_nil, List.nil_prefix]
  | succ n ih =>
      rw [List.range_succ_eq_map, List.map_cons, List.map_map]
      cases x with
      | nil =>
          have hhead := h 0 (Nat.succ_pos n)
          rw [Nat.add_zero] at hhead
          simp only [strncmpEq, decide_eq_true_eq, List.prefix_nil, reduceCtorEq, iff_false]
          exact hhead
      | cons c x =>
          have hrest := @ih x (i + 1) fun j hj => by
            rw [show i + 1 + j = i + (j + 1) by omega]
            exact h (j + 1) (by omega)
          have hfun : (fun j => direntName buf o (i + j)) ∘ Nat.succ =
              fun j => direntName buf o (i + 1 + j) := by
            funext j
            show direntName buf o (i + (j + 1)) = _
            rw [show i + (j + 1) = i + 1 + j by omega]
          rw [strncmpEq, Bool.and_eq_true, hrest, List.cons_prefix_cons, decide_eq_true_eq, hfun]
          exact Iff.rfl

/-- The test of `FindEntry` on a well-formed record. -/
theorem matches_eq (hfit : Fit buf o) :
    direntMatches buf o x = .ok (decide (Live buf o ∧ name buf o = x)) := by
  rw [direntMatches]
  by_cases hlive : Live buf o
  · rw [if_pos (show direntInode buf o ≠ 0 ∧ 0 < direntNameLen buf o from hlive)]
    have hnul : ∀ j, j < direntNameLen buf o → direntName buf o (0 + j) ≠ 0 := by
      intro j hj hzero
      rw [Nat.zero_add] at hzero
      exact hfit.name hlive (List.mem_map.mpr ⟨j, List.mem_range.mpr hj, hzero⟩)
    have hiff := strncmpEq_iff (x := x) hnul
    simp only [Nat.zero_add] at hiff
    have hiff : strncmpEq buf o x 0 (direntNameLen buf o) = true ↔ name buf o <+: x := hiff
    by_cases hpre : name buf o <+: x
    · have hlen := hpre.length_le
      rw [name_length] at hlen
      rw [if_pos (hiff.mpr hpre)]
      by_cases hlt : direntNameLen buf o < x.length
      · have hne : name buf o ≠ x := fun heq => by
          rw [← heq, name_length] at hlt
          exact absurd hlt (Nat.lt_irrefl _)
        rw [if_pos hlt, decide_eq_false fun h => hne h.2]
      · have heq : name buf o = x := hpre.eq_of_length (by
          rw [name_length]
          omega)
        rw [if_neg hlt, if_pos (show direntNameLen buf o = x.length by omega),
          decide_eq_true ⟨hlive, heq⟩]
    · have hne : name buf o ≠ x := fun heq => hpre (heq ▸ List.prefix_refl _)
      rw [if_neg fun h => hpre (hiff.mp h), decide_eq_false fun h => hne h.2]
  · rw [if_neg (show ¬ (direntInode buf o ≠ 0 ∧ 0 < direntNameLen buf o) from hlive),
      decide_eq_false fun h => hlive h.1]

/-- The first live record with name `x`. -/
def find (buf : Bytes) (os : List Nat) (x : List UInt8) : Option Nat :=
  os.find? fun o => Live buf o ∧ name buf o = x

/-- The record at `o` as it is copied out. -/
def copied (e : Env) (size : Nat) (buf : Bytes) (o : Nat) : Bytes :=
  fun i => if o + i < size then buf (o + i) else e.behind i

/-- **The walk of `FindEntry`** ends at the first live record with the name. -/
theorem Tiles.find_loop {e : Env} {n : Nat} (h : Tiles size buf o os) (hn : os.length < n) :
    Lib.loop (findTurn e buf size x) .outOfFuel n o =
      .ok ((find buf os x).map (copied e size buf)) := by
  refine h.tiling.loop_find (fun _ a => a) (fun c _ => c) (fun a => Live buf a ∧ name buf a = x)
    (fun _ a => copied e size buf a) (fun _ => ?_) (fun _ a ha => ?_) hn ()
  · rw [findTurn, if_neg (Nat.lt_irrefl _)]
  · obtain ⟨-, hlt, hend⟩ := h.tiling.mem ha
    have hroom := (h.fit a ha).room
    rw [findTurn, if_pos hlt, if_pos (by omega), matches_eq (h.fit a ha)]
    by_cases hm : Live buf a ∧ name buf a = x
    · rw [if_pos hm, decide_eq_true hm]
      rfl
    · rw [if_neg hm, decide_eq_false hm]

variable (buf x) in
/-- The record that is found says what the entries say. -/
theorem find_inode (os : List Nat) :
    (find buf os x).map (direntInode buf) = (entries buf os).lookup x := by
  induction os with
  | nil => rfl
  | cons o os ih =>
      by_cases hlive : Live buf o
      · rw [entries_cons_live hlive, entry, List.lookup_cons]
        by_cases hx : name buf o = x
        · rw [find, List.find?_cons_of_pos (by simpa using ⟨hlive, hx⟩), hx, beq_self_eq_true]
          rfl
        · rw [find, List.find?_cons_of_neg (by simpa using fun _ => hx), ← find, ih,
            beq_false_of_ne (Ne.symm hx)]
      · rw [entries_cons_dead hlive, find,
          List.find?_cons_of_neg (by simpa using fun h => absurd h hlive), ← find, ih]

theorem copied_inode {e : Env} (h : o + direntHeader ≤ size) :
    direntInode (copied e size buf o) 0 = direntInode buf o := by
  have hheader : direntHeader = 8 := rfl
  refine getLE_shift fun i hi => ?_
  rw [copied, Nat.zero_add, if_pos (by omega)]

/-! ## The length of a record -/

theorem setRecLen_of_not_mem {i n : Nat} (h : i < o + 4 ∨ o + 6 ≤ i) :
    setRecLen buf o n i = buf i :=
  setLE_of_not_mem (by omega)

theorem direntRecLen_set {n : Nat} (h : n < 2 ^ 16) : direntRecLen (setRecLen buf o n) o = n :=
  getLE_setLE_of_lt h

/-- A record whose length has been set says what it said. -/
theorem says_setRecLen {n : Nat} : Says buf (setRecLen buf o n) o := by
  have hheader : direntHeader = 8 := rfl
  have hlen : direntNameLen (setRecLen buf o n) o = direntNameLen buf o := by
    rw [direntNameLen, direntNameLen, setRecLen_of_not_mem (by omega)]
  refine ⟨getLE_congr fun i hi hi' => setRecLen_of_not_mem (by omega), hlen, ?_⟩
  rw [name, name, hlen]
  refine List.map_congr_left fun i _ => ?_
  rw [direntName, direntName, setRecLen_of_not_mem (by omega)]

end Dirent

end InfoKernel.Ext2
