import InfoKernel.Fs.AddEntry
import InfoKernel.Fs.Brief
import InfoKernel.Fs.Readdir
import InfoKernel.Fs.RemoveEntry
import InfoKernel.Lib.Halting

/-!
# The walks through a directory, whatever is on the disk

`FindEntry`, `AddEntry`, `RemoveEntry` and `Readdir` walk along the records of each block by the
`rec_len` that they read there.  Nothing checks it: a record of length 0 is walked along for ever,
and one that ends near the end of the block leads to a header that is only partly in it.  `AddEntry`
also fills a hole and walks along the zeros of the new block, which it never leaves.

A `Scan` is what the four have in common: how it goes on from record to record, and what it carries
from block to block.  `scans_end_iff` says for which directories all of them end and read no header
outside the block.
-/

namespace InfoKernel.Ext2

open Lib

variable {α σ ρ β : Type} {e : Env} {inode : Inode} {s t : State} {size n : Nat} {buf : Bytes}
  {x : List UInt8}

namespace Dirent

/-- The offsets that the record lengths lead to, from the begin of the block on. -/
inductive Along (size : Nat) (buf : Bytes) : Nat → Prop
  | start : Along size buf 0
  | next {o : Nat} : Along size buf o → o < size → Along size buf (o + direntRecLen buf o)

/-- The block can be walked along: where the record lengths lead in it, there is room for the
header of a record, and its length is not 0. -/
def Walkable (size : Nat) (buf : Bytes) : Prop :=
  ∀ o, Along size buf o → o < size → o + direntHeader ≤ size ∧ direntRecLen buf o ≠ 0

theorem Room.mono {o len len' : Nat} (h : Room len buf o) (hle : len' ≤ len) : Room len' buf o := by
  rw [Room, direntLen] at h ⊢
  omega

/-- A block that is tiled by records can be walked along. -/
theorem Tiles.walkable {os : List Nat} (h : Tiles size buf 0 os) : Walkable size buf := by
  have hrest : ∀ o, Along size buf o → ∃ rest, Tiling (direntRecLen buf) size o rest ∧
      ∀ a ∈ rest, a ∈ os := by
    intro o ho
    induction ho with
    | start => exact ⟨os, h.tiling, fun _ ha => ha⟩
    | next _ hlt ih =>
        obtain ⟨rest, htiling, hmem⟩ := ih
        obtain ⟨rest', rfl, -, hrest⟩ := htiling.head hlt
        exact ⟨rest', hrest, fun a ha => hmem a (List.mem_cons_of_mem _ ha)⟩
  intro o ho hlt
  obtain ⟨rest, htiling, hmem⟩ := hrest o ho
  obtain ⟨rest', rfl, hend, -⟩ := htiling.head hlt
  have hroom := (h.fit o (hmem o List.mem_cons_self)).room
  have hheader : direntHeader = 8 := rfl
  omega

end Dirent

open Dirent

/-! ## What the walks have in common -/

/-- A walk through a directory.  What is carried to a block gives the state in which its records
are walked along, and what comes of that gives what is carried on, if the walk goes on. -/
structure Scan (α σ ρ : Type) where
  turn (size : Nat) (buf : Bytes) (st : σ) : Except Fault (Turn σ ρ)
  start : α → σ
  offset : σ → Nat
  onward : ρ → Option α
  /-- holes are passed over -/
  overHoles : Bool
  offset_start (a : α) : offset (start a) = 0
  fuel (size : Nat) (buf : Bytes) (st : σ) : turn size buf st ≠ .error .outOfFuel
  again {size : Nat} {buf : Bytes} {st st' : σ} : turn size buf st = .ok (.again st') →
    offset st < size ∧ offset st' = offset st + direntRecLen buf (offset st)

theorem direntMatches_ne_outOfFuel (buf : Bytes) (o : Nat) (x : List UInt8) :
    direntMatches buf o x ≠ .error .outOfFuel := by
  simp only [direntMatches]
  split
  · split
    · split
      · simp
      · split <;> simp
    · simp
  · simp

theorem findTurn_ne_outOfFuel (size : Nat) (buf : Bytes) (o : Nat) :
    findTurn e buf size x o ≠ .error .outOfFuel := by
  have hmatch := direntMatches_ne_outOfFuel buf o x
  rw [findTurn]
  split
  · split
    · split
      · rename_i f hf
        exact fun heq => hmatch (by rw [hf, Except.error.inj heq])
      · simp
      · simp
    · simp
  · simp

theorem findTurn_again {o o' : Nat} (h : findTurn e buf size x o = .ok (.again o')) :
    o < size ∧ o' = o + direntRecLen buf o := by
  rw [findTurn] at h
  split at h
  · rename_i hlt
    split at h
    · split at h
      · cases h
      · cases h
      · cases h
        exact ⟨hlt, rfl⟩
    · cases h
  · cases h

theorem removeTurn_ne_outOfFuel (size : Nat) (buf : Bytes) (st : Option Nat × Nat) :
    removeTurn size x buf st ≠ .error .outOfFuel := by
  obtain ⟨prev, o⟩ := st
  have hmatch := direntMatches_ne_outOfFuel buf o x
  simp only [removeTurn]
  split
  · split
    · split
      · rename_i f hf
        exact fun heq => hmatch (by rw [hf, Except.error.inj heq])
      · split <;> simp
      · simp
    · simp
  · simp

theorem removeTurn_again {st st' : Option Nat × Nat}
    (h : removeTurn size x buf st = .ok (.again st')) :
    st.2 < size ∧ st'.2 = st.2 + direntRecLen buf st.2 := by
  obtain ⟨prev, o⟩ := st
  simp only [removeTurn] at h
  split at h
  · rename_i hlt
    split at h
    · split at h
      · cases h
      · split at h <;> cases h
      · cases h
        exact ⟨hlt, rfl⟩
    · cases h
  · cases h

theorem readdirTurn_ne_outOfFuel (index size : Nat) (buf : Bytes) (st : Nat × Nat) :
    readdirTurn size index buf st ≠ .error .outOfFuel := by
  rw [readdirTurn]
  split
  · split
    · split
      · split <;> simp
      · simp
    · simp
  · simp

theorem readdirTurn_again {index : Nat} {st st' : Nat × Nat}
    (h : readdirTurn size index buf st = .ok (.again st')) :
    st.2 < size ∧ st'.2 = st.2 + direntRecLen buf st.2 := by
  rw [readdirTurn] at h
  split at h
  · rename_i hlt
    split at h
    · split at h
      · split at h
        · cases h
        · cases h
          exact ⟨hlt, rfl⟩
      · cases h
        exact ⟨hlt, rfl⟩
    · cases h
  · cases h

theorem addTurn_ne_outOfFuel (m : Nat) (ft : UInt8) (size : Nat) (buf : Bytes) (o : Nat) :
    addTurn size m x ft buf o ≠ .error .outOfFuel := by
  simp only [addTurn]
  split
  · split
    · split
      · split
        · split <;> simp
        · simp
      · split
        · split <;> simp
        · simp
    · simp
  · simp

/-- `AddEntry` goes on behind a record without room. -/
theorem addTurn_again {m : Nat} {ft : UInt8} {o o' : Nat}
    (h : addTurn size m x ft buf o = .ok (.again o')) :
    o < size ∧ o' = o + direntRecLen buf o ∧ ¬ Room x.length buf o := by
  simp only [addTurn] at h
  rw [Room, usedLen]
  split at h
  · rename_i hlt
    split at h
    · split at h
      · rename_i hlive
        rw [if_pos hlive]
        split at h
        · split at h <;> cases h
        · cases h
          exact ⟨hlt, rfl, by omega⟩
      · rename_i hdead
        rw [if_neg hdead]
        split at h
        · split at h <;> cases h
        · cases h
          exact ⟨hlt, rfl, by omega⟩
    · cases h
  · cases h

/-- The walk of `FindEntry`. -/
def findScan (e : Env) (x : List UInt8) : Scan Unit Nat (Option Bytes) where
  turn size buf := findTurn e buf size x
  start _ := 0
  offset o := o
  onward
    | none => some ()
    | some _ => none
  overHoles := true
  offset_start _ := rfl
  fuel := findTurn_ne_outOfFuel
  again := findTurn_again

theorem findScan_turn {e : Env} {x : List UInt8} {size : Nat} {buf : Bytes} :
    (findScan e x).turn size buf = findTurn e buf size x := by
  rw [findScan]

theorem findScan_start {e : Env} {x : List UInt8} : (findScan e x).start () = 0 := by
  rw [findScan]

/-- The walk of `AddEntry`. -/
def addScan (inodeNum : Nat) (x : List UInt8) (fileType : UInt8) :
    Scan Unit Nat (Option Bytes) where
  turn size := addTurn size inodeNum x fileType
  start _ := 0
  offset o := o
  onward
    | none => some ()
    | some _ => none
  overHoles := false
  offset_start _ := rfl
  fuel := addTurn_ne_outOfFuel inodeNum fileType
  again h := ⟨(addTurn_again h).1, (addTurn_again h).2.1⟩

theorem addScan_turn {inodeNum size : Nat} {x : List UInt8} {fileType : UInt8} {buf : Bytes} :
    (addScan inodeNum x fileType).turn size buf = addTurn size inodeNum x fileType buf := by
  rw [addScan]

theorem addScan_start {inodeNum : Nat} {x : List UInt8} {fileType : UInt8} :
    (addScan inodeNum x fileType).start () = 0 := by
  rw [addScan]

/-- The walk of `RemoveEntry`, which remembers the record before. -/
def removeScan (x : List UInt8) : Scan Unit (Option Nat × Nat) (Option Bytes) where
  turn size := removeTurn size x
  start _ := (none, 0)
  offset st := st.2
  onward
    | none => some ()
    | some _ => none
  overHoles := true
  offset_start _ := rfl
  fuel := removeTurn_ne_outOfFuel
  again := removeTurn_again

theorem removeScan_turn {x : List UInt8} {size : Nat} {buf : Bytes} :
    (removeScan x).turn size buf = removeTurn size x buf := by
  rw [removeScan]

theorem removeScan_start {x : List UInt8} : (removeScan x).start () = (none, 0) := by
  rw [removeScan]

/-- The walk of `Readdir`, which counts the entries. -/
def readdirScan (index : Nat) : Scan Nat (Nat × Nat) (Nat ⊕ Nat) where
  turn size := readdirTurn size index
  start entryIndex := (entryIndex, 0)
  offset st := st.2
  onward
    | .inl entryIndex => some entryIndex
    | .inr _ => none
  overHoles := true
  offset_start _ := rfl
  fuel := readdirTurn_ne_outOfFuel index
  again := readdirTurn_again

theorem readdirScan_turn {index size : Nat} {buf : Bytes} :
    (readdirScan index).turn size buf = readdirTurn size index buf := by
  rw [readdirScan]

theorem readdirScan_start {index entryIndex : Nat} :
    (readdirScan index).start entryIndex = (entryIndex, 0) := by
  rw [readdirScan]

/-! ## The headers that are read -/

/-- The block of the partition with block `i` of the directory. -/
def State.fileBlock (s : State) (e : Env) (inode : Inode) (i : Nat) : Nat :=
  s.dataBlock e (fun _ : Unit => inode) () i

/-- The buffer after block `x` has been read. -/
def State.loaded (s : State) (e : Env) (x : Nat) : Bytes :=
  copyOut e s.disk (s.origin e x) s.super.blockSize

/-- The mapped blocks of the directory can be walked along. -/
def BlocksWalkable (e : Env) (inode : Inode) (s : State) : Prop :=
  ∀ i, i < dirBlockCount s.super inode → s.fileBlock e inode i ≠ 0 →
    Walkable s.super.blockSize (s.loaded e (s.fileBlock e inode i))

/-- A directory with blocks has blocks of some size. -/
theorem size_pos_of_lt {sb : SuperBlock} {i : Nat} (hi : i < dirBlockCount sb inode) :
    0 < sb.blockSize := by
  refine Nat.pos_of_ne_zero fun hzero => ?_
  rw [dirBlockCount, ceilDiv, hzero, Nat.div_zero] at hi
  exact absurd hi (Nat.not_lt_zero i)

/-- Where a block of the directory lies. -/
theorem fileBlock_run (he : e.Reliable) {i : Nat} (hi : i < dirBlockCount s.super inode) (c : Nat) :
    ∃ c', getBlockNum e inode i (s.at c) = .ok (s.fileBlock e inode i, s.at c') :=
  dataBlock_run (f := fun _ : Unit => inode) (k := ()) he (size_pos_of_lt hi) hi c

namespace Scan

variable (w : Scan α σ ρ)

/-- What is walked along for block `i`: the block just read, or the zeros of the one that fills a
hole. -/
def buffer (e : Env) (inode : Inode) (s : State) (i : Nat) : Option Bytes :=
  let x := s.fileBlock e inode i
  if x ≠ 0 then some (s.loaded e x) else if w.overHoles then none else some fun _ => 0

/-- The walk that carries `a` to block 0 comes to block `i`, with what it carries there. -/
inductive Begins (e : Env) (inode : Inode) (s : State) (a : α) : Nat → α → Prop
  | first : Begins e inode s a 0 a
  | hole {i : Nat} {b : α} : Begins e inode s a i b → i < dirBlockCount s.super inode →
      w.buffer e inode s i = none → Begins e inode s a (i + 1) b
  | behind {i n : Nat} {b c : α} {buf : Bytes} {r : ρ} : Begins e inode s a i b →
      i < dirBlockCount s.super inode → w.buffer e inode s i = some buf →
      Lib.loop (w.turn s.super.blockSize buf) .outOfFuel n (w.start b) = .ok r →
      w.onward r = some c → Begins e inode s a (i + 1) c

/-- Every header that the walk reads, in the blocks that it comes to, lies inside the block. -/
def Inside (e : Env) (inode : Inode) (s : State) (a : α) : Prop :=
  ∀ ⦃i b buf st⦄, w.Begins e inode s a i b → i < dirBlockCount s.super inode →
    w.buffer e inode s i = some buf → Visits (w.turn s.super.blockSize buf) (w.start b) st →
    w.offset st < s.super.blockSize → w.offset st + direntHeader ≤ s.super.blockSize

variable {w} {b : α} {st : σ}

/-- The walk goes where the record lengths lead. -/
theorem along (h : Visits (w.turn size buf) (w.start b) st) : Along size buf (w.offset st) := by
  induction h with
  | start =>
      rw [w.offset_start]
      exact .start
  | again _ hturn ih =>
      obtain ⟨hlt, heq⟩ := w.again hturn
      rw [heq]
      exact ih.next hlt

/-- **A walk along a block that can be walked along ends.** -/
theorem loop_ne_outOfFuel (h : Walkable size buf) (b : α) (hn : size < n) :
    Lib.loop (w.turn size buf) .outOfFuel n (w.start b) ≠ .error .outOfFuel := by
  refine loop_ne_out (I := fun k st => Along size buf (w.offset st) ∧ size - w.offset st ≤ k)
    (fun _ st _ => w.fuel size buf st) (fun k st st' hI hturn => ?_) (k := size) ?_ hn
  · obtain ⟨halong, hk⟩ := hI
    obtain ⟨hlt, heq⟩ := w.again hturn
    obtain ⟨-, hne⟩ := h _ halong hlt
    refine ⟨size - w.offset st', by omega, ?_, Nat.le_refl _⟩
    rw [heq]
    exact halong.next hlt
  · rw [w.offset_start]
    exact ⟨.start, Nat.sub_le _ _⟩

/-! ## From block to block -/

/-- The walk through the blocks that skips holes: `left` are left, `block` is the next, and `a` is
carried to it. -/
def blocks (w : Scan α σ ρ) (e : Env) (inode : Inode) (n : Nat) (none : Io β)
    (some : Nat → Bytes → ρ → Io β) : Nat → Nat → α → Io β
  | 0, _, _ => none
  | left + 1, block, a => do
      let blockNum ← getBlockNum e inode block
      if blockNum = 0 then
        w.blocks e inode n none some left (block + 1) a
      else
        match ← readBlock e blockNum with
        | .none => w.blocks e inode n none some left (block + 1) a
        | .some buf => do
            let sb ← super
            match Lib.loop (w.turn sb.blockSize buf) .outOfFuel n (w.start a) with
            | .error f => throw f
            | .ok r =>
                match w.onward r with
                | .some b => w.blocks e inode n none some left (block + 1) b
                | .none => some blockNum buf r

theorem findFrom_eq (left block : Nat) : findFrom e inode x n left block =
    (findScan e x).blocks e inode n (pure (.error (-4))) (fun _ _ r =>
      pure (r.elim (.error (-4)) .ok))
      left block () := by
  induction left generalizing block with
  | zero => rfl
  | succ left ih =>
      simp only [findFrom, blocks, ih]
      refine bind_congr fun blockNum => ite_congr rfl (fun _ => rfl) fun _ => bind_congr fun r => ?_
      cases r with
      | none => rfl
      | some buf =>
          refine bind_congr fun sb => ?_
          rw [findScan_turn, findScan_start]
          cases Lib.loop (findTurn e buf sb.blockSize x) .outOfFuel n 0 with
          | error f => rfl
          | ok r => cases r <;> rfl

/-- What `RemoveEntry` does with the block without the name. -/
def removed (e : Env) (blockNum : Nat) : Option Bytes → Io Int
  | none => pure (-5)
  | some buf => do
      if !(← writeBlock e blockNum buf) then
        pure (-4)
      else
        pure 0

theorem removeFrom_eq (left block : Nat) : removeFrom e inode x n left block =
    (removeScan x).blocks e inode n (pure (-5)) (fun blockNum _ r => removed e blockNum r)
      left block () := by
  induction left generalizing block with
  | zero => rfl
  | succ left ih =>
      simp only [removeFrom, blocks, ih]
      refine bind_congr fun blockNum => ite_congr rfl (fun _ => rfl) fun _ => bind_congr fun r => ?_
      cases r with
      | none => rfl
      | some buf =>
          refine bind_congr fun sb => ?_
          rw [removeScan_turn, removeScan_start]
          cases Lib.loop (removeTurn sb.blockSize x buf) .outOfFuel n (none, 0) with
          | error f => rfl
          | ok r => cases r <;> rfl

/-- What `Readdir` does with the record that it has found. -/
def listed (e : Env) (buf : Bytes) : Nat ⊕ Nat → Io (Option DirEntry)
  | .inl _ => pure none
  | .inr o => do
      if !(← pageAlloc e) then
        pure none
      else
        pure (some (dirEntry e buf o))

theorem readdirFrom_eq (index left block entryIndex : Nat) :
    readdirFrom e inode index n left block entryIndex =
      (readdirScan index).blocks e inode n (pure none) (fun _ buf r => listed e buf r)
        left block entryIndex := by
  induction left generalizing block entryIndex with
  | zero => rfl
  | succ left ih =>
      simp only [readdirFrom, blocks, ih]
      refine bind_congr fun blockNum => ite_congr rfl (fun _ => rfl) fun _ => bind_congr fun r => ?_
      cases r with
      | none => rfl
      | some buf =>
          refine bind_congr fun sb => ?_
          rw [readdirScan_turn, readdirScan_start]
          cases Lib.loop (readdirTurn sb.blockSize index buf) .outOfFuel n (entryIndex, 0) with
          | error f => rfl
          | ok r => cases r <;> rfl

section Blocks

variable (he : e.Reliable) {none' : Io β} {some' : Nat → Bytes → ρ → Io β} {left block c : Nat}

include he

/-- A hole is passed over. -/
theorem blocks_hole (hi : block < dirBlockCount s.super inode)
    (hhole : s.fileBlock e inode block = 0) (a : α) :
    ∃ c', w.blocks e inode n none' some' (left + 1) block a (s.at c) =
      w.blocks e inode n none' some' left (block + 1) a (s.at c') := by
  obtain ⟨c', hget⟩ := fileBlock_run he hi c
  refine ⟨c', ?_⟩
  rw [blocks, bind_apply_of_ok hget, if_pos hhole]

/-- A block is read, and its records are walked along. -/
theorem blocks_block (hi : block < dirBlockCount s.super inode)
    (hne : s.fileBlock e inode block ≠ 0) (a : α) :
    ∃ c', w.blocks e inode n none' some' (left + 1) block a (s.at c) =
      match Lib.loop (w.turn s.super.blockSize (s.loaded e (s.fileBlock e inode block)))
        .outOfFuel n (w.start a) with
      | .error f => .error f
      | .ok r =>
          match w.onward r with
          | some b => w.blocks e inode n none' some' left (block + 1) b (s.at c')
          | none => some' (s.fileBlock e inode block)
              (s.loaded e (s.fileBlock e inode block)) r (s.at c') := by
  obtain ⟨c₁, hget⟩ := fileBlock_run he hi c
  refine ⟨c₁ + 1, ?_⟩
  have hread : readBlock e (s.fileBlock e inode block) (s.at c₁) =
      .ok (some (s.loaded e (s.fileBlock e inode block)), s.at (c₁ + 1)) :=
    readBlock_run he _
  rw [blocks, bind_apply_of_ok hget, if_neg hne, bind_apply_of_ok hread]
  simp only []
  rw [bind_apply_of_ok (super_run _), show (s.at (c₁ + 1)).super = s.super from rfl]
  cases Lib.loop (w.turn s.super.blockSize (s.loaded e (s.fileBlock e inode block)))
    .outOfFuel n (w.start a) with
  | error f => rfl
  | ok r =>
      simp only []
      cases w.onward r <;> rfl

/-- **A walk through blocks that can be walked along ends.** -/
theorem blocks_ne_outOfFuel (hwalk : BlocksWalkable e inode s)
    (hnone : Brief none') (hsome : ∀ y buf r, Brief (some' y buf r))
    (hn : s.super.blockSize < n) (hleft : block + left = dirBlockCount s.super inode) (a : α) :
    w.blocks e inode n none' some' left block a (s.at c) ≠ .error .outOfFuel := by
  induction left generalizing block a c with
  | zero => exact hnone.fuel _
  | succ left ih =>
      have hi : block < dirBlockCount s.super inode := by omega
      by_cases hhole : s.fileBlock e inode block = 0
      · obtain ⟨c', hrun⟩ := blocks_hole (w := w) he hi hhole a
        rw [hrun]
        exact ih (by omega) a
      · obtain ⟨c', hrun⟩ := blocks_block (w := w) he hi hhole a
        have hloop := w.loop_ne_outOfFuel (hwalk block hi hhole) a hn
        rw [hrun]
        cases hr : Lib.loop (w.turn s.super.blockSize
            (s.loaded e (s.fileBlock e inode block))) .outOfFuel n (w.start a) with
        | error f => exact fun heq => hloop (by rw [hr]; cases heq; rfl)
        | ok r =>
            simp only []
            cases w.onward r with
            | none => exact (hsome _ _ _).fuel _
            | some b => exact ih (by omega) b

end Blocks

end Scan

/-! ## The calls end -/

/-- A name that is longer than a record can hold. -/
def longName : List UInt8 := List.replicate 256 1

section Halting

variable (he : e.Reliable)

include he

/-- What `FindEntry`, `AddEntry` and `RemoveEntry` check first. -/
theorem opened_run {a b : β} {f : SuperBlock → Io β} (hdir : inode.isDir = true)
    (hsize : 0 < s.super.blockSize) :
    (do
      let sb ← super
      if !inode.isDir then
        pure a
      else if sb.blockSize = 0 then
        throw .divByZero
      else if !(← pageAlloc e) then
        pure b
      else
        f sb : Io β) s = f s.super (s.at (s.clock + 1)) := by
  rw [bind_apply_of_ok (super_run s), hdir]
  simp only [Bool.not_true, Bool.false_eq_true, if_false]
  rw [if_neg hsize.ne', bind_apply_of_ok (pageAlloc_run he)]
  rfl

omit he in
/-- Without a block size they fail with a division. -/
theorem opened_of_zero {a b : β} {f : SuperBlock → Io β} (hdir : inode.isDir = true)
    (hsize : s.super.blockSize = 0) :
    (do
      let sb ← super
      if !inode.isDir then
        pure a
      else if sb.blockSize = 0 then
        throw .divByZero
      else if !(← pageAlloc e) then
        pure b
      else
        f sb : Io β) s = .error .divByZero := by
  rw [bind_apply_of_ok (super_run s), hdir]
  simp only [Bool.not_true, Bool.false_eq_true, if_false]
  rw [if_pos hsize]
  rfl

theorem opened_ne_outOfFuel {a b : β} {f : SuperBlock → Io β} (hdir : inode.isDir = true)
    (hf : f s.super (s.at (s.clock + 1)) ≠ .error .outOfFuel) :
    (do
      let sb ← super
      if !inode.isDir then
        pure a
      else if sb.blockSize = 0 then
        throw .divByZero
      else if !(← pageAlloc e) then
        pure b
      else
        f sb : Io β) s ≠ .error .outOfFuel := by
  by_cases hsize : s.super.blockSize = 0
  · rw [opened_of_zero hdir hsize]
    simp
  · rw [opened_run he hdir (Nat.pos_of_ne_zero hsize)]
    exact hf

theorem findEntry_halts (hdir : inode.isDir = true) (hwalk : BlocksWalkable e inode s)
    (x : List UInt8) : Halts .outOfFuel fun n => findEntry e inode x n s := by
  refine Halts.of_lt (m := s.super.blockSize) fun n hn => ?_
  refine opened_ne_outOfFuel he hdir ?_
  rw [Scan.findFrom_eq]
  exact Scan.blocks_ne_outOfFuel he hwalk (Brief.pure _) (fun _ _ _ => Brief.pure _) hn
    (Nat.zero_add _) ()

theorem removeEntry_halts (hdir : inode.isDir = true) (hwalk : BlocksWalkable e inode s)
    (x : List UInt8) : Halts .outOfFuel fun n => removeEntry e inode x n s := by
  refine Halts.of_lt (m := s.super.blockSize) fun n hn => ?_
  refine opened_ne_outOfFuel he hdir ?_
  rw [Scan.removeFrom_eq]
  refine Scan.blocks_ne_outOfFuel he hwalk (Brief.pure _) (fun y _ r => ?_) hn (Nat.zero_add _) ()
  cases r with
  | none => exact Brief.pure _
  | some buf =>
      exact (brief_writeBlock he y buf).bind fun _ =>
        Brief.ite (fun _ => Brief.pure _) fun _ => Brief.pure _

theorem readdir_halts {num : Nat} (hread : readInode e num s = .ok (.ok inode, t))
    (hwalk : BlocksWalkable e inode s) (index : Nat) :
    Halts .outOfFuel fun n => readdir e num index n s := by
  refine Halts.of_lt (m := s.super.blockSize) fun n hn => ?_
  obtain ⟨ht, -⟩ := (looks_readInode he num).again hread
  rw [readdir, bind_apply_of_ok hread, ht]
  simp only []
  cases inode.isDir with
  | false => exact (Brief.pure _).fuel _
  | true =>
      simp only [Bool.not_true, Bool.false_eq_true, if_false]
      rw [bind_apply_of_ok (super_run _), show (s.at t.clock).super = s.super from rfl]
      by_cases hsize : s.super.blockSize = 0
      · rw [if_pos hsize]
        exact (Brief.throw (by decide)).fuel _
      · rw [if_neg hsize, bind_apply_of_ok (pageAlloc_run he)]
        simp only [Bool.not_true, Bool.false_eq_true, if_false]
        rw [Scan.readdirFrom_eq]
        refine Scan.blocks_ne_outOfFuel he hwalk (Brief.pure _) (fun _ _ r => ?_) hn
          (Nat.zero_add _) 0
        cases r with
        | inl c => exact Brief.pure _
        | inr o =>
            exact (brief_pageAlloc he).bind fun _ =>
              Brief.ite (fun _ => Brief.pure _) fun _ => Brief.pure _

/-! ## A name that is nowhere -/

omit he in
/-- The search goes past every record. -/
theorem findTurn_long {o : Nat} (hlt : o < size) (hin : o + direntHeader ≤ size) :
    findTurn e buf size longName o = .ok (.again (o + direntRecLen buf o)) := by
  have hlen : direntNameLen buf o < longName.length := by
    rw [longName, List.length_replicate]
    exact (buf (o + 6)).toNat_lt
  have hmatch : direntMatches buf o longName = .ok false := by
    simp only [direntMatches, if_pos hlen]
    split
    · split <;> rfl
    · rfl
  rw [findTurn, if_pos hlt, if_pos hin, hmatch]

omit he in
/-- A walk that passes all records of a block comes to its end. -/
theorem loop_passes {body : Nat → Except Fault (Turn Nat (Option Bytes))}
    (h : Walkable size buf) (hend : ∀ o, size ≤ o → body o = .ok (.leave none))
    (hturn : ∀ o, Along size buf o → o < size → o + direntHeader ≤ size →
      body o = .ok (.again (o + direntRecLen buf o))) (hn : size < n) :
    Lib.loop body .outOfFuel n 0 = .ok none := by
  have hturns : ∀ k o, Along size buf o ∧ size - o ≤ k → ∃ u, body o = .ok u ∧
      u.Meets (fun o' => ∃ j, j < k ∧ Along size buf o' ∧ size - o' ≤ j) fun r => r = none := by
    rintro k o ⟨halong, hk⟩
    by_cases hlt : o < size
    · obtain ⟨hin, hne⟩ := h o halong hlt
      exact ⟨_, hturn o halong hlt hin, size - (o + direntRecLen buf o), by omega, halong.next hlt,
        Nat.le_refl _⟩
    · exact ⟨_, hend o (Nat.le_of_not_lt hlt), rfl⟩
  obtain ⟨r, hr, rfl⟩ := loop_returns hturns (k := size) ⟨.start, Nat.sub_le _ _⟩ hn
  exact hr

/-- **The search for the name comes to block `i`** when the blocks before can be walked along. -/
theorem find_comes {i : Nat} (hi : i ≤ dirBlockCount s.super inode)
    (hwalk : ∀ j, j < i → s.fileBlock e inode j ≠ 0 →
      Walkable s.super.blockSize (s.loaded e (s.fileBlock e inode j))) :
    (findScan e longName).Begins e inode s () i () ∧ ∀ n, s.super.blockSize < n → ∀ c, ∃ c',
      findFrom e inode longName n (dirBlockCount s.super inode) 0 (s.at c) =
        findFrom e inode longName n (dirBlockCount s.super inode - i) i (s.at c') := by
  induction i with
  | zero => exact ⟨.first, fun n _ c => ⟨c, rfl⟩⟩
  | succ i ih =>
      obtain ⟨hbegins, hrun⟩ := ih (Nat.le_of_succ_le hi) fun j hj => hwalk j (Nat.lt_succ_of_lt hj)
      obtain ⟨left, hleft⟩ : ∃ left, dirBlockCount s.super inode - i = left + 1 :=
        ⟨dirBlockCount s.super inode - (i + 1), by omega⟩
      have hleft' : dirBlockCount s.super inode - (i + 1) = left := by omega
      by_cases hhole : s.fileBlock e inode i = 0
      · refine ⟨hbegins.hole hi ?_, fun n hn c => ?_⟩
        · rw [Scan.buffer, hhole]
          rfl
        · obtain ⟨c₁, hc₁⟩ := hrun n hn c
          rw [hc₁, hleft, hleft', Scan.findFrom_eq, Scan.findFrom_eq]
          exact Scan.blocks_hole he hi hhole ()
      · have hloop : ∀ {n}, s.super.blockSize < n → Lib.loop ((findScan e longName).turn
            s.super.blockSize (s.loaded e (s.fileBlock e inode i))) .outOfFuel n 0 = .ok none := by
          intro n hn
          rw [findScan_turn]
          exact loop_passes (hwalk i (Nat.lt_succ_self i) hhole)
            (fun o ho => if_neg (Nat.not_lt.mpr ho)) (fun o _ hlt hin => findTurn_long hlt hin) hn
        refine ⟨hbegins.behind hi ?_ (hloop (Nat.lt_succ_self _)) rfl, fun n hn c => ?_⟩
        · rw [Scan.buffer, if_pos hhole]
        · obtain ⟨c₁, hc₁⟩ := hrun n hn c
          rw [hc₁, hleft, hleft', Scan.findFrom_eq, Scan.findFrom_eq]
          refine (Scan.blocks_block he hi hhole ()).imp fun c₂ hc₂ => hc₂.trans ?_
          rw [findScan_start, hloop hn]
          rfl

/-- **When the search ends and reads no header outside, all blocks can be walked along.** -/
theorem blocksWalkable_of_find (hdir : inode.isDir = true)
    (hhalts : Halts .outOfFuel fun n => findEntry e inode longName n s)
    (hinside : (findScan e longName).Inside e inode s ()) : BlocksWalkable e inode s := by
  intro i
  induction i using Nat.strong_induction_on with
  | _ i ih =>
      intro hi hne o ho hlt
      obtain ⟨hbegins, hrun⟩ := find_comes he (Nat.le_of_lt hi) fun j hj => ih j hj (hj.trans hi)
      have hbuf : (findScan e longName).buffer e inode s i =
          some (s.loaded e (s.fileBlock e inode i)) := if_pos hne
      have hin : ∀ o, Visits ((findScan e longName).turn s.super.blockSize
          (s.loaded e (s.fileBlock e inode i))) 0 o → o < s.super.blockSize →
            o + direntHeader ≤ s.super.blockSize :=
        fun o hv hlt => hinside hbegins hi hbuf hv hlt
      have hvisits : ∀ o, Along s.super.blockSize (s.loaded e (s.fileBlock e inode i)) o →
          Visits ((findScan e longName).turn s.super.blockSize
            (s.loaded e (s.fileBlock e inode i))) 0 o := by
        intro o ho
        induction ho with
        | start => exact .start
        | next _ hlt ihv =>
            refine ihv.again ?_
            rw [findScan_turn]
            exact findTurn_long hlt (hin _ ihv hlt)
      have ho := hvisits o ho
      refine ⟨hin o ho hlt, fun hzero => ?_⟩
      have hturn : (findScan e longName).turn s.super.blockSize
          (s.loaded e (s.fileBlock e inode i)) o =
            .ok (.again (o + direntRecLen (s.loaded e (s.fileBlock e inode i)) o)) := by
        rw [findScan_turn]
        exact findTurn_long hlt (hin o ho hlt)
      rw [hzero, Nat.add_zero] at hturn
      refine not_halts (m := s.super.blockSize) (fun n hn => ?_) hhalts
      obtain ⟨left, hleft⟩ : ∃ left, dirBlockCount s.super inode - i = left + 1 :=
        ⟨dirBlockCount s.super inode - (i + 1), by omega⟩
      obtain ⟨c, hc⟩ := hrun n hn (s.clock + 1)
      refine (opened_run he hdir (size_pos_of_lt hi)).trans (hc.trans ?_)
      rw [hleft, Scan.findFrom_eq]
      obtain ⟨c', hc'⟩ : ∃ c', _ = _ := Scan.blocks_block (c := c) he hi hne ()
      refine hc'.trans ?_
      rw [findScan_start, ho.loop_stuck hturn]

end Halting

/-! ## Holes in `AddEntry` -/

/-- `AddEntry` can fill block `i`: `AllocBlock` has a block, and `SetBlockNum` enters it. -/
def Fills (e : Env) (inode : Inode) (s : State) (i : Nat) : Prop :=
  ∃ x t r, allocBlock e s = .ok (x, t) ∧ x ≠ 0 ∧ setBlockNum e inode i x t = .ok r

/-- Some record of block `i` has room for a name of `len` bytes. -/
def HasRoom (e : Env) (inode : Inode) (s : State) (i len : Nat) : Prop :=
  ∃ o, Along s.super.blockSize (s.loaded e (s.fileBlock e inode i)) o ∧ o < s.super.blockSize ∧
    Room len (s.loaded e (s.fileBlock e inode i)) o

/-- `AddEntry` comes to no hole that it can fill: there is room for every name before the first. -/
def HolesApart (e : Env) (inode : Inode) (s : State) : Prop :=
  ∀ i, i < dirBlockCount s.super inode → s.fileBlock e inode i = 0 →
    (∀ j, j < i → s.fileBlock e inode j ≠ 0) → Fills e inode s i →
      ∃ j, j < i ∧ HasRoom e inode s j 255

theorem bind_ne_outOfFuel {x : Io α} {f : α → Io β} (hx : x s ≠ .error .outOfFuel)
    (hf : ∀ a, Brief (f a)) : (x >>= f) s ≠ .error .outOfFuel := by
  cases h : x s with
  | error err =>
      rw [h] at hx
      rw [bind_apply, h]
      exact fun heq => hx (by cases heq; rfl)
  | ok r =>
      rw [bind_apply, h]
      exact (hf r.1).fuel r.2

/-- What `AddEntry` does with a hole. -/
def fillHole (e : Env) (inode : Inode) (block : Nat) :
    Io (Inode × Except Int (Option (Nat × Bytes))) := do
  let blockNum ← allocBlock e
  if blockNum = 0 then
    pure (inode, .error (-5))
  else do
    let (_, inode) ← setBlockNum e inode block blockNum
    pure (inode, .ok (some (blockNum, fun _ => 0)))

/-- A hole that is not filled is reported. -/
theorem fillHole_of_not_fills {i : Nat} {r : Inode × Except Int (Option (Nat × Bytes))}
    (hfills : ¬ Fills e inode s i) (h : fillHole e inode i s = .ok (r, t)) : r.2 = .error (-5) := by
  rw [fillHole, bind_apply] at h
  cases halloc : allocBlock e s with
  | error f =>
      rw [halloc] at h
      cases h
  | ok a =>
      obtain ⟨x, u⟩ := a
      rw [halloc] at h
      change (if x = 0 then _ else _ : Io _) u = _ at h
      by_cases hx : x = 0
      · rw [if_pos hx] at h
        cases h
        rfl
      · rw [if_neg hx, bind_apply] at h
        cases hset : setBlockNum e inode i x u with
        | error f =>
            rw [hset] at h
            cases h
        | ok a => exact absurd ⟨x, u, a, halloc, hx, hset⟩ hfills

/-- A hole that is filled holds zeros. -/
theorem Fills.fillHole {i : Nat} (h : Fills e inode s i) :
    ∃ inode' x t, fillHole e inode i s = .ok ((inode', .ok (some (x, fun _ => 0))), t) := by
  obtain ⟨x, u, ⟨⟨code, inode'⟩, t⟩, halloc, hx, hset⟩ := h
  refine ⟨inode', x, t, ?_⟩
  rw [Ext2.fillHole, bind_apply_of_ok halloc, if_neg hx, bind_apply_of_ok hset]
  rfl

/-- `AddEntry` goes on behind a record that has no room. -/
theorem addTurn_of_not_room {m : Nat} {ft : UInt8} {o : Nat} (hlt : o < size)
    (hin : o + direntHeader ≤ size) (hroom : ¬ Room x.length buf o) :
    addTurn size m x ft buf o = .ok (.again (o + direntRecLen buf o)) := by
  rw [Room, usedLen] at hroom
  simp only [addTurn, if_pos hlt, if_pos hin]
  by_cases hlive : direntInode buf o ≠ 0
  · rw [if_pos hlive] at hroom ⊢
    rw [if_neg (by omega)]
  · rw [if_neg hlive] at hroom ⊢
    rw [if_neg (by omega)]

/-- `AddEntry` does not leave the block at a record. -/
theorem addTurn_leave_none {m : Nat} {ft : UInt8} {o : Nat}
    (h : addTurn size m x ft buf o = .ok (.leave none)) : size ≤ o := by
  simp only [addTurn] at h
  split at h
  · split at h
    · split at h
      · split at h
        · split at h <;> cases h
        · cases h
      · split at h
        · split at h <;> cases h
        · cases h
    · cases h
  · omega

/-- A block that `AddEntry` has walked through has no room. -/
theorem not_room_of_loop {m : Nat} {ft : UInt8}
    (h : Lib.loop (addTurn size m x ft buf) .outOfFuel n 0 = .ok none) {o : Nat}
    (ho : Along size buf o) (hlt : o < size) : ¬ Room x.length buf o := by
  have hturn : ∀ {o}, Visits (addTurn size m x ft buf) 0 o → o < size →
      addTurn size m x ft buf o = .ok (.again (o + direntRecLen buf o)) ∧
        ¬ Room x.length buf o := by
    intro o hv hlt
    obtain ⟨k, hk⟩ := hv.loop_ok h
    cases k with
    | zero => cases hk
    | succ k =>
        cases hb : addTurn size m x ft buf o with
        | error f =>
            rw [loop_of_error hb] at hk
            cases hk
        | ok u =>
            cases u with
            | leave r =>
                rw [loop_of_leave hb] at hk
                cases hk
                exact absurd hlt (Nat.not_lt.mpr (addTurn_leave_none hb))
            | again o' =>
                obtain ⟨-, rfl, hroom⟩ := addTurn_again hb
                exact ⟨rfl, hroom⟩
  have hvisits : Visits (addTurn size m x ft buf) 0 o := by
    clear hlt
    induction ho with
    | start => exact .start
    | next _ hlt ih => exact ih.again (hturn ih hlt).1
  exact (hturn hvisits hlt).2

section Adding

variable (he : e.Reliable) {m left block c : Nat} {ft : UInt8}

include he

/-- `AddEntry` reads a block and walks along its records. -/
theorem addFrom_block (hi : block < dirBlockCount s.super inode)
    (hne : s.fileBlock e inode block ≠ 0) :
    ∃ c', addFrom e m x ft n (left + 1) block inode (s.at c) =
      match Lib.loop (addTurn s.super.blockSize m x ft (s.loaded e (s.fileBlock e inode block)))
        .outOfFuel n 0 with
      | .error f => .error f
      | .ok (some buf) => (do
          if !(← writeBlock e (s.fileBlock e inode block) buf) then
            pure (some (-6), inode)
          else
            pure (some 0, inode) : Io (Option Int × Inode)) (s.at c')
      | .ok none => addFrom e m x ft n left (block + 1) inode (s.at c') := by
  obtain ⟨c₁, hget⟩ := fileBlock_run he hi c
  refine ⟨c₁ + 1, ?_⟩
  have hread : readBlock e (s.fileBlock e inode block) (s.at c₁) =
      .ok (some (s.loaded e (s.fileBlock e inode block)), s.at (c₁ + 1)) := readBlock_run he _
  have hdir : dirBlock e inode block (s.at c) = .ok ((inode,
      .ok (some (s.fileBlock e inode block, s.loaded e (s.fileBlock e inode block)))),
        s.at (c₁ + 1)) := by
    rw [dirBlock, bind_apply_of_ok hget, if_neg hne, bind_apply_of_ok hread]
    rfl
  rw [addFrom, bind_apply_of_ok hdir]
  simp only []
  rw [bind_apply_of_ok (super_run _), show (s.at (c₁ + 1)).super = s.super from rfl]
  cases Lib.loop (addTurn s.super.blockSize m x ft (s.loaded e (s.fileBlock e inode block)))
    .outOfFuel n 0 with
  | error f => rfl
  | ok r => cases r <;> rfl

/-- `AddEntry` fills a hole. -/
theorem dirBlock_hole (hi : block < dirBlockCount s.super inode)
    (hhole : s.fileBlock e inode block = 0) :
    ∃ c', dirBlock e inode block (s.at c) = fillHole e inode block (s.at c') := by
  obtain ⟨c', hget⟩ := fileBlock_run he hi c
  refine ⟨c', ?_⟩
  rw [dirBlock, bind_apply_of_ok hget, if_pos hhole]
  rfl

theorem brief_fillHole (inode : Inode) (i : Nat) : Brief (fillHole e inode i) :=
  (brief_allocBlock he).bind fun _ => Brief.ite (fun _ => Brief.pure _) fun _ =>
    (brief_setBlockNum he inode i _).bind fun _ => Brief.pure _

/-- **The walk of `AddEntry` ends** when it comes to no hole that can be filled.  The blocks before
have no room for the name, else it would have ended there. -/
theorem addFrom_ne_outOfFuel (hwalk : BlocksWalkable e inode s) (hholes : HolesApart e inode s)
    (hx : x.length ≤ 255) (hn : s.super.blockSize < n)
    (hleft : block + left = dirBlockCount s.super inode)
    (hpassed : ∀ j, j < block → s.fileBlock e inode j ≠ 0 ∧
      ¬ HasRoom e inode s j x.length) :
    addFrom e m x ft n left block inode (s.at c) ≠ .error .outOfFuel := by
  induction left generalizing block c with
  | zero => exact (Brief.pure _).fuel _
  | succ left ih =>
      have hi : block < dirBlockCount s.super inode := by omega
      by_cases hhole : s.fileBlock e inode block = 0
      · have hfills : ¬ Fills e inode s block := by
          intro hfills
          obtain ⟨j, hj, o, ho, hlt, hroom⟩ := hholes block hi hhole (fun j hj => (hpassed j hj).1)
            hfills
          exact (hpassed j hj).2 ⟨o, ho, hlt, hroom.mono hx⟩
        obtain ⟨c', hdir⟩ := dirBlock_hole he hi hhole (c := c)
        obtain ⟨c₂, htime⟩ := (brief_fillHole he inode block).at_time s c'
        have hfuel := (brief_fillHole he inode block).fuel s
        rw [addFrom, bind_apply, hdir, htime]
        cases hfill : fillHole e inode block s with
        | error f =>
            rw [hfill] at hfuel
            exact fun heq => hfuel (by cases heq; rfl)
        | ok a =>
            obtain ⟨⟨inode', r⟩, u⟩ := a
            obtain rfl : r = .error (-5) := fillHole_of_not_fills hfills hfill
            exact (Brief.pure (some (-5), inode')).fuel (u.at c₂)
      · obtain ⟨c', hrun⟩ : ∃ c', addFrom e m x ft n (left + 1) block inode (s.at c) = _ :=
          addFrom_block he hi hhole
        have hloop := (addScan m x ft).loop_ne_outOfFuel (hwalk block hi hhole) () hn
        rw [addScan_turn, addScan_start] at hloop
        rw [hrun]
        cases hr : Lib.loop (addTurn s.super.blockSize m x ft
            (s.loaded e (s.fileBlock e inode block))) .outOfFuel n 0 with
        | error f => exact fun heq => hloop (hr.trans (by cases heq; rfl))
        | ok r =>
            cases r with
            | none =>
                refine ih (by omega) fun j hj => ?_
                rcases Nat.lt_succ_iff_lt_or_eq.mp hj with hj | rfl
                · exact hpassed j hj
                · exact ⟨hhole, fun hroom => not_room_of_loop hr hroom.choose_spec.1
                    hroom.choose_spec.2.1 hroom.choose_spec.2.2⟩
            | some buf =>
                exact ((brief_writeBlock he _ buf).bind fun _ =>
                  Brief.ite (fun _ => Brief.pure _) fun _ => Brief.pure _).fuel _

theorem brief_addBlock (inode : Inode) (blockCount m : Nat) (x : List UInt8) (ft : UInt8) :
    Brief (addBlock e inode blockCount m x ft) := by
  refine (brief_allocBlock he).bind fun _ => Brief.ite (fun _ => Brief.pure _) fun _ => ?_
  refine (brief_setBlockNum he inode _ _).bind fun _ => Brief.super.bind fun _ => ?_
  refine Brief.ite (fun _ => ?_) fun _ => Brief.throw (by decide)
  exact (brief_writeBlock he _ _).bind fun _ =>
    Brief.ite (fun _ => Brief.pure _) fun _ => Brief.pure _

theorem addEntry_halts (hdir : inode.isDir = true) (hwalk : BlocksWalkable e inode s)
    (hholes : HolesApart e inode s) (m : Nat) (x : List UInt8) (ft : UInt8) :
    Halts .outOfFuel fun n => addEntry e inode m x ft n s := by
  refine Halts.of_lt (m := s.super.blockSize) fun n hn => ?_
  rw [addEntry, bind_apply_of_ok (super_run s), hdir]
  simp only [Bool.not_true, Bool.false_eq_true, if_false]
  by_cases hx : x.length > 255
  · rw [if_pos hx]
    exact (Brief.pure _).fuel _
  · rw [if_neg hx]
    by_cases hsize : s.super.blockSize = 0
    · rw [if_pos hsize]
      exact (Brief.throw (by decide)).fuel _
    · rw [if_neg hsize, bind_apply_of_ok (pageAlloc_run he)]
      refine bind_ne_outOfFuel (addFrom_ne_outOfFuel he hwalk hholes (Nat.le_of_not_lt hx) hn
        (Nat.zero_add _) fun j hj => absurd hj (Nat.not_lt_zero j)) fun r => ?_
      obtain ⟨code, inode'⟩ := r
      cases code with
      | some code => exact Brief.pure _
      | none => exact brief_addBlock he _ _ _ _ _

/-- **The walk of `AddEntry` comes to block `i`** when no block before it has room or is a hole. -/
theorem add_comes (hwalk : BlocksWalkable e inode s) {i : Nat} (hi : i ≤
    dirBlockCount s.super inode)
    (hpassed : ∀ j, j < i → s.fileBlock e inode j ≠ 0 ∧
      ¬ HasRoom e inode s j x.length) (hn : s.super.blockSize < n) (c : Nat) :
    ∃ c', addFrom e m x ft n (dirBlockCount s.super inode) 0 inode (s.at c) =
      addFrom e m x ft n (dirBlockCount s.super inode - i) i inode (s.at c') := by
  induction i with
  | zero => exact ⟨c, rfl⟩
  | succ i ih =>
      obtain ⟨c₁, hc₁⟩ := ih (Nat.le_of_succ_le hi) fun j hj => hpassed j (Nat.lt_succ_of_lt hj)
      obtain ⟨hne, hroom⟩ := hpassed i (Nat.lt_succ_self i)
      obtain ⟨left, hleft⟩ : ∃ left, dirBlockCount s.super inode - i = left + 1 :=
        ⟨dirBlockCount s.super inode - (i + 1), by omega⟩
      have hleft' : dirBlockCount s.super inode - (i + 1) = left := by omega
      have hloop : Lib.loop (addTurn s.super.blockSize m x ft (s.loaded e (s.fileBlock e inode i)))
          .outOfFuel n 0 = .ok none :=
        loop_passes (hwalk i hi hne) (fun o ho => if_neg (Nat.not_lt.mpr ho))
          (fun o ho hlt hin => addTurn_of_not_room hlt hin fun h => hroom ⟨o, ho, hlt, h⟩) hn
      rw [hc₁, hleft, hleft']
      refine (addFrom_block he hi hne).imp fun c₂ hc₂ => hc₂.trans ?_
      rw [hloop]

/-- **`AddEntry` does not end** when it comes to a hole that it can fill: it walks along zeros. -/
theorem addEntry_stuck (hdir : inode.isDir = true) (hwalk : BlocksWalkable e inode s)
    (hx : x.length ≤ 255) {i : Nat} (hi : i < dirBlockCount s.super inode)
    (hhole : s.fileBlock e inode i = 0) (hpassed : ∀ j, j < i → s.fileBlock e inode j ≠ 0 ∧
      ¬ HasRoom e inode s j x.length) (hfills : Fills e inode s i) :
    ¬ Halts .outOfFuel fun n => addEntry e inode m x ft n s := by
  have hsize := size_pos_of_lt hi
  obtain ⟨inode', y, u, hfill⟩ := hfills.fillHole
  have hgeo := ((brief_fillHole he inode i).geometry hfill).blockSize
  have hturn : addTurn s.super.blockSize m x ft (fun _ => 0) 0 = .ok (.again 0) := by
    have hle := s.super.le_blockSize hsize
    have hheader : direntHeader = 8 := rfl
    refine addTurn_of_not_room hsize (by omega) fun hroom => ?_
    have hzero : direntRecLen (fun _ => 0) 0 = 0 := by decide
    rw [Room, hzero, direntLen] at hroom
    omega
  refine not_halts (m := s.super.blockSize) fun n hn => ?_
  obtain ⟨left, hleft⟩ : ∃ left, dirBlockCount s.super inode - i = left + 1 :=
    ⟨dirBlockCount s.super inode - (i + 1), by omega⟩
  obtain ⟨c, hc⟩ : ∃ c, addFrom e m x ft n _ 0 inode (s.at (s.clock + 1)) = _ :=
    add_comes he hwalk (Nat.le_of_lt hi) hpassed hn (s.clock + 1)
  obtain ⟨c', hdirBlock⟩ := dirBlock_hole he hi hhole (c := c)
  obtain ⟨c₂, htime⟩ := (brief_fillHole he inode i).at_time s c'
  rw [hfill] at htime
  have hstop : addFrom e m x ft n (left + 1) i inode (s.at c) = .error .outOfFuel := by
    rw [addFrom, bind_apply_of_ok (hdirBlock.trans htime)]
    simp only []
    rw [bind_apply_of_ok (super_run _), show (u.at c₂).super = u.super from rfl, hgeo,
      Visits.start.loop_stuck hturn]
    rfl
  rw [addEntry, bind_apply_of_ok (super_run s), hdir]
  simp only [Bool.not_true, Bool.false_eq_true, if_false]
  rw [if_neg (Nat.not_lt.mpr hx), if_neg hsize.ne', bind_apply_of_ok (pageAlloc_run he)]
  simp only [Bool.not_true, Bool.false_eq_true, if_false]
  rw [bind_apply, hc, hleft, hstop]
  rfl

/-- When `AddEntry` of a name of 255 bytes ends, it comes to no hole that can be filled. -/
theorem holesApart_of_add (hdir : inode.isDir = true) (hwalk : BlocksWalkable e inode s)
    (hx : x.length = 255) (hhalts : Halts .outOfFuel fun n => addEntry e inode m x ft n s) :
    HolesApart e inode s := by
  intro i hi hhole hmapped hfills
  by_contra hfull
  refine addEntry_stuck he hdir hwalk hx.le hi hhole (fun j hj => ⟨hmapped j hj, fun hroom => ?_⟩)
    hfills hhalts
  exact hfull ⟨j, hj, hx ▸ hroom⟩

end Adding

/-! ## Which directories are walked through to the end -/

/-- The four walks through the directory end, whatever they look for or add. -/
structure ScansEnd (e : Env) (inode : Inode) (num : Nat) (s : State) : Prop where
  findEntry (x : List UInt8) : Halts .outOfFuel fun n => findEntry e inode x n s
  addEntry (m : Nat) (x : List UInt8) (ft : UInt8) :
    Halts .outOfFuel fun n => addEntry e inode m x ft n s
  removeEntry (x : List UInt8) : Halts .outOfFuel fun n => removeEntry e inode x n s
  readdir (index : Nat) : Halts .outOfFuel fun n => readdir e num index n s

/-- The headers that the four walks read lie inside the blocks that they have read. -/
structure HeadersInside (e : Env) (inode : Inode) (s : State) : Prop where
  findEntry (x : List UInt8) : (findScan e x).Inside e inode s ()
  addEntry (m : Nat) (x : List UInt8) (ft : UInt8) : (addScan m x ft).Inside e inode s ()
  removeEntry (x : List UInt8) : (removeScan x).Inside e inode s ()
  readdir (index : Nat) : (readdirScan index).Inside e inode s 0

/-- In blocks that can be walked along, and in zeros, every header is inside. -/
theorem BlocksWalkable.inside (h : BlocksWalkable e inode s) (w : Scan α σ ρ) (a : α) :
    w.Inside e inode s a := by
  intro i b buf st _ hi hbuf hv hlt
  have halong := w.along hv
  by_cases hhole : s.fileBlock e inode i = 0
  · have hzeros : buf = fun _ => 0 := by
      rw [Scan.buffer, hhole] at hbuf
      simp only [ne_eq, not_true_eq_false, if_false] at hbuf
      split at hbuf
      · cases hbuf
      · exact (Option.some.inj hbuf).symm
    have hoffset : ∀ o, Along s.super.blockSize buf o → o = 0 := by
      intro o ho
      induction ho with
      | start => rfl
      | next _ _ ih =>
          rw [ih, hzeros]
          decide
    have hle := s.super.le_blockSize (size_pos_of_lt hi)
    have hheader : direntHeader = 8 := rfl
    rw [hoffset _ halong]
    omega
  · rw [Scan.buffer, if_pos hhole] at hbuf
    cases hbuf
    exact (h i hi hhole _ halong hlt).1

/-- **Which directories are walked through to the end.**  The walks of `FindEntry`, `AddEntry`,
`RemoveEntry` and `Readdir` end for whatever they are given, and read headers inside the blocks
only, exactly when the blocks can be walked along and `AddEntry` comes to no hole that it can
fill. -/
theorem scans_end_iff (he : e.Reliable) (hdir : inode.isDir = true) {num : Nat}
    (hread : readInode e num s = .ok (.ok inode, t)) :
    ScansEnd e inode num s ∧ HeadersInside e inode s ↔
      BlocksWalkable e inode s ∧ HolesApart e inode s := by
  constructor
  · rintro ⟨hend, hinside⟩
    have hwalk := blocksWalkable_of_find he hdir (hend.findEntry longName)
      (hinside.findEntry longName)
    exact ⟨hwalk, holesApart_of_add he hdir hwalk List.length_replicate
      (hend.addEntry 0 (List.replicate 255 1) 0)⟩
  · rintro ⟨hwalk, hholes⟩
    exact ⟨⟨findEntry_halts he hdir hwalk, addEntry_halts he hdir hwalk hholes,
      removeEntry_halts he hdir hwalk, readdir_halts he hread hwalk⟩,
      ⟨fun _ => hwalk.inside _ _, fun _ _ _ => hwalk.inside _ _, fun _ => hwalk.inside _ _,
        fun _ => hwalk.inside _ _⟩⟩

/-- The blocks of a directory that lists something can be walked along, with holes or without. -/
theorem Listing.blocksWalkable {os : Nat → List Nat}
    (hd : Listing e (fun _ : Unit => inode) s () os) : BlocksWalkable e inode s := by
  intro i hi hne
  refine ((hd.tiles hi hne).of_block fun j hj => ?_).walkable
  exact copyOut_of_lt hj

/-- A directory without holes has no hole to fill. -/
theorem Whole.holesApart (h : Whole e (fun _ : Unit => inode) s ()) : HolesApart e inode s :=
  fun i hi hhole => absurd hhole (h i hi)

/-- On a volume whose counts are right, a hole can be filled when there is a free block. -/
theorem fills_iff (he : e.Reliable) (h : Files e (fun _ : Unit => inode) s) (hc : Counted e s)
    {i : Nat} (hi : i < dirBlockCount s.super inode) :
    Fills e inode s i ↔ s.super.sFreeBlocksCount ≠ 0 := by
  have hunfit : ∀ {s' : State}, SameLayout e s s' → ∀ err, Unfit s' .block err → False := by
    exact fun hl err herr => hc.not_unfit (herr.of_layout hl)
  have halloc := (allocBlock_ends he h.consistent.roles fun _ =>
    h.consistent.meta_used).mono_error (hunfit (SameLayout.refl e s))
  constructor
  · rintro ⟨x, t, -, hx, hne, -⟩
    rcases halloc.of_result hx with ⟨rfl, -⟩ | hnew
    · exact absurd rfl hne
    · have hfree := hc.free_newBlock hnew
      omega
  · intro hcount
    obtain ⟨b, t, hb, hno | hnew⟩ := halloc.exists_ok
    · have hempty : {n | Free e s .block n} = ∅ :=
        Set.eq_empty_of_forall_notMem fun n hn => hc.not_free (k := .block) hno.2.passed n hn
      have hfree : s.super.sFreeBlocksCount = _ := (hc.ncard_free .block).symm
      rw [hempty, Set.ncard_empty] at hfree
      exact absurd hfree hcount
    · have hframe : Frame e (fun _ => False) s t := hnew.frame
      have hm : Mapped e (fun _ : Unit => inode) t := (h.of_frame hframe fun _ _ => id).mapped
      have hptrs : t.super.ptrsPerBlock = s.super.ptrsPerBlock := by
        rw [SuperBlock.ptrsPerBlock, SuperBlock.ptrsPerBlock, hframe.layout.geometry.blockSize]
      obtain ⟨hmax, hreach⟩ := dirBlock_in_range h.consistent.roles.size_pos hi
      obtain ⟨r, u, hr, -⟩ := ((setBlockNum_ends (k := ()) he i b hm (by rwa [hptrs])
        (by rwa [hptrs]) hnew.lt).mono_error fun err hf => hunfit hframe.layout err hf).exists_ok
      exact ⟨b, t, (r, u), hb, hnew.ne_zero h.consistent, hr⟩

/-! ## A directory of one record, and one of one hole -/

/-- A directory of one record is walked through to the end. -/
theorem scans_end_single : ∃ y, (∃ t, readInode (Env.ideal 0) 2 Small.single = .ok (.ok y, t)) ∧
    ScansEnd (Env.ideal 0) y 2 Small.single ∧ HeadersInside (Env.ideal 0) y Small.single := by
  obtain ⟨y, c, hread, hsame⟩ := Small.readInode_single
  have hsize : 0 < Small.single.super.blockSize := by decide
  have hd := (Small.listing_single.of_same (g := fun _ : Unit => y) hsize hsame).1
  refine ⟨y, ⟨_, hread⟩, (scans_end_iff (Env.ideal_reliable 0) hd.isDir hread).mpr
    ⟨hd.blocksWalkable, Whole.holesApart fun i hi => ?_⟩⟩
  have hcount := dirBlockCount_of_same (s := Small.single) hsame
  rw [dataBlock_of_same (f := fun _ : Unit => Small.dirInode) hsize hsame (hcount ▸ hi)]
  rw [hcount, Small.count_single, Nat.lt_one_iff] at hi
  rw [hi, Small.dataBlock_single]
  decide

/-- A directory of one block that is a hole. -/
def Small.sparseInode : Inode := ⟨Small.store (fun _ => 0) [(0, 2, 0x41ED), (4, 4, 1024)]⟩

theorem Small.ref_sparseInode {p : (Unit × Nat) × List Nat} (hp : (s.shape Unit).Pos p) :
    (s.forest e fun _ => Small.sparseInode).ref p = 0 := by
  have hblocks : ∀ slot < 15, Small.sparseInode.iBlock slot = 0 := by decide
  show walk _ (Small.sparseInode.iBlock p.1.2) p.2 = 0
  rw [hblocks _ hp.root, walk_zero]

theorem files_sparse :
    Files (Env.ideal 0) (fun _ : Unit => Small.sparseInode) (Small.volume 0 0xFF) where
  consistent := counted_small.consistent
  unshared _ _ hp _ hne := absurd (Small.ref_sparseInode hp) hne
  owned hp hne := absurd (Small.ref_sparseInode hp) hne

/-- A name is added to a directory with a hole for ever. -/
theorem addEntry_fills_hole_for_ever : ¬ Halts .outOfFuel fun n =>
    addEntry (Env.ideal 0) Small.sparseInode 12 [97] 1 n (Small.volume 0 0xFF) := by
  have hcount : dirBlockCount (Small.volume 0 0xFF).super Small.sparseInode = 1 := by decide
  have hhole : (Small.volume 0 0xFF).fileBlock (Env.ideal 0) Small.sparseInode 0 = 0 := by
    decide
  have hlt : 0 < dirBlockCount (Small.volume 0 0xFF).super Small.sparseInode := by
    rw [hcount]
    decide
  have hwalk : BlocksWalkable (Env.ideal 0) Small.sparseInode (Small.volume 0 0xFF) := by
    intro i hi hne
    rw [hcount, Nat.lt_one_iff] at hi
    rw [hi] at hne
    exact absurd hhole hne
  exact addEntry_stuck (Env.ideal_reliable 0) (by decide) hwalk (by decide) hlt hhole
    (fun j hj => absurd hj (Nat.not_lt_zero j))
    ((fills_iff (Env.ideal_reliable 0) files_sparse counted_small hlt).mpr (by decide))

/-- The walks do not end in every directory. -/
theorem scans_end_fails : ¬ (ScansEnd (Env.ideal 0) Small.sparseInode 2 (Small.volume 0 0xFF) ∧
    HeadersInside (Env.ideal 0) Small.sparseInode (Small.volume 0 0xFF)) :=
  fun h => addEntry_fills_hole_for_ever (h.1.addEntry 12 [97] 1)

end InfoKernel.Ext2
