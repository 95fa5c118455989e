import InfoKernel.Fs.ReadBounds

/-!
# Reading over holes, and reading in parts

`ReadFile` stops at the first block that is not mapped.  What it gives is therefore the longest
part of the range that begins at its start and lies in blocks (`Reach`), and a file with a hole in
the range is not read to its end (`readFile_full_iff`): the `break` that the loop has for a block
that cannot be read is also the one for a block that holds only zeros.

`vfs::Read` advances the position by what it has read.  Since a read stops at a hole or at the end
of the file for good, a second read that begins where the first has stopped takes up exactly what
one read of both lengths would have given (`vfsRead_append`).
-/

namespace InfoKernel.Ext2

open Lib

variable {κ : Type*} {e : Env} {s t : State} {f : κ → Inode} {k : κ} {inode : Inode}
  {offset count want want' m m' n : Nat}

/-! ## How far a read gets -/

/-- Of `want` bytes from `offset` on, the first `m` lie in blocks, and the next does not. -/
structure Reach (e : Env) (f : κ → Inode) (s : State) (k : κ) (offset want m : Nat) : Prop where
  le : m ≤ want
  mapped {x : Nat} : offset ≤ x → x < offset + m → (s.forest e f).ref (s.bytePos k x) ≠ 0
  stop : m = want ∨ (s.forest e f).ref (s.bytePos k (offset + m)) = 0

namespace Reach

theorem le_of (h : Reach e f s k offset want m) (h' : Reach e f s k offset want m') : m ≤ m' := by
  by_contra hlt
  rcases h'.stop with heq | hhole
  · exact hlt (heq ▸ h.le)
  · exact h.mapped (Nat.le_add_right offset m') (by omega) hhole

/-- The file says how far it is. -/
theorem unique (h : Reach e f s k offset want m) (h' : Reach e f s k offset want m') : m = m' :=
  Nat.le_antisymm (h.le_of h') (h'.le_of h)

/-- The clock is no part of it. -/
theorem of_at {c : Nat} (h : Reach e f (s.at c) k offset want m) : Reach e f s k offset want m :=
  ⟨h.le, h.mapped, h.stop⟩

theorem full_iff (h : Reach e f s k offset want m) :
    m = want ↔ ∀ x, offset ≤ x → x < offset + want → (s.forest e f).ref (s.bytePos k x) ≠ 0 := by
  constructor
  · rintro rfl x hlo hhi
    exact h.mapped hlo hhi
  · intro hall
    rcases h.stop with heq | hhole
    · exact heq
    · by_contra hne
      have hle := h.le
      exact hall (offset + m) (Nat.le_add_right _ _) (by omega) hhole

/-- **One range behind the other.**  The second one begins where the first stops, and takes up
what is left of the file, of `size` bytes, there. -/
theorem append {size : Nat} (h : Reach e f s k offset (min n (size - offset)) m)
    (h' : Reach e f s k (offset + m) (min count (size - (offset + m))) m') :
    Reach e f s k offset (min (n + count) (size - offset)) (m + m') where
  le := by
    have hle := h.le
    have hle' := h'.le
    omega
  mapped {x} hlo hhi := by
    by_cases hx : x < offset + m
    · exact h.mapped hlo hx
    · exact h'.mapped (Nat.le_of_not_lt hx) (by omega)
  stop := by
    have hle' := h'.le
    rcases h.stop with heq | hhole
    · rcases h'.stop with heq' | hhole'
      · left
        omega
      · right
        rwa [← Nat.add_assoc]
    · -- the second range begins in a hole
      have hzero : m' = 0 := by
        by_contra hpos
        exact h'.mapped (Nat.le_refl _) (by omega) hhole
      rw [hzero, Nat.add_zero]
      exact .inr hhole

end Reach

/-! ## `ReadFile` -/

/-- **What `ReadFile` returns**, where blocks have bytes. -/
theorem readFile_reach {F : Fault → Prop} (he : e.Reliable) (out : Bytes)
    (hsize : 0 < s.super.blockSize) (hdir : (f k).isDir = false) (hlt : offset + count < 2 ^ 64)
    (hn : count < n) :
    Ends (readFile e (f k) out count offset n) s F fun r t => (∃ c, t = s.at c) ∧
      ∃ m : Nat, r.1 = m ∧ Reach e f s k offset (min count ((f k).iSize - offset)) m ∧
        ∀ j, j < m → r.2 j = fileByte e f s k (offset + j) := by
  refine (readFile_ends he out offset hsize hdir hlt hn).mono ?_
  rintro r t ⟨hclock, m, hr, hle, hdelivered, hstop⟩
  refine ⟨hclock, m, hr, ⟨hle, fun hlo hhi => (hdelivered _ hlo hhi).1, hstop⟩, fun j hj => ?_⟩
  have hbyte := (hdelivered (offset + j) (Nat.le_add_right _ _) (Nat.add_lt_add_left hj _)).2
  rwa [Nat.add_sub_cancel_left] at hbyte

/-- Where blocks have no bytes, the loop divides by their size as soon as there is something to
read. -/
theorem readFile_of_no_size (out : Bytes) (hsize : s.super.blockSize = 0)
    (hdir : inode.isDir = false) (hlt : offset + count < 2 ^ 64) (hn : count < n) :
    readFile e inode out count offset n s =
      if min count (inode.iSize - offset) = 0 then .ok ((0, out), s) else .error .divByZero := by
  rw [readFile, hdir, if_neg Bool.false_ne_true]
  by_cases hpast : offset ≥ inode.iSize
  · rw [if_pos hpast, if_pos (by omega)]
    rfl
  · rw [if_neg hpast, u64_of_lt hlt]
    have hread : (if offset + count > inode.iSize then inode.iSize - offset else count) =
        min count (inode.iSize - offset) := by
      split <;> omega
    rw [hread]
    obtain ⟨n, rfl⟩ : ∃ j, n = j + 1 := ⟨n - 1, by omega⟩
    by_cases hzero : min count (inode.iSize - offset) = 0
    · rw [if_pos hzero, hzero]
      rfl
    · have hturn : readTurn e inode offset (min count (inode.iSize - offset)) (0, out) s =
          .error .divByZero := by
        rw [readTurn, if_pos (Nat.pos_of_ne_zero hzero), bind_apply_of_ok (a := s.super) rfl,
          if_pos hsize]
        rfl
      rw [if_neg hzero, Program.loop, bind_apply, bind_apply, hturn]
      rfl

/-- Byte `x` of the file lies in a block. -/
def State.Maps (s : State) (e : Env) (inode : Inode) (x : Nat) : Prop :=
  0 < s.super.blockSize ∧ s.blockAt e inode x ≠ 0

/-- `ReadFile` returns all that is asked for and that the file has, with zeros for what is not
mapped. -/
def ReadsFull (e : Env) (inode : Inode) (s : State) (out : Bytes) (count offset n : Nat) : Prop :=
  ∃ buf t, readFile e inode out count offset n s =
      .ok (((min count (inode.iSize - offset) : Nat), buf), t) ∧
    ∀ j, j < min count (inode.iSize - offset) →
      buf j = fileByte e (fun _ : Unit => inode) s () (offset + j)

/-- **A read over a hole is cut short.**  `ReadFile` gives all bytes that are asked for and that the
file has, zeros where there is no block, exactly when there is a block for each of them. -/
theorem readFile_full_iff (he : e.Reliable) (hdir : inode.isDir = false)
    (hlt : offset + count < 2 ^ 32) (out : Bytes) (hn : count < n) :
    ReadsFull e inode s out count offset n ↔
      ∀ x, offset ≤ x → x < offset + min count (inode.iSize - offset) → s.Maps e inode x := by
  have hlt : offset + count < 2 ^ 64 := by omega
  by_cases hsize : 0 < s.super.blockSize
  · obtain ⟨r, t, hrun, -, m, hr, hreach, hbytes⟩ :=
      (readFile_reach (F := fun _ => False) (f := fun _ : Unit => inode) (k := ()) (s := s) he out
        hsize hdir hlt hn).exists_ok
    have hfull := hreach.full_iff
    constructor
    · rintro ⟨buf, t', hrun', -⟩ x hlo hhi
      rw [hrun] at hrun'
      injection hrun' with hrun'
      have hm : (m : Int) = (min count (inode.iSize - offset) : Nat) :=
        hr.symm.trans (congrArg Prod.fst (congrArg Prod.fst hrun'))
      exact ⟨hsize, hfull.mp (Int.ofNat.inj hm) x hlo hhi⟩
    · intro hall
      obtain rfl := hfull.mpr fun x hlo hhi => (hall x hlo hhi).2
      refine ⟨r.2, t, ?_, hbytes⟩
      rw [hrun, ← hr]
  · have hrun := readFile_of_no_size (e := e) out (Nat.eq_zero_of_not_pos hsize) hdir hlt hn
    constructor
    · rintro ⟨buf, t, hrun', -⟩ x hlo hhi
      rw [hrun, if_neg (by omega)] at hrun'
      cases hrun'
    · intro hall
      have hzero : min count (inode.iSize - offset) = 0 := by
        by_contra hpos
        exact hsize (hall offset (Nat.le_refl _) (by omega)).1
      rw [if_pos hzero] at hrun
      refine ⟨out, s, ?_, fun j hj => by omega⟩
      rw [hrun, hzero]
      rfl

/-- A byte of a file of two bytes, in block 7. -/
theorem readFile_full_twoBytes :
    ReadsFull (Env.ideal 0) Small.twoBytes (Small.volume 0 0xFF) (fun _ => 0) 1 0 2 := by
  have hsize : Small.twoBytes.iSize = 2 := by decide
  refine (readFile_full_iff (Env.ideal_reliable 0) (by decide) (by decide) _
    (by decide)).mpr fun x _ hhi => ?_
  obtain rfl : x = 0 := by
    rw [hsize] at hhi
    omega
  exact ⟨by decide, by decide⟩

/-- A file of two bytes without a block, as `Truncate` to a larger size leaves it. -/
def Small.twoHoles : Inode := ⟨Small.store (fun _ => 0) [(4, 4, 2)]⟩

/-- Nothing is read of it. -/
theorem readFile_stops_at_hole : ¬ ∀ (e : Env) (inode : Inode) (s : State) (count offset n : Nat),
    e.Reliable → inode.isDir = false → offset + count < 2 ^ 32 → count < n →
    ReadsFull e inode s (fun _ => 0) count offset n := by
  intro hall
  obtain ⟨buf, t, hrun, -⟩ := hall (Env.ideal 0) Small.twoHoles (Small.volume 0 0xFF) 2 0 3
    (Env.ideal_reliable 0) (by decide) (by decide) (by decide)
  have hsize : Small.twoHoles.iSize = 2 := by decide
  have hval : (readFile (Env.ideal 0) Small.twoHoles (fun _ => 0) 2 0 3
      (Small.volume 0 0xFF)).toOption.map (fun r => r.1.1) = some 0 := by
    decide
  rw [hrun, hsize] at hval
  have hzero : ((min 2 (2 - 0) : Nat) : Int) = 0 := Option.some.inj hval
  exact absurd hzero (by decide)

/-! ## `vfs::Read` -/

/-- `vfs::File` on an ext2 volume, with the inode of its `Ext2FileData`. -/
structure File where
  position : Nat
  inode : Inode

/-- `vfs::Ext2Read` -/
def ext2Read (e : Env) (file : File) (buf : Bytes) (count offset n : Nat) : Io (Int × Bytes) :=
  readFile e file.inode buf count offset n

/-- `vfs::Read`: what is returned, the buffer, and the file. -/
def vfsRead (e : Env) (file : File) (buf : Bytes) (count n : Nat) : Io (Int × Bytes × File) := do
  if count = 0 then
    pure (-1, buf, file)
  else do
    let (ret, buf) ← ext2Read e file buf count file.position n
    if ret > 0 then
      pure (ret, buf, { file with position := u64 (file.position + ret.toNat) })
    else
      pure (ret, buf, file)

/-- The bytes that `vfs::Read` delivers, and the file. -/
def vfsDeliver (e : Env) (file : File) (buf : Bytes) (count n : Nat) : Io (List UInt8 × File) := do
  let (ret, buf, file) ← vfsRead e file buf count n
  pure ((List.range ret.toNat).map buf, file)

/-- Two calls of `vfs::Read`, the second on the file as the first leaves it. -/
def vfsDeliverTwice (e : Env) (file : File) (buf buf' : Bytes) (count count' n : Nat) :
    Io (List UInt8 × File) := do
  let (bytes, file) ← vfsDeliver e file buf count n
  let (bytes', file) ← vfsDeliver e file buf' count' n
  pure (bytes ++ bytes', file)

section Deliver

variable {file : File} {buf buf' : Bytes} {F : Fault → Prop}

/-- A directory is not read. -/
theorem vfsDeliver_of_dir (hdir : file.inode.isDir = true) :
    vfsDeliver e file buf count n s = .ok (([], file), s) := by
  rw [vfsDeliver, vfsRead]
  split
  · rfl
  · rw [ext2Read, readFile, hdir, if_pos rfl]
    rfl

/-- Where blocks have no bytes, nothing but the end of the file is read. -/
theorem vfsDeliver_of_no_size (buf : Bytes) (hsize : s.super.blockSize =
    0) (hdir : file.inode.isDir = false)
    (hcount : 0 < count) (hlt : file.position + count < 2 ^ 64) (hn : count < n) :
    vfsDeliver e file buf count n s =
      if file.inode.iSize ≤ file.position then .ok (([], file), s) else .error .divByZero := by
  rw [vfsDeliver, vfsRead, if_neg hcount.ne', bind_apply, bind_apply, ext2Read,
    readFile_of_no_size buf hsize hdir hlt hn]
  by_cases hpast : file.inode.iSize ≤ file.position
  · rw [if_pos hpast, if_pos (by omega)]
    rfl
  · rw [if_neg hpast, if_neg (by omega)]
    rfl

/-- **What `vfs::Read` delivers** is the part of the range that can be reached, and the position
goes behind it. -/
theorem vfsDeliver_reach (he : e.Reliable) (file : File) (buf : Bytes)
    (hsize : 0 < s.super.blockSize)
    (hdir : file.inode.isDir = false) (hcount : 0 < count)
    (hlt : file.position + count < 2 ^ 63) (hn : count < n) :
    Ends (vfsDeliver e file buf count n) s F fun r t => (∃ c, t = s.at c) ∧
      ∃ m, Reach e (fun _ : Unit => file.inode) s () file.position
          (min count (file.inode.iSize - file.position)) m ∧
        r.1 = (List.range m).map
          (fun j => fileByte e (fun _ : Unit => file.inode) s () (file.position + j)) ∧
        r.2 = { file with position := file.position + m } := by
  have hlt' : file.position + count < 2 ^ 64 := by omega
  have hread := readFile_reach (F := F) (f := fun _ : Unit => file.inode) (k := ()) he buf hsize
    hdir hlt' hn
  rw [vfsDeliver, vfsRead, if_neg hcount.ne']
  refine (hread.bind (R := fun (r : Int × Bytes × File) t => (∃ c, t = s.at c) ∧ ∃ m : Nat,
    Reach e (fun _ : Unit => file.inode) s () file.position
        (min count (file.inode.iSize - file.position)) m ∧ r.1 = m ∧
      (∀ j, j < m → r.2.1 j = fileByte e (fun _ : Unit => file.inode) s () (file.position + j)) ∧
      r.2.2 = { file with position := file.position + m }) ?_).bind ?_
  · rintro ⟨ret, out⟩ t ⟨hclock, m, hret, hreach, hbytes⟩
    obtain rfl : ret = m := hret
    have hle := hreach.le
    dsimp only
    by_cases hpos : (m : Int) > 0
    · rw [if_pos hpos]
      refine Ends.pure ⟨hclock, m, hreach, rfl, hbytes, ?_⟩
      rw [Int.toNat_natCast, u64_of_lt (by omega)]
    · rw [if_neg hpos]
      obtain rfl : m = 0 := by omega
      exact Ends.pure ⟨hclock, 0, hreach, rfl, hbytes, rfl⟩
  · rintro ⟨ret, out, file'⟩ t ⟨hclock, m, hreach, hret, hbytes, hfile⟩
    obtain rfl : ret = m := hret
    refine Ends.pure ⟨hclock, m, hreach, List.map_congr_left fun j hj => ?_, hfile⟩
    exact hbytes j (List.mem_range.mp hj)

/-- **Two reads are one.**  A read of `count` bytes and one of `count'` bytes behind it deliver
what one read of all of them delivers, and leave the file at the same position. -/
theorem vfsRead_append (he : e.Reliable) (out : Bytes) {count' : Nat} (hcount : 0 < count)
    (hcount' : 0 < count') (hlt : file.position + count + count' < 2 ^ 63)
    (hn : count + count' < n) :
    (Prod.fst <$> vfsDeliverTwice e file buf buf' count count' n s) =
      Prod.fst <$> vfsDeliver e file out (count + count') n s := by
  have hone : file.position + count < 2 ^ 64 := by omega
  have htwo : file.position + count' < 2 ^ 64 := by omega
  have hboth : file.position + (count + count') < 2 ^ 64 := by omega
  rw [vfsDeliverTwice]
  rcases Bool.eq_false_or_eq_true file.inode.isDir with hdir | hdir
  · rw [vfsDeliver_of_dir hdir, bind_apply_of_ok (vfsDeliver_of_dir hdir)]
    dsimp only
    rw [bind_apply_of_ok (vfsDeliver_of_dir hdir)]
    rfl
  · rcases Nat.eq_zero_or_pos s.super.blockSize with hsize | hsize
    · have hfirst := vfsDeliver_of_no_size (e := e) buf hsize hdir hcount hone
        (Nat.lt_of_le_of_lt (Nat.le_add_right _ _) hn)
      rw [vfsDeliver_of_no_size out hsize hdir (by omega) hboth hn]
      by_cases hpast : file.inode.iSize ≤ file.position
      · rw [if_pos hpast] at hfirst ⊢
        rw [bind_apply_of_ok hfirst]
        dsimp only
        have hsecond := vfsDeliver_of_no_size (e := e) buf' hsize hdir hcount' htwo
          (Nat.lt_of_le_of_lt (Nat.le_add_left _ _) hn)
        rw [if_pos hpast] at hsecond
        rw [bind_apply_of_ok hsecond]
        rfl
      · rw [if_neg hpast] at hfirst ⊢
        rw [bind_apply, hfirst]
        rfl
    · obtain ⟨⟨bytes, file'⟩, t, hfirst, ⟨c, rfl⟩, m, hreach, rfl, rfl⟩ :=
        (vfsDeliver_reach (F := fun _ => False) he file buf hsize hdir hcount (by omega)
          (by omega : count < n)).exists_ok
      have hle := hreach.le
      obtain ⟨⟨bytes', file'⟩, t', hsecond, -, m', hreach', rfl, rfl⟩ :=
        (vfsDeliver_reach (F := fun _ => False) (s := s.at c) he
          { file with position := file.position + m } buf' hsize hdir hcount'
          (by show file.position + m + count' < 2 ^ 63; omega) (by omega : count' < n)).exists_ok
      obtain ⟨⟨all, file''⟩, t'', hall, -, m'', hreach'', rfl, rfl⟩ :=
        (vfsDeliver_reach (F := fun _ => False) he file out hsize hdir
          (by omega : 0 < count + count') (by omega) hn).exists_ok
      obtain rfl : m'' = m + m' := hreach''.unique (hreach.append hreach'.of_at)
      rw [hall, bind_apply_of_ok hfirst]
      dsimp only
      rw [bind_apply_of_ok hsecond]
      refine congrArg Except.ok (Prod.ext ?_ ?_)
      · show _ ++ _ = _
        rw [List.range_add, List.map_append, List.map_map]
        refine congrArg _ (List.map_congr_left fun j _ => ?_)
        exact congrArg (fileByte e (fun _ : Unit => file.inode) s ()) (Nat.add_assoc _ _ _)
      · show File.mk (file.position + m + m') file.inode = File.mk (file.position + (m + m')) _
        rw [Nat.add_assoc]

end Deliver

/-- The two bytes of a file, one by one and together. -/
theorem vfsRead_append_twoBytes :
    (Prod.fst <$> vfsDeliverTwice (Env.ideal 0) ⟨0, Small.twoBytes⟩ (fun _ => 0) (fun _ => 0) 1 1 3
        (Small.volume 0 0xFF)) =
      Prod.fst <$> vfsDeliver (Env.ideal 0) ⟨0, Small.twoBytes⟩ (fun _ => 0) 2 3
        (Small.volume 0 0xFF) :=
  vfsRead_append (Env.ideal_reliable 0) _ (by decide) (by decide) (by decide) (by decide)

/-- When the page of the second read cannot be allocated, the two reads are not one. -/
theorem vfsRead_stops_without_page :
    (∀ t, (Env.outOfPages 2).readFails t = false ∧ (Env.outOfPages 2).writeFails t = false) ∧
      ¬ (Prod.fst <$> vfsDeliverTwice (Env.outOfPages 2) ⟨0, Small.twoBytes⟩ (fun _ => 0)
          (fun _ => 0) 1 1 3 (Small.volume 0 0xFF)) =
        Prod.fst <$> vfsDeliver (Env.outOfPages 2) ⟨0, Small.twoBytes⟩ (fun _ => 0) 2 3
          (Small.volume 0 0xFF) := by
  refine ⟨fun _ => ⟨rfl, rfl⟩, fun h => ?_⟩
  have hlength := congrArg (Except.map fun r : List UInt8 × File => r.1.length) h
  have hone : Except.map (fun r : List UInt8 × File => r.1.length) (Prod.fst <$>
      vfsDeliverTwice (Env.outOfPages 2) ⟨0, Small.twoBytes⟩ (fun _ => 0) (fun _ => 0) 1 1 3
        (Small.volume 0 0xFF)) = .ok 1 := by
    decide
  have htwo : Except.map (fun r : List UInt8 × File => r.1.length) (Prod.fst <$>
      vfsDeliver (Env.outOfPages 2) ⟨0, Small.twoBytes⟩ (fun _ => 0) 2 3 (Small.volume 0 0xFF)) =
        .ok 2 := by
    decide
  rw [hone, htwo] at hlength
  cases hlength

end InfoKernel.Ext2
