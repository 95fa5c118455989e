import InfoKernel.Fs.FileBytes

/-!
# How much `ReadFile` reads

`ReadFile` shortens a read that goes past the end of the file, and its loop then runs until it
has read what is left, or comes to a block that is not mapped or cannot be read.  The test is
`offset + bytes_to_read > file_size`, in 64 bits: with a number of bytes that makes the sum wrap
around, it fails, and nothing is shortened.

The loop then runs on through the blocks behind the last byte.  `readBounded_iff` says when this
shows: when the sum wraps, the read begins within the file, and no block from its first byte up to
the one at the end of the file is missing.  The block at the end may lie behind the last byte, when
the size of the file is a multiple of the size of a block; a file that was written in order has
none there, and stops the loop in time.

The device may fail at any time here; a block that cannot be looked up or read only ends the loop.
-/

namespace InfoKernel.Ext2

open Lib

variable {e : Env} {s t : State} {inode : Inode} {out : Bytes}
  {offset count toRead done lba n : Nat}
  {F : Fault → Prop} {st : Nat × Bytes}

/-! ## Looking up a block, on any device -/

/-- The block that `GetBlockNum` should return for the position `x` of a file. -/
def State.blockAt (s : State) (e : Env) (inode : Inode) (x : Nat) : Nat :=
  (s.forest e fun _ : Unit => inode).ref (s.bytePos () x)

theorem readPtr_ends {x i : Nat} (hi : i < s.super.ptrsPerBlock) :
    Ends (readPtr e x (.ok i)) s F fun b t => (b = 0 ∨ x ≠ 0 ∧ b = s.words e x i) ∧
      ∃ c, t = s.at c := by
  rw [readPtr]
  by_cases hx : x = 0
  · rw [if_pos hx]
    exact Ends.pure ⟨.inl rfl, s.clock, rfl⟩
  · rw [if_neg hx]
    refine Ends.bind pageAlloc_ends ?_
    rintro b t ⟨-, c, rfl⟩
    by_cases hb : (!b) = true
    · rw [if_pos hb]
      exact Ends.pure ⟨.inl rfl, c, rfl⟩
    · rw [if_neg hb]
      refine Ends.bind readBlock_ends ?_
      rintro r u ⟨-, hbuf, c', rfl⟩
      cases r with
      | none => exact Ends.pure ⟨.inl rfl, c', rfl⟩
      | some buf =>
          have hlt : 4 * i + 3 < s.super.blockSize := ptr_lt hi (by decide)
          have hptr : pointerAt s.super.blockSize (.ok i) = .ok i := if_pos (by omega)
          refine Ends.step (a := s.super) rfl ?_
          simp only [hptr]
          refine Ends.pure ⟨.inr ⟨hx, ?_⟩, c', rfl⟩
          rw [hbuf buf rfl]
          exact getLE_congr fun a ha ha' => copyOut_of_lt (by show _ < s.super.blockSize; omega)

theorem getLevel_ends {x : Nat} {is : List Nat} (his : ∀ i ∈ is, i < s.super.ptrsPerBlock) :
    Ends (getLevel e x (is.map .ok)) s F fun b t => (b = 0 ∨ b = walk (s.words e) x is) ∧
      ∃ c, t = s.at c := by
  induction is generalizing x s with
  | nil => exact Ends.pure ⟨.inr rfl, s.clock, rfl⟩
  | cons i is ih =>
      rw [List.map_cons, getLevel]
      refine Ends.bind (readPtr_ends (his i List.mem_cons_self)) ?_
      rintro y t ⟨hy, c, rfl⟩
      refine (ih (s := s.at c) fun j hj => his j (List.mem_cons_of_mem _ hj)).mono ?_
      rintro b t ⟨hb, c', rfl⟩
      refine ⟨?_, c', rfl⟩
      rcases hb with hb | hb
      · exact .inl hb
      · rcases hy with hy | ⟨hx, hy⟩
        · rw [hy, walk_zero] at hb
          exact .inl hb
        · rw [hy] at hb
          rw [walk_cons hx]
          exact .inr hb

/-- **`GetBlockNum`, on any device**, returns the block at the position, or 0. -/
theorem getBlockNum_ends {x : Nat} (hsize : 0 < s.super.blockSize) (hx : x < 2 ^ 32) :
    Ends (getBlockNum e inode (x / s.super.blockSize)) s F fun b t =>
      (b ≠ 0 → b = s.blockAt e inode x) ∧ ∃ c, t = s.at c := by
  obtain ⟨hmax, hreach⟩ := byte_in_range hsize hx
  have hp := ptrsPerBlock_pos hsize
  show Ends (getLevel e _ (blockPath s.super.ptrsPerBlock (x / s.super.blockSize)).2) s F _
  rw [blockPath_of_reached hp hreach]
  refine (getLevel_ends (blockPos_index hp hmax)).mono ?_
  rintro b t ⟨hb, c, rfl⟩
  refine ⟨fun hne => ?_, c, rfl⟩
  rcases hb with hb | hb
  · exact absurd hb hne
  · exact hb

/-! ## The loop -/

/-- The states of the loop of `ReadFile`, each with the device after it. -/
inductive Copying (e : Env) (inode : Inode) (offset toRead : Nat) (out : Bytes) (s : State) :
    Nat × Bytes → State → Prop
  | start : Copying e inode offset toRead out s (0, out) s
  | turn {st st' : Nat × Bytes} {t t' : State} : Copying e inode offset toRead out s st t →
      readTurn e inode offset toRead st t = .ok (.again st', t') →
      Copying e inode offset toRead out s st' t'

/-- The number of bytes that a turn copies, when `done` bytes have been read. -/
def turnBytes (size offset toRead done : Nat) : Nat :=
  min (toRead - done) (size - (offset + done) % size)

/-- The loop is left with what has been read so far. -/
theorem readTurn_leaves : Ends (readTurn e inode offset toRead st) s (fun _ => True) fun u _ =>
    u.Meets (fun _ => True) fun r => r = st := by
  obtain ⟨done, out⟩ := st
  rw [readTurn]
  dsimp only
  by_cases hdone : done < toRead
  · rw [if_pos hdone]
    refine Ends.step (super_run s) ?_
    by_cases hsize : s.super.blockSize = 0
    · rw [if_pos hsize]
      exact Ends.throw trivial
    · rw [if_neg hsize]
      refine Ends.bind Ends.trivial fun b t _ => ?_
      by_cases hb : b = 0
      · rw [if_pos hb]
        exact Ends.pure rfl
      · rw [if_neg hb]
        refine Ends.bind Ends.trivial fun got t _ => ?_
        by_cases hgot : (!got) = true
        · rw [if_pos hgot]
          exact Ends.pure rfl
        · rw [if_neg hgot]
          refine Ends.bind Ends.trivial fun r t _ => ?_
          cases r with
          | none => exact Ends.pure rfl
          | some buf => exact Ends.pure trivial
  · rw [if_neg hdone]
    exact Ends.pure rfl

/-- **A turn that goes on**, on any device, has copied bytes of a block that is mapped. -/
theorem readTurn_goes_on (hx : offset + done < 2 ^ 32) :
    Ends (readTurn e inode offset toRead (done, out)) s (fun _ => True) fun u t =>
      u.Meets (fun st' => (0 < s.super.blockSize ∧ done < toRead ∧
        st'.1 = done + turnBytes s.super.blockSize offset toRead done ∧
        s.blockAt e inode (offset + done) ≠ 0) ∧ ∃ c, t = s.at c) fun _ => True := by
  rw [readTurn]
  dsimp only
  by_cases hdone : done < toRead
  · rw [if_pos hdone]
    refine Ends.step (super_run s) ?_
    by_cases hzero : s.super.blockSize = 0
    · rw [if_pos hzero]
      exact Ends.throw trivial
    · have hsize : 0 < s.super.blockSize := Nat.pos_of_ne_zero hzero
      rw [if_neg hzero, blockOf_eq hx]
      dsimp only
      refine Ends.bind (getBlockNum_ends hsize hx) ?_
      rintro b t ⟨hb, c, rfl⟩
      by_cases hb0 : b = 0
      · rw [if_pos hb0]
        exact Ends.pure trivial
      · rw [if_neg hb0]
        refine Ends.bind pageAlloc_ends ?_
        rintro got t ⟨-, c', rfl⟩
        by_cases hgot : (!got) = true
        · rw [if_pos hgot]
          exact Ends.pure trivial
        · rw [if_neg hgot]
          refine Ends.bind readBlock_ends ?_
          rintro r t ⟨-, -, c'', rfl⟩
          cases r with
          | none => exact Ends.pure trivial
          | some buf =>
              refine Ends.pure ⟨⟨hsize, hdone, ?_, ?_⟩, c'', rfl⟩
              · show done + bytesInBlock s.super.blockSize _ _ = _
                rw [bytesInBlock_eq, turnBytes]
              · rw [← hb hb0]
                exact hb0
  · rw [if_neg hdone]
    exact Ends.pure trivial

/-- **The loop goes on** over a block that is mapped, when nothing fails. -/
theorem readTurn_again (out : Bytes) (he : e.Reliable) (hsize : 0 < s.super.blockSize)
    (hx : offset + done < 2 ^ 32) (hdone : done < toRead)
    (hb : s.blockAt e inode (offset + done) ≠ 0) :
    ∃ out' c, readTurn e inode offset toRead (done, out) s =
      .ok (.again (done + turnBytes s.super.blockSize offset toRead done, out'), s.at c) := by
  obtain ⟨hmax, hreach⟩ := byte_in_range hsize hx
  obtain ⟨c, hc⟩ := getBlockNum_run (s := s) (f := fun _ : Unit => inode) he hsize hmax hreach ()
  have hne : (s.forest e fun _ : Unit => inode).ref
      (filePos s.super.ptrsPerBlock () ((offset + done) / s.super.blockSize)) ≠ 0 := hb
  rw [readTurn]
  dsimp only
  rw [if_pos hdone, bind_apply_of_ok (super_run s), if_neg (Nat.ne_of_gt hsize), blockOf_eq hx]
  dsimp only
  rw [bind_apply_of_ok hc, if_neg hne, bind_apply_of_ok (pageAlloc_run he)]
  simp only [Bool.not_true, Bool.false_eq_true, if_false]
  rw [bind_apply_of_ok (readBlock_run he _), turnBytes, ← bytesInBlock_eq]
  exact ⟨_, _, rfl⟩

namespace Copying

/-- **The invariant rule** for the number of bytes, on any device. -/
theorem invariant {I : Nat → Prop} (h : Copying e inode offset toRead out s st t) (h0 : I 0)
    (hlt : ∀ done, I done → offset + done < 2 ^ 32)
    (hstep : ∀ done, I done → 0 < s.super.blockSize → done < toRead →
      s.blockAt e inode (offset + done) ≠ 0 →
      I (done + turnBytes s.super.blockSize offset toRead done)) :
    I st.1 ∧ ∃ c, t = s.at c := by
  induction h with
  | start => exact ⟨h0, s.clock, rfl⟩
  | @turn st st' t t' _ hturn ih =>
      obtain ⟨done, out'⟩ := st
      obtain ⟨hI, c, rfl⟩ := ih
      obtain ⟨⟨hsize, hdone, hst, hb⟩, c', ht⟩ := (readTurn_goes_on (hlt done hI)).of_result hturn
      rw [hst]
      exact ⟨hstep done hI hsize hdone hb, c', ht⟩

/-- What the loop of `ReadFile` returns is a state of it. -/
theorem of_loop {fuel : Nat} : Ends (Program.loop (readTurn e inode offset toRead) .outOfFuel fuel
    (0, out)) s (fun _ => True) fun st _ => ∃ t, Copying e inode offset toRead out s st t := by
  refine Ends.loop_of_out (I := Copying e inode offset toRead out s) (fun st t hst => ?_) trivial
    Copying.start
  have hleave : Ends (readTurn e inode offset toRead st) t _ _ := readTurn_leaves
  rw [Ends] at hleave ⊢
  cases hrun : readTurn e inode offset toRead st t with
  | error err => trivial
  | ok r =>
      obtain ⟨u, t'⟩ := r
      rw [hrun] at hleave
      cases u with
      | again st' => exact Copying.turn hst hrun
      | leave st' =>
          have hsame : st' = st := hleave
          rw [hsame]
          exact ⟨t, hst⟩

end Copying

/-! ## What is returned -/

/-- `bytes_to_read` -/
def bytesToRead (inode : Inode) (count offset : Nat) : Nat :=
  if u64 (offset + count) > inode.iSize then inode.iSize - offset else count

/-- `ReadFile` returns at most what is left of the file, and at most what it was asked for, and at
no time it has copied more. -/
structure ReadBounded (e : Env) (inode : Inode) (s : State) (count offset : Nat) : Prop where
  returned {out : Bytes} {fuel : Nat} {r : Int × Bytes} {t : State} :
    readFile e inode out count offset fuel s = .ok (r, t) →
      r.1 ≤ max 0 ((inode.iSize : Int) - offset) ∧ r.1 ≤ count
  copied {out : Bytes} {st : Nat × Bytes} {t : State} : offset < inode.iSize →
    Copying e inode offset (bytesToRead inode count offset) out s st t →
      st.1 ≤ inode.iSize - offset ∧ st.1 ≤ count

/-- What the loop copies is what `ReadFile` returns. -/
theorem ReadBounded.of_copied (hdir : inode.isDir = false)
    (h : ∀ out st t, offset < inode.iSize →
      Copying e inode offset (bytesToRead inode count offset) out s st t →
        st.1 ≤ inode.iSize - offset ∧ st.1 ≤ count) : ReadBounded e inode s count offset where
  copied := h _ _ _
  returned {out fuel r t} hrun := by
    refine Ends.of_result (F := fun _ => True) (Q := fun (r : Int × Bytes) _ =>
      r.1 ≤ max 0 ((inode.iSize : Int) - offset) ∧ r.1 ≤ (count : Int)) ?_ hrun
    rw [readFile, hdir, if_neg Bool.false_ne_true]
    by_cases hpast : offset ≥ inode.iSize
    · rw [if_pos hpast]
      exact Ends.pure ⟨Int.le_max_left _ _, Int.natCast_nonneg _⟩
    · rw [if_neg hpast]
      refine Ends.bind Copying.of_loop ?_
      rintro st t ⟨t', hst⟩
      refine Ends.pure ?_
      obtain ⟨hle, hcount⟩ := h out st t' (Nat.lt_of_not_le hpast) hst
      exact ⟨by show (st.1 : Int) ≤ _; omega, by show (st.1 : Int) ≤ _; omega⟩

theorem iSize_lt (inode : Inode) : inode.iSize < 2 ^ 32 := getLE_lt _ _ _

theorem turnBytes_le (size offset toRead done : Nat) :
    turnBytes size offset toRead done ≤ toRead - done := Nat.min_le_left _ _

/-- Without a wrap-around the number of bytes is shortened to what is left. -/
theorem readBounded_of_lt (hdir : inode.isDir = false) (hlt : offset + count < 2 ^ 64) :
    ReadBounded e inode s count offset := by
  refine .of_copied hdir fun out st t hoff hst => ?_
  have hsize := iSize_lt inode
  have hread : bytesToRead inode count offset = min count (inode.iSize - offset) := by
    rw [bytesToRead, u64_of_lt hlt]
    split <;> omega
  rw [hread] at hst
  obtain ⟨hle, -⟩ := hst.invariant (I := fun done => done ≤ min count (inode.iSize - offset))
    (Nat.zero_le _) (fun done hdone => by omega) fun done hI _ hlt _ => by
      have hturn := turnBytes_le s.super.blockSize offset (min count (inode.iSize - offset)) done
      omega
  omega

/-- The loop stops at a block that is not mapped. -/
theorem readBounded_of_hole (hdir : inode.isDir = false) {x : Nat} (hlo : offset ≤ x)
    (hhi : x ≤ inode.iSize) (hhole : s.blockAt e inode x = 0) :
    ReadBounded e inode s count offset := by
  refine .of_copied hdir fun out st t hoff hst => ?_
  have hsize := iSize_lt inode
  have hread : bytesToRead inode count offset ≤ count := by
    rw [bytesToRead]
    split
    · -- the sum has not wrapped around, or what is left is less than `count` all the same
      next hwrap =>
        have hsum : u64 (offset + count) ≤ offset + count := Nat.mod_le _ _
        omega
    · exact Nat.le_refl _
  generalize bytesToRead inode count offset = toRead at hst hread
  obtain ⟨⟨hle, hend, -⟩, -⟩ := hst.invariant (I := fun done => done ≤ toRead ∧
      offset + done ≤ inode.iSize ∧ (offset + done) / s.super.blockSize ≤ x / s.super.blockSize)
    ⟨Nat.zero_le _, by omega, Nat.div_le_div_right hlo⟩ (fun done hI => by omega)
    fun done ⟨hle, hend, hblock⟩ hpos hlt hmapped => by
      have hne : (offset + done) / s.super.blockSize ≠ x / s.super.blockSize := fun heq => by
        rw [State.blockAt, State.bytePos, heq] at hmapped
        exact hmapped hhole
      -- the turn ends in the same block, or at the start of the next one
      have hmod := Nat.mod_lt (offset + done) hpos
      have hdiv := Nat.div_add_mod (offset + done) s.super.blockSize
      have hturn : turnBytes s.super.blockSize offset toRead done ≤
        s.super.blockSize - (offset + done) % s.super.blockSize := Nat.min_le_right _ _
      have hturn' := turnBytes_le s.super.blockSize offset toRead done
      have hnext : s.super.blockSize * ((offset + done) / s.super.blockSize + 1) ≤
          s.super.blockSize * (x / s.super.blockSize) :=
        Nat.mul_le_mul_left _ (by omega)
      rw [Nat.mul_add, Nat.mul_one] at hnext
      have hx : s.super.blockSize * (x / s.super.blockSize) ≤ x := Nat.mul_div_le _ _
      have hall : offset + (done + turnBytes s.super.blockSize offset toRead done) ≤
          s.super.blockSize * (x / s.super.blockSize) := by omega
      refine ⟨by omega, by omega, ?_⟩
      rw [← Nat.mul_div_cancel_left (x / s.super.blockSize) hpos]
      exact Nat.div_le_div_right hall
  omega

/-- Over blocks that are mapped, the loop gets past the end of the file. -/
theorem Copying.past_end (he : e.Reliable) (hsize : 0 < s.super.blockSize)
    (hmapped : ∀ x, offset ≤ x → x ≤ inode.iSize → s.blockAt e inode x ≠ 0)
    (hread : inode.iSize < toRead) {k c : Nat} (hk : inode.iSize - (offset + done) = k)
    (h : Copying e inode offset toRead out s st (s.at c)) (hst : st.1 = done)
    (hle : offset + done ≤ inode.iSize) :
    ∃ st' t', Copying e inode offset toRead out s st' t' ∧ inode.iSize < offset + st'.1 := by
  induction k using Nat.strongRecOn generalizing done st c with
  | ind k ih =>
      obtain ⟨done', out'⟩ := st
      obtain rfl : done' = done := hst
      have hlt := iSize_lt inode
      have hmod := Nat.mod_lt (offset + done') hsize
      obtain ⟨out'', c', hturn⟩ := readTurn_again (s := s.at c) out' he hsize
        (show offset + done' < 2 ^ 32 by omega) (show done' < toRead by omega)
        (hmapped (offset + done') (Nat.le_add_right _ _) hle)
      have hpos : 0 < turnBytes s.super.blockSize offset toRead done' := by
        rw [turnBytes]
        omega
      have hnext := h.turn hturn
      by_cases hend :
        offset + (done' + turnBytes s.super.blockSize offset toRead done') ≤ inode.iSize
      · exact ih
          (inode.iSize - (offset + (done' + turnBytes s.super.blockSize offset toRead done')))
          (by omega) rfl hnext rfl hend
      · exact ⟨_, _, hnext, Nat.lt_of_not_le hend⟩

/-- The blocks of a file do not depend on when calls fail. -/
theorem blockAt_congr {e' : Env} (h : e'.lba = e.lba) (x : Nat) :
    s.blockAt e' inode x = s.blockAt e inode x := by
  have hwords : s.words e' = s.words e := by
    funext y i
    show getLE (fun j => s.disk (512 * e'.lba + y * s.super.blockSize + j)) (4 * i) 4 = _
    rw [h]
    rfl
  rw [State.blockAt, State.blockAt, State.forest, State.forest, hwords]

/-- Blocks of no bytes: the division by the size of a block comes before anything is copied. -/
theorem readBounded_of_no_size (hdir : inode.isDir = false) (hsize : s.super.blockSize = 0) :
    ReadBounded e inode s count offset := by
  refine .of_copied hdir fun out st t hoff hst => ?_
  have hlt := iSize_lt inode
  obtain ⟨hzero, -⟩ := hst.invariant (I := fun done => done = 0) rfl
    (fun done hdone => by omega) fun done _ hpos _ _ => by omega
  omega

/-- **How much `ReadFile` reads.**  On every device it stays within the file and within the buffer
exactly when the sum of offset and number of bytes does not wrap around, or the read begins behind
the end of the file, or one of the blocks from its first byte to the end of the file is missing
(or blocks have no bytes, and nothing is read at all). -/
theorem readBounded_iff (hdir : inode.isDir = false) (hcount : count < 2 ^ 64) :
    (∀ e : Env, e.lba = lba → ReadBounded e inode s count offset) ↔
      offset + count < 2 ^ 64 ∨ inode.iSize ≤ offset ∨ s.super.blockSize = 0 ∨
        ∃ x, offset ≤ x ∧ x ≤ inode.iSize ∧ s.blockAt (Env.ideal lba) inode x = 0 := by
  have hlt := iSize_lt inode
  constructor
  · intro h
    by_contra hno
    push Not at hno
    obtain ⟨hwrap, hin, hsize, hmapped⟩ := hno
    have hread : bytesToRead inode count offset = count := by
      rw [bytesToRead, if_neg]
      rw [u64]
      omega
    have hstart : Copying (Env.ideal lba) inode offset count (fun _ => 0) s (0, fun _ => 0) s :=
      Copying.start
    obtain ⟨st, t, hst, hpast⟩ := Copying.past_end (Env.ideal_reliable lba)
      (Nat.pos_of_ne_zero hsize) hmapped (by omega) rfl hstart rfl (by omega)
    rw [← hread] at hst
    have hle := ((h (Env.ideal lba) rfl).copied hin hst).1
    omega
  · rintro (hsum | hpast | hsize | ⟨x, hlo, hhi, hhole⟩) e rfl
    · exact readBounded_of_lt hdir hsum
    · exact .of_copied hdir fun _ _ _ hin _ => absurd hpast (Nat.not_le.mpr hin)
    · exact readBounded_of_no_size hdir hsize
    · have hsame : s.blockAt (Env.ideal e.lba) inode x = s.blockAt e inode x := blockAt_congr rfl x
      exact readBounded_of_hole hdir hlo hhi (hsame.symm.trans hhole)

/-- A file of two bytes, in block 7. -/
def Small.twoBytes : Inode := ⟨Small.store (fun _ => 0) [(4, 4, 2), (40, 4, 7)]⟩

/-- All of the file and more is asked for. -/
theorem readBounded_twoBytes :
    ReadBounded (Env.ideal 0) Small.twoBytes (Small.volume 0 0xFF) 100 0 :=
  (readBounded_iff (by decide) (by decide)).mpr (.inl (by decide)) (Env.ideal 0) rfl

/-- From position 1 on, the whole of the address space is asked for: the rest of the block comes,
1022 bytes of it from behind the end. -/
theorem readFile_past_end : ¬ ∀ (e : Env) (inode : Inode) (s : State) (count offset : Nat),
    inode.isDir = false → offset < 2 ^ 64 → count < 2 ^ 64 →
    ReadBounded e inode s count offset := by
  intro h
  have hbounded := h (Env.ideal 0) Small.twoBytes (Small.volume 0 0xFF) (2 ^ 64 - 1) 1
    (by decide) (by decide) (by decide)
  have hrun : (readFile (Env.ideal 0) Small.twoBytes (fun _ => 0) (2 ^ 64 - 1) 1 3
      (Small.volume 0 0xFF)).toOption.map (fun r => r.1.1) = some 1023 := by
    decide
  obtain ⟨⟨r, t⟩, hread, hval⟩ := Option.map_eq_some_iff.mp hrun
  have hle := (hbounded.returned (eq_ok_of_toOption hread)).1
  have hval : r.1 = 1023 := hval
  have hsize : Small.twoBytes.iSize = 2 := by decide
  rw [hval, hsize] at hle
  exact absurd hle (by decide)

end InfoKernel.Ext2
