import InfoKernel.Fs.FileBytes

/-!
# Where `WriteFile` may write

Offset and number of bytes of a write are 64-bit numbers, and a file has 32 bits for its size.
`WriteFile` does not compare the two.  It stores the sum as the new size before it writes anything,
cut to 32 bits, and then writes all bytes, wherever the number of the block leads it.

So a write is right (`WriteOk`) exactly when it ends below `2 ^ 32`; and a write of no bytes, which
changes the size all the same, exactly when the size that it stores is the old one
(`writeFile_ok_iff`).
-/

namespace InfoKernel.Ext2

open Lib

variable {κ : Type*} {e : Env} {s t : State} {f : κ → Inode} {k : κ} {inode : Inode}
  {buf : Bytes} {count offset n v : Nat}

/-- A size is stored without a change exactly when it is the old one, cut to 32 bits. -/
theorem Inode.setSize_eq_self_iff : inode.setSize v = inode ↔ u32 v = inode.iSize := by
  constructor
  · intro h
    have hsize : (inode.setSize v).iSize = u32 v := getLE_setLE
    rw [← hsize, h]
  · intro h
    exact congrArg Inode.mk (setLE_eq_self h)

/-- A write that ends below `2 ^ 32`, or one of no bytes that leaves the size alone. -/
def WriteSafe (inode : Inode) (count offset : Nat) : Prop :=
  (0 < count ∧ offset + count < 2 ^ 32) ∨
    (count = 0 ∧ (offset ≤ inode.iSize ∨ u32 offset = inode.iSize))

/-- A write that has changed nothing, or that has written the bytes that it says it has, and no
others, below the size that is stored. -/
def WriteOk [DecidableEq κ] (e : Env) (f : κ → Inode) (s : State) (k : κ) (buf : Bytes)
    (offset : Nat) (r : Int × Inode) (t : State) : Prop :=
  (r.1 ≤ 0 ∧ r.2 = f k ∧ ∃ c, t = s.at c) ∨
    ∃ written : Nat, 0 < written ∧ r.1 = written ∧ offset + written ≤ r.2.iSize ∧
      ∀ x, x < 2 ^ 32 → fileByte e (Function.update f k r.2) t k x =
        if offset ≤ x ∧ x < offset + written then buf (x - offset) else fileByte e f s k x

/-! ## Any volume -/

/-- Where `AllocBlock` returns 0, that is recorded. -/
theorem allocBlock_notes : Ends (allocBlock e) s (fun _ => True) fun b t =>
    b = 0 → t.noSpace = true := by
  refine Ends.bind Ends.trivial fun r t _ => ?_
  cases r with
  | none => exact Ends.of_ok rfl fun _ => Bool.or_true _
  | some block =>
      refine Ends.bind Ends.trivial fun b u _ => ?_
      have hreturned : ∀ v : State, Ends (returned block) v (fun _ => True) fun b t =>
          b = 0 → t.noSpace = true := fun v => by
        refine Ends.of_ok rfl fun hb => ?_
        show (v.noSpace || decide (block = 0)) = true
        rw [decide_eq_true hb, Bool.or_true]
      cases b with
      | false => exact hreturned u
      | true => exact Ends.bind Ends.trivial fun _ v _ => hreturned v

/-- **The loop of `WriteFile` is left** when all bytes have been written or no block is left, on
a device that does not fail. -/
theorem writeTurn_leaves (he : e.Reliable) {st : Nat × Inode} :
    Ends (writeTurn e buf offset count st) s (fun _ => True) fun u t =>
      u.Meets (fun _ => True) fun r => count ≤ r.1 ∨ t.noSpace = true := by
  obtain ⟨done, inode⟩ := st
  rw [writeTurn]
  dsimp only
  by_cases hdone : done < count
  · rw [if_pos hdone]
    refine Ends.step (super_run s) ?_
    by_cases hsize : s.super.blockSize = 0
    · rw [if_pos hsize]
      exact Ends.throw trivial
    · rw [if_neg hsize]
      have htarget : ∀ i, Ends (writeTarget e inode i) s (fun _ => True) fun r t =>
          r.1 = 0 → t.noSpace = true := fun i => by
        refine Ends.bind Ends.trivial fun b t _ => ?_
        by_cases hb : b = 0
        · rw [if_pos hb]
          refine Ends.bind allocBlock_notes fun b u hnote => ?_
          by_cases hb : b = 0
          · rw [if_pos hb]
            exact Ends.pure fun _ => hnote hb
          · rw [if_neg hb]
            exact Ends.bind Ends.trivial fun r v _ => Ends.pure fun hzero => absurd hzero hb
        · rw [if_neg hb]
          exact Ends.pure fun hzero => absurd hzero hb
      refine Ends.bind (htarget _) ?_
      rintro ⟨b, inode'⟩ t hnote
      dsimp only
      by_cases hb : b = 0
      · rw [if_pos hb]
        exact Ends.pure (.inr (hnote hb))
      · rw [if_neg hb]
        refine Ends.step (pageAlloc_run he) ?_
        simp only [Bool.not_true, Bool.false_eq_true, if_false]
        refine Ends.step (readBlock_run he b) ?_
        dsimp only
        refine Ends.step (writeBlock_run he b _) ?_
        exact Ends.pure trivial
  · rw [if_neg hdone]
    exact Ends.pure (.inl (Nat.le_of_not_lt hdone))

/-- **What is returned** while there are blocks: that all bytes have been written. -/
theorem writeFile_returns_count (he : e.Reliable) (hdir : inode.isDir = false) :
    Ends (writeFile e inode buf count offset n) s (fun _ => True) fun r t =>
      (count : Int) ≤ r.1 ∨ t.noSpace = true := by
  rw [writeFile, hdir, if_neg Bool.false_ne_true]
  refine Ends.bind (P := fun st t => count ≤ st.1 ∨ t.noSpace = true) ?_ fun st t hst => ?_
  · refine Ends.loop_of_out (I := fun _ _ => True) (fun st t _ => ?_) trivial trivial
    exact writeTurn_leaves he
  · refine Ends.pure ?_
    rcases hst with hle | hfull
    · exact .inl (Int.ofNat_le.mpr hle)
    · exact .inr hfull

/-! ## When a write is right -/

section Safe

variable [DecidableEq κ]

/-- A write of no bytes only stores the size. -/
theorem writeFile_zero_run (hdir : inode.isDir = false) (hoff : offset < 2 ^ 64) (hn : 0 < n) :
    writeFile e inode buf 0 offset n s =
      .ok ((0, if offset > inode.iSize then inode.setSize offset else inode), s) := by
  obtain ⟨n, rfl⟩ := Nat.exists_eq_succ_of_ne_zero (Nat.pos_iff_ne_zero.mp hn)
  have hsum : u64 (offset + 0) = offset := Nat.mod_eq_of_lt hoff
  rw [writeFile, hdir, if_neg Bool.false_ne_true, hsum]
  rfl

/-- A write that ends below `2 ^ 32` is right. -/
theorem writeFile_ok (he : e.Reliable) (h : Files e f s) (hdir : (f k).isDir = false)
    (hpos : 0 < count) (hlt : offset + count < 2 ^ 32) (hn : count < n) :
    Ends (writeFile e (f k) buf count offset n) s (Unfit s .block) fun r t =>
      t.noSpace = false → WriteOk e f s k buf offset r t := by
  refine (writeFile_ends he h hdir hlt hn).mono ?_
  rintro ⟨code, inode⟩ t ⟨done, hcode, -, hstop, hp⟩ hspace
  have hall : done = count := by
    rcases hstop with hstop | hfull
    · exact hstop
    · rw [hspace] at hfull
      cases hfull
  subst hall
  refine .inr ⟨done, hpos, hcode, ?_, fun x hx => ?_⟩
  · show offset + done ≤ inode.iSize
    rw [hp.size]
    exact Nat.le_max_right _ _
  · by_cases hin : offset ≤ x ∧ x < offset + done
    · rw [if_pos hin]
      exact hp.inside hspace hin.1 hin.2
    · rw [if_neg hin]
      exact hp.outside hx (by omega)

/-- A write where there is no memory behind the buffers is right exactly when it is a safe one. -/
theorem writeFile_ok_walled (he : e.Reliable) (h : Files e f s) (hdir : (f k).isDir = false)
    (hoff : offset < 2 ^ 64) (hn : count < n) :
    Ends (writeFile e (f k) buf count offset n) s
      (fun err => Unfit s .block err ∨ ¬ WriteSafe (f k) count offset) fun r t =>
        t.noSpace = false →
          (WriteOk e f s k buf offset r t ↔ WriteSafe (f k) count offset) := by
  have hsize : (f k).iSize < 2 ^ 32 := getLE_lt _ _ _
  rcases Nat.eq_zero_or_pos count with rfl | hpos
  · refine Ends.of_ok (writeFile_zero_run hdir hoff hn) fun _ => ?_
    have hsafe : WriteSafe (f k) 0 offset ↔ offset ≤ (f k).iSize ∨ u32 offset = (f k).iSize := by
      rw [WriteSafe]
      simp
    rw [hsafe]
    constructor
    · rintro (⟨-, hsame, -⟩ | ⟨written, hwritten, hzero, -⟩)
      · by_cases hgt : offset > (f k).iSize
        · rw [if_pos hgt] at hsame
          exact .inr (Inode.setSize_eq_self_iff.mp hsame)
        · exact .inl (Nat.le_of_not_lt hgt)
      · have hzero : (0 : Int) = written := hzero
        omega
    · intro hcond
      refine .inl ⟨Int.le_refl 0, ?_, s.clock, rfl⟩
      by_cases hgt : offset > (f k).iSize
      · rw [if_pos hgt]
        exact Inode.setSize_eq_self_iff.mpr (by omega)
      · rw [if_neg hgt]
  · by_cases hlt : offset + count < 2 ^ 32
    · have hsafe : WriteSafe (f k) count offset := .inl ⟨hpos, hlt⟩
      refine ((writeFile_ok he h hdir hpos hlt hn).mono fun r t hok hspace => ?_).mono_error
        fun _ hf => .inl hf
      exact iff_of_true (hok hspace) hsafe
    · have hunsafe : ¬ WriteSafe (f k) count offset := by
        rintro (⟨-, hsum⟩ | ⟨hzero, -⟩)
        · exact hlt hsum
        · omega
      refine ((writeFile_returns_count he hdir).mono fun r t hr hspace => ?_).mono_error
        fun _ _ => .inr hunsafe
      refine iff_of_false ?_ hunsafe
      -- no size that is stored is as large as the end of the bytes that have been written
      have hle : (count : Int) ≤ r.1 := by
        rcases hr with hle | hfull
        · exact hle
        · rw [hspace] at hfull
          cases hfull
      rintro (⟨hnone, -⟩ | ⟨written, -, hwritten, hend, -⟩)
      · omega
      · have hstored : r.2.iSize < 2 ^ 32 := getLE_lt _ _ _
        omega

theorem WriteOk.walled {r : Int × Inode} :
    WriteOk e.walled f s k buf offset r t ↔ WriteOk e f s k buf offset r t := Iff.rfl

/-- **When a write is right**: with space for all bytes and a device that does not fail, exactly
when it is a safe one, whatever memory there is behind the buffers.  A write that is not may also
break; and where there is no such memory, one that comes to a descriptor which does not lie in the
one block of descriptors. -/
theorem writeFile_ok_iff (he : e.Reliable) (h : Files e.walled f s) (hdir : (f k).isDir = false)
    (hoff : offset < 2 ^ 64) (hn : count < n) :
    Ends (writeFile e.walled (f k) buf count offset n) s
      (fun err => Unfit s .block err ∨ ¬ WriteSafe (f k) count offset) fun r t =>
        ∀ mapped, writeFile (e.over mapped) (f k) buf count offset n s = .ok (r, t) ∧
          (t.noSpace = false →
            (WriteOk (e.over mapped) f s k buf offset r t ↔ WriteSafe (f k) count offset)) :=
  ends_over (x := fun e => writeFile e (f k) buf count offset n)
    (Q := fun e r t => t.noSpace = false →
      (WriteOk e f s k buf offset r t ↔ WriteSafe (f k) count offset))
    (fun _ => below_writeFile (f k) buf count offset n)
    (writeFile_ok_walled he.walled h hdir hoff hn) fun mapped _ _ hiff hspace =>
      (WriteOk.walled (e := e.over mapped)).symm.trans (hiff hspace)

end Safe

/-- Two thousand bytes of an empty file of the small volume, in the last block without a pointer
block above it and in the first one with. -/
theorem writeFile_ok_iff_small :
    Ends (writeFile (Env.ideal 0).walled ⟨fun _ => 0⟩ (fun _ => 7) 2000 11288 2001)
      (Small.volume 0 0xFF) (fun err => Unfit (Small.volume 0 0xFF) .block err ∨
        ¬ WriteSafe ⟨fun _ => 0⟩ 2000 11288) fun r t =>
      ∀ mapped, writeFile ((Env.ideal 0).over mapped) ⟨fun _ => 0⟩ (fun _ => 7) 2000 11288 2001
          (Small.volume 0 0xFF) = .ok (r, t) ∧ (t.noSpace = false →
        (WriteOk ((Env.ideal 0).over mapped) (fun _ : Unit => ⟨fun _ => 0⟩) (Small.volume 0 0xFF)
          () (fun _ => 7) 11288 r t ↔ WriteSafe ⟨fun _ => 0⟩ 2000 11288)) :=
  writeFile_ok_iff (f := fun _ : Unit => ⟨fun _ => 0⟩) (Env.ideal_reliable 0)
    (files_empty counted_small.consistent) (by decide) (by decide) (by decide)

/-- One byte at the last position below `2 ^ 32` is written, and the size becomes 0. -/
theorem writeFile_loses_size : ¬ ∀ (e : Env) (s : State) (f : Unit → Inode) (buf : Bytes)
    (count offset n : Nat), e.Reliable → Files e f s → (f ()).isDir = false →
    offset < 2 ^ 64 → count < 2 ^ 64 → count < n →
    Ends (writeFile e (f ()) buf count offset n) s (Unfit s .block) fun r t =>
      t.noSpace = false → WriteOk e f s () buf offset r t := by
  intro h
  have hends := h (Env.ideal 0) (Small.volume 0 0xFF) (fun _ => ⟨fun _ => 0⟩) (fun _ => 7) 1
    (2 ^ 32 - 1) 2 (Env.ideal_reliable 0) (files_empty counted_small.consistent)
    (by decide) (by decide) (by decide) (by decide)
  have hrun : (writeFile (Env.ideal 0) ⟨fun _ => 0⟩ (fun _ => 7) 1 (2 ^ 32 - 1) 2
      (Small.volume 0 0xFF)).toOption.map (fun r => (r.1.1, r.1.2.iSize, r.2.noSpace)) =
        some (1, 0, false) := by
    decide +kernel
  obtain ⟨⟨⟨code, inode⟩, t⟩, hres, hval⟩ := Option.map_eq_some_iff.mp hrun
  simp only [Prod.mk.injEq] at hval
  obtain ⟨hcode, hsize, hspace⟩ := hval
  have hok := hends.of_result (eq_ok_of_toOption hres) hspace
  rcases hok with ⟨hnone, -⟩ | ⟨written, -, -, hend, -⟩
  · have hnone : code ≤ 0 := hnone
    omega
  · have hend : 2 ^ 32 - 1 + written ≤ inode.iSize := hend
    omega

end InfoKernel.Ext2
