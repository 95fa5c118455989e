import InfoKernel.Fs.AddEntry
import InfoKernel.Fs.Lasting

/-!
# What does not take inodes

`SetBlockNum` and `AddEntry` take blocks, and write to blocks that hold no metadata.  So the bitmaps
of the inodes are what they were (`SameInodes`), whatever the two return.
-/

namespace InfoKernel.Ext2

open Lib

variable {κ : Type} {e : Env} {f : κ → Inode} {s t u : State} {k : κ}

/-- The metadata stays where it is, and no inode is taken or given back. -/
structure SameInodes (e : Env) (s t : State) : Prop where
  layout : SameLayout e s t
  bit {n : Nat} : n / Kind.inode.perGroup s.super < s.groups .inode →
    t.bit e .inode n = s.bit e .inode n

namespace SameInodes

theorem same (s : State) (c : Nat) (f : Bool) :
    SameInodes e s { s with clock := c, noSpace := f } where
  layout := ⟨SuperBlock.SameGeometry.refl s.super, fun _ => rfl, fun _ => rfl⟩
  bit _ := rfl

theorem trans (h : SameInodes e s t) (h' : SameInodes e t u) : SameInodes e s u where
  layout := h.layout.trans h'.layout
  bit {n} hn := by
    refine (h'.bit ?_).trans (h.bit hn)
    rwa [h.layout.perGroup, h.layout.groups]

theorem of_sameBits (h : SameBits e s t) : SameInodes e s t := ⟨h.layout, h.bit⟩

theorem of_written {x : Nat} {buf : Bytes} (h : Written e x buf s t) (hr : Roles e s)
    (hx : ¬ Meta e s x) : SameInodes e s t := of_sameBits (h.sameBits hr hx)

theorem of_newBlock {n : Nat} (h : NewBlock e n s t) : SameInodes e s t where
  layout := h.layout
  bit hn := by rw [h.flip.bit hn, if_neg fun heq => Kind.noConfusion heq.1]

theorem of_noBlock (h : NoBlock e s t) : SameInodes e s t := by
  obtain ⟨c, rfl⟩ := h.same
  exact same s c true

theorem free_iff (h : SameInodes e s t) {n : Nat} : Free e t .inode n ↔ Free e s .inode n := by
  have hl := h.layout
  constructor
  · intro hf
    have hn := hf.group
    rw [hl.perGroup, hl.groups] at hn
    exact ⟨hn, hl.lowest .inode ▸ hf.lowest, h.bit hn ▸ hf.clear⟩
  · intro hf
    refine ⟨?_, (hl.lowest .inode).symm ▸ hf.lowest, (h.bit hf.group).symm ▸ hf.clear⟩
    rw [hl.perGroup, hl.groups]
    exact hf.group

end SameInodes

section Setting

variable (he : e.Reliable)

include he

/-- `AllocBlock` takes a block or nothing. -/
theorem allocBlock_sameInodes (hs : Consistent e s) :
    Ends (allocBlock e) s (fun _ => True) fun n t =>
      SameInodes e s t ∧ (n = 0 ∨ NewBlock e n s t) := by
  refine ((allocBlock_ends he hs.roles fun _ => hs.meta_used).mono_error fun _ _ =>
    True.intro).mono ?_
  rintro n t (⟨rfl, hno⟩ | hnew)
  · exact ⟨.of_noBlock hno, .inl rfl⟩
  · exact ⟨.of_newBlock hnew, .inr hnew⟩

/-- Writing to a block of data. -/
theorem writeBlock_sameInodes (hs : Consistent e s) {x : Nat} (hx : ¬ Meta e s x) (buf : Bytes) :
    Ends (writeBlock e x buf) s (fun _ => True) fun _ t => SameInodes e s t := by
  obtain ⟨t, hrun, hw⟩ := writeBlock_written (s := s) he x buf
  exact Ends.of_ok hrun (.of_written hw hs.roles hx)

theorem linkPtr_sameInodes (hs : Consistent e s) {x : Nat} (num : Nat) (hx : ¬ Meta e s x)
    (index : Except Fault Nat) :
    Ends (linkPtr e num x index) s (fun _ => True) fun _ t => SameInodes e s t := by
  have hat := SameInodes.same (e := e) s (s.clock + 2) s.noSpace
  have hc := hs.same (s.clock + 2) s.noSpace
  have hdata : ¬ Meta e (s.at (s.clock + 2)) x := fun h => hx h.of_same
  unfold linkPtr
  refine .step (pageAlloc_run he) ?_
  simp only [Bool.not_true, Bool.false_eq_true, if_false]
  refine .step (load_run he x) (.step (super_run _) ?_)
  -- the block is written with the pointer, or as it is
  have hwrite : ∀ {u : State} (buf : Bytes) (child : Nat), SameInodes e s u →
      Consistent e u → Ends (do
        if !(← writeBlock e x buf) then
          pure (.error (-5))
        else
          pure (.ok child) : Io (Except Int Nat)) u (fun _ => True) fun _ t =>
            SameInodes e s t := by
    intro u buf child hu hcu
    refine (writeBlock_sameInodes he hcu (fun h => hx (hu.layout.meta_of h)) buf).bind
      fun ok v hv => ?_
    cases ok <;> exact .pure (hu.trans hv)
  cases pointerAt _ index with
  | error err => exact .throw True.intro
  | ok i =>
      simp only []
      split
      · split
        · exact .pure hat
        · refine (allocBlock_sameInodes he hc).bind fun child u hu => ?_
          split
          · exact .pure (hat.trans hu.1)
          · next hne => exact hwrite _ _ (hat.trans hu.1) ((hu.2.resolve_left hne).consistent hc)
      · exact hwrite _ _ hat hc

theorem storePtr_sameInodes (hs : Consistent e s) {x : Nat} (num : Nat) (hx : ¬ Meta e s x)
    (index : Except Fault Nat) :
    Ends (storePtr e num x index) s (fun _ => True) fun _ t => SameInodes e s t := by
  have hat := SameInodes.same (e := e) s (s.clock + 2) s.noSpace
  unfold storePtr
  refine .step (pageAlloc_run he) ?_
  simp only [Bool.not_true, Bool.false_eq_true, if_false]
  refine .step (load_run he x) (.step (super_run _) ?_)
  cases pointerAt _ index with
  | error err => exact .throw True.intro
  | ok i =>
      refine (writeBlock_sameInodes he (hs.same (s.clock + 2) s.noSpace)
        (fun h => hx h.of_same) _).bind fun ok v hv => ?_
      cases ok <;> exact .pure (hat.trans hv)

theorem setLevel_sameInodes {r : κ × Nat} {js is : List Nat} (num : Nat) (hm : Mapped e f s)
    (hin : (s.shape κ).Inner (r, js)) (hne : (s.forest e f).ref (r, js) ≠ 0)
    (his : ∀ i ∈ is, i < s.super.ptrsPerBlock) (hlen : js.length + is.length = slotDepth r.2) :
    Ends (setLevel e num ((s.forest e f).ref (r, js)) (is.map .ok)) s (fun _ => True)
      fun _ t => SameInodes e s t := by
  induction is generalizing s js with
  | nil => exact .pure (.same s s.clock s.noSpace)
  | cons i is ih =>
      have hdata := (hm.owned hin hne).data
      cases is with
      | nil => exact storePtr_sameInodes he hm.consistent num hdata (.ok i)
      | cons j is =>
          simp only [List.length_cons] at hlen
          have hi := his i List.mem_cons_self
          have hlink : Ends (linkPtr e num ((s.forest e f).ref (r, js)) (.ok i)) s _ _ :=
            linkPtr_ends he hm hin hne hi (by omega)
          refine ((hlink.and (linkPtr_sameInodes he hm.consistent num hdata (.ok i))).mono_error
            fun _ _ => True.intro).bind fun x t hx => ?_
          obtain ⟨⟨hm', hg, -, -, hx⟩, hsame⟩ := hx
          cases x with
          | error code => exact .pure hsame
          | ok child =>
              obtain ⟨hchild, rfl⟩ := hx
              have hgeo := hg.frame.layout.geometry
              have hin' : (t.shape κ).Inner (r, js ++ [i]) := by
                rw [State.shape_congr hgeo]
                exact hin.snoc hi (show js.length + 1 < slotDepth r.2 by omega)
              refine (ih hm' hin' hchild (fun a ha => ?_) ?_).mono fun _ _ h => hsame.trans h
              · rw [SuperBlock.ptrsPerBlock, hgeo.blockSize]
                exact his a (List.mem_cons_of_mem i ha)
              · simp only [List.length_append, List.length_cons, List.length_nil]
                omega

variable [DecidableEq κ]

/-- **`SetBlockNum` takes no inode.** -/
theorem setBlockNum_sameInodes {block : Nat} (num : Nat) (hm : Mapped e f s)
    (hb : block < maxBlocks s.super.ptrsPerBlock) (hreach : Reached s.super.ptrsPerBlock block) :
    Ends (setBlockNum e (f k) block num) s (fun _ => True) fun _ t => SameInodes e s t := by
  have hsize := hm.consistent.roles.size_pos
  have hrefl := SameInodes.same (e := e) s s.clock s.noSpace
  have hpath := blockPath_of_reached (ptrsPerBlock_pos hsize) hreach
  obtain ⟨hlen, hslot⟩ := blockPos_length s.super.ptrsPerBlock block
  have hindex := blockPos_index (ptrsPerBlock_pos hsize) hb
  generalize (blockPos s.super.ptrsPerBlock block).1 = slot at *
  generalize (blockPos s.super.ptrsPerBlock block).2 = is at *
  unfold setBlockNum
  refine .step (super_run s) ?_
  simp only [hpath, List.map_eq_nil_iff]
  split
  · exact .pure hrefl
  · next his =>
    have hdepth : 0 < slotDepth slot := by
      rw [← hlen]
      exact List.length_pos_iff.mpr his
    have hin : (s.shape κ).Inner ((k, slot), []) := ⟨⟨hslot, nofun, Nat.zero_le _⟩, hdepth⟩
    have hdown : ([] : List Nat).length + is.length = slotDepth slot := by
      rw [List.length_nil, Nat.zero_add]
      exact hlen
    split
    · next hzero =>
      split
      · exact .pure hrefl
      · refine (allocBlock_sameInodes he hm.consistent).bind fun x u hu => ?_
        obtain ⟨hsame, hnew⟩ := hu
        split
        · exact .pure hsame
        · next hx =>
          have hnew := hnew.resolve_left hx
          obtain ⟨hm', -, -, -, hroot⟩ := hm.grown_root hin hzero hnew
          have hin' : (u.shape κ).Inner ((k, slot), []) := by
            rw [State.shape_congr hnew.layout.geometry]
            exact hin
          have hset := setLevel_sameInodes he num hm' hin' (by rwa [hroot])
            (fun i hi => ?_) hdown
          · rw [hroot] at hset
            exact hset.bind fun code t ht => .pure (hsame.trans ht)
          · rw [SuperBlock.ptrsPerBlock, hnew.layout.geometry.blockSize]
            exact hindex i hi
    · next hzero =>
      exact (setLevel_sameInodes he num hm hin hzero hindex hdown).bind fun code t ht =>
        .pure ht

variable {os : Nat → List Nat} {x : List UInt8}

theorem addBlock_sameInodes (h : Files e f s) (num : Nat) (x : List UInt8) (fileType : UInt8) :
    Ends (addBlock e (f k) (dirBlockCount s.super (f k)) num x fileType) s (fun _ => True)
      fun _ t => SameInodes e s t := by
  obtain ⟨hmax, hreach⟩ := behindLast_in_range (f := f) (k := k) h.consistent.roles.size_pos
  unfold addBlock
  refine (allocBlock_sameInodes he h.consistent).bind fun b t hb => ?_
  obtain ⟨hsame, hnew⟩ := hb
  split
  · exact .pure hsame
  · next hb =>
    have hnew := hnew.resolve_left hb
    have hframe : Frame e (fun _ => False) s t := hnew.frame
    have hm : Mapped e f t := (h.of_frame hframe fun _ _ => id).mapped
    have hptrs : t.super.ptrsPerBlock = s.super.ptrsPerBlock := by
      rw [SuperBlock.ptrsPerBlock, SuperBlock.ptrsPerBlock, hframe.layout.geometry.blockSize]
    refine (setBlockNum_sameInodes he b hm (by rwa [hptrs]) (by rwa [hptrs])).bind
      fun r u hu => ?_
    refine .step (super_run u) ?_
    split
    · obtain ⟨v, hv, hw⟩ := writeBlock_written (s := u) he b
        (putDirent (fun _ => 0) 0 num (u16 u.super.blockSize) x fileType)
      have hl := hsame.layout.trans hu.layout
      have hdata : ¬ Meta e u b := fun hmeta => h.consistent.meta_used (hl.meta_of hmeta) hnew.free
      refine .step hv (.pure ((hsame.trans hu).trans (.of_written hw ?_ hdata)))
      exact hl.roles h.consistent.roles
    · exact .throw True.intro

/-- **`AddEntry` takes no inode.** -/
theorem addEntry_sameInodes (h : Files e f s) (hd : Directory e f s k os) (num : Nat)
    (x : List UInt8)
    (fileType : UInt8) {n : Nat} (hn : s.super.blockSize < n) :
    Ends (addEntry e (f k) num x fileType n) s (fun _ => True) fun _ t => SameInodes e s t := by
  have hsize := h.consistent.roles.size_pos
  have hrefl := SameInodes.same (e := e) s s.clock s.noSpace
  unfold addEntry
  refine .step (super_run s) ?_
  simp only [hd.isDir, Bool.not_true, Bool.false_eq_true, if_false]
  split
  · exact .pure hrefl
  · rw [if_neg (Nat.ne_of_gt hsize)]
    refine .step (pageAlloc_run he) ?_
    simp only [Bool.not_true, Bool.false_eq_true, if_false]
    rcases addFrom_run (c := s.clock + 1) he hd hsize x num fileType hn (Nat.zero_add _)
      (fun j hj => absurd hj (Nat.not_lt_zero j)) with ⟨-, c, hrun⟩ |
        ⟨i, a, buf, t, hfirst, -, hrun, hw⟩
    · refine .step hrun ?_
      have hat : Files e f (s.at c) := h.of_frame (Frame.at_right s c) fun _ _ => id
      exact (addBlock_sameInodes (s := s.at c) (k := k) he hat num x fileType).mono fun _ _ ht =>
        (SameInodes.same s c s.noSpace).trans ht
    · have hi := (filePos_leaf hsize (dirBlock_in_range hsize hfirst.block).1 k).pos
      exact .step hrun
        (.pure (.of_written hw h.consistent.roles (h.owned hi (hd.mapped hfirst.block)).data))

end Setting

end InfoKernel.Ext2
