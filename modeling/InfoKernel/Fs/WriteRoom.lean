import InfoKernel.Fs.Room
import InfoKernel.Fs.Walls
import InfoKernel.Fs.WriteSpace

/-!
# When `WriteFile` reads behind the descriptors

The descriptors of a volume with many groups do not all lie in the block that they are read from,
and an `AllocBlock` that comes to another one takes the memory behind its buffer for it.  So
`WriteFile` is right, whatever that memory holds, exactly when none of its allocations comes so far
(`writeFile_right_iff`).

How many blocks a call takes is said by `Spent`: the room before the descriptors run out has become
smaller by so many, unless all groups that are searched have theirs in the block.  A call that stops
on the way has been `Short` of them.  Both are followed through `SetBlockNum`, which takes a block
for each pointer block that is missing, up to the loop of `WriteFile`, which takes all that are
lacking.  Where the descriptors run out, the memory behind the buffer can have the call write to
the block of another file (`writeFile_overwrites_other_file`).
-/

namespace InfoKernel.Ext2

open Lib

variable {κ : Type*} {e : Env} {s t u : State} {f g : κ → Inode} {k : κ} {m m' : Nat}
  {p q : (κ × Nat) × List Nat}

/-- `m` blocks have been taken, unless the descriptors of all groups searched can be read. -/
def Spent (e : Env) (m : Nat) (s t : State) : Prop :=
  s.SearchFits .block ∨ s.room e .block = t.room e .block + m

/-- There is no room for `m` blocks before the search comes to a descriptor that lies elsewhere. -/
def Short (e : Env) (m : Nat) (s : State) : Prop :=
  ¬ s.SearchFits .block ∧ s.room e .block < m

theorem Spent.at_right (s : State) (c : Nat) : Spent e 0 s (s.at c) := .inr rfl

theorem Spent.trans (h : Spent e m s t) (hl : SameLayout e s t) (h' : Spent e m' t u) :
    Spent e (m + m') s u := by
  rcases h with hfits | hroom
  · exact .inl hfits
  · refine h'.imp hl.searchFits.mp fun hroom' => ?_
    omega

/-- The blocks were too few before the first of them were taken. -/
theorem Spent.short (h : Spent e m s t) (hl : SameLayout e s t) (h' : Short e m' t) :
    Short e (m + m') s := by
  obtain ⟨hfits, hlt⟩ := h'
  rw [hl.searchFits] at hfits
  have hroom := h.resolve_left hfits
  exact ⟨hfits, by omega⟩

theorem Short.mono (h : Short e m s) (hle : m ≤ m') : Short e m' s :=
  ⟨h.1, Nat.lt_of_lt_of_le h.2 hle⟩

theorem Written.spent {x : Nat} {buf : Bytes} (hw : Written e x buf s t) (hr : Roles e s)
    (hx : ¬ Meta e s x) : Spent e 0 s t := .inr ((hw.sameBits hr hx).room hr).symm

/-! ## What is missing on the way -/

section Missing

/-- Above a pointer block nothing is missing. -/
theorem ref_ne_zero_of_le {n l : Nat} (hne : (s.forest e f).ref (p.1, p.2.take l) ≠ 0)
    (hn : n ≤ l) : (s.forest e f).ref (p.1, p.2.take n) ≠ 0 := by
  intro hzero
  have hon : OnWay (p.1, p.2.take l) (p.1, p.2.take n) := ⟨rfl, List.take_prefix_take_left hn⟩
  exact hne (ref_eq_zero_of_onWay hon hzero)

theorem missing_of_level_zero {r : κ × Nat} : missing e f s (r, []) = ∅ := rfl

theorem missing_snoc {r : κ × Nat} {js : List Nat} {i : Nat}
    (hne : (s.forest e f).ref (r, js) ≠ 0) : missing e f s (r, js ++ [i]) = ∅ := by
  refine Finset.eq_empty_of_forall_notMem fun n hn => ?_
  obtain ⟨hlt, hzero⟩ := Finset.mem_filter.mp hn
  have hlt : n < (js ++ [i]).length := Finset.mem_range.mp hlt
  rw [List.length_append, List.length_singleton] at hlt
  have hjs : (js ++ [i]).take js.length = js := List.take_left
  exact ref_ne_zero_of_le (p := (r, js ++ [i])) (l := js.length) (by rwa [hjs]) (by omega) hzero

theorem mem_missing_iff {n : Nat} (hn : n < p.2.length) :
    n ∈ missing e f s p ↔ (s.forest e f).ref (p.1, p.2.take n) = 0 := by
  rw [missing, Finset.mem_filter, Finset.mem_range]
  exact and_iff_right hn

/-- Once the pointer block of level `l` is there, the others that have been missing still are. -/
theorem missing_linked {l : Nat} (hleaf : (s.shape κ).Leaf p)
    (hway : WayOnly e f s g t (p.1, p.2.take l))
    (hthere : (t.forest e g).ref (p.1, p.2.take l) ≠ 0)
    (habove : ∀ n < l, (s.forest e f).ref (p.1, p.2.take n) ≠ 0) :
    missing e g t p = (missing e f s p).erase l := by
  ext n
  rw [Finset.mem_erase]
  by_cases hn : n < p.2.length
  · rw [mem_missing_iff hn, mem_missing_iff hn]
    rcases Nat.lt_or_ge l n with hlt | hle
    · -- beside the way to the new block nothing has changed
      obtain ⟨hq, -⟩ := (onWay_iff hleaf).mpr ⟨n, hn, rfl⟩
      have hsame := (hway _ hq).resolve_left fun hon => by
        have hle := hon.2.length_le
        rw [List.length_take, List.length_take] at hle
        omega
      rw [hsame]
      exact (and_iff_right (Nat.ne_of_gt hlt)).symm
    · refine iff_of_false (ref_ne_zero_of_le hthere hle) ?_
      rintro ⟨hne, hzero⟩
      exact habove n (by omega) hzero
  · have hno : ∀ {f : κ → Inode} {s : State}, n ∉ missing e f s p := fun hmem =>
      hn (Finset.mem_range.mp (Finset.mem_filter.mp hmem).1)
    exact iff_of_false hno fun h => hno h.2

/-- It has counted for one. -/
theorem card_missing_linked {l : Nat} (hlevel : l < p.2.length) (hleaf : (s.shape κ).Leaf p)
    (hway : WayOnly e f s g t (p.1, p.2.take l))
    (hthere : (t.forest e g).ref (p.1, p.2.take l) ≠ 0)
    (habove : ∀ n < l, (s.forest e f).ref (p.1, p.2.take n) ≠ 0) :
    (missing e f s p).card =
      (if (s.forest e f).ref (p.1, p.2.take l) = 0 then 1 else 0) + (missing e g t p).card := by
  rw [missing_linked hleaf hway hthere habove]
  by_cases hzero : (s.forest e f).ref (p.1, p.2.take l) = 0
  · rw [if_pos hzero, Nat.add_comm, Finset.card_erase_add_one ((mem_missing_iff hlevel).mpr hzero)]
  · rw [if_neg hzero, Nat.zero_add,
      Finset.erase_eq_of_notMem fun h => hzero ((mem_missing_iff hlevel).mp h)]

end Missing

/-! ## The pointer blocks -/

section Pointers

variable (he : e.Reliable)

include he

theorem allocBlock_spent (hs : Consistent e s) :
    Ends (allocBlock e) s (fun _ => Short e 1 s) fun n t =>
      ((n = 0 ∧ NoBlock e s t) ∨ NewBlock e n s t) ∧ Spent e 1 s t := by
  refine ((allocBlock_room he hs.roles fun _ => hs.meta_used).mono ?_).mono_error ?_
  · rintro n t (⟨h0, hno, -⟩ | ⟨hnew, hroom⟩)
    · exact ⟨.inl ⟨h0, hno⟩, .inl hno.searchFits⟩
    · exact ⟨.inr hnew, .inr hroom⟩
  · rintro _ ⟨hroom, hfits⟩
    exact ⟨hfits, by omega⟩

/-- A step above the last takes the block that is missing below. -/
theorem linkPtr_spent {r : κ × Nat} {js : List Nat} {i num : Nat} (hm : Mapped e f s)
    (hin : (s.shape κ).Inner (r, js)) (hne : (s.forest e f).ref (r, js) ≠ 0)
    (hi : i < s.super.ptrsPerBlock) (hnum : num ≠ 0) :
    Ends (linkPtr e num ((s.forest e f).ref (r, js)) (.ok i)) s
      (fun _ => Short e (if (s.forest e f).ref (r, js ++ [i]) = 0 then 1 else 0) s) fun _ t =>
      Spent e (if (s.forest e f).ref (r, js ++ [i]) = 0 then 1 else 0) s t := by
  have hown := hm.owned hin hne
  have hat := hm.consistent.same (s.clock + 2) s.noSpace
  refine Ends.step (pageAlloc_run he) ?_
  simp only [Bool.not_true, Bool.false_eq_true, if_false]
  refine Ends.step (load_run he _) ?_
  refine Ends.step (a := s.super) rfl ?_
  simp only [pointerAt_ok hi, getLE_copyOut hne hi]
  by_cases hzero : (s.forest e f).ref (r, js ++ [i]) = 0
  · simp only [if_pos hzero]
    rw [if_neg hnum]
    refine Ends.bind (P := fun n u => ((n = 0 ∧ NoBlock e (s.at (s.clock + 2)) u) ∨
      NewBlock e n (s.at (s.clock + 2)) u) ∧ Spent e 1 s u) (allocBlock_spent he hat)
      fun child u hu => ?_
    obtain ⟨⟨rfl, hno⟩ | hnew, hspent⟩ := hu
    · rw [if_pos rfl]
      exact Ends.pure hspent
    · rw [if_neg (hnew.ne_zero hat)]
      obtain ⟨t, ht, hw⟩ := writeBlock_written (s := u) he ((s.forest e f).ref (r, js))
        (setLE (copyOut e s.disk (s.origin e ((s.forest e f).ref (r, js))) s.super.blockSize)
          (4 * i) 4 child)
      have hframe : Frame e (fun _ => False) s u :=
        (Frame.at_right s (s.clock + 2)).trans hnew.frame fun _ _ => id
      refine Ends.step ht (Ends.pure ?_)
      exact hspent.trans hframe.layout
        (hw.spent (hframe.layout.roles hm.consistent.roles) (hframe.owned hown).data)
  · simp only [if_neg hzero]
    obtain ⟨t, ht, hw⟩ := writeBlock_written (s := s.at (s.clock + 2)) he
      ((s.forest e f).ref (r, js))
      (copyOut e s.disk (s.origin e ((s.forest e f).ref (r, js))) s.super.blockSize)
    refine Ends.step ht (Ends.pure ?_)
    exact hw.spent hat.roles fun h => hown.data h.of_same

/-- The last step takes none. -/
theorem storePtr_spent {F : Fault → Prop} {r : κ × Nat} {js : List Nat} {i num : Nat}
    (hm : Mapped e f s) (hin : (s.shape κ).Inner (r, js)) (hne : (s.forest e f).ref (r, js) ≠ 0)
    (hi : i < s.super.ptrsPerBlock) :
    Ends (storePtr e num ((s.forest e f).ref (r, js)) (.ok i)) s F fun _ t => Spent e 0 s t := by
  have hown := hm.owned hin hne
  refine Ends.step (pageAlloc_run he) ?_
  simp only [Bool.not_true, Bool.false_eq_true, if_false]
  refine Ends.step (load_run he _) ?_
  refine Ends.step (a := s.super) rfl ?_
  simp only [pointerAt_ok hi]
  obtain ⟨t, ht, hw⟩ := writeBlock_written (s := s.at (s.clock + 2)) he
    ((s.forest e f).ref (r, js))
    (setLE (copyOut e s.disk (s.origin e ((s.forest e f).ref (r, js))) s.super.blockSize)
      (4 * i) 4 num)
  exact Ends.step ht (Ends.pure (hw.spent (hm.consistent.roles.at _) fun h => hown.data h.of_same))

/-- Down the levels below a pointer block. -/
theorem setLevel_spent {r : κ × Nat} {js is : List Nat} {num : Nat} (hm : Mapped e f s)
    (hin : (s.shape κ).Inner (r, js)) (hne : (s.forest e f).ref (r, js) ≠ 0)
    (his : ∀ i ∈ is, i < s.super.ptrsPerBlock) (hlen : js.length + is.length = slotDepth r.2)
    (hnum : num ≠ 0) :
    Ends (setLevel e num ((s.forest e f).ref (r, js)) (is.map .ok)) s
      (fun _ => Short e (missing e f s (r, js ++ is)).card s)
      fun _ t => Spent e (missing e f s (r, js ++ is)).card s t := by
  induction is generalizing s js with
  | nil =>
      have hlt : js.length < slotDepth r.2 := hin.lt
      rw [List.length_nil] at hlen
      omega
  | cons i is ih =>
      have hi := his i List.mem_cons_self
      rw [List.length_cons] at hlen
      cases is with
      | nil =>
          rw [missing_snoc hne, Finset.card_empty]
          exact storePtr_spent he hm hin hne hi
      | cons j is =>
          rw [List.length_cons] at hlen
          have hleaf : (s.shape κ).Leaf (r, js ++ i :: j :: is) := hin.leaf_append his hlen
          have htake : (js ++ i :: j :: is).take (js.length + 1) = js ++ [i] := by
            rw [List.take_length_add_append, List.take_succ_cons, List.take_zero]
          have hlevel : js.length + 1 < (js ++ i :: j :: is).length := by
            rw [List.length_append, List.length_cons, List.length_cons]
            omega
          have hlinked : Ends (linkPtr e num ((s.forest e f).ref (r, js)) (.ok i)) s _ _ :=
            (linkPtr_ends he hm hin hne hi (by omega)).and (linkPtr_spent he hm hin hne hi hnum)
          refine Ends.bind (hlinked.mono_error fun _ hf => hf.2.mono ?_) fun x t hx => ?_
          · split
            · next hzero =>
              rw [← htake] at hzero
              exact Finset.card_pos.mpr ⟨_, (mem_missing_iff hlevel).mpr hzero⟩
            · exact Nat.zero_le _
          obtain ⟨⟨hm', hg, -, hway, hx⟩, hspent⟩ := hx
          have hl := hg.frame.layout
          cases x with
          | error code =>
              rcases hx with ⟨-, hzero, -⟩ | ⟨-, -, hstuck⟩
              · exact absurd hzero hnum
              · exact Ends.pure (.inl (hl.searchFits.mp hstuck.searchFits))
          | ok child =>
              obtain ⟨hchild, rfl⟩ := hx
              have hin' : (t.shape κ).Inner (r, js ++ [i]) := by
                rw [State.shape_congr hl.geometry]
                exact hin.snoc hi (show js.length + 1 < slotDepth r.2 by omega)
              have hcard := card_missing_linked (p := (r, js ++ i :: j :: is)) (g := f) (t := t)
                hlevel hleaf (by rwa [htake]) (by rwa [htake]) fun n hn =>
                  ref_ne_zero_of_le (l := js.length) (by rwa [List.take_left]) (by omega)
              have hsnoc : js ++ [i] ++ j :: is = js ++ i :: j :: is := by
                rw [List.append_assoc, List.singleton_append]
              have hrest := ih hm' hin' hchild (fun a ha => ?_) ?_
              · rw [hsnoc] at hrest
                rw [htake] at hcard
                rw [hcard]
                exact (hrest.mono fun _ _ h => hspent.trans hl h).mono_error fun _ hf =>
                  hspent.short hl hf
              · rw [SuperBlock.ptrsPerBlock, hl.geometry.blockSize]
                exact his a (List.mem_cons_of_mem i ha)
              · rw [List.length_append, List.length_singleton, List.length_cons]
                omega

variable [DecidableEq κ]

/-- **The blocks that `SetBlockNum` takes** are the pointer blocks that are missing. -/
theorem setBlockNum_spent {block num : Nat} (hm : Mapped e f s)
    (hb : block < maxBlocks s.super.ptrsPerBlock) (hreach : Reached s.super.ptrsPerBlock block)
    (hnum : num ≠ 0) :
    Ends (setBlockNum e (f k) block num) s
      (fun _ => Short e (missing e f s (filePos s.super.ptrsPerBlock k block)).card s) fun _ t =>
      Spent e (missing e f s (filePos s.super.ptrsPerBlock k block)).card s t := by
  have hsize := hm.consistent.roles.size_pos
  have hpath := blockPath_of_reached (ptrsPerBlock_pos hsize) hreach
  obtain ⟨hlen, hslot⟩ := blockPos_length s.super.ptrsPerBlock block
  have hleaf := filePos_leaf hsize hb k
  have hindex := blockPos_index (ptrsPerBlock_pos hsize) hb
  rw [filePos] at hleaf ⊢
  generalize (blockPos s.super.ptrsPerBlock block).1 = slot at *
  generalize (blockPos s.super.ptrsPerBlock block).2 = is at *
  refine Ends.step (a := s.super) rfl ?_
  simp only [hpath, List.map_eq_nil_iff]
  by_cases his : is = []
  · rw [if_pos his, his, missing_of_level_zero, Finset.card_empty]
    exact Ends.pure (.inr rfl)
  · have hpos := List.length_pos_iff.mpr his
    have hin : (s.shape κ).Inner ((k, slot), []) := by
      refine ⟨⟨hslot, fun _ hi => absurd hi List.not_mem_nil, Nat.zero_le _⟩, ?_⟩
      show 0 < slotDepth slot
      rw [← hlen]
      exact hpos
    have hdown : ([] : List Nat).length + is.length = slotDepth slot := by
      rw [List.length_nil, Nat.zero_add]
      exact hlen
    rw [if_neg his]
    by_cases hzero : (f k).iBlock slot = 0
    · rw [if_pos hzero, if_neg hnum]
      have hmem : 0 ∈ missing e f s ((k, slot), is) := (mem_missing_iff hpos).mpr hzero
      refine Ends.bind ((allocBlock_spent he hm.consistent).mono_error fun _ hf =>
        hf.mono (Finset.card_pos.mpr ⟨_, hmem⟩)) fun x u hu => ?_
      obtain ⟨⟨rfl, hno⟩ | hnew, hspent⟩ := hu
      · rw [if_pos rfl]
        exact Ends.pure (.inl hno.searchFits)
      · have hx : x ≠ 0 := hnew.ne_zero hm.consistent
        obtain ⟨hm', hg, -, hway, hroot⟩ := hm.grown_root hin hzero hnew
        have hin' : (u.shape κ).Inner ((k, slot), []) := by
          rw [State.shape_congr hnew.layout.geometry]
          exact hin
        have hthere : (u.forest e (setRoot f (k, slot) x)).ref ((k, slot), []) ≠ 0 := by
          rwa [hroot]
        have hcard := card_missing_linked (p := ((k, slot), is)) (l := 0)
          (g := setRoot f (k, slot) x) (t := u) hpos hleaf (hway []) hthere
          fun n hn => absurd hn (Nat.not_lt_zero n)
        have hroot0 : (s.forest e f).ref ((k, slot), is.take 0) = 0 := hzero
        rw [if_pos hroot0] at hcard
        rw [if_neg hx, hcard]
        have hset := setLevel_spent he hm' hin' hthere (fun i hi => ?_) hdown hnum
        · rw [hroot] at hset
          refine Ends.bind (hset.mono_error fun _ hf => hspent.short hnew.layout hf)
            fun code t ht => ?_
          exact Ends.pure (hspent.trans hnew.layout ht)
        · rw [SuperBlock.ptrsPerBlock, hnew.layout.geometry.blockSize]
          exact hindex i hi
    · rw [if_neg hzero]
      exact Ends.bind (setLevel_spent he hm hin hzero hindex hdown hnum) fun code t ht =>
        Ends.pure ht

end Pointers

/-! ## The blocks of a file -/

section Blocks

variable [DecidableEq κ] {i : Nat}

/-- A block of data that is missing, and the pointer blocks above it. -/
theorem card_absent (hzero : (s.forest e f).ref p = 0) :
    (absent e f s p).card = 1 + (missing e f s p).card := by
  have himage : absent e f s p =
      (insert p.2.length (missing e f s p)).image fun n => (p.1, p.2.take n) := by
    ext q
    rw [mem_absent, Finset.mem_image]
    constructor
    · rintro ⟨⟨hroot, hpre⟩, hq⟩
      have htake := List.prefix_iff_eq_take.mp hpre
      have hqp : q = (p.1, p.2.take q.2.length) := Prod.ext hroot htake
      refine ⟨q.2.length, ?_, hqp.symm⟩
      rcases Nat.lt_or_eq_of_le hpre.length_le with hlt | heq
      · exact Finset.mem_insert_of_mem ((mem_missing_iff hlt).mpr (hqp ▸ hq))
      · exact heq ▸ Finset.mem_insert_self _ _
    · rintro ⟨n, hn, rfl⟩
      refine ⟨⟨rfl, List.take_prefix n p.2⟩, ?_⟩
      rcases Finset.mem_insert.mp hn with rfl | hn
      · rw [List.take_length]
        exact hzero
      · exact (Finset.mem_filter.mp hn).2
  have hle : ∀ n ∈ insert p.2.length (missing e f s p), n ≤ p.2.length := by
    intro n hn
    rcases Finset.mem_insert.mp hn with rfl | hn
    · exact Nat.le_refl _
    · exact Nat.le_of_lt (Finset.mem_range.mp (Finset.mem_filter.mp hn).1)
  rw [himage, Finset.card_image_of_injOn, Finset.card_insert_of_notMem, Nat.add_comm]
  · exact fun hmem => Nat.lt_irrefl _ (Finset.mem_range.mp (Finset.mem_filter.mp hmem).1)
  · intro n hn n' hn' heq
    have hlen := congrArg (fun q => q.2.length) heq
    dsimp only at hlen
    rwa [List.length_take_of_le (hle n hn), List.length_take_of_le (hle n' hn')] at hlen

omit [DecidableEq κ] in
theorem missing_of_frame (hm : Mapped e f s) (hframe : Frame e (fun _ => False) s t)
    (hleaf : (s.shape κ).Leaf p) : missing e f t p = missing e f s p := by
  refine Finset.filter_congr fun n hn => ?_
  obtain ⟨hq, -⟩ := (onWay_iff hleaf).mpr ⟨n, Finset.mem_range.mp hn, rfl⟩
  rw [hm.ref_of_frame hframe (fun _ _ => id) hq.pos]

variable (he : e.Reliable)

include he

/-- **The blocks taken for one block of a file** are those missing on the way to it. -/
theorem writeTarget_spent (h : Files e f s) (hi : i < maxBlocks s.super.ptrsPerBlock)
    (hreach : Reached s.super.ptrsPerBlock i) :
    Ends (writeTarget e (f k) i) s
      (fun _ => Short e (absent e f s (filePos s.super.ptrsPerBlock k i)).card s) fun _ t =>
      Spent e (absent e f s (filePos s.super.ptrsPerBlock k i)).card s t := by
  have hsize := h.consistent.roles.size_pos
  have hleaf := filePos_leaf hsize hi k
  obtain ⟨c, hc⟩ := getBlockNum_run (f := f) he hsize hi hreach k
  refine Ends.step hc ?_
  have hat : Frame e (fun _ => False) s (s.at c) := Frame.at_right s c
  have hfiles : Files e f (s.at c) := h.of_frame hat fun _ _ => id
  by_cases hzero : (s.forest e f).ref (filePos s.super.ptrsPerBlock k i) = 0
  · rw [if_pos hzero, card_absent hzero]
    refine Ends.bind (P := fun b t => ((b = 0 ∧ NoBlock e (s.at c) t) ∨ NewBlock e b (s.at c) t) ∧
      Spent e 1 s t) ((allocBlock_spent he hfiles.consistent).mono_error fun _ hf =>
        Short.mono (m := 1) hf (by omega)) fun b t hb => ?_
    obtain ⟨⟨rfl, hno⟩ | hnew, hspent⟩ := hb
    · rw [if_pos rfl]
      exact Ends.pure (.inl hno.searchFits)
    · have hb := hnew.ne_zero hfiles.consistent
      rw [if_neg hb]
      have hframe : Frame e (fun _ => False) s t := hat.trans hnew.frame fun _ _ => id
      have hm : Mapped e f t := (h.of_frame hframe fun _ _ => id).mapped
      have hptrs : t.super.ptrsPerBlock = s.super.ptrsPerBlock := by
        rw [SuperBlock.ptrsPerBlock, SuperBlock.ptrsPerBlock, hframe.layout.geometry.blockSize]
      have hit : i < maxBlocks t.super.ptrsPerBlock := by rwa [hptrs]
      have hreacht : Reached t.super.ptrsPerBlock i := by rwa [hptrs]
      have hset := setBlockNum_spent (k := k) he hm hit hreacht hb
      rw [hptrs, missing_of_frame h.mapped hframe hleaf] at hset
      exact Ends.bind (hset.mono_error fun _ hf => hspent.short hframe.layout hf)
        fun r u hu => Ends.pure (hspent.trans hframe.layout hu)
  · rw [if_neg hzero, absent_of_ne_zero hzero, Finset.card_empty]
    exact Ends.pure (Spent.at_right s c)

/-- The blocks taken in one turn. -/
theorem writeTurn_spent {buf : Bytes} {offset count done : Nat} (h : Files e f s)
    (hlt : offset + count < 2 ^ 32) :
    Ends (writeTurn e buf offset count (done, f k)) s
      (fun _ => done < count ∧ Short e (absent e f s (s.bytePos k (offset + done))).card s)
      fun _ t => done < count → Spent e (absent e f s (s.bytePos k (offset + done))).card s t := by
  have hsize := h.consistent.roles.size_pos
  rw [writeTurn]
  dsimp only
  by_cases hdone : done < count
  · rw [if_pos hdone]
    refine Ends.step (a := s.super) rfl ?_
    have hx : offset + done < 2 ^ 32 := by omega
    obtain ⟨hmax, hreach⟩ := byte_in_range hsize hx
    rw [if_neg (Nat.ne_of_gt hsize), blockOf_eq hx]
    dsimp only
    refine Ends.bind (((writeTarget_fetched he h hmax hreach).and
      (writeTarget_spent he h hmax hreach)).mono_error fun _ hf => ⟨hdone, hf.2⟩) ?_
    rintro ⟨b, inode⟩ t ⟨hf, hspent⟩
    dsimp only
    by_cases hb : b = 0
    · rw [if_pos hb]
      exact Ends.pure fun _ => hspent
    · rw [if_neg hb]
      have ht := hf.target h hmax
      have hl := ht.extended.frame.layout
      refine Ends.step (pageAlloc_run he) ?_
      simp only [Bool.not_true, Bool.false_eq_true, if_false]
      refine Ends.step (load_run he b) ?_
      dsimp only
      obtain ⟨v, hv, hw⟩ := writeBlock_written (s := t.at (t.clock + 2)) he b
        (copyIn (copyOut e t.disk (t.origin e b) t.super.blockSize)
          ((offset + done) % s.super.blockSize) (bytesInBlock s.super.blockSize
            ((offset + done) % s.super.blockSize) (count - done)) fun i => buf (done + i))
      refine Ends.step hv (Ends.pure fun _ => ?_)
      exact hspent.trans hl (hw.spent ((hl.roles h.consistent.roles).at _)
        fun hx => (ht.owned hb).data hx.of_same)
  · rw [if_neg hdone]
    exact Ends.pure fun hc => absurd hc hdone

end Blocks

/-! ## The loop of `WriteFile` -/

section Loop

variable [DecidableEq κ] {buf : Bytes} {count offset done n : Nat} {inode : Inode}

/-- Where no search comes to its end, `SetBlockNum` succeeds, and all that has been taken is on the
way to the block. -/
theorem Fetched.filled_of_not_fits {i b : Nat} (hf : Fetched e f s k i (b, inode) t)
    (h : Files e f s) (hi : i < maxBlocks s.super.ptrsPerBlock) (hb : b ≠ 0)
    (hfits : ¬ s.SearchFits .block) :
    Filled e f s (absent e f s (filePos s.super.ptrsPerBlock k i)) (Function.update f k inode)
      t := by
  have hleaf := filePos_leaf h.consistent.roles.size_pos hi k
  cases hf with
  | mapped c hne =>
      rw [absent_of_ne_zero hne, Function.update_eq_self]
      exact Filled.of_same f s c s.noSpace
  | full hzero hno => exact absurd rfl hb
  | @new c b t code inode _ hzero hnew ha hinode =>
      have hat : Filled e f s ∅ f (s.at c) := Filled.of_same f s c s.noSpace
      have hfiles : Files e f (s.at c) := h.of_frame (Frame.at_right s c) fun _ _ => id
      rcases ha.outcome with ⟨hcode, -, -⟩ | ⟨hcode, -, -⟩
      · have hall := hat.trans h.consistent (hfiles.filled_assign hnew ha hleaf hzero hcode).1
        rwa [Finset.empty_union] at hall
      · have hl := hnew.layout.trans ha.grown.frame.layout
        exact absurd (hl.searchFits.mp (ha.stuck hcode).searchFits) hfits

/-- **How far the loop has come**: the blocks that its bytes need are there, and the room has become
smaller by as many, unless the descriptors of all groups searched can be read. -/
def Provided (e : Env) (f : κ → Inode) (s : State) (k : κ) (offset : Nat) (st : Nat × Inode)
    (t : State) : Prop :=
  s.SearchFits .block ∨
    (Filled e f s (lacking e f s k offset st.1) (Function.update f k st.2) t ∧
      s.room e .block = t.room e .block + needed e f s k offset st.1)

/-- What a turn adds to it. -/
theorem Provided.turn {r : Turn (Nat × Inode) (Nat × Inode)} (hs : Consistent e s)
    (hst : Provided e f s k offset (done, inode) t) (hl : SameLayout e s t)
    (h : Files e (Function.update f k inode) t) (hle : done ≤ count) (hlt : offset + count < 2 ^ 32)
    (hr : Turned e (Function.update f k inode) t k buf offset count done r u)
    (hspent : done < count → Spent e
      (absent e (Function.update f k inode) t (t.bytePos k (offset + done))).card t u) :
    r.Meets (fun st => Provided e f s k offset st u)
      fun _ => Spent e (needed e f s k offset count) s u := by
  have hsize := h.consistent.roles.size_pos
  by_cases hfits : s.SearchFits .block
  · cases r with
    | again st => exact .inl hfits
    | leave st => exact .inl hfits
  · obtain ⟨hfill, hroom⟩ := hst.resolve_left hfits
    have hfill : Filled e f s (lacking e f s k offset done) (Function.update f k inode) t := hfill
    have hroom : s.room e .block = t.room e .block + needed e f s k offset done := hroom
    cases hr with
    | finished hge =>
        have hall : done = count := Nat.le_antisymm hle hge
        rw [← hall]
        exact .inr hroom
    | full hdone hf =>
        -- no block for the next bytes: the search has come to its end
        generalize hr0 : (0, _) = r0 at hf
        cases hf with
        | mapped c hne =>
            injection hr0 with hzero
            exact absurd hzero.symm hne
        | full hzero hno => exact absurd (hl.searchFits.mp hno.searchFits) hfits
        | @new c b t code inode _ hzero hnew ha hinode =>
            injection hr0 with hb
            exact absurd hb.symm (hnew.ne_zero (h.consistent.same c _))
    | @wrote b c n inode' _ w blk hdone hf hb hn hblk hw =>
        have hx : offset + done < 2 ^ 32 := by omega
        rw [← hl.searchFits] at hfits
        have hnew := hf.filled_of_not_fits h (byte_in_range hsize hx).1 hb hfits
        have hfill' := hfill.wrote hs h hx hdone hf hb hn hw hnew
        refine .inr ⟨hfill', ?_⟩
        have hsucc := hfill.needed_succ hs hx
        have hgrew := (hspent hdone).resolve_left hfits
        have hplace : t.bytePos k (offset + done) = s.bytePos k (offset + done) :=
          bytePos_congr hl.geometry k _
        have hmod := Nat.mod_lt (offset + done) hsize
        have hbs : t.super.blockSize = s.super.blockSize := hl.geometry.blockSize
        rw [hbs] at hn hmod
        have hcard : needed e f s k offset (done + n) = needed e f s k offset (done + 1) := by
          rw [needed, needed,
            hfill.lacking_succ hs.roles.size_pos hx (n := n) (by omega) (by omega),
            hfill.lacking_succ hs.roles.size_pos hx (n := 1) (by omega) (by omega)]
        rw [hplace] at hgrew
        show _ = _ + needed e f s k offset (done + n)
        omega

/-- **The blocks that `WriteFile` takes** are all that are lacking for its bytes. -/
theorem writeFile_spent (he : e.Reliable) (h : Files e f s) (hdir : (f k).isDir = false)
    (hlt : offset + count < 2 ^ 32) (hn : count < n) :
    Ends (writeFile e (f k) buf count offset n) s
      (fun _ => Short e (needed e f s k offset count) s)
      fun _ t => Spent e (needed e f s k offset count) s t := by
  refine (writeFile_of_turns (I := fun st t => Provided e f s k offset st t ∧
    Progress e f s k buf offset (max (f k).iSize (offset + count)) st.1 st.2 t)
    (Q := fun _ t => Spent e (needed e f s k offset count) s t) hdir hlt hn
    ⟨.inr ⟨?_, rfl⟩, Progress.start h hlt⟩ ?_).mono fun _ _ ⟨_, _, hq⟩ => hq
  · exact (Filled.of_same f s s.clock s.noSpace).of_forest rfl (forest_start k (offset + count))
  · rintro ⟨done, inode⟩ t hle ⟨hst, hp⟩
    have hl := hp.extended.frame.layout
    have hinode : Function.update f k inode k = inode := Function.update_self k inode f
    have hturn : Ends (writeTurn e buf offset count (done, Function.update f k inode k)) t _ _ :=
      (writeTurn_turned he hp.files hlt).and (writeTurn_spent he hp.files hlt)
    rw [hinode] at hturn
    refine ((hturn.and (writeTurn_ends he hp hle hlt)).mono ?_).mono_error ?_
    · rintro (st' | st') u ⟨⟨hr, hspent⟩, hends⟩
      · obtain ⟨hstep, hle', hp'⟩ := hends
        exact ⟨hstep, hle', hst.turn h.consistent hl hp.files hle hlt hr hspent, hp'⟩
      · exact hst.turn h.consistent hl hp.files hle hlt hr hspent
    · rintro _ ⟨⟨-, hdone, hfits, hroom⟩, -⟩
      rw [hl.searchFits] at hfits
      obtain ⟨hfill, hspent⟩ := hst.resolve_left hfits
      have hfill : Filled e f s (lacking e f s k offset done) (Function.update f k inode) t := hfill
      have hsucc := hfill.needed_succ h.consistent (show offset + done < 2 ^ 32 by omega)
      have hmono : needed e f s k offset (done + 1) ≤ needed e f s k offset count :=
        needed_mono hdone
      have hplace : t.bytePos k (offset + done) = s.bytePos k (offset + done) :=
        bytePos_congr hl.geometry k _
      rw [hplace] at hroom
      have hroom : t.room e .block < (absent e (Function.update f k inode) t
        (s.bytePos k (offset + done))).card := hroom
      have hspent : s.room e .block = t.room e .block + needed e f s k offset done := hspent
      exact ⟨hfits, by omega⟩

end Loop

/-! ## Whatever memory lies behind the buffers -/

section Walled

/-- What a volume holds does not depend on the memory of the kernel. -/
theorem free_walled {n : Nat} : Free e.walled s .block n ↔ Free e s .block n :=
  ⟨fun h => ⟨h.group, h.lowest, h.clear⟩, fun h => ⟨h.group, h.lowest, h.clear⟩⟩

theorem Kept.walled {x : Nat} (h : Kept e s x) : Kept e.walled s x where
  used hfree := h.used (free_walled.mp hfree)
  super_lt := h.super_lt
  ne_desc hg := h.ne_desc hg
  ne_bitmap hg := h.ne_bitmap hg

theorem Frame.of_walled {A : Nat → Prop} (h : Frame e.walled A s t) : Frame e A s t where
  layout := ⟨h.layout.geometry, h.layout.bitmapBlock, h.layout.inodeTable⟩
  free hfree := free_walled.mp (h.free (free_walled.mpr hfree))
  block hx hA hi := h.block hx.walled hA hi
  noSpace := h.noSpace

theorem WriteRight.of_walled [DecidableEq κ] {buf : Bytes} {count offset : Nat} {r : Int × Inode}
    (h : WriteRight e.walled f s k buf count offset r t) :
    WriteRight e f s k buf count offset r t where
  returned := h.returned
  size := h.size
  read out n hn := by
    rw [← readFile_walled]
    exact h.read out hn
  kept hx hout := h.kept hx hout
  other hk hx := h.other hk hx
  frame := h.frame.of_walled

end Walled

/-- **When `WriteFile` does what it should.**  Take sound block maps on a consistent volume, and a
range of a file of theirs.  Whatever memory there is behind the buffers, the call returns and,
unless an `AllocBlock` has returned `0`, all bytes have been written, are read again, and nothing
else has changed, exactly when no search comes to a descriptor that does not lie in the block that
descriptors are read from: all groups that are searched have theirs there, or those that have hold
as many free blocks as are missing for the range. -/
theorem writeFile_right_iff [DecidableEq κ] {buf : Bytes} {count offset n : Nat} (he : e.Reliable)
    (h : Files e.walled f s) (hdir : (f k).isDir = false) (hlt : offset + count < 2 ^ 32)
    (hn : count < n) :
    (∀ mapped, ∃ r t, writeFile (e.over mapped) (f k) buf count offset n s = .ok (r, t) ∧
      (t.noSpace = false → WriteRight (e.over mapped) f s k buf count offset r t)) ↔
      s.SearchFits .block ∨ needed e.walled f s k offset count ≤ s.room e.walled .block := by
  have hspent : Ends (writeFile e.walled (f k) buf count offset n) s _ _ :=
    writeFile_spent he.walled h hdir hlt hn
  constructor
  · intro hall
    obtain ⟨r, t, hrun, -⟩ := hall fun _ => false
    refine (hspent.of_result hrun).imp_right fun hroom => ?_
    omega
  · intro hroom mapped
    have hends : Ends (writeFile e.walled (f k) buf count offset n) s (fun _ => False) _ :=
      ((writeFile_right he.walled h hdir hlt hn).and hspent).mono_error fun _ ⟨_, hfits, hshort⟩ =>
        hroom.elim hfits fun hle => by omega
    obtain ⟨r, t, hrun, hright, -⟩ := hends.exists_ok
    refine ⟨r, t, below_writeFile (e := e.over mapped) (f k) buf count offset n hrun,
      fun hspace => ?_⟩
    exact WriteRight.of_walled (e := e.over mapped) (hright hspace)

/-- Two thousand bytes of an empty file of the small volume, in the last block without a pointer
block above it and in the first one with. -/
theorem writeFile_right_small : (Small.volume 0 0xFF).SearchFits .block ∧
    ∀ mapped, ∃ r t, writeFile ((Env.ideal 0).over mapped) ⟨fun _ => 0⟩ (fun _ => 7) 2000 11288 2001
        (Small.volume 0 0xFF) = .ok (r, t) ∧ (t.noSpace = false →
      WriteRight ((Env.ideal 0).over mapped) (fun _ : Unit => ⟨fun _ => 0⟩) (Small.volume 0 0xFF) ()
        (fun _ => 7) 2000 11288 r t) := by
  have hfits : (Small.volume 0 0xFF).SearchFits .block := by
    intro g hg
    have hle := Nat.lt_of_lt_of_le hg (State.searched_le (k := .block) (by decide))
    rw [Small.groups_volume Nat.two_pos, Nat.lt_one_iff] at hle
    subst hle
    decide
  exact ⟨hfits, (writeFile_right_iff (f := fun _ : Unit => ⟨fun _ => 0⟩) (Env.ideal_reliable 0)
    (files_empty (counted_small.consistent)) (by decide) (by decide) (by decide)).mpr (.inl hfits)⟩

/-! ## More groups than one block describes -/

namespace Small

/-- 33 groups of 16 blocks of 1 KiB, with 16 inodes in the first of them. -/
def crowdedSuper : SuperBlock :=
  ⟨store (fun _ => 0) [(0, 4, 16), (4, 4, 528), (32, 4, 16), (40, 4, 16), (56, 2, 0xEF53),
    (88, 2, 128)]⟩

/-- The descriptors begin in block 2 and say that there are no free blocks; the last of them is
in block 3.  The block bitmaps are the blocks from 100 on, the inode bitmap is block 99, the
inode table begins at block 97, and all bits are set. -/
def crowded : State where
  disk a :=
    if 2048 ≤ a ∧ a < 3104 then
      if (a - 2048) % 32 = 0 then UInt8.ofNat (100 + (a - 2048) / 32)
      else if (a - 2048) % 32 = 4 then 99
      else if (a - 2048) % 32 = 8 then 97
      else 0
    else 0xFF
  super := crowdedSuper
  clock := 0
  noSpace := false

/-- A kernel whose pages have been in use before: behind a buffer lie the bytes of a descriptor
with block 3 as its block bitmap and with one free block. -/
def stale : Env :=
  { Env.ideal 0 with
    behind := store (fun _ => 0) [(1024, 4, 3), (1036, 2, 1)]
    mapped := fun _ => true }

theorem stale_reliable : stale.Reliable := ⟨fun _ => rfl, fun _ => rfl, fun _ => rfl⟩

theorem groups_crowded (k : Kind) : crowded.groups k =
    match k with
    | .block => 33
    | .inode => 1 := by
  cases k <;> decide

/-- The block with a bitmap of it. -/
def crowdedBitmap (g : Nat) : Kind → Nat
  | .block => 100 + g
  | .inode => 99

theorem bitmapBlock_crowded {k : Kind} {g : Nat} (hg : g < crowded.groups k) :
    crowded.bitmapBlock stale.walled k g = crowdedBitmap g k := by
  cases k with
  | block =>
      rw [groups_crowded] at hg
      revert g
      decide
  | inode =>
      rw [groups_crowded, Nat.lt_one_iff] at hg
      rw [hg]
      decide

theorem bit_crowded {k : Kind} {n : Nat} (hn : n / k.perGroup crowded.super < crowded.groups k) :
    crowded.bit stale.walled k n = true := by
  have hper : ∀ k : Kind, k.perGroup crowded.super = 16 := by
    rintro (_ | _) <;> decide
  rw [hper, Nat.div_lt_iff_lt_mul (by decide), groups_crowded] at hn
  cases k with
  | block =>
      have hlt : n < 528 := hn
      revert n
      decide +kernel
  | inode =>
      have hlt : n < 16 := hn
      revert n
      decide

theorem blockSize_crowded : crowded.super.blockSize = 1024 := by decide

theorem perGroup_crowded (k : Kind) : k.perGroup crowded.super = 16 := by
  cases k <;> decide

theorem groups_crowded_le {k : Kind} {g : Nat} (hg : g < crowded.groups k) :
    g < 33 ∧ (k = .inode → g = 0) := by
  rw [groups_crowded] at hg
  cases k with
  | block => exact ⟨hg, nofun⟩
  | inode =>
      rw [Nat.lt_one_iff.mp hg]
      exact ⟨by decide, fun _ => rfl⟩

theorem consistent_crowded : Consistent stale.walled crowded where
  roles :=
    { size_pos := by
        rw [blockSize_crowded]
        decide
      per_pos := fun k => by
        rw [perGroup_crowded]
        decide
      per_le := fun k => by
        rw [perGroup_crowded, blockSize_crowded]
        decide
      bitmap_inj := fun {k k' g g'} hg hg' heq => by
        rw [bitmapBlock_crowded hg, bitmapBlock_crowded hg'] at heq
        have h := groups_crowded_le hg
        have h' := groups_crowded_le hg'
        cases k <;> cases k' <;> simp only [crowdedBitmap] at heq
        · exact ⟨rfl, by omega⟩
        · omega
        · omega
        · exact ⟨rfl, by rw [h.2 rfl, h'.2 rfl]⟩
      bitmap_ne_desc := fun {k k' g g'} hg hg' => by
        have h' := (groups_crowded_le hg').1
        have hle : GroupDesc.size * g' / 1024 ≤ GroupDesc.size * 33 / 1024 :=
          Nat.div_le_div_right (Nat.mul_le_mul_left _ (Nat.le_of_lt h'))
        rw [show GroupDesc.size * 33 / 1024 = 1 from rfl] at hle
        rw [bitmapBlock_crowded hg, State.descBlock, blockSize_crowded, gdBlock]
        cases k <;> simp only [crowdedBitmap] <;> omega
      super_lt_bitmap := fun {k g} hg => by
        rw [bitmapBlock_crowded hg, State.superBlock, blockSize_crowded]
        cases k <;> simp only [crowdedBitmap] <;> omega
      walled := fun _ _ => rfl }
  meta_used _ hf := by
    have hclear := hf.clear
    rw [bit_crowded hf.group] at hclear
    cases hclear

/-- An empty file, and one with a block of the last group. -/
def twoFiles : Bool → Inode
  | false => ⟨fun _ => 0⟩
  | true => ⟨store (fun _ => 0) [(40, 4, 512)]⟩

theorem iBlock_twoFiles {b : Bool} {slot : Nat} (hslot : slot < 15) :
    (twoFiles b).iBlock slot = if b = true ∧ slot = 0 then 512 else 0 := by
  revert b slot
  decide

/-- They refer to one block. -/
theorem ref_twoFiles {p : (Bool × Nat) × List Nat} (hp : (crowded.shape Bool).Pos p)
    (hne : (crowded.forest stale.walled twoFiles).ref p ≠ 0) :
    p = ((true, 0), []) ∧ (crowded.forest stale.walled twoFiles).ref p = 512 := by
  obtain ⟨⟨b, slot⟩, is⟩ := p
  have hroot := iBlock_twoFiles (b := b) hp.root
  by_cases hfirst : b = true ∧ slot = 0
  · obtain ⟨rfl, rfl⟩ := hfirst
    have his : is = [] := List.length_eq_zero_iff.mp (Nat.le_zero.mp hp.length)
    rw [his]
    exact ⟨rfl, hroot⟩
  · rw [if_neg hfirst] at hroot
    refine absurd ?_ hne
    show walk _ ((twoFiles b).iBlock slot) is = 0
    rw [hroot, walk_zero]

theorem owned_crowded : Owned stale.walled crowded 512 where
  used hf := by
    have hclear := hf.clear
    rw [bit_crowded hf.group] at hclear
    cases hclear
  data hmeta := by
    generalize hx : 512 = x at hmeta
    cases hmeta with
    | super hle =>
        rw [State.superBlock, blockSize_crowded] at hle
        omega
    | @desc k g hg =>
        have hlt := (groups_crowded_le hg).1
        rw [State.descBlock, blockSize_crowded, gdBlock, GroupDesc.size] at hx
        omega
    | @bitmap k g hg =>
        have hlt := (groups_crowded_le hg).1
        rw [bitmapBlock_crowded hg] at hx
        cases k <;> simp only [crowdedBitmap] at hx <;> omega
    | @table g i hg hi =>
        have htable : (crowded.desc stale.walled 0).bgInodeTable = 97 ∧
            crowded.super.sInodeSize = 128 := by
          decide
        have hper : crowded.super.sInodesPerGroup = 16 := perGroup_crowded .inode
        rw [(groups_crowded_le hg).2 rfl, htable.1, htable.2, blockSize_crowded, u32] at hx
        omega

theorem files_crowded : Files stale.walled twoFiles crowded where
  consistent := consistent_crowded
  unshared p q hp hq hne heq := by
    rw [(ref_twoFiles hp hne).1, (ref_twoFiles hq (heq ▸ hne)).1]
  owned hp hne := by
    rw [(ref_twoFiles hp hne).2]
    exact owned_crowded

end Small

/-- On a volume with more groups than one block describes, all of whose blocks are in use,
`WriteFile` takes a descriptor from behind the buffer, allocates the block of another file, and
writes there. -/
theorem writeFile_overwrites_other_file :
    Small.stale.Reliable ∧ Files Small.stale.walled Small.twoFiles Small.crowded ∧
      (Small.twoFiles false).isDir = false ∧
      fileByte Small.stale Small.twoFiles Small.crowded true 0 = 0xFF ∧
      ∃ r t, writeFile Small.stale (Small.twoFiles false) (fun _ => 7) 1 0 2 Small.crowded =
          .ok (r, t) ∧ t.noSpace = false ∧
        fileByte Small.stale (Function.update Small.twoFiles false r.2) t true 0 = 7 := by
  have hrun : (writeFile Small.stale (Small.twoFiles false) (fun _ => 7) 1 0 2 Small.crowded).map
      (fun r => (r.2.noSpace, fileByte Small.stale (Function.update Small.twoFiles false r.1.2)
        r.2 true 0)) = .ok (false, 7) := by
    decide +kernel
  refine ⟨Small.stale_reliable, Small.files_crowded, by decide, by decide +kernel, ?_⟩
  cases hres : writeFile Small.stale (Small.twoFiles false) (fun _ => 7) 1 0 2 Small.crowded with
  | error f =>
      rw [hres] at hrun
      cases hrun
  | ok r =>
      rw [hres] at hrun
      injection hrun with hrun
      injection hrun with hspace hbyte
      exact ⟨r.1, r.2, rfl, hspace, hbyte⟩

end InfoKernel.Ext2
