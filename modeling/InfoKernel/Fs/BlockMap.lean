import InfoKernel.Fs.Inode
import InfoKernel.Fs.Counts
import InfoKernel.Fs.Walls
import InfoKernel.Lib.PointerForest

/-!
# Block maps

The block maps of a family of inodes are a forest of pointer blocks on the device: the entries of
`i_block` are its roots.  `Mapped` says that no pointer block is referred to twice and that all of
them are data, used and not metadata, on a consistent volume.

`GetBlockNum` reads the reference at a leaf of this forest, and `SetBlockNum` sets it: it
allocates the pointer blocks that are missing on the way and leaves all other references alone
(`setBlockNum_ends`).  `Grown` is what may happen to the rest of the volume meanwhile.
-/

namespace InfoKernel.Ext2

open Lib

/-! ## The way to a block -/

/-- The entry of `i_block` and the indices of `blockPath`, for block sizes with
`p * p < 2 ^ 32`. -/
def blockPos (p block : Nat) : Nat × List Nat :=
  if block < ndirBlocks then
    (block, [])
  else if block - ndirBlocks < p then
    (ndirBlocks, [block - ndirBlocks])
  else if block - ndirBlocks - p < p * p then
    (ndirBlocks + 1, [(block - ndirBlocks - p) / p, (block - ndirBlocks - p) % p])
  else
    (ndirBlocks + 2, [(block - ndirBlocks - p - p * p) / (p * p),
      (block - ndirBlocks - p - p * p) % (p * p) / p,
        (block - ndirBlocks - p - p * p) % (p * p) % p])

/-- The number of blocks that a map has room for. -/
def maxBlocks (p : Nat) : Nat := ndirBlocks + p + p * p + p * p * p

/-- The number of levels below an entry of `i_block`. -/
def slotDepth (slot : Nat) : Nat := slot - 11

theorem blockPos_length (p block : Nat) :
    (blockPos p block).2.length = slotDepth (blockPos p block).1 ∧ (blockPos p block).1 < 15 := by
  have hn : ndirBlocks = 12 := rfl
  unfold blockPos slotDepth
  split
  · constructor
    · show 0 = block - 11
      omega
    · show block < 15
      omega
  · split
    · exact ⟨rfl, show ndirBlocks < 15 by decide⟩
    · split
      · exact ⟨rfl, show ndirBlocks + 1 < 15 by decide⟩
      · exact ⟨rfl, show ndirBlocks + 2 < 15 by decide⟩

theorem blockPos_index {p block : Nat} (hp : 0 < p) (hb : block < maxBlocks p) :
    ∀ i ∈ (blockPos p block).2, i < p := by
  have hn : ndirBlocks = 12 := rfl
  have hpp : 0 < p * p := Nat.mul_pos hp hp
  rw [maxBlocks] at hb
  unfold blockPos
  split
  · intro i hi
    cases hi
  · split
    · intro i hi
      rw [List.mem_singleton] at hi
      omega
    · split
      · intro i hi
        rw [List.mem_cons, List.mem_singleton] at hi
        rcases hi with rfl | rfl
        · rw [Nat.div_lt_iff_lt_mul hp]
          assumption
        · exact Nat.mod_lt _ hp
      · intro i hi
        rw [List.mem_cons, List.mem_cons, List.mem_singleton] at hi
        rcases hi with rfl | rfl | rfl
        · rw [Nat.div_lt_iff_lt_mul hpp, ← Nat.mul_assoc]
          omega
        · rw [Nat.div_lt_iff_lt_mul hp]
          exact Nat.mod_lt _ hpp
        · exact Nat.mod_lt _ hp

theorem blockPos_slot_le {p block : Nat} (hb : block < ndirBlocks + p) :
    (blockPos p block).1 ≤ ndirBlocks := by
  unfold blockPos
  split
  next h => exact Nat.le_of_lt h
  next =>
    rw [if_pos (by omega)]

/-- The block that is found in this way. -/
def posBlock (p : Nat) : Nat × List Nat → Nat
  | (slot, []) => slot
  | (_, [i]) => ndirBlocks + i
  | (_, [i, j]) => ndirBlocks + p + (p * i + j)
  | (_, [i, j, k]) => ndirBlocks + p + p * p + (p * p * i + (p * j + k))
  | _ => 0

theorem posBlock_blockPos (p block : Nat) : posBlock p (blockPos p block) = block := by
  unfold blockPos
  split
  · rfl
  · split
    · show ndirBlocks + (block - ndirBlocks) = block
      omega
    · split
      · show ndirBlocks + p +
          (p * ((block - ndirBlocks - p) / p) + (block - ndirBlocks - p) % p) = _
        rw [Nat.div_add_mod]
        omega
      · show ndirBlocks + p + p * p + (p * p * ((block - ndirBlocks - p - p * p) / (p * p)) +
          (p * ((block - ndirBlocks - p - p * p) % (p * p) / p) +
            (block - ndirBlocks - p - p * p) % (p * p) % p)) = _
        rw [Nat.div_add_mod ((block - ndirBlocks - p - p * p) % (p * p)), Nat.div_add_mod]
        omega

/-- Different blocks are found in different ways. -/
theorem blockPos_inj {p a b : Nat} (h : blockPos p a = blockPos p b) : a = b := by
  rw [← posBlock_blockPos p a, h, posBlock_blockPos]

/-- A block of pointers holds a power of two of them. -/
theorem ptrsPerBlock_eq {sb : SuperBlock} (h : 0 < sb.blockSize) :
    ∃ j, j < 22 ∧ sb.ptrsPerBlock = 2 ^ (8 + j) := by
  rw [SuperBlock.ptrsPerBlock]
  rw [SuperBlock.blockSize, u32] at h ⊢
  generalize sb.sLogBlockSize = j at h ⊢
  have hten : 1024 * 2 ^ j = 2 ^ (10 + j) := by
    rw [Nat.pow_add]
  rw [hten] at h ⊢
  by_cases hj : j < 22
  · refine ⟨j, hj, ?_⟩
    have hlt : 2 ^ (10 + j) < 2 ^ 32 := Nat.pow_lt_pow_right (by decide) (by omega)
    rw [Nat.mod_eq_of_lt hlt, show 10 + j = 8 + j + 2 by omega, Nat.pow_add _ _ 2]
    exact Nat.mul_div_cancel _ (by decide)
  · have hdvd : 2 ^ 32 ∣ 2 ^ (10 + j) := Nat.pow_dvd_pow 2 (by omega)
    rw [Nat.mod_eq_zero_of_dvd hdvd] at h
    exact absurd h (Nat.lt_irrefl 0)

theorem ptrsPerBlock_pos {sb : SuperBlock} (h : 0 < sb.blockSize) : 0 < sb.ptrsPerBlock := by
  have hle := sb.le_blockSize h
  rw [SuperBlock.ptrsPerBlock]
  omega

/-- The square of the number of pointers fits in 32 bits, or becomes `0` there. -/
theorem u32_ptrs_mul {sb : SuperBlock} (h : 0 < sb.blockSize)
    (hbig : 2 ^ 32 ≤ sb.ptrsPerBlock * sb.ptrsPerBlock) :
    u32 (sb.ptrsPerBlock * sb.ptrsPerBlock) = 0 := by
  obtain ⟨j, -, hj⟩ := ptrsPerBlock_eq h
  rw [hj, ← Nat.pow_add] at hbig ⊢
  have hle : 32 ≤ 8 + j + (8 + j) := (Nat.pow_le_pow_iff_right (by decide)).mp hbig
  exact Nat.mod_eq_zero_of_dvd (Nat.pow_dvd_pow 2 hle)

theorem blockPath_eq {p block : Nat} (hpp : p * p < 2 ^ 32) :
    p * p = 0 ∨ blockPath p block = ((blockPos p block).1, (blockPos p block).2.map .ok) := by
  have hu : u32 (p * p) = p * p := Nat.mod_eq_of_lt hpp
  by_cases hz : p * p = 0
  · exact .inl hz
  · refine .inr ?_
    simp only [blockPath, blockPos, hu, checkedDiv, if_neg hz]
    split
    · rfl
    · split
      · rfl
      · split <;> rfl

/-- The blocks whose way does not go through the square of the number of pointers. -/
theorem blockPath_eq_of_lt {p block : Nat} (hb : block < ndirBlocks + p) :
    blockPath p block = ((blockPos p block).1, (blockPos p block).2.map .ok) := by
  simp only [blockPath, blockPos]
  split
  · rfl
  · rw [if_pos (by omega), if_pos (by omega)]
    rfl

/-- The way of the other blocks, when that square becomes `0`. -/
theorem blockPath_of_wrap {p block : Nat} (hu : u32 (p * p) = 0) (hb : ndirBlocks + p ≤ block) :
    ∃ rest, blockPath p block = (ndirBlocks + 2, .error .divByZero :: rest) ∧ rest ≠ [] := by
  refine ⟨[.ok ((block - ndirBlocks - p - 0) % 0 / p), .ok ((block - ndirBlocks - p - 0) % 0 % p)],
    ?_, List.cons_ne_nil _ _⟩
  simp only [blockPath, hu]
  rw [if_neg (by omega), if_neg (by omega), if_neg (Nat.not_lt_zero _)]
  rfl

/-! ## The forest of a family of inodes -/

/-- The words in the blocks. -/
def State.words (s : State) (e : Env) : Words := fun x i => getLE (s.block e x) (4 * i) 4

/-- The shape of block maps. -/
def State.shape (s : State) (κ : Type*) : Shape (κ × Nat) where
  arity := s.super.ptrsPerBlock
  root r := r.2 < 15
  depth r := slotDepth r.2

variable {κ : Type*} {e : Env} {s t : State} {f f' : κ → Inode}

/-- The pointer blocks of a family of inodes. -/
def State.forest (s : State) (e : Env) (f : κ → Inode) : Forest (κ × Nat) where
  mem := s.words e
  root r := (f r.1).iBlock r.2

/-- No pointer block is referred to twice, and each of them is used and no metadata. -/
structure Mapped (e : Env) (f : κ → Inode) (s : State) : Prop where
  consistent : Consistent e s
  unshared : (s.forest e f).Unshared (s.shape κ).Inner
  owned {p : (κ × Nat) × List Nat} : (s.shape κ).Inner p → (s.forest e f).ref p ≠ 0 →
    Owned e s ((s.forest e f).ref p)

/-- The block is a pointer block of the family. -/
def State.Points (s : State) (e : Env) (f : κ → Inode) (y : Nat) : Prop :=
  ∃ p, (s.shape κ).Inner p ∧ (s.forest e f).ref p = y

/-- What `SetBlockNum` may do to a volume and to its pointer blocks: blocks that were free are
new pointer blocks where there were none, and otherwise at most pointer blocks have changed.  All
blocks taken are such pointer blocks, and the counts stay right. -/
structure Grown (e : Env) (f : κ → Inode) (s : State) (f' : κ → Inode) (t : State) : Prop where
  frame : Frame e (s.Points e f) s t
  inner {p : (κ × Nat) × List Nat} : (s.shape κ).Inner p →
    (t.forest e f').ref p = (s.forest e f).ref p ∨
      ((s.forest e f).ref p = 0 ∧ Free e s .block ((t.forest e f').ref p))
  taken {n : Nat} : n ≠ 0 → Free e s .block n → ¬ Free e t .block n →
    ∃ p, (s.shape κ).Inner p ∧ (s.forest e f).ref p = 0 ∧ (t.forest e f').ref p = n
  counted : Counted e s → Counted e t

/-- Nothing is taken, and the counts stay right. -/
structure Idle (e : Env) (s t : State) : Prop where
  free {n : Nat} : Free e s .block n → Free e t .block n
  counted : Counted e s → Counted e t

theorem State.shape_congr (h : s.super.SameGeometry t.super) : t.shape κ = s.shape κ := by
  rw [State.shape, State.shape, SuperBlock.ptrsPerBlock, SuperBlock.ptrsPerBlock, h.blockSize]

namespace Grown

theorem refl (f : κ → Inode) (s : State) : Grown e f s f s :=
  ⟨Frame.refl s, fun _ => .inl rfl, fun _ hf hn => absurd hf hn, id⟩

theorem trans {f'' : κ → Inode} {u : State} (h : Grown e f s f' t) (h' : Grown e f' t f'' u) :
    Grown e f s f'' u where
  frame := by
    refine h.frame.trans h'.frame ?_
    rintro y hy ⟨p, hp, rfl⟩
    rw [State.shape_congr h.frame.layout.geometry] at hp
    rcases h.inner hp with hsame | ⟨-, hfree⟩
    · exact ⟨p, hp, hsame.symm⟩
    · exact absurd hfree hy.used
  inner {p} hp := by
    have hp' := hp
    rw [← State.shape_congr h.frame.layout.geometry] at hp'
    rcases h'.inner hp' with hsame | ⟨hzero, hfree⟩
    · rw [hsame]
      exact h.inner hp
    · refine .inr ⟨?_, h.frame.free hfree⟩
      rcases h.inner hp with hsame | ⟨hzero', -⟩
      · rw [← hsame, hzero]
      · exact hzero'
  taken {n} hn hs hu := by
    have hgeo := h.frame.layout.geometry
    by_cases ht : Free e t .block n
    · obtain ⟨p, hp, hzero, href⟩ := h'.taken hn ht hu
      rw [State.shape_congr hgeo] at hp
      refine ⟨p, hp, ?_, href⟩
      rcases h.inner hp with hsame | ⟨hzero', -⟩
      · rw [← hsame, hzero]
      · exact hzero'
    · obtain ⟨p, hp, hzero, rfl⟩ := h.taken hn hs ht
      have hp' := hp
      rw [← State.shape_congr hgeo] at hp'
      refine ⟨p, hp, hzero, ?_⟩
      rcases h'.inner hp' with hsame | ⟨hzero', -⟩
      · exact hsame
      · exact absurd hzero' hn
  counted hc := h'.counted (h.counted hc)

end Grown

namespace Idle

variable {u : State}

theorem at_right (s : State) (c : Nat) : Idle e s (s.at c) :=
  ⟨fun hf => ⟨hf.group, hf.lowest, hf.clear⟩, fun h => h.same c s.noSpace⟩

theorem trans (h : Idle e s t) (h' : Idle e t u) : Idle e s u :=
  ⟨fun hf => h'.free (h.free hf), fun hc => h'.counted (h.counted hc)⟩

theorem of_noBlock (h : NoBlock e s t) : Idle e s t := by
  obtain ⟨c, rfl⟩ := h.same
  exact ⟨fun hf => ⟨hf.group, hf.lowest, hf.clear⟩, fun h => h.same c true⟩

theorem of_written {x : Nat} {buf : Bytes} (h : Written e x buf s t) (hr : Roles e s)
    (hx : ¬ Meta e s x) : Idle e s t :=
  ⟨fun hf => (h.free_iff hr hx).mpr hf, fun hc => hc.written h hx⟩

end Idle

/-! ## Words and references -/

/-- Pointers lie inside their block. -/
theorem ptr_lt {sb : SuperBlock} {i j : Nat} (hi : i < sb.ptrsPerBlock) (hj : j < 4) :
    4 * i + j < sb.blockSize := by
  have hmul := sb.ptrs_mul
  omega

/-- The words of a block that has not changed. -/
theorem words_congr {x : Nat}
    (h : ∀ i, i < s.super.blockSize → t.block e x i = s.block e x i) {j : Nat}
    (hj : j < s.super.ptrsPerBlock) : t.words e x j = s.words e x j := by
  refine getLE_congr fun i hi hi' => h i ?_
  obtain ⟨a, rfl⟩ := Nat.exists_eq_add_of_le hi
  exact ptr_lt hj (by omega)

/-- The words after one of them has been stored. -/
theorem words_written {x i v : Nat} {buf : Bytes} (hw : Written e x (setLE buf (4 * i) 4 v) s t)
    (hbuf : ∀ j, j < s.super.blockSize → buf j = s.block e x j) (hv : v < 2 ^ 32)
    {y j : Nat} (hj : j < s.super.ptrsPerBlock) :
    t.words e y j = if y = x ∧ j = i then v else s.words e y j := by
  by_cases hy : y = x
  · subst hy
    have hread : t.words e y j = getLE (setLE buf (4 * i) 4 v) (4 * j) 4 := by
      refine getLE_congr fun a ha ha' => hw.self ?_
      obtain ⟨b, rfl⟩ := Nat.exists_eq_add_of_le ha
      exact ptr_lt hj (by omega)
    rw [hread]
    by_cases hji : j = i
    · rw [if_pos ⟨rfl, hji⟩, hji]
      exact getLE_setLE_of_lt hv
    · rw [if_neg fun h => hji h.2, getLE_setLE_of_disjoint (by omega)]
      refine getLE_congr fun a ha ha' => hbuf a ?_
      obtain ⟨b, rfl⟩ := Nat.exists_eq_add_of_le ha
      exact ptr_lt hj (by omega)
  · rw [if_neg fun h => hy h.1]
    exact words_congr (fun a ha => hw.of_ne hy ha) hj

namespace Mapped

/-- The references stay when the pointer blocks do. -/
theorem ref_of_frame {A : Nat → Prop} (hm : Mapped e f s) (h : Frame e A s t)
    (hA : ∀ y, s.Points e f y → ¬ A y) {p : (κ × Nat) × List Nat} (hp : (s.shape κ).Pos p) :
    (t.forest e f).ref p = (s.forest e f).ref p := by
  have hroot : (t.forest e f).root = (s.forest e f).root := rfl
  refine Forest.ref_of_same hroot (fun q hq hne i hi => ?_) hp
  exact words_congr
    (fun j hj => h.block (hm.owned hq hne).kept (hA _ ⟨q, hq, rfl⟩) hj) hi

/-- A change of one reference, to nothing or to a block that was free. -/
theorem of_updates {A : Nat → Prop} {p : (κ × Nat) × List Nat} {v : Nat} (hm : Mapped e f s)
    (hframe : Frame e A s t)
    (hup : Forest.Updates (s.shape κ) (s.forest e f) (t.forest e f') p v)
    (hv : (s.shape κ).Inner p → v ≠ 0 → Owned e t v ∧ Free e s .block v) : Mapped e f' t where
  consistent := hframe.consistent hm.consistent
  unshared := by
    rw [State.shape_congr hframe.layout.geometry]
    refine hup.unshared (fun q hq => hq.pos) hm.unshared fun hp => ?_
    by_cases hzero : v = 0
    · exact .inl hzero
    · refine .inr ?_
      rintro q hq rfl
      exact (hm.owned hq hzero).used (hv hp hzero).2
  owned {q} hq hne := by
    rw [State.shape_congr hframe.layout.geometry] at hq
    by_cases hqp : q = p
    · subst hqp
      rw [hup.1 hq.pos] at hne ⊢
      exact (hv hq hne).1
    · rw [hup.2 q hq.pos hqp] at hne ⊢
      exact hframe.owned (hm.owned hq hne)

theorem grown_of_updates {A : Nat → Prop} {p : (κ × Nat) × List Nat} {v : Nat}
    (hframe : Frame e A s t) (hA : ∀ y, Kept e s y → A y → s.Points e f y)
    (hup : Forest.Updates (s.shape κ) (s.forest e f) (t.forest e f') p v)
    (hv : (s.shape κ).Inner p → (s.forest e f).ref p = 0 ∧ (v = 0 ∨ Free e s .block v))
    (htaken : ∀ n, Free e s .block n → ¬ Free e t .block n → n = v ∧ (s.shape κ).Inner p)
    (hcounted : Counted e s → Counted e t) : Grown e f s f' t where
  frame := hframe.mono hA
  taken {n} _ hs ht := by
    obtain ⟨rfl, hp⟩ := htaken n hs ht
    exact ⟨p, hp, (hv hp).1, hup.1 hp.pos⟩
  counted := hcounted
  inner {q} hq := by
    by_cases hqp : q = p
    · subst hqp
      rw [hup.1 hq.pos]
      obtain ⟨hzero, rfl | hfree⟩ := hv hq
      · exact .inl hzero.symm
      · exact .inr ⟨hzero, hfree⟩
    · exact .inl (hup.2 q hq.pos hqp)

end Mapped

theorem Unfit.of_layout {k : Kind} {err : Fault} (h : SameLayout e s t) (hf : Unfit t k err) :
    Unfit s k err := by
  obtain ⟨herr, g, hg, hfit⟩ := hf
  refine ⟨herr, g, by rwa [h.searched] at hg, ?_⟩
  rwa [State.Fits, h.geometry.blockSize] at hfit

/-! ## Reading -/

/-- What `GetBlockNum` returns. -/
def lookup (e : Env) (inode : Inode) (s : State) (block : Nat) : Except Fault Nat :=
  (getBlockNum e inode block s).map Prod.fst

/-- The position under which block `block` of the file of `k` is found. -/
def filePos (p : Nat) (k : κ) (block : Nat) : (κ × Nat) × List Nat :=
  ((k, (blockPos p block).1), (blockPos p block).2)

theorem filePos_leaf {block : Nat} (hsize : 0 < s.super.blockSize)
    (hb : block < maxBlocks s.super.ptrsPerBlock) (k : κ) :
    (s.shape κ).Leaf (filePos s.super.ptrsPerBlock k block) := by
  obtain ⟨hlen, hslot⟩ := blockPos_length s.super.ptrsPerBlock block
  exact ⟨⟨hslot, blockPos_index (ptrsPerBlock_pos hsize) hb, Nat.le_of_eq hlen⟩, hlen⟩

theorem filePos_inj {p a b : Nat} {k k' : κ} (h : filePos p k a = filePos p k' b) :
    k = k' ∧ a = b := by
  simp only [filePos, Prod.mk.injEq] at h
  exact ⟨h.1.1, blockPos_inj (Prod.ext h.1.2 h.2)⟩

/-- The way to the block does not divide by a square that has become `0`. -/
def Reached (p block : Nat) : Prop := p * p < 2 ^ 32 ∨ block < ndirBlocks + p

instance (p block : Nat) : Decidable (Reached p block) := inferInstanceAs (Decidable (_ ∨ _))

theorem blockPath_of_reached {p block : Nat} (hp : 0 < p) (h : Reached p block) :
    blockPath p block = ((blockPos p block).1, (blockPos p block).2.map .ok) := by
  rcases h with h | h
  · rcases blockPath_eq h with hzero | hpath
    · exact absurd hzero (Nat.ne_of_gt (Nat.mul_pos hp hp))
    · exact hpath
  · exact blockPath_eq_of_lt h

section Reading

variable (he : e.Reliable)

include he

theorem readPtr_run {x i : Nat} (hi : i < s.super.ptrsPerBlock) (hx : x ≠ 0) :
    ∃ c, readPtr e x (.ok i) s = .ok (s.words e x i, s.at c) := by
  refine ⟨s.clock + 2, ?_⟩
  have hlt : 4 * i + 3 < s.super.blockSize := ptr_lt hi (by decide)
  have hptr : pointerAt s.super.blockSize (.ok i) = .ok i := if_pos (by omega)
  have hread : getLE (copyOut e s.disk (s.origin e x) s.super.blockSize) (4 * i) 4 =
      s.words e x i := getLE_congr fun a ha ha' => copyOut_of_lt (by omega)
  rw [readPtr, if_neg hx, bind_apply_of_ok (pageAlloc_run he)]
  simp only [Bool.not_true, Bool.false_eq_true, if_false]
  rw [bind_apply_of_ok (readBlock_run he x)]
  simp only []
  rw [bind_apply_of_ok (super_run _), ← hread]
  simp only [State.at, hptr]
  rfl

omit he in
theorem getLevel_zero (path : List (Except Fault Nat)) : getLevel e 0 path s = .ok (0, s) := by
  induction path with
  | nil => rfl
  | cons index rest ih => exact ih

theorem getLevel_run {x : Nat} {is : List Nat} (his : ∀ i ∈ is, i < s.super.ptrsPerBlock) :
    ∃ c, getLevel e x (is.map .ok) s = .ok (walk (s.words e) x is, s.at c) := by
  induction is generalizing x s with
  | nil => exact ⟨s.clock, rfl⟩
  | cons i is ih =>
      by_cases hx : x = 0
      · subst hx
        rw [getLevel_zero, walk_zero]
        exact ⟨s.clock, rfl⟩
      · obtain ⟨c, hc⟩ := readPtr_run he (his i List.mem_cons_self) hx
        obtain ⟨c', hc'⟩ := ih (x := s.words e x i) (s := s.at c) fun j hj =>
          his j (List.mem_cons_of_mem _ hj)
        refine ⟨c', ?_⟩
        rw [List.map_cons, getLevel, bind_apply_of_ok hc, hc', walk_cons hx]
        rfl

/-- **`GetBlockNum` reads the reference at the position of the block.** -/
theorem getBlockNum_run {block : Nat} (hsize : 0 < s.super.blockSize)
    (hb : block < maxBlocks s.super.ptrsPerBlock) (hreach : Reached s.super.ptrsPerBlock block)
    (k : κ) : ∃ c, getBlockNum e (f k) block s =
      .ok ((s.forest e f).ref (filePos s.super.ptrsPerBlock k block), s.at c) := by
  have hp := ptrsPerBlock_pos hsize
  have hpath := blockPath_of_reached hp hreach
  obtain ⟨c, hc⟩ :=
    getLevel_run (s := s) (x := (f k).iBlock (blockPos s.super.ptrsPerBlock block).1)
    he (blockPos_index hp hb)
  refine ⟨c, ?_⟩
  show (getLevel e _ (blockPath s.super.ptrsPerBlock block).2) s = _
  rw [hpath]
  exact hc

/-- Where the way divides by `0`, there is a result for want of a tree only. -/
theorem lookup_of_not_reached {block : Nat} (inode : Inode) (hsize : 0 < s.super.blockSize)
    (hreach : ¬ Reached s.super.ptrsPerBlock block) : lookup e inode s block =
      if inode.iBlock (ndirBlocks + 2) = 0 then .ok 0 else .error .divByZero := by
  rw [Reached, not_or, Nat.not_lt, Nat.not_lt] at hreach
  obtain ⟨rest, hpath, -⟩ := blockPath_of_wrap (u32_ptrs_mul hsize hreach.1) hreach.2
  have hrun : getBlockNum e inode block s =
      getLevel e (inode.iBlock (ndirBlocks + 2)) (.error .divByZero :: rest) s := by
    show getLevel e _ (blockPath s.super.ptrsPerBlock block).2 s = _
    rw [hpath]
  rw [lookup, hrun]
  by_cases hx : inode.iBlock (ndirBlocks + 2) = 0
  · rw [hx, getLevel_zero, if_pos rfl]
    rfl
  · have hptr : readPtr e (inode.iBlock (ndirBlocks + 2)) (.error .divByZero) s =
        .error .divByZero := by
      rw [readPtr, if_neg hx, bind_apply_of_ok (pageAlloc_run he)]
      simp only [Bool.not_true, Bool.false_eq_true, if_false]
      rw [bind_apply_of_ok (readBlock_run he _)]
      rfl
    rw [if_neg hx, getLevel, bind_apply, hptr]
    rfl

end Reading

/-! ## Writing -/

/-- Writing back what a block holds. -/
theorem Written.frame_same {A : Nat → Prop} {x : Nat} {buf : Bytes} (h : Written e x buf s t)
    (hr : Roles e s) (hx : ¬ Meta e s x)
    (hbuf : ∀ j, j < s.super.blockSize → buf j = s.block e x j) : Frame e A s t where
  layout := h.layout hr hx
  free := (h.frame hr hx).free
  block {y i} _ _ hi := by
    by_cases hy : y = x
    · rw [hy, h.self hi, hbuf i hi]
    · exact h.of_ne hy hi
  noSpace := (h.frame hr hx).noSpace

/-- Storing a word of a pointer block. -/
theorem Mapped.store {u : State} {r : κ × Nat} {js : List Nat} {i v : Nat} {buf : Bytes}
    (hm : Mapped e f s) (hframe : Frame e (fun _ => False) s u) (hin : (s.shape κ).Inner (r, js))
    (hne : (s.forest e f).ref (r, js) ≠ 0) (hi : i < s.super.ptrsPerBlock) (hv : v < 2 ^ 32)
    (hw : Written e ((s.forest e f).ref (r, js)) (setLE buf (4 * i) 4 v) u t)
    (hbuf : ∀ j, j < s.super.blockSize → buf j = s.block e ((s.forest e f).ref (r, js)) j)
    (hbelow : slotDepth r.2 ≤ js.length + 1 ∨ ((s.forest e f).ref (r, js ++ [i]) = 0 ∧
      v ≠ (s.forest e f).ref (r, js) ∧ ∀ j, j < s.super.ptrsPerBlock → u.words e v j = 0)) :
    Forest.Updates (s.shape κ) (s.forest e f) (t.forest e f) (r, js ++ [i]) v ∧
      Frame e (fun y => y = (s.forest e f).ref (r, js)) s t := by
  have hown := hm.owned hin hne
  have hsize := hframe.layout.geometry.blockSize
  have hptrs : u.super.ptrsPerBlock = s.super.ptrsPerBlock := by
    rw [SuperBlock.ptrsPerBlock, SuperBlock.ptrsPerBlock, hsize]
  have hwords : ∀ y j, j < s.super.ptrsPerBlock → t.words e y j =
      if y = (s.forest e f).ref (r, js) ∧ j = i then v else u.words e y j := by
    intro y j hj
    refine words_written hw (fun j hj => ?_) hv (by rwa [hptrs])
    rw [hsize] at hj
    rw [hbuf j hj, hframe.block hown.kept id hj]
  constructor
  · refine Forest.updates_word rfl hm.unshared hin hne (fun p hp hne' j hj => ?_) hi ?_
    · have hword := hwords ((s.forest e f).ref p) j hj
      rwa [words_congr (fun a ha => hframe.block (hm.owned hp hne').kept id ha) hj] at hword
    · rcases hbelow with hdepth | ⟨hzero, hvne, hwzero⟩
      · exact .inl hdepth
      · refine .inr ⟨hzero, fun j hj => ?_⟩
        have hword := hwords v j hj
        rwa [if_neg fun h => hvne h.1, hwzero j hj] at hword
  · have hwritten := hw.frame (hframe.layout.roles hm.consistent.roles) (hframe.owned hown).data
    exact (hframe.mono fun _ _ h => h.elim).trans hwritten fun _ _ h => h

/-- The leaves, that is the blocks of the files, stay where they are. -/
def LeavesKept (e : Env) (f : κ → Inode) (s : State) (f' : κ → Inode) (t : State) : Prop :=
  ∀ q, (s.shape κ).Leaf q → (t.forest e f').ref q = (s.forest e f).ref q

theorem LeavesKept.trans {f'' : κ → Inode} {u : State} (h : LeavesKept e f s f' t)
    (h' : LeavesKept e f' t f'' u) (hgeo : s.super.SameGeometry t.super) :
    LeavesKept e f s f'' u := by
  intro q hq
  have hq' := hq
  rw [← State.shape_congr hgeo] at hq'
  rw [h' q hq', h q hq]

/-- Position `q` is `p`, or above it. -/
def OnWay (p q : (κ × Nat) × List Nat) : Prop := q.1 = p.1 ∧ q.2 <+: p.2

/-- The pointer blocks beside the way to `p` stay where they are. -/
def WayOnly (e : Env) (f : κ → Inode) (s : State) (f' : κ → Inode) (t : State)
    (p : (κ × Nat) × List Nat) : Prop :=
  ∀ q, (s.shape κ).Inner q → OnWay p q ∨ (t.forest e f').ref q = (s.forest e f).ref q

/-- A pointer block on the way to `p` is missing, and there is no free block for it in any of the
groups. -/
structure Stuck (e : Env) (f : κ → Inode) (t : State) (p : (κ × Nat) × List Nat) : Prop where
  missing : ∃ q, (t.shape κ).Inner q ∧ OnWay p q ∧ (t.forest e f).ref q = 0
  none (hc : Counted e t) (n : Nat) : ¬ Free e t .block n
  searchFits : t.SearchFits .block

/-- What changes when the leaf at `p` is to become `num`: it does, with code `0`, or there is no
block left and no leaf changes. -/
structure Assigned (e : Env) (f : κ → Inode) (s : State) (f' : κ → Inode) (t : State)
    (p : (κ × Nat) × List Nat) (num : Nat) (code : Int) : Prop where
  mapped : Mapped e f' t
  grown : Grown e f s f' t
  outcome : (code = 0 ∧ (t.forest e f').ref p = num ∧
      ∀ q, (s.shape κ).Leaf q → q ≠ p → (t.forest e f').ref q = (s.forest e f).ref q) ∨
    (code = -2 ∧ t.noSpace = true ∧ LeavesKept e f s f' t)
  way : WayOnly e f s f' t p
  stuck : code = -2 → Stuck e f' t p

/-- Below a pointer block that is missing there is nothing. -/
theorem ref_eq_zero_of_onWay {p q : (κ × Nat) × List Nat} (hon : OnWay p q)
    (hzero : (s.forest e f).ref q = 0) : (s.forest e f).ref p = 0 := by
  obtain ⟨hroot, l, hl⟩ := hon
  have hp : p = (q.1, q.2 ++ l) := Prod.ext hroot.symm hl.symm
  rw [hp, Forest.ref_append, hzero, walk_zero]

namespace Assigned

variable {p q : (κ × Nat) × List Nat} {num : Nat} {code : Int}

/-- Where there was a block, all pointer blocks on the way are there already. -/
theorem inner_eq (h : Assigned e f s f' t p num code) (hne : (s.forest e f).ref p ≠ 0)
    (hq : (s.shape κ).Inner q) : (t.forest e f').ref q = (s.forest e f).ref q := by
  rcases h.grown.inner hq with hsame | ⟨hzero, -⟩
  · exact hsame
  · exact (h.way q hq).resolve_left fun hon => hne (ref_eq_zero_of_onWay hon hzero)

/-- Where there was a block, the reference to it can be changed. -/
theorem done (h : Assigned e f s f' t p num code) (hne : (s.forest e f).ref p ≠ 0) :
    code = 0 ∧ (t.forest e f').ref p = num ∧
      ∀ q, (s.shape κ).Leaf q → q ≠ p → (t.forest e f').ref q = (s.forest e f).ref q := by
  refine h.outcome.resolve_right ?_
  rintro ⟨hcode, -⟩
  obtain ⟨q, hq, hon, hzero⟩ := (h.stuck hcode).missing
  rw [State.shape_congr h.grown.frame.layout.geometry] at hq
  rw [h.inner_eq hne hq] at hzero
  exact hne (ref_eq_zero_of_onWay hon hzero)

end Assigned

/-- Steps before it that keep the leaves. -/
theorem Assigned.of_grown {f'' : κ → Inode} {u : State} {p : (κ × Nat) × List Nat} {num : Nat}
    {code : Int} (hg : Grown e f s f' t) (hl : LeavesKept e f s f' t) (hw : WayOnly e f s f' t p)
    (h : Assigned e f' t f'' u p num code) : Assigned e f s f'' u p num code where
  mapped := h.mapped
  grown := hg.trans h.grown
  stuck := h.stuck
  way q hq := by
    have hq' := hq
    rw [← State.shape_congr hg.frame.layout.geometry] at hq'
    rcases h.way q hq' with hon | hsame
    · exact .inl hon
    · exact (hw q hq).imp_right fun h => hsame.trans h
  outcome := by
    have hgeo := hg.frame.layout.geometry
    rcases h.outcome with ⟨hcode, hself, hother⟩ | ⟨hcode, hspace, hkept⟩
    · refine .inl ⟨hcode, hself, fun q hq hqp => ?_⟩
      have hq' := hq
      rw [← State.shape_congr hgeo] at hq'
      rw [hother q hq' hqp, hl q hq]
    · exact .inr ⟨hcode, hspace, hl.trans hkept hgeo⟩

namespace NewBlock

variable {n : Nat}

theorem words_zero (h : NewBlock e n s t) {j : Nat} (hj : j < s.super.ptrsPerBlock) :
    t.words e n j = 0 := by
  refine getLE_zero fun i hi hi' => h.zero ?_
  obtain ⟨a, rfl⟩ := Nat.exists_eq_add_of_le hi
  exact ptr_lt hj (by omega)

end NewBlock

namespace Mapped

theorem of_frame {A : Nat → Prop} (hm : Mapped e f s) (h : Frame e A s t)
    (hA : ∀ y, s.Points e f y → ¬ A y) : Mapped e f t where
  consistent := h.consistent hm.consistent
  unshared := by
    rw [State.shape_congr h.layout.geometry]
    intro p q hp hq hne heq
    rw [hm.ref_of_frame h hA hp.pos] at hne heq
    rw [hm.ref_of_frame h hA hq.pos] at heq
    exact hm.unshared p q hp hq hne heq
  owned {p} hp hne := by
    rw [State.shape_congr h.layout.geometry] at hp
    rw [hm.ref_of_frame h hA hp.pos] at hne ⊢
    exact h.owned (hm.owned hp hne)

theorem leavesKept_of_frame {A : Nat → Prop} (hm : Mapped e f s) (h : Frame e A s t)
    (hA : ∀ y, s.Points e f y → ¬ A y) : LeavesKept e f s f t := fun _ hq =>
  hm.ref_of_frame h hA hq.pos

theorem grown_of_frame (hm : Mapped e f s) (h : Frame e (fun _ => False) s t) (hi : Idle e s t) :
    Grown e f s f t where
  frame := h.mono fun _ _ hf => hf.elim
  inner hp := .inl (hm.ref_of_frame h (fun _ _ => id) hp.pos)
  taken _ hs ht := absurd (hi.free hs) ht
  counted := hi.counted

end Mapped

/-- What a step above the last leaves behind: the block at `p`, or the code for which there is
none. -/
structure Linked (e : Env) (f : κ → Inode) (s : State) (p : (κ × Nat) × List Nat) (num : Nat)
    (x : Except Int Nat) (t : State) : Prop where
  mapped : Mapped e f t
  grown : Grown e f s f t
  leaves : LeavesKept e f s f t
  way : WayOnly e f s f t p
  result : match x with
    | .error code => (code = 0 ∧ num = 0 ∧ (s.forest e f).ref p = 0) ∨
        (code = -2 ∧ t.noSpace = true ∧ Stuck e f t p)
    | .ok child => child ≠ 0 ∧ (t.forest e f).ref p = child

section Linking

variable {r : κ × Nat} {js : List Nat} {i num : Nat} {u : State} (hm : Mapped e f s)

include hm

/-- A step that takes no block. -/
theorem Mapped.linked_of_idle {p : (κ × Nat) × List Nat} {x : Except Int Nat}
    (hframe : Frame e (fun _ => False) s t) (hidle : Idle e s t)
    (hresult : match x with
      | .error code => (code = 0 ∧ num = 0 ∧ (s.forest e f).ref p = 0) ∨
          (code = -2 ∧ t.noSpace = true ∧ Stuck e f t p)
      | .ok child => child ≠ 0 ∧ (t.forest e f).ref p = child) : Linked e f s p num x t where
  mapped := hm.of_frame hframe fun _ _ => id
  grown := hm.grown_of_frame hframe hidle
  leaves := hm.leavesKept_of_frame hframe fun _ _ => id
  way _ hq := .inr (hm.ref_of_frame hframe (fun _ _ => id) hq.pos)
  result := hresult

/-- `AllocBlock` has returned `0` for the block at `p`. -/
theorem Mapped.stuck_of_noBlock {p : (κ × Nat) × List Nat} {c : Nat}
    (hno : NoBlock e (s.at c) t) (hp : (s.shape κ).Inner p) (hzero : (s.forest e f).ref p = 0) :
    Stuck e f t p := by
  have hframe : Frame e (fun _ => False) s t :=
    (Frame.at_right s c).trans hno.frame fun _ _ => id
  refine ⟨⟨p, ?_, ⟨rfl, List.prefix_refl _⟩, ?_⟩, ?_, ?_⟩
  · rw [State.shape_congr hframe.layout.geometry]
    exact hp
  · rw [hm.ref_of_frame hframe (fun _ _ => id) hp.pos, hzero]
  · obtain ⟨c', rfl⟩ := hno.same
    exact fun hc => hno.not_free (hc.same _ s.noSpace)
  · exact hframe.layout.searchFits.mpr hno.searchFits

/-- A new block has been stored as pointer `i`. -/
theorem Mapped.linked_of_newBlock {child c : Nat} {buf : Bytes} (hin : (s.shape κ).Inner (r, js))
    (hne : (s.forest e f).ref (r, js) ≠ 0) (hi : i < s.super.ptrsPerBlock)
    (hnext : (s.shape κ).Inner (r, js ++ [i])) (hzero : (s.forest e f).ref (r, js ++ [i]) = 0)
    (hbuf : ∀ j, j < s.super.blockSize → buf j = s.block e ((s.forest e f).ref (r, js)) j)
    (hnew : NewBlock e child (s.at c) u)
    (hw : Written e ((s.forest e f).ref (r, js)) (setLE buf (4 * i) 4 child) u t) :
    Linked e f s (r, js ++ [i]) num (.ok child) t := by
  have hown := hm.owned hin hne
  have hfree : Free e s .block child := ⟨hnew.free.group, hnew.free.lowest, hnew.free.clear⟩
  have hframe : Frame e (fun _ => False) s u :=
    (Frame.at_right s c).trans hnew.frame fun _ _ => id
  have hother : child ≠ (s.forest e f).ref (r, js) := fun h => hown.used (h ▸ hfree)
  obtain ⟨hup, hstored⟩ := hm.store hframe hin hne hi hnew.lt hw hbuf
    (.inr ⟨hzero, hother, fun j hj => hnew.words_zero hj⟩)
  have hchild : Owned e u child := hnew.owned_self (hm.consistent.same _ _)
  have hroles := hframe.layout.roles hm.consistent.roles
  have hdata := (hframe.owned hown).data
  have hgrown : Grown e f s f t := by
    refine Mapped.grown_of_updates hstored ?_ hup (fun _ => ⟨hzero, .inr hfree⟩) ?_ ?_
    · rintro y - rfl
      exact ⟨_, hin, rfl⟩
    · intro n hs ht
      refine ⟨?_, hnext⟩
      by_contra hne
      exact ht ((hw.free_iff hroles hdata).mpr
        (hnew.free_of_ne ((Idle.at_right s _).free hs) hne))
    · intro hc
      exact Counted.written (((Idle.at_right s _).counted hc).newBlock hnew) hw hdata
  refine ⟨hm.of_updates hstored hup fun _ _ => ⟨hw.owned hroles hdata hchild, hfree⟩, hgrown, ?_,
    ?_, hnew.ne_zero (hm.consistent.same _ _), hup.1 hnext.pos⟩
  · intro q hq
    refine hup.2 q hq.pos ?_
    rintro rfl
    exact hnext.not_leaf hq
  · intro q hq
    by_cases hqp : q = (r, js ++ [i])
    · exact .inl (hqp ▸ ⟨rfl, List.prefix_refl _⟩)
    · exact .inr (hup.2 q hq.pos hqp)

end Linking

section Writing

variable (he : e.Reliable)

include he

/-- Reading a block after the page for it has been allocated. -/
theorem load_run (x : Nat) : readBlock e x (s.at (s.clock + 1)) =
    .ok (some (copyOut e s.disk (s.origin e x) s.super.blockSize), s.at (s.clock + 2)) :=
  readBlock_run he x

omit he in
/-- A pointer that has been read is the reference below its block. -/
theorem getLE_copyOut {r : κ × Nat} {js : List Nat} {i : Nat}
    (hne : (s.forest e f).ref (r, js) ≠ 0) (hi : i < s.super.ptrsPerBlock) :
    getLE (copyOut e s.disk (s.origin e ((s.forest e f).ref (r, js))) s.super.blockSize) (4 * i) 4 =
      (s.forest e f).ref (r, js ++ [i]) := by
  have hlt : 4 * i + 3 < s.super.blockSize := ptr_lt hi (by decide)
  rw [Forest.ref_append, walk_cons hne, walk_nil]
  exact getLE_congr fun a ha ha' => copyOut_of_lt (by omega)

omit he in
theorem pointerAt_ok {i : Nat} (hi : i < s.super.ptrsPerBlock) :
    pointerAt s.super.blockSize (.ok i) = .ok i := by
  have hlt : 4 * i + 3 < s.super.blockSize := ptr_lt hi (by decide)
  exact if_pos (by omega)

/-- What the steps above the last do. -/
theorem linkPtr_ends {r : κ × Nat} {js : List Nat} {i num : Nat} (hm : Mapped e f s)
    (hin : (s.shape κ).Inner (r, js)) (hne : (s.forest e f).ref (r, js) ≠ 0)
    (hi : i < s.super.ptrsPerBlock) (hdepth : js.length + 1 < slotDepth r.2) :
    Ends (linkPtr e num ((s.forest e f).ref (r, js)) (.ok i)) s (Unfit s .block)
      (Linked e f s (r, js ++ [i]) num) := by
  have hnext := hin.snoc hi hdepth
  have hown := hm.owned hin hne
  have hbuf : ∀ j, j < s.super.blockSize →
      copyOut e s.disk (s.origin e ((s.forest e f).ref (r, js))) s.super.blockSize j =
        s.block e ((s.forest e f).ref (r, js)) j := fun j hj => copyOut_of_lt hj
  refine Ends.step (pageAlloc_run he) ?_
  simp only [Bool.not_true, Bool.false_eq_true, if_false]
  refine Ends.step (load_run he _) ?_
  refine Ends.step (a := s.super) rfl ?_
  simp only [pointerAt_ok hi, getLE_copyOut hne hi]
  by_cases hzero : (s.forest e f).ref (r, js ++ [i]) = 0
  · rw [if_pos hzero]
    by_cases hnum : num = 0
    · rw [if_pos hnum]
      exact Ends.pure (hm.linked_of_idle (Frame.at_right s _) (Idle.at_right s _)
        (.inl ⟨rfl, hnum, hzero⟩))
    · rw [if_neg hnum]
      have hnew := allocBlock_ends he (hm.consistent.roles.at (s.clock + 2))
        fun y hy hf => hm.consistent.meta_used hy.of_same ⟨hf.group, hf.lowest, hf.clear⟩
      refine Ends.bind (hnew.mono_error fun _ hf => hf) fun child u hu => ?_
      rcases hu with ⟨rfl, hno⟩ | hnew
      · have hspace : u.noSpace = true := by
          obtain ⟨c, rfl⟩ := hno.same
          rfl
        rw [if_pos rfl]
        exact Ends.pure (hm.linked_of_idle
          ((Frame.at_right s (s.clock + 2)).trans hno.frame fun _ _ => id)
          ((Idle.at_right s _).trans (Idle.of_noBlock hno))
          (.inr ⟨rfl, hspace, hm.stuck_of_noBlock hno hnext hzero⟩))
      · rw [if_neg (hnew.ne_zero (hm.consistent.same _ _))]
        obtain ⟨t, ht, hw⟩ := writeBlock_written (s := u) he ((s.forest e f).ref (r, js))
          (setLE (copyOut e s.disk (s.origin e ((s.forest e f).ref (r, js))) s.super.blockSize)
            (4 * i) 4 child)
        exact Ends.step ht (Ends.pure (hm.linked_of_newBlock hin hne hi hnext hzero hbuf hnew hw))
  · rw [if_neg hzero]
    obtain ⟨t, ht, hw⟩ := writeBlock_written (s := s.at (s.clock + 2)) he
      ((s.forest e f).ref (r, js))
      (copyOut e s.disk (s.origin e ((s.forest e f).ref (r, js))) s.super.blockSize)
    have hframe : Frame e (fun _ => False) s t :=
      (Frame.at_right s (s.clock + 2)).trans
        (hw.frame_same (hm.consistent.roles.at _) (fun h => hown.data h.of_same) hbuf) fun _ _ => id
    have hidle : Idle e s t := (Idle.at_right s _).trans
      (Idle.of_written hw (hm.consistent.roles.at _) fun h => hown.data h.of_same)
    exact Ends.step ht (Ends.pure (hm.linked_of_idle hframe hidle
      ⟨hzero, hm.ref_of_frame hframe (fun _ _ => id) hnext.pos⟩))

/-- What the last step does. -/
theorem storePtr_ends {F : Fault → Prop} {r : κ × Nat} {js : List Nat} {i num : Nat}
    (hm : Mapped e f s) (hin : (s.shape κ).Inner (r, js)) (hne : (s.forest e f).ref (r, js) ≠ 0)
    (hi : i < s.super.ptrsPerBlock) (hdepth : js.length + 1 = slotDepth r.2)
    (hnum : num < 2 ^ 32) :
    Ends (storePtr e num ((s.forest e f).ref (r, js)) (.ok i)) s F fun code t =>
      Assigned e f s f t (r, js ++ [i]) num code := by
  have hpos : (s.shape κ).Pos (r, js ++ [i]) := hin.pos_snoc hi
  have hleaf : ¬ (s.shape κ).Inner (r, js ++ [i]) := by
    intro h
    have hlt : (js ++ [i]).length < slotDepth r.2 := h.lt
    rw [List.length_append, List.length_singleton] at hlt
    omega
  generalize hx : (s.forest e f).ref (r, js) = x at hne ⊢
  have hown : Owned e s x := hx ▸ hm.owned hin (hx ▸ hne)
  refine Ends.step (pageAlloc_run he) ?_
  simp only [Bool.not_true, Bool.false_eq_true, if_false]
  refine Ends.step (load_run he x) ?_
  refine Ends.step (a := s.super) rfl ?_
  simp only [pointerAt_ok hi]
  obtain ⟨t, ht, hw⟩ := writeBlock_written (s := s.at (s.clock + 2)) he x
    (setLE (copyOut e s.disk (s.origin e x) s.super.blockSize) (4 * i) 4 num)
  refine Ends.step ht ?_
  refine Ends.pure ?_
  subst hx
  obtain ⟨hup, hstored⟩ := hm.store (Frame.at_right s _) hin hne hi hnum hw
    (fun j hj => copyOut_of_lt hj) (.inl (by omega))
  have hidle : Idle e s t := (Idle.at_right s _).trans
    (Idle.of_written hw (hm.consistent.roles.at _) fun h => hown.data h.of_same)
  refine ⟨hm.of_updates hstored hup fun h => absurd h hleaf,
    Mapped.grown_of_updates hstored ?_ hup (fun h => absurd h hleaf)
      (fun n hs ht => absurd (hidle.free hs) ht) hidle.counted,
    .inl ⟨rfl, hup.1 hpos, fun q hq hqp => hup.2 q hq.pos hqp⟩, fun q hq => ?_, nofun⟩
  · rintro y - rfl
    exact ⟨_, hin, rfl⟩
  · by_cases hqp : q = (r, js ++ [i])
    · exact .inl (hqp ▸ ⟨rfl, List.prefix_refl _⟩)
    · exact .inr (hup.2 q hq.pos hqp)

/-- Down the levels below a pointer block. -/
theorem setLevel_ends {r : κ × Nat} {js is : List Nat} {num : Nat} (hm : Mapped e f s)
    (hin : (s.shape κ).Inner (r, js)) (hne : (s.forest e f).ref (r, js) ≠ 0)
    (his : ∀ i ∈ is, i < s.super.ptrsPerBlock) (hlen : js.length + is.length = slotDepth r.2)
    (hnum : num < 2 ^ 32) :
    Ends (setLevel e num ((s.forest e f).ref (r, js)) (is.map .ok)) s (Unfit s .block)
      fun code t => Assigned e f s f t (r, js ++ is) num code := by
  induction is generalizing s js with
  | nil =>
      have hlt : js.length < slotDepth r.2 := hin.lt
      rw [List.length_nil] at hlen
      omega
  | cons i is ih =>
      have hi := his i List.mem_cons_self
      rw [List.length_cons] at hlen
      cases is with
      | nil => exact storePtr_ends he hm hin hne hi hlen hnum
      | cons j is =>
          rw [List.length_cons] at hlen
          have hleaf : (s.shape κ).Leaf (r, js ++ i :: j :: is) := hin.leaf_append his hlen
          have hsnoc : js ++ i :: j :: is = js ++ [i] ++ j :: is := by
            rw [List.append_assoc, List.singleton_append]
          refine Ends.bind (linkPtr_ends he hm hin hne hi (by omega)) fun x t hx => ?_
          obtain ⟨hm', hg, hl, hway, hx⟩ := hx
          have hon : ∀ {q : (κ × Nat) × List Nat}, OnWay (r, js ++ [i]) q →
              OnWay (r, js ++ i :: j :: is) q := fun hq =>
            ⟨hq.1, hq.2.trans (hsnoc ▸ List.prefix_append _ _)⟩
          have hway' : WayOnly e f s f t (r, js ++ i :: j :: is) := fun q hq =>
            (hway q hq).imp_left hon
          cases x with
          | error code =>
              rcases hx with ⟨hcode, hzero, href⟩ | ⟨hcode, hspace, hstuck⟩
              · refine Ends.pure ⟨hm', hg, .inl ⟨hcode, ?_, fun q hq _ => hl q hq⟩, hway',
                  fun h => ?_⟩
                · rw [hl _ hleaf, hzero, hsnoc, Forest.ref_append, href, walk_zero]
                · rw [hcode] at h
                  exact absurd h (by decide)
              · obtain ⟨q, hq, hqon, hq0⟩ := hstuck.missing
                exact Ends.pure ⟨hm', hg, .inr ⟨hcode, hspace, hl⟩, hway',
                  fun _ => ⟨⟨q, hq, hon hqon, hq0⟩, hstuck.none, hstuck.searchFits⟩⟩
          | ok child =>
              obtain ⟨hchild, href⟩ := hx
              have hgeo := hg.frame.layout.geometry
              have hin' : (t.shape κ).Inner (r, js ++ [i]) := by
                rw [State.shape_congr hgeo]
                exact hin.snoc hi (show js.length + 1 < slotDepth r.2 by omega)
              have hrest := ih hm' hin' (by rwa [href]) (fun a ha => ?_) ?_
              · rw [href, ← hsnoc] at hrest
                exact (hrest.mono fun _ _ h => h.of_grown hg hl hway').mono_error fun _ hf =>
                  hf.of_layout hg.frame.layout
              · rw [SuperBlock.ptrsPerBlock, hgeo.blockSize]
                exact his a (List.mem_cons_of_mem i ha)
              · rw [List.length_append, List.length_singleton, List.length_cons]
                omega

end Writing

section Setting

variable [DecidableEq κ] {k : κ}

/-- The family after one entry of `i_block` has been set. -/
def setRoot (f : κ → Inode) (r : κ × Nat) (v : Nat) : κ → Inode :=
  Function.update f r.1 ((f r.1).setBlock r.2 v)

/-- Setting an entry of `i_block`. -/
theorem Mapped.updates_root {r : κ × Nat} {v : Nat} (hm : Mapped e f s)
    (hframe : Frame e (fun _ => False) s t) (hv : v < 2 ^ 32)
    (hbelow : slotDepth r.2 = 0 ∨ ((f r.1).iBlock r.2 = 0 ∧
      ∀ j, j < s.super.ptrsPerBlock → v ≠ 0 → t.words e v j = 0)) :
    Forest.Updates (s.shape κ) (s.forest e f) (t.forest e (setRoot f r v)) (r, []) v := by
  refine Forest.updates_root (fun q hq => ?_) ?_ (fun p hp hne j hj => ?_) hbelow
  · show (setRoot f r v q.1).iBlock q.2 = (f q.1).iBlock q.2
    by_cases hk : q.1 = r.1
    · have hslot : q.2 ≠ r.2 := fun h => hq (Prod.ext hk h)
      rw [setRoot, hk, Function.update_self, Inode.iBlock_setBlock_of_ne _ hslot]
    · rw [setRoot, Function.update_of_ne hk]
  · show (setRoot f r v r.1).iBlock r.2 = v
    rw [setRoot, Function.update_self, Inode.iBlock_setBlock_self _ hv]
  · exact words_congr (fun a ha => hframe.block (hm.owned hp hne).kept id ha) hj

/-- An entry of `i_block` and the references below it. -/
theorem way_of_updates_root {slot : Nat} {is : List Nat} {v : Nat}
    (hup : Forest.Updates (s.shape κ) (s.forest e f) (t.forest e (setRoot f (k, slot) v))
      ((k, slot), []) v) :
    WayOnly e f s (setRoot f (k, slot) v) t ((k, slot), is) := fun q hq => by
  by_cases hqp : q = ((k, slot), [])
  · exact .inl (hqp ▸ ⟨rfl, List.nil_prefix⟩)
  · exact .inr (hup.2 q hq.pos hqp)

theorem leavesKept_of_updates_root {slot v : Nat} (hin : (s.shape κ).Inner ((k, slot), []))
    (hup : Forest.Updates (s.shape κ) (s.forest e f) (t.forest e (setRoot f (k, slot) v))
      ((k, slot), []) v) : LeavesKept e f s (setRoot f (k, slot) v) t := by
  intro q hq
  refine hup.2 q hq.pos ?_
  rintro rfl
  exact hin.not_leaf hq

/-- A direct block is set in `i_block`. -/
theorem Mapped.assigned_direct {slot num : Nat} (hm : Mapped e f s)
    (hleaf : (s.shape κ).Leaf ((k, slot), [])) (hnum : num < 2 ^ 32) :
    Assigned e f s (setRoot f (k, slot) num) s ((k, slot), []) num 0 := by
  have hnot : ¬ (s.shape κ).Inner ((k, slot), []) := fun h => h.not_leaf hleaf
  have hdepth : slotDepth slot = 0 := hleaf.eq.symm
  have hup := hm.updates_root (r := (k, slot)) (Frame.refl s) hnum (.inl hdepth)
  refine ⟨hm.of_updates (A := fun _ => False) (Frame.refl s) hup fun h => absurd h hnot, ?_,
    .inl ⟨rfl, hup.1 hleaf.pos, fun q hq hqp => hup.2 q hq.pos hqp⟩, way_of_updates_root hup, nofun⟩
  exact Mapped.grown_of_updates (A := fun _ => False) (Frame.refl s) (fun _ _ h => h.elim) hup
    (fun h => absurd h hnot) (fun _ hs hn => absurd hs hn) id

/-- There is no block for the root of the tree. -/
theorem Mapped.assigned_of_noBlock {slot num : Nat} {is : List Nat} (hm : Mapped e f s)
    (hin : (s.shape κ).Inner ((k, slot), [])) (hzero : (f k).iBlock slot = 0)
    (hno : NoBlock e s t) :
    Assigned e f s (setRoot f (k, slot) 0) t ((k, slot), is) num (-2) := by
  have hframe : Frame e (fun _ => False) s t := hno.frame
  have hup := hm.updates_root (r := (k, slot)) hframe (v := 0) (by decide)
    (.inr ⟨hzero, fun _ _ h => absurd rfl h⟩)
  have hidle := Idle.of_noBlock hno
  have hin' : (t.shape κ).Inner ((k, slot), []) := by
    rw [State.shape_congr hframe.layout.geometry]
    exact hin
  have hspace : t.noSpace = true := by
    obtain ⟨c, rfl⟩ := hno.same
    rfl
  refine ⟨hm.of_updates hframe hup fun _ h => absurd rfl h, ?_,
    .inr ⟨rfl, hspace, leavesKept_of_updates_root hin hup⟩, way_of_updates_root hup,
    fun _ => ⟨⟨_, hin', ⟨rfl, List.nil_prefix⟩, hup.1 hin.pos⟩, ?_, ?_⟩⟩
  · exact Mapped.grown_of_updates hframe (fun _ _ h => h.elim) hup (fun _ => ⟨hzero, .inl rfl⟩)
      (fun _ hs hn => absurd (hidle.free hs) hn) hidle.counted
  · obtain ⟨c, rfl⟩ := hno.same
    exact fun hc => hno.not_free (hc.same s.clock s.noSpace)
  · exact hframe.layout.searchFits.mpr hno.searchFits

/-- The root of the tree is a new block. -/
theorem Mapped.grown_root {slot x : Nat} (hm : Mapped e f s)
    (hin : (s.shape κ).Inner ((k, slot), [])) (hzero : (f k).iBlock slot = 0)
    (hnew : NewBlock e x s t) :
    Mapped e (setRoot f (k, slot) x) t ∧ Grown e f s (setRoot f (k, slot) x) t ∧
      LeavesKept e f s (setRoot f (k, slot) x) t ∧
      (∀ is, WayOnly e f s (setRoot f (k, slot) x) t ((k, slot), is)) ∧
      (t.forest e (setRoot f (k, slot) x)).ref ((k, slot), []) = x := by
  have hframe : Frame e (fun _ => False) s t := hnew.frame
  have hup := hm.updates_root (r := (k, slot)) hframe hnew.lt
    (.inr ⟨hzero, fun j hj _ => hnew.words_zero hj⟩)
  refine ⟨hm.of_updates hframe hup fun _ _ => ⟨hnew.owned_self hm.consistent, hnew.free⟩, ?_,
    leavesKept_of_updates_root hin hup, fun _ => way_of_updates_root hup, hup.1 hin.pos⟩
  refine Mapped.grown_of_updates hframe (fun _ _ h => h.elim) hup
    (fun _ => ⟨hzero, .inr hnew.free⟩) (fun n hs hn => ⟨?_, hin⟩) fun hc => hc.newBlock hnew
  by_contra hne
  exact hn (hnew.free_of_ne hs hne)

variable (he : e.Reliable)

include he

/-- **What `SetBlockNum` does** to the maps of a family of inodes, when it is called with one of
them. -/
theorem setBlockNum_ends (block num : Nat) (hm : Mapped e f s)
    (hb : block < maxBlocks s.super.ptrsPerBlock) (hreach : Reached s.super.ptrsPerBlock block)
    (hnum : num < 2 ^ 32) :
    Ends (setBlockNum e (f k) block num) s (Unfit s .block) fun x t =>
      Assigned e f s (Function.update f k x.2) t
        (filePos s.super.ptrsPerBlock k block) num x.1 := by
  have hsize := hm.consistent.roles.size_pos
  have hpath := blockPath_of_reached (ptrsPerBlock_pos hsize) hreach
  obtain ⟨hlen, hslot⟩ := blockPos_length s.super.ptrsPerBlock block
  have hleaf := filePos_leaf hsize hb k
  have hindex := blockPos_index (ptrsPerBlock_pos hsize) hb
  rw [filePos] at hleaf ⊢
  generalize (blockPos s.super.ptrsPerBlock block).1 = slot at *
  generalize (blockPos s.super.ptrsPerBlock block).2 = is at *
  refine Ends.step (a := s.super) rfl ?_
  simp only [hpath, List.map_eq_nil_iff]
  by_cases his : is = []
  · -- a direct block
    subst his
    rw [if_pos rfl]
    exact Ends.pure (hm.assigned_direct hleaf hnum)
  · have hin : (s.shape κ).Inner ((k, slot), []) := by
      refine ⟨⟨hslot, nofun, Nat.zero_le _⟩, ?_⟩
      show 0 < slotDepth slot
      rw [← hlen]
      exact List.length_pos_iff.mpr his
    have hdown : ([] : List Nat).length + is.length = slotDepth slot := by
      rw [List.length_nil, Nat.zero_add]
      exact hlen
    rw [if_neg his]
    by_cases hzero : (f k).iBlock slot = 0
    · rw [if_pos hzero]
      by_cases hnum0 : num = 0
      · -- there is no tree, and none is needed
        rw [if_pos hnum0]
        refine Ends.pure ?_
        rw [Function.update_eq_self]
        have href : (s.forest e f).ref ((k, slot), is) = num := by
          show walk (s.words e) ((f k).iBlock slot) is = num
          rw [hzero, walk_zero, hnum0]
        exact ⟨hm, Grown.refl f s, .inl ⟨rfl, href, fun _ _ _ => rfl⟩, fun _ _ => .inr rfl, nofun⟩
      · rw [if_neg hnum0]
        refine Ends.bind (allocBlock_ends he hm.consistent.roles fun _ => hm.consistent.meta_used)
          fun x u hu => ?_
        rcases hu with ⟨rfl, hno⟩ | hnew
        · rw [if_pos rfl]
          exact Ends.pure (hm.assigned_of_noBlock hin hzero hno)
        · have hx : x ≠ 0 := hnew.ne_zero hm.consistent
          obtain ⟨hm', hg, hl, hway, hroot⟩ := hm.grown_root hin hzero hnew
          rw [if_neg hx]
          have hin' : (u.shape κ).Inner ((k, slot), []) := by
            rw [State.shape_congr hnew.layout.geometry]
            exact hin
          have hset := setLevel_ends he hm' hin' (by rwa [hroot]) (fun i hi => ?_) hdown hnum
          · rw [hroot] at hset
            refine Ends.bind (hset.mono_error fun _ hf => hf.of_layout hnew.layout)
              fun code t ht => ?_
            exact Ends.pure (ht.of_grown hg hl (hway is))
          · rw [SuperBlock.ptrsPerBlock, hnew.layout.geometry.blockSize]
            exact hindex i hi
    · rw [if_neg hzero]
      refine Ends.bind (setLevel_ends he hm hin hzero hindex hdown hnum) fun code t ht => ?_
      refine Ends.pure ?_
      rw [Function.update_eq_self]
      exact ht

end Setting

/-! ## How many blocks it takes -/

/-- The levels above position `p` at which a pointer block is missing. -/
def missing (e : Env) (f : κ → Inode) (s : State) (p : (κ × Nat) × List Nat) : Finset Nat :=
  (Finset.range p.2.length).filter fun n => (s.forest e f).ref (p.1, p.2.take n) = 0

section Missing

variable {g : κ → Inode} {p q : (κ × Nat) × List Nat} {num : Nat} {code : Int}

/-- What stands on the way to a leaf. -/
theorem onWay_iff (hp : (s.shape κ).Leaf p) :
    (s.shape κ).Inner q ∧ OnWay p q ↔ ∃ n, n < p.2.length ∧ q = (p.1, p.2.take n) := by
  constructor
  · rintro ⟨hq, hroot, hpre⟩
    have hlt := hq.lt
    rw [hroot, ← hp.eq] at hlt
    exact ⟨q.2.length, hlt, Prod.ext hroot (List.prefix_iff_eq_take.mp hpre)⟩
  · rintro ⟨n, hn, rfl⟩
    have hlen : (p.2.take n).length = n := List.length_take_of_le (Nat.le_of_lt hn)
    refine ⟨⟨⟨hp.pos.root, fun i hi => hp.pos.index i (List.mem_of_mem_take hi), ?_⟩, ?_⟩,
      rfl, List.take_prefix n p.2⟩
    · exact hlen.symm ▸ Nat.le_trans (Nat.le_of_lt hn) hp.pos.length
    · exact hlen.symm ▸ hp.eq ▸ hn

/-- A pointer block that is not there has not been there before. -/
theorem Grown.ref_eq_zero (h : Grown e f s g t) (hq : (s.shape κ).Inner q)
    (hzero : (t.forest e g).ref q = 0) : (s.forest e f).ref q = 0 := by
  rcases h.inner hq with hsame | ⟨hzero', -⟩
  · rw [← hsame, hzero]
  · exact hzero'

namespace Assigned

/-- The blocks that are taken are pointer blocks on the way. -/
theorem taken_on_way {n : Nat} (ha : Assigned e f s g t p num code) (hs : Consistent e s)
    (hn : Free e s .block n) (hn' : ¬ Free e t .block n) :
    ∃ q, (s.shape κ).Inner q ∧ OnWay p q ∧ (s.forest e f).ref q = 0 ∧
      (t.forest e g).ref q = n := by
  have hn0 := hs.ne_zero hn
  obtain ⟨q, hq, hzero, href⟩ := ha.grown.taken hn0 hn hn'
  rcases ha.way q hq with hon | hsame
  · exact ⟨q, hq, hon, hzero, href⟩
  · rw [href, hzero] at hsame
    exact absurd hsame hn0

variable (ha : Assigned e f s g t p num code) (hc : Counted e s) (hp : (s.shape κ).Leaf p)

include ha hc hp

/-- When `SetBlockNum` fails, there are fewer free blocks than pointer blocks missing. -/
theorem free_lt (hcode : code = -2) : s.super.sFreeBlocksCount < (missing e f s p).card := by
  have hgeo := ha.grown.frame.layout.geometry
  have hs := hc.consistent
  obtain ⟨⟨q, hq, hon, hzero⟩, hnone, -⟩ := ha.stuck hcode
  rw [State.shape_congr hgeo] at hq
  obtain ⟨n, hn, rfl⟩ := (onWay_iff hp).mp ⟨hq, hon⟩
  have hmem : n ∈ missing e f s p :=
    Finset.mem_filter.mpr ⟨Finset.mem_range.mpr hn, ha.grown.ref_eq_zero hq hzero⟩
  have hsub : {m | Free e s .block m} ⊆ (((missing e f s p).erase n).image fun m =>
      (t.forest e g).ref (p.1, p.2.take m) : Set Nat) := by
    intro m hm
    have hm : Free e s .block m := hm
    obtain ⟨r, hr, hon', hr0, href⟩ := ha.taken_on_way hs hm (hnone (ha.grown.counted hc) m)
    obtain ⟨j, hj, rfl⟩ := (onWay_iff hp).mp ⟨hr, hon'⟩
    refine Finset.mem_coe.mpr (Finset.mem_image.mpr ⟨j, Finset.mem_erase.mpr ⟨?_, ?_⟩, href⟩)
    · rintro rfl
      exact hs.ne_zero hm (href.symm.trans hzero)
    · exact Finset.mem_filter.mpr ⟨Finset.mem_range.mpr hj, hr0⟩
  have hle := Set.ncard_le_ncard hsub (Finset.finite_toSet _)
  rw [hc.ncard_free, Set.ncard_coe_finset] at hle
  have himage := Finset.card_image_le (s := (missing e f s p).erase n)
    (f := fun m => (t.forest e g).ref (p.1, p.2.take m))
  have herase := Finset.card_erase_lt_of_mem hmem
  exact Nat.lt_of_le_of_lt (Nat.le_trans hle himage) herase

/-- When it succeeds, each pointer block missing has been a free block. -/
theorem le_free (hcode : code = 0) (hnum : num ≠ 0) :
    (missing e f s p).card ≤ s.super.sFreeBlocksCount := by
  have hgeo := ha.grown.frame.layout.geometry
  have hleaf : (t.forest e g).ref p = num := by
    rcases ha.outcome with ⟨-, hself, -⟩ | ⟨hcode', -, -⟩
    · exact hself
    · rw [hcode] at hcode'
      exact absurd hcode' (by decide)
  have hinner : ∀ n ∈ missing e f s p, n < p.2.length ∧ (s.shape κ).Inner (p.1, p.2.take n) ∧
      (t.forest e g).ref (p.1, p.2.take n) ≠ 0 ∧
        Free e s .block ((t.forest e g).ref (p.1, p.2.take n)) := by
    intro n hn
    obtain ⟨hn, hzero⟩ := Finset.mem_filter.mp hn
    have hlt := Finset.mem_range.mp hn
    have hin := ((onWay_iff hp).mpr ⟨n, hlt, rfl⟩).1
    have hne : (t.forest e g).ref (p.1, p.2.take n) ≠ 0 := by
      intro href
      have hwalk : (t.forest e g).ref (p.1, p.2.take n ++ p.2.drop n) = _ := Forest.ref_append
      rw [List.take_append_drop, href, walk_zero] at hwalk
      exact hnum (hleaf.symm.trans hwalk)
    refine ⟨hlt, hin, hne, ?_⟩
    rcases ha.grown.inner hin with hsame | ⟨-, hfree⟩
    · exact absurd (hsame.trans hzero) hne
    · exact hfree
  have hcard : (missing e f s p).card =
      (((missing e f s p).image fun m =>
        (t.forest e g).ref (p.1, p.2.take m)) : Finset Nat).card := by
    refine (Finset.card_image_of_injOn fun n hn m hm heq => ?_).symm
    obtain ⟨hlt, hin, hne, -⟩ := hinner n hn
    obtain ⟨hlt', hin', -, -⟩ := hinner m hm
    rw [← State.shape_congr hgeo] at hin hin'
    have hpos := congrArg (fun q => q.2.length) (ha.mapped.unshared _ _ hin hin' hne heq)
    dsimp only at hpos
    rwa [List.length_take_of_le (Nat.le_of_lt hlt), List.length_take_of_le (Nat.le_of_lt hlt')]
      at hpos
  rw [hcard, ← Set.ncard_coe_finset, show s.super.sFreeBlocksCount = _ from
    (hc.ncard_free .block).symm]
  refine Set.ncard_le_ncard (fun m hm => ?_) (hc.finite_free .block)
  obtain ⟨n, hn, rfl⟩ := Finset.mem_image.mp (Finset.mem_coe.mp hm)
  exact (hinner n hn).2.2.2

end Assigned

end Missing

/-! ## Looking up what has been set -/

/-- With code `0`, block `block` of the file is `num` and the others are where they were; with
another code all of them are. -/
def SetsBlock (e : Env) (inode : Inode) (s : State) (block num : Nat) (x : Int × Inode)
    (t : State) : Prop :=
  (x.1 = 0 → lookup e x.2 t block = .ok num ∧
    ∀ b, b < maxBlocks s.super.ptrsPerBlock → b ≠ block →
      lookup e x.2 t b = lookup e inode s b) ∧
  (x.1 ≠ 0 → ∀ b, b < maxBlocks s.super.ptrsPerBlock → lookup e x.2 t b = lookup e inode s b)

section Lookup

variable (he : e.Reliable)

include he

theorem lookup_of_reached {block : Nat} {g : Unit → Inode} (hsize : 0 < s.super.blockSize)
    (hb : block < maxBlocks s.super.ptrsPerBlock) (hreach : Reached s.super.ptrsPerBlock block) :
    lookup e (g ()) s block =
      .ok ((s.forest e g).ref (filePos s.super.ptrsPerBlock () block)) := by
  obtain ⟨c, hc⟩ := getBlockNum_run (f := g) he hsize hb hreach ()
  rw [lookup, hc]
  rfl

/-- The maps with the same entries are looked up alike. -/
theorem lookup_congr {block : Nat} (g g' : Unit → Inode) (hsize : 0 < s.super.blockSize)
    (hgeo : s.super.SameGeometry t.super) (hb : block < maxBlocks s.super.ptrsPerBlock)
    (hreached : Reached s.super.ptrsPerBlock block →
      (t.forest e g').ref (filePos s.super.ptrsPerBlock () block) =
        (s.forest e g).ref (filePos s.super.ptrsPerBlock () block))
    (hroot : ¬ Reached s.super.ptrsPerBlock block →
      (g' ()).iBlock (ndirBlocks + 2) = (g ()).iBlock (ndirBlocks + 2)) :
    lookup e (g' ()) t block = lookup e (g ()) s block := by
  have hsize' : 0 < t.super.blockSize := by
    rw [hgeo.blockSize]
    exact hsize
  have hptrs : t.super.ptrsPerBlock = s.super.ptrsPerBlock := by
    rw [SuperBlock.ptrsPerBlock, SuperBlock.ptrsPerBlock, hgeo.blockSize]
  by_cases hreach : Reached s.super.ptrsPerBlock block
  · rw [lookup_of_reached he hsize hb hreach, lookup_of_reached he hsize' (by rwa [hptrs])
      (by rwa [hptrs]), hptrs, hreached hreach]
  · rw [lookup_of_not_reached he _ hsize hreach, lookup_of_not_reached he _ hsize' (by rwa [hptrs])]
    rw [hroot hreach]

omit he in
/-- At most one entry of `i_block` is set. -/
theorem setBlockNum_inode (inode : Inode) (block num : Nat) :
    Ends (setBlockNum e inode block num) s (fun _ => True) fun x _ =>
      ∃ v, x.2 = inode ∨ x.2 = inode.setBlock (blockPath s.super.ptrsPerBlock block).1 v := by
  refine Ends.step (a := s.super) rfl ?_
  dsimp only
  split
  · exact Ends.pure ⟨num, .inr rfl⟩
  · split
    · split
      · exact Ends.pure ⟨num, .inl rfl⟩
      · refine Ends.bind Ends.trivial fun x _ _ => ?_
        split
        · exact Ends.pure ⟨x, .inr rfl⟩
        · exact Ends.bind Ends.trivial fun _ _ _ => Ends.pure ⟨x, .inr rfl⟩
    · exact Ends.bind Ends.trivial fun _ _ _ => Ends.pure ⟨num, .inl rfl⟩

/-- Where the way divides by `0`, nothing is set. -/
theorem setBlockNum_of_not_reached {inode : Inode} {block num : Nat} (hs : Consistent e s)
    (hreach : ¬ Reached s.super.ptrsPerBlock block) :
    Ends (setBlockNum e inode block num) s (fun err => Unfit s .block err ∨ err = .divByZero)
      fun x t => Frame e (fun _ => False) s t ∧ inode.iBlock (ndirBlocks + 2) = 0 ∧
        ((x.1 = 0 ∧ num = 0 ∧ x.2 = inode) ∨
          (x.1 ≠ 0 ∧ x.2 = inode.setBlock (ndirBlocks + 2) 0)) := by
  rw [Reached, not_or, Nat.not_lt, Nat.not_lt] at hreach
  obtain ⟨rest, hpath, hrest⟩ :=
    blockPath_of_wrap (u32_ptrs_mul hs.roles.size_pos hreach.1) hreach.2
  have hlevel : ∀ x t, Ends (setLevel e num x (.error .divByZero :: rest)) t
      (fun err => Unfit s .block err ∨ err = .divByZero) fun _ _ => False := by
    intro x t
    obtain ⟨index, rest, rfl⟩ := List.exists_cons_of_ne_nil hrest
    refine Ends.bind (P := fun _ _ => False) ?_ fun _ _ h => h.elim
    refine Ends.step (pageAlloc_run he) ?_
    simp only [Bool.not_true, Bool.false_eq_true, if_false]
    refine Ends.step (readBlock_run he x) ?_
    exact Ends.throw (.inr rfl)
  refine Ends.step (a := s.super) rfl ?_
  simp only [hpath]
  rw [if_neg (List.cons_ne_nil _ _)]
  by_cases hzero : inode.iBlock (ndirBlocks + 2) = 0
  · rw [if_pos hzero]
    by_cases hnum : num = 0
    · rw [if_pos hnum]
      exact Ends.pure ⟨Frame.refl s, hzero, .inl ⟨rfl, hnum, rfl⟩⟩
    · rw [if_neg hnum]
      refine Ends.bind ((allocBlock_ends he hs.roles fun _ => hs.meta_used).mono_error
        fun _ => .inl) fun x u hu => ?_
      rcases hu with ⟨rfl, hno⟩ | hnew
      · rw [if_pos rfl]
        exact Ends.pure ⟨hno.frame, hzero, .inr ⟨show (-2 : Int) ≠ 0 by decide, rfl⟩⟩
      · rw [if_neg (hnew.ne_zero hs)]
        exact Ends.bind (hlevel x u) fun _ _ h => h.elim
  · rw [if_neg hzero]
    exact Ends.bind (hlevel _ s) fun _ _ h => h.elim

/-- What `SetBlockNum` does where there is no memory behind the buffers. -/
theorem setBlockNum_sets {inode : Inode} (hm : Mapped e (fun _ : Unit => inode) s)
    {block num : Nat} (hb : block < maxBlocks s.super.ptrsPerBlock) (hnum : num < 2 ^ 32) :
    Ends (setBlockNum e inode block num) s
      (fun err => Unfit s .block err ∨
        (err = .divByZero ∧ ¬ Reached s.super.ptrsPerBlock block)) fun x t =>
      SetsBlock e inode s block num x t := by
  have hsize := hm.consistent.roles.size_pos
  by_cases hreach : Reached s.super.ptrsPerBlock block
  · have hends : Ends (setBlockNum e inode block num) s _ _ :=
      (setBlockNum_ends (f := fun _ : Unit => inode) (k := ()) he block num hm hb hreach hnum).and
        (setBlockNum_inode inode block num)
    refine (hends.mono_error fun _ h => .inl h.1).mono ?_
    rintro ⟨code, inode'⟩ t ⟨hassign, v, hinode⟩
    dsimp only at hassign hinode
    have hgeo := hassign.grown.frame.layout.geometry
    have hptrs : t.super.ptrsPerBlock = s.super.ptrsPerBlock := by
      rw [SuperBlock.ptrsPerBlock, SuperBlock.ptrsPerBlock, hgeo.blockSize]
    have hroot : ∀ b, ¬ Reached s.super.ptrsPerBlock b →
        inode'.iBlock (ndirBlocks + 2) = inode.iBlock (ndirBlocks + 2) := by
      intro b hnot
      rw [Reached, not_or, Nat.not_lt] at hnot
      have hlt : block < ndirBlocks + s.super.ptrsPerBlock :=
        hreach.resolve_left (Nat.not_lt.mpr hnot.1)
      rcases hinode with hinode | hinode
      · rw [hinode]
      · rw [hinode, blockPath_eq_of_lt hlt]
        refine Inode.iBlock_setBlock_of_ne _ ?_
        have := blockPos_slot_le hlt
        omega
    have hsame : ∀ b, b < maxBlocks s.super.ptrsPerBlock →
        (t.forest e fun _ : Unit => inode').ref (filePos s.super.ptrsPerBlock () b) =
          (s.forest e fun _ : Unit => inode).ref (filePos s.super.ptrsPerBlock () b) →
        lookup e inode' t b = lookup e inode s b := fun b hb href =>
      lookup_congr he (fun _ => inode) (fun _ => inode') hsize hgeo hb (fun _ => href) (hroot b)
    have hfamily : Function.update (fun _ : Unit => inode) () inode' = fun _ => inode' := by
      funext u
      rw [Function.update_apply, if_pos rfl]
    rw [hfamily] at hassign
    rcases hassign.outcome with ⟨hcode, href, hother⟩ | ⟨hcode, -, hkept⟩
    · refine ⟨fun _ => ⟨?_, fun b hb' hne => ?_⟩, fun h => absurd hcode h⟩
      · rw [lookup_of_reached (g := fun _ => inode') he (by rwa [hgeo.blockSize])
          (by rwa [hptrs]) (by rwa [hptrs]), hptrs, href]
      · exact hsame b hb' (hother _ (filePos_leaf hsize hb' ()) fun h => hne (filePos_inj h).2)
    · refine ⟨fun h => ?_, fun _ b hb' => hsame b hb' (hkept _ (filePos_leaf hsize hb' ()))⟩
      rw [show code = -2 from hcode] at h
      exact absurd h (show (-2 : Int) ≠ 0 by decide)
  · refine ((setBlockNum_of_not_reached he hm.consistent hreach).mono_error fun _ h =>
      h.imp_right fun h => ⟨h, hreach⟩).mono ?_
    rintro ⟨code, inode'⟩ t ⟨hframe, hzero, hres⟩
    dsimp only at hres
    have hgeo := hframe.layout.geometry
    have hblocks : ∀ slot, inode'.iBlock slot = inode.iBlock slot := by
      intro slot
      rcases hres with ⟨-, -, hinode⟩ | ⟨-, hinode⟩
      · rw [hinode]
      · rw [hinode]
        by_cases hslot : slot = ndirBlocks + 2
        · rw [hslot, Inode.iBlock_setBlock_self _ (by decide), hzero]
        · rw [Inode.iBlock_setBlock_of_ne _ hslot]
    have hsame : ∀ b, b < maxBlocks s.super.ptrsPerBlock →
        lookup e inode' t b = lookup e inode s b := by
      intro b hb'
      refine lookup_congr he (fun _ => inode) (fun _ => inode') hsize hgeo hb'
        (fun _ => ?_) fun _ => hblocks _
      have hforest : t.forest e (fun _ : Unit => inode') = t.forest e fun _ => inode := by
        rw [State.forest, State.forest]
        congr 1
        exact funext fun r => hblocks r.2
      rw [hforest]
      exact hm.ref_of_frame hframe (fun _ _ => id) (filePos_leaf hsize hb' ()).pos
    refine ⟨fun hcode => ?_, fun _ => hsame⟩
    rcases hres with ⟨-, hnum0, -⟩ | ⟨hcode', -⟩
    · refine ⟨?_, fun b hb' _ => hsame b hb'⟩
      rw [hsame block hb, lookup_of_not_reached he _ hsize hreach, if_pos hzero, hnum0]
    · exact absurd hcode hcode'

end Lookup

theorem lookup_walled (inode : Inode) (s : State) (b : Nat) :
    lookup e.walled inode s b = lookup e inode s b := by
  rw [lookup, lookup, getBlockNum_walled]

theorem SetsBlock.of_walled {inode : Inode} {block num : Nat} {x : Int × Inode}
    (h : SetsBlock e.walled inode s block num x t) : SetsBlock e inode s block num x t := by
  simpa only [SetsBlock, lookup_walled] using h

/-- **What is set is looked up, and nothing else changes.**  On a consistent volume, with pointer
blocks that are used, no metadata and pairwise distinct, `SetBlockNum` sets the block it is
given, or returns an error and changes no block, whatever memory there is behind the buffers.
Where there is none it does not return when it comes to a descriptor that does not lie in the one
block of descriptors, or when its arithmetic divides by `0`. -/
theorem setBlockNum_right (he : e.Reliable) {inode : Inode}
    (hm : Mapped e.walled (fun _ : Unit => inode) s) {block num : Nat}
    (hb : block < maxBlocks s.super.ptrsPerBlock) (hnum : num < 2 ^ 32) :
    Ends (setBlockNum e.walled inode block num) s
      (fun err => Unfit s .block err ∨
        (err = .divByZero ∧ ¬ Reached s.super.ptrsPerBlock block)) fun x t =>
      ∀ mapped, setBlockNum (e.over mapped) inode block num s = .ok (x, t) ∧
        SetsBlock (e.over mapped) inode s block num x t :=
  ends_over (x := fun e => setBlockNum e inode block num)
    (Q := fun e => SetsBlock e inode s block num) (fun _ => below_setBlockNum inode block num)
    (setBlockNum_sets he.walled hm hb hnum) fun mapped _ _ hx =>
      SetsBlock.of_walled (e := e.over mapped) hx

/-- An inode with one pointer block, block 7, for the blocks behind the first twelve. -/
def Small.indirect : Inode := ⟨Small.store (fun _ => 0) [(88, 4, 7)]⟩

theorem Small.ref_indirect {p : (Unit × Nat) × List Nat}
    (hin : ((Small.volume 0 0xFF).shape Unit).Inner p)
    (hne : ((Small.volume 0 0xFF).forest (Env.ideal 0) fun _ => Small.indirect).ref p ≠ 0) :
    p = (((), 12), []) ∧
      ((Small.volume 0 0xFF).forest (Env.ideal 0) fun _ => Small.indirect).ref p = 7 := by
  obtain ⟨⟨⟨⟩, slot⟩, is⟩ := p
  have hslot : slot < 15 := hin.pos.root
  have hblocks : ∀ slot < 15, Small.indirect.iBlock slot = if slot = 12 then 7 else 0 := by
    decide
  have hroot := hblocks slot hslot
  by_cases h12 : slot = 12
  · subst h12
    have hlt : is.length < slotDepth 12 := hin.lt
    have hnil : is = [] := List.eq_nil_of_length_eq_zero (Nat.lt_one_iff.mp hlt)
    subst hnil
    exact ⟨rfl, hroot⟩
  · rw [if_neg h12] at hroot
    refine absurd ?_ hne
    show walk _ (Small.indirect.iBlock slot) is = 0
    rw [hroot, walk_zero]

/-- Its one pointer block is block 7 of the small volume. -/
theorem mapped_small : Mapped (Env.ideal 0) (fun _ : Unit => Small.indirect)
    (Small.volume 0 0xFF) where
  consistent := counted_small.consistent
  unshared p q hp hq hne heq := by
    rw [(Small.ref_indirect hp hne).1, (Small.ref_indirect hq (heq ▸ hne)).1]
  owned {p} hp hne := by
    rw [(Small.ref_indirect hp hne).2]
    have hbit : (Small.volume 0 0xFF).bit (Env.ideal 0) .block 7 = true := by decide
    refine ⟨fun hf => ?_, fun hm => absurd (Small.meta_volume Nat.two_pos hm) (by decide)⟩
    have hclear := hf.clear
    rw [hbit] at hclear
    cases hclear

theorem setBlockNum_right_small :
    Ends (setBlockNum (Env.ideal 0).walled Small.indirect 13 6) (Small.volume 0 0xFF)
      (fun err => Unfit (Small.volume 0 0xFF) .block err ∨
        (err = .divByZero ∧ ¬ Reached (Small.volume 0 0xFF).super.ptrsPerBlock 13)) fun x t =>
      ∀ mapped, setBlockNum ((Env.ideal 0).over mapped) Small.indirect 13 6
          (Small.volume 0 0xFF) = .ok (x, t) ∧
        SetsBlock ((Env.ideal 0).over mapped) Small.indirect (Small.volume 0 0xFF) 13 6 x t :=
  setBlockNum_right (Env.ideal_reliable 0) mapped_small (by decide) (by decide)

/-- An inode of zeros refers to nothing. -/
theorem ref_empty (p : (Unit × Nat) × List Nat) :
    (s.forest e fun _ : Unit => ⟨fun _ => 0⟩).ref p = 0 := by
  have hroot : Inode.iBlock ⟨fun _ => 0⟩ p.1.2 = 0 := getLE_zero fun _ _ _ => rfl
  show walk _ (Inode.iBlock ⟨fun _ => 0⟩ p.1.2) p.2 = 0
  rw [hroot, walk_zero]

/-- With a bitmap that is not marked used itself, an error is returned, and a block of the file
is another one afterwards: block 3, the bitmap, becomes a pointer block. -/
theorem setBlockNum_changes_on_error :
    (Env.ideal 0).Reliable ∧
      ((Small.volume 0 0xFFF7).forest (Env.ideal 0) fun _ : Unit => ⟨fun _ => 0⟩).Unshared
        ((Small.volume 0 0xFFF7).shape Unit).Inner ∧
      (∀ p, ((Small.volume 0 0xFFF7).shape Unit).Inner p →
        ((Small.volume 0 0xFFF7).forest (Env.ideal 0) fun _ : Unit => ⟨fun _ => 0⟩).ref p ≠ 0 →
        Owned (Env.ideal 0) (Small.volume 0 0xFFF7)
          (((Small.volume 0 0xFFF7).forest (Env.ideal 0) fun _ : Unit => ⟨fun _ => 0⟩).ref p)) ∧
      268 < maxBlocks (Small.volume 0 0xFFF7).super.ptrsPerBlock ∧
      ∃ x t, setBlockNum (Env.ideal 0) ⟨fun _ => 0⟩ 268 9 (Small.volume 0 0xFFF7) = .ok (x, t) ∧
        ¬ SetsBlock (Env.ideal 0) ⟨fun _ => 0⟩ (Small.volume 0 0xFFF7) 268 9 x t := by
  have hrun : (setBlockNum (Env.ideal 0) ⟨fun _ => 0⟩ 268 9 (Small.volume 0 0xFFF7)).map
      (fun r => (r.1.1, lookup (Env.ideal 0) r.1.2 r.2 268)) = .ok (-2, .ok 16) := by
    decide +kernel
  have hbefore : lookup (Env.ideal 0) ⟨fun _ => 0⟩ (Small.volume 0 0xFFF7) 268 = .ok 0 := by
    decide
  have hmax : 268 < maxBlocks (Small.volume 0 0xFFF7).super.ptrsPerBlock := by decide
  refine ⟨Env.ideal_reliable 0, fun p _ _ _ hne => absurd (ref_empty p) hne,
    fun p _ hne => absurd (ref_empty p) hne, hmax, ?_⟩
  cases hres : setBlockNum (Env.ideal 0) ⟨fun _ => 0⟩ 268 9 (Small.volume 0 0xFFF7) with
  | error f =>
      rw [hres] at hrun
      cases hrun
  | ok r =>
      obtain ⟨x, t⟩ := r
      rw [hres] at hrun
      injection hrun with hrun
      injection hrun with hcode hlookup
      refine ⟨x, t, rfl, fun hsets => ?_⟩
      have hsame := hsets.2 (by rw [hcode]; decide) 268 hmax
      rw [hlookup, hbefore] at hsame
      cases hsame

end InfoKernel.Ext2
