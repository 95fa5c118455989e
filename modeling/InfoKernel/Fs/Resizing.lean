import InfoKernel.Fs.Listing
import InfoKernel.Fs.Truncation

/-!
# Changing the size of a file

`Truncate` of `lseek.cc` makes a file longer by storing a new size, and shorter by taking the blocks
behind the new end out of its map, and freeing them, before that.  `Shrunk` says what has become of
a file when a range of its blocks has been taken out: they read as zeros, and all other bytes are
what they were (`Shrunk.fileByte`).

The last block of a file that has become shorter is kept as a whole.  So when the file grows again,
what lay behind its end in this block is read again: the bytes behind the end read as zeros exactly
when those in the blocks that are kept did before (`truncate_hides_iff`).
-/

namespace InfoKernel.Ext2

open Lib

/-! ## `Truncate` -/

/-- The loop of `Truncate`: `left` blocks of the file are left, `i` is the next. -/
def truncateFrom (e : Env) : Nat → Nat → Inode → Io Inode
  | 0, _, inode => pure inode
  | left + 1, i, inode => do
      let blockNum ← getBlockNum e inode i
      if blockNum ≠ 0 then do
        freeBlock e blockNum
        let (_, inode) ← setBlockNum e inode i 0
        truncateFrom e left (i + 1) inode
      else
        truncateFrom e left (i + 1) inode

/-- `(size + block_size - 1) / block_size`, a sum that stays in its 64 bits, cut to 32. -/
def sizeBlocks (sb : SuperBlock) (size : Nat) : Nat :=
    u32 ((size + sb.blockSize - 1) / sb.blockSize)

/-- The part of `Truncate` that takes blocks out of the file. -/
def shrink (e : Env) (inode : Inode) (newSize : Nat) : Io Inode := do
  let sb ← super
  if sb.blockSize = 0 then
    throw .divByZero
  else
    let oldBlocks := sizeBlocks sb inode.iSize
    let newBlocks := sizeBlocks sb newSize
    truncateFrom e (oldBlocks - newBlocks) newBlocks inode

/-- `ext2::Truncate` -/
def truncate (e : Env) (num newSize : Nat) : Io Int := do
  if num = 0 then
    pure (-1)
  else
    match ← readInode e num with
    | .error _ => pure (-2)
    | .ok inode =>
        if newSize = inode.iSize then
          pure 0
        else do
          let inode ← if newSize < inode.iSize then shrink e inode newSize else pure inode
          if (← writeInode e num (inode.setSize newSize)) ≠ 0 then
            pure (-3)
          else
            pure 0

variable {e : Env} {s t u : State} {inode inode' : Inode}

theorem below_truncateFrom (left i : Nat) (inode : Inode) :
    Below (truncateFrom e.walled left i inode) (truncateFrom e left i inode) := by
  induction left generalizing i inode with
  | zero => exact Below.refl _
  | succ left ih =>
      rw [truncateFrom, truncateFrom, getBlockNum_walled]
      refine Below.bind_right fun blockNum => Below.ite (fun _ => ?_) fun _ => ih _ _
      exact (below_freeBlock _).bind fun _ => (below_setBlockNum _ _ _).bind fun _ => ih _ _

theorem below_shrink (inode : Inode) (newSize : Nat) :
    Below (shrink e.walled inode newSize) (shrink e inode newSize) :=
  Below.bind_right fun _ => Below.ite (fun _ => Below.refl _) fun _ => below_truncateFrom _ _ _

theorem below_truncate (num newSize : Nat) :
    Below (truncate e.walled num newSize) (truncate e num newSize) := by
  refine Below.ite (fun _ => Below.refl _) fun _ => (below_readInode num).bind fun r => ?_
  cases r with
  | error code => exact Below.refl _
  | ok inode =>
      refine Below.ite (fun _ => Below.refl _) fun _ => Below.ite (fun _ => ?_) fun _ => ?_
      · exact (below_shrink inode newSize).bind fun _ => (below_writeInode num _).bind fun _ =>
          Below.refl _
      · exact Below.bind_right fun _ => (below_writeInode num _).bind fun _ => Below.refl _

/-! ## Taking a block out of a map -/

section Clearing

variable (he : e.Reliable)

include he

/-- Without a block to store, no pointer block is allocated. -/
theorem linkPtr_zero_run {x i : Nat} (hi : i < s.super.ptrsPerBlock) :
    ∃ r t, linkPtr e 0 x (.ok i) s = .ok (r, t) ∧ t.super = s.super := by
  have hlt : 4 * i + 3 < s.super.blockSize := ptr_lt hi (by decide)
  have hptr : pointerAt s.super.blockSize (.ok i) = .ok i := if_pos (by omega)
  rw [linkPtr, bind_apply_of_ok (pageAlloc_run he)]
  simp only [Bool.not_true, Bool.false_eq_true, if_false]
  rw [bind_apply_of_ok (load_run he x)]
  simp only []
  rw [bind_apply_of_ok (super_run _)]
  simp only [State.at, hptr]
  split
  · exact ⟨_, _, rfl, rfl⟩
  · rw [bind_apply_of_ok (writeBlock_run he x _)]
    exact ⟨_, _, rfl, rfl⟩

theorem storePtr_run {x i num : Nat} (hi : i < s.super.ptrsPerBlock) :
    ∃ r t, storePtr e num x (.ok i) s = .ok (r, t) := by
  have hlt : 4 * i + 3 < s.super.blockSize := ptr_lt hi (by decide)
  have hptr : pointerAt s.super.blockSize (.ok i) = .ok i := if_pos (by omega)
  rw [storePtr, bind_apply_of_ok (pageAlloc_run he)]
  simp only [Bool.not_true, Bool.false_eq_true, if_false]
  rw [bind_apply_of_ok (load_run he x)]
  simp only []
  rw [bind_apply_of_ok (super_run _)]
  simp only [State.at, hptr]
  rw [bind_apply_of_ok (writeBlock_run he x _)]
  exact ⟨_, _, rfl⟩

theorem setLevel_zero_run {x : Nat} {is : List Nat} (his : ∀ i ∈ is, i < s.super.ptrsPerBlock) :
    ∃ r t, setLevel e 0 x (is.map .ok) s = .ok (r, t) := by
  induction is generalizing x s with
  | nil => exact ⟨_, _, rfl⟩
  | cons i is ih =>
      have hi := his i List.mem_cons_self
      cases is with
      | nil => exact storePtr_run he hi
      | cons j is =>
          obtain ⟨r, t, hrun, hsuper⟩ := linkPtr_zero_run (x := x) he hi
          rw [List.map_cons, List.map_cons, setLevel, bind_apply_of_ok hrun]
          · cases r with
            | error code => exact ⟨_, _, rfl⟩
            | ok child => exact ih fun k hk => hsuper ▸ his k (List.mem_cons_of_mem _ hk)
          · simp

/-- **Taking a block out of a map allocates nothing**, so that nothing can stop it. -/
theorem setBlockNum_zero_run (inode : Inode) {block : Nat} (hsize : 0 < s.super.blockSize)
    (hb : block < maxBlocks s.super.ptrsPerBlock) (hreach : Reached s.super.ptrsPerBlock block) :
    ∃ r t, setBlockNum e inode block 0 s = .ok (r, t) := by
  have hindex := blockPos_index (ptrsPerBlock_pos hsize) hb
  rw [setBlockNum, bind_apply_of_ok (super_run s)]
  simp only [blockPath_of_reached (ptrsPerBlock_pos hsize) hreach]
  by_cases hnil : (blockPos s.super.ptrsPerBlock block).2.map Except.ok =
    ([] : List (Except Fault Nat))
  · rw [if_pos hnil]
    exact ⟨_, _, rfl⟩
  · rw [if_neg hnil]
    split
    · exact ⟨_, _, rfl⟩
    · obtain ⟨r, t, hrun⟩ :=
        setLevel_zero_run (x := inode.iBlock (blockPos s.super.ptrsPerBlock block).1)
        he hindex
      exact ⟨_, _, bind_apply_of_ok hrun⟩

end Clearing

/-! ## A range of blocks -/

/-- **The blocks from `lo` up to `hi` have been taken out of the file**; the others are still there,
with what they held. -/
structure Shrunk (e : Env) (inode : Inode) (s : State) (lo hi : Nat) (inode' : Inode) (t : State) :
    Prop where
  files : Files e (fileOf inode') t
  layout : SameLayout e s t
  size : inode'.iSize = inode.iSize
  cut {i : Nat} : lo ≤ i → i < hi →
    (t.forest e (fileOf inode')).ref (filePos s.super.ptrsPerBlock () i) = 0
  kept {q : (Unit × Nat) × List Nat} : (s.shape Unit).Leaf q →
    (∀ i, lo ≤ i → i < hi → q ≠ filePos s.super.ptrsPerBlock () i) →
    (t.forest e (fileOf inode')).ref q = (s.forest e (fileOf inode)).ref q ∧
      ((s.forest e (fileOf inode)).ref q ≠ 0 → ∀ j, j < s.super.blockSize →
        t.block e ((s.forest e (fileOf inode)).ref q) j =
          s.block e ((s.forest e (fileOf inode)).ref q) j)

namespace Shrunk

variable {lo mid hi : Nat}

theorem refl (h : Files e (fileOf inode) s) (lo c : Nat) :
    Shrunk e inode s lo lo inode (s.at c) where
  files := h.of_frame (Frame.at_right (A := fun _ => False) s c) fun _ _ => id
  layout := (Frame.at_right (A := fun _ => False) s c).layout
  size := rfl
  cut hlo hhi := absurd hhi (Nat.not_lt_of_le hlo)
  kept _ _ := ⟨rfl, fun _ _ _ => rfl⟩

/-- A hole is out of the file already. -/
theorem hole (h : Shrunk e inode s lo hi inode' t)
    (hzero : (t.forest e (fileOf inode')).ref (filePos s.super.ptrsPerBlock () hi) = 0) :
    Shrunk e inode s lo (hi + 1) inode' t where
  files := h.files
  layout := h.layout
  size := h.size
  cut {i} hlo hhi := by
    rcases Nat.lt_or_eq_of_le (Nat.le_of_lt_succ hhi) with hlt | rfl
    · exact h.cut hlo hlt
    · exact hzero
  kept hq hne := h.kept hq fun i hlo hhi => hne i hlo (Nat.lt_succ_of_lt hhi)

theorem trans {inode'' : Inode} (h : Shrunk e inode s lo mid inode' t)
    (h' : Shrunk e inode' t mid hi inode'' u) (hle : lo ≤ mid) (hle' : mid ≤ hi)
    (hleaf : ∀ i, lo ≤ i → i < mid → (s.shape Unit).Leaf (filePos s.super.ptrsPerBlock () i)) :
    Shrunk e inode s lo hi inode'' u := by
  have hgeo := h.layout.geometry
  have hptrs : t.super.ptrsPerBlock = s.super.ptrsPerBlock := by
    rw [SuperBlock.ptrsPerBlock, SuperBlock.ptrsPerBlock, hgeo.blockSize]
  have hcut := fun {i} => h'.cut (i := i)
  have hkept := fun {q} => h'.kept (q := q)
  rw [hptrs] at hcut
  rw [hptrs, State.shape_congr hgeo, hgeo.blockSize] at hkept
  refine ⟨h'.files, h.layout.trans h'.layout, h'.size.trans h.size, fun {i} hlo hhi => ?_,
    fun {q} hq hne => ?_⟩
  · by_cases hmid : i < mid
    · rw [(hkept (hleaf i hlo hmid) fun j hj _ heq => ?_).1]
      · exact h.cut hlo hmid
      · have hij := (filePos_inj heq).2
        omega
    · exact hcut (Nat.le_of_not_lt hmid) hhi
  · obtain ⟨href, hblock⟩ := h.kept hq fun i hlo hhi => hne i hlo (Nat.lt_of_lt_of_le hhi hle')
    obtain ⟨href', hblock'⟩ := hkept hq fun i hlo hhi => hne i (Nat.le_trans hle hlo) hhi
    rw [href] at href' hblock'
    exact ⟨href', fun hzero j hj => (hblock' hzero j hj).trans (hblock hzero j hj)⟩

end Shrunk

/-! ## The loop -/

section Loop

variable {i : Nat}

/-- What a block of data is that an allocator may have returned. -/
theorem Owned.held {x : Nat} (h : Owned e s x)
    (hgroup : x / Kind.block.perGroup s.super < s.groups .block)
    (hlow : s.super.sFirstDataBlock ≤ x) : Held e s x where
  group := hgroup
  used := by
    cases hbit : s.bit e .block x with
    | true => rfl
    | false => exact absurd ⟨hgroup, hlow, hbit⟩ h.used
  data := h.data

/-- A block has been freed and taken out of the map. -/
theorem shrunk_of_assigned {code : Int} {x : Nat} (h : Files e (fileOf inode) s)
    (hg : 0 < s.groups .block) (hfreed : Freed e s [x] t)
    (hx : (s.forest e (fileOf inode)).ref (filePos s.super.ptrsPerBlock () i) = x) (hx0 : x ≠ 0)
    (hleaf : (s.shape Unit).Leaf (filePos s.super.ptrsPerBlock () i))
    (ha : Assigned e (fileOf inode) t (fileOf inode') u (filePos t.super.ptrsPerBlock () i) 0 code)
    (hsize : inode'.iSize = inode.iSize) : Shrunk e inode s i (i + 1) inode' u := by
  have hgeo := hfreed.layout.geometry
  have hlayout := hfreed.layout.trans ha.grown.frame.layout
  have hptrs : t.super.ptrsPerBlock = s.super.ptrsPerBlock := by
    rw [SuperBlock.ptrsPerBlock, SuperBlock.ptrsPerBlock, hgeo.blockSize]
  have hshape : t.shape Unit = s.shape Unit := State.shape_congr hgeo
  rw [hptrs] at ha
  generalize hp : filePos s.super.ptrsPerBlock () i = p at *
  have hback : ∀ {q}, (s.shape Unit).Pos q →
      (t.forest e (fileOf inode)).ref q = (s.forest e (fileOf inode)).ref q := fun hq =>
    hfreed.ref_eq h.mapped hg hq
  have hne : (t.forest e (fileOf inode)).ref p ≠ 0 := by
    rwa [hback hleaf.pos, hx]
  obtain ⟨-, hzero, hrest⟩ := ha.done hne
  have hrefs : ∀ {q}, (s.shape Unit).Pos q → q ≠ p →
      (u.forest e (fileOf inode')).ref q = (s.forest e (fileOf inode)).ref q := by
    intro q hq hqp
    rcases hq.inner_or_leaf with hin | hlf
    · exact (ha.inner_eq hne (hshape.symm ▸ hin)).trans (hback hq)
    · exact (hrest q (hshape.symm ▸ hlf) hqp).trans (hback hq)
  have howned : ∀ {q}, (s.shape Unit).Pos q → q ≠ p → (s.forest e (fileOf inode)).ref q ≠ 0 →
      Owned e t ((s.forest e (fileOf inode)).ref q) := by
    intro q hq hqp hne
    refine hfreed.owned (h.owned hq hne) fun hmem => hqp (h.unshared q p hq hleaf.pos hne ?_)
    rw [List.mem_singleton.mp hmem, hx]
  refine ⟨⟨ha.mapped.consistent, ?_, ?_⟩, hlayout, hsize, ?_, ?_⟩
  · rw [State.shape_congr hlayout.geometry]
    intro a b hpa hpb hnea heq
    have hap : a ≠ p := by
      rintro rfl
      exact hnea hzero
    have hbp : b ≠ p := by
      rintro rfl
      exact hnea (heq.trans hzero)
    rw [hrefs hpa hap] at hnea heq
    rw [hrefs hpb hbp] at heq
    exact h.unshared a b hpa hpb hnea heq
  · rw [State.shape_congr hlayout.geometry]
    intro q hq hneq
    have hqp : q ≠ p := by
      rintro rfl
      exact hneq hzero
    rw [hrefs hq hqp] at hneq ⊢
    exact ha.grown.frame.owned (howned hq hqp hneq)
  · intro j hlo hhi
    rw [Nat.le_antisymm (Nat.le_of_lt_succ hhi) hlo, hp]
    exact hzero
  · intro q hq hne'
    have hqp : q ≠ p := hp ▸ hne' i (Nat.le_refl i) (Nat.lt_succ_self i)
    refine ⟨hrefs hq.pos hqp, fun hneq j hj => ?_⟩
    rw [ha.grown.frame.block (howned hq.pos hqp hneq).kept,
      hfreed.block hg (.of_data (h.owned hq.pos hneq).data) hj]
    · rintro ⟨a, hin, heq⟩
      rw [hshape] at hin
      rw [hback hin.pos] at heq
      exact h.not_points hq hneq ⟨a, hin, heq⟩
    · rwa [hgeo.blockSize]

/-- Block `j` of the file is a hole, or the descriptor of its group can be read. -/
def CanFree (e : Env) (inode : Inode) (s : State) (j : Nat) : Prop :=
  s.dataBlock e (fileOf inode) () j ≠ 0 → s.Described (s.dataBlock e (fileOf inode) () j)

/-- What a program ends with that takes the blocks from `lo` up to `hi` out of the file. -/
def Shrinks (e : Env) (inode : Inode) (s : State) (lo hi : Nat)
    (r : Except Fault (Inode × State)) : Prop :=
  (∃ inode' t, r = .ok (inode', t) ∧ (∀ j, lo ≤ j → j < hi → CanFree e inode s j) ∧
    Shrunk e inode s lo hi inode' t) ∨
  (r = .error .outOfBounds ∧ ∃ j, lo ≤ j ∧ j < hi ∧ ¬ CanFree e inode s j)

namespace Shrunk

variable {lo mid hi : Nat}

theorem ptrsPerBlock (h : Shrunk e inode s lo hi inode' t) :
    t.super.ptrsPerBlock = s.super.ptrsPerBlock := by
  rw [SuperBlock.ptrsPerBlock, SuperBlock.ptrsPerBlock, h.layout.geometry.blockSize]

/-- The blocks behind those that have been taken out. -/
theorem dataBlock_eq (h : Shrunk e inode s lo hi inode' t) {j : Nat} (hj : hi ≤ j)
    (hleaf : (s.shape Unit).Leaf (filePos s.super.ptrsPerBlock () j)) :
    t.dataBlock e (fileOf inode') () j = s.dataBlock e (fileOf inode) () j := by
  rw [State.dataBlock, State.dataBlock, h.ptrsPerBlock]
  refine (h.kept hleaf fun i _ hi heq => ?_).1
  have hij := (filePos_inj heq).2
  omega

/-- Taking out more blocks. -/
theorem shrinks {r : Except Fault (Inode × State)} (h : Shrunk e inode s lo mid inode' u)
    (hle : lo ≤ mid) (hle' : mid ≤ hi)
    (hleaf : ∀ j, lo ≤ j → j < hi → (s.shape Unit).Leaf (filePos s.super.ptrsPerBlock () j))
    (hfree : ∀ j, lo ≤ j → j < mid → CanFree e inode s j) (hr : Shrinks e inode' u mid hi r) :
    Shrinks e inode s lo hi r := by
  have hcan : ∀ {j}, mid ≤ j → j < hi → (CanFree e inode' u j ↔ CanFree e inode s j) := by
    intro j hlo hhi
    rw [CanFree, CanFree, h.dataBlock_eq hlo (hleaf j (by omega) hhi), h.layout.described]
  rcases hr with ⟨inode'', t, hrun, hfree', ht⟩ | ⟨hrun, j, hlo, hhi, hnot⟩
  · refine .inl ⟨inode'', t, hrun, fun j hlo hhi => ?_,
      h.trans ht hle hle' fun j hlo hhi => hleaf j hlo (by omega)⟩
    by_cases hj : j < mid
    · exact hfree j hlo hj
    · exact (hcan (Nat.le_of_not_lt hj) hhi).mp (hfree' j (Nat.le_of_not_lt hj) hhi)
  · exact .inr ⟨hrun, j, by omega, hhi, fun hf => hnot ((hcan hlo hhi).mpr hf)⟩

end Shrunk

section Running

variable (he : e.Reliable)

include he

/-- **Block `x` is freed and taken out of the map**, unless the descriptor of its group cannot be
read. -/
theorem cut_run {x : Nat} (h : Files e (fileOf inode) s)
    (hx : (s.forest e (fileOf inode)).ref (filePos s.super.ptrsPerBlock () i) = x)
    (hheld : Held e s x) (hb : i < maxBlocks s.super.ptrsPerBlock)
    (hreach : Reached s.super.ptrsPerBlock i) :
    (∃ t r u, freeBlock e x s = .ok (⟨⟩, t) ∧ setBlockNum e inode i 0 t = .ok (r, u) ∧
      s.Described x ∧ Shrunk e inode s i (i + 1) r.2 u) ∨
      (freeBlock e x s = .error .outOfBounds ∧ ¬ s.Described x) := by
  have hsize := h.consistent.roles.size_pos
  have hleaf := filePos_leaf hsize hb ()
  have hx0 := hheld.ne_zero
  rcases freeBlock_run he h.consistent.roles hheld with ⟨t, hrun, hdesc, hfreed⟩ | hfail
  · refine .inl ?_
    have hgroup := Nat.zero_lt_of_lt hheld.group
    have hpoints : ∀ {q}, (s.shape Unit).Inner q → (s.forest e (fileOf inode)).ref q ∉ [x] := by
      intro q hq hmem
      refine h.not_points hleaf (hx ▸ hx0) ⟨q, hq, ?_⟩
      rw [List.mem_singleton.mp hmem, hx]
    have hm := hfreed.mapped h.mapped hgroup
      (fun y hy => List.mem_singleton.mp hy ▸ hheld.data) hpoints
    have hbs := hfreed.layout.geometry.blockSize
    have hptrs : t.super.ptrsPerBlock = s.super.ptrsPerBlock := by
      rw [SuperBlock.ptrsPerBlock, SuperBlock.ptrsPerBlock, hbs]
    have hb' : i < maxBlocks t.super.ptrsPerBlock := by rwa [hptrs]
    have hreach' : Reached t.super.ptrsPerBlock i := by rwa [hptrs]
    obtain ⟨r, u, hset⟩ := setBlockNum_zero_run he inode (hbs ▸ hsize) hb' hreach'
    have ha := (setBlockNum_ends (k := ()) he i 0 hm hb' hreach' (by decide)).of_result hset
    have hupdate : Function.update (fileOf inode) () r.2 = fileOf r.2 := funext fun _ => rfl
    rw [hupdate] at ha
    obtain ⟨v, hinode⟩ := (setBlockNum_inode inode i 0).of_result hset
    refine ⟨t, r, u, hrun, hset, hdesc, shrunk_of_assigned h hgroup hfreed hx hx0 hleaf ha ?_⟩
    rcases hinode with hinode | hinode
    · rw [hinode]
    · rw [hinode, Inode.iSize_setBlock]
  · exact .inr hfail

/-- **What the loop of `Truncate` does**: it takes a range of blocks out of the file, or comes to
one that cannot be freed. -/
theorem truncateFrom_shrinks (left : Nat) (h : Files e (fileOf inode) s)
    (hrange : ∀ j, i ≤ j → j < i + left → j < maxBlocks s.super.ptrsPerBlock ∧
      Reached s.super.ptrsPerBlock j)
    (hdata : ∀ j, i ≤ j → j < i + left → s.dataBlock e (fileOf inode) () j ≠ 0 →
      Data e s .block (s.dataBlock e (fileOf inode) () j)) :
    Shrinks e inode s i (i + left) (truncateFrom e left i inode s) := by
  induction left generalizing i inode s with
  | zero =>
      exact .inl ⟨inode, s, rfl, fun j hlo hhi => absurd hhi (Nat.not_lt_of_le hlo),
        Shrunk.refl h i s.clock⟩
  | succ left ih =>
      obtain ⟨hb, hreach⟩ := hrange i (Nat.le_refl i) (by omega)
      have hsize := h.consistent.roles.size_pos
      have hleaf := fun j hlo hhi => filePos_leaf hsize (hrange j hlo hhi).1 ()
      -- what the turns behind the first do
      have hrest : ∀ {inode' u}, Shrunk e inode s i (i + 1) inode' u → CanFree e inode s i →
          Shrinks e inode s i (i + (left + 1)) (truncateFrom e left (i + 1) inode' u) := by
        intro inode' u hu hfirst
        have hptrs := hu.ptrsPerBlock
        refine hu.shrinks (Nat.le_succ i) (by omega) hleaf (fun j hlo hhi => ?_) ?_
        · rwa [Nat.le_antisymm (Nat.le_of_lt_succ hhi) hlo]
        · rw [show i + (left + 1) = i + 1 + left by omega]
          refine ih hu.files (fun j hlo hhi => hptrs ▸ hrange j (by omega) (by omega)) ?_
          intro j hlo hhi hne
          rw [hu.dataBlock_eq hlo (hleaf j (by omega) (by omega))] at hne ⊢
          exact (hdata j (by omega) (by omega) hne).of_layout hu.layout
      obtain ⟨c, hc⟩ := getBlockNum_run (f := fileOf inode) he hsize hb hreach ()
      have hat := Shrunk.refl h i c
      rw [truncateFrom, bind_apply_of_ok hc]
      by_cases hzero : (s.forest e (fileOf inode)).ref (filePos s.super.ptrsPerBlock () i) = 0
      · rw [if_neg (not_not.mpr hzero)]
        exact hrest (hat.hole hzero) fun hne => absurd hzero hne
      · rw [if_pos hzero]
        have hd := hdata i (Nat.le_refl i) (by omega) hzero
        have hheld := (Freed.refl s c).held
          ((h.owned (hleaf i (Nat.le_refl i) (by omega)).pos hzero).held hd.group hd.lowest)
          List.not_mem_nil
        rcases cut_run
          (x := s.dataBlock e (fileOf inode) () i) he hat.files rfl hheld hb hreach with
          ⟨t, r, u, hfree, hset, hdesc, hu⟩ | ⟨hfree, hundesc⟩
        · rw [State.dataBlock] at hfree
          rw [bind_apply_of_ok hfree, bind_apply_of_ok hset]
          exact hrest (hat.trans hu (Nat.le_refl i) (Nat.le_succ i) fun j hlo hhi =>
            absurd hhi (Nat.not_lt_of_le hlo)) fun _ => hdesc
        · refine .inr ⟨?_, i, Nat.le_refl i, by omega, fun hcan => hundesc (hcan hzero)⟩
          rw [State.dataBlock] at hfree
          rw [bind_apply, hfree]
          rfl

end Running

end Loop

/-! ## The bytes -/

/-- **The bytes of a file that has lost a range of blocks.** -/
theorem Shrunk.fileByte {lo hi x : Nat} (h : Shrunk e inode s lo hi inode' t)
    (hsize : 0 < s.super.blockSize) (hx : x < 2 ^ 32) :
    fileByte e (fileOf inode') t () x =
      if lo ≤ x / s.super.blockSize ∧ x / s.super.blockSize < hi then 0
      else fileByte e (fileOf inode) s () x := by
  have hgeo := h.layout.geometry
  have hleaf := bytePos_leaf hsize hx ()
  rw [Ext2.fileByte, Ext2.fileByte, bytePos_congr hgeo, hgeo.blockSize]
  split_ifs with hzero hcut hzero' hcut' hzero''
  · rfl
  · rfl
  · rw [(h.kept hleaf fun i hlo hhi heq => hcut ?_).1] at hzero
    · exact absurd hzero hzero'
    · rw [(filePos_inj heq).2]
      exact ⟨hlo, hhi⟩
  · exact absurd (h.cut hcut'.1 hcut'.2) hzero
  · rw [(h.kept hleaf fun i hlo hhi heq => hcut' ?_).1] at hzero
    · exact absurd hzero'' hzero
    · rw [(filePos_inj heq).2]
      exact ⟨hlo, hhi⟩
  · obtain ⟨href, hblock⟩ := h.kept hleaf fun i hlo hhi heq => hcut' (by
      rw [(filePos_inj heq).2]
      exact ⟨hlo, hhi⟩)
    rw [href]
    exact hblock hzero'' _ (Nat.mod_lt x hsize)

/-- The bytes of a file depend on its entries and on what is in the blocks of data. -/
theorem Files.fileByte_congr {x : Nat} (h : Files e (fileOf inode) s)
    (hgeo : s.super.SameGeometry t.super)
    (hroot : ∀ slot, slot < 15 → inode'.iBlock slot = inode.iBlock slot)
    (hblock : ∀ y, ¬ Meta e s y → ∀ j, j < s.super.blockSize → t.block e y j = s.block e y j)
    (hx : x < 2 ^ 32) :
    Ext2.fileByte e (fileOf inode') t () x = Ext2.fileByte e (fileOf inode) s () x := by
  have hsize := h.consistent.roles.size_pos
  have hpos := (bytePos_leaf hsize hx ()).pos
  have href : (t.forest e (fileOf inode')).ref (s.bytePos () x) =
      (s.forest e (fileOf inode)).ref (s.bytePos () x) :=
    Forest.ref_congr (hroot _ hpos.root) hpos fun js i _ hin hne hi =>
      words_congr (fun j hj => hblock _ (h.owned hin.pos hne).data j hj) hi
  rw [Ext2.fileByte, Ext2.fileByte, bytePos_congr hgeo, hgeo.blockSize, href]
  split_ifs with hzero
  · rfl
  · exact hblock _ (h.owned hpos hzero).data _ (Nat.mod_lt x hsize)

/-! ## The inode -/

/-- `inode` has been stored under its number; only the block with its slot has changed. -/
structure Stores (e : Env) (groups num : Nat) (inode : Inode) (s t : State) : Prop where
  tables : InodeTables e t groups
  number : t.InGroups groups num
  super : t.super = s.super
  read : ∃ y c, readInode e num t = .ok (.ok y, t.at c) ∧ y.Same inode
  place : t.tableBlock e (t.inodeGroup num) (t.inodeInGroup num) =
    s.tableBlock e (s.inodeGroup num) (s.inodeInGroup num)
  block {y j : Nat} : y ≠ s.tableBlock e (s.inodeGroup num) (s.inodeInGroup num) →
    j < s.super.blockSize → t.block e y j = s.block e y j

section Storing

variable (he : e.Reliable) {groups num : Nat}

include he

theorem writeInode_stores (ht : InodeTables e s groups) (hn : s.InGroups groups num)
    (inode : Inode) : ∃ t, writeInode e num inode s = .ok (0, t) ∧
      Stores e groups num inode s t := by
  obtain ⟨c, hrun⟩ := ht.writeInode_run he hn inode
  have ht' := (ht.written hn inode).at_clock c
  obtain ⟨y, c', hread, hbytes⟩ := ht'.readInode_run he (n := num) hn
  refine ⟨_, hrun, ht', hn, rfl, ⟨y, c', hread, fun i hi => ?_⟩,
    ht.tableBlock_written hn hn.2 inode _, fun hy hj => ht.block_written hn inode hy hj⟩
  rw [hbytes i hi]
  show (s.written e num inode).disk ((s.written e num inode).slot e num + i) = _
  rw [ht.slot_written hn hn]
  exact InodeTables.disk_written_self hi

/-- **`Truncate` to a larger size** stores it. -/
theorem truncate_grows {c m : Nat} (ht : InodeTables e s groups) (hn : s.InGroups groups num)
    (hread : readInode e num s = .ok (.ok inode, s.at c)) (hm : inode.iSize < m) :
    ∃ t, truncate e num m s = .ok (0, t) ∧ Stores e groups num (inode.setSize m) (s.at c) t := by
  obtain ⟨t, hwrite, hstores⟩ := writeInode_stores he (ht.at_clock c) hn (inode.setSize m)
  refine ⟨t, ?_, hstores⟩
  rw [truncate, if_neg (Nat.ne_of_gt hn.1), bind_apply_of_ok hread]
  simp only []
  rw [if_neg (Nat.ne_of_gt hm), if_neg (Nat.not_lt_of_lt hm), pure_bind]
  exact bind_apply_of_ok hwrite

omit he in
theorem lt_sizeBlocks_iff {sb : SuperBlock} (hsize : 0 < sb.blockSize) {size j : Nat}
    (hlt : size < 2 ^ 32) : j < sizeBlocks sb size ↔ j * sb.blockSize < size := by
  have hle := sb.le_blockSize hsize
  have hdiv : (size + sb.blockSize - 1) / sb.blockSize < 2 ^ 32 := by
    rw [Nat.div_lt_iff_lt_mul hsize]
    have hmul : 2 ^ 32 * 1024 ≤ 2 ^ 32 * sb.blockSize := Nat.mul_le_mul_left _ hle
    have hsb := sb.blockSize_lt
    omega
  rw [sizeBlocks, u32_of_lt hdiv, Nat.lt_div_iff_mul_lt hsize]
  omega

/-- **`Truncate` to a smaller size** takes the blocks behind the new end out of the file and stores
the inode. -/
theorem truncate_shrinks {c n : Nat} (h : Files e (fileOf inode) s) (ht : InodeTables e s groups)
    (hn : s.InGroups groups num) (hle : groups ≤ s.groups .inode)
    (hread : readInode e num s = .ok (.ok inode, s.at c))
    (hdata : ∀ j, j < sizeBlocks s.super inode.iSize → s.dataBlock e (fileOf inode) () j ≠ 0 →
      Data e s .block (s.dataBlock e (fileOf inode) () j))
    (hlt : n < inode.iSize) :
    (∃ inode' t u, truncate e num n s = .ok (0, u) ∧
      (∀ j, sizeBlocks s.super n ≤ j → j < sizeBlocks s.super inode.iSize → CanFree e inode s j) ∧
      Shrunk e inode s (sizeBlocks s.super n) (sizeBlocks s.super inode.iSize) inode' t ∧
      Stores e groups num (inode'.setSize n) t u) ∨
    (truncate e num n s = .error .outOfBounds ∧ ∃ j, sizeBlocks s.super n ≤ j ∧
      j < sizeBlocks s.super inode.iSize ∧ ¬ CanFree e inode s j) := by
  have hsize := h.consistent.roles.size_pos
  have hbound : inode.iSize < 2 ^ 32 := getLE_lt _ _ _
  have hblocks : sizeBlocks s.super n ≤ sizeBlocks s.super inode.iSize := by
    by_contra hcon
    have hlast := (lt_sizeBlocks_iff hsize (Nat.lt_trans hlt hbound)).mp (Nat.lt_of_not_le hcon)
    have hnot := (lt_sizeBlocks_iff hsize hbound).not.mp (Nat.lt_irrefl _)
    omega
  have hsum : sizeBlocks s.super n + (sizeBlocks s.super inode.iSize - sizeBlocks s.super n) =
      sizeBlocks s.super inode.iSize := by omega
  have hat := Shrunk.refl h (sizeBlocks s.super n) c
  have hrange : ∀ j, j < sizeBlocks s.super inode.iSize →
      j < maxBlocks s.super.ptrsPerBlock ∧ Reached s.super.ptrsPerBlock j := by
    intro j hj
    have hbytes :=
      byte_in_range hsize (Nat.lt_trans ((lt_sizeBlocks_iff hsize hbound).mp hj) hbound)
    rwa [Nat.mul_div_cancel j hsize] at hbytes
  have hrun := truncateFrom_shrinks (i := sizeBlocks s.super n) he
    (sizeBlocks s.super inode.iSize - sizeBlocks s.super n) hat.files
    (fun j _ hj => hrange j (hsum ▸ hj))
    (fun j _ hj hne => (hdata j (hsum ▸ hj) hne).of_layout hat.layout)
  rw [hsum] at hrun
  replace hrun := hat.shrinks (Nat.le_refl _) hblocks (fun j _ hj =>
    filePos_leaf hsize (hrange j hj).1 ())
    (fun j hlo hhi => absurd hhi (Nat.not_lt_of_le hlo)) hrun
  have htrunc : truncate e num n s = (shrink e inode n >>= fun inode => do
      if (← writeInode e num (inode.setSize n)) ≠ 0 then pure (-3) else pure 0 :
        Io Int) (s.at c) := by
    rw [truncate, if_neg (Nat.ne_of_gt hn.1), bind_apply_of_ok hread]
    simp only []
    rw [if_neg (Nat.ne_of_lt hlt), if_pos hlt]
  have hshrink : shrink e inode n (s.at c) = truncateFrom e (sizeBlocks s.super inode.iSize -
      sizeBlocks s.super n) (sizeBlocks s.super n) inode (s.at c) := by
    rw [shrink, bind_apply_of_ok (super_run _)]
    exact congrFun (if_neg hsize.ne') _
  rw [htrunc]
  rw [← hshrink] at hrun
  rcases hrun with ⟨inode', t, hrun, hfree, hshrunk⟩ | ⟨hrun, hfail⟩
  · have htables := ht.of_layout hshrunk.layout hle
    have hnumber : t.InGroups groups num := by
      rw [State.InGroups, State.inodeGroup, hshrunk.layout.geometry.inodesPerGroup]
      exact hn
    obtain ⟨u, hwrite, hstores⟩ := writeInode_stores he htables hnumber (inode'.setSize n)
    refine .inl ⟨inode', t, u, ?_, hfree, hshrunk, hstores⟩
    rw [bind_apply_of_ok hrun]
    exact bind_apply_of_ok hwrite
  · refine .inr ⟨?_, hfail⟩
    rw [bind_apply, hrun]
    rfl

/-- **What `Truncate` to a smaller size and then to a larger one does.**  The bytes of the blocks
that have been taken out are zeros, and all others are what they were. -/
theorem truncate_twice {c n m : Nat} (h : Files e (fileOf inode) s) (ht : InodeTables e s groups)
    (hn : s.InGroups groups num) (hle : groups ≤ s.groups .inode)
    (hread : readInode e num s = .ok (.ok inode, s.at c))
    (hdata : ∀ j, j < sizeBlocks s.super inode.iSize → s.dataBlock e (fileOf inode) () j ≠ 0 →
      Data e s .block (s.dataBlock e (fileOf inode) () j))
    (hlt : n < inode.iSize) (hm : n < m) (hm' : m < 2 ^ 32) :
    (∃ t u inode' c', truncate e num n s = .ok (0, t) ∧ truncate e num m t = .ok (0, u) ∧
      (∀ j, sizeBlocks s.super n ≤ j → j < sizeBlocks s.super inode.iSize → CanFree e inode s j) ∧
      readInode e num u = .ok (.ok inode', u.at c') ∧ inode'.iSize = m ∧
      ∀ x, x < 2 ^ 32 → fileByte e (fileOf inode') u () x =
        if sizeBlocks s.super n ≤ x / s.super.blockSize ∧
            x / s.super.blockSize < sizeBlocks s.super inode.iSize then 0
        else fileByte e (fileOf inode) s () x) ∨
    (truncate e num n s = .error .outOfBounds ∧ ∃ j, sizeBlocks s.super n ≤ j ∧
      j < sizeBlocks s.super inode.iSize ∧ ¬ CanFree e inode s j) := by
  rcases truncate_shrinks he h ht hn hle hread hdata hlt with
    ⟨inode₁, t₁, t, hrun, hfree, hshrunk, hstored⟩ | hfail
  · obtain ⟨y, c₁, hy, hsame⟩ := hstored.read
    have hysize : y.iSize = n := by
      rw [hsame.iSize, Inode.iSize_setSize _ (Nat.lt_trans hm hm')]
    obtain ⟨u, hrun', hstored'⟩ := truncate_grows he hstored.tables hstored.number hy (hysize ▸ hm)
    obtain ⟨z, c₂, hz, hsame'⟩ := hstored'.read
    refine .inl ⟨t, u, z, c₂, hrun, hrun', hfree, hz, ?_, fun x hx => ?_⟩
    · rw [hsame'.iSize, Inode.iSize_setSize _ hm']
    · rw [← hshrunk.fileByte h.consistent.roles.size_pos hx]
      have htables := ht.of_layout hshrunk.layout hle
      have hnumber : t₁.InGroups groups num := by
        rw [State.InGroups, State.inodeGroup, hshrunk.layout.geometry.inodesPerGroup]
        exact hn
      have hmeta := htables.tableBlock_meta hnumber (hshrunk.layout.groups .inode ▸ hle)
      have hsuper : u.super = t₁.super := hstored'.super.trans hstored.super
      refine hshrunk.files.fileByte_congr (hsuper ▸ SuperBlock.SameGeometry.refl t₁.super)
        (fun slot hslot => ?_) (fun b hb j hj => ?_) hx
      · rw [hsame'.iBlock hslot, Inode.iBlock_setSize, hsame.iBlock hslot, Inode.iBlock_setSize]
      · have hne : b ≠ t₁.tableBlock e (t₁.inodeGroup num) (t₁.inodeInGroup num) := fun heq =>
          hb (heq ▸ hmeta)
        rw [hstored'.block (fun heq => hne (heq.trans hstored.place)) (hstored.super ▸ hj)]
        exact hstored.block hne hj
  · exact .inr hfail

end Storing

/-! ## What can be read behind the end -/

/-- Bytes from `n` up to `m` read as zeros, and those below `n` are what they were. -/
structure Hides (e : Env) (inode : Inode) (s : State) (n m : Nat) (inode' : Inode) (t : State) :
    Prop where
  below {x : Nat} : x < n → fileByte e (fileOf inode') t () x = fileByte e (fileOf inode) s () x
  behind {x : Nat} : n ≤ x → x < m → fileByte e (fileOf inode') t () x = 0

/-- What must be so before: the bytes behind the new end in the blocks that are kept are zeros, and
the blocks that are not kept can be freed. -/
structure Hideable (e : Env) (inode : Inode) (s : State) (n m : Nat) : Prop where
  zero {x : Nat} : n ≤ x → x < m → x / s.super.blockSize < sizeBlocks s.super n ∨
    sizeBlocks s.super inode.iSize ≤ x / s.super.blockSize → fileByte e (fileOf inode) s () x = 0
  free {j : Nat} : sizeBlocks s.super n ≤ j → j < sizeBlocks s.super inode.iSize →
    CanFree e inode s j

/-- What the two calls leave hides the old bytes when they could be hidden. -/
theorem hides_iff {groups num c n m : Nat} (he : e.Reliable)
    (h : Files e (fileOf inode) s) (ht : InodeTables e s groups) (hn : s.InGroups groups num)
    (hle : groups ≤ s.groups .inode) (hread : readInode e num s = .ok (.ok inode, s.at c))
    (hdata : ∀ j, j < sizeBlocks s.super inode.iSize → s.dataBlock e (fileOf inode) () j ≠ 0 →
      Data e s .block (s.dataBlock e (fileOf inode) () j))
    (hlt : n < inode.iSize) (hm : n < m) (hm' : m < 2 ^ 32) :
    (∃ u v inode' w, truncate e num n s = .ok (0, u) ∧ truncate e num m u = .ok (0, v) ∧
      readInode e num v = .ok (.ok inode', w) ∧ inode'.iSize = m ∧ Hides e inode s n m inode' v) ↔
      Hideable e inode s n m := by
  have hsize := h.consistent.roles.size_pos
  constructor
  · rintro ⟨u, v, inode', w, hrun, hrun', hread', -, hhides⟩
    rcases truncate_twice he h ht hn hle hread hdata hlt hm hm' with
      ⟨u', v', z, c, hu, hv, hfree, hz, -, hbytes⟩ | ⟨hfail, -⟩
    · rw [hu] at hrun
      obtain ⟨-, rfl⟩ := Prod.mk.inj (Except.ok.inj hrun)
      rw [hv] at hrun'
      obtain ⟨-, rfl⟩ := Prod.mk.inj (Except.ok.inj hrun')
      rw [hz] at hread'
      obtain ⟨hz', -⟩ := Prod.mk.inj (Except.ok.inj hread')
      obtain rfl := Except.ok.inj hz'
      refine ⟨fun {x} hlo hhi hkept => ?_, fun {j} => hfree j⟩
      rw [← hhides.behind hlo hhi, hbytes x (Nat.lt_trans hhi hm'), if_neg]
      omega
    · rw [hfail] at hrun
      cases hrun
  · intro hhide
    rcases truncate_twice he h ht hn hle hread hdata hlt hm hm' with
      ⟨u, v, z, c, hu, hv, hfree, hz, hzsize, hbytes⟩ | ⟨-, j, hlo, hhi, hnot⟩
    · refine ⟨u, v, z, _, hu, hv, hz, hzsize, fun {x} hx => ?_, fun {x} hlo hhi => ?_⟩
      · rw [hbytes x (by omega), if_neg]
        rintro ⟨hcut, -⟩
        have hbelow := (lt_sizeBlocks_iff (j := x / s.super.blockSize) hsize
          (Nat.lt_trans hm hm')).not.mp (Nat.not_lt_of_le hcut)
        exact hbelow (Nat.lt_of_le_of_lt (Nat.div_mul_le_self x _) hx)
      · rw [hbytes x (Nat.lt_trans hhi hm')]
        split_ifs with hcut
        · rfl
        · exact hhide.zero hlo hhi (by omega)
    · exact absurd (hhide.free hlo hhi) hnot

theorem Hides.of_walled {n m : Nat} (h : Hides e.walled inode s n m inode' t) :
    Hides e inode s n m inode' t :=
  ⟨h.below, h.behind⟩

/-- **When old bytes cannot be read again.**  `Truncate` makes a file shorter and then longer.
Whatever memory there is behind the buffers, both calls return `0`, the bytes behind the first size
read as zeros, and those in front of it stay, exactly when the bytes behind the first size in blocks
that are kept were zeros before, and the descriptors of the groups of the other blocks can be
read. -/
theorem truncate_hides_iff {groups num n m : Nat} (he : e.Reliable)
    (h : Files e.walled (fileOf inode) s) (ht : InodeTables e.walled s groups)
    (hn : s.InGroups groups num) (hle : groups ≤ s.groups .inode)
    (hread : readInode e.walled num s = .ok (.ok inode, t))
    (hdata : ∀ j, j < sizeBlocks s.super inode.iSize →
      s.dataBlock e.walled (fileOf inode) () j ≠ 0 →
        Data e.walled s .block (s.dataBlock e.walled (fileOf inode) () j))
    (hlt : n < inode.iSize) (hm : n < m) (hm' : m < 2 ^ 32) :
    (∀ mapped, ∃ u v inode' w, truncate (e.over mapped) num n s = .ok (0, u) ∧
      truncate (e.over mapped) num m u = .ok (0, v) ∧
      readInode (e.over mapped) num v = .ok (.ok inode', w) ∧ inode'.iSize = m ∧
      Hides (e.over mapped) inode s n m inode' v) ↔
      Hideable e.walled inode s n m := by
  have hclock := ((looks_readInode he.walled num).again hread).1
  rw [hclock] at hread
  rw [← hides_iff he.walled h ht hn hle hread hdata hlt hm hm']
  constructor
  · exact fun hall => hall fun _ => false
  · rintro ⟨u, v, inode', w, hrun, hrun', hread', hsize, hhides⟩ mapped
    exact ⟨u, v, inode', w, below_truncate (e := e.over mapped) num n hrun,
      below_truncate (e := e.over mapped) num m hrun',
      below_readInode (e := e.over mapped) num hread', hsize,
      Hides.of_walled (e := e.over mapped) hhides⟩

/-! ## A file of ten bytes -/

namespace Small

/-- The small volume with a file of ten bytes in block 7, as inode 11; byte 5 of it is not zero. -/
def tailed : State :=
  (volume 0 0xFF).put (store (volume 0 0xFF).disk [(6400, 2, 0x81A4), (6404, 4, 10), (6440, 4, 7),
    (7173, 1, 9)])

theorem sameBits_tailed : SameBits (Env.ideal 0) (volume 0 0xFF) tailed :=
  sameBits_store (by simp)

theorem inodeTables_tailed : InodeTables (Env.ideal 0) tailed 1 :=
  (inodeTables_volume Nat.two_pos).of_layout sameBits_tailed.layout
    (Nat.le_of_eq (groups_volume Nat.two_pos .inode).symm)

/-- The inode of the file. -/
def tailInode : Inode := ⟨store (fun _ => 0) [(0, 2, 0x81A4), (4, 4, 10), (40, 4, 7)]⟩

theorem readInode_tailed : ∃ y c,
    readInode (Env.ideal 0) 11 tailed = .ok (.ok y, tailed.at c) ∧ y.Same tailInode := by
  obtain ⟨y, c, hrun, hbytes⟩ := inodeTables_tailed.readInode_run (n := 11)
    (Env.ideal_reliable 0) ⟨by decide, by decide⟩
  refine ⟨y, c, hrun, fun i hi => (hbytes i hi).trans ?_⟩
  have hall : ∀ i < 128, tailed.disk (tailed.slot (Env.ideal 0) 11 + i) =
      tailInode.bytes i := by
    decide +kernel
  exact hall i hi

theorem blocks_of_same (h : inode.Same tailInode) :
    ∀ slot < 15, inode.iBlock slot = if slot = 0 then 7 else 0 := by
  have hblocks : ∀ slot < 15, tailInode.iBlock slot = if slot = 0 then 7 else 0 := by
    decide
  exact fun slot hslot => (h.iBlock hslot).trans (hblocks slot hslot)

theorem files_tailed (h : inode.Same tailInode) :
    Files (Env.ideal 0) (fileOf inode) tailed where
  consistent := sameBits_tailed.consistent counted_small.consistent
  unshared p q hp hq hne heq := by
    have hne' : tailed.refAt (Env.ideal 0) inode q ≠ 0 := fun hzero => hne (heq.trans hzero)
    rw [(ref_single (blocks_of_same h) hp hne).1, (ref_single (blocks_of_same h) hq hne').1]
  owned {p} hp hne := by
    have hseven := (ref_single (blocks_of_same h) hp hne).2
    rw [State.refAt] at hseven
    rw [hseven]
    refine sameBits_tailed.owned ⟨fun hf => ?_, fun hm => ?_⟩
    · have hclear := hf.clear
      rw [bit_volume Nat.two_pos (by decide)] at hclear
      cases hclear
    · exact absurd (meta_volume Nat.two_pos hm) (by decide)

/-- The first block of the file is block 7. -/
theorem ref_tailed (h : inode.Same tailInode) :
    (tailed.forest (Env.ideal 0) (fileOf inode)).ref
      (filePos tailed.super.ptrsPerBlock () 0) = 7 := blocks_of_same h 0 (by decide)

/-- The file has no other block. -/
theorem lt_sizeBlocks_tailed {j : Nat} (h : inode.Same tailInode)
    (hj : j < sizeBlocks tailed.super inode.iSize) : j = 0 := by
  have hsize : tailed.super.blockSize = 1024 := blockSize_volume Nat.two_pos
  have hten : inode.iSize = 10 := h.iSize.trans (by decide)
  rw [lt_sizeBlocks_iff (hsize ▸ by decide) (by omega), hsize, hten] at hj
  omega

theorem data_tailed {j : Nat} (h : inode.Same tailInode)
    (hj : j < sizeBlocks tailed.super inode.iSize) :
    Data (Env.ideal 0) tailed .block (tailed.dataBlock (Env.ideal 0) (fileOf inode) () j) := by
  have hseven : tailed.dataBlock (Env.ideal 0) (fileOf inode) () j = 7 := by
    rw [lt_sizeBlocks_tailed h hj]
    exact ref_tailed h
  rw [hseven]
  exact Data.of_layout ⟨by decide, by decide, by decide,
    fun _ hm => absurd (meta_volume Nat.two_pos hm) (by decide), fun hk => by cases hk⟩
    sameBits_tailed.layout

/-- The bytes of the file are those of block 7. -/
theorem fileByte_tailed {x : Nat} (h : inode.Same tailInode) (hx : x < 10) :
    fileByte (Env.ideal 0) (fileOf inode) tailed () x =
      tailed.block (Env.ideal 0) 7 x := by
  have hsize : tailed.super.blockSize = 1024 := blockSize_volume Nat.two_pos
  have hzero : x / 1024 = 0 := by omega
  have hmod : x % 1024 = x := by omega
  have href := ref_tailed h
  rw [fileByte, State.bytePos, hsize, hzero, hmod, href, if_neg (by decide)]

end Small

/-- A file of ten bytes is cut down to nothing, which frees its block, and grows to two blocks. -/
theorem truncate_hides_zeros : ∃ inode t,
    readInode (Env.ideal 0) 11 Small.tailed = .ok (.ok inode, t) ∧
      ∀ mapped, ∃ u v inode' w,
        truncate ((Env.ideal 0).over mapped) 11 0 Small.tailed = .ok (0, u) ∧
        truncate ((Env.ideal 0).over mapped) 11 2000 u = .ok (0, v) ∧
        readInode ((Env.ideal 0).over mapped) 11 v = .ok (.ok inode', w) ∧ inode'.iSize = 2000 ∧
        Hides ((Env.ideal 0).over mapped) inode Small.tailed 0 2000 inode' v := by
  obtain ⟨y, c, hread, hsame⟩ := Small.readInode_tailed
  have hten : y.iSize = 10 := hsame.iSize.trans (by decide)
  refine ⟨y, _, hread, (truncate_hides_iff (Env.ideal_reliable 0) (Small.files_tailed hsame)
    Small.inodeTables_tailed ⟨by decide, by decide⟩ (by decide) hread
    (fun j hj _ => Small.data_tailed hsame hj) (by omega) (by decide) (by decide)).mpr
      ⟨fun {x} hlo hhi hcut => ?_, fun {j} hlo hhi => ?_⟩⟩
  · -- behind its first block the file has none
    have hnone : sizeBlocks Small.tailed.super 0 = 0 := by decide
    have hone : sizeBlocks Small.tailed.super 10 = 1 := by decide
    have hsize : Small.tailed.super.blockSize = 1024 := Small.blockSize_volume Nat.two_pos
    rw [hten, hnone, hone, hsize] at hcut
    have hsecond : x / 1024 = 1 := by omega
    have hhole : (Small.tailed.forest (Env.ideal 0).walled (fileOf y)).ref
        (filePos Small.tailed.super.ptrsPerBlock () 1) = 0 :=
      Small.blocks_of_same hsame 1 (by decide)
    rw [fileByte, State.bytePos, hsize, hsecond, if_pos hhole]
  · have hfirst := Small.lt_sizeBlocks_tailed hsame hhi
    rw [hfirst]
    intro _
    have hseven : Small.tailed.dataBlock (Env.ideal 0).walled (fileOf y) () 0 = 7 :=
      Small.ref_tailed hsame
    rw [hseven, State.Described]
    decide

/-- A file of ten bytes is cut down to four bytes and grows again: byte 5 is read again. -/
theorem truncate_exposes_tail : ∃ inode t,
    readInode (Env.ideal 0) 11 Small.tailed = .ok (.ok inode, t) ∧
      ¬ ∃ u v inode' w, truncate (Env.ideal 0) 11 4 Small.tailed = .ok (0, u) ∧
        truncate (Env.ideal 0) 11 10 u = .ok (0, v) ∧
        readInode (Env.ideal 0) 11 v = .ok (.ok inode', w) ∧ inode'.iSize = 10 ∧
        Hides (Env.ideal 0) inode Small.tailed 4 10 inode' v := by
  obtain ⟨y, c, hread, hsame⟩ := Small.readInode_tailed
  have hten : y.iSize = 10 := hsame.iSize.trans (by decide)
  refine ⟨y, _, hread, fun hhides => ?_⟩
  have hhideable := (hides_iff (Env.ideal_reliable 0) (Small.files_tailed hsame)
    Small.inodeTables_tailed ⟨by decide, by decide⟩ (by decide) hread
    (fun j hj _ => Small.data_tailed hsame hj) (by omega) (by decide) (by decide)).mp hhides
  have hzero := hhideable.zero (x := 5) (by decide) (by decide) (.inl (by decide))
  rw [Small.fileByte_tailed hsame (by decide)] at hzero
  exact absurd hzero (by decide)

end InfoKernel.Ext2
