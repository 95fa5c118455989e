import InfoKernel.Fs.File
import InfoKernel.Fs.BlockMap

/-!
# The bytes of files

A family of inodes gives each file its bytes: byte `x` of a file lies in the block that its map
has for `x / block_size`, and is `0` where the map has none.  `Files` says that the maps of a
family are sound: no block is referred to twice, be it as a pointer block or as data, and all of
them are used and no metadata, on a consistent volume.

The loop of `WriteFile` keeps this up.  One turn finds or allocates the block it writes to
(`Fetched`), which leaves the bytes of all files as they were (`Target`), and then changes the bytes
of one part of one block (`Files.fileByte_range`).  `Turned` lists the ways in which a turn ends,
and `Progress` is the invariant of the loop; `Stored` is the part of it that is about the bytes
written. What is proved of `ReadFile` is that it reads these bytes where all blocks are mapped.

A call of `AllocBlock` that comes to a group whose descriptor is not in the one block of
descriptors reads it from behind the buffer.  That is the only way in which `WriteFile` fails to
do what it should while there is space (`writeFile_right`).
-/

namespace InfoKernel.Ext2

open Lib

variable {κ : Type*} {e : Env} {s t u : State} {f g g' : κ → Inode} {k : κ}

/-- The family of one inode. -/
abbrev fileOf (inode : Inode) : Unit → Inode := fun _ => inode

/-- No block is referred to twice, and each of them is used and no metadata. -/
structure Files (e : Env) (f : κ → Inode) (s : State) : Prop where
  consistent : Consistent e s
  unshared : (s.forest e f).Unshared (s.shape κ).Pos
  owned {p : (κ × Nat) × List Nat} : (s.shape κ).Pos p → (s.forest e f).ref p ≠ 0 →
    Owned e s ((s.forest e f).ref p)

theorem Files.mapped (h : Files e f s) : Mapped e f s where
  consistent := h.consistent
  unshared p q hp hq := h.unshared p q hp.pos hq.pos
  owned hp := h.owned hp.pos

/-- The block is a pointer block or a block of data of the family. -/
def State.Refers (s : State) (e : Env) (f : κ → Inode) (y : Nat) : Prop :=
  ∃ p, (s.shape κ).Pos p ∧ (s.forest e f).ref p = y

/-- The position of the block with byte `x` of the file of `k`. -/
def State.bytePos (s : State) (k : κ) (x : Nat) : (κ × Nat) × List Nat :=
  filePos s.super.ptrsPerBlock k (x / s.super.blockSize)

/-- Byte `x` of the file of `k`. -/
def fileByte (e : Env) (f : κ → Inode) (s : State) (k : κ) (x : Nat) : UInt8 :=
  if (s.forest e f).ref (s.bytePos k x) = 0 then
    0
  else
    s.block e ((s.forest e f).ref (s.bytePos k x)) (x % s.super.blockSize)

/-- Families with the same maps. -/
theorem Files.of_forest (h : Files e f s) (hfor : s.forest e g = s.forest e f) : Files e g s where
  consistent := h.consistent
  unshared := hfor ▸ h.unshared
  owned := hfor ▸ h.owned

theorem fileByte_of_forest (hfor : s.forest e g = s.forest e f) {x : Nat} :
    fileByte e g s k x = fileByte e f s k x := by
  rw [fileByte, fileByte, hfor]

/-- What may happen to a volume while one of its files grows: blocks that were free are referred
to, and otherwise at most blocks of the files change. -/
structure Extended (e : Env) (f : κ → Inode) (s : State) (g : κ → Inode) (t : State) : Prop where
  frame : Frame e (s.Refers e f) s t
  refs {p : (κ × Nat) × List Nat} : (s.shape κ).Pos p →
    (t.forest e g).ref p = (s.forest e f).ref p ∨ Free e s .block ((t.forest e g).ref p)

namespace Extended

theorem refl (f : κ → Inode) (s : State) : Extended e f s f s := ⟨Frame.refl s, fun _ => .inl rfl⟩

/-- A block in use is referred to afterwards only if it was before. -/
theorem refers (h : Extended e f s g t) {y : Nat} (hy : Kept e s y) (ht : t.Refers e g y) :
    s.Refers e f y := by
  obtain ⟨p, hp, rfl⟩ := ht
  rw [State.shape_congr h.frame.layout.geometry] at hp
  rcases h.refs hp with hsame | hfree
  · exact ⟨p, hp, hsame.symm⟩
  · exact absurd hfree hy.used

/-- What is referred to stays so. -/
theorem ne_zero (h : Extended e f s g t) (hs : Consistent e s) {p : (κ × Nat) × List Nat}
    (hp : (s.shape κ).Pos p) (hne : (s.forest e f).ref p ≠ 0) : (t.forest e g).ref p ≠ 0 := by
  rcases h.refs hp with hsame | hfree
  · rwa [hsame]
  · exact hs.ne_zero hfree

theorem trans (h : Extended e f s g t) (h' : Extended e g t g' u) : Extended e f s g' u where
  frame := h.frame.trans h'.frame fun _ hy => h.refers hy
  refs {p} hp := by
    have hp' := hp
    rw [← State.shape_congr h.frame.layout.geometry] at hp'
    rcases h'.refs hp' with hsame | hfree
    · rw [hsame]
      exact h.refs hp
    · exact .inr (h.frame.free hfree)

end Extended

/-! ## Where bytes lie -/

/-- All positions below `2 ^ 32` are in range, and the way to their blocks does not divide
by `0`. -/
theorem byte_in_range {sb : SuperBlock} (hsize : 0 < sb.blockSize) {x : Nat} (hx : x < 2 ^ 32) :
    x / sb.blockSize < maxBlocks sb.ptrsPerBlock ∧ Reached sb.ptrsPerBlock (x / sb.blockSize) := by
  obtain ⟨j, -, hj⟩ := ptrsPerBlock_eq hsize
  have hmul := sb.ptrs_mul
  rw [hj] at hmul ⊢
  have hblock : sb.blockSize = 2 ^ (10 + j) := by
    rw [← hmul, show 10 + j = 2 + (8 + j) by omega, Nat.pow_add 2 2]
  constructor
  · have hle : 1024 ≤ sb.blockSize := sb.le_blockSize hsize
    have hdiv : x / sb.blockSize ≤ x / 1024 := Nat.div_le_div_left hle (by decide)
    have hp : 2 ^ 8 ≤ 2 ^ (8 + j) := Nat.pow_le_pow_right (by decide) (Nat.le_add_right 8 j)
    have hcube : 2 ^ 8 * 2 ^ 8 * 2 ^ 8 ≤ 2 ^ (8 + j) * 2 ^ (8 + j) * 2 ^ (8 + j) :=
      Nat.mul_le_mul (Nat.mul_le_mul hp hp) hp
    rw [maxBlocks]
    omega
  · rw [Reached, ← Nat.pow_add, Nat.pow_lt_pow_iff_right (by decide)]
    by_cases h : j < 8
    · exact .inl (by omega)
    · have hle : 2 ^ 18 ≤ sb.blockSize := by
        rw [hblock]
        exact Nat.pow_le_pow_right (by decide) (by omega)
      have hdiv : x / sb.blockSize ≤ x / 2 ^ 18 := Nat.div_le_div_left hle (by decide)
      have hp : 2 ^ 16 ≤ 2 ^ (8 + j) := Nat.pow_le_pow_right (by decide) (by omega)
      exact .inr (by omega)

theorem bytePos_leaf (hsize : 0 < s.super.blockSize) {x : Nat} (hx : x < 2 ^ 32) (k : κ) :
    (s.shape κ).Leaf (s.bytePos k x) :=
  filePos_leaf hsize (byte_in_range hsize hx).1 k

theorem bytePos_congr (h : s.super.SameGeometry t.super) (k : κ) (x : Nat) :
    t.bytePos k x = s.bytePos k x := by
  rw [State.bytePos, State.bytePos, SuperBlock.ptrsPerBlock, SuperBlock.ptrsPerBlock, h.blockSize]

/-! ## Bytes under a frame -/

namespace Files

variable {A : Nat → Prop}

theorem of_frame (h : Files e f s) (hframe : Frame e A s t) (hA : ∀ y, s.Points e f y → ¬ A y) :
    Files e f t where
  consistent := hframe.consistent h.consistent
  unshared := by
    rw [State.shape_congr hframe.layout.geometry]
    intro p q hp hq hne heq
    rw [h.mapped.ref_of_frame hframe hA hp] at hne heq
    rw [h.mapped.ref_of_frame hframe hA hq] at heq
    exact h.unshared p q hp hq hne heq
  owned {p} hp hne := by
    rw [State.shape_congr hframe.layout.geometry] at hp
    rw [h.mapped.ref_of_frame hframe hA hp] at hne ⊢
    exact hframe.owned (h.owned hp hne)

theorem extended_of_frame (h : Files e f s) (hframe : Frame e A s t)
    (hA : ∀ y, s.Points e f y → ¬ A y) (hrefers : ∀ y, Kept e s y → A y → s.Refers e f y) :
    Extended e f s f t where
  frame := hframe.mono hrefers
  refs hp := .inl (h.mapped.ref_of_frame hframe hA hp)

/-- Blocks of data are no pointer blocks. -/
theorem not_points (h : Files e f s) {p : (κ × Nat) × List Nat} (hp : (s.shape κ).Leaf p)
    (hne : (s.forest e f).ref p ≠ 0) : ¬ s.Points e f ((s.forest e f).ref p) := by
  rintro ⟨q, hq, heq⟩
  have hqp := h.unshared p q hp.pos hq.pos hne heq.symm
  exact hq.not_leaf (hqp ▸ hp)

theorem fileByte_of_frame (h : Files e f s) (hframe : Frame e A s t)
    (hA : ∀ y, s.Points e f y → ¬ A y) {x : Nat} (hx : x < 2 ^ 32)
    (hdata : ¬ A ((s.forest e f).ref (s.bytePos k x))) :
    fileByte e f t k x = fileByte e f s k x := by
  have hsize := h.consistent.roles.size_pos
  have hgeo := hframe.layout.geometry
  have hpos := (bytePos_leaf hsize hx k).pos
  rw [fileByte, fileByte, bytePos_congr hgeo, h.mapped.ref_of_frame hframe hA hpos, hgeo.blockSize]
  by_cases hzero : (s.forest e f).ref (s.bytePos k x) = 0
  · rw [if_pos hzero, if_pos hzero]
  · rw [if_neg hzero, if_neg hzero]
    exact hframe.block (h.owned hpos hzero).kept hdata (Nat.mod_lt x hsize)

/-- **Writing a block of data** changes the bytes of the position that refers to it. -/
theorem fileByte_written {b : Nat} {buf : Bytes} (h : Files e f s) (hw : Written e b buf s t)
    (hb : Owned e s b) (hpoints : ¬ s.Points e f b) {x : Nat} (hx : x < 2 ^ 32) :
    fileByte e f t k x = if (s.forest e f).ref (s.bytePos k x) = b ∧ b ≠ 0 then
      buf (x % s.super.blockSize) else fileByte e f s k x := by
  have hframe := hw.frame h.consistent.roles hb.data
  have hsize := h.consistent.roles.size_pos
  have hA : ∀ y, s.Points e f y → ¬ y = b := fun y hy hyb => hpoints (hyb ▸ hy)
  by_cases href : (s.forest e f).ref (s.bytePos k x) = b
  · by_cases hzero : b = 0
    · rw [if_neg fun hc => hc.2 hzero]
      have hgeo := hframe.layout.geometry
      have hpos := (bytePos_leaf hsize hx k).pos
      rw [fileByte, fileByte, bytePos_congr hgeo, h.mapped.ref_of_frame hframe hA hpos,
        if_pos (href.trans hzero), if_pos (href.trans hzero)]
    · rw [if_pos ⟨href, hzero⟩]
      have hgeo := hframe.layout.geometry
      have hpos := (bytePos_leaf hsize hx k).pos
      rw [fileByte, bytePos_congr hgeo, h.mapped.ref_of_frame hframe hA hpos, href, if_neg hzero,
        hgeo.blockSize]
      exact hw.self (Nat.mod_lt x hsize)
  · rw [if_neg fun hc => href hc.1]
    exact h.fileByte_of_frame hframe hA hx href

/-- The same for a part of the block. -/
theorem fileByte_patched {b off n : Nat} {buf data : Bytes} (h : Files e f s)
    (hw : Written e b (copyIn buf off n data) s t)
    (hbuf : ∀ j, j < s.super.blockSize → buf j = s.block e b j) (hb : Owned e s b)
    (hpoints : ¬ s.Points e f b) {x : Nat} (hx : x < 2 ^ 32) :
    fileByte e f t k x = if ((s.forest e f).ref (s.bytePos k x) = b ∧ b ≠ 0) ∧
        off ≤ x % s.super.blockSize ∧ x % s.super.blockSize < off + n then
      data (x % s.super.blockSize - off) else fileByte e f s k x := by
  have hmod := Nat.mod_lt x h.consistent.roles.size_pos
  rw [h.fileByte_written hw hb hpoints hx]
  by_cases href : (s.forest e f).ref (s.bytePos k x) = b ∧ b ≠ 0
  · rw [if_pos href]
    by_cases hin : off ≤ x % s.super.blockSize ∧ x % s.super.blockSize < off + n
    · rw [if_pos ⟨href, hin⟩]
      obtain ⟨j, hj⟩ := Nat.exists_eq_add_of_le hin.1
      rw [hj, copyIn_of_mem (by omega), Nat.add_sub_cancel_left]
    · rw [if_neg fun hc => hin hc.2, copyIn_of_not_mem (by omega), hbuf _ hmod, fileByte, href.1,
        if_neg href.2]
  · rw [if_neg href, if_neg fun hc => href hc.1]

end Files

/-! ## A new block of data -/

section Assign

variable {b num : Nat} {code : Int} {q : (κ × Nat) × List Nat}

/-- What the positions refer to after block `b` has been allocated and `SetBlockNum` has been
called to put it at the leaf `q`: what they referred to before, a pointer block that has been
allocated for it, or `b` at `q`. -/
theorem Files.assigned_refs (h : Files e f s) (hnew : NewBlock e b s t)
    (ha : Assigned e f t g u q b code) {p : (κ × Nat) × List Nat} (hp : (s.shape κ).Pos p) :
    (u.forest e g).ref p = (s.forest e f).ref p ∨
      ((s.shape κ).Inner p ∧ Free e t .block ((u.forest e g).ref p)) ∨
      (p = q ∧ (u.forest e g).ref p = b ∧ code = 0) := by
  have href := h.mapped.ref_of_frame (hnew.frame (A := fun _ => False)) (fun _ _ => id) hp
  have hshape : t.shape κ = s.shape κ := State.shape_congr hnew.layout.geometry
  rcases hp.inner_or_leaf with hin | hleaf
  · rcases ha.grown.inner (hshape.symm ▸ hin) with hsame | ⟨-, hfree⟩
    · exact .inl (hsame.trans href)
    · exact .inr (.inl ⟨hin, hfree⟩)
  · rcases ha.outcome with ⟨hcode, hself, hother⟩ | ⟨-, -, hkept⟩
    · by_cases hpq : p = q
      · exact .inr (.inr ⟨hpq, hpq ▸ hself, hcode⟩)
      · exact .inl ((hother p (hshape.symm ▸ hleaf) hpq).trans href)
    · exact .inl ((hkept p (hshape.symm ▸ hleaf)).trans href)

/-- The maps are sound again. -/
theorem Files.assign (h : Files e f s) (hnew : NewBlock e b s t)
    (ha : Assigned e f t g u q b code) : Files e g u := by
  have hshape : u.shape κ = s.shape κ :=
    (State.shape_congr ha.grown.frame.layout.geometry).trans
      (State.shape_congr hnew.layout.geometry)
  have hframe : Frame e (fun _ => False) s t := hnew.frame
  have hb : Owned e t b := hnew.owned_self h.consistent
  refine ⟨ha.mapped.consistent, fun p p' hp hp' hne heq => ?_, fun {p} hp hne => ?_⟩
  · rw [hshape] at hp hp'
    by_cases hinner : (s.shape κ).Inner p ∧ (s.shape κ).Inner p'
    · exact ha.mapped.unshared p p' (hshape.symm ▸ hinner.1) (hshape.symm ▸ hinner.2) hne heq
    have hold : ∀ {a}, (s.shape κ).Pos a → (u.forest e g).ref a = (s.forest e f).ref a →
        (u.forest e g).ref a ≠ 0 → Owned e t ((u.forest e g).ref a) ∧ (u.forest e g).ref a ≠ b := by
      intro a hpos hsame hne
      rw [hsame] at hne ⊢
      exact ⟨hframe.owned (h.owned hpos hne), hnew.ne_of_owned (h.owned hpos hne)⟩
    rcases h.assigned_refs hnew ha hp with hsame | ⟨hin, hfree⟩ | ⟨hpq, hval, -⟩
    · obtain ⟨hown, hneb⟩ := hold hp hsame hne
      rcases h.assigned_refs hnew ha hp' with hsame' | ⟨-, hfree'⟩ | ⟨-, hval', -⟩
      · rw [hsame, hsame'] at heq
        rw [hsame] at hne
        exact h.unshared p p' hp hp' hne heq
      · exact absurd (heq ▸ hfree') hown.used
      · exact absurd (heq.trans hval') hneb
    · rcases h.assigned_refs hnew ha hp' with hsame' | ⟨hin', -⟩ | ⟨-, hval', -⟩
      · exact absurd (heq ▸ hfree) (hold hp' hsame' (heq ▸ hne)).1.used
      · exact absurd ⟨hin, hin'⟩ hinner
      · rw [heq, hval'] at hfree
        exact absurd hfree hb.used
    · rcases h.assigned_refs hnew ha hp' with hsame' | ⟨-, hfree'⟩ | ⟨hpq', -, -⟩
      · exact absurd (heq.symm.trans hval) (hold hp' hsame' (heq ▸ hne)).2
      · rw [← heq, hval] at hfree'
        exact absurd hfree' hb.used
      · rw [hpq, hpq']
  · rw [hshape] at hp
    rcases h.assigned_refs hnew ha hp with hsame | ⟨hin, -⟩ | ⟨-, hval, -⟩
    · rw [hsame] at hne ⊢
      exact ha.grown.frame.owned (hframe.owned (h.owned hp hne))
    · exact ha.mapped.owned (hshape.symm ▸ hin) hne
    · rw [hval]
      exact ha.grown.frame.owned hb

/-- Block `b` is referred to at `q` and nowhere else. -/
theorem Files.assigned_self (h : Files e f s) (hnew : NewBlock e b s t)
    (ha : Assigned e f t g u q b code) {p : (κ × Nat) × List Nat} (hp : (s.shape κ).Pos p)
    (href : (u.forest e g).ref p = b) : p = q ∧ code = 0 := by
  have hframe : Frame e (fun _ => False) s t := hnew.frame
  rcases h.assigned_refs hnew ha hp with hsame | ⟨-, hfree⟩ | ⟨hpq, -, hcode⟩
  · rw [href] at hsame
    have hown := h.owned hp (hsame ▸ hnew.ne_zero h.consistent)
    exact absurd hsame.symm (hnew.ne_of_owned hown)
  · rw [href] at hfree
    exact absurd hfree (hnew.owned_self h.consistent).used
  · exact ⟨hpq, hcode⟩

theorem Files.extended_assign (h : Files e f s) (hnew : NewBlock e b s t)
    (ha : Assigned e f t g u q b code) : Extended e f s g u where
  frame := by
    refine hnew.frame.trans ha.grown.frame ?_
    rintro y - ⟨p, hp, rfl⟩
    rw [State.shape_congr hnew.layout.geometry] at hp
    exact ⟨p, hp.pos, (h.mapped.ref_of_frame (hnew.frame (A := fun _ => False))
      (fun _ _ => id) hp.pos).symm⟩
  refs {p} hp := by
    have hframe : Frame e (fun _ => False) s t := hnew.frame
    rcases h.assigned_refs hnew ha hp with hsame | ⟨-, hfree⟩ | ⟨-, hval, -⟩
    · exact .inl hsame
    · exact .inr (hframe.free hfree)
    · rw [hval]
      exact .inr hnew.free

/-- The bytes of the files stay: where there was no block there are zeros now. -/
theorem Files.fileByte_assign (h : Files e f s) (hnew : NewBlock e b s t)
    (ha : Assigned e f t g u q b code) (hzero : (s.forest e f).ref q = 0) {x : Nat}
    (hx : x < 2 ^ 32) : fileByte e g u k x = fileByte e f s k x := by
  have hsize := h.consistent.roles.size_pos
  have hframe : Frame e (fun _ => False) s t := hnew.frame
  have hgeo := hframe.layout.geometry
  have hgeo' := ha.grown.frame.layout.geometry
  have hleaf := bytePos_leaf hsize hx k
  have hm := (h.of_frame hframe fun _ _ => id)
  have hmod := Nat.mod_lt x hsize
  rw [fileByte, fileByte, bytePos_congr hgeo', bytePos_congr hgeo, hgeo'.blockSize, hgeo.blockSize]
  rcases h.assigned_refs hnew ha hleaf.pos with hsame | ⟨hin, -⟩ | ⟨hpq, hval, -⟩
  · rw [hsame]
    by_cases hr : (s.forest e f).ref (s.bytePos k x) = 0
    · rw [if_pos hr, if_pos hr]
    · rw [if_neg hr, if_neg hr]
      have hown := h.owned hleaf.pos hr
      have hdata : ¬ t.Points e f ((s.forest e f).ref (s.bytePos k x)) := by
        have href := h.mapped.ref_of_frame hframe (fun _ _ => id) hleaf.pos
        rw [← href] at hr ⊢
        have hshape : t.shape κ = s.shape κ := State.shape_congr hgeo
        exact hm.not_points (hshape.symm ▸ hleaf) hr
      rw [ha.grown.frame.block (hframe.owned hown).kept hdata (by rwa [hgeo.blockSize]),
        hnew.block hown hmod]
  · exact absurd hleaf hin.not_leaf
  · have hb := hnew.owned_self h.consistent
    have hpoints : ¬ t.Points e f b := by
      rintro ⟨p, hp, href⟩
      rw [State.shape_congr hgeo] at hp
      rw [h.mapped.ref_of_frame hframe (fun _ _ => id) hp.pos] at href
      have hown := h.owned hp.pos (href ▸ hnew.ne_zero h.consistent)
      exact absurd href (hnew.ne_of_owned hown)
    rw [hval, if_neg (hnew.ne_zero h.consistent), hpq, hzero, if_pos rfl,
      ha.grown.frame.block hb.kept hpoints (by rwa [hgeo.blockSize]), hnew.zero hmod]

end Assign

/-- A block of data that was free, or that was referred to, has been written. -/
theorem Extended.written {b : Nat} {buf : Bytes} (h : Extended e f s g t) (hf : Files e g t)
    (hw : Written e b buf t u) (hb : Owned e t b) (hpoints : ¬ t.Points e g b)
    (hkept : Kept e s b → s.Refers e f b) : Extended e f s g u where
  frame := by
    refine h.frame.trans (hw.frame hf.consistent.roles hb.data) ?_
    rintro y hy rfl
    exact hkept hy
  refs {p} hp := by
    have hpos : (t.shape κ).Pos p := by
      rwa [State.shape_congr h.frame.layout.geometry]
    rw [hf.mapped.ref_of_frame (hw.frame hf.consistent.roles hb.data)
      (fun y hy hyb => hpoints (hyb ▸ hy)) hpos]
    exact h.refs hp

/-! ## Reading -/

theorem u32_of_lt {x : Nat} (h : x < 2 ^ 32) : u32 x = x := Nat.mod_eq_of_lt h

theorem u64_of_lt {x : Nat} (h : x < 2 ^ 64) : u64 x = x := Nat.mod_eq_of_lt h

theorem bytesInBlock_eq (size off left : Nat) : bytesInBlock size off left =
    min left (size - off) := by
  rw [bytesInBlock]
  split <;> omega

theorem blockOf_eq {size x : Nat} (hx : x < 2 ^ 32) :
    blockOf size (u64 x) = (x / size, x % size) := by
  rw [blockOf, u64_of_lt (by omega), u32_of_lt (Nat.lt_of_le_of_lt (Nat.div_le_self _ _) hx)]

/-- The bytes from `a` to the end of its block, or to the end of a range that is shorter. -/
theorem same_block (size : Nat) {a n x : Nat} (hn : a % size + n ≤ size) (hlo : a ≤ x)
    (hhi : x < a + n) :
    x / size = a / size ∧ x % size = a % size + (x - a) := by
  have ha := Nat.div_add_mod a size
  have hpos : 0 < size := by omega
  have hx : x = size * (a / size) + (a % size + (x - a)) := by omega
  have hlt : a % size + (x - a) < size := by omega
  constructor
  · rw [hx, Nat.mul_add_div hpos, Nat.div_eq_of_lt hlt, Nat.add_zero]
  · rw [hx, Nat.mul_add_mod, Nat.mod_eq_of_lt hlt]
    omega

/-- `done` bytes from `offset` on have been read, and all of them lie in blocks. -/
def Delivered (e : Env) (f : κ → Inode) (s : State) (k : κ) (offset : Nat) (st : Nat × Bytes) :
    Prop :=
  ∀ x, offset ≤ x → x < offset + st.1 → (s.forest e f).ref (s.bytePos k x) ≠ 0 ∧
    st.2 (x - offset) = fileByte e f s k x

section Read

variable (he : e.Reliable)

include he

/-- **One turn of the loop of `ReadFile`.** -/
theorem readTurn_ends {F : Fault → Prop} {offset toRead c : Nat} {st : Nat × Bytes}
    (hsize : 0 < s.super.blockSize) (h : Delivered e f s k offset st) (hle : st.1 ≤ toRead)
    (hlt : offset + toRead ≤ 2 ^ 32) :
    Ends (readTurn e (f k) offset toRead st) (s.at c) F fun r t => (∃ c', t = s.at c') ∧
      r.Meets (fun st' => st.1 < st'.1 ∧ st'.1 ≤ toRead ∧ Delivered e f s k offset st')
        fun st' => Delivered e f s k offset st' ∧ st'.1 ≤ toRead ∧ (st'.1 = toRead ∨
          (s.forest e f).ref (s.bytePos k (offset + st'.1)) = 0) := by
  obtain ⟨done, out⟩ := st
  rw [readTurn]
  dsimp only at h hle ⊢
  by_cases hdone : done < toRead
  · rw [if_pos hdone]
    refine Ends.step (a := s.super) rfl ?_
    have hx : offset + done < 2 ^ 32 := by omega
    obtain ⟨hmax, hreach⟩ := byte_in_range hsize hx
    rw [if_neg (Nat.ne_of_gt hsize), blockOf_eq hx]
    dsimp only
    obtain ⟨c', hc'⟩ := getBlockNum_run (s := s.at c) (f := f) he hsize hmax hreach k
    refine Ends.step hc' ?_
    have hpos : filePos (s.at c).super.ptrsPerBlock k ((offset + done) / s.super.blockSize) =
        s.bytePos k (offset + done) := rfl
    rw [hpos]
    show Ends (if (s.forest e f).ref (s.bytePos k (offset + done)) = 0 then _ else _) _ _ _
    by_cases hzero : (s.forest e f).ref (s.bytePos k (offset + done)) = 0
    · rw [if_pos hzero]
      exact Ends.pure ⟨⟨_, rfl⟩, h, hle, .inr hzero⟩
    · rw [if_neg hzero]
      refine Ends.step (pageAlloc_run he) ?_
      simp only [Bool.not_true, Bool.false_eq_true, if_false]
      refine Ends.step (load_run he _) ?_
      dsimp only
      have hn := bytesInBlock_eq s.super.blockSize ((offset + done) % s.super.blockSize)
        (toRead - done)
      have hmod := Nat.mod_lt (offset + done) hsize
      generalize bytesInBlock s.super.blockSize ((offset + done) % s.super.blockSize)
        (toRead - done) = n at hn ⊢
      refine Ends.pure ⟨⟨_, rfl⟩, show done < done + n by omega,
        show done + n ≤ toRead by omega, ?_⟩
      intro x hlo hhi
      have hhi : x < offset + (done + n) := hhi
      dsimp only
      by_cases hold : x < offset + done
      · rw [copyIn_of_not_mem (.inl (by omega))]
        exact h x hlo hold
      · obtain ⟨hblock, hoff⟩ := same_block (n := n) (a := offset + done) (x := x)
          s.super.blockSize (by omega) (by omega) (by omega)
        have hplace : s.bytePos k x = s.bytePos k (offset + done) := by
          rw [State.bytePos, State.bytePos, hblock]
        obtain ⟨j, hj⟩ := Nat.exists_eq_add_of_le (Nat.le_of_not_lt hold)
        have hindex : x - offset = done + j := by omega
        rw [hplace, hindex, copyIn_of_mem (by omega), fileByte, hplace, if_neg hzero, hoff]
        refine ⟨hzero, ?_⟩
        rw [show x - (offset + done) = j by omega]
        exact copyOut_of_lt (by show _ < s.super.blockSize; omega)
  · rw [if_neg hdone]
    exact Ends.pure ⟨⟨_, rfl⟩, h, hle, .inl (Nat.le_antisymm hle (Nat.le_of_not_lt hdone))⟩

/-- **What `ReadFile` reads**: the bytes of the file, up to its end or to a block that is not
mapped. -/
theorem readFile_ends {F : Fault → Prop} (out : Bytes) {count : Nat} (offset : Nat) {n : Nat}
    (hsize : 0 < s.super.blockSize) (hdir : (f k).isDir = false) (hlt : offset + count < 2 ^ 64)
    (hn : count < n) :
    Ends (readFile e (f k) out count offset n) s F fun r t => (∃ c, t = s.at c) ∧
      ∃ m : Nat, r.1 = m ∧ m ≤ min count ((f k).iSize - offset) ∧
        Delivered e f s k offset (m, r.2) ∧ (m = min count ((f k).iSize - offset) ∨
          (s.forest e f).ref (s.bytePos k (offset + m)) = 0) := by
  have hend : (f k).iSize < 2 ^ 32 := getLE_lt _ _ _
  rw [readFile, hdir, if_neg Bool.false_ne_true]
  by_cases hpast : offset ≥ (f k).iSize
  · rw [if_pos hpast]
    refine Ends.pure ⟨⟨s.clock, rfl⟩, 0, rfl, Nat.zero_le _, fun x _ _ => ?_, .inl ?_⟩
    · omega
    · omega
  · rw [if_neg hpast, u64_of_lt hlt]
    have hread : (if offset + count > (f k).iSize then (f k).iSize - offset else count) =
        min count ((f k).iSize - offset) := by
      split <;> omega
    rw [hread]
    have hmin := Nat.min_le_left count ((f k).iSize - offset)
    have hmin' := Nat.min_le_right count ((f k).iSize - offset)
    generalize min count ((f k).iSize - offset) = toRead at *
    refine Ends.bind (P := fun st t => (∃ c, t = s.at c) ∧ Delivered e f s k offset st ∧
      st.1 ≤ toRead ∧ (st.1 = toRead ∨ (s.forest e f).ref (s.bytePos k (offset + st.1)) = 0))
      (Ends.loop (I := fun m st t => m = toRead - st.1 ∧ st.1 ≤ toRead ∧ (∃ c, t = s.at c) ∧
        Delivered e f s k offset st) ?_ (k := toRead) ?_ (by omega)) ?_
    · rintro m st t ⟨rfl, hle, ⟨c, rfl⟩, hst⟩
      refine (readTurn_ends he hsize hst hle (by omega)).mono ?_
      rintro (st' | st') t ⟨ht, hmeets⟩
      · obtain ⟨hstep, hle', hst'⟩ := hmeets
        exact ⟨toRead - st'.1, by omega, rfl, hle', ht, hst'⟩
      · exact ⟨ht, hmeets⟩
    · refine ⟨rfl, Nat.zero_le _, ⟨s.clock, rfl⟩, fun x hlo hhi => ?_⟩
      have hhi : x < offset + 0 := hhi
      omega
    · rintro st t ⟨ht, hst, hle, hstop⟩
      exact Ends.pure ⟨ht, st.1, rfl, hle, hst, hstop⟩

end Read

/-! ## Writing -/

section Write

variable [DecidableEq κ]

/-- What has been found or allocated for block `i` of the file of `k`: a block that nothing else
refers to, with the bytes of all files as before. -/
structure Target (e : Env) (f : κ → Inode) (s : State) (k : κ) (i : Nat) (r : Nat × Inode)
    (t : State) : Prop where
  files : Files e (Function.update f k r.2) t
  extended : Extended e f s (Function.update f k r.2) t
  bytes {k' : κ} {x : Nat} : x < 2 ^ 32 →
    fileByte e (Function.update f k r.2) t k' x = fileByte e f s k' x
  inode : ∃ slot v, r.2 = f k ∨ r.2 = (f k).setBlock slot v
  noSpace : r.1 = 0 → t.noSpace = true
  kept : Kept e s r.1 → s.Refers e f r.1
  owned : r.1 ≠ 0 → Owned e t r.1
  notPoints : r.1 ≠ 0 → ¬ t.Points e (Function.update f k r.2) r.1
  only {p : (κ × Nat) × List Nat} : r.1 ≠ 0 → (s.shape κ).Leaf p →
    (t.forest e (Function.update f k r.2)).ref p = r.1 → p = filePos s.super.ptrsPerBlock k i
  self : r.1 ≠ 0 → t.noSpace = false →
    (t.forest e (Function.update f k r.2)).ref (filePos s.super.ptrsPerBlock k i) = r.1

/-- How `WriteFile` comes by block `i` of the file of `k`: the map has it, or there is none left, or
it is new and `SetBlockNum` has been called for it. -/
inductive Fetched (e : Env) (f : κ → Inode) (s : State) (k : κ) (i : Nat) :
    Nat × Inode → State → Prop
  | mapped (c : Nat) (hne : (s.forest e f).ref (filePos s.super.ptrsPerBlock k i) ≠ 0) :
      Fetched e f s k i ((s.forest e f).ref (filePos s.super.ptrsPerBlock k i), f k) (s.at c)
  | full {c : Nat} {t : State} (hzero : (s.forest e f).ref (filePos s.super.ptrsPerBlock k i) = 0)
      (hno : NoBlock e (s.at c) t) : Fetched e f s k i (0, f k) t
  | new {c b : Nat} {t : State} {code : Int} {inode : Inode} {u : State}
      (hzero : (s.forest e f).ref (filePos s.super.ptrsPerBlock k i) = 0)
      (hnew : NewBlock e b (s.at c) t)
      (ha : Assigned e f t (Function.update f k inode) u (filePos s.super.ptrsPerBlock k i) b code)
      (hinode : ∃ slot v, inode = f k ∨ inode = (f k).setBlock slot v) :
      Fetched e f s k i (b, inode) u

variable (he : e.Reliable)

include he

/-- **How `WriteFile` comes by a block.** -/
theorem writeTarget_fetched {i : Nat} (h : Files e f s) (hi : i < maxBlocks s.super.ptrsPerBlock)
    (hreach : Reached s.super.ptrsPerBlock i) :
    Ends (writeTarget e (f k) i) s (Unfit s .block) (Fetched e f s k i) := by
  have hsize := h.consistent.roles.size_pos
  obtain ⟨c, hc⟩ := getBlockNum_run (f := f) he hsize hi hreach k
  refine Ends.step hc ?_
  have hat : Frame e (fun _ => False) s (s.at c) := Frame.at_right s c
  have hfiles : Files e f (s.at c) := h.of_frame hat fun _ _ => id
  by_cases hzero : (s.forest e f).ref (filePos s.super.ptrsPerBlock k i) = 0
  · rw [if_pos hzero]
    refine Ends.bind ((allocBlock_ends he hfiles.consistent.roles fun _ =>
      hfiles.consistent.meta_used).mono_error fun _ hf => hf) fun b t hb => ?_
    rcases hb with ⟨rfl, hno⟩ | hnew
    · rw [if_pos rfl]
      exact Ends.pure (.full hzero hno)
    · rw [if_neg (hnew.ne_zero hfiles.consistent)]
      have hframe : Frame e (fun _ => False) (s.at c) t := hnew.frame
      have hm : Mapped e f t := (hfiles.of_frame hframe fun _ _ => id).mapped
      have hptrs : t.super.ptrsPerBlock = s.super.ptrsPerBlock := by
        rw [SuperBlock.ptrsPerBlock, SuperBlock.ptrsPerBlock, hframe.layout.geometry.blockSize]
        rfl
      have hset := ((setBlockNum_ends (k := k) he i b hm (by rwa [hptrs])
        (by rwa [hptrs]) hnew.lt).and (setBlockNum_inode (f k) i b)).mono_error fun _ hf =>
          hf.1.of_layout (hat.layout.trans hframe.layout)
      rw [hptrs] at hset
      refine Ends.bind hset ?_
      rintro ⟨code, inode⟩ u ⟨ha, v, hinode⟩
      exact Ends.pure (.new hzero hnew ha ⟨_, v, hinode⟩)
  · rw [if_neg hzero]
    exact Ends.pure (.mapped c hzero)

omit he

/-- What has been fetched is a target. -/
theorem Fetched.target {i : Nat} {r : Nat × Inode} (hf : Fetched e f s k i r t) (h : Files e f s)
    (hi : i < maxBlocks s.super.ptrsPerBlock) : Target e f s k i r t := by
  have hleaf := filePos_leaf h.consistent.roles.size_pos hi k
  have hself : Function.update f k (f k) = f := Function.update_eq_self k f
  cases hf with
  | mapped c hne =>
      have hat : Frame e (fun _ => False) s (s.at c) := Frame.at_right s c
      have hfiles : Files e f (s.at c) := h.of_frame hat fun _ _ => id
      refine ⟨?_, ?_, fun hx => ?_, ⟨0, 0, .inl rfl⟩, fun hz => absurd hz hne,
        fun _ => ⟨_, hleaf.pos, rfl⟩, fun _ => ?_, fun _ => ?_, fun _ hp href => ?_, fun _ _ => ?_⟩
      · rw [hself]
        exact hfiles
      · rw [hself]
        exact h.extended_of_frame hat (fun _ _ => id) fun _ _ hf => hf.elim
      · rw [hself]
        exact h.fileByte_of_frame hat (fun _ _ => id) hx id
      · exact hfiles.owned hleaf.pos hne
      · rw [hself]
        exact hfiles.not_points hleaf hne
      · rw [hself] at href
        exact (h.unshared _ _ hleaf.pos hp.pos hne href.symm).symm
      · rw [hself]
        rfl
  | full hzero hno =>
      have hframe : Frame e (fun _ => False) s t :=
        (Frame.at_right s _).trans hno.frame fun _ _ => id
      have hspace : t.noSpace = true := by
        obtain ⟨c, rfl⟩ := hno.same
        rfl
      refine ⟨?_, ?_, fun hx => ?_, ⟨0, 0, .inl rfl⟩, fun _ => hspace,
        fun hy => absurd hy.super_lt (Nat.not_lt_zero _), fun h => absurd rfl h,
        fun h => absurd rfl h, fun h => absurd rfl h, fun h => absurd rfl h⟩
      · rw [hself]
        exact h.of_frame hframe fun _ _ => id
      · rw [hself]
        exact h.extended_of_frame hframe (fun _ _ => id) fun _ _ hf => hf.elim
      · rw [hself]
        exact h.fileByte_of_frame hframe (fun _ _ => id) hx id
  | @new c b t code inode _ hzero hnew ha hinode =>
      have hat : Frame e (fun _ => False) s (s.at c) := Frame.at_right s c
      have hfiles : Files e f (s.at c) := h.of_frame hat fun _ _ => id
      have hframe : Frame e (fun _ => False) (s.at c) t := hnew.frame
      have hpos : ∀ {p}, (s.shape κ).Pos p →
          (State.forest _ e (Function.update f k inode)).ref p = b →
          p = filePos s.super.ptrsPerBlock k i := fun hp href =>
        (hfiles.assigned_self hnew ha hp href).1
      refine ⟨hfiles.assign hnew ha, ?_, fun hx => hfiles.fileByte_assign hnew ha hzero hx,
        hinode, fun hf => absurd hf (hnew.ne_zero hfiles.consistent),
        fun hy => absurd (hat.free hnew.free) hy.used, fun _ => ?_, fun _ => ?_,
        fun _ hp href => hpos hp.pos href, fun _ hspace => ?_⟩
      · exact (h.extended_of_frame hat (fun _ _ => id) fun _ _ hf => hf.elim).trans
          (hfiles.extended_assign hnew ha)
      · exact ha.grown.frame.owned (hnew.owned_self hfiles.consistent)
      · rintro ⟨p, hp, href⟩
        rw [State.shape_congr ha.grown.frame.layout.geometry,
          State.shape_congr hframe.layout.geometry] at hp
        have hp : (s.shape κ).Inner p := hp
        exact hp.not_leaf (hpos hp.pos href ▸ hleaf)
      · rcases ha.outcome with ⟨-, href, -⟩ | ⟨-, hfull, -⟩
        · exact href
        · rw [hspace] at hfull
          cases hfull

/-- A part of the block with byte `a` of the file of `k` has been written. -/
theorem Files.fileByte_range {a b n x : Nat} {k' : κ} {blk data : Bytes} (h : Files e f s)
    (hw : Written e b (copyIn blk (a % s.super.blockSize) n data) s t)
    (hblk : ∀ j, j < s.super.blockSize → blk j = s.block e b j) (hb0 : b ≠ 0) (hb : Owned e s b)
    (hpoints : ¬ s.Points e f b)
    (honly : ∀ p, (s.shape κ).Leaf p → (s.forest e f).ref p = b → p = s.bytePos k a)
    (hn : a % s.super.blockSize + n ≤ s.super.blockSize) (hx : x < 2 ^ 32) :
    fileByte e f t k' x =
      if (s.forest e f).ref (s.bytePos k' x) = b ∧ k' = k ∧ a ≤ x ∧ x < a + n then data (x - a)
      else fileByte e f s k' x := by
  have hsize := h.consistent.roles.size_pos
  rw [h.fileByte_patched hw hblk hb hpoints hx]
  by_cases href : (s.forest e f).ref (s.bytePos k' x) = b
  · obtain ⟨hk, hdiv⟩ := filePos_inj (honly _ (bytePos_leaf hsize hx k') href)
    by_cases hrange : a ≤ x ∧ x < a + n
    · obtain ⟨-, hmod⟩ := same_block s.super.blockSize hn hrange.1 hrange.2
      rw [if_pos ⟨⟨href, hb0⟩, by omega, by omega⟩, if_pos ⟨href, hk, hrange⟩, hmod,
        Nat.add_sub_cancel_left]
    · rw [if_neg fun hc => hrange ?_, if_neg fun hc => hrange hc.2.2]
      have hxa := Nat.div_add_mod x s.super.blockSize
      have ha := Nat.div_add_mod a s.super.blockSize
      rw [hdiv] at hxa
      omega
  · rw [if_neg fun hc => href hc.1.1, if_neg fun hc => href hc.1]

/-- `done` bytes of the buffer are bytes of the file of `k`, and lie in blocks. -/
structure Stored (e : Env) (f : κ → Inode) (s : State) (k : κ) (buf : Bytes) (offset done : Nat) :
    Prop where
  inside {x : Nat} : offset ≤ x → x < offset + done → fileByte e f s k x = buf (x - offset)
  mapped {x : Nat} : offset ≤ x → x < offset + done → (s.forest e f).ref (s.bytePos k x) ≠ 0

omit [DecidableEq κ] in
theorem Stored.zero (e : Env) (f : κ → Inode) (s : State) (k : κ) (buf : Bytes) (offset : Nat) :
    Stored e f s k buf offset 0 where
  inside hlo hhi := by omega
  mapped hlo hhi := by omega

/-- They stay when a block has been found or allocated for another part of the file. -/
theorem Stored.target {buf : Bytes} {offset done i : Nat} {r : Nat × Inode}
    (h : Stored e f s k buf offset done) (hlt : offset + done ≤ 2 ^ 32) (hs : Consistent e s)
    (ht : Target e f s k i r t) : Stored e (Function.update f k r.2) t k buf offset done where
  inside hlo hhi := by
    rw [ht.bytes (by omega), h.inside hlo hhi]
  mapped hlo hhi := by
    rw [bytePos_congr ht.extended.frame.layout.geometry]
    exact ht.extended.ne_zero hs (bytePos_leaf hs.roles.size_pos (by omega) k).pos
      (h.mapped hlo hhi)

/-- The next part of the buffer has been written. -/
theorem Stored.written {buf blk : Bytes} {offset done n b : Nat}
    (h : Stored e f s k buf offset done) (hf : Files e f s) (hlt : offset + (done + n) ≤ 2 ^ 32)
    (hw : Written e b
      (copyIn blk ((offset + done) % s.super.blockSize) n fun j => buf (done + j)) s t)
    (hblk : ∀ j, j < s.super.blockSize → blk j = s.block e b j) (hb0 : b ≠ 0) (hb : Owned e s b)
    (hpoints : ¬ s.Points e f b)
    (honly : ∀ p, (s.shape κ).Leaf p → (s.forest e f).ref p = b → p = s.bytePos k (offset + done))
    (hself : (s.forest e f).ref (s.bytePos k (offset + done)) = b)
    (hn : (offset + done) % s.super.blockSize + n ≤ s.super.blockSize) :
    Stored e f t k buf offset (done + n) := by
  have hframe := hw.frame hf.consistent.roles hb.data
  have hA : ∀ y, s.Points e f y → ¬ y = b := fun y hy hyb => hpoints (hyb ▸ hy)
  have hhere : ∀ {x}, offset + done ≤ x → x < offset + (done + n) →
      (s.forest e f).ref (s.bytePos k x) = b := by
    intro x hlo hhi
    obtain ⟨hdiv, -⟩ := same_block s.super.blockSize (n := n) hn hlo (by omega)
    rwa [State.bytePos, hdiv]
  refine ⟨fun {x} hlo hhi => ?_, fun {x} hlo hhi => ?_⟩
  · rw [hf.fileByte_range hw hblk hb0 hb hpoints honly hn (by omega)]
    by_cases hlate : offset + done ≤ x
    · rw [if_pos ⟨hhere hlate hhi, rfl, hlate, by omega⟩]
      congr 1
      omega
    · rw [if_neg fun hc => hlate hc.2.2.1, h.inside hlo (by omega)]
  · rw [bytePos_congr hframe.layout.geometry, hf.mapped.ref_of_frame hframe hA
      (bytePos_leaf hf.consistent.roles.size_pos (by omega) k).pos]
    by_cases hlate : offset + done ≤ x
    · rw [hhere hlate hhi]
      exact hb0
    · exact h.mapped hlo (by omega)

/-- The invariant of the loop: `done` bytes of the buffer have been written. -/
structure Progress (e : Env) (f : κ → Inode) (s : State) (k : κ) (buf : Bytes)
    (offset size done : Nat) (inode : Inode) (t : State) : Prop where
  files : Files e (Function.update f k inode) t
  extended : Extended e f s (Function.update f k inode) t
  other {k' : κ} {x : Nat} : k' ≠ k → x < 2 ^ 32 →
    fileByte e (Function.update f k inode) t k' x = fileByte e f s k' x
  outside {x : Nat} : x < 2 ^ 32 → x < offset ∨ offset + done ≤ x →
    fileByte e (Function.update f k inode) t k x = fileByte e f s k x
  inside {x : Nat} : t.noSpace = false → offset ≤ x → x < offset + done →
    fileByte e (Function.update f k inode) t k x = buf (x - offset)
  mapped {x : Nat} : t.noSpace = false → offset ≤ x → x < offset + done →
    (t.forest e (Function.update f k inode)).ref (t.bytePos k x) ≠ 0
  size : inode.iSize = size
  mode : inode.iMode = (f k).iMode

/-- A block has been found or allocated. -/
theorem Progress.target {buf : Bytes} {offset size done i : Nat} {inode : Inode} {r : Nat × Inode}
    (h : Progress e f s k buf offset size done inode t) (hlt : offset + done < 2 ^ 32)
    (ht : Target e (Function.update f k inode) t k i r u) :
    Progress e f s k buf offset size done r.2 u := by
  have hself : Function.update (Function.update f k inode) k r.2 = Function.update f k r.2 :=
    Function.update_idem inode r.2 f
  have hinode : Function.update f k inode k = inode := Function.update_self k inode f
  have hfiles := ht.files
  have hext := ht.extended
  have hbytes := @ht.bytes
  obtain ⟨slot, v, hr⟩ := ht.inode
  rw [hself] at hfiles hext hbytes
  rw [hinode] at hr
  have hfree : u.noSpace = false → t.noSpace = false := by
    intro hspace
    by_contra hfull
    rw [Bool.not_eq_false] at hfull
    rw [ht.extended.frame.noSpace hfull] at hspace
    cases hspace
  refine ⟨hfiles, h.extended.trans hext, fun hk hx => ?_, fun hx hout => ?_,
    fun hspace hlo hhi => ?_, fun hspace hlo hhi => ?_, ?_, ?_⟩
  · rw [hbytes hx, h.other hk hx]
  · rw [hbytes hx, h.outside hx hout]
  · rw [hbytes (by omega), h.inside (hfree hspace) hlo hhi]
  · rw [bytePos_congr hext.frame.layout.geometry]
    exact hext.ne_zero h.files.consistent
      (bytePos_leaf h.files.consistent.roles.size_pos (by omega) k).pos
      (h.mapped (hfree hspace) hlo hhi)
  · rw [← h.size]
    rcases hr with hr | hr
    · rw [hr]
    · rw [hr, Inode.iSize_setBlock]
  · rw [← h.mode]
    rcases hr with hr | hr
    · rw [hr]
    · rw [hr, Inode.iMode_setBlock]

theorem Progress.at {buf : Bytes} {offset size done : Nat} {inode : Inode}
    (h : Progress e f s k buf offset size done inode t) (c : Nat) :
    Progress e f s k buf offset size done inode (t.at c) :=
  have hat : Frame e (fun _ => False) t (t.at c) := Frame.at_right t c
  ⟨h.files.of_frame hat fun _ _ => id, h.extended.trans
    (h.files.extended_of_frame hat (fun _ _ => id) fun _ _ hf => hf.elim), h.other, h.outside,
    h.inside, h.mapped, h.size, h.mode⟩

theorem Progress.stored {buf : Bytes} {offset size done : Nat} {inode : Inode}
    (h : Progress e f s k buf offset size done inode t) (hspace : t.noSpace = false) :
    Stored e (Function.update f k inode) t k buf offset done :=
  ⟨h.inside hspace, h.mapped hspace⟩

/-- The next part of the buffer has been written. -/
theorem Progress.written {buf blk : Bytes} {offset size done n b : Nat} {inode : Inode}
    (h : Progress e f s k buf offset size done inode t) (hlt : offset + (done + n) < 2 ^ 32)
    (hw : Written e b
      (copyIn blk ((offset + done) % t.super.blockSize) n fun j => buf (done + j)) t u)
    (hblk : ∀ j, j < t.super.blockSize → blk j = t.block e b j) (hb0 : b ≠ 0)
    (hkept : Kept e s b → s.Refers e f b) (hb : Owned e t b)
    (hpoints : ¬ t.Points e (Function.update f k inode) b)
    (honly : ∀ p, (t.shape κ).Leaf p → (t.forest e (Function.update f k inode)).ref p = b →
      p = t.bytePos k (offset + done))
    (hself : t.noSpace = false →
      (t.forest e (Function.update f k inode)).ref (t.bytePos k (offset + done)) = b)
    (hn : (offset + done) % t.super.blockSize + n ≤ t.super.blockSize) :
    Progress e f s k buf offset size (done + n) inode u := by
  have hframe := hw.frame h.files.consistent.roles hb.data
  have hA : ∀ y, t.Points e (Function.update f k inode) y → ¬ y = b := fun y hy hyb =>
    hpoints (hyb ▸ hy)
  have hstored : u.noSpace = false →
      Stored e (Function.update f k inode) u k buf offset (done + n) := by
    intro hspace
    rw [hw.noSpace] at hspace
    exact (h.stored hspace).written h.files (Nat.le_of_lt hlt) hw hblk hb0 hb hpoints honly
      (hself hspace) hn
  refine ⟨h.files.of_frame hframe hA, h.extended.written h.files hw hb hpoints hkept,
    fun hk hx => ?_, fun {x} hx hout => ?_,
    fun hspace => (hstored hspace).inside, fun hspace => (hstored hspace).mapped, h.size, h.mode⟩
  · rw [h.files.fileByte_range hw hblk hb0 hb hpoints honly hn hx, if_neg fun hc => hk hc.2.1,
      h.other hk hx]
  · rw [h.files.fileByte_range hw hblk hb0 hb hpoints honly hn hx,
      if_neg fun hc => by omega, h.outside hx (by omega)]

/-- How a turn of the loop of `WriteFile` ends: all bytes have been written; or there is no block
for the next of them; or those that lie in its block have been written. -/
inductive Turned (e : Env) (f : κ → Inode) (s : State) (k : κ) (buf : Bytes)
    (offset count done : Nat) : Turn (Nat × Inode) (Nat × Inode) → State → Prop
  | finished (hle : count ≤ done) : Turned e f s k buf offset count done (.leave (done, f k)) s
  | full {inode : Inode} {t : State} (hlt : done < count)
      (hf : Fetched e f s k ((offset + done) / s.super.blockSize) (0, inode) t) :
      Turned e f s k buf offset count done (.leave (done, inode)) t
  | wrote {b c n : Nat} {inode : Inode} {t u : State} {blk : Bytes} (hlt : done < count)
      (hf : Fetched e f s k ((offset + done) / s.super.blockSize) (b, inode) t) (hb : b ≠ 0)
      (hn : n = min (count - done) (s.super.blockSize - (offset + done) % s.super.blockSize))
      (hblk : ∀ j, j < t.super.blockSize → blk j = t.block e b j)
      (hw : Written e b
        (copyIn blk ((offset + done) % s.super.blockSize) n fun j => buf (done + j)) (t.at c) u) :
      Turned e f s k buf offset count done (.again (done + n, inode)) u

include he in
/-- **One turn of the loop of `WriteFile`.** -/
theorem writeTurn_turned {buf : Bytes} {offset count done : Nat} (h : Files e f s)
    (hlt : offset + count < 2 ^ 32) :
    Ends (writeTurn e buf offset count (done, f k)) s (Unfit s .block)
      (Turned e f s k buf offset count done) := by
  have hsize := h.consistent.roles.size_pos
  rw [writeTurn]
  dsimp only
  by_cases hdone : done < count
  · rw [if_pos hdone]
    refine Ends.step (a := s.super) rfl ?_
    have hx : offset + done < 2 ^ 32 := by omega
    obtain ⟨hmax, hreach⟩ := byte_in_range hsize hx
    rw [if_neg (Nat.ne_of_gt hsize), blockOf_eq hx]
    dsimp only
    refine Ends.bind (writeTarget_fetched he h hmax hreach) ?_
    rintro ⟨b, inode⟩ t hf
    dsimp only
    by_cases hb : b = 0
    · rw [if_pos hb]
      subst hb
      exact Ends.pure (.full hdone hf)
    · rw [if_neg hb]
      refine Ends.step (pageAlloc_run he) ?_
      simp only [Bool.not_true, Bool.false_eq_true, if_false]
      refine Ends.step (load_run he b) ?_
      dsimp only
      obtain ⟨v, hv, hw⟩ := writeBlock_written (s := t.at (t.clock + 2)) he b
        (copyIn (copyOut e t.disk (t.origin e b) t.super.blockSize)
          ((offset + done) % s.super.blockSize) (bytesInBlock s.super.blockSize
            ((offset + done) % s.super.blockSize) (count - done)) fun i => buf (done + i))
      refine Ends.step hv ?_
      exact Ends.pure (.wrote hdone hf hb (bytesInBlock_eq _ _ _) (fun j hj => copyOut_of_lt hj) hw)
  · rw [if_neg hdone]
    exact Ends.pure (.finished (Nat.le_of_not_lt hdone))

/-- The block written to is a block of data, and nothing but byte `a` and those beside it are in
it. -/
theorem Target.only_byte {a c b : Nat} {inode : Inode}
    (ht : Target e f s k (a / s.super.blockSize) (b, inode) t) (hb : b ≠ 0)
    (p : (κ × Nat) × List Nat) (hp : ((t.at c).shape κ).Leaf p)
    (href : ((t.at c).forest e (Function.update f k inode)).ref p = b) :
    p = (t.at c).bytePos k a := by
  have hgeo := ht.extended.frame.layout.geometry
  have hp : (t.shape κ).Leaf p := hp
  rw [State.shape_congr hgeo] at hp
  have hplace : (t.at c).bytePos k a = s.bytePos k a := bytePos_congr hgeo k a
  rw [hplace]
  exact ht.only hb hp href

include he in
theorem writeTurn_ends {buf : Bytes} {offset size count done : Nat} {inode : Inode}
    (h : Progress e f s k buf offset size done inode t) (hle : done ≤ count)
    (hlt : offset + count < 2 ^ 32) :
    Ends (writeTurn e buf offset count (done, inode)) t (Unfit t .block) fun r u =>
      r.Meets (fun st => done < st.1 ∧ st.1 ≤ count ∧ Progress e f s k buf offset size st.1 st.2 u)
        fun st => Progress e f s k buf offset size st.1 st.2 u ∧ st.1 ≤ count ∧
          (st.1 = count ∨ u.noSpace = true) := by
  have hsize := h.files.consistent.roles.size_pos
  have hinode : Function.update f k inode k = inode := Function.update_self k inode f
  have hturn : Ends (writeTurn e buf offset count (done, Function.update f k inode k)) t
      (Unfit t .block) (Turned e (Function.update f k inode) t k buf offset count done) :=
    writeTurn_turned he h.files hlt
  rw [hinode] at hturn
  refine hturn.mono fun r u hr => ?_
  cases hr with
  | finished hge =>
      rw [hinode]
      exact ⟨h, hle, .inl (Nat.le_antisymm hle hge)⟩
  | full hdone hf =>
      have hx : offset + done < 2 ^ 32 := by omega
      have ht := hf.target h.files (byte_in_range hsize hx).1
      have hp : Progress e f s k buf offset size done _ u := h.target hx ht
      exact ⟨hp, hle, .inr (ht.noSpace rfl)⟩
  | @wrote b c n inode' u w blk hdone hf hb hn hblk hw =>
      have hx : offset + done < 2 ^ 32 := by omega
      have ht := hf.target h.files (byte_in_range hsize hx).1
      have hmod := Nat.mod_lt (offset + done) hsize
      have hat : Frame e (fun _ => False) u (u.at c) := Frame.at_right u c
      have hbs : (u.at c).super.blockSize = t.super.blockSize :=
        ht.extended.frame.layout.geometry.blockSize
      have hself : Function.update (Function.update f k inode) k inode' =
          Function.update f k inode' := Function.update_idem inode inode' f
      have hpoints := ht.notPoints hb
      have honly := ht.only_byte (c := c) hb
      have hhere := ht.self hb
      rw [hself] at hpoints honly hhere
      refine ⟨by omega, by omega, ?_⟩
      rw [← hbs] at hw hn hmod
      refine ((h.target hx ht).at c).written (by omega) hw hblk hb (fun hy => ?_)
        (hat.owned (ht.owned hb)) hpoints honly (fun hspace => ?_) (by omega)
      · exact h.extended.refers hy (ht.kept (h.extended.frame.kept hy))
      · have hplace : (u.at c).bytePos k (offset + done) = t.bytePos k (offset + done) :=
          bytePos_congr ht.extended.frame.layout.geometry k _
        rw [hplace]
        exact hhere hspace

/-- The map of a file does not change with its size. -/
theorem forest_setSize (k : κ) (v : Nat) :
    s.forest e (Function.update f k ((f k).setSize v)) = s.forest e f := by
  rw [State.forest, State.forest]
  congr 1
  funext r
  by_cases hk : r.1 = k
  · rw [hk, Function.update_self, Inode.iBlock_setSize]
  · rw [Function.update_of_ne hk]

theorem forest_start (k : κ) (v : Nat) :
    s.forest e (Function.update f k (if v > (f k).iSize then (f k).setSize v else f k)) =
      s.forest e f := by
  split
  · exact forest_setSize k v
  · rw [Function.update_eq_self]

/-- The inode with which the loop of `WriteFile` begins. -/
theorem Progress.start {buf : Bytes} {count offset : Nat} (h : Files e f s)
    (hlt : offset + count < 2 ^ 32) :
    Progress e f s k buf offset (max (f k).iSize (offset + count)) 0
      (if offset + count > (f k).iSize then (f k).setSize (offset + count) else f k) s := by
  have hforest := forest_start (e := e) (f := f) (s := s) k (offset + count)
  refine ⟨h.of_forest hforest, ⟨Frame.refl s, fun _ => .inl (by rw [hforest])⟩,
    fun _ _ => fileByte_of_forest hforest, fun _ _ => fileByte_of_forest hforest,
    fun _ hlo hhi => by omega, fun _ hlo hhi => by omega, ?_, ?_⟩
  · split
    · rw [Inode.iSize_setSize _ hlt]
      omega
    · omega
  · split
    · rw [Inode.iMode_setSize]
    · rfl

omit [DecidableEq κ] in
/-- **The rule for `WriteFile`**: what its turns keep up holds at its end. -/
theorem writeFile_of_turns {F : Fault → Prop} {I Q : Nat × Inode → State → Prop} {buf : Bytes}
    {count offset n : Nat} (hdir : (f k).isDir = false) (hlt : offset + count < 2 ^ 32)
    (hn : count < n)
    (hstart : I (0, if offset + count > (f k).iSize then (f k).setSize (offset + count) else f k) s)
    (hturn : ∀ st t, st.1 ≤ count → I st t → Ends (writeTurn e buf offset count st) t F fun r u =>
      r.Meets (fun st' => st.1 < st'.1 ∧ st'.1 ≤ count ∧ I st' u) fun st' => Q st' u) :
    Ends (writeFile e (f k) buf count offset n) s F fun r t =>
      ∃ st, r = ((st.1 : Int), st.2) ∧ Q st t := by
  rw [writeFile, hdir, if_neg Bool.false_ne_true, u64_of_lt (by omega)]
  dsimp only
  refine Ends.bind (P := Q)
    (Ends.loop (I := fun m st t => m = count - st.1 ∧ st.1 ≤ count ∧ I st t) ?_
      (k := count) ⟨rfl, Nat.zero_le _, hstart⟩ hn) fun st t hq => Ends.pure ⟨st, rfl, hq⟩
  rintro m st t ⟨rfl, hle, hst⟩
  refine (hturn st t hle hst).mono ?_
  rintro (st' | st') u hmeets
  · obtain ⟨hstep, hle', hst'⟩ := hmeets
    exact ⟨count - st'.1, by omega, rfl, hle', hst'⟩
  · exact hmeets

include he in
/-- **What `WriteFile` does**, however it ends: it has written `done` bytes of the buffer, which
are all of them while there is space. -/
theorem writeFile_ends {buf : Bytes} {count offset n : Nat} (h : Files e f s)
    (hdir : (f k).isDir = false) (hlt : offset + count < 2 ^ 32) (hn : count < n) :
    Ends (writeFile e (f k) buf count offset n) s (Unfit s .block) fun r t =>
      ∃ done : Nat, r.1 = done ∧ done ≤ count ∧ (done = count ∨ t.noSpace = true) ∧
        Progress e f s k buf offset (max (f k).iSize (offset + count)) done r.2 t := by
  refine (writeFile_of_turns (I := fun st t => Progress e f s k buf offset
    (max (f k).iSize (offset + count)) st.1 st.2 t) (Q := fun st t => Progress e f s k buf offset
      (max (f k).iSize (offset + count)) st.1 st.2 t ∧ st.1 ≤ count ∧
        (st.1 = count ∨ t.noSpace = true)) hdir hlt hn (Progress.start h hlt) ?_).mono ?_
  · rintro ⟨done, inode⟩ t hle hst
    exact (writeTurn_ends he hst hle hlt).mono_error fun _ hf =>
      hf.of_layout hst.extended.frame.layout
  · rintro r t ⟨st, rfl, hst, hle, hstop⟩
    exact ⟨st.1, rfl, hle, hstop, hst⟩

/-! ## A write, and a read of the same range -/

/-- All bytes of the buffer have been written and are read again, and nothing else has changed:
no other byte of the file, no other file, and no block in use that belongs to none of them. -/
structure WriteRight (e : Env) (f : κ → Inode) (s : State) (k : κ) (buf : Bytes)
    (count offset : Nat) (r : Int × Inode) (t : State) : Prop where
  returned : r.1 = count
  size : r.2.iSize = max (f k).iSize (offset + count)
  read (out : Bytes) {n : Nat} : count < n → ∃ out' c, readFile e r.2 out count offset n t =
    .ok (((count : Nat), out'), t.at c) ∧ ∀ j, j < count → out' j = buf j
  kept {x : Nat} : x < 2 ^ 32 → x < offset ∨ offset + count ≤ x →
    fileByte e (Function.update f k r.2) t k x = fileByte e f s k x
  other {k' : κ} {x : Nat} : k' ≠ k → x < 2 ^ 32 →
    fileByte e (Function.update f k r.2) t k' x = fileByte e f s k' x
  frame : Frame e (s.Refers e f) s t

omit [DecidableEq κ] in
include he in
/-- **What has been stored is read again.** -/
theorem Stored.read {buf : Bytes} {offset done m : Nat} (h : Stored e f s k buf offset done)
    (hsize : 0 < s.super.blockSize) (hdir : (f k).isDir = false)
    (hend : done = 0 ∨ offset + done ≤ (f k).iSize) (hlt : offset + done < 2 ^ 32) (out : Bytes)
    (hm : done < m) :
    ∃ out' c, readFile e (f k) out done offset m s = .ok (((done : Nat), out'), s.at c) ∧
      ∀ j, j < done → out' j = buf j := by
  have hread := readFile_ends (F := fun _ => False) he out offset hsize hdir
    (show offset + done < 2 ^ 64 by omega) hm
  obtain ⟨⟨got, out'⟩, t', hrun, ⟨c, rfl⟩, m', hgot, hm', hdelivered, hstop⟩ := hread.exists_ok
  have hfull : m' = done := by
    rcases hstop with hstop | hstop
    · omega
    · by_contra hne
      exact h.mapped (Nat.le_add_right offset m') (by omega) hstop
  subst hfull
  refine ⟨out', c, ?_, fun j hj => ?_⟩
  · rw [hrun]
    congr 2
    exact Prod.ext hgot rfl
  · have hj' := hdelivered (offset + j) (Nat.le_add_right offset j) (Nat.add_lt_add_left hj offset)
    have hbyte := h.inside (Nat.le_add_right offset j) (Nat.add_lt_add_left hj offset)
    rw [Nat.add_sub_cancel_left] at hj' hbyte
    exact hj'.2.trans hbyte

include he in
/-- **A write does what it should**, unless there is no block left or the descriptor of a group
that it comes to does not lie in the block that descriptors are read from. -/
theorem writeFile_right {buf : Bytes} {count offset n : Nat} (h : Files e f s)
    (hdir : (f k).isDir = false) (hlt : offset + count < 2 ^ 32) (hn : count < n) :
    Ends (writeFile e (f k) buf count offset n) s (Unfit s .block) fun r t =>
      t.noSpace = false → WriteRight e f s k buf count offset r t := by
  refine (writeFile_ends he h hdir hlt hn).mono ?_
  rintro ⟨code, inode⟩ t ⟨done, hcode, hle, hstop, hp⟩ hspace
  have hall : done = count := by
    rcases hstop with hstop | hfull
    · exact hstop
    · rw [hspace] at hfull
      cases hfull
  subst hall
  have hinode : Function.update f k inode k = inode := Function.update_self k inode f
  refine ⟨hcode, hp.size, fun out m hm => ?_, fun hx hout => hp.outside hx hout,
    fun hk hx => hp.other hk hx, hp.extended.frame⟩
  have hdir' : inode.isDir = false := by
    rw [Inode.isDir, hp.mode]
    exact hdir
  have hread := (hp.stored hspace).read (m := m) he hp.files.consistent.roles.size_pos
  rw [hinode] at hread
  refine hread hdir' (.inr ?_) hlt out hm
  rw [hp.size]
  exact Nat.le_max_right _ _

end Write

theorem files_empty (h : Consistent e s) : Files e (fun _ : Unit => ⟨fun _ => 0⟩) s where
  consistent := h
  unshared p _ _ _ hne := absurd (ref_empty p) hne
  owned {p} _ hne := absurd (ref_empty p) hne

end InfoKernel.Ext2
