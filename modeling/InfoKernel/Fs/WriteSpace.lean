import InfoKernel.Fs.FileBytes

/-!
# Where `WriteFile` runs out of space

`WriteFile` sets the size of the file before it writes, stops when there is no block for the next
bytes, and does not look at the code that `SetBlockNum` returns.  What it returns is what it has
stored if and only if there is room (`writeFile_stores_iff`):

* `absent` are the positions down to a block of data at which there is no block, and `lacking`
  those for a range of bytes.  `Roomy` compares how many they are with the count of free blocks.
* `Filled` says that between two states the blocks taken are those at given positions where there
  was nothing.  Then the free blocks have become fewer by the number of these positions
  (`Filled.count`), and two such steps make one (`Filled.trans`).
* `Leaked` says that no block is left and that one has been taken to which nothing refers.  Nothing
  that happens later mends it (`Leaked.extended`).
* A block that `WriteFile` has fetched leaves one or the other behind (`Fetched.filled`): when
  `SetBlockNum` succeeds, what it has taken is the way to the block, and when it fails there were
  too few free blocks for that way (`Files.free_lt_absent`).  `Standing` is the invariant of the
  loop that follows from this.

On a volume whose counts are right `AllocBlock` fails if and only if no block is free, so that the
number of free blocks decides at which of its calls it does.
-/

namespace InfoKernel.Ext2

open Lib

variable {κ : Type*} [DecidableEq κ] {e : Env} {s t u : State} {f g g' : κ → Inode} {k : κ}
  {p q : (κ × Nat) × List Nat}

/-! ## What a write needs -/

/-- The positions from the root of a map down to `p` at which a block is missing. -/
def absent (e : Env) (f : κ → Inode) (s : State) (p : (κ × Nat) × List Nat) :
    Finset ((κ × Nat) × List Nat) :=
  ((Finset.range (p.2.length + 1)).image fun n => (p.1, p.2.take n)).filter fun q =>
    (s.forest e f).ref q = 0

theorem mem_absent : q ∈ absent e f s p ↔ OnWay p q ∧ (s.forest e f).ref q = 0 := by
  rw [absent, Finset.mem_filter, Finset.mem_image]
  refine and_congr_left fun _ => ?_
  constructor
  · rintro ⟨n, -, rfl⟩
    exact ⟨rfl, List.take_prefix n p.2⟩
  · rintro ⟨hroot, hpre⟩
    refine ⟨q.2.length, Finset.mem_range.mpr (Nat.lt_succ_of_le hpre.length_le), ?_⟩
    exact Prod.ext hroot.symm (List.prefix_iff_eq_take.mp hpre).symm

omit [DecidableEq κ] in
/-- What is on the way to a position is one. -/
theorem OnWay.pos (hon : OnWay p q) (hp : (s.shape κ).Pos p) : (s.shape κ).Pos q := by
  obtain ⟨r, is⟩ := q
  obtain ⟨hroot, hpre⟩ := hon
  have hroot : r = p.1 := hroot
  rw [hroot]
  exact hp.of_prefix hpre

omit [DecidableEq κ] in
/-- Where a block is missing, one is missing below. -/
theorem OnWay.ref_eq_zero (hon : OnWay p q) (hzero : (s.forest e f).ref q = 0) :
    (s.forest e f).ref p = 0 := by
  obtain ⟨hroot, is, his⟩ := hon
  have hp : p = (q.1, q.2 ++ is) := Prod.ext hroot.symm his.symm
  rw [hp, Forest.ref_append]
  have hq : (s.forest e f).ref (q.1, q.2) = 0 := hzero
  rw [hq, walk_zero]

theorem absent_self (hzero : (s.forest e f).ref p = 0) : p ∈ absent e f s p :=
  mem_absent.mpr ⟨⟨rfl, List.prefix_rfl⟩, hzero⟩

theorem absent_of_ne_zero (hne : (s.forest e f).ref p ≠ 0) : absent e f s p = ∅ := by
  refine Finset.eq_empty_of_forall_notMem fun q hq => ?_
  obtain ⟨hon, hzero⟩ := mem_absent.mp hq
  exact hne (hon.ref_eq_zero hzero)

/-- The positions at which a block is missing for the first `d` bytes from `offset` on: those of
the data, and of the pointer blocks above them. -/
def lacking (e : Env) (f : κ → Inode) (s : State) (k : κ) (offset d : Nat) :
    Finset ((κ × Nat) × List Nat) :=
  (Finset.range d).biUnion fun j => absent e f s (s.bytePos k (offset + j))

/-- How many blocks these bytes take. -/
def needed (e : Env) (f : κ → Inode) (s : State) (k : κ) (offset d : Nat) : Nat :=
  (lacking e f s k offset d).card

/-- **There is room for the write**: there are the blocks for all of its bytes, or it does not
reach behind the end and the free blocks run out between one block of data and the next. -/
def Roomy (e : Env) (f : κ → Inode) (s : State) (k : κ) (count offset : Nat) : Prop :=
  needed e f s k offset count ≤ s.super.sFreeBlocksCount ∨
    (offset + count ≤ (f k).iSize ∧
      ∃ d, d ≤ count ∧ needed e f s k offset d = s.super.sFreeBlocksCount)

section Needed

variable {offset d d' : Nat}

theorem mem_lacking : q ∈ lacking e f s k offset d ↔
    ∃ j, j < d ∧ q ∈ absent e f s (s.bytePos k (offset + j)) := by
  rw [lacking, Finset.mem_biUnion]
  simp only [Finset.mem_range]

theorem lacking_mono (h : d ≤ d') : lacking e f s k offset d ⊆ lacking e f s k offset d' := by
  intro q hq
  obtain ⟨j, hj, hq⟩ := mem_lacking.mp hq
  exact mem_lacking.mpr ⟨j, by omega, hq⟩

theorem needed_mono (h : d ≤ d') : needed e f s k offset d ≤ needed e f s k offset d' :=
  Finset.card_le_card (lacking_mono h)

/-- More bytes of one block need what the first of them needs. -/
theorem lacking_block (hlt : d < d')
    (hsame : ∀ j, d ≤ j → j < d' → s.bytePos k (offset + j) = s.bytePos k (offset + d)) :
    lacking e f s k offset d' =
      lacking e f s k offset d ∪ absent e f s (s.bytePos k (offset + d)) := by
  ext q
  rw [Finset.mem_union]
  constructor
  · intro hq
    obtain ⟨j, hj, hq⟩ := mem_lacking.mp hq
    by_cases hjd : j < d
    · exact .inl (mem_lacking.mpr ⟨j, hjd, hq⟩)
    · rw [hsame j (Nat.le_of_not_lt hjd) hj] at hq
      exact .inr hq
  · rintro (hq | hq)
    · exact lacking_mono (Nat.le_of_lt hlt) hq
    · exact mem_lacking.mpr ⟨d, hlt, hq⟩

end Needed

/-! ## The blocks that are taken -/

/-- The counts tell whether a block is free. -/
theorem Counted.free_pos {n : Nat} (h : Counted e s) (hn : Free e s .block n) :
    0 < s.super.sFreeBlocksCount := by
  have hcount : _ = s.super.sFreeBlocksCount := h.ncard_free .block
  rw [← hcount, Set.ncard_pos (h.finite_free .block)]
  exact ⟨n, hn⟩

theorem Counted.free_eq_zero (h : Counted e s) (hnone : ∀ n, ¬ Free e s .block n) :
    s.super.sFreeBlocksCount = 0 := by
  have hcount : _ = s.super.sFreeBlocksCount := h.ncard_free .block
  rw [← hcount, Set.ncard_eq_zero (h.finite_free .block)]
  exact Set.eq_empty_of_forall_notMem hnone

theorem Counted.ne_zero {n : Nat} (h : Counted e s) (hn : Free e s .block n) : n ≠ 0 :=
  h.consistent.ne_zero hn

/-- The positions of `L`, at which there was nothing, refer to blocks that were free, and no
other block has been taken. -/
structure Filled (e : Env) (f : κ → Inode) (s : State) (L : Finset ((κ × Nat) × List Nat))
    (g : κ → Inode) (t : State) : Prop where
  layout : SameLayout e s t
  free {n : Nat} : Free e t .block n → Free e s .block n
  counted : Counted e s → Counted e t
  pos {q : (κ × Nat) × List Nat} : q ∈ L → (s.shape κ).Pos q
  zero {q : (κ × Nat) × List Nat} : q ∈ L → (s.forest e f).ref q = 0
  new {q : (κ × Nat) × List Nat} : q ∈ L → Free e s .block ((t.forest e g).ref q)
  old {q : (κ × Nat) × List Nat} : (s.shape κ).Pos q → q ∉ L →
    (t.forest e g).ref q = (s.forest e f).ref q
  taken {n : Nat} : Free e s .block n → ¬ Free e t .block n → ∃ q ∈ L, (t.forest e g).ref q = n

namespace Filled

variable {L M : Finset ((κ × Nat) × List Nat)}

omit [DecidableEq κ] in
theorem pos_right (h : Filled e f s L g t) (hp : (s.shape κ).Pos q) : (t.shape κ).Pos q := by
  rwa [State.shape_congr h.layout.geometry]

omit [DecidableEq κ] in
/-- Nothing has been taken. -/
theorem of_same (f : κ → Inode) (s : State) (c : Nat) (b : Bool) :
    Filled e f s ∅ f { s with clock := c, noSpace := b } where
  layout := ⟨SuperBlock.SameGeometry.refl s.super, fun _ => rfl, fun _ => rfl⟩
  free hf := ⟨hf.group, hf.lowest, hf.clear⟩
  counted hc := hc.same c b
  pos hq := absurd hq (Finset.notMem_empty _)
  zero hq := absurd hq (Finset.notMem_empty _)
  new hq := absurd hq (Finset.notMem_empty _)
  old _ _ := rfl
  taken hn hn' := absurd ⟨hn.group, hn.lowest, hn.clear⟩ hn'

omit [DecidableEq κ] in
theorem same (h : Filled e f s L g t) (c : Nat) (b : Bool) :
    Filled e f s L g { t with clock := c, noSpace := b } where
  layout := h.layout.trans ⟨SuperBlock.SameGeometry.refl t.super, fun _ => rfl, fun _ => rfl⟩
  free hf := h.free ⟨hf.group, hf.lowest, hf.clear⟩
  counted hc := (h.counted hc).same c b
  pos := h.pos
  zero := h.zero
  new := h.new
  old := h.old
  taken hn hn' := h.taken hn fun hf => hn' ⟨hf.group, hf.lowest, hf.clear⟩

omit [DecidableEq κ] in
theorem of_forest (h : Filled e f s L g t) {f' g' : κ → Inode}
    (hf : s.forest e f' = s.forest e f) (hg : t.forest e g' = t.forest e g) :
    Filled e f' s L g' t where
  layout := h.layout
  free := h.free
  counted := h.counted
  pos := h.pos
  zero hq := hf ▸ h.zero hq
  new hq := hg ▸ h.new hq
  old hp hq := by
    rw [hf, hg]
    exact h.old hp hq
  taken hn hn' := hg ▸ h.taken hn hn'

theorem trans (hs : Consistent e s) (h : Filled e f s L g t) (h' : Filled e g t M g' u) :
    Filled e f s (L ∪ M) g' u where
  layout := h.layout.trans h'.layout
  free hf := h.free (h'.free hf)
  counted hc := h'.counted (h.counted hc)
  pos {q} hq := by
    rcases Finset.mem_union.mp hq with hq | hq
    · exact h.pos hq
    · rw [← State.shape_congr h.layout.geometry]
      exact h'.pos hq
  zero {q} hq := by
    by_cases hL : q ∈ L
    · exact h.zero hL
    · have hM := (Finset.mem_union.mp hq).resolve_left hL
      have hpos := h'.pos hM
      rw [State.shape_congr h.layout.geometry] at hpos
      rw [← h.old hpos hL, h'.zero hM]
  new {q} hq := by
    by_cases hM : q ∈ M
    · exact h.free (h'.new hM)
    · have hL := (Finset.mem_union.mp hq).resolve_right hM
      rw [h'.old (h.pos_right (h.pos hL)) hM]
      exact h.new hL
  old {q} hp hq := by
    rw [Finset.mem_union, not_or] at hq
    rw [h'.old (h.pos_right hp) hq.2, h.old hp hq.1]
  taken {n} hn hn' := by
    by_cases ht : Free e t .block n
    · obtain ⟨q, hq, href⟩ := h'.taken ht hn'
      exact ⟨q, Finset.mem_union_right L hq, href⟩
    · obtain ⟨q, hq, rfl⟩ := h.taken hn ht
      refine ⟨q, Finset.mem_union_left M hq, ?_⟩
      refine h'.old (h.pos_right (h.pos hq)) fun hM => ?_
      exact hs.ne_zero hn (h'.zero hM)

omit [DecidableEq κ] in
/-- Writing a block of data takes nothing. -/
theorem written {b : Nat} {buf : Bytes} (h : Filled e f s L g t) (hf : Files e g t)
    (hw : Written e b buf t u) (hb : Owned e t b) (hpoints : ¬ t.Points e g b) :
    Filled e f s L g u := by
  have hr := hf.consistent.roles
  have href : ∀ {q}, (s.shape κ).Pos q → (u.forest e g).ref q = (t.forest e g).ref q := fun hq =>
    hf.mapped.ref_of_frame (hw.frame hr hb.data) (fun y hy hyb => hpoints (hyb ▸ hy))
      (h.pos_right hq)
  refine ⟨h.layout.trans (hw.layout hr hb.data), fun hn => h.free ((hw.free_iff hr hb.data).mp hn),
    fun hc => (h.counted hc).written hw hb.data, h.pos, h.zero, fun hq => ?_, fun hp hq =>
      ?_, fun hn hn' => ?_⟩
  · rw [href (h.pos hq)]
    exact h.new hq
  · rw [href hp, h.old hp hq]
  · rw [hw.free_iff hr hb.data] at hn'
    obtain ⟨q, hq, hqn⟩ := h.taken hn hn'
    exact ⟨q, hq, (href (h.pos hq)).trans hqn⟩

omit [DecidableEq κ] in
/-- **As many blocks are taken as there are positions.** -/
theorem count (h : Filled e f s L g t) (hc : Counted e s) (hf : Files e g t) :
    s.super.sFreeBlocksCount = t.super.sFreeBlocksCount + L.card := by
  have hs : _ = s.super.sFreeBlocksCount := hc.ncard_free .block
  have ht : _ = t.super.sFreeBlocksCount := (h.counted hc).ncard_free .block
  have hused : ∀ {q}, q ∈ L → Owned e t ((t.forest e g).ref q) := by
    intro q hq
    exact hf.owned (h.pos_right (h.pos hq)) (hc.ne_zero (h.new hq))
  have hinj : Set.InjOn (fun q => (t.forest e g).ref q) (L : Set ((κ × Nat) × List Nat)) := by
    intro q hq q' hq' heq
    exact hf.unshared q q' (h.pos_right (h.pos hq)) (h.pos_right (h.pos hq'))
      (hc.ne_zero (h.new hq)) heq
  have hsplit : {n | Free e s .block n} = {n | Free e t .block n} ∪
      ((L.image fun q => (t.forest e g).ref q : Finset Nat) : Set Nat) := by
    ext n
    rw [Set.mem_union, Finset.mem_coe, Finset.mem_image]
    constructor
    · intro hn
      by_cases hn' : Free e t .block n
      · exact .inl hn'
      · exact .inr (h.taken hn hn')
    · rintro (hn | ⟨q, hq, rfl⟩)
      · exact h.free hn
      · exact h.new hq
  have hdisj : Disjoint {n | Free e t .block n}
      ((L.image fun q => (t.forest e g).ref q : Finset Nat) : Set Nat) := by
    rw [Set.disjoint_left]
    intro n hn hmem
    obtain ⟨q, hq, rfl⟩ := Finset.mem_image.mp (Finset.mem_coe.mp hmem)
    exact (hused hq).used hn
  rw [← hs, ← ht, hsplit, Set.ncard_union_eq hdisj ((h.counted hc).finite_free .block)
    (Finset.finite_toSet _), Set.ncard_coe_finset, Finset.card_image_of_injOn hinj]

end Filled

/-! ## A block that nothing refers to -/

/-- No block is left, and one has been taken that nothing refers to. -/
def Leaked (e : Env) (s : State) (g : κ → Inode) (t : State) : Prop :=
  (∀ n, ¬ Free e t .block n) ∧
    ∃ b, Free e s .block b ∧ ∀ q, (t.shape κ).Pos q → (t.forest e g).ref q ≠ b

namespace Leaked

omit [DecidableEq κ] in
theorem of_free (h : Leaked e t g u) (hfree : ∀ {n}, Free e t .block n → Free e s .block n) :
    Leaked e s g u := by
  obtain ⟨hnone, b, hb, hrefs⟩ := h
  exact ⟨hnone, b, hfree hb, hrefs⟩

omit [DecidableEq κ] in
theorem at_clock (h : Leaked e s g t) (c : Nat) : Leaked e s g (t.at c) := by
  obtain ⟨hnone, b, hb, hrefs⟩ := h
  exact ⟨fun n hn => hnone n ⟨hn.group, hn.lowest, hn.clear⟩, b, hb, hrefs⟩

omit [DecidableEq κ] in
/-- What happens later does not help. -/
theorem extended (h : Leaked e s g t) (hext : Extended e g t g' u) : Leaked e s g' u := by
  obtain ⟨hnone, b, hb, hrefs⟩ := h
  refine ⟨fun n hn => hnone n (hext.frame.free hn), b, hb, fun q hq => ?_⟩
  rw [State.shape_congr hext.frame.layout.geometry] at hq
  rcases hext.refs hq with hsame | hfree
  · rw [hsame]
    exact hrefs q hq
  · exact absurd hfree (hnone _)

omit [DecidableEq κ] in
theorem written {b : Nat} {buf : Bytes} (h : Leaked e s g t) (hf : Files e g t)
    (hw : Written e b buf t u) (hb : Owned e t b) (hpoints : ¬ t.Points e g b) :
    Leaked e s g u := by
  have hr := hf.consistent.roles
  have hframe := hw.frame hr hb.data
  obtain ⟨hnone, x, hx, hrefs⟩ := h
  refine ⟨fun n hn => hnone n ((hw.free_iff hr hb.data).mp hn), x, hx, fun q hq => ?_⟩
  rw [State.shape_congr hframe.layout.geometry] at hq
  rw [hf.mapped.ref_of_frame hframe (fun y hy hyb => hpoints (hyb ▸ hy)) hq]
  exact hrefs q hq

end Leaked

/-! ## One block of the file -/

section Assign

variable {b : Nat} {code : Int} (h : Files e f s) (hnew : NewBlock e b s t)
  (ha : Assigned e f t g u p b code)

include h hnew ha

/-- A block taken by the allocation and by `SetBlockNum` is the new one, or a pointer block on the
way. -/
theorem Files.taken_assign {n : Nat} (hn : Free e s .block n) (hn' : ¬ Free e u .block n) :
    n = b ∨ ∃ q, (s.shape κ).Inner q ∧ q ∈ absent e f s p ∧ (u.forest e g).ref q = n := by
  have hframe : Frame e (fun _ => False) s t := hnew.frame
  by_cases hnb : n = b
  · exact .inl hnb
  · obtain ⟨q, hq, hon, hzero, href⟩ :=
      ha.taken_on_way (hframe.consistent h.consistent) (hnew.free_of_ne hn hnb) hn'
    rw [State.shape_congr hframe.layout.geometry] at hq
    rw [h.mapped.ref_of_frame hframe (fun _ _ => id) hq.pos] at hzero
    exact .inr ⟨q, hq, mem_absent.mpr ⟨hon, hzero⟩, href⟩

/-- **When `SetBlockNum` succeeds**, all blocks taken are on the way to the new one. -/
theorem Files.filled_assign (hp : (s.shape κ).Leaf p) (hzero : (s.forest e f).ref p = 0)
    (hcode : code = 0) :
    Filled e f s (absent e f s p) g u ∧ (u.forest e g).ref p = b := by
  have hframe : Frame e (fun _ => False) s t := hnew.frame
  have hself : (u.forest e g).ref p = b := by
    rcases ha.outcome with ⟨-, hself, -⟩ | ⟨hfail, -, -⟩
    · exact hself
    · rw [hcode] at hfail
      exact absurd hfail (by decide)
  refine ⟨⟨hnew.layout.trans ha.grown.frame.layout,
    fun hn => hframe.free (ha.grown.frame.free hn), fun hc => ha.grown.counted (hc.newBlock hnew),
    fun hq => (mem_absent.mp hq).1.pos hp.pos, fun hq => (mem_absent.mp hq).2, fun {q} hq => ?_,
    fun {q} hq hnot => ?_, fun {n} hn hn' => ?_⟩, hself⟩
  · obtain ⟨hon, hq0⟩ := mem_absent.mp hq
    have hne : (u.forest e g).ref q ≠ 0 := by
      intro hu
      have hb := hon.ref_eq_zero hu
      rw [hself] at hb
      exact hnew.ne_zero h.consistent hb
    rcases h.assigned_refs hnew ha (hon.pos hp.pos) with hsame | ⟨-, hfree⟩ | ⟨-, hval, -⟩
    · exact absurd (hsame.trans hq0) hne
    · exact hframe.free hfree
    · rw [hval]
      exact hnew.free
  · rcases h.assigned_refs hnew ha hq with hsame | ⟨hin, hfree⟩ | ⟨hqp, -, -⟩
    · exact hsame
    · have href := h.mapped.ref_of_frame hframe (fun _ _ => id) hq
      rw [← State.shape_congr hframe.layout.geometry] at hin
      rcases ha.way q hin with hon | hsame
      · have hne : (t.forest e f).ref q ≠ 0 := fun hq0 =>
          hnot (mem_absent.mpr ⟨hon, href.symm.trans hq0⟩)
        rcases ha.grown.inner hin with hsame | ⟨hq0, -⟩
        · exact hsame.trans href
        · exact absurd hq0 hne
      · exact hsame.trans href
    · rw [hqp] at hnot
      exact absurd (absent_self hzero) hnot
  · rcases h.taken_assign hnew ha hn hn' with rfl | ⟨q, -, hq, href⟩
    · exact ⟨p, absent_self hzero, hself⟩
    · exact ⟨q, hq, href⟩

omit [DecidableEq κ] in
/-- **When it fails**, nothing refers to the new block. -/
theorem Files.leaked_assign (hc : Counted e s) (hcode : code = -2) : Leaked e s g u := by
  refine ⟨(ha.stuck hcode).none (ha.grown.counted (hc.newBlock hnew)), b, hnew.free,
    fun q hq href => ?_⟩
  rw [State.shape_congr ha.grown.frame.layout.geometry,
    State.shape_congr hnew.layout.geometry] at hq
  have hzero := (h.assigned_self hnew ha hq href).2
  rw [hcode] at hzero
  exact absurd hzero (by decide)

/-- There were fewer free blocks than the way to the new one takes. -/
theorem Files.free_lt_absent (hc : Counted e s) (hp : (s.shape κ).Leaf p)
    (hzero : (s.forest e f).ref p = 0)
    (hcode : code = -2) :
    s.super.sFreeBlocksCount < (absent e f s p).card := by
  have hframe : Frame e (fun _ => False) s t := hnew.frame
  obtain ⟨⟨q, hq, hon, hq0⟩, hnone, -⟩ := ha.stuck hcode
  have hq0' : (s.forest e f).ref q = 0 := by
    rw [State.shape_congr ha.grown.frame.layout.geometry] at hq
    rw [← h.mapped.ref_of_frame hframe (fun _ _ => id)
      (State.shape_congr hframe.layout.geometry ▸ hq.pos)]
    exact ha.grown.ref_eq_zero hq hq0
  have hmem : q ∈ absent e f s p := mem_absent.mpr ⟨hon, hq0'⟩
  have hinner : (s.shape κ).Inner q := by
    rwa [State.shape_congr ha.grown.frame.layout.geometry,
      State.shape_congr hframe.layout.geometry] at hq
  -- the new block stands for the leaf, and the pointer block that is missing for none
  have hsub : {n | Free e s .block n} ⊆ (((absent e f s p).erase q).image fun r =>
      if r = p then b else (u.forest e g).ref r : Finset Nat) := by
    intro n hn
    have hn : Free e s .block n := hn
    have hn' := hnone (ha.grown.counted (hc.newBlock hnew)) n
    refine Finset.mem_coe.mpr (Finset.mem_image.mpr ?_)
    rcases h.taken_assign hnew ha hn hn' with rfl | ⟨r, hr, hrp, href⟩
    · refine ⟨p, Finset.mem_erase.mpr ⟨?_, absent_self hzero⟩, if_pos rfl⟩
      rintro rfl
      exact hinner.not_leaf hp
    · refine ⟨r, Finset.mem_erase.mpr ⟨?_, hrp⟩, ?_⟩
      · rintro rfl
        exact hc.ne_zero hn (href.symm.trans hq0)
      · rw [if_neg ?_, href]
        rintro rfl
        exact hr.not_leaf hp
  have hle := Set.ncard_le_ncard hsub (Finset.finite_toSet _)
  rw [hc.ncard_free, Set.ncard_coe_finset] at hle
  have himage := Finset.card_image_le (s := (absent e f s p).erase q)
    (f := fun r => if r = p then b else (u.forest e g).ref r)
  exact Nat.lt_of_le_of_lt (Nat.le_trans hle himage) (Finset.card_erase_lt_of_mem hmem)

end Assign

/-- **A block of the file**: all that has been taken is on the way to it, or there were too few
blocks for its way and it has been lost. -/
theorem Fetched.filled {i b : Nat} {inode : Inode} (hf : Fetched e f s k i (b, inode) t)
    (h : Files e f s) (hc : Counted e s) (hi : i < maxBlocks s.super.ptrsPerBlock) (hb : b ≠ 0) :
    (Filled e f s (absent e f s (filePos s.super.ptrsPerBlock k i)) (Function.update f k inode) t ∧
      (t.forest e (Function.update f k inode)).ref (filePos s.super.ptrsPerBlock k i) = b) ∨
    (0 < s.super.sFreeBlocksCount ∧ s.super.sFreeBlocksCount <
      (absent e f s (filePos s.super.ptrsPerBlock k i)).card ∧
      Leaked e s (Function.update f k inode) t) := by
  have hleaf := filePos_leaf h.consistent.roles.size_pos hi k
  cases hf with
  | mapped c hne =>
      rw [absent_of_ne_zero hne, Function.update_eq_self]
      exact .inl ⟨Filled.of_same f s c s.noSpace, rfl⟩
  | full hzero hno => exact absurd rfl hb
  | @new c b t code inode _ hzero hnew ha hinode =>
      have hat : Filled e f s ∅ f (s.at c) := Filled.of_same f s c s.noSpace
      have hfiles : Files e f (s.at c) := h.of_frame (Frame.at_right s c) fun _ _ => id
      rcases ha.outcome with ⟨hcode, -, -⟩ | ⟨hcode, -, -⟩
      · obtain ⟨hfilled, hself⟩ := hfiles.filled_assign hnew ha hleaf hzero hcode
        have hall := hat.trans h.consistent hfilled
        rw [Finset.empty_union] at hall
        exact .inl ⟨hall, hself⟩
      · refine .inr ⟨hc.free_pos (hat.free hnew.free), ?_, ?_⟩
        · exact hfiles.free_lt_absent hnew ha (hat.counted hc) hleaf hzero hcode
        · exact (hfiles.leaked_assign hnew ha (hat.counted hc) hcode).of_free hat.free

/-- Without a block for it, none was free. -/
theorem Fetched.none_free {i : Nat} {inode : Inode} (hf : Fetched e f s k i (0, inode) t)
    (hc : Counted e s) : inode = f k ∧ (s.forest e f).ref (filePos s.super.ptrsPerBlock k i) = 0 ∧
      s.super.sFreeBlocksCount = 0 ∧ ∃ c, t = { s with clock := c, noSpace := true } := by
  generalize hr : (0, inode) = r at hf
  cases hf with
  | mapped c hne =>
      injection hr with hzero
      exact absurd hzero.symm hne
  | @full c t hzero hno =>
      injection hr with _ hinode
      have hat : Counted e (s.at c) := hc.same c s.noSpace
      obtain ⟨c', ht⟩ := hno.same
      exact ⟨hinode, hzero, hat.free_eq_zero (hat.not_free (k := .block) hno.passed), c', ht⟩
  | @new c b t code inode u hzero hnew ha hinode =>
      injection hr with hb
      exact absurd hb.symm (hnew.ne_zero (hc.same c s.noSpace).consistent)

/-! ## The loop -/

/-- What is missing on the way to a position is missing afterwards, or has been taken. -/
theorem Filled.union_absent {L : Finset ((κ × Nat) × List Nat)} (h : Filled e f s L g t)
    (hp : (s.shape κ).Pos p) : L ∪ absent e g t p = L ∪ absent e f s p := by
  ext q
  rw [Finset.mem_union, Finset.mem_union, mem_absent, mem_absent]
  by_cases hq : q ∈ L
  · exact ⟨fun _ => .inl hq, fun _ => .inl hq⟩
  · refine or_congr_right (and_congr_right fun hon => ?_)
    rw [h.old (hon.pos hp) hq]

theorem Filled.disjoint_absent {L : Finset ((κ × Nat) × List Nat)} (h : Filled e f s L g t)
    (hs : Consistent e s) (p : (κ × Nat) × List Nat) : Disjoint L (absent e g t p) := by
  rw [Finset.disjoint_left]
  intro q hq hqp
  exact hs.ne_zero (h.new hq) (mem_absent.mp hqp).2

section Loop

variable {buf : Bytes} {count offset done d n : Nat} {inode : Inode} {st : Nat × Inode}

/-- What the first bytes behind `done` take, after `done` bytes have been written. -/
theorem Filled.lacking_succ (h : Filled e f s (lacking e f s k offset done) g t)
    (hsize : 0 < s.super.blockSize) (hx : offset + done < 2 ^ 32) (hn : 0 < n)
    (hfit : (offset + done) % s.super.blockSize + n ≤ s.super.blockSize) :
    lacking e f s k offset (done + n) = lacking e f s k offset done ∪
      absent e g t (s.bytePos k (offset + done)) := by
  rw [h.union_absent (bytePos_leaf hsize hx k).pos]
  refine lacking_block (by omega) fun j hj hj' => ?_
  obtain ⟨hdiv, -⟩ := same_block (x := offset + j) s.super.blockSize hfit (by omega) (by omega)
  rw [State.bytePos, State.bytePos, hdiv]

theorem Filled.needed_succ (h : Filled e f s (lacking e f s k offset done) g t)
    (hs : Consistent e s) (hx : offset + done < 2 ^ 32) :
    needed e f s k offset (done + 1) = needed e f s k offset done +
      (absent e g t (s.bytePos k (offset + done))).card := by
  have hsize := hs.roles.size_pos
  have hmod := Nat.mod_lt (offset + done) hsize
  rw [needed, h.lacking_succ hsize hx Nat.one_pos hmod,
    Finset.card_union_of_disjoint (h.disjoint_absent hs _), needed]

/-- There is no room when the free blocks run out on the way to a block of data. -/
theorem not_roomy (hd : d < count) (hlow : needed e f s k offset d < s.super.sFreeBlocksCount)
    (hhigh : s.super.sFreeBlocksCount < needed e f s k offset (d + 1)) :
    ¬ Roomy e f s k count offset := by
  have hcount : needed e f s k offset (d + 1) ≤ needed e f s k offset count :=
    needed_mono (by omega)
  rintro (hle | ⟨-, d', -, heq⟩)
  · omega
  · by_cases hd' : d' ≤ d
    · have hle : needed e f s k offset d' ≤ needed e f s k offset d := needed_mono hd'
      omega
    · have hle : needed e f s k offset (d + 1) ≤ needed e f s k offset d' :=
        needed_mono (by omega)
      omega

/-- **How far a write has come**: what has been written is stored and takes the blocks it needs;
or a block has been lost, as there is no room. -/
def Standing (e : Env) (f : κ → Inode) (s : State) (k : κ) (buf : Bytes) (count offset : Nat)
    (st : Nat × Inode) (t : State) : Prop :=
  (Stored e (Function.update f k st.2) t k buf offset st.1 ∧
    Filled e f s (lacking e f s k offset st.1) (Function.update f k st.2) t) ∨
  (¬ Roomy e f s k count offset ∧ Leaked e s (Function.update f k st.2) t)

/-- **How a write stops**: all of it has been written, or the free blocks have run out; or a block
has been lost. -/
def Stopped (e : Env) (f : κ → Inode) (s : State) (k : κ) (buf : Bytes) (count offset : Nat)
    (st : Nat × Inode) (t : State) : Prop :=
  (Stored e (Function.update f k st.2) t k buf offset st.1 ∧
    Filled e f s (lacking e f s k offset st.1) (Function.update f k st.2) t ∧
    (st.1 = count ∨ (needed e f s k offset st.1 = s.super.sFreeBlocksCount ∧
      s.super.sFreeBlocksCount < needed e f s k offset count))) ∨
  (¬ Roomy e f s k count offset ∧ Leaked e s (Function.update f k st.2) t)

/-- A turn leaves what is referred to where it is. -/
theorem Turned.extended {r : Turn (Nat × Inode) (Nat × Inode)}
    (hr : Turned e f s k buf offset count done r u) (h : Files e f s)
    (hlt : offset + count < 2 ^ 32) :
    r.Meets (fun st => Extended e f s (Function.update f k st.2) u)
      fun st => Extended e f s (Function.update f k st.2) u := by
  have hsize := h.consistent.roles.size_pos
  cases hr with
  | finished hge =>
      show Extended e f s (Function.update f k (f k)) s
      rw [Function.update_eq_self]
      exact Extended.refl f s
  | full hdone hf => exact (hf.target h (byte_in_range hsize (by omega)).1).extended
  | @wrote b c n inode t u blk hdone hf hb hn hblk hw =>
      have ht := hf.target h (byte_in_range hsize (by omega)).1
      have hat : Frame e (fun _ => False) t (t.at c) := Frame.at_right t c
      have hext := ht.extended.trans
        (ht.files.extended_of_frame hat (fun _ _ => id) fun _ _ hf => hf.elim)
      exact hext.written (ht.files.of_frame hat fun _ _ => id) hw (hat.owned (ht.owned hb))
        (ht.notPoints hb) ht.kept

/-- The block for the next bytes is not there, and none is free. -/
theorem Standing.full (hc : Counted e s)
    (hst : Stored e (Function.update f k inode) t k buf offset done)
    (hfill : Filled e f s (lacking e f s k offset done) (Function.update f k inode) t)
    (h : Files e (Function.update f k inode) t) (hdone : done < count)
    (hlt : offset + count < 2 ^ 32) {inode' : Inode}
    (hf : Fetched e (Function.update f k inode) t k ((offset + done) / t.super.blockSize)
      (0, inode') u) :
    Stopped e f s k buf count offset (done, inode') u := by
  obtain ⟨hinode, hzero, hnone, c, rfl⟩ := hf.none_free (hfill.counted hc)
  rw [Function.update_self] at hinode
  subst hinode
  have hplace : t.bytePos k (offset + done) = s.bytePos k (offset + done) :=
    bytePos_congr hfill.layout.geometry k _
  have hzero : ((t.forest e (Function.update f k inode')).ref (t.bytePos k (offset + done))) = 0 :=
    hzero
  rw [hplace] at hzero
  have hcount := hfill.count hc h
  have hsucc := hfill.needed_succ hc.consistent (show offset + done < 2 ^ 32 by omega)
  have hpos := Finset.card_pos.mpr ⟨_, absent_self hzero⟩
  have hmono : needed e f s k offset (done + 1) ≤ needed e f s k offset count :=
    needed_mono (by omega)
  have hneeded : needed e f s k offset done = (lacking e f s k offset done).card := rfl
  refine .inl ⟨⟨hst.inside, hst.mapped⟩, hfill.same c true, .inr ⟨?_, ?_⟩⟩
  · show needed e f s k offset done = _
    omega
  · omega

/-- The next bytes have been written, to a block whose way is filled. -/
theorem Filled.wrote (hs : Consistent e s)
    (hfill : Filled e f s (lacking e f s k offset done) (Function.update f k inode) t)
    (h : Files e (Function.update f k inode) t) (hx : offset + done < 2 ^ 32) (hdone : done < count)
    {b c : Nat} {inode' : Inode} {w : State} {blk : Bytes}
    (hf : Fetched e (Function.update f k inode) t k ((offset + done) / t.super.blockSize)
      (b, inode') u) (hb : b ≠ 0)
    (hn : n = min (count - done) (t.super.blockSize - (offset + done) % t.super.blockSize))
    (hw : Written e b
      (copyIn blk ((offset + done) % t.super.blockSize) n fun j => buf (done + j)) (u.at c) w)
    (hnew : Filled e (Function.update f k inode) t
      (absent e (Function.update f k inode) t (t.bytePos k (offset + done)))
      (Function.update (Function.update f k inode) k inode') u) :
    Filled e f s (lacking e f s k offset (done + n)) (Function.update f k inode') w := by
  have hsize := h.consistent.roles.size_pos
  have hmod := Nat.mod_lt (offset + done) hsize
  have ht := hf.target h (byte_in_range hsize hx).1
  have hat : Frame e (fun _ => False) u (u.at c) := Frame.at_right u c
  have hself : Function.update (Function.update f k inode) k inode' = Function.update f k inode' :=
    Function.update_idem inode inode' f
  have hplace : t.bytePos k (offset + done) = s.bytePos k (offset + done) :=
    bytePos_congr hfill.layout.geometry k _
  have hpoints : ¬ (u.at c).Points e _ b := ht.notPoints hb
  have hall :=
    ((hfill.trans hs hnew).same c u.noSpace).written (ht.files.of_frame hat fun _ _ => id)
    hw (hat.owned (ht.owned hb)) hpoints
  have hbs : t.super.blockSize = s.super.blockSize := hfill.layout.geometry.blockSize
  rw [hself] at hall
  rw [hbs] at hn hmod
  rw [hfill.lacking_succ hs.roles.size_pos hx (n := n) (by omega) (by omega), ← hplace]
  exact hall

/-- The next bytes have been written. -/
theorem Standing.wrote (hc : Counted e s)
    (hst : Stored e (Function.update f k inode) t k buf offset done)
    (hfill : Filled e f s (lacking e f s k offset done) (Function.update f k inode) t)
    (h : Files e (Function.update f k inode) t) (hdone : done < count)
    (hlt : offset + count < 2 ^ 32) {b c : Nat} {inode' : Inode} {w : State} {blk : Bytes}
    (hf : Fetched e (Function.update f k inode) t k ((offset + done) / t.super.blockSize)
      (b, inode') u) (hb : b ≠ 0)
    (hn : n = min (count - done) (t.super.blockSize - (offset + done) % t.super.blockSize))
    (hblk : ∀ j, j < u.super.blockSize → blk j = u.block e b j)
    (hw : Written e b
      (copyIn blk ((offset + done) % t.super.blockSize) n fun j => buf (done + j)) (u.at c) w) :
    Standing e f s k buf count offset (done + n, inode') w := by
  have hsize := h.consistent.roles.size_pos
  have hx : offset + done < 2 ^ 32 := by omega
  have hmod := Nat.mod_lt (offset + done) hsize
  have hi := (byte_in_range hsize hx).1
  have ht := hf.target h hi
  have hat : Frame e (fun _ => False) u (u.at c) := Frame.at_right u c
  have hgeo := ht.extended.frame.layout.geometry
  have hself : Function.update (Function.update f k inode) k inode' = Function.update f k inode' :=
    Function.update_idem inode inode' f
  have hfiles := ht.files.of_frame hat fun _ _ => id
  have hown := hat.owned (ht.owned hb)
  have hpoints : ¬ (u.at c).Points e _ b := ht.notPoints hb
  have honly := ht.only_byte (c := c) hb
  have hstored := hst.target (by omega) h.consistent ht
  have hplace : t.bytePos k (offset + done) = s.bytePos k (offset + done) :=
    bytePos_congr hfill.layout.geometry k _
  rcases hf.filled h (hfill.counted hc) hi hb with ⟨hnew, href⟩ | ⟨hpos, hlack, hleaked⟩
  · refine .inl ⟨?_, ?_⟩
    · have hat' : Stored e _ (u.at c) k buf offset done := ⟨hstored.inside, hstored.mapped⟩
      have hbs : (u.at c).super.blockSize = t.super.blockSize := hgeo.blockSize
      rw [← hbs] at hw hn hmod
      have hthere : ((u.at c).forest e (Function.update (Function.update f k inode) k inode')).ref
          ((u.at c).bytePos k (offset + done)) = b := by
        rw [show (u.at c).bytePos k (offset + done) = t.bytePos k (offset + done) from
          bytePos_congr hgeo k _]
        exact href
      have hall := hat'.written hfiles (by omega) hw hblk hb hown hpoints honly hthere (by omega)
      rwa [hself] at hall
    · exact hfill.wrote hc.consistent h hx hdone hf hb hn hw hnew
  · have hlost := hleaked.at_clock c
    refine .inr ⟨?_, ?_⟩
    · have hcount := hfill.count hc h
      have hsucc := hfill.needed_succ hc.consistent hx
      rw [← hplace] at hsucc
      have hlack : t.super.sFreeBlocksCount < (absent e (Function.update f k inode) t
        (t.bytePos k (offset + done))).card := hlack
      refine not_roomy hdone ?_ ?_
      · rw [needed]
        omega
      · rw [hsucc, needed]
        omega
    · have hall := (hlost.of_free hfill.free).written hfiles hw hown hpoints
      rwa [hself] at hall

theorem Standing.turn {r : Turn (Nat × Inode) (Nat × Inode)} (hc : Counted e s)
    (hst : Standing e f s k buf count offset (done, inode) t)
    (h : Files e (Function.update f k inode) t) (hle : done ≤ count) (hlt : offset + count < 2 ^ 32)
    (hr : Turned e (Function.update f k inode) t k buf offset count done r u) :
    r.Meets (fun st => Standing e f s k buf count offset st u)
      fun st => Stopped e f s k buf count offset st u := by
  rcases hst with ⟨hstored, hfill⟩ | ⟨hroom, hleaked⟩
  · cases hr with
    | finished hge =>
        rw [Function.update_self]
        exact .inl ⟨hstored, hfill, .inl (Nat.le_antisymm hle hge)⟩
    | full hdone hf => exact Standing.full hc hstored hfill h hdone hlt hf
    | wrote hdone hf hb hn hblk hw =>
        exact Standing.wrote hc hstored hfill h hdone hlt hf hb hn hblk hw
  · have hext := hr.extended h hlt
    cases r with
    | again st =>
        have hall := hleaked.extended hext
        rw [Function.update_idem] at hall
        exact .inr ⟨hroom, hall⟩
    | leave st =>
        have hall := hleaked.extended hext
        rw [Function.update_idem] at hall
        exact .inr ⟨hroom, hall⟩

/-- **How `WriteFile` ends** on a volume whose counts are right. -/
theorem writeFile_stopped (he : e.Reliable) (h : Files e f s) (hc : Counted e s)
    (hdir : (f k).isDir = false) (hlt : offset + count < 2 ^ 32) (hn : count < n) :
    Ends (writeFile e (f k) buf count offset n) s (fun _ => False) fun r t =>
      ∃ st, r = ((st.1 : Int), st.2) ∧ Stopped e f s k buf count offset st t ∧ st.1 ≤ count ∧
        Progress e f s k buf offset (max (f k).iSize (offset + count)) st.1 st.2 t := by
  refine writeFile_of_turns (I := fun st t => Standing e f s k buf count offset st t ∧
    Progress e f s k buf offset (max (f k).iSize (offset + count)) st.1 st.2 t) hdir hlt hn
    ⟨.inl ⟨Stored.zero _ _ _ _ _ _, ?_⟩, Progress.start h hlt⟩ ?_
  · have hnone : lacking e f s k offset 0 = ∅ := rfl
    rw [hnone]
    exact (Filled.of_same f s s.clock s.noSpace).of_forest rfl (forest_start k (offset + count))
  · rintro ⟨done, inode⟩ t hle ⟨hst, hp⟩
    have hinode : Function.update f k inode k = inode := Function.update_self k inode f
    have hturn : Ends (writeTurn e buf offset count (done, Function.update f k inode k)) t
        (Unfit t .block) (Turned e (Function.update f k inode) t k buf offset count done) :=
      writeTurn_turned he hp.files hlt
    rw [hinode] at hturn
    refine ((hturn.and (writeTurn_ends he hp hle hlt)).mono ?_).mono_error ?_
    · rintro (st' | st') u ⟨hr, hends⟩
      · obtain ⟨hstep, hle', hp'⟩ := hends
        exact ⟨hstep, hle', Standing.turn hc hst hp.files hle hlt hr, hp'⟩
      · obtain ⟨hp', hle', -⟩ := hends
        exact ⟨Standing.turn hc hst hp.files hle hlt hr, hle', hp'⟩
    · rintro err ⟨hf, -⟩
      exact hc.not_unfit (hf.of_layout hp.extended.frame.layout)

end Loop

/-! ## What has been returned, and what has been stored -/

/-- **The count returned tells what has been stored**: the file has grown to the end of these
bytes, they are read again, and all blocks taken belong to the file. -/
structure WriteStores (e : Env) (f : κ → Inode) (s : State) (k : κ) (buf : Bytes) (offset : Nat)
    (r : Int × Inode) (t : State) (written : Nat) : Prop where
  returned : r.1 = written
  size : r.2.iSize = max (f k).iSize (offset + written)
  read (out : Bytes) {n : Nat} : written < n →
    ∃ out' c, readFile e r.2 out written offset n t = .ok (((written : Nat), out'), t.at c) ∧
      ∀ j, j < written → out' j = buf j
  reachable {y : Nat} : Free e s .block y → ¬ Free e t .block y →
    ∃ p, (s.shape κ).Pos p ∧ p.1.1 = k ∧ (t.forest e (Function.update f k r.2)).ref p = y

section Returned

variable {buf : Bytes} {count offset n : Nat} {st : Nat × Inode}

/-- When the free blocks run out for a block of data, the size alone may be wrong. -/
theorem Stopped.stores_iff (he : e.Reliable) (hdir : (f k).isDir = false)
    (hlt : offset + count < 2 ^ 32) (hle : st.1 ≤ count)
    (hp : Progress e f s k buf offset (max (f k).iSize (offset + count)) st.1 st.2 t)
    (hst : Stored e (Function.update f k st.2) t k buf offset st.1)
    (hfill : Filled e f s (lacking e f s k offset st.1) (Function.update f k st.2) t) :
    (∃ written, WriteStores e f s k buf offset ((st.1 : Int), st.2) t written) ↔
      max (f k).iSize (offset + count) = max (f k).iSize (offset + st.1) := by
  constructor
  · rintro ⟨written, hw⟩
    have hwritten : st.1 = written := Int.ofNat_inj.mp hw.returned
    subst hwritten
    exact hp.size.symm.trans hw.size
  · intro hsize
    have hinode : Function.update f k st.2 k = st.2 := Function.update_self k st.2 f
    have hdir' : st.2.isDir = false := by
      rw [Inode.isDir, hp.mode]
      exact hdir
    refine ⟨st.1, rfl, hp.size.trans hsize, fun out m hm => ?_, fun {y} hy hy' => ?_⟩
    · have hread := hst.read (m := m) he hp.files.consistent.roles.size_pos
      rw [hinode] at hread
      refine hread hdir' (.inr ?_) (by omega) out hm
      rw [hp.size, hsize]
      exact Nat.le_max_right _ _
    · obtain ⟨q, hq, href⟩ := hfill.taken hy hy'
      obtain ⟨j, hj, hqj⟩ := mem_lacking.mp hq
      have hroot : q.1 = _ := (mem_absent.mp hqj).1.1
      refine ⟨q, hfill.pos hq, ?_, href⟩
      rw [hroot]
      rfl

/-- **`WriteFile` and the free blocks.**  On a volume whose counts are right it returns what it has
stored, with the size and the blocks of the file right, if and only if there is room. -/
theorem writeFile_stores_iff (he : e.Reliable) (h : Files e f s) (hc : Counted e s)
    (hdir : (f k).isDir = false) (hlt : offset + count < 2 ^ 32) (hn : count < n) :
    ∃ r t, writeFile e (f k) buf count offset n s = .ok (r, t) ∧
      ((∃ written, WriteStores e f s k buf offset r t written) ↔ Roomy e f s k count offset) := by
  have hstopped : Ends (writeFile e (f k) buf count offset n) s _ _ :=
    writeFile_stopped he h hc hdir hlt hn
  obtain ⟨r, t, hrun, st, rfl, hstop, hle, hp⟩ := hstopped.exists_ok
  refine ⟨_, t, hrun, ?_⟩
  rcases hstop with ⟨hst, hfill, hend⟩ | ⟨hroom, hnone, b, hb, hrefs⟩
  · rw [Stopped.stores_iff he hdir hlt hle hp hst hfill]
    have hcount := hfill.count hc hp.files
    have hneeded : needed e f s k offset st.1 = (lacking e f s k offset st.1).card := rfl
    rcases hend with hall | ⟨hfull, hmore⟩
    · rw [hall] at hneeded ⊢
      rw [hall] at hcount
      exact ⟨fun _ => .inl (by omega), fun _ => rfl⟩
    · have hlt' : st.1 < count := by
        refine Nat.lt_of_le_of_ne hle fun heq => ?_
        rw [heq] at hfull
        omega
      constructor
      · intro hsize
        exact .inr ⟨by omega, st.1, hle, hfull⟩
      · rintro (hfits | ⟨hend, -⟩)
        · omega
        · omega
  · refine iff_of_false ?_ hroom
    rintro ⟨written, hw⟩
    obtain ⟨q, hq, -, href⟩ := hw.reachable hb (hnone b)
    refine hrefs q ?_ href
    rwa [State.shape_congr hp.extended.frame.layout.geometry]

end Returned

/-- One byte, written to an empty file of the small volume. -/
theorem writeFile_stores_small :
    ∃ r t, writeFile (Env.ideal 0) ⟨fun _ => 0⟩ (fun _ => 7) 1 0 2 (Small.volume 0 0xFF) =
        .ok (r, t) ∧
      ∃ written, WriteStores (Env.ideal 0) (fun _ : Unit => ⟨fun _ => 0⟩) (Small.volume 0 0xFF) ()
        (fun _ => 7) 0 r t written := by
  have hroom : Roomy (Env.ideal 0) (fun _ : Unit => ⟨fun _ => 0⟩) (Small.volume 0 0xFF) () 1 0 :=
    .inl (by decide)
  have hiff : ∃ r t, writeFile (Env.ideal 0) ⟨fun _ => 0⟩ (fun _ => 7) 1 0 2 (Small.volume 0 0xFF) =
      .ok (r, t) ∧ ((∃ written, WriteStores (Env.ideal 0) (fun _ : Unit => ⟨fun _ => 0⟩)
        (Small.volume 0 0xFF) () (fun _ => 7) 0 r t written) ↔ Roomy (Env.ideal 0)
          (fun _ : Unit => ⟨fun _ => 0⟩) (Small.volume 0 0xFF) () 1 0) :=
    writeFile_stores_iff (Env.ideal_reliable 0) (files_empty counted_small.consistent) counted_small
      (by decide) (by decide) (by decide)
  obtain ⟨r, t, hrun, hiff⟩ := hiff
  exact ⟨r, t, hrun, hiff.mpr hroom⟩

/-- Seven blocks of data, and one more byte for which a pointer block is missing: it is counted as
written, and is not read again. -/
theorem writeFile_loses_block : ¬ ∀ (e : Env) (s : State) (f : Unit → Inode) (buf : Bytes)
    (count offset n : Nat), e.Reliable → Files e f s → Counted e s → (f ()).isDir = false →
    offset + count < 2 ^ 32 → count < n →
    ∃ r t, writeFile e (f ()) buf count offset n s = .ok (r, t) ∧
      ∃ written, WriteStores e f s () buf offset r t written := by
  intro h
  obtain ⟨⟨code, inode⟩, t, hrun, written, hw⟩ := h (Env.ideal 0) (Small.volume 0 0xFF)
    (fun _ => ⟨fun _ => 0⟩) (fun _ => 7) 7169 5120 7170 (Env.ideal_reliable 0)
    (files_empty counted_small.consistent) counted_small (by decide) (by decide) (by decide)
  have hval : (writeFile (Env.ideal 0) ⟨fun _ => 0⟩ (fun _ => 7) 7169 5120 7170
      (Small.volume 0 0xFF)).toOption.map (fun r => (r.1.1,
        (readFile (Env.ideal 0) r.1.2 (fun _ => 0) 7169 5120 7170 r.2).toOption.map
          fun r' => r'.1.1)) = some (7169, some 7168) := by
    decide +kernel
  rw [hrun] at hval
  injection hval with hval
  injection hval with hcode hread
  have hwritten : (written : Int) = 7169 := hw.returned.symm.trans hcode
  have hwritten : written = 7169 := by omega
  subst hwritten
  obtain ⟨out', c, hres, -⟩ := hw.read (fun _ => 0) (show 7169 < 7170 by decide)
  have hread : (readFile (Env.ideal 0) inode (fun _ => 0) 7169 5120 7170 t).toOption.map
      (fun r' => r'.1.1) = some 7168 := hread
  rw [hres] at hread
  injection hread with hread
  have hread : ((7169 : Nat) : Int) = 7168 := hread
  omega

end InfoKernel.Ext2
