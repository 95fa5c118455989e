import InfoKernel.Fs.Releases

/-!
# What `TruncateInode` frees

`TruncateInode` goes through the entries of `i_block`.  It frees the blocks of data below the block
count that it computes from `i_size`, and on the way up the pointer blocks above them; of the third
tree it frees the root and nothing below it.  `released` lists the positions whose blocks it frees,
and `truncateInode_run` says that these are freed and no other.

So everything that the inode refers to is freed exactly when nothing stands below the root of the
third tree, the block count, a sum of 32 bits, has not become 0, and the descriptors of all groups
concerned lie in the one block that descriptors are read from (`truncateInode_frees_iff`).
-/

namespace InfoKernel.Ext2

open Lib

variable {e : Env} {inode : Inode} {s t : State}

/-- A position in the block map of one inode. -/
abbrev FilePos := (Unit × Nat) × List Nat

/-- What the inode refers to at a position. -/
def State.refAt (s : State) (e : Env) (inode : Inode) (q : FilePos) : Nat :=
  (s.forest e fun _ : Unit => inode).ref q

/-- The positions one level below `q` that refer to a block, among those with the index `i` and the
`left - 1` behind it which `keep` says of. -/
def refsBelow (e : Env) (inode : Inode) (s : State) (q : FilePos) (keep : Nat → Bool)
    (i left : Nat) : List FilePos :=
  ((List.range' i left).filter fun j => keep j && s.refAt e inode (q.1, q.2 ++ [j]) ≠ 0).map
    fun j => (q.1, q.2 ++ [j])

/-- The positions at pointer block `q` whose blocks `TruncateInode` frees, when the first block
below it is block `first` of the file. -/
def releasedIndirect (e : Env) (inode : Inode) (s : State) (fileBlocks first : Nat) (q : FilePos) :
    List FilePos :=
  refsBelow e inode s q (fun j => u32 (first + j) < fileBlocks) 0 s.super.ptrsPerBlock ++ [q]

/-- The same of the pointer blocks below `q`, with index `i` and the `left - 1` behind it. -/
def releasedIndirects (e : Env) (inode : Inode) (s : State) (fileBlocks : Nat) (q : FilePos)
    (i left : Nat) : List FilePos :=
  (List.range' i left).flatMap fun j => if s.refAt e inode (q.1, q.2 ++ [j]) ≠ 0 then
    releasedIndirect e inode s fileBlocks
      (ndirBlocks + s.super.ptrsPerBlock + j * s.super.ptrsPerBlock) (q.1, q.2 ++ [j]) else []

/-- The same of an entry of `i_block` that stands for a tree. -/
def releasedTree (e : Env) (inode : Inode) (s : State) (slot : Nat)
    (l : FilePos → List FilePos) : List FilePos :=
  if s.refAt e inode (((), slot), []) ≠ 0 then l (((), slot), []) else []

/-- The direct entries of `i_block` whose blocks are freed. -/
def releasedDirect (e : Env) (inode : Inode) (s : State) (fileBlocks i left : Nat) :
    List FilePos :=
  ((List.range' i left).filter fun j => j < fileBlocks && s.refAt e inode (((), j), []) ≠ 0).map
    fun j => (((), j), [])

/-- **The positions whose blocks `TruncateInode` frees**, in their order. -/
def released (e : Env) (inode : Inode) (s : State) (fileBlocks : Nat) : List FilePos :=
  releasedDirect e inode s fileBlocks 0 ndirBlocks ++
    (releasedTree e inode s ndirBlocks (releasedIndirect e inode s fileBlocks ndirBlocks) ++
      (releasedTree e inode s (ndirBlocks + 1) (fun q =>
        releasedIndirects e inode s fileBlocks q 0 s.super.ptrsPerBlock ++ [q]) ++
        releasedTree e inode s (ndirBlocks + 2) fun q => [q]))

/-! ## The run -/

theorem refAt_snoc {q : FilePos} (hq : s.refAt e inode q ≠ 0) (j : Nat) :
    s.refAt e inode (q.1, q.2 ++ [j]) = s.words e (s.refAt e inode q) j := by
  rw [State.refAt, Forest.ref_append]
  exact walk_cons hq

section Freeing

variable (he : e.Reliable) {fileBlocks first left i : Nat} {q : FilePos} {buf : Bytes}

include he

theorem freePtrs_frees (hr : Roles e s) (hbuf : ∀ j, j < s.super.ptrsPerBlock →
      getLE buf (4 * j) 4 = s.refAt e inode (q.1, q.2 ++ [j])) (hle :
        i + left ≤ s.super.ptrsPerBlock) :
    Frees e s (freePtrs e buf fileBlocks first left i)
      ((refsBelow e inode s q (fun j => u32 (first + j) < fileBlocks) i left).map
        (s.refAt e inode)) fun _ => True := by
  induction left generalizing i with
  | zero => exact Frees.pure True.intro
  | succ left ih =>
      have hrest := ih (i := i + 1) (by omega)
      rw [freePtrs, hbuf i (by omega), refsBelow, List.range'_succ]
      by_cases hkeep : u32 (first + i) < fileBlocks ∧ s.refAt e inode (q.1, q.2 ++ [i]) ≠ 0
      · rw [if_pos hkeep, List.filter_cons_of_pos (by simpa using hkeep), List.map_cons,
          List.map_cons]
        exact (Frees.freeBlock he hr).bind fun _ _ => hrest
      · rw [if_neg hkeep, List.filter_cons_of_neg (by simpa using hkeep)]
        exact hrest

/-- What a pointer block holds are the references below it. -/
theorem readBlock_refs (hg : 0 < s.groups .block) (hq : s.refAt e inode q ≠ 0)
    (hdata : ¬ Meta e s (s.refAt e inode q)) :
    Frees e s (readBlock e (s.refAt e inode q)) [] fun r => ∃ buf, r = some buf ∧
      ∀ j, j < s.super.ptrsPerBlock → getLE buf (4 * j) 4 = s.refAt e inode (q.1, q.2 ++ [j]) := by
  refine (Frees.readBlock he hg hdata).mono ?_
  rintro _ ⟨buf, rfl, hbuf⟩
  refine ⟨buf, rfl, fun j hj => ?_⟩
  rw [refAt_snoc hq]
  refine getLE_congr fun b hb hb' => hbuf b ?_
  obtain ⟨a, rfl⟩ := Nat.exists_eq_add_of_le hb
  exact ptr_lt hj (by omega)

theorem freeIndirect_frees (hr : Roles e s) (hg : 0 < s.groups .block)
    (hq : s.refAt e inode q ≠ 0) (hdata : ¬ Meta e s (s.refAt e inode q)) :
    Frees e s (freeIndirect e s.super.ptrsPerBlock fileBlocks first (s.refAt e inode q))
      ((releasedIndirect e inode s fileBlocks first q).map (s.refAt e inode)) fun _ => True := by
  rw [releasedIndirect, List.map_append, freeIndirect]
  refine (Frees.pageAlloc he).step fun _ halloc => ?_
  rw [if_pos halloc]
  refine (readBlock_refs he hg hq hdata).step fun _ hread => ?_
  obtain ⟨buf, rfl, hbuf⟩ := hread
  exact (freePtrs_frees he hr hbuf (by omega)).bind fun _ _ => Frees.freeBlock he hr

theorem freeIndirects_frees (hr : Roles e s) (hg : 0 < s.groups .block)
    (hbuf : ∀ j, j < s.super.ptrsPerBlock →
      getLE buf (4 * j) 4 = s.refAt e inode (q.1, q.2 ++ [j])) (hle :
        i + left ≤ s.super.ptrsPerBlock)
    (hdata : ∀ j, j < s.super.ptrsPerBlock → s.refAt e inode (q.1, q.2 ++ [j]) ≠ 0 →
      ¬ Meta e s (s.refAt e inode (q.1, q.2 ++ [j]))) :
    Frees e s (freeIndirects e buf s.super.ptrsPerBlock fileBlocks left i)
      ((releasedIndirects e inode s fileBlocks q i left).map (s.refAt e inode)) fun _ => True := by
  induction left generalizing i with
  | zero => exact Frees.pure True.intro
  | succ left ih =>
      have hrest := ih (i := i + 1) (by omega)
      rw [freeIndirects, hbuf i (by omega), releasedIndirects, List.range'_succ, List.flatMap_cons,
        List.map_append]
      by_cases hne : s.refAt e inode (q.1, q.2 ++ [i]) ≠ 0
      · rw [if_pos hne, if_pos hne]
        exact (freeIndirect_frees he hr hg hne (hdata i (by omega) hne)).bind fun _ _ => hrest
      · rw [if_neg hne, if_neg hne]
        exact hrest

theorem freeDoubleIndirect_frees (hr : Roles e s) (hg : 0 < s.groups .block)
    (hq : s.refAt e inode q ≠ 0) (hdata : ¬ Meta e s (s.refAt e inode q))
    (hbelow : ∀ j, j < s.super.ptrsPerBlock → s.refAt e inode (q.1, q.2 ++ [j]) ≠ 0 →
      ¬ Meta e s (s.refAt e inode (q.1, q.2 ++ [j]))) :
    Frees e s (freeDoubleIndirect e s.super.ptrsPerBlock fileBlocks (s.refAt e inode q))
      ((releasedIndirects e inode s fileBlocks q 0 s.super.ptrsPerBlock ++ [q]).map
        (s.refAt e inode)) fun _ => True := by
  rw [List.map_append, freeDoubleIndirect]
  refine (Frees.pageAlloc he).step fun _ halloc => ?_
  rw [if_pos halloc]
  refine (readBlock_refs he hg hq hdata).step fun _ hread => ?_
  obtain ⟨buf, rfl, hbuf⟩ := hread
  exact (freeIndirects_frees he hr hg hbuf (by omega) hbelow).bind fun _ _ => Frees.freeBlock he hr

omit he in
/-- An entry of `i_block` that stands for a tree. -/
theorem freeTree_frees {free : Nat → Io PUnit} {slot : Nat} {l : FilePos → List FilePos}
    {inode' : Inode} (hsame : inode'.iBlock slot = inode.iBlock slot)
    (hfree : s.refAt e inode (((), slot), []) ≠ 0 →
      Frees e s (free (inode.iBlock slot))
        ((l (((), slot), [])).map (s.refAt e inode)) fun _ => True) :
    Frees e s (freeTree free slot inode') ((releasedTree e inode s slot l).map (s.refAt e inode))
      fun x => ∀ j, j ≠ slot → x.iBlock j = inode'.iBlock j := by
  have href : s.refAt e inode (((), slot), []) = inode.iBlock slot := rfl
  rw [freeTree, releasedTree, hsame]
  by_cases hne : s.refAt e inode (((), slot), []) ≠ 0
  · rw [if_pos hne, if_pos (href ▸ hne)]
    exact (hfree hne).last fun _ _ => Frees.pure fun j hj => Inode.iBlock_setBlock_of_ne _ hj
  · rw [if_neg hne, if_neg (href ▸ hne)]
    exact Frees.pure fun _ _ => rfl

theorem freeDirect_frees (hr : Roles e s) {inode' : Inode}
    (hsame : ∀ j, i ≤ j → inode'.iBlock j = inode.iBlock j) :
    Frees e s (freeDirect e fileBlocks left i inode')
      ((releasedDirect e inode s fileBlocks i left).map (s.refAt e inode))
      fun x => ∀ j, i + left ≤ j → x.iBlock j = inode.iBlock j := by
  induction left generalizing i inode' with
  | zero => exact Frees.pure hsame
  | succ left ih =>
      have href : s.refAt e inode (((), i), []) = inode.iBlock i := rfl
      have hbehind : ∀ x : Inode, (∀ j, i + 1 + left ≤ j → x.iBlock j = inode.iBlock j) →
          ∀ j, i + (left + 1) ≤ j → x.iBlock j = inode.iBlock j :=
        fun x hx j hj => hx j (by omega)
      rw [freeDirect, hsame i (Nat.le_refl i), releasedDirect, List.range'_succ]
      by_cases hkeep : i < fileBlocks ∧ inode.iBlock i ≠ 0
      · rw [if_pos hkeep, List.filter_cons_of_pos (by simpa [href] using hkeep), List.map_cons,
          List.map_cons]
        refine (Frees.freeBlock he hr).bind fun _ _ => (ih fun j hj => ?_).mono hbehind
        rw [Inode.iBlock_setBlock_of_ne _ (by omega)]
        exact hsame j (by omega)
      · rw [if_neg hkeep, List.filter_cons_of_neg (by simpa [href] using hkeep)]
        exact (ih fun j hj => hsame j (by omega)).mono hbehind

end Freeing

/-! ## The positions -/

section Released

variable {fileBlocks first left i : Nat} {q q' : FilePos}

theorem mem_refsBelow {keep : Nat → Bool} : q' ∈ refsBelow e inode s q keep i left ↔
    ∃ j, i ≤ j ∧ j < i + left ∧ keep j = true ∧ q' = (q.1, q.2 ++ [j]) ∧
      s.refAt e inode q' ≠ 0 := by
  simp only [refsBelow, List.mem_map, List.mem_filter, List.mem_range'_1, Bool.and_eq_true,
    decide_eq_true_eq]
  constructor
  · rintro ⟨j, ⟨⟨hle, hlt⟩, hkeep, hne⟩, rfl⟩
    exact ⟨j, hle, hlt, hkeep, rfl, hne⟩
  · rintro ⟨j, hle, hlt, hkeep, rfl, hne⟩
    exact ⟨j, ⟨⟨hle, hlt⟩, hkeep, hne⟩, rfl⟩

theorem mem_releasedIndirect : q' ∈ releasedIndirect e inode s fileBlocks first q ↔ q' = q ∨
    ∃ j, j < s.super.ptrsPerBlock ∧ u32 (first + j) < fileBlocks ∧ q' = (q.1, q.2 ++ [j]) ∧
      s.refAt e inode q' ≠ 0 := by
  rw [releasedIndirect, List.mem_append, List.mem_singleton, mem_refsBelow, or_comm]
  simp only [Nat.zero_le, Nat.zero_add, decide_eq_true_eq, true_and]

theorem mem_releasedIndirects : q' ∈ releasedIndirects e inode s fileBlocks q i left ↔
    ∃ j, i ≤ j ∧ j < i + left ∧ s.refAt e inode (q.1, q.2 ++ [j]) ≠ 0 ∧
      q' ∈ releasedIndirect e inode s fileBlocks
        (ndirBlocks + s.super.ptrsPerBlock + j * s.super.ptrsPerBlock) (q.1, q.2 ++ [j]) := by
  simp only [releasedIndirects, List.mem_flatMap, List.mem_range'_1]
  constructor
  · rintro ⟨j, ⟨hle, hlt⟩, hmem⟩
    split at hmem
    · exact ⟨j, hle, hlt, ‹_›, hmem⟩
    · cases hmem
  · rintro ⟨j, hle, hlt, hne, hmem⟩
    exact ⟨j, ⟨hle, hlt⟩, by rwa [if_pos hne]⟩

theorem mem_releasedTree {slot : Nat} {l : FilePos → List FilePos} :
    q ∈ releasedTree e inode s slot l ↔ s.refAt e inode (((), slot), []) ≠ 0 ∧
      q ∈ l (((), slot), []) := by
  rw [releasedTree]
  split
  · simp only [ne_eq, *, not_false_eq_true, true_and]
  · simp only [List.not_mem_nil, *, false_and]

theorem mem_releasedDirect : q ∈ releasedDirect e inode s fileBlocks i left ↔
    ∃ j, i ≤ j ∧ j < i + left ∧ j < fileBlocks ∧ q = (((), j), []) ∧ s.refAt e inode q ≠ 0 := by
  simp only [releasedDirect, List.mem_map, List.mem_filter, List.mem_range'_1, Bool.and_eq_true,
    decide_eq_true_eq]
  constructor
  · rintro ⟨j, ⟨⟨hle, hlt⟩, hkeep, hne⟩, rfl⟩
    exact ⟨j, hle, hlt, hkeep, rfl, hne⟩
  · rintro ⟨j, hle, hlt, hkeep, rfl, hne⟩
    exact ⟨j, ⟨⟨hle, hlt⟩, hkeep, hne⟩, rfl⟩

theorem nodup_releasedIndirect : (releasedIndirect e inode s fileBlocks first q).Nodup := by
  rw [releasedIndirect, List.nodup_append]
  refine ⟨?_, List.nodup_singleton q, fun a ha b hb => ?_⟩
  · have hrange : (List.range' 0 s.super.ptrsPerBlock).Nodup := List.nodup_range'
    refine (hrange.filter _).map_on fun j _ j' _ heq => ?_
    exact List.singleton_injective (List.append_cancel_left (Prod.mk.inj heq).2)
  · rintro rfl
    rw [List.mem_singleton.mp hb] at ha
    obtain ⟨j, -, -, -, heq, -⟩ := mem_refsBelow.mp ha
    have hlen := congrArg (fun q : FilePos => q.2.length) heq
    simp only [List.length_append, List.length_singleton] at hlen
    omega

/-- The index of a position below `q` at the level of `q`. -/
theorem getElem?_of_mem_releasedIndirect {j : Nat}
    (h : q' ∈ releasedIndirect e inode s fileBlocks first (q.1, q.2 ++ [j])) :
    q'.1 = q.1 ∧ q'.2[q.2.length]? = some j := by
  rcases mem_releasedIndirect.mp h with rfl | ⟨k, -, -, rfl, -⟩
  · exact ⟨rfl, List.getElem?_concat_length⟩
  · refine ⟨rfl, ?_⟩
    show (q.2 ++ [j] ++ [k])[q.2.length]? = some j
    rw [List.append_assoc, List.getElem?_append_right (Nat.le_refl _), Nat.sub_self]
    rfl

theorem nodup_releasedIndirects : (releasedIndirects e inode s fileBlocks q i left).Nodup := by
  have hrange : (List.range' i left).Nodup := List.nodup_range'
  rw [releasedIndirects, List.nodup_flatMap]
  refine ⟨fun j _ => ?_, hrange.imp fun {j j'} hne a ha ha' => ?_⟩
  · split
    · exact nodup_releasedIndirect
    · exact List.nodup_nil
  · have hpart : ∀ {j}, a ∈ (if s.refAt e inode (q.1, q.2 ++ [j]) ≠ 0 then
        releasedIndirect e inode s fileBlocks
          (ndirBlocks + s.super.ptrsPerBlock + j * s.super.ptrsPerBlock) (q.1, q.2 ++ [j])
        else []) → a.2[q.2.length]? = some j := by
      intro j hj
      split at hj
      · exact (getElem?_of_mem_releasedIndirect hj).2
      · cases hj
    have heq := (hpart ha).symm.trans (hpart ha')
    exact hne (Option.some.inj heq)

theorem slot_of_mem_releasedIndirect
    (h : q' ∈ releasedIndirect e inode s fileBlocks first q) : q'.1 = q.1 := by
  rcases mem_releasedIndirect.mp h with rfl | ⟨j, -, -, rfl, -⟩ <;> rfl

theorem slot_of_mem_releasedIndirects
    (h : q' ∈ releasedIndirects e inode s fileBlocks q i left) : q'.1 = q.1 := by
  obtain ⟨j, -, -, -, hmem⟩ := mem_releasedIndirects.mp h
  exact (getElem?_of_mem_releasedIndirect hmem).1

/-- No position is released twice. -/
theorem nodup_released : (released e inode s fileBlocks).Nodup := by
  have htree : ∀ {slot : Nat} {l : FilePos → List FilePos}, (l (((), slot), [])).Nodup →
      (releasedTree e inode s slot l).Nodup := by
    intro slot l hl
    rw [releasedTree]
    split
    · exact hl
    · exact List.nodup_nil
  have hdouble : ∀ q : FilePos, q.2 = [] →
      (releasedIndirects e inode s fileBlocks q 0 s.super.ptrsPerBlock ++ [q]).Nodup := by
    intro q hq
    rw [List.nodup_append]
    refine ⟨nodup_releasedIndirects, List.nodup_singleton q, fun a ha b hb => ?_⟩
    rintro rfl
    rw [List.mem_singleton.mp hb] at ha
    obtain ⟨j, -, -, -, hmem⟩ := mem_releasedIndirects.mp ha
    have hidx := (getElem?_of_mem_releasedIndirect hmem).2
    rw [hq] at hidx
    cases hidx
  have hsingle : ∀ {q}, q ∈ releasedTree e inode s ndirBlocks
      (releasedIndirect e inode s fileBlocks ndirBlocks) → q.1.2 = 12 := fun hq =>
    congrArg Prod.snd (slot_of_mem_releasedIndirect (mem_releasedTree.mp hq).2)
  have hsecond : ∀ {q}, q ∈ releasedTree e inode s (ndirBlocks + 1) (fun q =>
      releasedIndirects e inode s fileBlocks q 0 s.super.ptrsPerBlock ++ [q]) → q.1.2 = 13 := by
    intro q hq
    rcases List.mem_append.mp (mem_releasedTree.mp hq).2 with hq | hq
    · exact congrArg Prod.snd (slot_of_mem_releasedIndirects hq)
    · rw [List.mem_singleton.mp hq]
      rfl
  have hthird : ∀ {q}, q ∈ releasedTree e inode s (ndirBlocks + 2) (fun q => [q]) → q.1.2 = 14 := by
    intro q hq
    rw [List.mem_singleton.mp (mem_releasedTree.mp hq).2]
    rfl
  rw [released, List.nodup_append, List.nodup_append, List.nodup_append]
  refine ⟨?_, ⟨htree nodup_releasedIndirect, ⟨htree (hdouble _ rfl), htree (List.nodup_singleton _),
    fun a ha b hb heq => ?_⟩, fun a ha b hb heq => ?_⟩, fun a ha b hb heq => ?_⟩
  · have hrange : (List.range' 0 ndirBlocks).Nodup := List.nodup_range'
    refine (hrange.filter _).map_on fun j _ j' _ heq => ?_
    exact (Prod.mk.inj (Prod.mk.inj heq).1).2
  · have ha := hsecond ha
    rw [heq, hthird hb] at ha
    cases ha
  · have ha := hsingle ha
    rw [heq] at ha
    rcases List.mem_append.mp hb with hb | hb
    · rw [hsecond hb] at ha
      cases ha
    · rw [hthird hb] at ha
      cases ha
  · obtain ⟨j, -, hj, -, rfl, -⟩ := mem_releasedDirect.mp ha
    have hn : ndirBlocks = 12 := rfl
    have hb : b.1.2 = 12 ∨ b.1.2 = 13 ∨ b.1.2 = 14 := by
      rcases List.mem_append.mp hb with hb | hb
      · exact .inl (hsingle hb)
      · rcases List.mem_append.mp hb with hb | hb
        · exact .inr (.inl (hsecond hb))
        · exact .inr (.inr (hthird hb))
    rw [← heq] at hb
    simp only [] at hb
    omega

/-- A position below another refers to a block only when the other does. -/
theorem refAt_of_snoc {j : Nat} (h : s.refAt e inode (q.1, q.2 ++ [j]) ≠ 0) :
    s.refAt e inode q ≠ 0 := by
  intro hzero
  refine h ?_
  rw [State.refAt, Forest.ref_append]
  exact (congrArg (fun x => walk _ x [j]) hzero).trans walk_zero

/-- What the walk through the inode frees: not what lies below the root of the third tree, and no
data at or behind block `fileBlocks`. -/
structure Passes (s : State) (fileBlocks : Nat) (q : FilePos) : Prop where
  third : q.1.2 = 14 → q.2 = []
  data : (s.shape Unit).Leaf q → u32 (posBlock s.super.ptrsPerBlock (q.1.2, q.2)) < fileBlocks

theorem passes_of_mem (hmem : q ∈ released e inode s fileBlocks) :
    (s.shape Unit).Pos q ∧ s.refAt e inode q ≠ 0 ∧ Passes s fileBlocks q := by
  have hn : ndirBlocks = 12 := rfl
  have hroot : ∀ {slot}, slot < 15 → (s.shape Unit).Pos (((), slot), []) := fun hslot =>
    ⟨hslot, fun _ hi => absurd hi List.not_mem_nil, Nat.zero_le _⟩
  have hinner : ∀ {q : FilePos}, q.2.length < slotDepth q.1.2 → (q.1.2 = 14 → q.2 = []) →
      Passes s fileBlocks q :=
    fun hlt h => ⟨h, fun hleaf => absurd hleaf.eq (Nat.ne_of_lt hlt)⟩
  rcases List.mem_append.mp hmem with hmem | hmem
  · obtain ⟨j, -, hj, hlt, rfl, hne⟩ := mem_releasedDirect.mp hmem
    refine ⟨hroot (by omega), hne, fun _ => rfl, fun _ => ?_⟩
    show u32 j < fileBlocks
    rwa [u32_of_lt (by omega)]
  have hdepth : 0 < slotDepth ndirBlocks := by decide
  have hdepth' : 1 < slotDepth (ndirBlocks + 1) := by decide
  have hfirst : ndirBlocks ≠ 14 := by decide
  have hsecond : ndirBlocks + 1 ≠ 14 := by decide
  rcases List.mem_append.mp hmem with hmem | hmem
  · obtain ⟨hne, hmem⟩ := mem_releasedTree.mp hmem
    rcases mem_releasedIndirect.mp hmem with rfl | ⟨j, hj, hlt, rfl, hne'⟩
    · exact ⟨hroot (by decide), hne, hinner hdepth fun h => absurd h hfirst⟩
    · have hin : (s.shape Unit).Inner (((), ndirBlocks), []) := ⟨hroot (by decide), hdepth⟩
      exact ⟨hin.pos_snoc hj, hne', ⟨fun h => absurd h hfirst, fun _ => hlt⟩⟩
  rcases List.mem_append.mp hmem with hmem | hmem
  · obtain ⟨hne, hmem⟩ := mem_releasedTree.mp hmem
    have hin : (s.shape Unit).Inner (((), ndirBlocks + 1), []) :=
      ⟨hroot (by decide), Nat.lt_of_succ_lt hdepth'⟩
    rcases List.mem_append.mp hmem with hmem | hmem
    · obtain ⟨i, -, hi, hnei, hmem⟩ := mem_releasedIndirects.mp hmem
      rw [Nat.zero_add] at hi
      have hin' : (s.shape Unit).Inner (((), ndirBlocks + 1), [i]) := ⟨hin.pos_snoc hi, hdepth'⟩
      rcases mem_releasedIndirect.mp hmem with rfl | ⟨j, hj, hlt, rfl, hne'⟩
      · exact ⟨hin'.pos, hnei, hinner hdepth' fun h => absurd h hsecond⟩
      · refine ⟨hin'.pos_snoc hj, hne', ⟨fun h => absurd h hsecond, fun _ => ?_⟩⟩
        show u32 (ndirBlocks + s.super.ptrsPerBlock + (s.super.ptrsPerBlock * i + j)) < fileBlocks
        rwa [Nat.mul_comm, ← Nat.add_assoc]
    · rw [List.mem_singleton.mp hmem]
      exact ⟨hin.pos, hne, hinner (Nat.lt_of_succ_lt hdepth') fun h => absurd h hsecond⟩
  · obtain ⟨hne, hmem⟩ := mem_releasedTree.mp hmem
    rw [List.mem_singleton.mp hmem]
    exact ⟨hroot (by decide), hne, hinner (by decide) fun _ => rfl⟩

theorem mem_of_passes (hq : (s.shape Unit).Pos q) (hne : s.refAt e inode q ≠ 0)
    (hpass : Passes s fileBlocks q) : q ∈ released e inode s fileBlocks := by
  have hn : ndirBlocks = 12 := rfl
  obtain ⟨⟨⟨⟩, slot⟩, is⟩ := q
  have hslot : slot < 15 := hq.root
  have hlen : is.length ≤ slot - 11 := hq.length
  have hindex : ∀ i ∈ is, i < s.super.ptrsPerBlock := hq.index
  simp only [released, List.mem_append]
  rcases is with _ | ⟨i, _ | ⟨j, _ | ⟨k, rest⟩⟩⟩
  · have hcases : slot < 12 ∨ slot = 12 ∨ slot = 13 ∨ slot = 14 := by omega
    rcases hcases with hlt | rfl | rfl | rfl
    · have hdata := hpass.data ⟨hq, show 0 = slot - 11 by omega⟩
      refine .inl (mem_releasedDirect.mpr ⟨slot, Nat.zero_le _, by omega, ?_, rfl, hne⟩)
      exact (u32_of_lt (show slot < 2 ^ 32 by omega)) ▸ hdata
    · exact .inr (.inl (mem_releasedTree.mpr ⟨hne, mem_releasedIndirect.mpr (.inl rfl)⟩))
    · refine .inr (.inr (.inl (mem_releasedTree.mpr ⟨hne, ?_⟩)))
      exact List.mem_append_right _ (List.mem_singleton_self _)
    · exact .inr (.inr (.inr (mem_releasedTree.mpr ⟨hne, List.mem_singleton_self _⟩)))
  · have hi := hindex i (List.mem_singleton_self i)
    have hroot := refAt_of_snoc (q := (((), slot), [])) hne
    have hcases : slot = 12 ∨ slot = 13 ∨ slot = 14 := by
      simp only [List.length_singleton] at hlen
      omega
    rcases hcases with rfl | rfl | rfl
    · refine .inr (.inl (mem_releasedTree.mpr ⟨hroot, mem_releasedIndirect.mpr (.inr ?_)⟩))
      exact ⟨i, hi, hpass.data ⟨hq, rfl⟩, rfl, hne⟩
    · refine .inr (.inr (.inl (mem_releasedTree.mpr ⟨hroot, List.mem_append_left _ ?_⟩)))
      exact mem_releasedIndirects.mpr ⟨i, Nat.zero_le _, by omega, hne,
        mem_releasedIndirect.mpr (.inl rfl)⟩
    · cases hpass.third rfl
  · have hi := hindex i List.mem_cons_self
    have hj := hindex j (List.mem_cons_of_mem _ (List.mem_singleton_self j))
    have hmid := refAt_of_snoc (q := (((), slot), [i])) hne
    have hroot := refAt_of_snoc (q := (((), slot), [])) hmid
    have hcases : slot = 13 ∨ slot = 14 := by
      simp only [List.length_cons, List.length_nil] at hlen
      omega
    rcases hcases with rfl | rfl
    · refine .inr (.inr (.inl (mem_releasedTree.mpr ⟨hroot, List.mem_append_left _ ?_⟩)))
      refine mem_releasedIndirects.mpr ⟨i, Nat.zero_le _, by omega, hmid,
        mem_releasedIndirect.mpr (.inr ⟨j, hj, ?_, rfl, hne⟩)⟩
      have hdata : u32 (ndirBlocks + s.super.ptrsPerBlock + (s.super.ptrsPerBlock * i + j)) <
          fileBlocks := hpass.data ⟨hq, rfl⟩
      rwa [Nat.mul_comm, ← Nat.add_assoc] at hdata
    · cases hpass.third rfl
  · have hthird : slot = 14 := by
      simp only [List.length_cons] at hlen
      omega
    cases hpass.third hthird

/-- **Which positions are released.** -/
theorem mem_released_iff : q ∈ released e inode s fileBlocks ↔
    (s.shape Unit).Pos q ∧ s.refAt e inode q ≠ 0 ∧ Passes s fileBlocks q :=
  ⟨passes_of_mem, fun h => mem_of_passes h.1 h.2.1 h.2.2⟩

end Released

/-! ## What is freed -/

/-- The blocks of a file: no two positions have the same, all are in use, and those with data lie
inside the size. -/
structure Occupied (e : Env) (inode : Inode) (s : State) : Prop where
  roles : Roles e s
  unshared : (s.forest e fun _ : Unit => inode).Unshared (s.shape Unit).Pos
  held {q : FilePos} : (s.shape Unit).Pos q → s.refAt e inode q ≠ 0 → Held e s (s.refAt e inode q)
  inside {q : FilePos} : (s.shape Unit).Leaf q → s.refAt e inode q ≠ 0 →
    posBlock s.super.ptrsPerBlock (q.1.2, q.2) * s.super.blockSize < inode.iSize

/-- `file_blocks` -/
def fileBlockCount (sb : SuperBlock) (inode : Inode) : Nat := ceilDiv inode.iSize sb.blockSize

/-- The blocks that `TruncateInode` frees. -/
def releasedBlocks (e : Env) (inode : Inode) (s : State) : List Nat :=
  (released e inode s (fileBlockCount s.super inode)).map (s.refAt e inode)

namespace Occupied

variable {q q' : FilePos} (h : Occupied e inode s)

include h

/-- The block is in use, so there is a group. -/
theorem groups_pos (hq : (s.shape Unit).Pos q) (hne : s.refAt e inode q ≠ 0) :
    0 < s.groups .block := Nat.zero_lt_of_lt (h.held hq hne).group

theorem truncateInode_frees (he : e.Reliable) :
    Frees e s (truncateInode e inode) (releasedBlocks e inode s) fun r => r.1 = 0 := by
  have hroot : ∀ {slot}, slot < 15 → (s.shape Unit).Pos (((), slot), []) := fun hslot =>
    ⟨hslot, fun _ hi => absurd hi List.not_mem_nil, Nat.zero_le _⟩
  have hdata : ∀ {q : FilePos}, (s.shape Unit).Pos q → s.refAt e inode q ≠ 0 →
      ¬ Meta e s (s.refAt e inode q) := fun hq hne => (h.held hq hne).data
  rw [releasedBlocks, released, List.map_append, List.map_append, List.map_append, truncateInode]
  refine Frees.super.step fun sb hsb => ?_
  have hptrs : sb.ptrsPerBlock = s.super.ptrsPerBlock := by
    rw [SuperBlock.ptrsPerBlock, SuperBlock.ptrsPerBlock, hsb.blockSize]
  rw [hsb.blockSize, if_neg h.roles.size_pos.ne', hptrs]
  refine (freeDirect_frees he h.roles fun _ _ => rfl).bind fun x hx => ?_
  have hx : ∀ j, 12 ≤ j → x.iBlock j = inode.iBlock j := fun j hj =>
    hx j (by rwa [Nat.zero_add])
  refine (freeTree_frees (hx _ (by decide)) fun hne => ?_).bind fun y hy => ?_
  · exact freeIndirect_frees (q := (((), ndirBlocks), [])) he h.roles
      (h.groups_pos (hroot (by decide)) hne) hne (hdata (hroot (by decide)) hne)
  have hy : ∀ j, 13 ≤ j → y.iBlock j = inode.iBlock j := fun j hj =>
    (hy j (Nat.ne_of_gt hj)).trans (hx j (by omega))
  refine (freeTree_frees (hy _ (by decide)) fun hne => ?_).bind fun z hz => ?_
  · have hin : (s.shape Unit).Inner (((), ndirBlocks + 1), []) :=
      ⟨hroot (by decide), show 0 < slotDepth (ndirBlocks + 1) by decide⟩
    exact freeDoubleIndirect_frees (q := (((), ndirBlocks + 1), [])) he h.roles
      (h.groups_pos hin.pos hne) hne (hdata hin.pos hne) fun j hj => hdata (hin.pos_snoc hj)
  have hz : z.iBlock (ndirBlocks + 2) = inode.iBlock (ndirBlocks + 2) :=
    (hz _ (by decide)).trans (hy _ (by decide))
  exact (freeTree_frees hz fun _ => Frees.freeBlock he h.roles).last fun _ _ => Frees.pure rfl

theorem refAt_inj (hq : q ∈ released e inode s (fileBlockCount s.super inode))
    (hq' : (s.shape Unit).Pos q') (heq : s.refAt e inode q = s.refAt e inode q') : q = q' := by
  obtain ⟨hpos, hne, -⟩ := mem_released_iff.mp hq
  exact h.unshared q q' hpos hq' hne heq

/-- **What `TruncateInode` does.** -/
theorem truncateInode_run (he : e.Reliable) :
    (∃ r t, truncateInode e inode s = .ok (r, t) ∧ r.1 = 0 ∧
      (∀ y ∈ releasedBlocks e inode s, s.Described y) ∧ Freed e s (releasedBlocks e inode s) t) ∨
      (truncateInode e inode s = .error .outOfBounds ∧
        ∃ y ∈ releasedBlocks e inode s, ¬ s.Described y) := by
  refine (h.truncateInode_frees he).run (nodup_released.map_on fun q hq q' hq' heq => ?_) ?_
  · exact h.refAt_inj hq (mem_released_iff.mp hq').1 heq
  · intro y hy
    obtain ⟨q, hq, rfl⟩ := List.mem_map.mp hy
    obtain ⟨hpos, hne, -⟩ := mem_released_iff.mp hq
    exact h.held hpos hne

theorem mem_releasedBlocks (hq : (s.shape Unit).Pos q) (hne : s.refAt e inode q ≠ 0) :
    s.refAt e inode q ∈ releasedBlocks e inode s ↔
      Passes s (fileBlockCount s.super inode) q := by
  constructor
  · intro hmem
    obtain ⟨q', hq', heq⟩ := List.mem_map.mp hmem
    exact h.refAt_inj hq' hq heq ▸ (mem_released_iff.mp hq').2.2
  · exact fun hpass => List.mem_map_of_mem (mem_released_iff.mpr ⟨hq, hne, hpass⟩)

/-- The blocks of data are those in front of the block count, unless that has become 0. -/
theorem data_lt_iff (hq : (s.shape Unit).Leaf q) (hne : s.refAt e inode q ≠ 0) :
    u32 (posBlock s.super.ptrsPerBlock (q.1.2, q.2)) < fileBlockCount s.super inode ↔
      inode.iSize + s.super.blockSize ≤ 2 ^ 32 := by
  have hsize := h.roles.size_pos
  have hlt := h.inside hq hne
  have hbound : inode.iSize < 2 ^ 32 := getLE_lt _ _ _
  have hle : posBlock s.super.ptrsPerBlock (q.1.2, q.2) ≤
      posBlock s.super.ptrsPerBlock (q.1.2, q.2) * s.super.blockSize :=
        Nat.le_mul_of_pos_right _ hsize
  constructor
  · intro hdata
    by_contra hover
    have hsb := s.super.blockSize_lt
    have hzero : fileBlockCount s.super inode = 0 := by
      rw [fileBlockCount, ceilDiv]
      refine Nat.div_eq_of_lt ?_
      simp only [u32, sub32]
      omega
    rw [hzero] at hdata
    exact absurd hdata (Nat.not_lt_zero _)
  · intro hfits
    rw [u32_of_lt (by omega), fileBlockCount, ceilDiv_eq hsize hfits, Nat.lt_div_iff_mul_lt hsize]
    omega

end Occupied

/-- **Everything that the inode refers to has been freed**: the bits of these blocks are clear, all
other bits are what they were, and the count of free blocks has gone up by the number of these
blocks, in its 32 bits. -/
structure FreesAll (e : Env) (inode : Inode) (s t : State) : Prop where
  freed {q : FilePos} : (s.shape Unit).Pos q → s.refAt e inode q ≠ 0 →
    t.bit e .block (s.refAt e inode q) = false
  kept {k : Kind} {n : Nat} : n / k.perGroup s.super < s.groups k →
    (k = .block → ∀ q, (s.shape Unit).Pos q → s.refAt e inode q ≠ 0 → s.refAt e inode q ≠ n) →
    t.bit e k n = s.bit e k n
  count : ∃ l : List Nat, l.Nodup ∧
    (∀ y, y ∈ l ↔ ∃ q, (s.shape Unit).Pos q ∧ s.refAt e inode q ≠ 0 ∧ s.refAt e inode q = y) ∧
      t.super.sFreeBlocksCount = u32 (s.super.sFreeBlocksCount + l.length)

/-- Nothing stands below the root of the third tree, the sum for the block count fits 32 bits where
the inode has blocks of data, and the descriptors of the groups of all blocks can be read. -/
structure Truncatable (e : Env) (inode : Inode) (s : State) : Prop where
  third {q : FilePos} : (s.shape Unit).Pos q → q.1.2 = 14 → q.2 ≠ [] → s.refAt e inode q = 0
  size : inode.iSize + s.super.blockSize ≤ 2 ^ 32 ∨
    ∀ q : FilePos, (s.shape Unit).Leaf q → s.refAt e inode q = 0
  described {q : FilePos} : (s.shape Unit).Pos q → s.refAt e inode q ≠ 0 →
    s.Described (s.refAt e inode q)

theorem Occupied.truncatable_iff (h : Occupied e inode s) : Truncatable e inode s ↔
    ∀ q, (s.shape Unit).Pos q → s.refAt e inode q ≠ 0 →
      Passes s (fileBlockCount s.super inode) q ∧ s.Described (s.refAt e inode q) := by
  constructor
  · intro ht q hq hne
    refine ⟨⟨fun hslot => ?_, fun hleaf => (h.data_lt_iff hleaf hne).mpr ?_⟩, ht.described hq hne⟩
    · by_contra hnil
      exact hne (ht.third hq hslot hnil)
    · exact ht.size.resolve_right fun hnone => hne (hnone q hleaf)
  · intro hpass
    refine ⟨fun {q} hq hslot hnil => ?_, ?_, fun {q} hq hne => (hpass q hq hne).2⟩
    · by_contra hne
      exact hnil ((hpass q hq hne).1.third hslot)
    · by_cases hfits : inode.iSize + s.super.blockSize ≤ 2 ^ 32
      · exact .inl hfits
      · refine .inr fun q hleaf => ?_
        by_contra hne
        exact hfits ((h.data_lt_iff hleaf hne).mp ((hpass q hleaf.pos hne).1.data hleaf))

/-- Everything is freed when the walk passes by no block and can free all. -/
theorem Occupied.frees_iff (h : Occupied e inode s) (he : e.Reliable) :
    (∃ r t, truncateInode e inode s = .ok (r, t) ∧ FreesAll e inode s t) ↔
      ∀ q, (s.shape Unit).Pos q → s.refAt e inode q ≠ 0 →
        Passes s (fileBlockCount s.super inode) q ∧ s.Described (s.refAt e inode q) := by
  constructor
  · rintro ⟨r, t, hrun, hall⟩ q hq hne
    rcases h.truncateInode_run he with ⟨r', t', hrun', -, hdesc, hfreed⟩ | ⟨hrun', -⟩
    · obtain ⟨-, rfl⟩ : r = r' ∧ t = t' := by
        rw [hrun] at hrun'
        exact Prod.mk.inj (Except.ok.inj hrun')
      have hheld := h.held hq hne
      have hbit := hall.freed hq hne
      rw [hfreed.bit hheld.group] at hbit
      by_cases hmem : s.refAt e inode q ∈ releasedBlocks e inode s
      · exact ⟨(h.mem_releasedBlocks hq hne).mp hmem, hdesc _ hmem⟩
      · rw [if_neg fun hin => hmem hin.2, hheld.used] at hbit
        cases hbit
    · rw [hrun] at hrun'
      cases hrun'
  · intro hpass
    obtain ⟨r, t, hrun, -, -, hfreed⟩ := (h.truncateInode_run he).resolve_right (by
      rintro ⟨-, y, hy, hundesc⟩
      obtain ⟨q, hq, rfl⟩ := List.mem_map.mp hy
      obtain ⟨hpos, hne, -⟩ := mem_released_iff.mp hq
      exact hundesc (hpass q hpos hne).2)
    refine ⟨r, t, hrun, fun {q} hq hne => ?_, fun {k n} hn hnot => ?_, _, ?_, fun y => ?_,
      hfreed.blocks⟩
    · rw [hfreed.bit (h.held hq hne).group,
        if_pos ⟨rfl, (h.mem_releasedBlocks hq hne).mpr (hpass q hq hne).1⟩]
    · rw [hfreed.bit hn, if_neg]
      rintro ⟨hk, hmem⟩
      obtain ⟨q, hq, heq⟩ := List.mem_map.mp hmem
      obtain ⟨hpos, hne, -⟩ := mem_released_iff.mp hq
      exact hnot hk q hpos hne heq
    · exact nodup_released.map_on fun q hq q' hq' heq =>
        h.refAt_inj hq (mem_released_iff.mp hq').1 heq
    · constructor
      · intro hmem
        obtain ⟨q, hq, heq⟩ := List.mem_map.mp hmem
        obtain ⟨hpos, hne, -⟩ := mem_released_iff.mp hq
        exact ⟨q, hpos, hne, heq⟩
      · rintro ⟨q, hq, hne, rfl⟩
        exact (h.mem_releasedBlocks hq hne).mpr (hpass q hq hne).1

theorem FreesAll.of_walled (h : FreesAll e.walled inode s t) : FreesAll e inode s t :=
  ⟨h.freed, h.kept, h.count⟩

/-- **When `TruncateInode` frees everything.**  The blocks of the inode are different, in use and
inside its size.  Then, whatever memory there is behind the buffers, they are all marked free, and
nothing else is, exactly when nothing stands below the root of the third tree,
`i_size + block_size` does not leave its 32 bits, or the inode has no data, and the groups of all
blocks have their descriptors in the one block that is read. -/
theorem truncateInode_frees_iff (he : e.Reliable) (h : Occupied e.walled inode s) :
    (∀ mapped, ∃ r t, truncateInode (e.over mapped) inode s = .ok (r, t) ∧
      FreesAll (e.over mapped) inode s t) ↔ Truncatable e.walled inode s := by
  rw [h.truncatable_iff, ← h.frees_iff he.walled]
  constructor
  · exact fun hall => hall fun _ => false
  · rintro ⟨r, t, hrun, hfrees⟩ mapped
    exact ⟨r, t, below_truncateInode (e := e.over mapped) inode hrun,
      FreesAll.of_walled (e := e.over mapped) hfrees⟩

/-! ## Small files -/

namespace Small

/-- An inode that refers to block 7, and to no other. -/
theorem ref_single {p : FilePos} (hblocks : ∀ slot < 15, inode.iBlock slot = if slot =
    0 then 7 else 0)
    (hp : (s.shape Unit).Pos p) (hne : s.refAt e inode p ≠ 0) :
    p = (((), 0), []) ∧ s.refAt e inode p = 7 := by
  obtain ⟨⟨⟨⟩, slot⟩, is⟩ := p
  have hroot := hblocks slot hp.root
  by_cases hzero : slot = 0
  · subst hzero
    have hnil : is = [] := List.eq_nil_of_length_eq_zero (Nat.le_zero.mp hp.length)
    subst hnil
    exact ⟨rfl, hroot⟩
  · rw [if_neg hzero] at hroot
    refine absurd ?_ hne
    show walk _ (inode.iBlock slot) is = 0
    rw [hroot, walk_zero]

theorem occupied_single (hblocks : ∀ slot < 15, inode.iBlock slot = if slot = 0 then 7 else 0)
    (hsize : 0 < inode.iSize) : Occupied (Env.ideal 0) inode (volume 0 0xFF) where
  roles := roles_volume Nat.two_pos
  unshared p q hp hq hne heq := by
    rw [(ref_single hblocks hp hne).1, (ref_single hblocks hq fun hzero => hne (heq.trans hzero)).1]
  held {q} hq hne := by
    rw [(ref_single hblocks hq hne).2]
    refine ⟨by decide, bit_volume Nat.two_pos (by decide), fun hm => ?_⟩
    exact absurd (meta_volume Nat.two_pos hm) (by decide)
  inside {q} hq hne := by
    rw [(ref_single hblocks hq.pos hne).1]
    show 0 * _ < _
    rwa [Nat.zero_mul]

/-- A file of one block and a long hole behind it. -/
def longInode : Inode := ⟨store (fun _ => 0) [(0, 2, 0x81A4), (4, 4, 2 ^ 32 - 1), (40, 4, 7)]⟩

/-- The small volume with the blocks 7 and 8 in use, the first of them a pointer to the other. -/
def paired : State :=
  { volume 0 0xFF with
    disk := store (volume 0 0xFF).disk [(2060, 2, 7), (3072, 2, 0x1FF), (7168, 4, 8)]
    super := (super 0).setFreeBlocksCount 7 }

theorem sameLayout_paired : SameLayout (Env.ideal 0) (volume 0 0xFF) paired :=
  sameLayout_store ((super 0).sameGeometry_setFreeBlocksCount 7) rfl (by simp)

/-- A file with a hole of twelve blocks, and a byte in the block behind it. -/
def holedInode : Inode :=
  ⟨store (fun _ => 0) [(0, 2, 0x81A4), (4, 4, 12289), (88, 4, 7)]⟩

theorem words_paired : ∀ i < 256, paired.words (Env.ideal 0) 7 i = if i = 0 then 8 else 0 := by
  decide +kernel

/-- The inode refers to the two blocks, and to no other. -/
theorem ref_holed {p : FilePos} (hp : (paired.shape Unit).Pos p)
    (hne : paired.refAt (Env.ideal 0) holedInode p ≠ 0) :
    (p = (((), 12), []) ∧ paired.refAt (Env.ideal 0) holedInode p = 7) ∨
      p = (((), 12), [0]) ∧ paired.refAt (Env.ideal 0) holedInode p = 8 := by
  obtain ⟨⟨⟨⟩, slot⟩, is⟩ := p
  have hblocks : ∀ slot < 15, holedInode.iBlock slot = if slot = 12 then 7 else 0 := by decide
  have hroot := hblocks slot hp.root
  by_cases h12 : slot = 12
  · subst h12
    have hptrs : paired.super.ptrsPerBlock = 256 := by decide
    rcases is with _ | ⟨i, _ | ⟨j, is⟩⟩
    · exact .inl ⟨rfl, hroot⟩
    · have hi : i < paired.super.ptrsPerBlock := hp.index i List.mem_cons_self
      rw [hptrs] at hi
      have href : paired.refAt (Env.ideal 0) holedInode (((), 12), [i]) =
          if i = 0 then 8 else 0 := by
        rw [← words_paired i hi]
        show walk (paired.words (Env.ideal 0)) (holedInode.iBlock 12) [i] = _
        rw [hroot]
        rfl
      by_cases hzero : i = 0
      · rw [if_pos hzero] at href
        exact .inr ⟨by rw [hzero], href⟩
      · rw [if_neg hzero] at href
        exact absurd href hne
    · exact absurd hp.length (by simp [State.shape, slotDepth])
  · rw [if_neg h12] at hroot
    refine absurd ?_ hne
    show walk _ (holedInode.iBlock slot) is = 0
    rw [hroot, walk_zero]

theorem held_paired {x : Nat} (hx : x = 7 ∨ x = 8) : Held (Env.ideal 0) paired x := by
  refine ⟨?_, ?_, fun hm => ?_⟩
  · rcases hx with rfl | rfl <;> decide
  · rcases hx with rfl | rfl <;> decide
  · have hlt := meta_volume Nat.two_pos (sameLayout_paired.meta_of hm)
    omega

theorem occupied_holed : Occupied (Env.ideal 0) holedInode paired where
  roles := sameLayout_paired.roles (roles_volume Nat.two_pos)
  unshared p q hp hq hne heq := by
    rcases ref_holed hp hne with ⟨rfl, hp'⟩ | ⟨rfl, hp'⟩
    · rcases ref_holed hq (fun hzero => hne (heq.trans hzero)) with ⟨rfl, hq'⟩ | ⟨rfl, hq'⟩
      · rfl
      · exact absurd (hp'.symm.trans (heq.trans hq')) (by decide)
    · rcases ref_holed hq (fun hzero => hne (heq.trans hzero)) with ⟨rfl, hq'⟩ | ⟨rfl, hq'⟩
      · exact absurd (hp'.symm.trans (heq.trans hq')) (by decide)
      · rfl
  held {q} hq hne := by
    rcases ref_holed hq hne with ⟨-, href⟩ | ⟨-, href⟩
    · exact held_paired (.inl href)
    · exact held_paired (.inr href)
  inside {q} hq hne := by
    rcases ref_holed hq.pos hne with ⟨rfl, -⟩ | ⟨rfl, -⟩
    · exact absurd hq.2 (by decide)
    · decide

end Small

/-- The block of data and the pointer block of a file with a hole are freed. -/
theorem truncateInode_frees_holed :
    Small.paired.refAt (Env.ideal 0) Small.holedInode (((), 12), []) = 7 ∧
      Small.paired.refAt (Env.ideal 0) Small.holedInode (((), 12), [0]) = 8 ∧
      ∀ mapped, ∃ r t,
        truncateInode ((Env.ideal 0).over mapped) Small.holedInode Small.paired = .ok (r, t) ∧
          FreesAll ((Env.ideal 0).over mapped) Small.holedInode Small.paired t := by
  refine ⟨by decide, by decide, (truncateInode_frees_iff (Env.ideal_reliable 0)
    Small.occupied_holed).mpr ⟨fun {q} hq hslot _ => ?_, .inl (by decide), fun {q} hq hne => ?_⟩⟩
  · by_contra hne
    rcases Small.ref_holed hq hne with ⟨rfl, -⟩ | ⟨rfl, -⟩
    · cases hslot
    · cases hslot
  · have hdescribed : ∀ x, x = 7 ∨ x = 8 → Small.paired.Described x := by
      rintro x (rfl | rfl)
      · exact show GroupDesc.size * _ + _ ≤ _ by decide
      · exact show GroupDesc.size * _ + _ ≤ _ by decide
    exact hdescribed _ ((Small.ref_holed hq hne).imp And.right And.right)

/-- The block of a file with a size near `2 ^ 32` is not freed. -/
theorem truncateInode_leaves_long : ¬ ∃ r t,
    truncateInode (Env.ideal 0) Small.longInode (Small.volume 0 0xFF) = .ok (r, t) ∧
      FreesAll (Env.ideal 0) Small.longInode (Small.volume 0 0xFF) t := by
  have hblocks : ∀ slot < 15, Small.longInode.iBlock slot = if slot = 0 then 7 else 0 := by
    decide
  have hocc := Small.occupied_single hblocks (by decide)
  rw [hocc.frees_iff (Env.ideal_reliable 0)]
  intro hpass
  have hpos : ((Small.volume 0 0xFF).shape Unit).Pos (((), 0), []) :=
    ⟨show 0 < 15 by decide, fun _ hi => absurd hi List.not_mem_nil, Nat.zero_le _⟩
  have hleaf : ((Small.volume 0 0xFF).shape Unit).Leaf (((), 0), []) := ⟨hpos, rfl⟩
  have hne : (Small.volume 0 0xFF).refAt (Env.ideal 0) Small.longInode (((), 0), []) ≠ 0 := by
    decide
  exact absurd ((hocc.data_lt_iff hleaf hne).mp ((hpass _ hpos hne).1.data hleaf)) (by decide)

end InfoKernel.Ext2
