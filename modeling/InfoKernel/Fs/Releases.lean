import InfoKernel.Fs.FileBytes

/-!
# Freeing many blocks

A call that frees a file walks through its pointer blocks and frees blocks on the way.  `Freed` says
what has become of a volume when the blocks of a list have been freed: their bits are clear, the
count has gone up by their number, and the data, which includes all pointer blocks, is what it was.
So what is read later on is what stood there at the beginning, and `Frees` says of a program which
list it frees, seen from there; programs put together free their lists one behind the other.
-/

namespace InfoKernel.Ext2

open Lib

variable {α β : Type} {e : Env} {s t u : State} {x y : Nat} {l l' : List Nat}

/-- The descriptor of the group of block `x` lies in the block that descriptors are read from. -/
def State.Described (s : State) (x : Nat) : Prop := s.Fits (x / Kind.block.perGroup s.super)

/-- A block of data that is marked used. -/
structure Held (e : Env) (s : State) (x : Nat) : Prop where
  group : x / Kind.block.perGroup s.super < s.groups .block
  used : s.bit e .block x = true
  data : ¬ Meta e s x

/-- **The blocks of `l` have been marked free**, and no other bit has changed. -/
structure Freed (e : Env) (s : State) (l : List Nat) (t : State) : Prop where
  layout : SameLayout e s t
  bit {k : Kind} {n : Nat} : n / k.perGroup s.super < s.groups k →
    t.bit e k n = if k = .block ∧ n ∈ l then false else s.bit e k n
  block {y i : Nat} : 0 < s.groups .block → Lasting e s y → i < s.super.blockSize →
    t.block e y i = s.block e y i
  blocks : t.super.sFreeBlocksCount = u32 (s.super.sFreeBlocksCount + l.length)
  inodes : t.super.sFreeInodesCount = s.super.sFreeInodesCount
  counted : Counted e s → (∀ y ∈ l, s.super.sFirstDataBlock ≤ y) → Counted e t

namespace Freed

theorem refl (s : State) (c : Nat) : Freed e s [] (s.at c) where
  layout := (Frame.at_right (A := fun _ => False) s c).layout
  bit _ := by simp only [List.not_mem_nil, and_false, if_false]; rfl
  block _ _ _ := rfl
  blocks := (Nat.mod_eq_of_lt (getLE_lt _ 12 4)).symm
  inodes := rfl
  counted h _ := h.same c s.noSpace

theorem trans (h : Freed e s l t) (h' : Freed e t l' u) : Freed e s (l ++ l') u where
  layout := h.layout.trans h'.layout
  bit {k n} hn := by
    have hn' : n / k.perGroup t.super < t.groups k := by
      rwa [h.layout.perGroup, h.layout.groups]
    rw [h'.bit hn', h.bit hn]
    by_cases hmem : k = .block ∧ n ∈ l'
    · rw [if_pos hmem, if_pos ⟨hmem.1, List.mem_append_right _ hmem.2⟩]
    · rw [if_neg hmem]
      by_cases hmem' : k = .block ∧ n ∈ l
      · rw [if_pos hmem', if_pos ⟨hmem'.1, List.mem_append_left _ hmem'.2⟩]
      · rw [if_neg hmem', if_neg]
        rintro ⟨hk, hin⟩
        rcases List.mem_append.mp hin with hin | hin
        · exact hmem' ⟨hk, hin⟩
        · exact hmem ⟨hk, hin⟩
  block {y i} hg hy hi := by
    rw [h'.block (by rwa [h.layout.groups]) (hy.of_layout h.layout)
      (by rwa [h.layout.geometry.blockSize]), h.block hg hy hi]
  blocks := by
    rw [h'.blocks, h.blocks, List.length_append]
    simp only [u32]
    omega
  inodes := h'.inodes.trans h.inodes
  counted hc hl := by
    have hfirst : t.super.sFirstDataBlock = s.super.sFirstDataBlock := h.layout.lowest .block
    refine h'.counted (h.counted hc fun y hy => hl y (List.mem_append_left _ hy)) fun y hy => ?_
    rw [hfirst]
    exact hl y (List.mem_append_right _ hy)

/-- The blocks of data and the other used blocks stay used. -/
theorem held (h : Freed e s l t) (hx : Held e s x) (hmem : x ∉ l) : Held e t x where
  group := by
    rw [h.layout.perGroup, h.layout.groups]
    exact hx.group
  used := by
    rw [h.bit hx.group, if_neg fun hin => hmem hin.2]
    exact hx.used
  data hm := hx.data (h.layout.meta_of hm)

/-- What is free now has been freed, or was free before. -/
theorem free_or (h : Freed e s l t) {k : Kind} {n : Nat} (hf : Free e t k n) :
    (k = .block ∧ n ∈ l) ∨ Free e s k n := by
  have hn : n / k.perGroup s.super < s.groups k := by
    have hgroup := hf.group
    rwa [h.layout.perGroup, h.layout.groups] at hgroup
  have hclear := hf.clear
  rw [h.bit hn] at hclear
  by_cases hmem : k = .block ∧ n ∈ l
  · exact .inl hmem
  · rw [if_neg hmem] at hclear
    exact .inr ⟨hn, h.layout.lowest k ▸ hf.lowest, hclear⟩

theorem consistent (h : Freed e s l t) (hs : Consistent e s) (hl : ∀ y ∈ l, ¬ Meta e s y) :
    Consistent e t where
  roles := h.layout.roles hs.roles
  meta_used {y} hy hf := by
    have hy := h.layout.meta_of hy
    rcases h.free_or hf with ⟨-, hmem⟩ | hf
    · exact hl y hmem hy
    · exact hs.meta_used hy hf

theorem owned (h : Freed e s l t) (hx : Owned e s x) (hmem : x ∉ l) : Owned e t x where
  used hf := (h.free_or hf).elim (fun hin => hmem hin.2) hx.used
  data hm := hx.data (h.layout.meta_of hm)

section Maps

variable {κ : Type} {f : κ → Inode}

/-- The pointer blocks hold what they held. -/
theorem ref_eq (h : Freed e s l t) (hm : Mapped e f s) (hg : 0 < s.groups .block)
    {p : (κ × Nat) × List Nat} (hp : (s.shape κ).Pos p) :
    (t.forest e f).ref p = (s.forest e f).ref p := by
  have hroot : (t.forest e f).root = (s.forest e f).root := rfl
  refine Forest.ref_of_same hroot (fun q hq hne i hi => ?_) hp
  exact words_congr (fun _ hj => h.block hg (.of_data (hm.owned hq hne).data) hj) hi

theorem mapped (h : Freed e s l t) (hm : Mapped e f s) (hg : 0 < s.groups .block)
    (hl : ∀ y ∈ l, ¬ Meta e s y)
    (hinner : ∀ {p}, (s.shape κ).Inner p → (s.forest e f).ref p ∉ l) : Mapped e f t where
  consistent := h.consistent hm.consistent hl
  unshared p q hp hq hne heq := by
    rw [State.shape_congr h.layout.geometry] at hp hq
    rw [h.ref_eq hm hg hp.pos] at hne heq
    rw [h.ref_eq hm hg hq.pos] at heq
    exact hm.unshared p q hp hq hne heq
  owned {p} hp hne := by
    rw [State.shape_congr h.layout.geometry] at hp
    rw [h.ref_eq hm hg hp.pos] at hne ⊢
    exact h.owned (hm.owned hp hne) (hinner hp)

end Maps

end Freed

theorem SameLayout.described (h : SameLayout e s t) (x : Nat) : t.Described x ↔ s.Described x := by
  rw [State.Described, State.Described, State.Fits, State.Fits, h.perGroup, h.geometry.blockSize]

/-- A block of data is not block 0. -/
theorem Held.ne_zero (h : Held e s x) : x ≠ 0 := by
  rintro rfl
  exact h.data (.super (Nat.zero_le _))

/-- The bit of a block in use has been cleared. -/
theorem Held.freed (hx : Held e s x)
    (hflip : Flip e .block x false
      (u16 (Kind.block.free (s.desc e (x / Kind.block.perGroup s.super)) + 1))
      (u32 (Kind.block.superFree s.super + 1)) (fun _ => False) s t) : Freed e s [x] t where
  layout := hflip.layout
  bit {k n} hn := by
    rw [hflip.bit hn]
    simp only [List.mem_singleton]
  block _ hy hi := hflip.block_lasting hx.group hy hi
  blocks := by
    rw [hflip.super]
    exact (Kind.block.superFree_setSuperFree_self).trans (Nat.mod_mod _ _)
  inodes := by
    rw [hflip.super]
    exact Kind.superFree_setSuperFree_of_ne (show Kind.inode ≠ .block by decide)
  counted hc hl := hc.release hx.group (hl x (List.mem_singleton_self x)) hx.used
    (fun _ => hx.data) (fun hk => by cases hk) hflip

section Freeing

variable (he : e.Reliable)

include he

/-- **`FreeBlock` of a block in use** frees it, when it comes by the descriptor of its group. -/
theorem freeBlock_run (hr : Roles e s) (hx : Held e s x) :
    (∃ t, freeBlock e x s = .ok (⟨⟩, t) ∧ s.Described x ∧ Freed e s [x] t) ∨
      (freeBlock e x s = .error .outOfBounds ∧ ¬ s.Described x) := by
  have hends := freeBit_ends he hr hx.group
  rw [Ends] at hends
  rw [freeBlock, if_neg hx.ne_zero]
  cases hrun : freeBit .block e x s with
  | error err =>
      rw [hrun] at hends
      obtain ⟨rfl, hfits⟩ := hends
      exact .inr ⟨rfl, hfits⟩
  | ok r =>
      rw [hrun] at hends
      obtain ⟨hfits, ⟨hclear, -⟩ | ⟨-, hflip⟩⟩ := hends
      · rw [hx.used] at hclear
        cases hclear
      · exact .inl ⟨r.2, rfl, hfits, hx.freed hflip⟩

end Freeing

/-! ## Programs that free -/

/-- **The program frees the blocks of `l`**, which are in use in `s` and have not been freed since,
and has a result that satisfies `P`; or it comes to one of them without a descriptor in the block
that descriptors are read from. -/
def Frees (e : Env) (s : State) (x : Io α) (l : List Nat) (P : α → Prop) : Prop :=
  ∀ ⦃l' t⦄, Freed e s l' t → (l' ++ l).Nodup → (∀ y ∈ l, Held e s y) →
    (∃ a u, x t = .ok (a, u) ∧ P a ∧ (∀ y ∈ l, s.Described y) ∧ Freed e s (l' ++ l) u) ∨
      (x t = .error .outOfBounds ∧ ∃ y ∈ l, ¬ s.Described y)

namespace Frees

variable {p : Io α} {f : α → Io β} {P : α → Prop} {Q : β → Prop}

theorem of_run (h : ∀ t, SameLayout e s t → (∀ y, 0 < s.groups .block → ¬ Meta e s y →
    ∀ i, i < s.super.blockSize → t.block e y i = s.block e y i) →
      ∃ a c, p t = .ok (a, t.at c) ∧ P a) :
    Frees e s p [] P := by
  intro l' t hf _ _
  obtain ⟨a, c, hrun, ha⟩ := h t hf.layout fun y hg hy i hi => hf.block hg (.of_data hy) hi
  exact .inl ⟨a, t.at c, hrun, ha, fun _ hy =>
    absurd hy List.not_mem_nil, hf.trans (Freed.refl t c)⟩

theorem pure {a : α} (h : P a) : Frees e s (pure a : Io α) [] P :=
  of_run fun t _ _ => ⟨a, t.clock, rfl, h⟩

theorem bind (hp : Frees e s p l P) (hf : ∀ a, P a → Frees e s (f a) l' Q) :
    Frees e s (p >>= f) (l ++ l') Q := by
  intro l₀ t ht hnodup hheld
  rw [← List.append_assoc] at hnodup ⊢
  rcases hp ht (List.nodup_append.mp hnodup).1 fun y hy => hheld y (List.mem_append_left _ hy) with
    ⟨a, u, hrun, ha, hdesc, hu⟩ | ⟨hrun, y, hy, hundesc⟩
  · rcases hf a ha hu hnodup fun y hy => hheld y (List.mem_append_right _ hy) with
      ⟨b, v, hrun', hb, hdesc', hv⟩ | ⟨hrun', y, hy, hundesc⟩
    · refine .inl ⟨b, v, (bind_apply_of_ok hrun).trans hrun', hb, fun y hy => ?_, hv⟩
      exact (List.mem_append.mp hy).elim (hdesc y) (hdesc' y)
    · exact .inr ⟨(bind_apply_of_ok hrun).trans hrun', y, List.mem_append_right _ hy, hundesc⟩
  · refine .inr ⟨?_, y, List.mem_append_left _ hy, hundesc⟩
    rw [bind_apply, hrun]
    rfl

theorem mono {P' : α → Prop} (h : Frees e s p l P) (hP : ∀ a, P a → P' a) : Frees e s p l P' := by
  intro l₀ t ht hnodup hheld
  rcases h ht hnodup hheld with ⟨a, u, hrun, ha, hu⟩ | hfail
  · exact .inl ⟨a, u, hrun, hP a ha, hu⟩
  · exact .inr hfail

/-- A first step that frees nothing. -/
theorem step (hp : Frees e s p [] P) (hf : ∀ a, P a → Frees e s (f a) l Q) :
    Frees e s (p >>= f) l Q := by
  have h := hp.bind hf
  rwa [List.nil_append] at h

/-- A last step that frees nothing. -/
theorem last (hp : Frees e s p l P) (hf : ∀ a, P a → Frees e s (f a) [] Q) :
    Frees e s (p >>= f) l Q := by
  have h := hp.bind hf
  rwa [List.append_nil] at h

theorem super : Frees e s super [] fun sb => s.super.SameGeometry sb :=
  of_run fun t hl _ => ⟨t.super, t.clock, rfl, hl.geometry⟩

theorem pageAlloc (he : e.Reliable) : Frees e s (pageAlloc e) [] fun b => b = true :=
  of_run fun _ _ _ => ⟨true, _, pageAlloc_run he, rfl⟩

/-- What is read of a block of data is what it held at the beginning. -/
theorem readBlock (he : e.Reliable) (hg : 0 < s.groups .block) (hx : ¬ Meta e s x) :
    Frees e s (readBlock e x) [] fun r => ∃ buf, r = some buf ∧
      ∀ i, i < s.super.blockSize → buf i = s.block e x i := by
  refine of_run fun t hl hblock => ⟨_, _, readBlock_run he x, _, rfl, fun i hi => ?_⟩
  rw [hl.geometry.blockSize, copyOut_of_lt hi]
  exact hblock x hg hx i hi

theorem freeBlock (he : e.Reliable) (hr : Roles e s) :
    Frees e s (freeBlock e x) [x] fun _ => True := by
  intro l' t ht hnodup hheld
  have hx := hheld x (List.mem_singleton_self x)
  have hmem : x ∉ l' := fun hin =>
    (List.nodup_append.mp hnodup).2.2 x hin x (List.mem_singleton_self x) rfl
  rcases freeBlock_run he (ht.layout.roles hr) (ht.held hx hmem) with
    ⟨u, hrun, hdesc, hu⟩ | ⟨hrun, hundesc⟩
  · refine .inl ⟨⟨⟩, u, hrun, True.intro, fun y hy => ?_, ht.trans hu⟩
    rw [List.mem_singleton.mp hy]
    exact (ht.layout.described x).mp hdesc
  · exact .inr ⟨hrun, x, List.mem_singleton_self x, fun h =>
      hundesc ((ht.layout.described x).mpr h)⟩

/-- The whole program. -/
theorem run (h : Frees e s p l P) (hnodup : l.Nodup) (hheld : ∀ y ∈ l, Held e s y) :
    (∃ a t, p s = .ok (a, t) ∧ P a ∧ (∀ y ∈ l, s.Described y) ∧ Freed e s l t) ∨
      (p s = .error .outOfBounds ∧ ∃ y ∈ l, ¬ s.Described y) := by
  have hnil : Freed e s [] s := Freed.refl s s.clock
  simpa only [List.nil_append] using h hnil (by simpa only [List.nil_append] using hnodup) hheld

end Frees

end InfoKernel.Ext2
