import InfoKernel.Lib.Tree

/-!
# Red-black trees

A tree whose elements are coloured by `red` is a red-black tree when its root is
black, no red element has a red child, and every path from the root to an empty
subtree passes the same number of black elements.  The last two conditions are taken
apart at a hole: `noRedRed_plug` and `blackHeight_plug` say what the context asks of
the tree in it, namely the colour of its root and its black height.  A repair that
works its way up the tree changes these two, and nothing else has to be looked at.
-/

namespace BinaryTree

variable {α : Type*} (red : α → Bool)

/-- The root is red. -/
def topRed (t : BinaryTree α) : Bool :=
  match top t with
  | none => false
  | some x => red x

/-- No red element has a red child. -/
def NoRedRed : BinaryTree α → Prop
  | nil => True
  | node x l r => (red x = true → topRed red l = false ∧ topRed red r = false) ∧
      NoRedRed l ∧ NoRedRed r

/-- What an element counts on a path. -/
def blackCost (x : α) : Nat := if red x then 0 else 1

/-- The numbers of black elements on the paths from the root to the empty subtrees. -/
def blackCounts : BinaryTree α → List Nat
  | nil => [0]
  | node x l r => (blackCounts l ++ blackCounts r).map (· + blackCost red x)

/-- Every path from the root to an empty subtree passes `n` black elements. -/
def BlackHeight (t : BinaryTree α) (n : Nat) : Prop := ∀ k ∈ blackCounts red t, k = n

/-- **Red-black trees.** -/
structure RedBlack (t : BinaryTree α) : Prop where
  top : topRed red t = false
  noRedRed : NoRedRed red t
  height : ∃ n, BlackHeight red t n

variable {red}

@[simp] theorem topRed_nil : topRed red (nil : BinaryTree α) = false := rfl

@[simp] theorem topRed_branch (d : Side) (a : BinaryTree α) (x : α) (b : BinaryTree α) :
    topRed red (branch d a x b) = red x := by
  rw [topRed, top_branch]

@[simp] theorem noRedRed_nil : NoRedRed red (nil : BinaryTree α) := trivial

theorem noRedRed_branch {d : Side} {a b : BinaryTree α} {x : α} :
    NoRedRed red (branch d a x b) ↔
      (red x = true → topRed red a = false ∧ topRed red b = false) ∧ NoRedRed red a ∧
        NoRedRed red b := by
  cases d
  · rfl
  · simp only [branch, NoRedRed]
    tauto

theorem exists_mem_blackCounts (red : α → Bool) (t : BinaryTree α) :
    ∃ k, k ∈ blackCounts red t := by
  induction t with
  | nil => exact ⟨0, by simp [blackCounts]⟩
  | node x l r ihl _ =>
      obtain ⟨k, hk⟩ := ihl
      exact ⟨k + blackCost red x, by simp [blackCounts, hk]⟩

@[simp] theorem blackHeight_nil {n : Nat} : BlackHeight red (nil : BinaryTree α) n ↔ n = 0 := by
  simp [BlackHeight, blackCounts, eq_comm]

theorem blackHeight_branch {d : Side} {a b : BinaryTree α} {x : α} {n : Nat} :
    BlackHeight red (branch d a x b) n ↔
      ∃ m, BlackHeight red a m ∧ BlackHeight red b m ∧ n = m + blackCost red x := by
  have hmem : ∀ k, k ∈ blackCounts red (branch d a x b) ↔
      ∃ j, (j ∈ blackCounts red a ∨ j ∈ blackCounts red b) ∧ j + blackCost red x = k := by
    intro k
    cases d <;> simp only [branch, blackCounts, List.mem_map, List.mem_append]
    simp only [or_comm]
  constructor
  · intro h
    obtain ⟨m, hm⟩ := exists_mem_blackCounts red a
    have hn : m + blackCost red x = n := h _ ((hmem _).mpr ⟨m, .inl hm, rfl⟩)
    refine ⟨m, fun k hk => ?_, fun k hk => ?_, hn.symm⟩
    · have := h _ ((hmem _).mpr ⟨k, .inl hk, rfl⟩)
      omega
    · have := h _ ((hmem _).mpr ⟨k, .inr hk, rfl⟩)
      omega
  · rintro ⟨m, ha, hb, rfl⟩ k hk
    obtain ⟨j, hj, rfl⟩ := (hmem k).mp hk
    rcases hj with hj | hj
    · rw [ha j hj]
    · rw [hb j hj]

theorem BlackHeight.unique {t : BinaryTree α} {m n : Nat} (hm : BlackHeight red t m)
    (hn : BlackHeight red t n) : m = n := by
  obtain ⟨k, hk⟩ := exists_mem_blackCounts red t
  exact (hm k hk).symm.trans (hn k hk)

/-- The condition on what is below a hole, from above: `b` is the colour of the root
of the tree in the hole. -/
def CtxNoRedRed (red : α → Bool) : Ctx α → Bool → Prop
  | [], _ => True
  | f :: c, b => (red f.elem = true → b = false ∧ topRed red f.other = false) ∧
      NoRedRed red f.other ∧ CtxNoRedRed red c (red f.elem)

/-- A tree of black height `m` in the hole makes one of black height `n`. -/
def CtxHeight (red : α → Bool) : Ctx α → Nat → Nat → Prop
  | [], m, n => m = n
  | f :: c, m, n => BlackHeight red f.other m ∧ CtxHeight red c (m + blackCost red f.elem) n

theorem noRedRed_plug {c : Ctx α} {t : BinaryTree α} :
    NoRedRed red (plug c t) ↔ NoRedRed red t ∧ CtxNoRedRed red c (topRed red t) := by
  induction c generalizing t with
  | nil => simp [CtxNoRedRed]
  | cons f c ih =>
      rw [plug_cons, ih, noRedRed_branch, topRed_branch, CtxNoRedRed]
      tauto

theorem blackHeight_plug {c : Ctx α} {t : BinaryTree α} {n : Nat} :
    BlackHeight red (plug c t) n ↔ ∃ m, BlackHeight red t m ∧ CtxHeight red c m n := by
  induction c generalizing t with
  | nil =>
      constructor
      · intro h
        exact ⟨n, h, rfl⟩
      · rintro ⟨m, h, rfl⟩
        exact h
  | cons f c ih =>
      rw [plug_cons, ih]
      constructor
      · rintro ⟨m, hm, hc⟩
        obtain ⟨k, ht, ho, rfl⟩ := blackHeight_branch.mp hm
        exact ⟨k, ht, ho, hc⟩
      · rintro ⟨k, ht, ho, hc⟩
        exact ⟨_, blackHeight_branch.mpr ⟨k, ht, ho, rfl⟩, hc⟩

theorem CtxNoRedRed.to_false {c : Ctx α} {b : Bool} (h : CtxNoRedRed red c b) :
    CtxNoRedRed red c false := by
  cases c with
  | nil => trivial
  | cons f c => exact ⟨fun hf => ⟨rfl, (h.1 hf).2⟩, h.2⟩

/-! ## Changing colours -/

variable {red' : α → Bool}

theorem topRed_congr {t : BinaryTree α} (h : ∀ x ∈ t.inorder, red' x = red x) :
    topRed red' t = topRed red t := by
  cases t with
  | nil => rfl
  | node x l r => exact h x (by simp)

theorem NoRedRed.congr {t : BinaryTree α} (hr : NoRedRed red t)
    (h : ∀ x ∈ t.inorder, red' x = red x) : NoRedRed red' t := by
  induction t with
  | nil => trivial
  | node x l r ihl ihr =>
      have hl : ∀ y ∈ l.inorder, red' y = red y := fun y hy => h y (by simp [hy])
      have hr' : ∀ y ∈ r.inorder, red' y = red y := fun y hy => h y (by simp [hy])
      refine ⟨fun hx => ?_, ihl hr.2.1 hl, ihr hr.2.2 hr'⟩
      rw [topRed_congr hl, topRed_congr hr']
      exact hr.1 ((h x (by simp)).symm.trans hx)

theorem BlackHeight.congr {t : BinaryTree α} {n : Nat} (hn : BlackHeight red t n)
    (h : ∀ x ∈ t.inorder, red' x = red x) : BlackHeight red' t n := by
  induction t generalizing n with
  | nil => exact hn
  | node x l r ihl ihr =>
      obtain ⟨m, hl, hr, rfl⟩ := (blackHeight_branch (d := .left)).mp hn
      refine (blackHeight_branch (d := .left)).mpr
        ⟨m, ihl hl fun y hy => h y (by simp [hy]), ihr hr fun y hy => h y (by simp [hy]), ?_⟩
      rw [blackCost, blackCost, h x (by simp)]

/-- Two contexts that differ in their elements alone, with the same colours. -/
def SameColors (red red' : α → Bool) (c c' : Ctx α) : Prop :=
  List.Forall₂ (fun f f' => f'.other = f.other ∧ red' f'.elem = red f.elem ∧
    ∀ x ∈ f.other.inorder, red' x = red x) c c'

theorem sameColors_of_agree {c : Ctx α} (h : ∀ x ∈ ctxElems c, red' x = red x) :
    SameColors red red' c c := by
  induction c with
  | nil => exact .nil
  | cons f c ih =>
      obtain ⟨d, x, s⟩ := f
      refine .cons ⟨rfl, h x (mem_ctxElems_cons.mpr (.inl rfl)), fun y hy => ?_⟩
        (ih fun y hy => ?_)
      · exact h y (mem_ctxElems_cons.mpr (.inr (.inl hy)))
      · exact h y (mem_ctxElems_cons.mpr (.inr (.inr hy)))

/-- Colours that are changed again, away from the context. -/
theorem SameColors.agree {red₂ : α → Bool} {c c' : Ctx α} (hs : SameColors red red' c c')
    (h : ∀ x ∈ ctxElems c', red₂ x = red' x) : SameColors red red₂ c c' := by
  induction hs with
  | nil => exact .nil
  | @cons f f' _ c' hf _ ih =>
      obtain ⟨d, y, s⟩ := f'
      obtain ⟨ho, he, hx⟩ := hf
      refine .cons ⟨ho, ?_, fun w hw => ?_⟩ (ih fun w hw => ?_)
      · exact (h y (mem_ctxElems_cons.mpr (.inl rfl))).trans he
      · have hws : w ∈ s.inorder := by
          rw [← ho] at hw
          exact hw
        exact (h w (mem_ctxElems_cons.mpr (.inr (.inl hws)))).trans (hx w hw)
      · exact h w (mem_ctxElems_cons.mpr (.inr (.inr hw)))

/-- One element in the place of another of the same colour. -/
theorem sameColors_replace {c₁ c₂ : Ctx α} {d : Side} {z y : α} {s : BinaryTree α}
    (h₁ : SameColors red red' c₁ c₁) (h₂ : SameColors red red' c₂ c₂) (hy : red' y = red z)
    (hs : ∀ x ∈ s.inorder, red' x = red x) :
    SameColors red red' (c₁ ++ ⟨d, z, s⟩ :: c₂) (c₁ ++ ⟨d, y, s⟩ :: c₂) := by
  induction c₁ with
  | nil => exact .cons ⟨rfl, hy, hs⟩ h₂
  | cons f c₁ ih =>
      cases h₁ with
      | cons hf hc => exact .cons hf (ih hc)

theorem SameColors.ctxNoRedRed {c c' : Ctx α} (hs : SameColors red red' c c') {b : Bool}
    (h : CtxNoRedRed red c b) : CtxNoRedRed red' c' b := by
  induction hs generalizing b with
  | nil => trivial
  | cons hf _ ih =>
      obtain ⟨ho, he, hx⟩ := hf
      refine ⟨fun hred => ?_, ?_, ?_⟩
      · rw [ho, topRed_congr hx]
        exact h.1 (he.symm.trans hred)
      · rw [ho]
        exact h.2.1.congr hx
      · rw [he]
        exact ih h.2.2

theorem SameColors.ctxHeight {c c' : Ctx α} (hs : SameColors red red' c c') {m n : Nat}
    (h : CtxHeight red c m n) : CtxHeight red' c' m n := by
  induction hs generalizing m with
  | nil => exact h
  | cons hf _ ih =>
      obtain ⟨ho, he, hx⟩ := hf
      refine ⟨?_, ?_⟩
      · rw [ho]
        exact h.1.congr hx
      · rw [blackCost, he]
        exact ih h.2

/-- The root of a plugged tree is in the context, unless that is a hole. -/
theorem SameColors.topRed_plug {c c' : Ctx α} (hs : SameColors red red' c c') (hc : c ≠ [])
    (t u : BinaryTree α) : topRed red' (plug c' u) = topRed red (plug c t) := by
  induction hs generalizing t u with
  | nil => exact absurd rfl hc
  | @cons f f' c c' hf hs ih =>
      rw [plug_cons, plug_cons]
      cases hs with
      | nil => rw [plug_nil, plug_nil, topRed_branch, topRed_branch, hf.2.1]
      | cons _ _ => exact ih (by simp) _ _

/-- The colours of the subtree and of the context, put together. -/
theorem redBlack_plug {c : Ctx α} {t : BinaryTree α} {m n : Nat} (ht : NoRedRed red t)
    (hm : BlackHeight red t m) (hc : CtxNoRedRed red c (topRed red t))
    (hn : CtxHeight red c m n) (htop : topRed red (plug c t) = false) :
    RedBlack red (plug c t) :=
  ⟨htop, noRedRed_plug.mpr ⟨ht, hc⟩, n, blackHeight_plug.mpr ⟨m, hm, hn⟩⟩

/-- Blackening the root of a tree that is red-black but for the root. -/
theorem redBlack_of_black_top {t : BinaryTree α} (hn : t.inorder.Nodup)
    (ht : NoRedRed red t) (hh : ∃ n, BlackHeight red t n) (htop : topRed red' t = false)
    (hag : ∀ w, top t ≠ some w → red' w = red w) : RedBlack red' t := by
  cases t with
  | nil => exact ⟨rfl, trivial, 0, by simp⟩
  | node x a b =>
      obtain ⟨n, hh⟩ := hh
      obtain ⟨m, ha, hb, -⟩ := (blackHeight_branch (d := .left)).mp hh
      obtain ⟨-, -, hxa, hxb, -⟩ := (nodup_inorder_branch (d := .left)).mp hn
      have hne : ∀ w, x ≠ w → red' w = red w := fun w hw =>
        hag w fun h => hw (Option.some.inj h)
      have haga : ∀ w ∈ a.inorder, red' w = red w := fun w hw => hne w fun h => hxa (h ▸ hw)
      have hagb : ∀ w ∈ b.inorder, red' w = red w := fun w hw => hne w fun h => hxb (h ▸ hw)
      have hx : red' x = false := htop
      exact ⟨htop,
        ⟨fun hx' => Bool.noConfusion (hx.symm.trans hx'), ht.2.1.congr haga,
          ht.2.2.congr hagb⟩,
        _, (blackHeight_branch (d := .left)).mpr ⟨m, ha.congr haga, hb.congr hagb, rfl⟩⟩

/-! ## Trees of black height 0 -/

/-- A tree of black height 0 with a black root is empty. -/
theorem eq_nil_of_blackHeight_zero {t : BinaryTree α} (h : BlackHeight red t 0)
    (ht : topRed red t = false) : t = nil := by
  cases t with
  | nil => rfl
  | node x l r =>
      obtain ⟨m, -, -, hm⟩ := (blackHeight_branch (d := .left)).mp h
      have hx : red x = false := ht
      rw [blackCost, hx] at hm
      exact absurd hm (by simp)

/-- A tree of black height 0 without red-red edges is empty or one red element. -/
theorem eq_leaf_of_blackHeight_zero {t : BinaryTree α} (h : BlackHeight red t 0)
    (hr : NoRedRed red t) : t = nil ∨ ∃ x, t = branch .left nil x nil ∧ red x = true := by
  cases t with
  | nil => exact .inl rfl
  | node x l r =>
      obtain ⟨m, hl, hr', hm⟩ := (blackHeight_branch (d := .left)).mp h
      have hx : red x = true := by
        by_contra hx
        rw [blackCost, if_neg hx] at hm
        omega
      rw [blackCost, if_pos hx, Nat.add_zero] at hm
      subst hm
      obtain ⟨hlb, hrb⟩ := hr.1 hx
      rw [eq_nil_of_blackHeight_zero hl hlb, eq_nil_of_blackHeight_zero hr' hrb]
      exact .inr ⟨x, rfl, hx⟩

/-! ## Taking out an element that lacks a child

`y` lacks a child and its other child `a` takes its place, in a context of the same
colours. -/

section Splice

variable {c c' : Ctx α} {d : Side} {y : α} {a : BinaryTree α}

theorem RedBlack.blackHeight_splice (h : RedBlack red (plug c (branch d nil y a))) :
    BlackHeight red a 0 ∧ NoRedRed red a ∧ ∃ n, CtxHeight red c (blackCost red y) n := by
  obtain ⟨n, hn⟩ := h.height
  obtain ⟨m, hm, hc⟩ := blackHeight_plug.mp hn
  obtain ⟨k, hk, ha, rfl⟩ := blackHeight_branch.mp hm
  rw [blackHeight_nil] at hk
  subst hk
  rw [Nat.zero_add] at hc
  exact ⟨ha, (noRedRed_branch.mp (noRedRed_plug.mp h.noRedRed).1).2.2, n, hc⟩

/-- A red element without a child has no children, and the rest is a red-black tree. -/
theorem RedBlack.splice_red (h : RedBlack red (plug c (branch d nil y a)))
    (hs : SameColors red red' c c') (hy : red y = true) :
    a = nil ∧ RedBlack red' (plug c' a) := by
  obtain ⟨ha, -, n, hn⟩ := h.blackHeight_splice
  obtain ⟨ht, hctx⟩ := noRedRed_plug.mp h.noRedRed
  obtain rfl : a = nil := eq_nil_of_blackHeight_zero ha ((noRedRed_branch.mp ht).1 hy).2
  have hc : c ≠ [] := by
    rintro rfl
    have htop := h.top
    rw [plug_nil, topRed_branch, hy] at htop
    cases htop
  rw [blackCost, if_pos hy] at hn
  refine ⟨rfl, redBlack_plug (m := 0) trivial (by simp) (hs.ctxNoRedRed hctx.to_false)
    (hs.ctxHeight hn) ?_⟩
  rw [hs.topRed_plug hc]
  exact h.top

/-- The only child of an element is a red leaf below a black element; blackened, it takes
the place of the element. -/
theorem RedBlack.splice_child (h : RedBlack red (plug c (branch d nil y a)))
    (ha : a ≠ nil) : ∃ w, a = branch .left nil w nil ∧ red w = true ∧ red y = false ∧
      ∀ (red' : α → Bool) (c' : Ctx α), SameColors red red' c c' → red' w = false →
        RedBlack red' (plug c' a) := by
  obtain ⟨hh, hrr, n, hn⟩ := h.blackHeight_splice
  obtain ⟨ht, hctx⟩ := noRedRed_plug.mp h.noRedRed
  obtain rfl | ⟨w, rfl, hw⟩ := eq_leaf_of_blackHeight_zero hh hrr
  · exact absurd rfl ha
  have hy : red y = false := by
    by_contra hy
    rw [Bool.not_eq_false] at hy
    have := ((noRedRed_branch.mp ht).1 hy).2
    rw [topRed_branch, hw] at this
    cases this
  refine ⟨w, rfl, hw, hy, fun red' c' hs hw' => ?_⟩
  rw [topRed_branch, hy] at hctx
  refine redBlack_plug (m := 1) ?_ ?_ ?_ (hs.ctxHeight (n := n) ?_) ?_
  · exact noRedRed_branch.mpr ⟨fun _ => ⟨rfl, rfl⟩, trivial, trivial⟩
  · exact blackHeight_branch.mpr ⟨0, by simp, by simp, by simp [blackCost, hw']⟩
  · rw [topRed_branch, hw']
    exact hs.ctxNoRedRed hctx
  · simpa [blackCost, hy] using hn
  · by_cases hc : c = []
    · subst hc
      cases hs
      simpa using hw'
    · rw [hs.topRed_plug hc]
      exact h.top

/-- **A black leaf that is not the root is missed**: without it the paths through its
place pass one black element less than the others. -/
theorem RedBlack.not_splice_black (h : RedBlack red (plug c (branch d nil y nil)))
    (hs : SameColors red red' c c') (hy : red y = false) (hc : c ≠ []) :
    ¬ RedBlack red' (plug c' nil) := by
  obtain ⟨-, -, n, hn⟩ := h.blackHeight_splice
  rw [blackCost, if_neg (by simp [hy])] at hn
  rintro ⟨-, -, n', hn'⟩
  obtain ⟨m, hm, hc'⟩ := blackHeight_plug.mp hn'
  rw [blackHeight_nil] at hm
  subst hm
  cases hs with
  | nil => exact hc rfl
  | cons hf _ =>
      obtain ⟨ho, -, hx⟩ := hf
      have h1 := hn.1.congr hx
      have h0 := hc'.1
      rw [ho] at h0
      exact absurd (h1.unique h0) (by omega)

end Splice

/-! ## A red element below a red one

`RedEdge red c t` is the state of a repair that works its way up: the tree `t` in the
hole has a red root, and the whole is a red-black tree but for the colour of the
element above the hole.  If that element is black, nothing is left to repair.  If it is
red, the element above it is black, and one of three changes moves the problem two
levels up or removes it, depending on the colour of the other child `u` of that element
and on the sides. -/

/-- Red-black but for the edge into `t`, whose root is red. -/
structure RedEdge (red : α → Bool) (c : Ctx α) (t : BinaryTree α) : Prop where
  edge : topRed red t = true
  noRedRed : NoRedRed red t
  height : ∃ m n, BlackHeight red t m ∧ CtxHeight red c m n
  context : CtxNoRedRed red c false
  root : c ≠ [] → topRed red (plug c nil) = false

namespace RedEdge

variable {c : Ctx α} {t : BinaryTree α}

/-- Below the root or a black element there is nothing to repair. -/
theorem noRedRed_of_above (h : RedEdge red c t) (ha : ∀ x, above c = some x → red x = false) :
    NoRedRed red (plug c t) ∧ ∃ n, BlackHeight red (plug c t) n := by
  obtain ⟨m, n, hm, hn⟩ := h.height
  refine ⟨noRedRed_plug.mpr ⟨h.noRedRed, ?_⟩, n, blackHeight_plug.mpr ⟨m, hm, hn⟩⟩
  cases c with
  | nil => trivial
  | cons f c =>
      have hf := ha f.elem rfl
      exact ⟨fun hred => absurd (hf.symm.trans hred) (by decide), h.context.2⟩

/-- The root is black, so a red element above the hole is not the root. -/
theorem exists_above (h : RedEdge red c t) {f : Frame α} {c' : Ctx α} (hc : c = f :: c')
    (hf : red f.elem = true) : ∃ g c'', c' = g :: c'' ∧ red g.elem = false := by
  subst hc
  cases c' with
  | nil =>
      have hroot := h.root (by simp)
      rw [plug_cons, plug_nil, topRed_branch, hf] at hroot
      cases hroot
  | cons g c'' =>
      refine ⟨g, c'', rfl, ?_⟩
      by_contra hg
      rw [Bool.not_eq_false] at hg
      have := (h.context.2.2.1 hg).1
      rw [hf] at this
      cases this

end RedEdge

/-- The elements of a tree below two frames: what stands in one part stands in no
other. -/
theorem ne_of_nodup_plug {d₁ d₂ : Side} {p g : α} {s u t : BinaryTree α} {c : Ctx α}
    (h : (plug (⟨d₁, p, s⟩ :: ⟨d₂, g, u⟩ :: c) t).inorder.Nodup) :
    p ≠ g ∧
      (∀ w ∈ t.inorder, w ≠ p ∧ w ≠ g ∧ w ∉ s.inorder ∧ w ∉ u.inorder ∧ w ∉ ctxElems c) ∧
      (∀ w ∈ s.inorder, w ≠ p ∧ w ≠ g) ∧
      (∀ w ∈ u.inorder, w ≠ p ∧ w ≠ g ∧ w ∉ t.inorder ∧ w ∉ s.inorder ∧ w ∉ ctxElems c) ∧
      ∀ w ∈ ctxElems c, w ≠ p ∧ w ≠ g := by
  obtain ⟨-, hc, hd⟩ := nodup_inorder_plug.mp h
  obtain ⟨-, hps, hc, hpc, hds⟩ := nodup_ctxElems_cons.mp hc
  obtain ⟨-, hgu, -, hgc, hdu⟩ := nodup_ctxElems_cons.mp hc
  rw [mem_ctxElems_cons, not_or, not_or] at hpc
  have hdt : ∀ w ∈ t.inorder, w ≠ p ∧ w ≠ g ∧ w ∉ s.inorder ∧ w ∉ u.inorder ∧
      w ∉ ctxElems c := by
    intro w hw
    have hwc : w ∉ ctxElems (⟨d₁, p, s⟩ :: ⟨d₂, g, u⟩ :: c) := fun hwc => hd hw hwc
    simpa only [mem_ctxElems_cons, not_or, ne_eq, and_assoc, and_left_comm] using hwc
  have hdw : ∀ w ∈ s.inorder, w ≠ g ∧ w ∉ u.inorder := by
    intro w hw
    have hwc : w ∉ ctxElems (⟨d₂, g, u⟩ :: c) := fun hwc => hds hw hwc
    rw [mem_ctxElems_cons, not_or, not_or] at hwc
    exact ⟨hwc.1, hwc.2.1⟩
  refine ⟨hpc.1, hdt, fun w hw => ⟨fun h => hps (h ▸ hw), (hdw w hw).1⟩, fun w hw => ?_,
    fun w hw => ⟨fun h => hpc.2.2 (h ▸ hw), fun h => hgc (h ▸ hw)⟩⟩
  exact ⟨fun h => hpc.2.1 (h ▸ hw), fun h => hgu (h ▸ hw),
    fun hwt => (hdt w hwt).2.2.2.1 hw, fun hws => (hdw w hws).2 hw, fun hwc => hdu hw hwc⟩

namespace RedEdge

variable {c : Ctx α} {t s u : BinaryTree α} {d : Side} {p g : α}

/-- **The outer rotation.**  The red `p` and `t` are on the same side: `p` goes up,
black, and `g` goes down, red. -/
theorem rotate_outer (h : RedEdge red (⟨d, p, s⟩ :: ⟨d, g, u⟩ :: c) t)
    (hn : (plug (⟨d, p, s⟩ :: ⟨d, g, u⟩ :: c) t).inorder.Nodup) (hp : red p = true)
    (hu : topRed red u = false) (hp' : red' p = false) (hg' : red' g = true)
    (hag : ∀ w, w ≠ p → w ≠ g → red' w = red w) :
    RedEdge red' (⟨d, p, branch d.opp u g s⟩ :: c) t := by
  obtain ⟨-, hnt, hns, hnu, hnc⟩ := ne_of_nodup_plug hn
  have hagt : ∀ w ∈ t.inorder, red' w = red w := fun w hw =>
    hag w (hnt w hw).1 (hnt w hw).2.1
  have hags : ∀ w ∈ s.inorder, red' w = red w := fun w hw => hag w (hns w hw).1 (hns w hw).2
  have hagu : ∀ w ∈ u.inorder, red' w = red w := fun w hw =>
    hag w (hnu w hw).1 (hnu w hw).2.1
  have hagc : ∀ w ∈ ctxElems c, red' w = red w := fun w hw =>
    hag w (hnc w hw).1 (hnc w hw).2
  obtain ⟨m, n, hm, hms, hmu, hmc⟩ := h.height
  obtain ⟨hs, hsr, hgr, hur, hcr⟩ := h.context
  have hg : red g = false := by
    by_contra hg
    rw [Bool.not_eq_false] at hg
    exact Bool.noConfusion ((hgr hg).1.symm.trans hp)
  simp only [blackCost, hp, hg, if_true, Bool.false_eq_true, if_false, Nat.add_zero]
    at hmu hmc
  refine ⟨?_, h.noRedRed.congr hagt, ⟨m, n, hm.congr hagt, ?_, ?_⟩, ⟨?_, ?_, ?_⟩, ?_⟩
  · rw [topRed_congr hagt]
    exact h.edge
  · rw [blackHeight_branch]
    exact ⟨m, hmu.congr hagu, hms.congr hags, by simp [blackCost, hg']⟩
  · simpa [blackCost, hp'] using (sameColors_of_agree hagc).ctxHeight hmc
  · exact fun hf => Bool.noConfusion (hp'.symm.trans hf)
  · rw [noRedRed_branch, topRed_congr hagu, topRed_congr hags]
    exact ⟨fun _ => ⟨hu, (hs hp).2⟩, hur.congr hagu, hsr.congr hags⟩
  · simp only [hp']
    exact (sameColors_of_agree hagc).ctxNoRedRed (hg ▸ hcr)
  · intro _
    cases c with
    | nil => simpa using hp'
    | cons f c =>
        rw [plug_cons, (sameColors_of_agree hagc).topRed_plug (by simp)]
        exact h.root (by simp)

/-- **The recolouring.**  The other child `u` of `g` is red as well: `p` and the root of
`u` become black, `g` red, and the problem moves up to `g`. -/
theorem recolor {d₁ d₂ : Side} {y : α} (h : RedEdge red (⟨d₁, p, s⟩ :: ⟨d₂, g, u⟩ :: c) t)
    (hn : (plug (⟨d₁, p, s⟩ :: ⟨d₂, g, u⟩ :: c) t).inorder.Nodup) (hp : red p = true)
    (hy : top u = some y) (hu : red y = true) (hp' : red' p = false) (hy' : red' y = false)
    (hg' : red' g = true) (hag : ∀ w, w ≠ p → w ≠ g → w ≠ y → red' w = red w) :
    RedEdge red' c (branch d₂ (branch d₁ t p s) g u) := by
  obtain ⟨-, hnt, hns, hnu, hnc⟩ := ne_of_nodup_plug hn
  have hyu : y ∈ u.inorder := mem_inorder_of_top hy
  have hagt : ∀ w ∈ t.inorder, red' w = red w := fun w hw =>
    hag w (hnt w hw).1 (hnt w hw).2.1 fun h => (hnu y hyu).2.2.1 (h ▸ hw)
  have hags : ∀ w ∈ s.inorder, red' w = red w := fun w hw =>
    hag w (hns w hw).1 (hns w hw).2 fun h => (hnu y hyu).2.2.2.1 (h ▸ hw)
  have hagc : ∀ w ∈ ctxElems c, red' w = red w := fun w hw =>
    hag w (hnc w hw).1 (hnc w hw).2 fun h => (hnu y hyu).2.2.2.2 (h ▸ hw)
  obtain ⟨a, b, rfl⟩ := exists_branch_of_top .left hy
  have hnub : (branch .left a y b).inorder.Nodup := by
    obtain ⟨-, hnc, -⟩ := nodup_inorder_plug.mp hn
    exact (nodup_ctxElems_cons.mp (nodup_ctxElems_cons.mp hnc).2.2.1).1
  obtain ⟨-, -, hya, hyb, -⟩ := nodup_inorder_branch.mp hnub
  have hagab : ∀ w, w ∈ a.inorder ∨ w ∈ b.inorder → red' w = red w := by
    intro w hw
    have hwu : w ∈ (branch .left a y b).inorder := mem_inorder_branch.mpr (by tauto)
    refine hag w (hnu w hwu).1 (hnu w hwu).2.1 ?_
    rintro rfl
    rcases hw with hw | hw
    · exact hya hw
    · exact hyb hw
  have haga : ∀ w ∈ a.inorder, red' w = red w := fun w hw => hagab w (.inl hw)
  have hagb : ∀ w ∈ b.inorder, red' w = red w := fun w hw => hagab w (.inr hw)
  obtain ⟨m, n, hm, hms, hmu, hmc⟩ := h.height
  obtain ⟨hs, hsr, hgr, hur, hcr⟩ := h.context
  have hg : red g = false := by
    by_contra hg
    rw [Bool.not_eq_false] at hg
    exact Bool.noConfusion ((hgr hg).1.symm.trans hp)
  have hmu : BlackHeight red (branch .left a y b) (m + blackCost red p) := hmu
  obtain ⟨k, hka, hkb, hk⟩ := blackHeight_branch.mp hmu
  simp only [blackCost, hp, hg, hu, if_true, Bool.false_eq_true, if_false, Nat.add_zero]
    at hk hmc
  subst hk
  have hur : NoRedRed red (branch .left a y b) := hur
  obtain ⟨-, har, hbr⟩ := noRedRed_branch.mp hur
  refine ⟨by simpa using hg', ?_, ⟨m + 1, n, ?_, ?_⟩, ?_, ?_⟩
  · rw [noRedRed_branch, noRedRed_branch, noRedRed_branch, topRed_branch, topRed_branch]
    refine ⟨fun _ => ⟨hp', hy'⟩, ⟨fun hf => ?_, h.noRedRed.congr hagt, hsr.congr hags⟩,
      fun hf => ?_, har.congr haga, hbr.congr hagb⟩
    · exact Bool.noConfusion (hp'.symm.trans hf)
    · exact Bool.noConfusion (hy'.symm.trans hf)
  · rw [blackHeight_branch]
    refine ⟨m + 1, ?_, ?_, by simp [blackCost, hg']⟩
    · exact blackHeight_branch.mpr
        ⟨m, hm.congr hagt, hms.congr hags, by simp [blackCost, hp']⟩
    · exact blackHeight_branch.mpr
        ⟨m, hka.congr haga, hkb.congr hagb, by simp [blackCost, hy']⟩
  · exact (sameColors_of_agree hagc).ctxHeight hmc
  · exact (sameColors_of_agree hagc).ctxNoRedRed hcr.to_false
  · intro hc
    rw [(sameColors_of_agree hagc).topRed_plug hc]
    exact h.root (by simp)

/-- **The inner rotations.**  The red `p` and `t` are on different sides: the root `x`
of `t` goes up two levels, black, and `g` goes down, red. -/
theorem rotate_inner {a b : BinaryTree α} {x : α}
    (h : RedEdge red (⟨d.opp, p, s⟩ :: ⟨d, g, u⟩ :: c) (branch d a x b))
    (hn : (plug (⟨d.opp, p, s⟩ :: ⟨d, g, u⟩ :: c) (branch d a x b)).inorder.Nodup)
    (hp : red p = true) (hu : topRed red u = false) (hx' : red' x = false)
    (hg' : red' g = true) (hag : ∀ w, w ≠ x → w ≠ g → red' w = red w) :
    RedEdge red' (⟨d, x, branch d.opp u g b⟩ :: c) (branch d s p a) := by
  obtain ⟨hpg, hnt, hns, hnu, hnc⟩ := ne_of_nodup_plug hn
  have hxt : x ∈ (branch d a x b).inorder := mem_inorder_branch.mpr (.inr (.inl rfl))
  obtain ⟨hxp, hxg, hxs, hxu, hxc⟩ := hnt x hxt
  obtain ⟨-, -, hxa, hxb, -⟩ := nodup_inorder_branch.mp (nodup_inorder_plug.mp hn).1
  have hags : ∀ w ∈ s.inorder, red' w = red w := fun w hw =>
    hag w (fun h => hxs (h ▸ hw)) (hns w hw).2
  have hagu : ∀ w ∈ u.inorder, red' w = red w := fun w hw =>
    hag w (fun h => hxu (h ▸ hw)) (hnu w hw).2.1
  have hagc : ∀ w ∈ ctxElems c, red' w = red w := fun w hw =>
    hag w (fun h => hxc (h ▸ hw)) (hnc w hw).2
  have haga : ∀ w ∈ a.inorder, red' w = red w := fun w hw =>
    hag w (fun h => hxa (h ▸ hw)) (hnt w (mem_inorder_branch.mpr (.inl hw))).2.1
  have hagb : ∀ w ∈ b.inorder, red' w = red w := fun w hw =>
    hag w (fun h => hxb (h ▸ hw)) (hnt w (mem_inorder_branch.mpr (.inr (.inr hw)))).2.1
  have hp₁ : red' p = true := (hag p hxp.symm hpg).trans hp
  obtain ⟨m, n, hm, hms, hmu, hmc⟩ := h.height
  obtain ⟨hs, hsr, hgr, hur, hcr⟩ := h.context
  have hx : red x = true := by simpa using h.edge
  have hg : red g = false := by
    by_contra hg
    rw [Bool.not_eq_false] at hg
    exact Bool.noConfusion ((hgr hg).1.symm.trans hp)
  obtain ⟨k, hka, hkb, hk⟩ := blackHeight_branch.mp hm
  simp only [blackCost, hp, hg, hx, if_true, Bool.false_eq_true, if_false, Nat.add_zero]
    at hk hmu hmc
  subst hk
  obtain ⟨hab, har, hbr⟩ := noRedRed_branch.mp h.noRedRed
  obtain ⟨hatop, hbtop⟩ := hab hx
  refine ⟨by simpa using hp₁, ?_, ⟨m, n, ?_, ?_, ?_⟩, ⟨?_, ?_, ?_⟩, ?_⟩
  · rw [noRedRed_branch, topRed_congr hags, topRed_congr haga]
    exact ⟨fun _ => ⟨(hs hp).2, hatop⟩, hsr.congr hags, har.congr haga⟩
  · rw [blackHeight_branch]
    exact ⟨m, hms.congr hags, hka.congr haga, by simp [blackCost, hp₁]⟩
  · rw [blackHeight_branch]
    exact ⟨m, hmu.congr hagu, hkb.congr hagb, by simp [blackCost, hg']⟩
  · simpa [blackCost, hx'] using (sameColors_of_agree hagc).ctxHeight hmc
  · exact fun hf => Bool.noConfusion (hx'.symm.trans hf)
  · rw [noRedRed_branch, topRed_congr hagu, topRed_congr hagb]
    exact ⟨fun _ => ⟨hu, hbtop⟩, hur.congr hagu, hbr.congr hagb⟩
  · simp only [hx']
    exact (sameColors_of_agree hagc).ctxNoRedRed (hg ▸ hcr)
  · intro _
    cases c with
    | nil => simpa using hx'
    | cons f c =>
        rw [plug_cons, (sameColors_of_agree hagc).topRed_plug (by simp)]
        exact h.root (by simp)

end RedEdge

end BinaryTree
