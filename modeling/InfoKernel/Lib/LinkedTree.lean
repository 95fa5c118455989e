import InfoKernel.Lib.Tree
import Mathlib.Logic.Function.Basic

/-!
# Binary trees made of links

`Links α` is a memory that holds a binary tree of elements of `α`: a root, and for
each element its two children and its parent.  `Represents l t` says that the tree
reached from the root of `l` is `t`, with the parent links to match and no element
twice.

An operation on the links works at one place of the tree.  `represents_plug_iff`
takes the representation apart there, into that of the subtree (`Linked`) and that of
the context above it (`LinkedCtx`), each of which depends on the links of its own
elements alone.  So what an operation leaves alone is a `congr` lemma, and the two
ways of touching the boundary are `Linked.reparent` and `LinkedCtx.setHole`.
-/

namespace InfoKernel.Lib

open BinaryTree

/-- The links of a binary tree in memory. -/
structure Links (α : Type*) where
  child : Side → α → Option α
  parent : α → Option α
  root : Option α

variable {α : Type*}

namespace Links

section Update

variable [DecidableEq α] (l : Links α)

/-- Write the child link of `x` on side `d`. -/
def setChild (d : Side) (x : α) (v : Option α) : Links α :=
  { l with child := Function.update l.child d (Function.update (l.child d) x v) }

/-- Write the parent link of `x`. -/
def setParent (x : α) (v : Option α) : Links α :=
  { l with parent := Function.update l.parent x v }

/-- Write the root. -/
def setRoot (v : Option α) : Links α :=
  { l with root := v }

/-- Write the parent link of the element a link refers to, if there is one. -/
def setParent? (x : Option α) (v : Option α) : Links α :=
  match x with
  | none => l
  | some y => l.setParent y v

/-- Let the link by which the parent `p` of `u` refers to `u` refer to `v`: the root
if there is no parent, else the child link of `p` on side `d` if it is the one, else
the one on the other side. -/
def redirect (d : Side) (p : Option α) (u : α) (v : Option α) : Links α :=
  match p with
  | none => l.setRoot v
  | some q => if l.child d q = some u then l.setChild d q v else l.setChild d.opp q v

variable {d : Side} {x u : α} {v p : Option α}

@[simp] theorem setChild_parent : (l.setChild d x v).parent = l.parent := rfl
@[simp] theorem setChild_root : (l.setChild d x v).root = l.root := rfl
@[simp] theorem setParent_child : (l.setParent x v).child = l.child := rfl
@[simp] theorem setParent_root : (l.setParent x v).root = l.root := rfl

theorem setChild_child (e : Side) (y : α) :
    (l.setChild d x v).child e y = if e = d ∧ y = x then v else l.child e y := by
  by_cases he : e = d
  · subst he
    by_cases hy : y = x
    · simp [setChild, hy]
    · simp [setChild, hy]
  · simp [setChild, he]

theorem setParent_parent (y : α) :
    (l.setParent x v).parent y = if y = x then v else l.parent y := by
  by_cases hy : y = x <;> simp [setParent, hy]

@[simp] theorem setParent?_child : (l.setParent? p v).child = l.child := by
  cases p <;> rfl

@[simp] theorem setParent?_root : (l.setParent? p v).root = l.root := by
  cases p <;> rfl

theorem setParent?_parent (y : α) :
    (l.setParent? p v).parent y = if p = some y then v else l.parent y := by
  cases p with
  | none => simp [setParent?]
  | some q =>
      rw [setParent?, setParent_parent]
      simp [eq_comm]

@[simp] theorem redirect_parent : (l.redirect d p u v).parent = l.parent := by
  cases p with
  | none => rfl
  | some q => rw [redirect]; split <;> rfl

/-- Redirecting touches the child links of the parent alone. -/
theorem redirect_child_of_ne {y : α} (h : p ≠ some y) (e : Side) :
    (l.redirect d p u v).child e y = l.child e y := by
  cases p with
  | none => rfl
  | some q =>
      have hy : y ≠ q := fun hy => h (congrArg some hy.symm)
      rw [redirect]
      split <;> rw [setChild_child, if_neg fun hc => hy hc.2]

/-- Redirecting writes nothing but the new link. -/
theorem redirect_child_eq_or (e : Side) (y : α) :
    (l.redirect d p u v).child e y = l.child e y ∨ (l.redirect d p u v).child e y = v := by
  cases p with
  | none => exact .inl rfl
  | some q =>
      rw [redirect]
      split <;> rw [setChild_child] <;> split
      · exact .inr rfl
      · exact .inl rfl
      · exact .inr rfl
      · exact .inl rfl

/-- Parent links that are written anew do not matter to a redirection. -/
theorem redirect_setParent? {x q : Option α} :
    (l.setParent? x q).redirect d p u v = (l.redirect d p u v).setParent? x q := by
  cases x with
  | none => rfl
  | some x =>
      cases p with
      | none => rfl
      | some w =>
          rw [redirect, redirect, setParent?, setParent?, setParent_child]
          split <;> rfl

@[simp] theorem setParent?_setParent? {x q q' : Option α} :
    (l.setParent? x q).setParent? x q' = l.setParent? x q' := by
  cases x with
  | none => rfl
  | some x => simp [setParent?, setParent]

end Update

/-- The links of the elements of `t` are those of the tree `t` below `p`. -/
def Linked (l : Links α) : Option α → BinaryTree α → Prop
  | _, .nil => True
  | p, .node x a b => l.parent x = p ∧ l.child .left x = top a ∧
      l.child .right x = top b ∧ Linked l (some x) a ∧ Linked l (some x) b

/-- The links of the elements of the context `c` are those of a tree with the
context `c`, and the link where the hole is has the value `h`. -/
def LinkedCtx (l : Links α) : Ctx α → Option α → Prop
  | [], h => l.root = h
  | f :: c, h => l.child f.side f.elem = h ∧ l.child f.side.opp f.elem = top f.other ∧
      Linked l (some f.elem) f.other ∧ l.parent f.elem = above c ∧
      LinkedCtx l c (some f.elem)

/-- **The tree in memory.**  The tree reached from the root is `t`, the parent links
agree, and no element occurs twice. -/
structure Represents (l : Links α) (t : BinaryTree α) : Prop where
  root : l.root = top t
  linked : Linked l none t
  nodup : t.inorder.Nodup

variable {l l' : Links α}

@[simp] theorem linked_nil {p : Option α} : Linked l p nil := trivial

theorem linked_branch {p : Option α} {d : Side} {a b : BinaryTree α} {x : α} :
    Linked l p (branch d a x b) ↔ l.parent x = p ∧ l.child d x = top a ∧
      l.child d.opp x = top b ∧ Linked l (some x) a ∧ Linked l (some x) b := by
  cases d
  · rfl
  · simp only [branch, Linked, Side.opp_right]
    tauto

/-- A subtree is read off the links of its own elements. -/
theorem Linked.congr {t : BinaryTree α} {p : Option α} (h : Linked l p t)
    (hchild : ∀ x ∈ t.inorder, ∀ d, l'.child d x = l.child d x)
    (hparent : ∀ x ∈ t.inorder, l'.parent x = l.parent x) : Linked l' p t := by
  induction t generalizing p with
  | nil => trivial
  | node x a b iha ihb =>
      obtain ⟨hp, hl, hr, ha, hb⟩ := h
      have hx : x ∈ (node x a b).inorder := by simp
      have hsub : ∀ y, y ∈ a.inorder ∨ y ∈ b.inorder → y ∈ (node x a b).inorder := by
        rintro y (hy | hy) <;> simp [hy]
      exact ⟨(hparent x hx).trans hp, (hchild x hx _).trans hl, (hchild x hx _).trans hr,
        iha ha (fun y hy => hchild y (hsub y (.inl hy)))
          (fun y hy => hparent y (hsub y (.inl hy))),
        ihb hb (fun y hy => hchild y (hsub y (.inr hy)))
          (fun y hy => hparent y (hsub y (.inr hy)))⟩

/-- A subtree with another parent: the links of its elements are as before, but for
the parent link of its root. -/
theorem Linked.reparent {t : BinaryTree α} {p q : Option α} (h : Linked l p t)
    (hnodup : t.inorder.Nodup) (hchild : ∀ x ∈ t.inorder, ∀ d, l'.child d x = l.child d x)
    (hparent : ∀ x ∈ t.inorder, top t ≠ some x → l'.parent x = l.parent x)
    (htop : ∀ x, top t = some x → l'.parent x = q) : Linked l' q t := by
  cases t with
  | nil => trivial
  | node x a b =>
      obtain ⟨-, hl, hr, ha, hb⟩ := h
      obtain ⟨-, -, hxa, hxb, -⟩ := (nodup_inorder_branch (d := .left)).mp hnodup
      have hx : x ∈ (node x a b).inorder := by simp
      have hsub : ∀ y, y ∈ a.inorder ∨ y ∈ b.inorder → y ∈ (node x a b).inorder := by
        rintro y (hy | hy) <;> simp [hy]
      refine ⟨htop x rfl, (hchild x hx _).trans hl, (hchild x hx _).trans hr,
        ha.congr (fun y hy => hchild y (hsub y (.inl hy))) fun y hy =>
          hparent y (hsub y (.inl hy)) fun h => hxa ?_,
        hb.congr (fun y hy => hchild y (hsub y (.inr hy))) fun y hy =>
          hparent y (hsub y (.inr hy)) fun h => hxb ?_⟩
      · rw [Option.some.inj h]; exact hy
      · rw [Option.some.inj h]; exact hy

/-- A context is read off the links of its own elements and the root. -/
theorem LinkedCtx.congr {c : Ctx α} {h : Option α} (hc : LinkedCtx l c h)
    (hroot : l'.root = l.root) (hchild : ∀ x ∈ ctxElems c, ∀ d, l'.child d x = l.child d x)
    (hparent : ∀ x ∈ ctxElems c, l'.parent x = l.parent x) : LinkedCtx l' c h := by
  induction c generalizing h with
  | nil => exact hroot.trans hc
  | cons f c ih =>
      obtain ⟨d, x, s⟩ := f
      obtain ⟨hd, ho, hs, hp, hup⟩ := hc
      have hx : x ∈ ctxElems (⟨d, x, s⟩ :: c) := mem_ctxElems_cons.mpr (.inl rfl)
      have hin : ∀ y ∈ s.inorder, y ∈ ctxElems (⟨d, x, s⟩ :: c) :=
        fun y hy => mem_ctxElems_cons.mpr (.inr (.inl hy))
      have hctx : ∀ y ∈ ctxElems c, y ∈ ctxElems (⟨d, x, s⟩ :: c) :=
        fun y hy => mem_ctxElems_cons.mpr (.inr (.inr hy))
      exact ⟨(hchild x hx _).trans hd, (hchild x hx _).trans ho,
        hs.congr (fun y hy => hchild y (hin y hy)) (fun y hy => hparent y (hin y hy)),
        (hparent x hx).trans hp,
        ih hup (fun y hy => hchild y (hctx y hy)) (fun y hy => hparent y (hctx y hy))⟩

/-- Write the link where the hole of `c` is. -/
def setHole [DecidableEq α] (l : Links α) (c : Ctx α) (v : Option α) : Links α :=
  match c with
  | [] => l.setRoot v
  | f :: _ => l.setChild f.side f.elem v

/-- **Another tree in the hole.** -/
theorem LinkedCtx.setHole [DecidableEq α] {c : Ctx α} {h : Option α}
    (hc : LinkedCtx l c h) (hnodup : (ctxElems c).Nodup) (v : Option α) :
    LinkedCtx (l.setHole c v) c v := by
  cases c with
  | nil => rfl
  | cons f c =>
      obtain ⟨e, x, s⟩ := f
      obtain ⟨-, ho, hs, hp, hup⟩ := hc
      obtain ⟨-, hxs, -, hxc, -⟩ := nodup_ctxElems_cons.mp hnodup
      refine ⟨?_, ?_, hs.congr (fun y hy i => ?_) (fun y _ => rfl), hp,
        hup.congr rfl (fun y hy i => ?_) (fun y _ => rfl)⟩
      · simp [Links.setHole, setChild_child]
      · simp [Links.setHole, setChild_child, ho]
      · have hyx : y ≠ x := fun h => hxs (h ▸ hy)
        simp [Links.setHole, setChild_child, hyx]
      · have hyx : y ≠ x := fun h => hxc (h ▸ hy)
        simp [Links.setHole, setChild_child, hyx]

/-- Redirecting the link to what is in the hole writes the link where the hole is. -/
theorem LinkedCtx.redirect_eq [DecidableEq α] {c : Ctx α} {u : α} (hc : LinkedCtx l c (some u))
    (hu : u ∉ ctxElems c) (d : Side) (v : Option α) :
    l.redirect d (above c) u v = l.setHole c v := by
  cases c with
  | nil => rfl
  | cons f c =>
      obtain ⟨e, x, s⟩ := f
      obtain ⟨hd, ho, -⟩ := hc
      have hus : top s ≠ some u := fun h =>
        hu (mem_ctxElems_cons.mpr (.inr (.inl (mem_inorder_of_top h))))
      rw [above_cons, Links.redirect, Links.setHole]
      rcases Side.eq_or_eq_opp d e with rfl | rfl
      · rw [if_pos hd]
      · rw [Side.opp_opp] at ho
        rw [if_neg (by rw [ho]; exact hus)]

/-- Redirecting the link to what is in the hole puts another tree there. -/
theorem LinkedCtx.redirect [DecidableEq α] {c : Ctx α} {u : α} {v : Option α}
    (hc : LinkedCtx l c (some u)) (hnodup : (ctxElems c).Nodup) (hu : u ∉ ctxElems c)
    (d : Side) : LinkedCtx (l.redirect d (above c) u v) c v := by
  rw [hc.redirect_eq hu]
  exact hc.setHole hnodup v

theorem represents_plug_iff {c : Ctx α} {t : BinaryTree α} :
    Represents l (plug c t) ↔ LinkedCtx l c (top t) ∧ Linked l (above c) t ∧
      (plug c t).inorder.Nodup := by
  have hmain : l.root = top (plug c t) ∧ Linked l none (plug c t) ↔
      LinkedCtx l c (top t) ∧ Linked l (above c) t := by
    induction c generalizing t with
    | nil => rfl
    | cons f c ih =>
        obtain ⟨d, x, s⟩ := f
        rw [plug_cons, ih, linked_branch, top_branch, above_cons, LinkedCtx]
        tauto
  constructor
  · rintro ⟨hr, hl, hn⟩
    exact ⟨(hmain.mp ⟨hr, hl⟩).1, (hmain.mp ⟨hr, hl⟩).2, hn⟩
  · rintro ⟨hc, ht, hn⟩
    exact ⟨(hmain.mpr ⟨hc, ht⟩).1, (hmain.mpr ⟨hc, ht⟩).2, hn⟩

/-- The links determine the tree below a link. -/
theorem Linked.unique {t u : BinaryTree α} {p q : Option α} (ht : Linked l p t)
    (hu : Linked l q u) (h : top t = top u) : t = u := by
  induction t generalizing u p q with
  | nil => exact (top_eq_none.mp h.symm).symm
  | node x a b iha ihb =>
      obtain ⟨a', b', rfl⟩ := exists_branch_of_top .left h.symm
      obtain ⟨-, hl, hr, ha, hb⟩ := ht
      obtain ⟨-, hl', hr', ha', hb'⟩ := linked_branch.mp hu
      rw [iha ha ha' (hl.symm.trans hl'), ihb hb hb' (hr.symm.trans hr')]
      rfl

/-- **There is only one tree in memory.** -/
theorem Represents.unique {t u : BinaryTree α} (ht : Represents l t)
    (hu : Represents l u) : t = u :=
  ht.linked.unique hu.linked (ht.root.symm.trans hu.root)

/-- Links that agree on the root and the elements of a tree represent it together. -/
theorem Represents.congr {t : BinaryTree α} (h : Represents l t) (hroot : l'.root = l.root)
    (hchild : ∀ x ∈ t.inorder, ∀ d, l'.child d x = l.child d x)
    (hparent : ∀ x ∈ t.inorder, l'.parent x = l.parent x) : Represents l' t :=
  ⟨hroot.trans h.root, h.linked.congr hchild hparent, h.nodup⟩

/-- Writing the parent link that is already there. -/
theorem Linked.setParent?_top [DecidableEq α] {t : BinaryTree α} {p : Option α}
    (h : Linked l p t) : l.setParent? (top t) p = l := by
  cases t with
  | nil => rfl
  | node x a b =>
      rw [top_node, Links.setParent?, Links.setParent, ← h.1, Function.update_eq_self]

/-- The parent and child links of a tree stay inside it. -/
theorem Represents.closed {t : BinaryTree α} (h : Represents l t) {x : α}
    (hx : x ∈ t.inorder) :
    (∀ d y, l.child d x = some y → y ∈ t.inorder) ∧
      ∀ y, l.parent x = some y → y ∈ t.inorder := by
  obtain ⟨c, a, b, rfl⟩ := exists_plug_of_mem .left hx
  obtain ⟨-, hl, -⟩ := represents_plug_iff.mp h
  obtain ⟨hp, ha, hb, -, -⟩ := linked_branch.mp hl
  refine ⟨fun d y hy => ?_, fun y hy => ?_⟩
  · cases d
    · have hya := mem_inorder_of_top (ha.symm.trans hy)
      exact mem_inorder_plug.mpr (.inl (mem_inorder_branch.mpr (.inl hya)))
    · have hyb := mem_inorder_of_top (hb.symm.trans hy)
      exact mem_inorder_plug.mpr (.inl (mem_inorder_branch.mpr (.inr (.inr hyb))))
  · exact mem_inorder_plug.mpr (.inr (mem_ctxElems_of_above (hp.symm.trans hy)))

/-- What a child link leads to has its parent link back. -/
theorem Represents.parent_child {t : BinaryTree α} (h : Represents l t) {x y : α} {d : Side}
    (hx : x ∈ t.inorder) (hy : l.child d x = some y) : l.parent y = some x := by
  obtain ⟨c, a, b, rfl⟩ := exists_plug_of_mem d hx
  obtain ⟨-, hl, -⟩ := represents_plug_iff.mp h
  obtain ⟨-, ha, -, hla, -⟩ := linked_branch.mp hl
  obtain ⟨a₁, a₂, rfl⟩ := exists_branch_of_top d (ha.symm.trans hy)
  exact (linked_branch.mp hla).1

/-- Two memories that hold one tree have the same child links there. -/
theorem Represents.child_eq {t : BinaryTree α} (h : Represents l t) (h' : Represents l' t)
    {x : α} (hx : x ∈ t.inorder) (d : Side) : l'.child d x = l.child d x := by
  obtain ⟨c, a, b, rfl⟩ := exists_plug_of_mem d hx
  obtain ⟨-, ha, -⟩ := linked_branch.mp (represents_plug_iff.mp h).2.1
  obtain ⟨-, ha', -⟩ := linked_branch.mp (represents_plug_iff.mp h').2.1
  rw [ha, ha']

/-- The root is in the tree and has no parent. -/
theorem Represents.parent_root {t : BinaryTree α} (h : Represents l t) {y : α}
    (hy : l.root = some y) : y ∈ t.inorder ∧ l.parent y = none := by
  have htop : top t = some y := h.root.symm.trans hy
  obtain ⟨a, b, rfl⟩ := exists_branch_of_top .left htop
  exact ⟨mem_inorder_of_top htop, (linked_branch.mp h.linked).1⟩

/-! A write keeps the tree if it is to the links of an element outside of it, or writes
the value that is already there. -/

theorem Represents.setRoot_self {t : BinaryTree α} (h : Represents l t) {v : Option α}
    (hv : l.root = v) : Represents (l.setRoot v) t := by
  rw [← hv]
  exact h

section Outside

variable [DecidableEq α] {t : BinaryTree α}

theorem Represents.setChild_outside (h : Represents l t) {d : Side} {x : α} {v : Option α}
    (hx : x ∈ t.inorder → l.child d x = v) : Represents (l.setChild d x v) t := by
  refine h.congr rfl (fun y hy e => ?_) fun y _ => rfl
  rw [setChild_child]
  split
  · next hc =>
    obtain ⟨rfl, rfl⟩ := hc
    exact (hx hy).symm
  · rfl

theorem Represents.setParent?_outside (h : Represents l t) {x p : Option α}
    (hx : ∀ v, x = some v → v ∈ t.inorder → l.parent v = p) :
    Represents (l.setParent? x p) t := by
  refine h.congr (setParent?_root l) (fun y _ e => by rw [setParent?_child]) fun y hy => ?_
  rw [setParent?_parent]
  split
  · next hc => exact (hx y hc hy).symm
  · rfl

theorem Represents.redirect_outside (h : Represents l t) {d : Side} {p v : Option α} {u : α}
    (hu : u ∉ t.inorder) (hroot : p = none → l.root = v)
    (hchild : ∀ q, p = some q → q ∈ t.inorder → l.child d.opp q = v) :
    Represents (l.redirect d p u v) t := by
  cases p with
  | none => exact h.setRoot_self (hroot rfl)
  | some q =>
      rw [Links.redirect]
      split
      · next hq =>
        -- the child is not in the tree, and so the parent is not either
        exact h.setChild_outside fun hmem => absurd ((h.closed hmem).1 _ _ hq) hu
      · exact h.setChild_outside (hchild q rfl)

end Outside

/-! ## Reading the tree

For a memory that is given, the tree can be read off it and checked. -/

/-- The tree below a link, to the depth `n`. -/
def read (l : Links α) : Nat → Option α → BinaryTree α
  | 0, _ => nil
  | _, none => nil
  | n + 1, some x => .node x (read l n (l.child .left x)) (read l n (l.child .right x))

instance decidableLinked [DecidableEq α] (l : Links α) :
    (p : Option α) → (t : BinaryTree α) → Decidable (Linked l p t)
  | _, .nil => isTrue trivial
  | p, .node x a b =>
      have := decidableLinked l (some x) a
      have := decidableLinked l (some x) b
      inferInstanceAs (Decidable (l.parent x = p ∧ l.child .left x = top a ∧
        l.child .right x = top b ∧ Linked l (some x) a ∧ Linked l (some x) b))

instance [DecidableEq α] (l : Links α) (t : BinaryTree α) : Decidable (Represents l t) :=
  decidable_of_iff (l.root = top t ∧ Linked l none t ∧ t.inorder.Nodup)
    ⟨fun h => ⟨h.1, h.2.1, h.2.2⟩, fun h => ⟨h.root, h.linked, h.nodup⟩⟩

end Links

end InfoKernel.Lib
