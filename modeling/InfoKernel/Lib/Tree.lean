import Mathlib.Data.Tree.Basic
import Mathlib.Data.List.Nodup

/-!
# Binary trees and their contexts

Mathlib's binary trees, read by side: `branch d a x b` is the tree with root `x`, child
`a` on side `d` and child `b` on the other, so that a statement and its mirror image
are one statement.  A context is a tree with a hole, given as the list of frames from
the hole up to the root, and `plug c t` puts a tree into the hole.  The in-order
list of a plugged tree is that of the tree, between what the context has on either
side (`inorder_plug`), and everything else about the elements of a context follows.
-/

namespace BinaryTree

variable {α : Type*}

/-- The two sides of a node. -/
inductive Side where
  | left
  | right
  deriving DecidableEq, Repr

namespace Side

/-- The other side. -/
def opp : Side → Side
  | left => right
  | right => left

@[simp] theorem opp_opp (d : Side) : d.opp.opp = d := by cases d <;> rfl

@[simp] theorem opp_ne (d : Side) : d.opp ≠ d := by cases d <;> decide

@[simp] theorem ne_opp (d : Side) : d ≠ d.opp := by cases d <;> decide

@[simp] theorem opp_left : left.opp = right := rfl

@[simp] theorem opp_right : right.opp = left := rfl

theorem eq_or_eq_opp (d e : Side) : e = d ∨ e = d.opp := by
  cases d <;> cases e <;> simp

end Side

/-- The element at the root. -/
def top : BinaryTree α → Option α
  | nil => none
  | node x _ _ => some x

/-- The tree with root `x`, child `a` on side `d` and child `b` on the other. -/
def branch : Side → BinaryTree α → α → BinaryTree α → BinaryTree α
  | .left, a, x, b => node x a b
  | .right, a, x, b => node x b a

theorem branch_opp (d : Side) (a : BinaryTree α) (x : α) (b : BinaryTree α) :
    branch d.opp a x b = branch d b x a := by
  cases d <;> rfl

@[simp] theorem top_nil : top (nil : BinaryTree α) = none := rfl

@[simp] theorem top_node (x : α) (a b : BinaryTree α) : top (node x a b) = some x := rfl

@[simp] theorem top_branch (d : Side) (a : BinaryTree α) (x : α) (b : BinaryTree α) :
    top (branch d a x b) = some x := by
  cases d <;> rfl

theorem top_eq_none {t : BinaryTree α} : top t = none ↔ t = nil := by
  cases t <;> simp

/-- A tree with an element at the root, taken apart by side. -/
theorem exists_branch_of_top {t : BinaryTree α} {x : α} (d : Side) (h : top t = some x) :
    ∃ a b, t = branch d a x b := by
  cases t with
  | nil => cases h
  | node y l r =>
      obtain rfl : y = x := Option.some.inj h
      cases d
      · exact ⟨l, r, rfl⟩
      · exact ⟨r, l, rfl⟩

/-! ## The in-order list -/

/-- The elements from left to right. -/
def inorder : BinaryTree α → List α
  | nil => []
  | node x l r => l.inorder ++ x :: r.inorder

@[simp] theorem inorder_nil : inorder (nil : BinaryTree α) = [] := rfl

@[simp] theorem inorder_node (x : α) (l r : BinaryTree α) :
    inorder (node x l r) = l.inorder ++ x :: r.inorder := rfl

theorem mem_inorder_branch {d : Side} {a b : BinaryTree α} {x y : α} :
    y ∈ (branch d a x b).inorder ↔ y ∈ a.inorder ∨ y = x ∨ y ∈ b.inorder := by
  cases d
  · simp [branch]
  · simp only [branch, inorder_node, List.mem_append, List.mem_cons]
    constructor
    · rintro (h | h | h) <;> simp [h]
    · rintro (h | h | h) <;> simp [h]

theorem nodup_inorder_branch {d : Side} {a b : BinaryTree α} {x : α} :
    (branch d a x b).inorder.Nodup ↔ a.inorder.Nodup ∧ b.inorder.Nodup ∧ x ∉ a.inorder ∧
      x ∉ b.inorder ∧ a.inorder.Disjoint b.inorder := by
  cases d
  · simp only [branch, inorder_node, List.nodup_append', List.nodup_cons,
      List.disjoint_cons_right]
    tauto
  · simp only [branch, inorder_node, List.nodup_append', List.nodup_cons,
      List.disjoint_cons_right, @List.disjoint_comm _ a.inorder]
    tauto

theorem mem_inorder_of_top {t : BinaryTree α} {x : α} (h : top t = some x) :
    x ∈ t.inorder := by
  obtain ⟨a, b, rfl⟩ := exists_branch_of_top .left h
  exact mem_inorder_branch.mpr (.inr (.inl rfl))

theorem length_inorder (t : BinaryTree α) : t.inorder.length = t.numNodes := by
  induction t with
  | nil => rfl
  | node x l r ihl ihr =>
      rw [inorder_node, List.length_append, List.length_cons, ihl, ihr, numNodes]
      omega

/-- **Rotation keeps the in-order list.** -/
theorem inorder_rotate (d : Side) (a b e : BinaryTree α) (x y : α) :
    (branch d (branch d a x b) y e).inorder = (branch d a x (branch d b y e)).inorder := by
  cases d <;> simp [branch]

/-- Taking an element out of a list without repetitions. -/
theorem erase_middle [DecidableEq α] {l₁ l₂ : List α} {x : α} (h : (l₁ ++ x :: l₂).Nodup) :
    (l₁ ++ x :: l₂).erase x = l₁ ++ l₂ := by
  have hx : x ∉ l₁ := by
    rw [List.nodup_middle, List.nodup_cons, List.mem_append, not_or] at h
    exact h.1.1
  rw [List.erase_append_right _ hx, List.erase_cons_head]

/-! ## Contexts -/

/-- One level of a context: the hole is on side `side` of `top`, whose other child
is `other`. -/
structure Frame (α : Type*) where
  side : Side
  elem : α
  other : BinaryTree α

/-- A tree with a hole, from the hole up to the root. -/
abbrev Ctx (α : Type*) := List (Frame α)

/-- A tree put into the hole of a context. -/
def plug : Ctx α → BinaryTree α → BinaryTree α
  | [], t => t
  | f :: c, t => plug c (branch f.side t f.elem f.other)

/-- The node right above the hole. -/
def above : Ctx α → Option α
  | [] => none
  | f :: _ => some f.elem

@[simp] theorem plug_nil (t : BinaryTree α) : plug [] t = t := rfl

@[simp] theorem plug_cons (f : Frame α) (c : Ctx α) (t : BinaryTree α) :
    plug (f :: c) t = plug c (branch f.side t f.elem f.other) := rfl

@[simp] theorem above_nil : above ([] : Ctx α) = none := rfl

@[simp] theorem above_cons (f : Frame α) (c : Ctx α) : above (f :: c) = some f.elem := rfl

theorem plug_append (c c' : Ctx α) (t : BinaryTree α) :
    plug (c ++ c') t = plug c' (plug c t) := by
  induction c generalizing t with
  | nil => rfl
  | cons f c ih => rw [List.cons_append, plug_cons, plug_cons, ih]

/-- What a context has to the left of its hole. -/
def before : Ctx α → List α
  | [] => []
  | ⟨.left, _, _⟩ :: c => before c
  | ⟨.right, x, s⟩ :: c => before c ++ (s.inorder ++ [x])

/-- What a context has to the right of its hole. -/
def after : Ctx α → List α
  | [] => []
  | ⟨.left, x, s⟩ :: c => x :: s.inorder ++ after c
  | ⟨.right, _, _⟩ :: c => after c

theorem inorder_plug (c : Ctx α) (t : BinaryTree α) :
    (plug c t).inorder = before c ++ t.inorder ++ after c := by
  induction c generalizing t with
  | nil => simp [before, after]
  | cons f c ih =>
      obtain ⟨d, x, s⟩ := f
      rw [plug_cons, ih]
      cases d <;> simp [before, after, branch]

/-- Trees with the same in-order list are interchangeable in a context. -/
theorem inorder_plug_congr {c : Ctx α} {t u : BinaryTree α} (h : t.inorder = u.inorder) :
    (plug c t).inorder = (plug c u).inorder := by
  rw [inorder_plug, inorder_plug, h]

/-- Taking an element without a child out of a tree takes it out of the in-order list. -/
theorem inorder_plug_erase [DecidableEq α] {c : Ctx α} {d : Side} {a : BinaryTree α} {x : α}
    (h : (plug c (branch d nil x a)).inorder.Nodup) :
    (plug c (branch d nil x a)).inorder.erase x = (plug c a).inorder := by
  cases d with
  | left =>
      have hl : (plug c (branch .left nil x a)).inorder =
          before c ++ x :: (a.inorder ++ after c) := by
        rw [inorder_plug]
        simp [branch]
      rw [hl] at h ⊢
      rw [erase_middle h, inorder_plug, List.append_assoc]
  | right =>
      have hl : (plug c (branch .right nil x a)).inorder =
          (before c ++ a.inorder) ++ x :: after c := by
        rw [inorder_plug]
        simp [branch]
      rw [hl] at h ⊢
      rw [erase_middle h, inorder_plug]

/-- The elements of a context. -/
def ctxElems (c : Ctx α) : List α := before c ++ after c

theorem mem_ctxElems_cons {d : Side} {x y : α} {s : BinaryTree α} {c : Ctx α} :
    y ∈ ctxElems (⟨d, x, s⟩ :: c) ↔ y = x ∨ y ∈ s.inorder ∨ y ∈ ctxElems c := by
  cases d
  · simp only [ctxElems, before, after, List.mem_append, List.mem_cons]
    tauto
  · simp only [ctxElems, before, after, List.mem_append, List.mem_cons, List.not_mem_nil,
      or_false]
    tauto

theorem mem_inorder_plug {c : Ctx α} {t : BinaryTree α} {y : α} :
    y ∈ (plug c t).inorder ↔ y ∈ t.inorder ∨ y ∈ ctxElems c := by
  rw [inorder_plug, ctxElems, List.mem_append, List.mem_append, List.mem_append]
  tauto

theorem nodup_inorder_plug {c : Ctx α} {t : BinaryTree α} :
    (plug c t).inorder.Nodup ↔
      t.inorder.Nodup ∧ (ctxElems c).Nodup ∧ t.inorder.Disjoint (ctxElems c) := by
  rw [inorder_plug, ctxElems, List.append_assoc, List.nodup_append', List.nodup_append',
    List.nodup_append', List.disjoint_append_right, List.disjoint_append_right,
    @List.disjoint_comm _ (before c) t.inorder]
  tauto

theorem nodup_ctxElems_cons {d : Side} {x : α} {s : BinaryTree α} {c : Ctx α} :
    (ctxElems (⟨d, x, s⟩ :: c)).Nodup ↔ s.inorder.Nodup ∧ x ∉ s.inorder ∧
      (ctxElems c).Nodup ∧ x ∉ ctxElems c ∧ s.inorder.Disjoint (ctxElems c) := by
  have hnil : ∀ c : Ctx α, (ctxElems c).Nodup ↔ (plug c nil).inorder.Nodup := by
    intro c
    rw [nodup_inorder_plug]
    simp
  rw [hnil (⟨d, x, s⟩ :: c), plug_cons, nodup_inorder_plug, nodup_inorder_branch]
  have hdisj : (branch d nil x s).inorder.Disjoint (ctxElems c) ↔
      x ∉ ctxElems c ∧ s.inorder.Disjoint (ctxElems c) := by
    cases d <;> simp [branch, List.disjoint_cons_left, and_comm]
  rw [hdisj]
  simp only [inorder_nil, List.nodup_nil, List.not_mem_nil, not_false_eq_true,
    List.disjoint_nil_left]
  tauto

theorem length_add_numNodes_le (c : Ctx α) (t : BinaryTree α) :
    c.length + t.numNodes ≤ (plug c t).numNodes := by
  induction c generalizing t with
  | nil => simp
  | cons f c ih =>
      have := ih (branch f.side t f.elem f.other)
      rw [plug_cons, List.length_cons]
      have hnum : t.numNodes + 1 ≤ (branch f.side t f.elem f.other).numNodes := by
        cases f.side <;> rw [branch, numNodes] <;> omega
      omega

theorem mem_ctxElems_of_above {c : Ctx α} {x : α} (h : above c = some x) :
    x ∈ ctxElems c := by
  cases c with
  | nil => cases h
  | cons f c =>
      obtain ⟨d, y, s⟩ := f
      obtain rfl : y = x := Option.some.inj h
      exact mem_ctxElems_cons.mpr (.inl rfl)

/-- The root of a plugged tree is in the context, unless that is a hole. -/
theorem exists_top_plug {c : Ctx α} (hc : c ≠ []) (t : BinaryTree α) :
    ∃ x, top (plug c t) = some x ∧ x ∈ ctxElems c := by
  induction c generalizing t with
  | nil => exact absurd rfl hc
  | cons f c ih =>
      obtain ⟨d, y, s⟩ := f
      rw [plug_cons]
      by_cases hc' : c = []
      · subst hc'
        exact ⟨y, top_branch .., mem_ctxElems_cons.mpr (.inl rfl)⟩
      · obtain ⟨x, hx, hmem⟩ := ih hc' _
        exact ⟨x, hx, mem_ctxElems_cons.mpr (.inr (.inr hmem))⟩

/-- Every element of a tree is the root of a subtree of it. -/
theorem exists_plug_of_mem {t : BinaryTree α} {x : α} (d : Side) (h : x ∈ t.inorder) :
    ∃ c a b, t = plug c (branch d a x b) := by
  suffices hc : ∀ c₀ : Ctx α, ∃ c a b, plug c₀ t = plug c (branch d a x b) from hc []
  induction t with
  | nil => cases h
  | node y l r ihl ihr =>
      intro c₀
      rw [inorder_node, List.mem_append, List.mem_cons] at h
      rcases h with h | rfl | h
      · exact ihl h (⟨.left, y, r⟩ :: c₀)
      · cases d
        · exact ⟨c₀, l, r, rfl⟩
        · exact ⟨c₀, r, l, rfl⟩
      · exact ihr h (⟨.right, y, l⟩ :: c₀)

/-- A nonempty tree, taken apart at the left end. -/
theorem exists_plug_of_inorder_cons {t : BinaryTree α} {x : α} {xs : List α}
    (h : t.inorder = x :: xs) :
    ∃ c b, t = plug c (branch .left nil x b) ∧ before c = [] ∧
      xs = b.inorder ++ after c := by
  suffices hc : ∀ c₀ : Ctx α, before c₀ = [] → ∃ c b,
      plug c₀ t = plug c (branch .left nil x b) ∧ before c = [] ∧
        xs ++ after c₀ = b.inorder ++ after c by
    obtain ⟨c, b, ht, hb, hxs⟩ := hc [] rfl
    exact ⟨c, b, ht, hb, by simpa [after] using hxs⟩
  induction t generalizing xs with
  | nil => cases h
  | node y l r ihl ihr =>
      intro c₀ hc₀
      cases hl : l.inorder with
      | nil =>
          rw [inorder_node, hl, List.nil_append, List.cons.injEq] at h
          obtain ⟨rfl, rfl⟩ := h
          have hnil : l = nil := by
            cases l with
            | nil => rfl
            | node z l' r' => simp at hl
          exact ⟨c₀, r, by rw [hnil]; rfl, hc₀, rfl⟩
      | cons z zs =>
          rw [inorder_node, hl, List.cons_append, List.cons.injEq] at h
          obtain ⟨rfl, rfl⟩ := h
          obtain ⟨c, b, ht, hb, hxs⟩ := ihl hl (⟨.left, y, r⟩ :: c₀) hc₀
          refine ⟨c, b, ht, hb, ?_⟩
          rw [← hxs, after, List.append_assoc, List.cons_append]

end BinaryTree
