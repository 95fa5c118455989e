import InfoKernel.Lib.Run
import InfoKernel.Task.SchedQueue

/-!
# Taking a task out of the run queue twice

`RbErase` does not clear the links of the task that it takes out, and `Dequeue` does not ask
whether its task is queued.  So `Dequeue` of a task that is not linked removes it once more
from the place where it used to be: it writes to the old parent, the old children or the
root, whatever they have become since, and counts the task again.

## When it does no harm

The counters move whenever the task is running, ready or blocked, so only a task in another
state can be taken out twice without a trace.  Then the old neighbours decide.  A write keeps
the tree if it goes to a task that is not linked, or if it writes the value that is there
already: `Rq.Fits` says so of the write that fills the old place of a node.  `Rq.Quiet` says
that the repair of the colours, if there is one, stops at its first look and finds nothing to
change.  `Rq.Harmless` puts these together for the two ways a node is unlinked.

## The scheduler between two calls

`Scheduler.step` is the scheduler class by itself: its members in any order, with the
assignments that the kernel makes to the entities and to the states of the tasks.  It has the
states inside a call of the kernel as well, such as the one between the `Dequeue` in
`Sem::wait` and the one in `Schedule`.  Its runs keep the tree as long as a `Dequeue` of a
task that is not linked does no harm, and `dequeue_unlinked` is what that `Dequeue` does in
every state such a run reaches.
-/

namespace InfoKernel.Task

open InfoKernel.Lib
open BinaryTree hiding node

/-! ## The tree -/

namespace Cfs.Rq

variable {rq rq' : Rq} {t : BinaryTree PcbId} {p : PcbId}

/-- Filling the old place of a task below `q` with `x` keeps the tree: at the root and below a
linked task `x` is there already, and nothing linked is hung below another task. -/
structure Fits (rq : Rq) (linked : PcbId → Prop) (q x : Option PcbId) : Prop where
  root : q = none → rq.links.root = x
  child : ∀ w, q = some w → linked w → rq.links.child .right w = x
  apart : ∀ w v, q = some w → ¬ linked w → x = some v → ¬ linked v

/-- The repair of the colours from `x`, which finds the sibling `sibling`, is not made or stops
at its first look, and the node that it makes black is black or not linked. -/
def Quiet (rq : Rq) (linked : PcbId → Prop) (yRed : Bool) (x sibling : Option PcbId) : Prop :=
  yRed = false → ∀ v, x = some v →
    (linked v → rq.isRed v = false) ∧
      (rq.isRed v = true ∨ rq.links.root = some v ∨ sibling = none)

/-- The other child of the old parent of `p`, once its place is filled. -/
def oldSibling (rq : Rq) (p : PcbId) : Option PcbId :=
  match rq.links.parent p with
  | none => none
  | some q =>
      if rq.links.child .left q = some p then rq.links.child .right q
      else rq.links.child .left q

/-- **Unlinking `p` once more does no harm**, for a `p` that is not linked: its one child fits
in its place, or it has two, and neither they nor its parent nor its successor are linked and
the child of the successor fits in the place of that. -/
inductive Harmless (rq : Rq) (linked : PcbId → Prop) (p : PcbId) : Prop
  | oneChild (d : Side) : rq.links.child d p = none →
      rq.Fits linked (rq.links.parent p) (rq.links.child d.opp p) →
      rq.Quiet linked (rq.isRed p) (rq.links.child d.opp p) (rq.oldSibling p) →
      Harmless rq linked p
  | twoChildren (l r y q : PcbId) (n : Nat) : rq.links.child .left p = some l →
      rq.links.child .right p = some r → rq.links.parent p = some q →
      rq.leftEnd n r = .ok y → ¬ linked l → ¬ linked r → ¬ linked y → ¬ linked q →
      (rq.links.parent y = some p → ∀ v, rq.links.child .right y = some v → ¬ linked v) →
      (rq.links.parent y ≠ some p →
        rq.Fits linked (rq.links.parent y) (rq.links.child .right y)) →
      rq.Quiet linked (rq.isRed y) (rq.links.child .right y) (some l) →
      Harmless rq linked p

/-- `rq'` has the tree `t` with the colours of `rq`. -/
structure Kept (rq : Rq) (t : BinaryTree PcbId) (rq' : Rq) : Prop where
  represents : rq'.links.Represents t
  isRed : ∀ x ∈ t.inorder, rq'.isRed x = rq.isRed x

/-- The links that `RbReplaceNode` leaves. -/
theorem rbReplaceNode_links (rq : Rq) (u : PcbId) (v : Option PcbId) :
    (rq.rbReplaceNode u v).links =
      (rq.links.redirect .left (rq.links.parent u) u v).setParent? v (rq.links.parent u) := by
  rw [rbReplaceNode, Links.redirect_parent]

/-- **`RbReplaceNode`** of a task that is not linked, where the other task fits. -/
theorem represents_rbReplaceNode_outside (h : rq.links.Represents t) {u : PcbId}
    (hu : u ∉ t.inorder) {v : Option PcbId}
    (hv : rq.Fits (· ∈ t.inorder) (rq.links.parent u) v) :
    (rq.rbReplaceNode u v).links.Represents t := by
  have hl : (rq.links.redirect .left (rq.links.parent u) u v).Represents t :=
    h.redirect_outside hu hv.root hv.child
  rw [rbReplaceNode_links]
  refine hl.setParent?_outside fun w hw hmem => ?_
  rw [Links.redirect_parent]
  cases hq : rq.links.parent u with
  | none => exact (h.parent_root ((hv.root hq).trans hw)).2
  | some q =>
      by_cases hqt : q ∈ t.inorder
      · exact h.parent_child hqt ((hv.child q hq hqt).trans hw)
      · exact absurd hmem (hv.apart q w hq hqt hw)

/-- What fits below a task, and is not linked, is below one that is not linked. -/
theorem Fits.above_outside (h : rq.links.Represents t) {q : Option PcbId} {v : PcbId}
    (hf : rq.Fits (· ∈ t.inorder) q (some v)) (hv : v ∉ t.inorder) :
    ∃ w, q = some w ∧ w ∉ t.inorder := by
  cases q with
  | none => exact absurd (h.parent_root (hf.root rfl)).1 hv
  | some w =>
      refine ⟨w, rfl, fun hw => hv ?_⟩
      exact (h.closed hw).1 _ _ (hf.child w rfl hw)

/-- Nothing is lost of a tree by hanging a task outside of it below another one. -/
theorem fits_outside {q v : PcbId} (hq : q ∉ t.inorder) (hv : v ∉ t.inorder) :
    rq.Fits (· ∈ t.inorder) (some q) (some v) where
  root := fun hnone => by cases hnone
  child := fun w hw hmem => by
    rw [Option.some.injEq] at hw
    exact absurd (hw ▸ hmem) hq
  apart := fun w x _ _ hx => by
    rw [Option.some.injEq] at hx
    rw [← hx]
    exact hv

/-- A parent that is there and not linked. -/
def UnderOutside (rq : Rq) (t : BinaryTree PcbId) (p : PcbId) : Prop :=
  ∃ q, rq.links.parent p = some q ∧ q ∉ t.inorder

theorem UnderOutside.setParent? (h : rq.UnderOutside t p) {x q : Option PcbId}
    (hq : x = some p → ∃ w, q = some w ∧ w ∉ t.inorder) :
    (rq.rbSetParent x q).UnderOutside t p := by
  rw [UnderOutside, rbSetParent, Links.setParent?_parent]
  split
  · next hx => exact hq hx
  · exact h

/-- The child of the successor, hung below it, fills its old place. -/
theorem fillPlace_outside (h : rq.links.Represents t) {x : Option PcbId} {y : PcbId}
    (hpt : p ∉ t.inorder) (hp : rq.UnderOutside t p) (hy : y ∉ t.inorder)
    (haway : rq.links.parent y ≠ some p → rq.Fits (· ∈ t.inorder) (rq.links.parent y) x)
    (hin : (rq.rbSetParent x (some y)).links.parent y ≠ some p) :
    ((rq.rbSetParent x (some y)).rbReplaceNode y x).links.Represents t ∧
      ((rq.rbSetParent x (some y)).rbReplaceNode y x).UnderOutside t p ∧
      ∀ e, ((rq.rbSetParent x (some y)).rbReplaceNode y x).links.child e p =
        rq.links.child e p := by
  have hp₁ : (rq.rbSetParent x (some y)).UnderOutside t p :=
    hp.setParent? fun _ => ⟨y, rfl, hy⟩
  have hpar₁ : x ≠ some y → (rq.rbSetParent x (some y)).links.parent y = rq.links.parent y :=
    fun hxy => by rw [rbSetParent, Links.setParent?_parent, if_neg hxy]
  refine ⟨?_, ?_, fun e => ?_⟩
  · by_cases hxy : x = some y
    · have h₁ : (rq.rbSetParent x (some y)).links.Represents t := by
        refine h.setParent?_outside fun v hv hmem => ?_
        rw [hxy, Option.some.injEq] at hv
        exact absurd (hv ▸ hmem) hy
      refine represents_rbReplaceNode_outside h₁ hy ?_
      rw [rbSetParent, Links.setParent?_parent, if_pos hxy, hxy]
      exact fits_outside hy hy
    · have hsame : ((rq.rbSetParent x (some y)).rbReplaceNode y x).links =
          (rq.rbReplaceNode y x).links := by
        rw [hpar₁ hxy] at hin
        rw [rbReplaceNode_links, rbReplaceNode_links, hpar₁ hxy, rbSetParent,
          Links.redirect_setParent?, Links.setParent?_setParent?]
      rw [hsame]
      rw [hpar₁ hxy] at hin
      exact represents_rbReplaceNode_outside h hy (haway hin)
  · rw [UnderOutside, rbReplaceNode_links, Links.setParent?_parent]
    split
    · next hxp =>
      by_cases hxy : x = some y
      · refine ⟨y, ?_, hy⟩
        rw [rbSetParent, Links.setParent?_parent, if_pos hxy]
      · rw [hpar₁ hxy] at hin ⊢
        exact (hxp ▸ haway hin).above_outside h hpt
    · rw [Links.redirect_parent]
      exact hp₁
  · rw [rbReplaceNode_links, Links.setParent?_child, Links.redirect_child_of_ne _ hin,
      rbSetParent, Links.setParent?_child]

/-- **The successor leaves its old place**, when it is not linked. -/
theorem detachSuccessor_outside (h : rq.links.Represents t) {r y : PcbId}
    (hpt : p ∉ t.inorder) (hp : rq.UnderOutside t p) (hr : rq.links.child .right p =
      some r) (hrt : r ∉ t.inorder)
    (hy : y ∉ t.inorder)
    (hbelow : rq.links.parent y = some p →
      ∀ v, rq.links.child .right y = some v → v ∉ t.inorder)
    (haway : rq.links.parent y ≠ some p →
      rq.Fits (· ∈ t.inorder) (rq.links.parent y) (rq.links.child .right y)) :
    (rq.detachSuccessor p y).links.Represents t ∧ (rq.detachSuccessor p y).UnderOutside t p ∧
      (rq.detachSuccessor p y).links.child .left p = rq.links.child .left p := by
  obtain ⟨x, hx⟩ : ∃ x, rq.links.child .right y = x := ⟨_, rfl⟩
  rw [hx] at hbelow haway
  unfold detachSuccessor
  simp only [hx]
  by_cases hin : (rq.rbSetParent x (some y)).links.parent y = some p
  · rw [if_pos hin]
    have hout : ∀ v, x = some v → v ∉ t.inorder := by
      intro v hv
      by_cases hxy : x = some y
      · rw [hxy, Option.some.injEq] at hv
        rw [← hv]
        exact hy
      · rw [rbSetParent, Links.setParent?_parent, if_neg hxy] at hin
        exact hbelow hin v hv
    have h₁ : (rq.rbSetParent x (some y)).links.Represents t :=
      h.setParent?_outside fun v hv hmem => absurd hmem (hout v hv)
    refine ⟨h₁.setParent?_outside fun v hv hmem => absurd hmem (hout v hv),
      (hp.setParent? fun _ => ⟨y, rfl, hy⟩).setParent? fun _ => ⟨y, rfl, hy⟩, ?_⟩
    rw [rbSetParent, rbSetParent, Links.setParent?_child, Links.setParent?_child]
  · rw [if_neg hin]
    obtain ⟨h₂, hp₂, hchild₂⟩ := fillPlace_outside h hpt hp hy haway hin
    generalize (rq.rbSetParent x (some y)).rbReplaceNode y x = rq₂ at h₂ hp₂ hchild₂ ⊢
    rw [hchild₂, hr]
    -- the right subtree, hung below the successor
    have h₃ : (rq₂.links.setChild .right y (some r)).Represents t :=
      h₂.setChild_outside fun hmem => absurd hmem hy
    have hr₃ : (rq₂.links.setChild .right y (some r)).child .right p = some r := by
      rw [Links.setChild_child]
      split
      · rfl
      · rw [hchild₂, hr]
    have hp₃ : ({ rq₂ with links := rq₂.links.setChild .right y (some r) } : Rq).UnderOutside t p :=
      hp₂
    rw [hr₃]
    have h₄ :
      ((rq₂.links.setChild .right y (some r)).setParent? (some r) (some y)).Represents t := by
      refine h₃.setParent?_outside fun v hv hmem => ?_
      rw [Option.some.injEq] at hv
      exact absurd (hv ▸ hmem) hrt
    refine ⟨h₄, hp₃.setParent? fun _ => ⟨y, rfl, hy⟩, ?_⟩
    · rw [rbSetParent, Links.setParent?_child, Links.setChild_child, if_neg (by simp), hchild₂]

/-- **The successor takes the place** of a task, when neither is linked. -/
theorem takePlace_outside (h : rq.links.Represents t) {l y : PcbId} (hpt : p ∉ t.inorder)
    (hp : rq.UnderOutside t p) (hl : rq.links.child .left p = some l) (hlt : l ∉ t.inorder)
    (hy : y ∉ t.inorder) : (rq.takePlace p y).links.Represents t := by
  obtain ⟨q, hq, hqt⟩ := hp
  have h₁ : (rq.rbReplaceNode p (some y)).links.Represents t := by
    refine represents_rbReplaceNode_outside h hpt ?_
    rw [hq]
    exact fits_outside hqt hy
  -- the link to the left subtree may have been the one that was redirected
  have hleft : ∀ v, (rq.rbReplaceNode p (some y)).links.child .left p = some v →
      v ∉ t.inorder := by
    intro v hv
    rw [rbReplaceNode_links, Links.setParent?_child] at hv
    rcases rq.links.redirect_child_eq_or .left p with hsame | hnew
    · rw [hsame, hl, Option.some.injEq] at hv
      rw [← hv]
      exact hlt
    · rw [hnew, Option.some.injEq] at hv
      rw [← hv]
      exact hy
  unfold takePlace
  simp only
  refine (h₁.setChild_outside fun hmem => absurd hmem hy).setParent?_outside fun v hv hmem => ?_
  rw [Links.setChild_child] at hv
  split at hv
  · exact absurd hmem (hleft v hv)
  · exact absurd hmem (hleft v hv)

/-- The repair that `RbErase` has left to do stops at its first look, and the task it makes
black is black or not in the tree. -/
def Still (rq : Rq) (t : BinaryTree PcbId) (u : Unlinked) : Prop :=
  u.yOriginalRed = false → ∀ v, u.x = some v → (v ∈ t.inorder → rq.isRed v = false) ∧
    eraseFixupTurn (rq, some v, u.xParent) = .ok (.leave (rq, some v))

/-- The repair stops at the root and at a red node. -/
theorem eraseFixupTurn_leaves {v : PcbId} (parent : Option PcbId)
    (h : rq.links.root = some v ∨ rq.isRed v = true) :
    eraseFixupTurn (rq, some v, parent) = .ok (.leave (rq, some v)) := by
  cases parent with
  | none => rfl
  | some q =>
      have hstop : some v = rq.links.root ∨ rq.rbIsRed (some v) = true :=
        h.imp (fun hroot => hroot.symm) fun hred => hred
      rw [eraseFixupTurn, if_pos hstop]

/-- The repair stops where there is no sibling. -/
theorem eraseFixupTurn_alone {v : PcbId} (h : rq.oldSibling p = none) :
    eraseFixupTurn (rq.rbReplaceNode p (some v), some v, rq.links.parent p) =
      .ok (.leave (rq.rbReplaceNode p (some v), some v)) := by
  cases hq : rq.links.parent p with
  | none => rfl
  | some q =>
      rw [oldSibling, hq] at h
      simp only at h
      rw [eraseFixupTurn]
      split
      · rfl
      · by_cases hleft : rq.links.child .left q = some p
        · rw [if_pos hleft] at h
          have hchild : ∀ e, (rq.rbReplaceNode p (some v)).links.child e q =
              if e = .left then some v else rq.links.child e q := by
            intro e
            rw [rbReplaceNode_links, Links.setParent?_child, hq, Links.redirect, if_pos hleft,
              Links.setChild_child]
            simp
          rw [if_pos (by rw [hchild, if_pos rfl]), eraseFixupSide, hchild, Side.opp_left,
            if_neg (by simp), h]
        · rw [if_neg hleft] at h
          have hchild : (rq.rbReplaceNode p (some v)).links.child .left q = none := by
            rw [rbReplaceNode_links, Links.setParent?_child, hq, Links.redirect, if_neg hleft,
              Links.setChild_child, if_neg (by simp), h]
          rw [hchild, if_neg (by simp), eraseFixupSide, Side.opp_right, hchild]

/-- **Unlinking a task once more**, when it lacks a child. -/
theorem unlink_oneChild (h : rq.links.Represents t) (hp : p ∉ t.inorder) {d : Side}
    (hd : rq.links.child d p = none)
    (hf : rq.Fits (· ∈ t.inorder) (rq.links.parent p) (rq.links.child d.opp p))
    (hq : rq.Quiet (· ∈ t.inorder) (rq.isRed p) (rq.links.child d.opp p) (rq.oldSibling p))
    (fuel : Nat) :
    ∃ rq' u, rq.unlink fuel p = .ok (rq', u) ∧ rq.Kept t rq' ∧ rq'.Still t u := by
  obtain ⟨x, hx⟩ : ∃ x, rq.links.child d.opp p = x := ⟨_, rfl⟩
  rw [hx] at hf hq
  have hrep : (rq.rbReplaceNode p x).links.Represents t := represents_rbReplaceNode_outside h hp hf
  refine ⟨_, _, unlink_lacking hd fuel, ⟨?_, fun _ _ => rfl⟩, ?_⟩
  · rw [hx]
    exact hrep
  · rw [hx]
    intro hblack v hv
    have hv : x = some v := hv
    obtain ⟨hkeep, hstop⟩ := hq hblack v hv
    refine ⟨hkeep, ?_⟩
    subst hv
    rcases hstop with hred | hroot | halone
    · exact eraseFixupTurn_leaves _ (.inr hred)
    · have hroot' : (rq.rbReplaceNode p (some v)).links.root = some v := by
        rw [hrep.root, ← h.root]
        exact hroot
      exact eraseFixupTurn_leaves _ (.inl hroot')
    · exact eraseFixupTurn_alone halone

/-- **Unlinking a task once more**, when it has two children. -/
theorem unlink_twoChildren (h : rq.links.Represents t) (hp : p ∉ t.inorder)
    {l r y q : PcbId} {n : Nat} (hl : rq.links.child .left p = some l)
    (hr : rq.links.child .right p = some r) (hparent : rq.links.parent p = some q)
    (hend : rq.leftEnd n r = .ok y) (hlt : l ∉ t.inorder) (hrt : r ∉ t.inorder)
    (hy : y ∉ t.inorder) (hqt : q ∉ t.inorder)
    (hbelow : rq.links.parent y = some p →
      ∀ v, rq.links.child .right y = some v → v ∉ t.inorder)
    (haway : rq.links.parent y ≠ some p →
      rq.Fits (· ∈ t.inorder) (rq.links.parent y) (rq.links.child .right y))
    (hq : rq.Quiet (· ∈ t.inorder) (rq.isRed y) (rq.links.child .right y) (some l)) :
    ∃ rq' u, rq.unlink n p = .ok (rq', u) ∧ rq.Kept t rq' ∧ rq'.Still t u := by
  have hunlink : rq.unlink n p = .ok (rq.unlinkSuccessor p y) := by
    rw [unlink, hl, hr]
    simp only [hend]
    rfl
  obtain ⟨h₁, hp₁, hl₁⟩ := detachSuccessor_outside h hp ⟨q, hparent, hqt⟩ hr hrt hy hbelow haway
  have h₂ : ((rq.detachSuccessor p y).takePlace p y).links.Represents t :=
    takePlace_outside h₁ hp hp₁ (hl₁.trans hl) hlt hy
  have hcolor : ∀ x, x ≠ y → (rq.unlinkSuccessor p y).1.isRed x = rq.isRed x := by
    intro x hx
    simp [unlinkSuccessor, hx]
  have hrep : (rq.unlinkSuccessor p y).1.links.Represents t := by
    rw [unlinkSuccessor, setColor_links, rbSetBlack_links]
    exact h₂
  refine ⟨(rq.unlinkSuccessor p y).1, (rq.unlinkSuccessor p y).2, hunlink,
    ⟨hrep, fun x hx => hcolor x fun hxy => hy (hxy ▸ hx)⟩, ?_⟩
  intro hblack v hv
  have hblack : rq.isRed y = false := hblack
  obtain ⟨hkeep, hstop⟩ := hq hblack v hv
  refine ⟨fun hmem => ?_, eraseFixupTurn_leaves _ ?_⟩
  · rw [hcolor v fun hvy => hy (hvy ▸ hmem)]
    exact hkeep hmem
  · rcases hstop with hred | hroot | hnone
    · refine .inr ?_
      rw [hcolor v fun hvy => ?_, hred]
      rw [hvy, hblack] at hred
      cases hred
    · refine .inl ?_
      rw [hrep.root, ← h.root]
      exact hroot
    · cases hnone

/-- **`RbErase` of a task that is not linked**, where it does no harm: the tree, its colours
and `leftmost` stay. -/
theorem rbErase_harmless (h : rq.links.Represents t) (hp : p ∉ t.inorder)
    (hs : rq.Harmless (· ∈ t.inorder) p) :
    ∃ fuel rq', rq.rbErase fuel p = .ok rq' ∧ rq.Kept t rq' ∧ rq'.leftmost = t.inorder.head? := by
  obtain ⟨n, rq₁, u, hunlink, ⟨h₁, hc₁⟩, hstill⟩ :
      ∃ n rq₁ u, rq.unlink n p = .ok (rq₁, u) ∧ rq.Kept t rq₁ ∧ rq₁.Still t u := by
    cases hs with
    | oneChild d hd hf hq => exact ⟨0, unlink_oneChild h hp hd hf hq 0⟩
    | twoChildren l r y q n hl hr hparent hend hlt hrt hy hqt hbelow haway hq =>
        exact ⟨n, unlink_twoChildren h hp hl hr hparent hend hlt hrt hy hqt hbelow haway hq⟩
  obtain ⟨rq₂, hfix, h₂, hc₂⟩ : ∃ rq₂, rq₁.fixErased 1 u = .ok rq₂ ∧ rq₂.links.Represents t ∧
      ∀ x ∈ t.inorder, rq₂.isRed x = rq₁.isRed x := by
    rw [fixErased]
    split
    · next hrepair =>
      obtain ⟨v, hv⟩ := Option.ne_none_iff_exists'.mp hrepair.1
      obtain ⟨hkeep, hturn⟩ := hstill hrepair.2 v hv
      rw [rbEraseColorFixup, hv, loop_of_leave hturn]
      refine ⟨rq₁.rbSetBlack (some v), rfl, ?_, fun x hx => ?_⟩
      · rw [rbSetBlack_links]
        exact h₁
      · rw [rbSetBlack_isRed, Function.update_apply]
        split
        · next hxv => rw [hxv, hkeep (hxv ▸ hx)]
        · rfl
    · exact ⟨rq₁, rfl, h₁, fun _ _ => rfl⟩
  have ht : ∃ fuel, n ≤ fuel ∧ 1 ≤ fuel ∧ t.numNodes < fuel :=
    ⟨n + t.numNodes + 1, by omega, by omega, by omega⟩
  obtain ⟨fuel, hn, hone, ht⟩ := ht
  have hkept : ∀ rq₃ : Rq, rq₃.links = rq₂.links → rq₃.isRed = rq₂.isRed → rq.Kept t rq₃ := by
    intro rq₃ hlinks hred
    refine ⟨hlinks ▸ h₂, fun x hx => ?_⟩
    rw [hred, hc₂ x hx, hc₁ x hx]
  cases hroot : rq₂.links.root with
  | none =>
      refine ⟨fuel, { rq₂ with leftmost := none, minVruntime := 0 }, ?_, hkept _ rfl rfl, ?_⟩
      · rw [rbErase, bind_eq_ok_iff]
        refine ⟨_, unlink_steady rq p n fuel _ hn hunlink, bind_eq_ok_iff.mpr ?_⟩
        refine ⟨rq₂, fixErased_steady rq₁ u 1 fuel _ hone hfix, ?_⟩
        rw [hroot]
        rfl
      · rw [top_eq_none.mp (h₂.root.symm.trans hroot)]
        rfl
  | some root =>
      obtain ⟨rq₃, hleft, hlinks, hred, -, hends⟩ := updateLeftmost_returns h₂ hroot ht
      refine ⟨fuel, rq₃, ?_, hkept _ hlinks hred, hends.leftmost⟩
      rw [rbErase, bind_eq_ok_iff]
      refine ⟨_, unlink_steady rq p n fuel _ hn hunlink, bind_eq_ok_iff.mpr ?_⟩
      refine ⟨rq₂, fixErased_steady rq₁ u 1 fuel _ hone hfix, ?_⟩
      rw [hroot]
      exact hleft

/-- Filling the place of a task that is not linked keeps the tree only where it fits. -/
theorem fits_of_represents (h : rq.links.Represents t) {u : PcbId} (hu : u ∉ t.inorder)
    {v : Option PcbId} (h' : (rq.rbReplaceNode u v).links.Represents t) :
    rq.Fits (· ∈ t.inorder) (rq.links.parent u) v := by
  rw [rbReplaceNode_links] at h'
  refine ⟨fun hnone => ?_, fun w hw hmem => ?_, fun w x hw hout hx hmem => ?_⟩
  · have hroot := h'.root
    rw [Links.setParent?_root, hnone] at hroot
    rw [h.root, ← hroot]
    rfl
  · have hleft : rq.links.child .left w ≠ some u := fun hc => hu ((h.closed hmem).1 _ _ hc)
    have hchild := h.child_eq h' hmem .right
    rw [Links.setParent?_child, hw, Links.redirect, if_neg hleft, Links.setChild_child,
      if_pos ⟨rfl, rfl⟩] at hchild
    exact hchild.symm
  · refine hout ((h'.closed hmem).2 w ?_)
    rw [Links.setParent?_parent, if_pos hx, hw]

/-- `RbErase` of a node that lacks a child, with no colours to repair. -/
theorem rbErase_plain {d : Side} (hd : rq.links.child d p = none)
    (hplain : rq.isRed p = true ∨ rq.links.child d.opp p = none) {fuel : Nat}
    (hr : rq.rbErase fuel p = .ok rq') :
    rq'.links = (rq.rbReplaceNode p (rq.links.child d.opp p)).links := by
  rw [rbErase, bind_eq_ok_iff] at hr
  obtain ⟨⟨rq₁, u⟩, hunlink, hr⟩ := hr
  rw [unlink_lacking hd] at hunlink
  injection hunlink with hunlink
  obtain ⟨rfl, rfl⟩ := Prod.mk.inj hunlink
  rw [bind_eq_ok_iff] at hr
  obtain ⟨rq₂, hfix, hr⟩ := hr
  have hno : ¬ (rq.links.child d.opp p ≠ none ∧ rq.isRed p = false) := by
    rintro ⟨hx, hblack⟩
    rcases hplain with hred | hnone
    · rw [hred] at hblack
      cases hblack
    · exact hx hnone
  have hfix : (rq.rbReplaceNode p (rq.links.child d.opp p)) = rq₂ := by
    rw [fixErased] at hfix
    split at hfix
    · next h => exact absurd h hno
    · injection hfix
  rw [hfix]
  cases hroot : rq₂.links.root with
  | none =>
      rw [hroot] at hr
      injection hr with hr
      rw [← hr]
  | some root =>
      rw [hroot] at hr
      simp only at hr
      rw [updateLeftmost, bind_eq_ok_iff] at hr
      obtain ⟨leftmost, -, hr⟩ := hr
      injection hr with hr
      rw [← hr]

end Cfs.Rq

/-! ## The scheduler class by itself -/

/-- The scheduler, with the states of the tasks. -/
structure Scheduler where
  sched : Cfs.Sched
  stat : PcbId → State

namespace Scheduler

variable (s : Scheduler)

/-- The task is linked in the tree of the run queue. -/
def Linked (p : PcbId) : Prop :=
  ∃ t, s.sched.rq.links.Represents t ∧ p ∈ t.inorder

/-- The members of `Sched`, and the assignments to an entity and to a state: `clear`, `copy`
and `init` set up the entity of a new control block. -/
inductive Call where
  | clear (p : PcbId)
  | copy (child parent : PcbId)
  | init (p : PcbId) (nice : Int)
  | setStat (p : PcbId) (st : State)
  | enqueue (p : PcbId)
  | dequeue (p : PcbId)
  | pick
  | clock (delta : Nat)
  deriving DecidableEq, Repr

/-- A new control block is one that is not queued, and so is a task that is put into the run
queue. -/
def Allowed : Call → Prop
  | .clear p => ¬ s.Linked p
  | .copy child _ => ¬ s.Linked child
  | .init p _ => ¬ s.Linked p
  | .enqueue p => ¬ s.Linked p
  | _ => True

/-- The calls, with fuel for their loops. -/
def call (fuel : Nat) : Call → Except Fault Scheduler
  | .clear p => .ok { s with sched := s.sched.clearEntity p }
  | .copy child parent => .ok { s with sched := s.sched.copyEntity child parent }
  | .init p nice => .ok { s with sched := s.sched.initEntity p nice }
  | .setStat p st => .ok { s with stat := Function.update s.stat p st }
  | .enqueue p => do
      let c ← s.sched.enqueue fuel (s.stat p) p
      return { s with sched := c }
  | .dequeue p => do
      let c ← s.sched.dequeue fuel (s.stat p) p
      return { s with sched := c }
  | .pick => do
      let (c, _) ← s.sched.pickNextTask fuel s.stat
      return { s with sched := c }
  | .clock delta => do
      let c ← s.sched.updateClock delta
      return { s with sched := c }

/-- A step: an allowed call that returns, whatever fuel it takes. -/
def step (s : Scheduler) (c : Call) (s' : Scheduler) : Prop :=
  s.Allowed c ∧ ∃ fuel, s.call fuel c = .ok s'

/-- The scheduler as it starts, with nothing queued. -/
structure Init : Prop where
  root : s.sched.rq.links.root = none
  leftmost : s.sched.rq.leftmost = none

/-- `Dequeue` counts the task: it is running, ready or blocked. -/
def Counted (p : PcbId) : Prop :=
  s.stat p = .running ∨ s.stat p = .ready ∨ s.stat p = .blocked

/-- **`Dequeue` of the task does no harm**, if it is not linked. -/
def Harmless (p : PcbId) : Prop :=
  ¬ s.Counted p ∧ s.sched.rq.Harmless s.Linked p

/-- The calls under which the tree lasts. -/
def Sound (s : Scheduler) : Call → Prop
  | .dequeue p => s.Linked p ∨ s.Harmless p
  | _ => True

/-- The links of the task leave nothing to repair: it lacks a child, and it is red or lacks the
other one as well. -/
def Plain (p : PcbId) : Prop :=
  ∃ d, s.sched.rq.links.child d p = none ∧
    (s.sched.rq.isRed p = true ∨ s.sched.rq.links.child d.opp p = none)

/-- The tree with its colours, `leftmost` and the counters stay. -/
structure Unchanged (c c' : Cfs.Sched) : Prop where
  tree : ∀ t, c.rq.links.Represents t → c.rq.Kept t c'.rq
  leftmost : c'.rq.leftmost = c.rq.leftmost
  nrRunning : c'.nrRunning = c.nrRunning
  totalWeight : c'.totalWeight = c.totalWeight

section Runs

variable {s s' : Scheduler} {t : BinaryTree PcbId} {p : PcbId} {fuel : Nat}

theorem linked_eq (h : s.sched.rq.links.Represents t) : s.Linked = (· ∈ t.inorder) := by
  funext p
  apply propext
  constructor
  · rintro ⟨u, hu, hp⟩
    rwa [hu.unique h] at hp
  · intro hp
    exact ⟨t, h, hp⟩

theorem not_mem (h : s.sched.Queue t) (hp : ¬ s.Linked p) : p ∉ t.inorder := by
  rwa [linked_eq h.represents] at hp

theorem Init.queue (h : s.Init) : s.sched.Queue nil :=
  ⟨⟨h.root, trivial, List.nodup_nil⟩, h.leftmost⟩

/-- **`Dequeue` of a task that is not linked**, where it does no harm, returns and leaves the
run queue as it is. -/
theorem dequeue_harmless (h : s.sched.Queue t) (hp : p ∉ t.inorder) (hs : s.Harmless p) :
    (∃ fuel c, s.sched.dequeue fuel (s.stat p) p = .ok c) ∧
      ∀ fuel c, s.sched.dequeue fuel (s.stat p) p = .ok c →
        c.Queue t ∧ Unchanged s.sched c := by
  obtain ⟨huncounted, htree⟩ := hs
  rw [linked_eq h.represents] at htree
  obtain ⟨n, rq, herase, hkept, hleft⟩ := Cfs.Rq.rbErase_harmless h.represents hp htree
  refine ⟨⟨n, ?_⟩, fun fuel c hc => ?_⟩
  · rw [Cfs.Sched.dequeue, herase]
    exact ⟨_, rfl⟩
  · have hd := Cfs.Sched.dequeue_dequeued hc
    obtain ⟨hnr, htw⟩ := hd.uncounted huncounted
    have hrq : rq = c.rq := (Cfs.Rq.rbErase_steady s.sched.rq p).unique herase hd.erased
    rw [hrq] at hkept hleft
    refine ⟨⟨hkept.represents, hleft⟩, fun u hu => ?_, hleft.trans h.leftmost.symm, hnr, htw⟩
    rw [hu.unique h.represents]
    exact hkept

/-- A task that is counted is counted once more. -/
theorem dequeue_counted (hs : s.Counted p) {c : Cfs.Sched}
    (hc : s.sched.dequeue fuel (s.stat p) p = .ok c) : ¬ Unchanged s.sched c := by
  intro hsame
  have hnr := ((Cfs.Sched.dequeue_dequeued hc).counted hs).1
  rw [hsame.nrRunning, sub32, u32, u32] at hnr
  omega

/-- The entity of a task that is not linked is not part of the queue. -/
theorem setUp_queue {c : Call} (h : s.sched.Queue t) (hp : p ∉ t.inorder)
    (hc : c = .clear p ∨ ∃ parent, c = .copy p parent) (hr : s.call fuel c = .ok s') :
    s'.sched.Queue t ∧ s'.stat = s.stat := by
  rcases hc with rfl | ⟨parent, rfl⟩
  · injection hr with hr
    rw [← hr]
    refine ⟨h.congr rfl rfl fun x hx => ?_, rfl⟩
    have hxp : x ≠ p := fun hxp => hp (hxp ▸ hx)
    exact ⟨fun d => Function.update_of_ne hxp _ _, Function.update_of_ne hxp _ _⟩
  · injection hr with hr
    rw [← hr]
    refine ⟨h.congr rfl rfl fun x hx => ?_, rfl⟩
    have hxp : x ≠ p := fun hxp => hp (hxp ▸ hx)
    exact ⟨fun d => Function.update_of_ne hxp _ _, Function.update_of_ne hxp _ _⟩

theorem enqueue_queue {stat : State} {c : Cfs.Sched} (h : s.sched.Queue t)
    (hp : p ∉ t.inorder) (hr : s.sched.enqueue fuel stat p = .ok c) : ∃ t', c.Queue t' := by
  by_cases hlive : stat = .running ∨ stat = .ready
  · have hready : s.sched.enqueue fuel .ready p = .ok c := by
      rw [Cfs.Sched.enqueue, if_pos hlive] at hr
      rw [Cfs.Sched.enqueue, if_pos (.inr rfl)]
      exact hr
    obtain ⟨_, t', hins⟩ := Cfs.Sched.enqueue_inserted h hp hready
    exact ⟨t', hins.queue⟩
  · rw [Cfs.Sched.enqueue, if_neg hlive] at hr
    injection hr with hr
    exact ⟨t, hr ▸ h⟩

/-- `PickNextTask` leaves a tree, whether it finds a task or not. -/
theorem pickNextTask_queue {stat : PcbId → State} {c : Cfs.Sched} {n : Option PcbId}
    (h : s.sched.Queue t) (hr : s.sched.pickNextTask fuel stat = .ok (c, n)) :
    ∃ t', c.Queue t' := by
  rw [Cfs.Sched.pickNextTask] at hr
  split at hr
  · rw [bind_eq_ok_iff] at hr
    obtain ⟨⟨c₁, n₁⟩, hloop, hr⟩ := hr
    injection hr with hr
    let I : Cfs.Sched × Option PcbId → Prop := fun st => ∃ t', st.1.Queue t' ∧
      st.2 = t'.inorder.head?
    let Q : Cfs.Sched × Option PcbId → Prop := fun st => ∃ t', st.1.Queue t'
    have hpost : Q (c₁, n₁) := by
      refine loop_post (I := I) (Q := Q) (fun st u hI hu => ?_) ⟨t, h, h.leftmost⟩ hloop
      obtain ⟨t', hq, hn⟩ := hI
      obtain ⟨c₂, n₂⟩ := st
      cases n₂ with
      | none => exact .leave hu ⟨t', hq⟩
      | some x =>
          have hx : x ∈ t'.inorder := List.mem_of_mem_head? hn.symm
          rw [Cfs.Sched.pickTurn] at hu
          split at hu
          · rw [bind_eq_ok_iff] at hu
            obtain ⟨c₃, hdeq, hu⟩ := hu
            obtain ⟨t₃, hq₃, -⟩ := Cfs.Sched.dequeue_queue hq hx hdeq
            split at hu
            · exact .again hu ⟨t₃, hq₃.decNrRunning, hq₃.leftmost⟩
            · exact .leave hu ⟨t₃, hq₃.decNrRunning⟩
          · exact .leave hu ⟨t', hq⟩
    obtain ⟨t', hq⟩ := hpost
    obtain ⟨rfl, -⟩ := Prod.mk.inj hr
    exact ⟨t', hq.represents, hq.leftmost⟩
  · injection hr with hr
    obtain ⟨rfl, -⟩ := Prod.mk.inj hr
    exact ⟨t, h.represents, h.leftmost⟩

/-- **A sound call** leaves a tree behind. -/
theorem step_queue {c : Call} (h : s.sched.Queue t) (hc : s.Sound c) (hs : step s c s') :
    ∃ t', s'.sched.Queue t' := by
  obtain ⟨hallowed, fuel, hr⟩ := hs
  cases c with
  | clear p => exact ⟨t, (setUp_queue h (not_mem h hallowed) (.inl rfl) hr).1⟩
  | copy child parent =>
      exact ⟨t, (setUp_queue h (not_mem h hallowed) (.inr ⟨parent, rfl⟩) hr).1⟩
  | init p nice =>
      injection hr with hr
      rw [← hr]
      exact ⟨t, h.represents, h.leftmost⟩
  | setStat p st =>
      injection hr with hr
      rw [← hr]
      exact ⟨t, h⟩
  | enqueue p =>
      rw [call, bind_eq_ok_iff] at hr
      obtain ⟨c, henq, hr⟩ := hr
      injection hr with hr
      rw [← hr]
      exact enqueue_queue h (not_mem h hallowed) henq
  | dequeue p =>
      rw [call, bind_eq_ok_iff] at hr
      obtain ⟨c, hdeq, hr⟩ := hr
      injection hr with hr
      rw [← hr]
      by_cases hp : p ∈ t.inorder
      · obtain ⟨t', hq, -⟩ := Cfs.Sched.dequeue_queue h hp hdeq
        exact ⟨t', hq⟩
      · rcases hc with hlinked | hharmless
        · rw [linked_eq h.represents] at hlinked
          exact absurd hlinked hp
        · exact ⟨t, ((dequeue_harmless h hp hharmless).2 fuel c hdeq).1⟩
  | pick =>
      rw [call, bind_eq_ok_iff] at hr
      obtain ⟨⟨c, n⟩, hpick, hr⟩ := hr
      injection hr with hr
      rw [← hr]
      exact pickNextTask_queue h hpick
  | clock delta =>
      rw [call, bind_eq_ok_iff] at hr
      obtain ⟨c, hclock, hr⟩ := hr
      injection hr with hr
      rw [← hr]
      exact ⟨t, (Cfs.Sched.updateClock_queue h hclock).1⟩

theorem run_queue {s₀ : Scheduler} {cs : List Call} (h₀ : s₀.Init)
    (h : Run (Guarded Sound step) s₀ cs s) : ∃ t, s.sched.Queue t :=
  h.invariant (I := fun s => ∃ t, s.sched.Queue t) ⟨nil, h₀.queue⟩
    fun _ _ _ ⟨_, ht⟩ hs => step_queue ht hs.1 hs.2

/-- Where there is nothing to repair, only a `Dequeue` that does no harm leaves the queue as it
is. -/
theorem harmless_of_unchanged (h : s.sched.Queue t) (hp : p ∉ t.inorder) (hplain : s.Plain p)
    {c : Cfs.Sched} (hc : s.sched.dequeue fuel (s.stat p) p = .ok c)
    (hsame : Unchanged s.sched c) : s.Harmless p := by
  obtain ⟨d, hd, hrepair⟩ := hplain
  have hkept := (hsame.tree t h.represents).represents
  rw [Cfs.Rq.rbErase_plain hd hrepair (Cfs.Sched.dequeue_dequeued hc).erased] at hkept
  refine ⟨fun hcounted => dequeue_counted hcounted hc hsame, ?_⟩
  rw [linked_eq h.represents]
  refine .oneChild d hd (Cfs.Rq.fits_of_represents h.represents hp hkept) fun hblack v hv => ?_
  rcases hrepair with hred | hnone
  · rw [hred] at hblack
    cases hblack
  · rw [hnone] at hv
    cases hv

/-! ### The kernel's calls

Each call of the kernel is a run of the class. -/

/-- The scheduler class in a state of the kernel. -/
def ofKernel (k : Kernel) : Scheduler := ⟨k.sched, k.pcbs.stat⟩

theorem enqueue_step {c e : Cfs.Sched} {stat : PcbId → State} {st : State} (hstat : stat p = st)
    (hout : ¬ Linked ⟨c, stat⟩ p) (hr : c.enqueue fuel st p = .ok e) :
    Guarded Sound step ⟨c, stat⟩ (.enqueue p) ⟨e, stat⟩ := by
  refine ⟨trivial, hout, fuel, ?_⟩
  rw [call]
  simp only [hstat, hr]
  rfl

theorem dequeue_step {c e : Cfs.Sched} {stat : PcbId → State} {st : State} (hstat : stat p = st)
    (hin : Linked ⟨c, stat⟩ p) (hr : c.dequeue fuel st p = .ok e) :
    Guarded Sound step ⟨c, stat⟩ (.dequeue p) ⟨e, stat⟩ := by
  refine ⟨.inl hin, trivial, fuel, ?_⟩
  rw [call]
  simp only [hstat, hr]
  rfl

theorem setStat_step (c : Cfs.Sched) (stat : PcbId → State) (p : PcbId) (st : State) :
    Guarded Sound step ⟨c, stat⟩ (.setStat p st) ⟨c, Function.update stat p st⟩ :=
  ⟨trivial, trivial, 0, rfl⟩

/-- A new task is set up and put into the run queue. -/
theorem run_newTask {c : Call} {e : Cfs.Sched} {nice : Int} (h : s.sched.Queue t)
    (hp : p ∉ t.inorder) (hc : c = .clear p ∨ ∃ parent, c = .copy p parent)
    (hfirst : s.call 0 c = .ok s')
    (henq : (s'.sched.initEntity p nice).enqueue fuel .ready p = .ok e) :
    Run (Guarded Sound step) s [c, .init p nice, .setStat p .ready, .enqueue p]
      ⟨e, Function.update s.stat p .ready⟩ := by
  obtain ⟨hq, hstat⟩ := setUp_queue h hp hc hfirst
  have hout : ∀ s₁ : Scheduler, s₁.sched.Queue t → ¬ s₁.Linked p := by
    intro s₁ hq₁
    rw [linked_eq hq₁.represents]
    exact hp
  have hq₁ : (s'.sched.initEntity p nice).Queue t := ⟨hq.represents, hq.leftmost⟩
  have hallowed : s.Allowed c ∧ s.Sound c := by
    rcases hc with rfl | ⟨parent, rfl⟩
    · exact ⟨hout s h, trivial⟩
    · exact ⟨hout s h, trivial⟩
  refine Run.cons ⟨hallowed.2, hallowed.1, 0, hfirst⟩ ?_
  refine Run.cons ⟨trivial, hout s' hq, 0, rfl⟩ ?_
  refine Run.cons ⟨trivial, trivial, 0, rfl⟩ ?_
  rw [← hstat]
  exact Run.cons (enqueue_step (Function.update_self ..) (hout _ hq₁) henq) .nil

/-- `Schedule` takes the current task out, puts it back if it goes on, and picks the next
one. -/
theorem run_schedule {k k' : Kernel} {prev : PcbId} (h : k.sched.Queue t)
    (hprev : k.currentProc = some prev) (hin : prev ∈ t.inorder)
    (hr : k.schedule fuel = .ok k') :
    ∃ cs, Run (Guarded Sound step) (ofKernel k) cs (ofKernel k') := by
  rw [Kernel.schedule.eq_def, hprev] at hr
  simp only at hr
  rw [bind_eq_ok_iff] at hr
  obtain ⟨k₁, hreq, hr⟩ := hr
  rw [bind_eq_ok_iff] at hr
  obtain ⟨⟨c, n⟩, hpick, hr⟩ := hr
  have hlinked : ∀ st, Linked ⟨k.sched, st⟩ prev := fun _ => ⟨t, h.represents, hin⟩
  have hrequeue : ∃ cs, Run (Guarded Sound step) (ofKernel k) cs (ofKernel k₁) := by
    rw [Kernel.requeue] at hreq
    split at hreq
    · rw [bind_eq_ok_iff] at hreq
      obtain ⟨c₁, hdeq, hreq⟩ := hreq
      injection hreq with hreq
      rw [← hreq]
      exact ⟨_, Run.cons (dequeue_step rfl (hlinked _) hdeq) .nil⟩
    · rw [bind_eq_ok_iff] at hreq
      obtain ⟨c₀, hdeq, hreq⟩ := hreq
      rw [bind_eq_ok_iff] at hreq
      obtain ⟨c₁, henq, hreq⟩ := hreq
      injection hreq with hreq
      obtain ⟨t₀, hq₀, hin₀, -⟩ := Cfs.Sched.dequeue_queue h hin hdeq
      have hready : Function.update k.pcbs.stat prev State.ready prev = .ready :=
        Function.update_self ..
      have hout : ¬ Linked ⟨c₀, Function.update k.pcbs.stat prev .ready⟩ prev := by
        rw [linked_eq hq₀.represents, hin₀]
        exact h.represents.nodup.not_mem_erase
      rw [← hreq]
      refine ⟨[.setStat prev .ready, .dequeue prev, .enqueue prev], ?_⟩
      refine Run.cons (setStat_step k.sched k.pcbs.stat prev .ready) ?_
      refine Run.cons (dequeue_step hready (hlinked _) hdeq) ?_
      exact Run.cons (enqueue_step hready hout henq) .nil
  have hend : Guarded Sound step (ofKernel k₁) .pick (ofKernel k') := by
    refine ⟨trivial, trivial, fuel, ?_⟩
    rw [call, ofKernel]
    simp only [hpick]
    cases n with
    | none => cases hr
    | some next =>
        injection hr with hr
        rw [← hr, ofKernel, Kernel.switchTo_sched, Kernel.switchTo_pcbs]
        rfl
  obtain ⟨cs, hrun⟩ := hrequeue
  exact ⟨_, Run.snoc hrun hend⟩

/-- **Every call of the kernel** is a run of the class, one in which every `Dequeue` is of a
linked task. -/
theorem run_kernel {k k' : Kernel} {op : Kernel.Op} (h : k.Queued t) (hs : Kernel.step k op k') :
    ∃ cs, Run (Guarded Sound step) (ofKernel k) cs (ofKernel k') := by
  obtain ⟨hop, fuel, hr⟩ := hs
  cases op with
  | initIdle idle =>
      rw [Kernel.call, Kernel.initIdle, bind_eq_ok_iff] at hr
      obtain ⟨c, henq, hr⟩ := hr
      injection hr with hr
      have hp : idle ∉ t.inorder := fun hmem => hop.2 (h.tasks idle hmem)
      have hrun := run_newTask (s := ofKernel k) h.queue hp (.inl rfl) rfl henq
      have hstat : ((k.pcbs.clear idle).init idle k.pidCounter threadKernel k.kernelPml4).stat =
          Function.update k.pcbs.stat idle .ready := Function.update_idem ..
      have hk : ofKernel k' = ⟨c, Function.update k.pcbs.stat idle .ready⟩ := by
        rw [← hr, ofKernel, hstat]
      rw [hk]
      exact ⟨_, hrun⟩
  | fork child flags nice =>
      obtain ⟨cur, hcur⟩ := Option.ne_none_iff_exists'.mp hop.1
      rw [Kernel.call, Kernel.fork, bind_eq_ok_iff] at hr
      obtain ⟨c, henq, hr⟩ := hr
      injection hr with hr
      have hp : child ∉ t.inorder := fun hmem => hop.2 (h.tasks child hmem)
      have hcopy : k.copyCurrent child = { k with
          pcbs := k.pcbs.copy child cur, sched := k.sched.copyEntity child cur } := by
        rw [Kernel.copyCurrent, hcur]
      rw [hcopy] at henq hr
      have hrun := run_newTask (s := ofKernel k) h.queue hp (.inr ⟨cur, rfl⟩) rfl henq
      have hstat : ((k.pcbs.copy child cur).init child k.pidCounter flags k.kernelPml4).stat =
          Function.update k.pcbs.stat child .ready := Function.update_idem ..
      have hk : ofKernel k' = ⟨c, Function.update k.pcbs.stat child .ready⟩ := by
        rw [← hr, ofKernel, hstat]
      rw [hk]
      exact ⟨_, hrun⟩
  | wake p =>
      rw [Kernel.call, Kernel.wake, bind_eq_ok_iff] at hr
      obtain ⟨c, henq, hr⟩ := hr
      injection hr with hr
      have hout : ¬ Linked ⟨k.sched, Function.update k.pcbs.stat p .ready⟩ p := hop.2.2
      rw [← hr]
      refine ⟨[.setStat p .ready, .enqueue p], ?_⟩
      refine Run.cons (setStat_step k.sched k.pcbs.stat p .ready) ?_
      exact Run.cons (enqueue_step (Function.update_self ..) hout henq) .nil
  | tick delta =>
      rw [Kernel.call, Kernel.tick, bind_eq_ok_iff] at hr
      obtain ⟨c, hclock, hr⟩ := hr
      injection hr with hr
      have hclocked : Guarded Sound step (ofKernel k) (.clock delta) (ofKernel k') := by
        refine ⟨trivial, trivial, fuel, ?_⟩
        rw [call, ofKernel, ← hr]
        simp only [hclock]
        rfl
      exact ⟨_, Run.cons hclocked .nil⟩
  | schedule =>
      obtain ⟨prev, hprev⟩ := Option.ne_none_iff_exists'.mp hop
      exact run_schedule h.queue hprev (h.mem prev hprev) hr
  | block =>
      obtain ⟨prev, hprev, -⟩ := hop
      simp only [Kernel.call, hprev] at hr
      have hq : (k.setBlocked prev).sched.Queue t := h.queue
      obtain ⟨cs, hrun⟩ := run_schedule hq hprev (h.mem prev hprev) hr
      exact ⟨_, Run.cons (setStat_step k.sched k.pcbs.stat prev .blocked) hrun⟩
  | kill p =>
      injection hr with hr
      rw [← hr]
      exact ⟨_, Run.cons (setStat_step k.sched k.pcbs.stat p .dead) .nil⟩
  | execve pml4 =>
      obtain ⟨cur, hcur⟩ := Option.ne_none_iff_exists'.mp hop.1
      simp only [Kernel.call, hcur] at hr
      injection hr with hr
      rw [← hr]
      exact ⟨[], .nil⟩

/-- **Every run of the kernel** is one of the class. -/
theorem run_of_kernel {k₀ k : Kernel} {ops : List Kernel.Op} (h₀ : k₀.Init)
    (h : Run Kernel.step k₀ ops k) :
    ∃ cs, Run (Guarded Sound step) (ofKernel k₀) cs (ofKernel k) := by
  have hboth : (∃ t, k.Queued t) ∧
      ∃ cs, Run (Guarded Sound step) (ofKernel k₀) cs (ofKernel k) := by
    induction h with
    | nil => exact ⟨⟨nil, h₀.queued⟩, [], .nil⟩
    | snoc _ hlast ih =>
        obtain ⟨⟨t, ht⟩, cs, hrun⟩ := ih
        obtain ⟨t', -, ht'⟩ := ht.step hlast
        obtain ⟨cs', hrun'⟩ := run_kernel ht hlast
        exact ⟨⟨t', ht'⟩, _, hrun.append hrun'⟩
  exact hboth.2

/-! ### Computed runs -/

/-- The tree of the run queue, read off its links to the depth `depth`. -/
def linkedTree (s : Scheduler) (depth : Nat) : BinaryTree PcbId :=
  s.sched.rq.links.read depth s.sched.rq.links.root

/-- `Allowed` and `Sound`, computed from the list of the linked tasks, for runs that take out
linked tasks alone. -/
def admits (linked : List PcbId) : Call → Bool
  | .clear p => p ∉ linked
  | .copy child _ => child ∉ linked
  | .init p _ => p ∉ linked
  | .enqueue p => p ∉ linked
  | .dequeue p => p ∈ linked
  | _ => true

/-- A step, computed: `fuel` bounds the loops and the depth of the tree. -/
def tryStep (fuel : Nat) (s : Scheduler) (c : Call) : Option Scheduler :=
  if s.sched.rq.links.Represents (s.linkedTree fuel) ∧
      admits (s.linkedTree fuel).inorder c then (s.call fuel c).toOption else none

theorem step_of_tryStep {c : Call} (h : s.tryStep fuel c = some s') :
    Guarded Sound step s c s' := by
  rw [tryStep] at h
  split at h
  · next hc =>
    obtain ⟨ht, hadmits⟩ := hc
    have hout : ∀ p, p ∉ (s.linkedTree fuel).inorder → ¬ s.Linked p := by
      intro p hp
      rw [linked_eq ht]
      exact hp
    have hcall : s.call fuel c = .ok s' := eq_ok_of_toOption h
    cases c with
    | setStat p st => exact ⟨trivial, trivial, fuel, hcall⟩
    | pick => exact ⟨trivial, trivial, fuel, hcall⟩
    | clock delta => exact ⟨trivial, trivial, fuel, hcall⟩
    | dequeue p =>
        have hin : s.Linked p := ⟨_, ht, of_decide_eq_true hadmits⟩
        exact ⟨.inl hin, trivial, fuel, hcall⟩
    | copy child parent => exact ⟨trivial, hout child (of_decide_eq_true hadmits), fuel, hcall⟩
    | clear p => exact ⟨trivial, hout p (of_decide_eq_true hadmits), fuel, hcall⟩
    | init p nice => exact ⟨trivial, hout p (of_decide_eq_true hadmits), fuel, hcall⟩
    | enqueue p => exact ⟨trivial, hout p (of_decide_eq_true hadmits), fuel, hcall⟩
  · cases h

theorem run_of_exec_tryStep {cs : List Call}
    (h : exec (fun _ _ => true) (tryStep fuel) s cs = some s') :
    Run (Guarded Sound step) s cs s' :=
  (run_of_exec h).mono fun _ _ _ hs => step_of_tryStep hs.2

/-- The scheduler of the kernel before `InitIdle`. -/
def boot : Scheduler := ⟨Kernel.boot.sched, Kernel.boot.pcbs.stat⟩

theorem boot_init : boot.Init := ⟨rfl, rfl⟩

/-! ### `Dequeue` of a task that is not linked -/

/-- **`Dequeue` of a task that is not linked**, wherever a run has come whose every such call
did no harm.  Where it does no harm it returns and leaves the tree, `leftmost` and the counters
as they are.  If the task is running, ready or blocked, as one that has blocked itself and is
taken out again by `Schedule`, it never does, and where there is nothing to repair it does so
only if it does no harm. -/
theorem dequeue_unlinked {s₀ : Scheduler} {cs : List Call} (h₀ : s₀.Init)
    (h : Run (Guarded Sound step) s₀ cs s) (hp : ¬ s.Linked p) :
    (s.Harmless p → ∃ fuel c, s.sched.dequeue fuel (s.stat p) p = .ok c) ∧
    ∀ fuel c, s.sched.dequeue fuel (s.stat p) p = .ok c →
      (s.Harmless p → Unchanged s.sched c) ∧ (s.Counted p → ¬ Unchanged s.sched c) ∧
      (s.Plain p → Unchanged s.sched c → s.Harmless p) := by
  obtain ⟨t, ht⟩ := run_queue h₀ h
  have hpt := not_mem ht hp
  refine ⟨fun hs => (dequeue_harmless ht hpt hs).1, fun fuel c hc => ⟨fun hs => ?_, ?_, ?_⟩⟩
  · exact ((dequeue_harmless ht hpt hs).2 fuel c hc).2
  · exact fun hs => dequeue_counted hs hc
  · exact fun hplain => harmless_of_unchanged ht hpt hplain hc

end Runs

/-- Two new tasks are queued, and `p` blocks itself: `Sem::wait` up to its `Dequeue`. -/
def waiting (p : PcbId) : List Call :=
  [.clear 1, .init 1 19, .setStat 1 .ready, .enqueue 1, .copy 2 1, .init 2 0, .setStat 2 .ready,
    .enqueue 2, .pick, .setStat p .blocked, .dequeue p]

/-- A task that has blocked itself and is dead by the time it is taken out again. -/
theorem dequeue_unlinked_dead : ∃ s fuel c,
    Run (Guarded Sound step) boot (waiting 2 ++ [.setStat 2 .dead]) s ∧ ¬ s.Linked 2 ∧
      s.sched.dequeue fuel (s.stat 2) 2 = .ok c ∧ Unchanged s.sched c := by
  have hexec : ((exec (fun _ _ => true) (tryStep 9) boot
      (waiting 2 ++ [.setStat 2 .dead])).any fun s =>
        s.sched.rq.links.Represents (s.linkedTree 9) ∧ 2 ∉ (s.linkedTree 9).inorder ∧
        1 ∈ (s.linkedTree 9).inorder ∧ s.stat 2 = .dead ∧
        s.sched.rq.links.child .left 2 = none ∧ s.sched.rq.links.child .right 2 = none ∧
        s.sched.rq.links.parent 2 = some 1 ∧ s.sched.rq.links.child .right 1 = none) = true := by
    decide
  rw [Option.any_eq_true] at hexec
  obtain ⟨s, hs, hfacts⟩ := hexec
  obtain ⟨ht, hout, hin, hdead, hleft, hright, hparent, hold⟩ := of_decide_eq_true hfacts
  have hrun := run_of_exec_tryStep hs
  have hp : ¬ s.Linked 2 := by rw [linked_eq ht]; exact hout
  have hharmless : s.Harmless 2 := by
    refine ⟨by rw [Counted, hdead]; simp, .oneChild .left hleft ⟨?_, ?_, ?_⟩ ?_⟩
    · intro hnone
      rw [hparent] at hnone
      cases hnone
    · intro w hw _
      rw [hparent, Option.some.injEq] at hw
      rw [← hw, hold, Side.opp_left, hright]
    · intro w v _ _ hv
      rw [Side.opp_left, hright] at hv
      cases hv
    · intro _ v hv
      rw [Side.opp_left, hright] at hv
      cases hv
  obtain ⟨hreturns, hkeeps⟩ := dequeue_unlinked boot_init hrun hp
  obtain ⟨fuel, c, hc⟩ := hreturns hharmless
  exact ⟨s, fuel, c, hrun, hp, hc, (hkeeps fuel c hc).1 hharmless⟩

/-- **`Sem::wait` counts its task out twice**: the `Dequeue` in `Schedule`, of a task that is
not linked any more, lowers `nr_running` once more. -/
theorem not_unchanged_waiting : ¬ ∀ cs s p, Run step boot cs s → ¬ s.Linked p →
    ∀ fuel c, s.sched.dequeue fuel (s.stat p) p = .ok c → Unchanged s.sched c := by
  intro hall
  have hexec : ((exec (fun _ _ => true) (tryStep 9) boot (waiting 1)).any fun s =>
      s.sched.rq.links.Represents (s.linkedTree 9) ∧ 1 ∉ (s.linkedTree 9).inorder ∧
        s.sched.nrRunning = 1 ∧
        ((s.sched.dequeue 9 (s.stat 1) 1).toOption.map fun c => c.nrRunning) = some 0) = true := by
    decide
  rw [Option.any_eq_true] at hexec
  obtain ⟨s, hs, hfacts⟩ := hexec
  obtain ⟨ht, hout, hone, hzero⟩ := of_decide_eq_true hfacts
  have hrun : Run step boot (waiting 1) s := (run_of_exec_tryStep hs).mono fun _ _ _ h => h.2
  rw [Option.map_eq_some_iff] at hzero
  obtain ⟨c, hc, hzero⟩ := hzero
  have hp : ¬ s.Linked 1 := by rw [linked_eq ht]; exact hout
  have hsame := hall (waiting 1) s 1 hrun hp 9 c (eq_ok_of_toOption hc)
  rw [hsame.nrRunning, hone] at hzero
  cases hzero

end Scheduler

end InfoKernel.Task
