import InfoKernel.Task.RbTreeColor

/-!
# The operations on a sorted tree

`RbInsert` and `RbErase` of a red-black tree whose in-order list is sorted by vruntime,
with the parent links of the child links, and with enough fuel, so that what is said about
the result is said about a call that returns.

`RbInsert` puts the task behind all those whose vruntime is not larger: where two vruntimes
are equal, the task inserted first stays in front.  `RbErase` takes the task out and leaves
the order of the others alone.  Both leave `leftmost` at the first task of the list and
`min_vruntime` at its vruntime.
-/

namespace InfoKernel.Task.Cfs.Rq

open InfoKernel.Lib
open BinaryTree hiding node

variable {rq : Rq}

/-- The tasks `xs` are in the order of their vruntimes. -/
def Sorted (v : PcbId → Nat) (xs : List PcbId) : Prop := xs.Pairwise fun x y => v x ≤ v y

/-- `leftmost` is the first task of the list, or null, and `min_vruntime` its vruntime, or
zero. -/
structure FirstKnown (rq : Rq) (xs : List PcbId) : Prop where
  leftmost : rq.leftmost = xs.head?
  minVruntime : rq.minVruntime = (xs.head?.map rq.vruntime).getD 0

/-- **The search in a sorted tree** ends behind the tasks whose vruntime is not larger. -/
theorem bounds_of_sorted {v : PcbId → Nat} {n : Nat} {c : Ctx PcbId} (hs : SearchCtx v n c)
    (hsorted : Sorted v (before c ++ after c)) :
    (∀ x ∈ before c, v x ≤ n) ∧ ∀ y ∈ after c, n < v y := by
  induction c with
  | nil => exact ⟨fun x hx => (by cases hx), fun y hy => by cases hy⟩
  | cons f c ih =>
      obtain ⟨d, x, a⟩ := f
      have hx := hs _ List.mem_cons_self
      have ih' := ih fun g hg => hs g (List.mem_cons_of_mem _ hg)
      cases d with
      | left =>
          have hlt : n < v x := hx.mp rfl
          obtain ⟨hb, hxa, hba⟩ := List.pairwise_append.mp hsorted
          obtain ⟨hxa', hac, -⟩ := List.pairwise_append.mp hxa
          obtain ⟨hbefore, hafter⟩ := ih' (List.pairwise_append.mpr ⟨hb, hac, fun y hy z hz =>
            hba y hy z (List.mem_append_right _ hz)⟩)
          refine ⟨hbefore, fun y hy => ?_⟩
          rcases List.mem_append.mp hy with hy | hy
          · rcases List.mem_cons.mp hy with rfl | hy
            · exact hlt
            · exact Nat.lt_of_lt_of_le hlt ((List.pairwise_cons.mp hxa').1 y hy)
          · exact hafter y hy
      | right =>
          have hle : v x ≤ n := Nat.le_of_not_lt fun hlt => by cases hx.mpr hlt
          obtain ⟨hbax, hac, hbac⟩ := List.pairwise_append.mp hsorted
          obtain ⟨hb, hax, -⟩ := List.pairwise_append.mp hbax
          obtain ⟨-, -, hax'⟩ := List.pairwise_append.mp hax
          obtain ⟨hbefore, hafter⟩ := ih' (List.pairwise_append.mpr ⟨hb, hac, fun y hy z hz =>
            hbac y (List.mem_append_left _ hy) z hz⟩)
          refine ⟨fun y hy => ?_, hafter⟩
          rcases List.mem_append.mp hy with hy | hy
          · exact hbefore y hy
          · rcases List.mem_append.mp hy with hy | hy
            · exact Nat.le_trans (hax' y hy x List.mem_cons_self) hle
            · rw [List.mem_singleton.mp hy]
              exact hle

/-- A task put between those of no larger and those of larger vruntimes. -/
theorem Sorted.insert {v : PcbId → Nat} {node : PcbId} {ys zs : List PcbId}
    (h : Sorted v (ys ++ zs)) (hys : ∀ y ∈ ys, v y ≤ v node) (hzs : ∀ z ∈ zs, v node < v z) :
    Sorted v (ys ++ node :: zs) := by
  obtain ⟨hy, hz, hyz⟩ := List.pairwise_append.mp h
  refine List.pairwise_append.mpr ⟨hy, List.pairwise_cons.mpr ⟨fun z hz => ?_, hz⟩, ?_⟩
  · exact Nat.le_of_lt (hzs z hz)
  · intro y hy z hz
    rcases List.mem_cons.mp hz with rfl | hz
    · exact hys y hy
    · exact hyz y hy z hz

/-- **`RbInsert` into a sorted red-black tree** returns one, with the task behind all those
whose vruntime is not larger. -/
theorem rbInsert_sorted {t : BinaryTree PcbId} {node : PcbId} (h : rq.links.Represents t)
    (hrb : RedBlack rq.isRed t) (hsorted : Sorted rq.vruntime t.inorder)
    (hnode : node ∉ t.inorder) :
    ∃ n, ∀ fuel, n ≤ fuel → ∃ rq' t' ys zs, rq.rbInsert fuel node = .ok rq' ∧
      rq'.links.Represents t' ∧ RedBlack rq'.isRed t' ∧ rq'.vruntime = rq.vruntime ∧
      t.inorder = ys ++ zs ∧ t'.inorder = ys ++ node :: zs ∧
      (∀ y ∈ ys, rq.vruntime y ≤ rq.vruntime node) ∧
      (∀ z ∈ zs, rq.vruntime node < rq.vruntime z) ∧
      Sorted rq'.vruntime t'.inorder ∧ FirstKnown rq' t'.inorder := by
  refine ⟨t.numNodes + 2, fun fuel hfuel => ?_⟩
  obtain ⟨rq', hins, t', ht', hrb', -, hv⟩ := rbInsert_returns h hrb hnode hfuel
  obtain ⟨c, rfl, hs, ⟨⟨u, hu, hin⟩, -⟩, hleft⟩ := rbInsert_order h hnode hins
  rw [hu.unique ht'] at hin
  have hlist : (plug c nil).inorder = before c ++ after c := by
    rw [inorder_plug, inorder_nil, List.append_nil]
  rw [hlist] at hsorted
  obtain ⟨hbefore, hafter⟩ := bounds_of_sorted hs hsorted
  refine ⟨rq', t', before c, after c, hins, ht', hrb', hv, hlist, hin, hbefore, hafter, ?_, ?_⟩
  · rw [hv, hin]
    exact hsorted.insert hbefore hafter
  · rw [hin]
    refine ⟨hleft.leftmost, ?_⟩
    cases hhead : (before c ++ node :: after c).head? with
    | none => simp at hhead
    | some y => exact hleft.minVruntime y hhead

/-- `RbErase` resets `min_vruntime` when it has emptied the tree. -/
theorem minVruntime_of_root_none {z : PcbId} {fuel : Nat} {rq' : Rq}
    (hr : rq.rbErase fuel z = .ok rq') (hroot : rq'.links.root = none) : rq'.minVruntime = 0 := by
  rw [rbErase, bind_eq_ok_iff] at hr
  obtain ⟨⟨rq₁, u⟩, -, hr⟩ := hr
  simp only at hr
  rw [bind_eq_ok_iff] at hr
  obtain ⟨rq₂, -, hr⟩ := hr
  cases hroot₂ : rq₂.links.root with
  | none =>
      rw [hroot₂] at hr
      injection hr with hr
      rw [← hr]
  | some root =>
      rw [hroot₂] at hr
      simp only at hr
      rw [updateLeftmost, bind_eq_ok_iff] at hr
      obtain ⟨leftmost, -, hr⟩ := hr
      injection hr with hr
      rw [← hr] at hroot
      cases hroot₂.symm.trans hroot

/-- **`RbErase` from a sorted red-black tree** returns a tree of the other tasks, in their
order. -/
theorem rbErase_sorted {t : BinaryTree PcbId} {z : PcbId} (h : rq.links.Represents t)
    (hrb : RedBlack rq.isRed t) (hsorted : Sorted rq.vruntime t.inorder)
    (hz : z ∈ t.inorder) :
    ∃ n, ∀ fuel, n ≤ fuel → ∃ rq' t', rq.rbErase fuel z = .ok rq' ∧
      rq'.links.Represents t' ∧ rq'.vruntime = rq.vruntime ∧
      t'.inorder = t.inorder.erase z ∧ Sorted rq'.vruntime t'.inorder ∧
      FirstKnown rq' t'.inorder := by
  refine ⟨t.numNodes + 1, fun fuel hfuel => ?_⟩
  obtain ⟨rq', her, t', ht', hin, -, hv⟩ := rbErase_returns h hrb hz hfuel
  obtain ⟨-, hleft⟩ := rbErase_order h hz her
  refine ⟨rq', t', her, ht', hv, hin, ?_, ?_⟩
  · rw [hv, hin]
    exact hsorted.sublist List.erase_sublist
  · rw [hin]
    refine ⟨hleft.leftmost, ?_⟩
    cases hhead : (t.inorder.erase z).head? with
    | none =>
        rw [List.head?_eq_none_iff, ← hin] at hhead
        refine minVruntime_of_root_none her (ht'.root.trans ?_)
        cases t' with
        | nil => rfl
        | node x l r => simp at hhead
    | some y => exact hleft.minVruntime y hhead

/-- Three tasks with the vruntimes 10, 20 and 20, task 2 on top. -/
def threeTasks : Rq where
  links :=
    { child := fun d x =>
        match d, x with
        | .left, 2 => some 1
        | .right, 2 => some 3
        | _, _ => none
      parent := fun x => if x = 1 ∨ x = 3 then some 2 else none
      root := some 2 }
  isRed x := x = 1 ∨ x = 3
  vruntime x := if x = 1 then 10 else 20
  leftmost := some 1
  minVruntime := 10

/-- The tree of `threeTasks`. -/
def threeTree : BinaryTree PcbId := .node 2 (.node 1 nil nil) (.node 3 nil nil)

theorem threeTree_redBlack : RedBlack threeTasks.isRed threeTree where
  top := rfl
  noRedRed := by
    refine ⟨fun h => ?_, ⟨fun _ => ⟨rfl, rfl⟩, trivial, trivial⟩, fun _ =>
      ⟨rfl, rfl⟩, trivial, trivial⟩
    cases h
  height := ⟨1, by
    unfold BlackHeight
    decide⟩

theorem threeTree_sorted : Sorted threeTasks.vruntime threeTree.inorder := by
  unfold Sorted
  decide

/-- A fourth task of vruntime 20 comes behind the other two. -/
theorem rbInsert_sorted_threeTasks : ∃ n, ∀ fuel, n ≤ fuel → ∃ rq' t' ys zs,
    threeTasks.rbInsert fuel 4 = .ok rq' ∧ rq'.links.Represents t' ∧
    RedBlack rq'.isRed t' ∧ rq'.vruntime = threeTasks.vruntime ∧ threeTree.inorder = ys ++ zs ∧
    t'.inorder = ys ++ 4 :: zs ∧ (∀ y ∈ ys, threeTasks.vruntime y ≤ threeTasks.vruntime 4) ∧
    (∀ z ∈ zs, threeTasks.vruntime 4 < threeTasks.vruntime z) ∧
    Sorted rq'.vruntime t'.inorder ∧ FirstKnown rq' t'.inorder :=
  rbInsert_sorted (by decide) threeTree_redBlack threeTree_sorted (by decide)

/-- Task 2, which has two children, is taken out. -/
theorem rbErase_sorted_threeTasks : ∃ n, ∀ fuel, n ≤ fuel → ∃ rq' t',
    threeTasks.rbErase fuel 2 = .ok rq' ∧ rq'.links.Represents t' ∧
    rq'.vruntime = threeTasks.vruntime ∧ t'.inorder = threeTree.inorder.erase 2 ∧
    Sorted rq'.vruntime t'.inorder ∧ FirstKnown rq' t'.inorder :=
  rbErase_sorted (by decide) threeTree_redBlack threeTree_sorted (by decide)

end InfoKernel.Task.Cfs.Rq
