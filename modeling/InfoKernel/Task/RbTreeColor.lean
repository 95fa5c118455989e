import InfoKernel.Lib.RedBlack
import InfoKernel.Lib.Run
import InfoKernel.Task.RbTreeShape

/-!
# The colours of the run queue's tree

`RbInsert` keeps the red-black tree: the loop of `RbInsertColorFixup` is the library's
repair of a red edge, carried out on the links.  `RbErase` runs its repair only when a
child `x` has taken the place of the node that was taken out.  In a red-black tree that
child is a red leaf, which the repair blackens at once, so the loop of
`RbEraseColorFixup` never turns; and where the node taken out was a black leaf below
the root there is no `x`, nothing is repaired, and the tree is out of balance.

The system at the end takes `RbInsert`, `RbErase` and changes of the vruntime of
unlinked tasks in any order, and its runs keep the red-black tree exactly as long as no
black leaf below the root is taken out.
-/

namespace InfoKernel.Task.Cfs

open InfoKernel.Lib
open InfoKernel.Lib.Links
open BinaryTree hiding node

namespace Rq

variable {rq : Rq}

/-! ## Repairing after an insertion -/

/-- The state of the loop of `RbInsertColorFixup` at `node`, for a tree with the in-order
list `xs`: a red-black tree but for the edge into `node`. -/
structure InsertFixup (xs : List PcbId) (v : PcbId → Nat) (rq : Rq) (node : PcbId)
    (c : Ctx PcbId) (t : BinaryTree PcbId) : Prop where
  tree : rq.links.Represents (plug c t)
  focus : top t = some node
  elems : (plug c t).inorder = xs
  edge : RedEdge rq.isRed c t
  vruntime : rq.vruntime = v

/-- What the loop of `RbInsertColorFixup` leaves: a red-black tree but for the colour of
the root. -/
def InsertFixed (xs : List PcbId) (v : PcbId → Nat) (rq : Rq) : Prop :=
  ∃ t, rq.links.Represents t ∧ t.inorder = xs ∧ NoRedRed rq.isRed t ∧
    (∃ n, BlackHeight rq.isRed t n) ∧ rq.vruntime = v

variable {xs : List PcbId} {v : PcbId → Nat}

theorem InsertFixup.fixed {node : PcbId} {c : Ctx PcbId} {t : BinaryTree PcbId}
    (h : InsertFixup xs v rq node c t) (ha : ∀ x, above c = some x → rq.isRed x = false) :
    InsertFixed xs v rq :=
  ⟨_, h.tree, h.elems, (h.edge.noRedRed_of_above ha).1, (h.edge.noRedRed_of_above ha).2,
    h.vruntime⟩

theorem rbIsRed_top (t : BinaryTree PcbId) : rq.rbIsRed (top t) = topRed rq.isRed t := by
  cases t <;> rfl

/-- **One turn of `RbInsertColorFixup`** below a red parent moves the edge to repair at
least one level up. -/
theorem InsertFixup.side {node p g : PcbId} {d₁ d₂ : Side} {c : Ctx PcbId}
    {t s u : BinaryTree PcbId} (h : InsertFixup xs v rq node (⟨d₁, p, s⟩ :: ⟨d₂, g, u⟩ :: c) t)
    (hp : rq.isRed p = true) :
    ∃ c' t', InsertFixup xs v (rq.insertFixupSide d₂ node p g).1
      (rq.insertFixupSide d₂ node p g).2 c' t' ∧ c'.length < c.length + 2 := by
  obtain ⟨hc, -, hn⟩ := represents_plug_iff.mp h.tree
  obtain ⟨hpt, hps, -, hpp, hgp, hgu, -, -, -⟩ := hc
  obtain ⟨hpg, hnt, -, hnu, -⟩ := ne_of_nodup_plug hn
  have hnode := mem_inorder_of_top h.focus
  simp only at hpt hps hgp hgu
  rw [h.focus] at hpt
  cases hred : topRed rq.isRed u with
  | true =>
      obtain ⟨y, hy⟩ : ∃ y, top u = some y := by
        cases u with
        | nil => cases hred
        | node y a b => exact ⟨y, rfl⟩
      have hyg := (hnu y (mem_inorder_of_top hy)).2.1
      have hyred : rq.isRed y = true := by
        rw [topRed, hy] at hred
        exact hred
      have hside : rq.insertFixupSide d₂ node p g =
          (((rq.rbSetBlack (some p)).rbSetBlack (some y)).rbSetRed (some g), g) := by
        rw [insertFixupSide, hgu, rbIsRed_top, hred, if_pos rfl, hy]
      rw [hside]
      refine ⟨c, branch d₂ (branch d₁ t p s) g u, ⟨?_, ?_, ?_, ?_, ?_⟩, by omega⟩
      · simpa using h.tree
      · rw [top_branch]
      · exact h.elems
      · refine h.edge.recolor hn hp hy hyred ?_ ?_ ?_ fun w hwp hwg hwy => ?_
        all_goals simp [Function.update_apply, hpg, hyg]
        simp [hwp, hwg, hwy]
      · simpa using h.vruntime
  | false =>
      rcases Side.eq_or_eq_opp d₂ d₁ with rfl | rfl
      · have hs : top s ≠ some node := fun hs =>
          (hnt node hnode).2.2.1 (mem_inorder_of_top hs)
        have hside : rq.insertFixupSide d₁ node p g =
            (((rq.rbSetBlack (some p)).rbSetRed (some g)).rotate d₁.opp g, node) := by
          rw [insertFixupSide, hgu, rbIsRed_top, hred, hps]
          simp [hs]
        rw [hside]
        refine ⟨⟨d₁, p, branch d₁.opp u g s⟩ :: c, t, ⟨?_, h.focus, ?_, ?_, ?_⟩, by simp⟩
        · have htree : ((rq.rbSetBlack (some p)).rbSetRed (some g)).links.Represents
              (plug c (branch d₁.opp u g (branch d₁.opp s p t))) := by
            rw [branch_opp, branch_opp]
            simpa using h.tree
          have hrot := represents_rotate htree
          rwa [branch_opp d₁ _ p t] at hrot
        · rw [← h.elems, plug_cons, plug_cons, plug_cons]
          refine inorder_plug_congr ?_
          cases d₁ <;> simp [branch]
        · refine h.edge.rotate_outer hn hp hred ?_ ?_ fun w hwp hwg => ?_
          all_goals simp [Function.update_apply, hpg]
          simp [hwp, hwg]
        · simpa using h.vruntime
      · obtain ⟨a, b, rfl⟩ := exists_branch_of_top d₂ h.focus
        -- the first rotation takes `node` above `p`
        have h₁ : (rq.rotate d₂ p).links.Represents
            (plug (⟨d₂, g, u⟩ :: c) (branch d₂ (branch d₂ s p a) node b)) := by
          refine represents_rotate ?_
          rw [← branch_opp]
          exact h.tree
        have hpar : (rq.rotate d₂ p).links.parent p = some node := by
          obtain ⟨-, -, -, hl, -⟩ := linked_branch.mp (represents_plug_iff.mp h₁).2.1
          exact (linked_branch.mp hl).1
        have hside : rq.insertFixupSide d₂ node p g =
            ((((rq.rotate d₂ p).rbSetBlack (some node)).rbSetRed (some g)).rotate d₂.opp g,
              p) := by
          simp [insertFixupSide, hgu, rbIsRed_top, hred, hpt, hpar]
        rw [hside]
        refine ⟨⟨d₂, node, branch d₂.opp u g b⟩ :: c, branch d₂ s p a,
          ⟨?_, top_branch .., ?_, ?_, ?_⟩, by simp⟩
        · have htree : (((rq.rotate d₂ p).rbSetBlack (some node)).rbSetRed
              (some g)).links.Represents
              (plug c (branch d₂.opp u g (branch d₂.opp b node (branch d₂ s p a)))) := by
            rw [branch_opp, branch_opp]
            simpa using h₁
          have hrot := represents_rotate htree
          rwa [branch_opp d₂ _ node] at hrot
        · rw [← h.elems, plug_cons, plug_cons, plug_cons]
          refine inorder_plug_congr ?_
          cases d₂ <;> simp [branch]
        · have hng := (hnt node hnode).2.1
          refine h.edge.rotate_inner hn hp hred ?_ ?_ fun w hwx hwg => ?_
          all_goals simp [Function.update_apply, hng]
          simp [hwx, hwg]
        · simpa using h.vruntime

/-- **`RbInsertColorFixup` moves the edge up to the root or removes it.** -/
theorem InsertFixup.turn {k : Nat} {node : PcbId}
    (h : ∃ c t, InsertFixup xs v rq node c t ∧ c.length = k) :
    ∃ u, insertFixupTurn (rq, node) = .ok u ∧
      u.Meets (fun st => ∃ j, j < k ∧ ∃ c t, InsertFixup xs v st.1 st.2 c t ∧ c.length = j)
        (InsertFixed xs v) := by
  obtain ⟨c, t, h, rfl⟩ := h
  have hpar : rq.links.parent node = above c := by
    obtain ⟨a, b, rfl⟩ := exists_branch_of_top .left h.focus
    exact (linked_branch.mp (represents_plug_iff.mp h.tree).2.1).1
  by_cases hblack : ∀ x, above c = some x → rq.isRed x = false
  · refine ⟨.leave rq, ?_, h.fixed hblack⟩
    rw [insertFixupTurn, hpar]
    cases hc : above c with
    | none => rfl
    | some p => simp [hblack p hc]
  · cases c with
    | nil => simp at hblack
    | cons f c =>
        obtain ⟨d₁, p, s⟩ := f
        have hp : rq.isRed p = true := by simpa using hblack
        obtain ⟨⟨d₂, g, u⟩, c, rfl, hg⟩ := h.edge.exists_above rfl hp
        obtain ⟨hc, -, hn⟩ := represents_plug_iff.mp h.tree
        obtain ⟨-, -, -, hpp, hgp, hgu, -, -, -⟩ := hc
        obtain ⟨hpg, hnt, -, hnu, -⟩ := ne_of_nodup_plug hn
        obtain ⟨hxp, hxg, -⟩ := hnt node (mem_inorder_of_top h.focus)
        have hleft : rq.links.child .left g = some p ↔ d₂ = .left := by
          cases d₂
          · simpa using hgp
          · have hup : top u ≠ some p := fun hup => (hnu p (mem_inorder_of_top hup)).1 rfl
            simp only [Side.opp_right] at hgu
            simp [hgu, hup]
        have hturn : insertFixupTurn (rq, node) =
            .ok (.again (rq.insertFixupSide d₂ node p g)) := by
          simp only [above_cons] at hpar hpp
          simp only [insertFixupTurn, hpar, hp, hpp, hxp.symm, hpg.symm, hxg.symm, hleft]
          cases d₂ <;> simp
        obtain ⟨c', t', h', hlt⟩ := h.side hp
        exact ⟨_, hturn, c'.length, by simp only [List.length_cons]; omega, c', t', h', rfl⟩

/-- **`RbInsertColorFixup` makes a red-black tree** of one that lacks this only at the
edge into `node`. -/
theorem rbInsertColorFixup_returns {node : PcbId} {c : Ctx PcbId} {t : BinaryTree PcbId}
    (h : InsertFixup xs v rq node c t) {fuel : Nat} (hfuel : c.length < fuel) :
    ∃ rq', rq.rbInsertColorFixup fuel node = .ok rq' ∧
      ∃ t', rq'.links.Represents t' ∧ t'.inorder = xs ∧ RedBlack rq'.isRed t' ∧
        rq'.vruntime = v := by
  obtain ⟨rq₁, hloop, t', ht', hxs, hrr, hbh, hv⟩ :
      ∃ r, loop insertFixupTurn Fault.outOfFuel fuel (rq, node) = .ok r ∧
        InsertFixed xs v r :=
    loop_returns (fun k st hk => InsertFixup.turn hk) ⟨c, t, h, rfl⟩ hfuel
  refine ⟨rq₁.rbSetBlack rq₁.links.root, by rw [rbInsertColorFixup, hloop]; rfl,
    t', by simpa using ht', hxs, ?_, by simpa using hv⟩
  rw [ht'.root]
  refine redBlack_of_black_top ht'.nodup hrr hbh ?_ fun w hw => rbSetBlack_isRed_of_ne _ _ hw
  cases t' with
  | nil => rfl
  | node x a b => exact Function.update_self ..

/-- A red leaf in a hole of a red-black tree. -/
theorem redEdge_leaf {red red' : PcbId → Bool} {c : Ctx PcbId} {node : PcbId}
    (h : RedBlack red (plug c nil)) (hnode : red' node = true)
    (hag : ∀ w ∈ ctxElems c, red' w = red w) : RedEdge red' c (branch .left nil node nil) := by
  have hsame := sameColors_of_agree hag
  obtain ⟨n, hn⟩ := h.height
  obtain ⟨m, hm, hc⟩ := blackHeight_plug.mp hn
  rw [blackHeight_nil] at hm
  subst hm
  refine ⟨by simpa using hnode, ?_, ⟨0, n, ?_, hsame.ctxHeight hc⟩,
    hsame.ctxNoRedRed (noRedRed_plug.mp h.noRedRed).2, fun hne => ?_⟩
  · exact noRedRed_branch.mpr ⟨fun _ => ⟨rfl, rfl⟩, trivial, trivial⟩
  · exact blackHeight_branch.mpr ⟨0, by simp, by simp, by simp [blackCost, hnode]⟩
  · rw [hsame.topRed_plug hne nil nil]
    exact h.top

/-- The colours after `node` has been linked in a hole of a red-black tree. -/
theorem fixInserted_returns {c : Ctx PcbId} (hrb : RedBlack rq.isRed (plug c nil))
    {node : PcbId} (hnode : node ∉ (plug c nil).inorder)
    (htree : ((rq.rbInitNode node).attach node (above c)).links.Represents
      (plug c (branch .left nil node nil)))
    {fuel : Nat} (hfuel : (plug c nil).numNodes < fuel) :
    ∃ rq', ((rq.rbInitNode node).attach node (above c)).fixInserted fuel node (above c) =
      .ok rq' ∧ ∃ t', rq'.links.Represents t' ∧ t'.inorder = before c ++ node :: after c ∧
        RedBlack rq'.isRed t' ∧ rq'.vruntime = rq.vruntime := by
  have hxs : (plug c (branch .left nil node nil)).inorder = before c ++ node :: after c := by
    rw [inorder_plug]
    simp [branch]
  cases c with
  | nil =>
      refine ⟨_, rfl, _, htree, hxs, ⟨?_, ?_, 1, ?_⟩, rfl⟩
      · exact Function.update_self ..
      · exact noRedRed_branch.mpr ⟨fun _ => ⟨rfl, rfl⟩, trivial, trivial⟩
      · refine blackHeight_branch.mpr ⟨0, by simp, by simp, ?_⟩
        simp [blackCost, rbInitNode, attach, rbSetBlack, rbSetParent]
  | cons f c =>
      have hnodec : ∀ w ∈ ctxElems (f :: c), w ≠ node := fun w hw h =>
        hnode (mem_inorder_plug.mpr (.inr (h ▸ hw)))
      have hcolor : ((rq.rbInitNode node).attach node (some f.elem)).isRed =
          Function.update rq.isRed node true := attach_isRed _ _
      have hedge : RedEdge ((rq.rbInitNode node).attach node (some f.elem)).isRed (f :: c)
          (branch .left nil node nil) := by
        rw [hcolor]
        exact redEdge_leaf hrb (Function.update_self ..)
          fun w hw => Function.update_of_ne (hnodec w hw) _ _
      have hfix : InsertFixup (before (f :: c) ++ node :: after (f :: c)) rq.vruntime
          ((rq.rbInitNode node).attach node (some f.elem)) node (f :: c)
          (branch .left nil node nil) :=
        ⟨htree, rfl, hxs, hedge, attach_vruntime _ _⟩
      have hpar : ((rq.rbInitNode node).attach node (some f.elem)).links.parent f.elem =
          above c := (represents_plug_iff.mp htree).1.2.2.2.1
      have hlen := length_add_numNodes_le (f :: c) nil
      rw [above_cons, fixInserted, hpar]
      by_cases hc : above c = none
      · rw [if_neg (by simpa using hc)]
        obtain rfl : c = [] := by
          cases c with
          | nil => rfl
          | cons g c => cases hc
        have hroot : rq.isRed f.elem = false := by simpa using hrb.top
        have hblack : ((rq.rbInitNode node).attach node (some f.elem)).isRed f.elem = false := by
          rw [hcolor, Function.update_of_ne (hnodec _ (mem_ctxElems_of_above rfl)), hroot]
        obtain ⟨hrr, hbh⟩ := hedge.noRedRed_of_above
          fun x hx => by rw [← Option.some.inj hx, hblack]
        exact ⟨_, rfl, _, htree, hxs, ⟨by simpa using hblack, hrr, hbh⟩, attach_vruntime _ _⟩
      · rw [if_pos hc]
        exact rbInsertColorFixup_returns hfix (by omega)

/-- **`RbInsert` keeps red-black trees.**  The new task stands in the in-order list where
the search ended. -/
theorem rbInsert_returns {t : BinaryTree PcbId} (h : rq.links.Represents t)
    (hrb : RedBlack rq.isRed t) {node : PcbId} (hnode : node ∉ t.inorder) {fuel : Nat}
    (hfuel : t.numNodes + 1 < fuel) :
    ∃ rq', rq.rbInsert fuel node = .ok rq' ∧ ∃ t', rq'.links.Represents t' ∧
      RedBlack rq'.isRed t' ∧ t'.inorder.Perm (node :: t.inorder) ∧
      rq'.vruntime = rq.vruntime := by
  obtain ⟨c, rfl, hs, hsearch⟩ : ∃ c, t = plug c nil ∧ _ ∧ _ :=
    @search_returns _ _ node fuel (represents_rbInitNode h hnode) (Nat.lt_of_succ_lt hfuel)
  have htree := represents_attach h hnode hs
  obtain ⟨rq₂, hfix, t', ht', hin, hrb', hv⟩ :=
    fixInserted_returns hrb hnode htree (Nat.lt_of_succ_lt hfuel)
  have hperm : t'.inorder.Perm (node :: (plug c nil).inorder) := by
    rw [hin, inorder_plug]
    simp
  have hnum : t'.numNodes < fuel := by
    have := hperm.length_eq
    rw [length_inorder, List.length_cons, length_inorder] at this
    omega
  obtain ⟨root, hroot⟩ : ∃ root, rq₂.links.root = some root := by
    rw [ht'.root]
    cases t' with
    | nil => simp at hin
    | node x a b => exact ⟨x, rfl⟩
  obtain ⟨rq₃, hupd, hlinks, hred, hv₃, -⟩ := updateLeftmost_returns ht' hroot hnum
  refine ⟨rq₃, ?_, t', by rw [hlinks]; exact ht', by rw [hred]; exact hrb', hperm,
    hv₃.trans hv⟩
  rw [rbInsert, bind_eq_ok_iff]
  refine ⟨_, hsearch, bind_eq_ok_iff.mpr ⟨rq₂, hfix, ?_⟩⟩
  rw [hroot]
  exact hupd

/-! ## Erasing -/

/-- `RbEraseColorFixup` at a red node blackens it and does nothing else. -/
theorem rbEraseColorFixup_of_red {w : PcbId} (hw : rq.isRed w = true) (p : Option PcbId)
    (n : Nat) : rq.rbEraseColorFixup (n + 1) (some w) p = .ok (rq.rbSetBlack (some w)) := by
  have hturn : eraseFixupTurn (rq, some w, p) = .ok (.leave (rq, some w)) := by
    cases p with
    | none => rfl
    | some p =>
        rw [eraseFixupTurn, if_pos]
        exact .inr hw
  rw [rbEraseColorFixup, loop_of_leave hturn]
  rfl

/-- **The condition under which `RbErase` is right**: the node taken out of its place is
red, or has a child, or is the root. -/
def SpliceSafe (rq : Rq) (z : PcbId) : Prop :=
  ∃ fuel y, rq.splicedOut fuel z = .ok y ∧
    (rq.isRed y = true ∨ (∃ d w, rq.links.child d y = some w) ∨ rq.links.root = some y)

/-- The condition at the place the node is taken out of. -/
theorem spliceSafe_iff {t a : BinaryTree PcbId} {c : Ctx PcbId} {d : Side} {y z : PcbId}
    {fuel : Nat} (h : rq.links.Represents t) (ht : t = plug c (branch d nil y a))
    (hy : rq.splicedOut fuel z = .ok y) :
    SpliceSafe rq z ↔ rq.isRed y = true ∨ a ≠ nil ∨ c = [] := by
  subst ht
  obtain ⟨-, hl, hn⟩ := represents_plug_iff.mp h
  obtain ⟨-, hd, ho, -, -⟩ := linked_branch.mp hl
  have hchild : (∃ i w, rq.links.child i y = some w) ↔ a ≠ nil := by
    constructor
    · rintro ⟨i, w, hw⟩ rfl
      rcases Side.eq_or_eq_opp d i with rfl | rfl
      · cases hd.symm.trans hw
      · cases ho.symm.trans hw
    · intro ha
      obtain ⟨w, hw⟩ := Option.ne_none_iff_exists'.mp (mt top_eq_none.mp ha)
      exact ⟨d.opp, w, ho.trans hw⟩
  have hroot : rq.links.root = some y ↔ c = [] := by
    rw [h.root]
    constructor
    · intro htop
      by_contra hc
      obtain ⟨x, hx, hmem⟩ := exists_top_plug hc (branch d nil y a)
      obtain rfl : x = y := Option.some.inj (hx.symm.trans htop)
      exact (nodup_inorder_plug.mp hn).2.2 (mem_inorder_of_top (top_branch ..)) hmem
    · rintro rfl
      rw [plug_nil, top_branch]
  have hone : SpliceSafe rq z ↔ rq.isRed y = true ∨
      (∃ i w, rq.links.child i y = some w) ∨ rq.links.root = some y := by
    constructor
    · rintro ⟨n, y', hy', hsafe⟩
      rwa [(splicedOut_steady rq z).unique hy' hy] at hsafe
    · exact fun hsafe => ⟨fuel, y, hy, hsafe⟩
  rw [hone, hchild, hroot]

/-- **`RbErase` takes the node out of the in-order list, and the result is a red-black
tree exactly under the condition.** -/
theorem rbErase_returns {t : BinaryTree PcbId} (h : rq.links.Represents t)
    (hrb : RedBlack rq.isRed t) {z : PcbId} (hz : z ∈ t.inorder) {fuel : Nat}
    (hfuel : t.numNodes < fuel) :
    ∃ rq', rq.rbErase fuel z = .ok rq' ∧ ∃ t', rq'.links.Represents t' ∧
      t'.inorder = t.inorder.erase z ∧ (RedBlack rq'.isRed t' ↔ SpliceSafe rq z) ∧
      rq'.vruntime = rq.vruntime := by
  obtain ⟨rq₁, u, d, c, c', y, a, hunlink, hy, hu⟩ := unlink_returns h hz hfuel
  have hsafe := spliceSafe_iff h hu.before hy
  have hn := hu.tree.nodup
  have hfix : ∃ rq₂, rq₁.fixErased fuel u = .ok rq₂ ∧ rq₂.links = rq₁.links ∧
      rq₂.vruntime = rq.vruntime ∧ (RedBlack rq₂.isRed (plug c' a) ↔ SpliceSafe rq z) := by
    rw [hu.before] at hrb
    by_cases ha : a = nil
    · subst ha
      refine ⟨rq₁, ?_, rfl, hu.vruntime, ?_⟩
      · rw [fixErased, hu.x]
        simp
      · rw [hsafe]
        cases hred : rq.isRed y with
        | true => simpa using (hrb.splice_red hu.colors hred).2
        | false =>
            by_cases hc : c = []
            · have hc' : c' = [] := by
                have := hu.colors
                rw [hc] at this
                cases this
                rfl
              rw [hc']
              simpa [hc] using ⟨rfl, trivial, 0, by simp⟩
            · simpa [hc] using hrb.not_splice_black hu.colors hred hc
    · obtain ⟨w, rfl, hw, hyb, hnew⟩ := hrb.splice_child ha
      have hw₁ : rq₁.isRed w = true := by
        rw [hu.agree w (mem_inorder_of_top (top_branch ..)), hw]
      obtain ⟨n, rfl⟩ : ∃ n, fuel = n + 1 := ⟨fuel - 1, by omega⟩
      refine ⟨rq₁.rbSetBlack (some w), ?_, by simp, by simpa using hu.vruntime, ?_⟩
      · rw [fixErased, hu.x, hu.red, top_branch, if_pos ⟨by simp, hyb⟩]
        exact rbEraseColorFixup_of_red hw₁ _ _
      · have hwc : ∀ x ∈ ctxElems c', x ≠ w := by
          rintro x hx rfl
          exact (nodup_inorder_plug.mp hn).2.2 (mem_inorder_of_top (top_branch ..)) hx
        rw [hsafe]
        refine iff_of_true (hnew _ _ (hu.colors.agree fun x hx => ?_) ?_) (.inr (.inl ha))
        · exact Function.update_of_ne (hwc x hx) _ _
        · exact Function.update_self ..
  obtain ⟨rq₂, hfix, hlinks, hv, hiff⟩ := hfix
  have htree : rq₂.links.Represents (plug c' a) := by
    rw [hlinks]
    exact hu.tree
  have hlen : (plug c' a).numNodes ≤ t.numNodes := by
    rw [← length_inorder, ← length_inorder, hu.elems]
    exact List.length_erase_le
  rw [rbErase, hunlink]
  show ∃ rq', (rq₁.fixErased fuel u >>= _) = _ ∧ _
  rw [hfix]
  cases hroot : rq₂.links.root with
  | none =>
      refine ⟨{ rq₂ with leftmost := none, minVruntime := 0 }, ?_, plug c' a, htree, hu.elems, hiff,
        hv⟩
      simp only [bind, Except.bind, hroot]
      rfl
  | some root =>
      obtain ⟨rq₃, hupd, hl₃, hr₃, hv₃, -⟩ :=
        updateLeftmost_returns htree hroot (Nat.lt_of_le_of_lt hlen hfuel)
      refine ⟨rq₃, ?_, plug c' a, by rw [hl₃]; exact htree, hu.elems, by rw [hr₃]; exact hiff,
        hv₃.trans hv⟩
      simp only [bind, Except.bind, hroot]
      exact hupd

/-! ## Runs -/

/-- **The tree reached from `rb_root` is a red-black tree.** -/
def IsRedBlack (rq : Rq) : Prop :=
  ∃ t, rq.links.Represents t ∧ RedBlack rq.isRed t

end Rq

/-- The run queue, and which tasks are linked in it by the history of the calls. -/
structure Tree where
  rq : Rq
  linked : List PcbId

namespace Tree

/-- The steps: `se.vruntime` of an unlinked task is set, an unlinked task is inserted, a
linked task is erased. -/
inductive Op where
  | setVruntime (p : PcbId) (v : Nat)
  | insert (p : PcbId)
  | erase (p : PcbId)
  deriving DecidableEq, Repr

/-- Whether a step may be taken. -/
def allowed (s : Tree) : Op → Bool
  | .setVruntime p _ => p ∉ s.linked
  | .insert p => p ∉ s.linked
  | .erase p => p ∈ s.linked

/-- The calls, with fuel for their loops. -/
def call (fuel : Nat) (s : Tree) : Op → Option Tree
  | .setVruntime p v =>
      some { s with rq := { s.rq with vruntime := Function.update s.rq.vruntime p v } }
  | .insert p => (s.rq.rbInsert fuel p).toOption.map fun rq => ⟨rq, p :: s.linked⟩
  | .erase p => (s.rq.rbErase fuel p).toOption.map fun rq => ⟨rq, s.linked.erase p⟩

/-- A step, with fuel for its loops. -/
def exec (fuel : Nat) (s : Tree) (op : Op) : Option Tree :=
  if s.allowed op then s.call fuel op else none

/-- A step, whatever fuel it takes. -/
def step (s : Tree) (op : Op) (s' : Tree) : Prop := ∃ fuel, s.exec fuel op = some s'

/-- The empty run queue. -/
structure Init (s : Tree) : Prop where
  root : s.rq.links.root = none
  linked : s.linked = []

/-- The condition on a step: what `RbErase` takes out of its place is red, has a child or
is the root. -/
def EraseSafe (s : Tree) : Op → Prop
  | .erase p => s.rq.SpliceSafe p
  | _ => True

/-- The invariant: the tree of the linked tasks is a red-black tree. -/
def Inv (s : Tree) : Prop :=
  ∃ t, s.rq.links.Represents t ∧ RedBlack s.rq.isRed t ∧ t.inorder.Perm s.linked

theorem Init.inv {s : Tree} (h : Init s) : Inv s := by
  refine ⟨nil, ⟨h.root, trivial, by simp⟩, ⟨rfl, trivial, 0, by simp⟩, ?_⟩
  rw [h.linked]
  exact List.Perm.nil

theorem Inv.isRedBlack {s : Tree} (h : Inv s) : s.rq.IsRedBlack := by
  obtain ⟨t, ht, hrb, -⟩ := h
  exact ⟨t, ht, hrb⟩

theorem allowed_of_exec {fuel : Nat} {s s' : Tree} {op : Op} (h : s.exec fuel op = some s') :
    s.allowed op = true := by
  by_contra hop
  rw [exec.eq_def, if_neg hop] at h
  cases h

theorem map_toOption_mono {ε α β : Type} {f : Nat → Except ε α} (hf : Steady f) {g : α → β}
    {n m : Nat} (hnm : n ≤ m) {b : β} (h : (f n).toOption.map g = some b) :
    (f m).toOption.map g = some b := by
  cases hn : f n with
  | error e => rw [hn] at h; cases h
  | ok a =>
      rw [hn] at h
      rw [hf n m a hnm hn]
      exact h

/-- More fuel does not change a step. -/
theorem exec_mono {n m : Nat} {s s' : Tree} {op : Op} (hnm : n ≤ m)
    (h : s.exec n op = some s') : s.exec m op = some s' := by
  have hop := allowed_of_exec h
  rw [exec.eq_def, if_pos hop] at h ⊢
  cases op with
  | setVruntime p v => exact h
  | insert p => exact map_toOption_mono (s.rq.rbInsert_steady p) hnm h
  | erase p => exact map_toOption_mono (s.rq.rbErase_steady p) hnm h

/-- What the invariant gives for an allowed step: it returns, given enough fuel, in a
state whose tree has the linked tasks, and is a red-black tree if the step is safe and
only then. -/
theorem Inv.exec_returns {s : Tree} (h : Inv s) {op : Op} (hop : s.allowed op = true) :
    ∃ n, ∀ fuel, n ≤ fuel → ∃ s' t', s.exec fuel op = some s' ∧ s'.rq.links.Represents t' ∧
      t'.inorder.Perm s'.linked ∧ (RedBlack s'.rq.isRed t' ↔ s.EraseSafe op) := by
  obtain ⟨t, ht, hrb, hperm⟩ := h
  refine ⟨t.numNodes + 2, fun fuel hfuel => ?_⟩
  simp only [exec, if_pos hop]
  cases op with
  | setVruntime p v => exact ⟨_, t, rfl, ht, hperm, iff_of_true hrb trivial⟩
  | insert p =>
      have hp : p ∉ t.inorder := by
        rw [hperm.mem_iff]
        simpa [allowed] using hop
      obtain ⟨rq', hins, t', ht', hrb', hperm', -⟩ := Rq.rbInsert_returns ht hrb hp hfuel
      exact ⟨⟨rq', p :: s.linked⟩, t', by rw [call, hins]; rfl, ht',
        hperm'.trans (hperm.cons p), iff_of_true hrb' trivial⟩
  | erase p =>
      have hp : p ∈ t.inorder := by
        rw [hperm.mem_iff]
        simpa [allowed] using hop
      obtain ⟨rq', her, t', ht', hin, hiff, -⟩ :=
        Rq.rbErase_returns ht hrb hp (Nat.lt_of_succ_lt hfuel)
      refine ⟨⟨rq', s.linked.erase p⟩, t', by rw [call, her]; rfl, ht', ?_, hiff⟩
      rw [hin]
      exact hperm.erase p

/-- **Every call returns**, given enough fuel. -/
theorem Inv.returns {s : Tree} (h : Inv s) {op : Op} (hop : s.allowed op = true) :
    ∃ n, ∀ fuel, n ≤ fuel → ∃ s', s.exec fuel op = some s' := by
  obtain ⟨n, hn⟩ := h.exec_returns hop
  refine ⟨n, fun fuel hfuel => ?_⟩
  obtain ⟨s', -, hs', -⟩ := hn fuel hfuel
  exact ⟨s', hs'⟩

/-- What a step does to the tree. -/
theorem Inv.step_spec {s s' : Tree} {op : Op} (h : Inv s) (hs : step s op s') :
    ∃ t', s'.rq.links.Represents t' ∧ t'.inorder.Perm s'.linked ∧
      (RedBlack s'.rq.isRed t' ↔ s.EraseSafe op) := by
  obtain ⟨m, hm⟩ := hs
  obtain ⟨n, hn⟩ := h.exec_returns (allowed_of_exec hm)
  obtain ⟨s'', t', hs'', ht'⟩ := hn (max n m) (Nat.le_max_left n m)
  rw [exec_mono (Nat.le_max_right n m) hm, Option.some.injEq] at hs''
  rw [hs'']
  exact ⟨t', ht'⟩

theorem Inv.step {s s' : Tree} {op : Op} (h : Inv s) (hsafe : s.EraseSafe op)
    (hs : Tree.step s op s') : Inv s' := by
  obtain ⟨t', ht', hperm, hiff⟩ := h.step_spec hs
  exact ⟨t', ht', hiff.mpr hsafe, hperm⟩

theorem Inv.not_isRedBlack {s s' : Tree} {op : Op} (h : Inv s) (hsafe : ¬ s.EraseSafe op)
    (hs : Tree.step s op s') : ¬ s'.rq.IsRedBlack := by
  obtain ⟨t', ht', -, hiff⟩ := h.step_spec hs
  rintro ⟨u, hu, hrb⟩
  rw [hu.unique ht'] at hrb
  exact hsafe (hiff.mp hrb)

/-- **The run queue's tree is a red-black tree exactly as long as no black leaf below the
root is taken out.**  And as long as none is, every call returns. -/
theorem isRedBlack_iff_eraseSafe {s t : Tree} {ops : List Op} (hinit : Init s) :
    (Run (Keeping (fun s => s.rq.IsRedBlack) step) s ops t ↔
      Run (Guarded EraseSafe step) s ops t) ∧
    (Run (Guarded EraseSafe step) s ops t → ∀ op, t.allowed op = true →
      ∃ n, ∀ fuel, n ≤ fuel → ∃ t', t.exec fuel op = some t') := by
  refine ⟨run_keeping_iff_guarded hinit.inv (fun _ _ _ h hok hs => h.step hok hs)
    (fun _ h => h.isRedBlack) (fun _ _ _ h hok hs => h.not_isRedBlack hok hs), ?_⟩
  intro hrun op hop
  exact (hrun.invariant hinit.inv fun _ _ _ h hs => h.step hs.1 hs.2).returns hop

/-! ## Four tasks -/

/-- `EraseSafe`, computed with fuel. -/
def eraseSafe (fuel : Nat) (s : Tree) : Op → Bool
  | .erase p =>
      match s.rq.splicedOut fuel p with
      | .ok y => s.rq.isRed y || (s.rq.links.child .left y).isSome ||
          (s.rq.links.child .right y).isSome || decide (s.rq.links.root = some y)
      | .error _ => false
  | _ => true

theorem EraseSafe.of_eraseSafe {fuel : Nat} {s : Tree} {op : Op}
    (h : s.eraseSafe fuel op = true) : s.EraseSafe op := by
  cases op with
  | setVruntime p v => trivial
  | insert p => trivial
  | erase p =>
      rw [eraseSafe] at h
      split at h
      · next y hy =>
        refine ⟨fuel, y, hy, ?_⟩
        simp only [Bool.or_eq_true, Option.isSome_iff_exists, decide_eq_true_eq] at h
        rcases h with ((h | h) | h) | h
        · exact .inl h
        · exact .inr (.inl ⟨_, h⟩)
        · exact .inr (.inl ⟨_, h⟩)
        · exact .inr (.inr h)
      · cases h

/-- A computed execution whose steps are safe. -/
theorem run_of_exec_safe {fuel : Nat} {s t : Tree} {ops : List Op}
    (h : Lib.exec (eraseSafe fuel) (exec fuel) s ops = some t) :
    Run (Guarded EraseSafe step) s ops t :=
  (run_of_exec h).mono fun _ _ _ hs => ⟨.of_eraseSafe hs.1, fuel, hs.2⟩

/-- A run queue with nothing linked, in which task `p` has the vruntime `p`. -/
def empty : Tree where
  rq :=
    { links := ⟨fun _ _ => none, fun _ => none, none⟩
      isRed := fun _ => false
      vruntime := fun p => p
      leftmost := none
      minVruntime := 0 }
  linked := []

theorem isRedBlack_iff_eraseSafe_empty :
    ∃ t, Run (Keeping (fun s => s.rq.IsRedBlack) step) empty
      [.insert 1, .insert 2, .insert 3, .setVruntime 4 2, .insert 4, .erase 2] t := by
  obtain ⟨t, ht⟩ := Option.isSome_iff_exists.mp
    (by decide : (Lib.exec (eraseSafe 10) (exec 10) empty
      [.insert 1, .insert 2, .insert 3, .setVruntime 4 2, .insert 4, .erase 2]).isSome)
  exact ⟨t, (isRedBlack_iff_eraseSafe ⟨rfl, rfl⟩).1.mpr (run_of_exec_safe ht)⟩

/-- **The tree goes out of balance.**  Of the tasks 1 to 4, inserted in this order, task 1
is a black leaf below the root; it is erased. -/
theorem erase_black_leaf :
    ¬ ∀ (s t : Tree) (ops : List Op), Init s → Run step s ops t → t.rq.IsRedBlack := by
  intro hclaim
  obtain ⟨t, ht⟩ := Option.isSome_iff_exists.mp
    (by decide : (Lib.exec (eraseSafe 10) (exec 10) empty
      [.insert 1, .insert 2, .insert 3, .insert 4]).isSome)
  obtain ⟨t', ht'⟩ := Option.isSome_iff_exists.mp
    (by decide : ((Lib.exec (eraseSafe 10) (exec 10) empty
      [.insert 1, .insert 2, .insert 3, .insert 4]).bind
        fun t => t.exec 10 (.erase 1)).isSome)
  have hleaf : (Lib.exec (eraseSafe 10) (exec 10) empty
      [.insert 1, .insert 2, .insert 3, .insert 4]).map (fun t => (t.rq.isRed 1,
        t.rq.links.child .left 1, t.rq.links.child .right 1, t.rq.links.root)) =
      some (false, none, none, some 2) := by decide
  rw [ht, Option.bind_some] at ht'
  rw [ht, Option.map_some, Option.some.injEq, Prod.mk.injEq, Prod.mk.injEq,
    Prod.mk.injEq] at hleaf
  obtain ⟨hblack, hleft, hright, hroot⟩ := hleaf
  have hrun := run_of_exec_safe ht
  have hinv : Inv t := hrun.invariant (Init.inv ⟨rfl, rfl⟩) fun _ _ _ h hs => h.step hs.1 hs.2
  have hunsafe : ¬ t.EraseSafe (.erase 1) := by
    rintro ⟨n, y, hy, hsafe⟩
    rw [Rq.splicedOut_of_child_none hleft] at hy
    injection hy with hy
    subst hy
    rcases hsafe with h | ⟨d, w, h⟩ | h
    · exact Bool.noConfusion (hblack.symm.trans h)
    · cases d
      · cases hleft.symm.trans h
      · cases hright.symm.trans h
    · cases hroot.symm.trans h
  have hall : Run step empty ([.insert 1, .insert 2, .insert 3, .insert 4] ++ [.erase 1]) t' :=
    .snoc (hrun.mono fun _ _ _ hs => hs.2) ⟨10, ht'⟩
  exact hinv.not_isRedBlack hunsafe ⟨10, ht'⟩ (hclaim _ _ _ ⟨rfl, rfl⟩ hall)

end Tree

end InfoKernel.Task.Cfs
