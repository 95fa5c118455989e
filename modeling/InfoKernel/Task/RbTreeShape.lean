import InfoKernel.Lib.RedBlack
import InfoKernel.Task.RbTree

/-!
# What the operations do to the tree

Each operation of the run queue's tree as a change of the tree that the links
represent: a rotation keeps the in-order list, `RbInsert` puts the new task where the
search from the root ends, and `RbErase` takes the task out of the list.  None of this
asks anything of the colours, so it also holds where they are not those of a red-black
tree.
-/

namespace InfoKernel.Task.Cfs.Rq

open InfoKernel.Lib
open InfoKernel.Lib.Links
open BinaryTree hiding node

variable {rq : Rq}

/-! ## Rotations -/

@[simp] theorem rotate_isRed (d : Side) (x : PcbId) : (rq.rotate d x).isRed = rq.isRed := by
  unfold rotate
  split
  · rfl
  · split <;> rfl

@[simp] theorem rotate_vruntime (d : Side) (x : PcbId) :
    (rq.rotate d x).vruntime = rq.vruntime := by
  unfold rotate
  split
  · rfl
  · split <;> rfl

theorem rotate_of_child_none {d : Side} {x : PcbId}
    (h : rq.links.child d.opp x = none) : rq.rotate d x = rq := by
  rw [rotate, h]

section

variable {d : Side} {x y : PcbId}

/-- The links after a rotation at `x`, whose child on the other side is `y`. -/
theorem rotate_links (hxy : rq.links.child d.opp x = some y) (hyx : y ≠ x)
    (hyb : rq.links.child d y ≠ some x) :
    (rq.rotate d x).links =
      (((((rq.links.setChild d.opp x (rq.links.child d y)).setParent? (rq.links.child d y)
        (some x)).setParent y (rq.links.parent x)).redirect d (rq.links.parent x) x
          (some y)).setChild d y (some x)).setParent x (some y) := by
  have hyx' : x ≠ y := Ne.symm hyx
  simp [rotate, hxy, hyx, setChild_child, setParent?_parent, hyb, setParent_parent, hyx']

/-- A rotation changes the child links of the two elements and of the one above them only. -/
theorem rotate_child_of_ne (hxy : rq.links.child d.opp x = some y) (hyx : y ≠ x)
    (hyb : rq.links.child d y ≠ some x) {z : PcbId} (hzx : z ≠ x) (hzy : z ≠ y)
    (hup : rq.links.parent x ≠ some z) (i : Side) :
    (rq.rotate d x).links.child i z = rq.links.child i z := by
  rw [rotate_links hxy hyx hyb]
  simp [setChild_child, hzy, redirect_child_of_ne _ hup, hzx]

/-- It changes the parent links of the two elements and of the child that passes from one to
the other only. -/
theorem rotate_parent_of_ne (hxy : rq.links.child d.opp x = some y) (hyx : y ≠ x)
    (hyb : rq.links.child d y ≠ some x) {z : PcbId} (hzx : z ≠ x) (hzy : z ≠ y) :
    (rq.rotate d x).links.parent z =
      if rq.links.child d y = some z then some x else rq.links.parent z := by
  rw [rotate_links hxy hyx hyb]
  simp [setParent_parent, setParent?_parent, hzx, hzy]

/-- **The tree above** a rotation has `y` where it had `x`. -/
theorem linkedCtx_rotate {c : Ctx PcbId} (hxy : rq.links.child d.opp x = some y) (hyx : y ≠ x)
    (hyb : rq.links.child d y ≠ some x) (hc : LinkedCtx rq.links c (some x))
    (hpx : rq.links.parent x = above c) (hn : (ctxElems c).Nodup)
    (hout : ∀ z ∈ ctxElems c, z ≠ x ∧ z ≠ y ∧ rq.links.child d y ≠ some z) :
    LinkedCtx (rq.rotate d x).links c (some y) := by
  -- the links when the link to `x` is redirected
  let l₁ := ((rq.links.setChild d.opp x (rq.links.child d y)).setParent?
    (rq.links.child d y) (some x)).setParent y (above c)
  have hfinal : (rq.rotate d x).links =
      ((l₁.redirect d (above c) x (some y)).setChild d y (some x)).setParent x (some y) := by
    rw [rotate_links hxy hyx hyb, hpx]
  have hc₁ : LinkedCtx l₁ c (some x) := by
    refine hc.congr (by simp [l₁]) (fun z hz i => ?_) fun z hz => ?_
    · obtain ⟨hzx, -, -⟩ := hout z hz
      simp [l₁, setChild_child, hzx]
    · obtain ⟨-, hzy, hzb⟩ := hout z hz
      simp [l₁, setParent_parent, setParent?_parent, hzy, hzb]
  have hxc : x ∉ ctxElems c := fun hx => (hout x hx).1 rfl
  refine (hc₁.redirect hn hxc d).congr (by rw [hfinal]; rfl) (fun z hz i => ?_) fun z hz => ?_
  · obtain ⟨-, hzy, -⟩ := hout z hz
    rw [hfinal]
    simp [setChild_child, hzy]
  · obtain ⟨hzx, -, -⟩ := hout z hz
    rw [hfinal]
    simp [setParent_parent, hzx]

/-- **The two elements and the trees below them.** -/
theorem linked_rotate {p : Option PcbId} {a b e : BinaryTree PcbId}
    (hl : Linked rq.links p (branch d a x (branch d b y e)))
    (hn : (branch d a x (branch d b y e)).inorder.Nodup)
    (hup : ∀ z ∈ (branch d a x (branch d b y e)).inorder, p ≠ some z) :
    Linked (rq.rotate d x).links p (branch d (branch d a x b) y e) := by
  obtain ⟨hpx, hxa, hxy, hla, hly⟩ := linked_branch.mp hl
  obtain ⟨hpy, hyb, hye, hlb, hle⟩ := linked_branch.mp hly
  rw [top_branch] at hxy
  obtain ⟨hna, hny, hxna, hxny, hday⟩ := nodup_inorder_branch.mp hn
  obtain ⟨hnb, hne, hynb, hyne, hdbe⟩ := nodup_inorder_branch.mp hny
  have hyx : y ≠ x := by
    rintro rfl
    exact hxny (mem_inorder_branch.mpr (.inr (.inl rfl)))
  have hxy' : x ≠ y := Ne.symm hyx
  have hxb : top b ≠ some x := fun hxb =>
    hxny (mem_inorder_branch.mpr (.inl (mem_inorder_of_top hxb)))
  have hchild : rq.links.child d y ≠ some x := by rwa [hyb]
  have hxup : p ≠ some x := hup x (by simp [mem_inorder_branch])
  have hyup : p ≠ some y := hup y (by simp [mem_inorder_branch])
  have hlinks := rotate_links hxy hyx hchild
  -- what holds of the elements of the three subtrees
  have hsub : ∀ t : BinaryTree PcbId,
      (∀ z ∈ t.inorder, z ∈ (branch d a x (branch d b y e)).inorder) → x ∉ t.inorder →
      y ∉ t.inorder → ∀ z ∈ t.inorder, ∀ i,
      (rq.rotate d x).links.child i z = rq.links.child i z := by
    intro t ht hxt hyt z hz
    refine rotate_child_of_ne hxy hyx hchild (fun h => hxt (h ▸ hz)) (fun h => hyt (h ▸ hz)) ?_
    rw [hpx]
    exact hup z (ht z hz)
  have hpar : ∀ z, z ≠ x → z ≠ y →
      (rq.rotate d x).links.parent z = if top b = some z then some x else rq.links.parent z := by
    intro z hzx hzy
    rw [rotate_parent_of_ne hxy hyx hchild hzx hzy, hyb]
  rw [linked_branch, linked_branch, top_branch]
  refine ⟨?_, ?_, ?_, ⟨?_, ?_, ?_, ?_, ?_⟩, ?_⟩
  · simp [hlinks, setParent_parent, hyx, hpx]
  · simp [hlinks, setChild_child]
  · simp [hlinks, hpx, setChild_child, redirect_child_of_ne _ hyup, hyx, hye]
  · simp [hlinks, setParent_parent]
  · simp [hlinks, hpx, setChild_child, redirect_child_of_ne _ hxup, hxy', hxa]
  · simp [hlinks, hpx, setChild_child, redirect_child_of_ne _ hxup, hxy', hyb]
  · have hya : y ∉ a.inorder := fun hya => hday hya (by simp [mem_inorder_branch])
    refine hla.congr (hsub a ?_ hxna hya) fun z hz => ?_
    · exact fun z hz => mem_inorder_branch.mpr (.inl hz)
    · have hzb : top b ≠ some z := fun hzb =>
        hday hz (mem_inorder_branch.mpr (.inl (mem_inorder_of_top hzb)))
      rw [hpar z (fun h => hxna (h ▸ hz)) (fun h => hya (h ▸ hz)), if_neg hzb]
  · have hxnb : x ∉ b.inorder := fun hz => hxny (mem_inorder_branch.mpr (.inl hz))
    refine hlb.reparent hnb (hsub b ?_ hxnb hynb) (fun z hz hzb => ?_) fun z hzb => ?_
    · exact fun z hz => by simp [mem_inorder_branch, hz]
    · rw [hpar z (fun h => hxnb (h ▸ hz)) (fun h => hynb (h ▸ hz)), if_neg hzb]
    · have hz := mem_inorder_of_top hzb
      rw [hpar z (fun h => hxnb (h ▸ hz)) (fun h => hynb (h ▸ hz)), if_pos hzb]
  · have hxne : x ∉ e.inorder := fun hz => hxny (by simp [mem_inorder_branch, hz])
    refine hle.congr (hsub e ?_ hxne hyne) fun z hz => ?_
    · exact fun z hz => by simp [mem_inorder_branch, hz]
    · have hzb : top b ≠ some z := fun hzb => hdbe (mem_inorder_of_top hzb) hz
      rw [hpar z (fun h => hxne (h ▸ hz)) (fun h => hyne (h ▸ hz)), if_neg hzb]

end

/-- **A rotation rotates the tree**, wherever in it. -/
theorem represents_rotate {d : Side} {c : Ctx PcbId} {a b e : BinaryTree PcbId}
    {x y : PcbId} (h : rq.links.Represents (plug c (branch d a x (branch d b y e)))) :
    (rq.rotate d x).links.Represents (plug c (branch d (branch d a x b) y e)) := by
  obtain ⟨hc, hl, hn⟩ := represents_plug_iff.mp h
  obtain ⟨hpx, -, hxy, -, hly⟩ := linked_branch.mp hl
  obtain ⟨-, hyb, -⟩ := linked_branch.mp hly
  rw [top_branch] at hc hxy
  obtain ⟨hnt, hnc, hdisj⟩ := nodup_inorder_plug.mp hn
  obtain ⟨-, -, -, hxny, -⟩ := nodup_inorder_branch.mp hnt
  have hyx : y ≠ x := by
    rintro rfl
    exact hxny (mem_inorder_branch.mpr (.inr (.inl rfl)))
  have hchild : rq.links.child d y ≠ some x := by
    rw [hyb]
    exact fun hxb => hxny (mem_inorder_branch.mpr (.inl (mem_inorder_of_top hxb)))
  rw [represents_plug_iff, top_branch]
  refine ⟨linkedCtx_rotate hxy hyx hchild hc hpx hnc fun z hz => ⟨?_, ?_, fun hzb => ?_⟩,
    linked_rotate hl hnt fun z hz hcz => hdisj hz (mem_ctxElems_of_above hcz), ?_⟩
  · rintro rfl
    exact hdisj (by simp [mem_inorder_branch]) hz
  · rintro rfl
    exact hdisj (by simp [mem_inorder_branch]) hz
  · rw [hyb] at hzb
    exact hdisj (by simp [mem_inorder_branch, mem_inorder_of_top hzb]) hz
  · rw [inorder_plug_congr (inorder_rotate d a b e x y)]
    exact hn

/-- **A rotation keeps the in-order list**, at any element of the tree. -/
theorem exists_represents_rotate {t : BinaryTree PcbId} (h : rq.links.Represents t)
    (d : Side) {x : PcbId} (hx : x ∈ t.inorder) :
    ∃ t', (rq.rotate d x).links.Represents t' ∧ t'.inorder = t.inorder := by
  obtain ⟨c, a, s, rfl⟩ := exists_plug_of_mem d hx
  cases s with
  | nil =>
      obtain ⟨-, hl, -⟩ := represents_plug_iff.mp h
      have hnone := (linked_branch.mp hl).2.2.1
      rw [rotate_of_child_none hnone]
      exact ⟨_, h, rfl⟩
  | node y l r =>
      obtain ⟨b, e, hs⟩ := exists_branch_of_top d (top_node y l r)
      rw [hs] at h ⊢
      exact ⟨_, represents_rotate h, inorder_plug_congr (inorder_rotate d a b e x y)⟩

/-! ## Replacing a node -/

/-- **`RbReplaceNode` by the only child** takes the node out of the tree. -/
theorem represents_rbReplaceNode {d : Side} {c : Ctx PcbId} {a : BinaryTree PcbId}
    {x : PcbId} (h : rq.links.Represents (plug c (branch d nil x a))) :
    (rq.rbReplaceNode x (top a)).links.Represents (plug c a) := by
  obtain ⟨hc, hl, hn⟩ := represents_plug_iff.mp h
  obtain ⟨hpx, -, -, -, hla⟩ := linked_branch.mp hl
  obtain ⟨hnt, hnc, hdisj⟩ := nodup_inorder_plug.mp hn
  obtain ⟨-, hna, -, hxa, -⟩ := nodup_inorder_branch.mp hnt
  have hxc : x ∉ ctxElems c := fun hx => hdisj (by simp [mem_inorder_branch]) hx
  have hac : ∀ z ∈ a.inorder, z ∉ ctxElems c := fun z hz =>
    fun hzc => hdisj (by simp [mem_inorder_branch, hz]) hzc
  have hfinal : (rq.rbReplaceNode x (top a)).links =
      (rq.links.redirect .left (above c) x (top a)).setParent? (top a) (above c) := by
    simp [rbReplaceNode, hpx]
  rw [top_branch] at hc
  rw [represents_plug_iff, hfinal]
  refine ⟨?_, ?_, ?_⟩
  · refine (hc.redirect hnc hxc .left).congr (by simp) (fun z _ i => by simp) fun z hz => ?_
    have hza : top a ≠ some z := fun hza => hac z (mem_inorder_of_top hza) hz
    simp [setParent?_parent, hza]
  · refine hla.reparent hna (fun z hz i => ?_) (fun z hz hza => ?_) fun z hza => ?_
    · have hzc : above c ≠ some z := fun hzc => hac z hz (mem_ctxElems_of_above hzc)
      simp [redirect_child_of_ne _ hzc]
    · simp [setParent?_parent, hza]
    · simp [setParent?_parent, hza]
  · rw [nodup_inorder_plug]
    exact ⟨hna, hnc, fun z hz hzc => hac z hz hzc⟩

/-- **`y` in the place of `z`**, with the left subtree of `z` and its own right
subtree. -/
theorem represents_takePlace {c : Ctx PcbId} {u r : BinaryTree PcbId} {y z : PcbId}
    (hc : LinkedCtx rq.links c (some z)) (hpz : rq.links.parent z = above c)
    (hzu : rq.links.child .left z = top u) (hu : Linked rq.links (some z) u)
    (hyr : rq.links.child .right y = top r) (hr : Linked rq.links (some y) r)
    (hn : (plug c (branch .left u y r)).inorder.Nodup)
    (hz : z ∉ (plug c (branch .left u y r)).inorder) :
    (rq.takePlace z y).links.Represents (plug c (branch .left u y r)) := by
  obtain ⟨hnt, hnc, hdisj⟩ := nodup_inorder_plug.mp hn
  obtain ⟨hnu, -, hyu, hyr', hdur⟩ := nodup_inorder_branch.mp hnt
  rw [mem_inorder_plug, mem_inorder_branch, not_or, not_or, not_or] at hz
  obtain ⟨⟨hzu', hzy, hzr⟩, hzc⟩ := hz
  have hctx : ∀ w ∈ ctxElems c, w ≠ y ∧ top u ≠ some w := by
    intro w hw
    refine ⟨?_, fun hwu => ?_⟩
    · rintro rfl
      exact hdisj (by simp [mem_inorder_branch]) hw
    · exact hdisj (mem_inorder_branch.mpr (.inl (mem_inorder_of_top hwu))) hw
  have hup : ∀ w ∈ (branch .left u y r).inorder, above c ≠ some w :=
    fun w hw hcw => hdisj hw (mem_ctxElems_of_above hcw)
  have hyup : above c ≠ some y := hup y (by simp [mem_inorder_branch])
  have hzup : above c ≠ some z := fun h => hzc (mem_ctxElems_of_above h)
  have hyu' : top u ≠ some y := fun h => hyu (mem_inorder_of_top h)
  have hfinal : (rq.takePlace z y).links =
      (((rq.links.redirect .left (above c) z (some y)).setParent y (above c)).setChild .left y
        (top u)).setParent? (top u) (some y) := by
    simp [takePlace, rbReplaceNode, rbSetParent, hpz, setParent?, setChild_child, hzy,
      redirect_child_of_ne _ hzup, hzu]
  rw [represents_plug_iff, top_branch, linked_branch, hfinal]
  refine ⟨?_, ⟨?_, ?_, ?_, ?_, ?_⟩, hn⟩
  · refine (hc.redirect hnc hzc .left).congr (by simp) (fun w hw i => ?_) fun w hw => ?_
    · simp [setChild_child, (hctx w hw).1]
    · simp [setParent?_parent, setParent_parent, (hctx w hw).1, (hctx w hw).2]
  · simp [setParent?_parent, setParent_parent, hyu']
  · simp [setChild_child]
  · simp [setChild_child, redirect_child_of_ne _ hyup, hyr]
  · refine hu.reparent hnu (fun w hw i => ?_) (fun w hw hwu => ?_) fun w hwu => ?_
    · have hwy : w ≠ y := fun h => hyu (h ▸ hw)
      have hwc : above c ≠ some w := hup w (mem_inorder_branch.mpr (.inl hw))
      simp [setChild_child, hwy, redirect_child_of_ne _ hwc]
    · have hwy : w ≠ y := fun h => hyu (h ▸ hw)
      simp [setParent?_parent, setParent_parent, hwu, hwy]
    · simp [setParent?_parent, hwu]
  · refine hr.congr (fun w hw i => ?_) fun w hw => ?_
    · have hwy : w ≠ y := fun h => hyr' (h ▸ hw)
      have hwc : above c ≠ some w := hup w (mem_inorder_branch.mpr (.inr (.inr hw)))
      simp [setChild_child, hwy, redirect_child_of_ne _ hwc]
    · have hwy : w ≠ y := fun h => hyr' (h ▸ hw)
      have hwu : top u ≠ some w := fun h => hdur (mem_inorder_of_top h) hw
      simp [setParent?_parent, setParent_parent, hwu, hwy]

/-- **The successor in the place of the node.**  With `y` at the left end of the right
subtree of `z`, its right subtree `b` is left there and `y` takes the place of `z`. -/
theorem represents_takePlace_detachSuccessor {c cr : Ctx PcbId} {u b : BinaryTree PcbId}
    {y z : PcbId} (hcr : before cr = [])
    (h : rq.links.Represents (plug c (branch .left u z (plug cr (branch .left nil y b))))) :
    ((rq.detachSuccessor z y).takePlace z y).links.Represents
      (plug c (branch .left u y (plug cr b))) := by
  obtain ⟨hc, hl, hn⟩ := represents_plug_iff.mp h
  obtain ⟨hpz, hzu, hzr, hlu, hlr⟩ := linked_branch.mp hl
  rw [top_branch] at hc
  have hlist : ∀ x xs, (plug c (branch .left u x (plug cr xs))).inorder =
      (before c ++ u.inorder) ++ x :: (xs.inorder ++ (after cr ++ after c)) := by
    intro x xs
    rw [inorder_plug, branch, inorder_node, inorder_plug, hcr]
    simp
  have hrest : (plug c (branch .left u y (plug cr b))).inorder.Nodup ∧
      z ∉ (plug c (branch .left u y (plug cr b))).inorder := by
    rw [hlist, List.nodup_middle, List.nodup_cons] at hn
    rw [hlist]
    exact ⟨hn.2, hn.1⟩
  obtain ⟨hpy, -, hyb, -, hlb⟩ := linked_branch.mp (represents_plug_iff.mp
    ((plug_append cr (⟨.right, z, u⟩ :: c) _).symm ▸ h)).2.1
  rw [Side.opp_left] at hyb
  -- the right subtree of `y` already hangs from `y`
  have hself : rq.rbSetParent (rq.links.child .right y) (some y) = rq := by
    rw [rbSetParent, hyb, hlb.setParent?_top]
  cases cr with
  | nil =>
      have hpz' : rq.links.parent y = some z := hpy
      have hdetach : rq.detachSuccessor z y = rq := by
        simp only [detachSuccessor, hself]
        rw [if_pos hpz']
      rw [hdetach]
      exact represents_takePlace hc hpz hzu hlu hyb hlb hrest.1 hrest.2
  | cons f cr =>
      have h₁ : (rq.rbReplaceNode y (top b)).links.Represents
          (plug c (branch .left u z (plug (f :: cr) b))) := by
        have := @represents_rbReplaceNode rq .left (f :: cr ++ ⟨.right, z, u⟩ :: c) b y
        rw [plug_append, plug_append] at this
        exact this h
      obtain ⟨hc₁, hl₁, hn₁⟩ := represents_plug_iff.mp h₁
      obtain ⟨hpz₁, hzu₁, hzr₁, hlu₁, hlr₁⟩ := linked_branch.mp hl₁
      obtain ⟨hnt, -, hdisj⟩ := nodup_inorder_plug.mp hrest.1
      obtain ⟨-, hnr, hyu, hyr, hdur⟩ := nodup_inorder_branch.mp hnt
      rw [top_branch] at hc₁
      set r := plug (f :: cr) b with hr
      obtain ⟨hzu', hzr', hzc⟩ : z ∉ u.inorder ∧ z ∉ r.inorder ∧ z ∉ ctxElems c := by
        have hz := hrest.2
        rw [mem_inorder_plug, mem_inorder_branch, not_or, not_or, not_or] at hz
        exact ⟨hz.1.1, hz.1.2.2, hz.2⟩
      have hzy : z ≠ y := by
        rintro rfl
        exact hrest.2 (by simp [mem_inorder_plug, mem_inorder_branch])
      have hpy' : rq.links.parent y ≠ some z := by
        rw [hpy]
        exact fun hfz => hzr' (mem_inorder_plug.mpr (.inr (mem_ctxElems_of_above hfz)))
      have hdetach : (rq.detachSuccessor z y).links =
          ((rq.rbReplaceNode y (top b)).links.setChild .right y (top r)).setParent? (top r)
            (some y) := by
        rw [Side.opp_left] at hzr₁
        simp only [detachSuccessor, hself]
        rw [if_neg hpy', hyb]
        simp [rbSetParent, setChild_child, hzy, hzr₁]
      have htop : ∀ w, w ∉ r.inorder → top r ≠ some w := fun w hw hrw =>
        hw (mem_inorder_of_top hrw)
      refine represents_takePlace ?_ ?_ ?_ ?_ ?_ ?_ hrest.1 hrest.2
      all_goals rw [hdetach]
      · refine hc₁.congr (by simp) (fun w hw i => ?_) fun w hw => ?_
        · have hwy : w ≠ y := by
            rintro rfl
            exact hdisj (by simp [mem_inorder_branch]) hw
          simp [setChild_child, hwy]
        · have hwr : w ∉ r.inorder := fun hwr =>
            hdisj (by simp [mem_inorder_branch, hwr]) hw
          simp [setParent?_parent, htop w hwr]
      · simp [setParent?_parent, htop z hzr', hpz₁]
      · simp [setChild_child, hzy, hzu₁]
      · refine hlu₁.congr (fun w hw i => ?_) fun w hw => ?_
        · have hwy : w ≠ y := fun h => hyu (h ▸ hw)
          simp [setChild_child, hwy]
        · simp [setParent?_parent, htop w (fun hwr => hdur hw hwr)]
      · simp [setChild_child]
      · refine hlr₁.reparent hnr (fun w hw i => ?_) (fun w hw hwr => ?_) fun w hwr => ?_
        · have hwy : w ≠ y := fun h => hyr (h ▸ hw)
          simp [setChild_child, hwy]
        · simp [setParent?_parent, hwr]
        · simp [setParent?_parent, hwr]

/-! ## The loops that walk down -/

/-- The walk down the left links ends at the first element of the in-order list. -/
theorem leftEnd_returns {t : BinaryTree PcbId} {p : Option PcbId} {x y : PcbId}
    {ys : List PcbId} {fuel : Nat} (h : rq.links.Linked p t) (hx : top t = some x)
    (hy : t.inorder = y :: ys) (hfuel : t.numNodes < fuel) :
    rq.leftEnd fuel x = .ok y := by
  let I : Nat → PcbId → Prop := fun k x => ∃ p t ys, rq.links.Linked p t ∧
    top t = some x ∧ t.inorder = y :: ys ∧ t.numNodes = k
  have hturn : ∀ k x, I k x →
      ∃ u, rq.leftTurn x = .ok u ∧ u.Meets (fun z => ∃ j, j < k ∧ I j z) (· = y) := by
    rintro k x ⟨p, t, ys, h, hx, hy, rfl⟩
    obtain ⟨a, b, rfl⟩ := exists_branch_of_top .left hx
    obtain ⟨-, hxa, -, ha, -⟩ := linked_branch.mp h
    rw [leftTurn, hxa]
    cases ha' : a.inorder with
    | nil =>
        rw [branch, inorder_node, ha', List.nil_append, List.cons.injEq] at hy
        have htop : top a = none := by
          cases a with
          | nil => rfl
          | node z l r => simp at ha'
        rw [htop]
        exact ⟨.leave x, rfl, hy.1⟩
    | cons w ws =>
        obtain ⟨z, hz⟩ : ∃ z, top a = some z := by
          cases a with
          | nil => cases ha'
          | node z l r => exact ⟨z, rfl⟩
        have hwy : w = y := by
          rw [branch, inorder_node, ha', List.cons_append, List.cons.injEq] at hy
          exact hy.1
        rw [hz]
        refine ⟨.again z, rfl, a.numNodes, ?_, some x, a, ws, ha, hz, by rw [ha', hwy], rfl⟩
        rw [branch, numNodes]
        omega
  obtain ⟨r, hr, hry⟩ : ∃ r, rq.leftEnd fuel x = .ok r ∧ r = y :=
    loop_returns hturn ⟨p, t, ys, h, hx, hy, rfl⟩ hfuel
  rw [hr, hry]

theorem leftEnd_steady (rq : Rq) (x : PcbId) : Steady fun n => rq.leftEnd n x :=
  Steady.loop _ _ _

/-- `leftmost` and `min_vruntime` after the tree has changed: the first task of the
in-order list. -/
structure Leftmost (rq : Rq) (xs : List PcbId) : Prop where
  leftmost : rq.leftmost = xs.head?
  minVruntime : ∀ y, xs.head? = some y → rq.minVruntime = rq.vruntime y

theorem updateLeftmost_returns {t : BinaryTree PcbId} {root : PcbId} {fuel : Nat}
    (h : rq.links.Represents t) (hroot : rq.links.root = some root)
    (hfuel : t.numNodes < fuel) :
    ∃ rq', rq.updateLeftmost fuel root = .ok rq' ∧ rq'.links = rq.links ∧
      rq'.isRed = rq.isRed ∧ rq'.vruntime = rq.vruntime ∧ Leftmost rq' t.inorder := by
  rw [h.root] at hroot
  cases hy : t.inorder with
  | nil =>
      obtain ⟨a, b, rfl⟩ := exists_branch_of_top .left hroot
      simp [branch] at hy
  | cons y ys =>
      refine ⟨{ rq with leftmost := some y, minVruntime := rq.vruntime y }, ?_, rfl, rfl, rfl,
        rfl, ?_⟩
      · rw [updateLeftmost, leftEnd_returns h.linked hroot hy hfuel]
        rfl
      · intro z hz
        rw [List.head?_cons, Option.some.injEq] at hz
        rw [hz]

/-- The context `c` is the way down of a search for the key `k`. -/
def SearchCtx (vruntime : PcbId → Nat) (k : Nat) (c : Ctx PcbId) : Prop :=
  ∀ f ∈ c, f.side = .left ↔ k < vruntime f.elem

/-- The search loop of `RbInsert` ends above a hole of the tree. -/
theorem search_returns {t : BinaryTree PcbId} {node : PcbId} {fuel : Nat}
    (h : rq.links.Represents t) (hfuel : t.numNodes < fuel) :
    ∃ c, t = plug c nil ∧ SearchCtx rq.vruntime (rq.vruntime node) c ∧
      loop (rq.searchTurn node) Fault.outOfFuel fuel (rq.links.root, none) =
        .ok (above c) := by
  let I : Nat → Option PcbId × Option PcbId → Prop := fun k st => ∃ c s,
    st = (top s, above c) ∧ t = plug c s ∧
      SearchCtx rq.vruntime (rq.vruntime node) c ∧ s.numNodes = k
  let Q : Option PcbId → Prop := fun y => ∃ c, t = plug c nil ∧
    SearchCtx rq.vruntime (rq.vruntime node) c ∧ y = above c
  have hturn : ∀ k st, I k st → ∃ u, rq.searchTurn node st = .ok u ∧
      u.Meets (fun z => ∃ j, j < k ∧ I j z) Q := by
    rintro k st ⟨c, s, rfl, ht, hc, rfl⟩
    cases s with
    | nil => exact ⟨.leave (above c), rfl, c, ht, hc, rfl⟩
    | node x a b =>
        have hsub := (represents_plug_iff.mp (ht ▸ h)).2.1
        obtain ⟨-, hxa, hxb, -, -⟩ := hsub
        rw [top_node, searchTurn]
        by_cases hlt : rq.vruntime node < rq.vruntime x
        · rw [if_pos hlt, hxa]
          refine ⟨_, rfl, a.numNodes, by rw [numNodes]; omega, ⟨.left, x, b⟩ :: c, a, rfl,
            ht, ?_, rfl⟩
          intro f hf
          rcases List.mem_cons.mp hf with rfl | hf
          · exact ⟨fun _ => hlt, fun _ => rfl⟩
          · exact hc f hf
        · rw [if_neg hlt, hxb]
          refine ⟨_, rfl, b.numNodes, by rw [numNodes]; omega, ⟨.right, x, a⟩ :: c, b, rfl,
            ht, ?_, rfl⟩
          intro f hf
          rcases List.mem_cons.mp hf with rfl | hf
          · exact ⟨fun h => Side.noConfusion h, fun h => absurd h hlt⟩
          · exact hc f hf
  have hstart : I t.numNodes (rq.links.root, none) :=
    ⟨[], t, by rw [h.root]; rfl, rfl, by simp [SearchCtx], rfl⟩
  obtain ⟨y, hy, c, ht, hc, hyc⟩ : ∃ r, loop (rq.searchTurn node) Fault.outOfFuel fuel
      (rq.links.root, none) = .ok r ∧ Q r := loop_returns hturn hstart hfuel
  exact ⟨c, ht, hc, by rw [hy, hyc]⟩

/-! ## Linking the new node -/

theorem attach_links {c : Ctx PcbId} {node : PcbId}
    (hs : SearchCtx rq.vruntime (rq.vruntime node) c) :
    (rq.attach node (above c)).links =
      (rq.links.setParent node (above c)).setHole c (some node) := by
  cases c with
  | nil => rfl
  | cons f c =>
      obtain ⟨d, x, s⟩ := f
      have hside := hs _ (List.mem_cons_self ..)
      simp only at hside
      rw [above_cons]
      by_cases hlt : rq.vruntime node < rq.vruntime x
      · have hatt : (rq.attach node (some x)).links =
            (rq.links.setParent node (some x)).setChild .left x (some node) :=
          congrArg Rq.links (if_pos hlt)
        rw [hatt, hside.mpr hlt]
        rfl
      · have hatt : (rq.attach node (some x)).links =
            (rq.links.setParent node (some x)).setChild .right x (some node) :=
          congrArg Rq.links (if_neg hlt)
        have hd : d = .right := by
          cases d
          · exact absurd (hside.mp rfl) hlt
          · rfl
        rw [hatt, hd]
        rfl

theorem attach_isRed (node y : PcbId) : (rq.attach node (some y)).isRed = rq.isRed := by
  rw [attach]
  split <;> rfl

@[simp] theorem attach_vruntime (node : PcbId) (y : Option PcbId) :
    (rq.attach node y).vruntime = rq.vruntime := by
  cases y with
  | none => rfl
  | some y => rw [attach]; split <;> rfl

/-- Initializing a node that is not in the tree. -/
theorem represents_rbInitNode {t : BinaryTree PcbId} {node : PcbId}
    (h : rq.links.Represents t) (hnode : node ∉ t.inorder) :
    (rq.rbInitNode node).links.Represents t := by
  have hne : ∀ w ∈ t.inorder, w ≠ node := fun w hw h => hnode (h ▸ hw)
  refine h.congr rfl (fun w hw i => ?_) fun w hw => ?_
  · simp [rbInitNode, setChild_child, hne w hw]
  · simp [rbInitNode, setParent_parent, hne w hw]

/-- **The new node hangs in the hole** where the search has ended. -/
theorem represents_attach {c : Ctx PcbId} {node : PcbId}
    (h : rq.links.Represents (plug c nil)) (hnode : node ∉ (plug c nil).inorder)
    (hs : SearchCtx rq.vruntime (rq.vruntime node) c) :
    ((rq.rbInitNode node).attach node (above c)).links.Represents
      (plug c (branch .left nil node nil)) := by
  obtain ⟨hc, -, hn⟩ := represents_plug_iff.mp h
  obtain ⟨-, hnc, -⟩ := nodup_inorder_plug.mp hn
  have hnodec : node ∉ ctxElems c := fun hx => hnode (mem_inorder_plug.mpr (.inr hx))
  have hne : ∀ w ∈ ctxElems c, w ≠ node := fun w hw h => hnodec (h ▸ hw)
  have hinit : LinkedCtx ((rq.rbInitNode node).links.setParent node (above c)) c none := by
    refine (represents_plug_iff.mp (represents_rbInitNode h hnode)).1.congr rfl
      (fun w _ i => rfl) fun w hw => ?_
    rw [setParent_parent, if_neg (hne w hw)]
  rw [represents_plug_iff, @attach_links (rq.rbInitNode node) c node hs]
  refine ⟨hinit.setHole hnc _, ?_, ?_⟩
  · have hchild : ∀ i, (((rq.rbInitNode node).links.setParent node (above c)).setHole c
        (some node)).child i node = none := by
      intro i
      cases c with
      | nil =>
          cases i <;> simp [setHole, setRoot, rbInitNode, setChild_child]
      | cons f c =>
          have hf : node ≠ f.elem := fun h => hne f.elem (mem_ctxElems_of_above rfl) h.symm
          cases i <;> simp [setHole, rbInitNode, setChild_child, hf]
    refine ⟨?_, hchild _, hchild _, trivial, trivial⟩
    cases c with
    | nil => simp [setHole, setRoot, setParent_parent]
    | cons f c => simp [setHole, setParent_parent]
  · rw [nodup_inorder_plug]
    refine ⟨by simp [branch], hnc, ?_⟩
    simpa [branch] using hnodec

/-! ## Unlinking a node -/

/-- A node that lacks a child leaves its place to the other one. -/
theorem unlink_lacking {d : Side} {z : PcbId} (hd : rq.links.child d z = none) (fuel : Nat) :
    rq.unlink fuel z = .ok (rq.unlinkNode z (rq.links.child d.opp z)) := by
  cases d with
  | left =>
      rw [unlink, hd]
      rfl
  | right =>
      obtain ⟨l, hl⟩ : ∃ l, rq.links.child .left z = l := ⟨_, rfl⟩
      rw [unlink, hd, Side.opp_right, hl]
      cases l <;> rfl

theorem unlink_of_child_none {d : Side} {c : Ctx PcbId} {a : BinaryTree PcbId} {z : PcbId}
    (h : rq.links.Represents (plug c (branch d nil z a))) (fuel : Nat) :
    rq.unlink fuel z = .ok (rq.unlinkNode z (top a)) := by
  obtain ⟨-, hd, ho, -, -⟩ := linked_branch.mp (represents_plug_iff.mp h).2.1
  rw [unlink_lacking hd, ho]

/-- A node with two children, and its successor at the left end of the right subtree. -/
theorem children_of_successor {c cr : Ctx PcbId} {u b : BinaryTree PcbId} {y z : PcbId}
    (hu : u ≠ nil) (hcr : before cr = [])
    (h : rq.links.Represents (plug c (branch .left u z (plug cr (branch .left nil y b)))))
    {fuel : Nat} (hfuel : (plug cr (branch .left nil y b)).numNodes < fuel) :
    ∃ v w, rq.links.child .left z = some v ∧ rq.links.child .right z = some w ∧
      rq.leftEnd fuel w = .ok y := by
  obtain ⟨-, hzu, hzr, -, hr⟩ := linked_branch.mp (represents_plug_iff.mp h).2.1
  obtain ⟨v, hv⟩ : ∃ v, top u = some v := by
    cases u with
    | nil => exact absurd rfl hu
    | node v l r => exact ⟨v, rfl⟩
  have hin : (plug cr (branch .left nil y b)).inorder = y :: (b.inorder ++ after cr) := by
    rw [inorder_plug, hcr, branch, inorder_node]
    rfl
  obtain ⟨w, hw⟩ : ∃ w, top (plug cr (branch .left nil y b)) = some w := by
    cases hr' : plug cr (branch .left nil y b) with
    | nil => rw [hr'] at hin; cases hin
    | node w l r => exact ⟨w, rfl⟩
  exact ⟨v, w, hzu.trans hv, hzr.trans hw, leftEnd_returns hr hw hin hfuel⟩

/-- The two ways a node of a tree can be unlinked: it lacks a child, or it has both and
`y` is its successor. -/
theorem unlink_cases {t : BinaryTree PcbId} {z : PcbId} (hz : z ∈ t.inorder) :
    (∃ c d a, t = plug c (branch d nil z a)) ∨
      ∃ c cr u b y, t = plug c (branch .left u z (plug cr (branch .left nil y b))) ∧
        u ≠ nil ∧ before cr = [] := by
  obtain ⟨c, u, r, rfl⟩ := exists_plug_of_mem .left hz
  by_cases hu : u = nil
  · exact .inl ⟨c, .left, r, by rw [hu]⟩
  · cases hr : r.inorder with
    | nil =>
        refine .inl ⟨c, .right, u, ?_⟩
        cases r with
        | nil => rfl
        | node w l r => simp at hr
    | cons y ys =>
        obtain ⟨cr, b, hcr, hb, -⟩ := exists_plug_of_inorder_cons hr
        exact .inr ⟨c, cr, u, b, y, by rw [hcr], hu, hb⟩

/-- The node that `RbErase` takes out of its place in the tree: `node` itself if it lacks
a child, else its successor. -/
def splicedOut (rq : Rq) (fuel : Nat) (node : PcbId) : Except Fault PcbId :=
  match rq.links.child .left node, rq.links.child .right node with
  | none, _ => .ok node
  | some _, none => .ok node
  | some _, some right => rq.leftEnd fuel right

theorem splicedOut_of_child_none {d : Side} {z : PcbId} (h : rq.links.child d z = none)
    (fuel : Nat) : rq.splicedOut fuel z = .ok z := by
  rw [splicedOut]
  cases d
  · rw [h]
  · rw [h]
    cases rq.links.child .left z <;> rfl

theorem splicedOut_steady (rq : Rq) (z : PcbId) : Steady fun n => rq.splicedOut n z := by
  unfold splicedOut
  split
  · exact Steady.const _
  · exact Steady.const _
  · exact leftEnd_steady rq _

/-- What `RbErase` has done when it has unlinked `z`: the spliced out `y`, at the place
`c`, `a`, is gone from there, and `z` from the in-order list. -/
structure UnlinkedFrom (rq : Rq) (t : BinaryTree PcbId) (z : PcbId) (rq' : Rq)
    (u : Unlinked) (d : Side) (c c' : Ctx PcbId) (y : PcbId) (a : BinaryTree PcbId) :
    Prop where
  before : t = plug c (branch d nil y a)
  tree : rq'.links.Represents (plug c' a)
  elems : (plug c' a).inorder = t.inorder.erase z
  colors : SameColors rq.isRed rq'.isRed c c'
  agree : ∀ w ∈ a.inorder, rq'.isRed w = rq.isRed w
  vruntime : rq'.vruntime = rq.vruntime
  x : u.x = top a
  xParent : ∀ p, u.xParent = some p → p ∈ (plug c' a).inorder
  red : u.yOriginalRed = rq.isRed y

/-- **`RbErase` unlinks the node**, and the successor's place is filled by its child. -/
theorem unlink_returns {t : BinaryTree PcbId} {z : PcbId} (h : rq.links.Represents t)
    (hz : z ∈ t.inorder) {fuel : Nat} (hfuel : t.numNodes < fuel) :
    ∃ rq' u d c c' y a, rq.unlink fuel z = .ok (rq', u) ∧ rq.splicedOut fuel z = .ok y ∧
      UnlinkedFrom rq t z rq' u d c c' y a := by
  rcases unlink_cases hz with ⟨c, d, a, rfl⟩ | ⟨c, cr, u, b, y, rfl, hu, hcr⟩
  · obtain ⟨hc, hl, hn⟩ := represents_plug_iff.mp h
    obtain ⟨hpz, hd, -⟩ := linked_branch.mp hl
    have hrep := represents_rbReplaceNode h
    refine ⟨_, _, d, c, c, z, a, unlink_of_child_none h fuel,
      splicedOut_of_child_none hd fuel, rfl, hrep, ?_, ?_, ?_, rfl, rfl, ?_, rfl⟩
    · exact (inorder_plug_erase hn).symm
    · exact sameColors_of_agree fun w _ => rfl
    · exact fun w _ => rfl
    · intro p hp
      have hp : rq.links.parent z = some p := hp
      rw [hpz] at hp
      exact mem_inorder_plug.mpr (.inr (mem_ctxElems_of_above hp))
  · have hn := h.nodup
    have hnum : (plug cr (branch .left nil y b)).numNodes < fuel := by
      have h₁ := length_add_numNodes_le c
        (branch .left u z (plug cr (branch .left nil y b)))
      have h₂ : (branch .left u z (plug cr (branch .left nil y b))).numNodes =
          u.numNodes + (plug cr (branch .left nil y b)).numNodes + 1 := rfl
      omega
    obtain ⟨v, w, hv, hw, hend⟩ := children_of_successor hu hcr h hnum
    have hlist : ∀ x s, (plug c (branch .left u x (plug cr s))).inorder =
        (before c ++ u.inorder) ++ x :: (s.inorder ++ (after cr ++ after c)) := by
      intro x s
      rw [inorder_plug, branch, inorder_node, inorder_plug, hcr]
      simp
    have helems : (plug c (branch .left u y (plug cr b))).inorder =
        (plug c (branch .left u z (plug cr (branch .left nil y b)))).inorder.erase z := by
      rw [hlist] at hn
      rw [hlist, hlist, erase_middle hn, branch, inorder_node]
      simp
    have hrep := represents_takePlace_detachSuccessor hcr h
    obtain ⟨hzy, hnew⟩ : z ≠ y ∧
        ∀ w, w ∈ b.inorder ∨ w ∈ u.inorder ∨ w ∈ ctxElems c ∨ w ∈ ctxElems cr → w ≠ y := by
      obtain ⟨hnt, -, hdisj⟩ := nodup_inorder_plug.mp hrep.nodup
      obtain ⟨-, -, hyu, hyr, -⟩ := nodup_inorder_branch.mp hnt
      refine ⟨?_, ?_⟩
      · rintro rfl
        have hz' : z ∈ (plug c (branch .left u z (plug cr b))).inorder := by
          rw [hlist]
          simp
        rw [helems] at hz'
        exact hn.not_mem_erase hz'
      · rintro w (hw | hw | hw | hw) rfl
        · exact hyr (mem_inorder_plug.mpr (.inl hw))
        · exact hyu hw
        · exact hdisj (mem_inorder_branch.mpr (.inr (.inl rfl))) hw
        · exact hyr (mem_inorder_plug.mpr (.inr hw))
    have hcolor : ((rq.unlinkSuccessor z y).1).isRed =
        Function.update rq.isRed y (rq.isRed z) := by
      simp [unlinkSuccessor, hzy]
    refine ⟨(rq.unlinkSuccessor z y).1, (rq.unlinkSuccessor z y).2, .left,
      cr ++ ⟨.right, z, u⟩ :: c, cr ++ ⟨.right, y, u⟩ :: c, y, b, ?_, ?_, ?_, ?_, ?_, ?_, ?_,
      ?_, ?_, ?_, rfl⟩
    · rw [unlink, hv, hw]
      simp only [hend]
      rfl
    · rw [splicedOut, hv, hw]
      exact hend
    · rw [plug_append]
      rfl
    · rw [plug_append]
      simp only [unlinkSuccessor, setColor_links, rbSetBlack_links]
      exact hrep
    · rw [plug_append]
      exact helems
    · rw [hcolor]
      refine sameColors_replace (sameColors_of_agree fun w hw => ?_)
        (sameColors_of_agree fun w hw => ?_) (Function.update_self ..) fun w hw => ?_
      all_goals exact Function.update_of_ne (hnew w (by tauto)) _ _
    · intro w hw
      rw [hcolor]
      exact Function.update_of_ne (hnew w (.inl hw)) _ _
    · simp [unlinkSuccessor]
    · have hsub := (represents_plug_iff.mp
        ((plug_append cr (⟨.right, z, u⟩ :: c) _).symm ▸ h)).2.1
      exact (linked_branch.mp hsub).2.2.1
    · intro p hp
      obtain rfl : y = p := Option.some.inj hp
      rw [plug_append, plug_cons]
      exact mem_inorder_plug.mpr (.inl (mem_inorder_branch.mpr (.inr (.inl rfl))))

/-! ## Repairs keep the in-order list

Both repairs change colours and rotate at tasks of the tree, and nothing else.  So
whatever the colours are, the in-order list is the same when the repair has ended. -/

/-- The tree has the in-order list `xs`, and the tasks have the vruntimes `v`. -/
def HasOrder (xs : List PcbId) (v : PcbId → Nat) (rq : Rq) : Prop :=
  (∃ t, rq.links.Represents t ∧ t.inorder = xs) ∧ rq.vruntime = v

namespace HasOrder

variable {xs : List PcbId} {v : PcbId → Nat}

theorem rbSetRed (h : HasOrder xs v rq) (x : Option PcbId) : HasOrder xs v (rq.rbSetRed x) := by
  simpa [HasOrder] using h

theorem rbSetBlack (h : HasOrder xs v rq) (x : Option PcbId) :
    HasOrder xs v (rq.rbSetBlack x) := by
  simpa [HasOrder] using h

theorem rotate (h : HasOrder xs v rq) (d : Side) {x : PcbId} (hx : x ∈ xs) :
    HasOrder xs v (rq.rotate d x) := by
  obtain ⟨⟨t, ht, rfl⟩, hv⟩ := h
  exact ⟨exists_represents_rotate ht d hx, by rw [rotate_vruntime, hv]⟩

theorem child_mem (h : HasOrder xs v rq) {x y : PcbId} (hx : x ∈ xs) {d : Side}
    (hy : rq.links.child d x = some y) : y ∈ xs := by
  obtain ⟨⟨t, ht, rfl⟩, -⟩ := h
  exact (ht.closed hx).1 d y hy

theorem parent_mem (h : HasOrder xs v rq) {x y : PcbId} (hx : x ∈ xs)
    (hy : rq.links.parent x = some y) : y ∈ xs := by
  obtain ⟨⟨t, ht, rfl⟩, -⟩ := h
  exact (ht.closed hx).2 y hy

theorem insertFixupSide (h : HasOrder xs v rq) (d : Side) {node p g : PcbId}
    (hnode : node ∈ xs) (hp : p ∈ xs) (hg : g ∈ xs) :
    HasOrder xs v (rq.insertFixupSide d node p g).1 ∧
      (rq.insertFixupSide d node p g).2 ∈ xs := by
  unfold Rq.insertFixupSide
  simp only
  split
  · exact ⟨((h.rbSetBlack _).rbSetBlack _).rbSetRed _, hg⟩
  · split
    · exact ⟨(((h.rotate d hp).rbSetBlack _).rbSetRed _).rotate d.opp hg, hp⟩
    · exact ⟨((h.rbSetBlack _).rbSetRed _).rotate d.opp hg, hnode⟩

theorem rbInsertColorFixup (h : HasOrder xs v rq) {node : PcbId} (hnode : node ∈ xs)
    {fuel : Nat} {rq' : Rq} (hr : rq.rbInsertColorFixup fuel node = .ok rq') :
    HasOrder xs v rq' := by
  rw [Rq.rbInsertColorFixup, bind_eq_ok_iff] at hr
  obtain ⟨rq₁, hloop, hr⟩ := hr
  have h₁ : HasOrder xs v rq₁ := by
    let I : Rq × PcbId → Prop := fun st => HasOrder xs v st.1 ∧ st.2 ∈ xs
    refine loop_post (I := I) (fun st u hI hu => ?_) ⟨h, hnode⟩ hloop
    obtain ⟨rq, node⟩ := st
    obtain ⟨h, hnode⟩ := hI
    rw [insertFixupTurn] at hu
    split at hu
    · exact .leave hu h
    · next p hp =>
      have hp := h.parent_mem hnode hp
      split at hu
      · exact .leave hu h
      · split at hu
        · exact .leave hu h
        · next g hg =>
          have hg := h.parent_mem hp hg
          split at hu
          · exact .leave hu h
          · split at hu
            · exact .again hu (h.insertFixupSide .left hnode hp hg)
            · exact .again hu (h.insertFixupSide .right hnode hp hg)
  injection hr with hr
  rw [← hr]
  exact h₁.rbSetBlack _

theorem eraseFixupSibling (h : HasOrder xs v rq) (d : Side) {p s : PcbId} (hp : p ∈ xs)
    (hs : s ∈ xs) : HasOrder xs v (rq.eraseFixupSibling d p s).1 ∧
      ∀ s', (rq.eraseFixupSibling d p s).2 = some s' → s' ∈ xs := by
  unfold Rq.eraseFixupSibling
  split
  · have h' := ((h.rbSetBlack (some s)).rbSetRed (some p)).rotate d hp
    exact ⟨h', fun s' hs' => h'.child_mem hp hs'⟩
  · exact ⟨h, fun s' hs' => Option.some.inj hs' ▸ hs⟩

theorem eraseFixupRotate (h : HasOrder xs v rq) (d : Side) {p s : PcbId} (hp : p ∈ xs)
    (hs : s ∈ xs) {rq' : Rq} (hr : rq.eraseFixupRotate d p s = .ok rq') :
    HasOrder xs v rq' := by
  unfold Rq.eraseFixupRotate at hr
  simp only at hr
  split at hr
  · split at hr
    · cases hr
    · injection hr with hr
      rw [← hr]
      exact (((((h.rbSetBlack _).rbSetRed _).rotate d.opp hs).rbSetBlack _).rbSetRed _).rotate
        d hp
  · injection hr with hr
    rw [← hr]
    exact ((h.rbSetBlack _).rbSetRed _).rotate d hp

/-- What the loop of `RbEraseColorFixup` keeps: the order, and that `parent` is a task of
the tree. -/
def EraseFixup (xs : List PcbId) (v : PcbId → Nat) (st : Rq.EraseFixup) : Prop :=
  HasOrder xs v st.1 ∧ ∀ p, st.2.2 = some p → p ∈ xs

theorem eraseFixupSide (h : HasOrder xs v rq) (d : Side) (node : Option PcbId) {p : PcbId}
    (hp : p ∈ xs) {u : Turn Rq.EraseFixup (Rq × Option PcbId)}
    (hu : rq.eraseFixupSide d node p = .ok u) :
    u.Meets (EraseFixup xs v) fun r => HasOrder xs v r.1 := by
  unfold Rq.eraseFixupSide at hu
  split at hu
  · exact .leave hu h
  · next s hs =>
    obtain ⟨h₁, hs₁⟩ := h.eraseFixupSibling d hp (h.child_mem hp hs)
    split at hu
    · cases hu
    · next rq₁ s₁ heq =>
      rw [heq] at h₁ hs₁
      have hs₁ := hs₁ s₁ rfl
      split at hu
      · exact .again hu ⟨h₁.rbSetRed _, fun q hq => h₁.parent_mem hp (by simpa using hq)⟩
      · split at hu
        · cases hu
        · next rq₂ hrot => exact .leave hu (h₁.eraseFixupRotate d hp hs₁ hrot)

theorem rbEraseColorFixup (h : HasOrder xs v rq) {node parent : Option PcbId}
    (hp : ∀ p, parent = some p → p ∈ xs) {fuel : Nat} {rq' : Rq}
    (hr : rq.rbEraseColorFixup fuel node parent = .ok rq') : HasOrder xs v rq' := by
  rw [Rq.rbEraseColorFixup, bind_eq_ok_iff] at hr
  obtain ⟨⟨rq₁, node₁⟩, hloop, hr⟩ := hr
  have h₁ : HasOrder xs v rq₁ := by
    refine loop_post (I := EraseFixup xs v) (Q := fun r => HasOrder xs v r.1)
      (fun st u hI hu => ?_) ⟨h, hp⟩ hloop
    obtain ⟨rq, node, parent⟩ := st
    obtain ⟨h, hp⟩ := hI
    cases parent with
    | none => exact .leave hu h
    | some p =>
        rw [eraseFixupTurn] at hu
        split at hu
        · exact .leave hu h
        · split at hu
          · exact h.eraseFixupSide .left node (hp p rfl) hu
          · exact h.eraseFixupSide .right node (hp p rfl) hu
  injection hr with hr
  rw [← hr]
  exact h₁.rbSetBlack _

end HasOrder

/-! ## More fuel

Every function of the tree gives the same result whatever fuel suffices for it. -/

theorem updateLeftmost_steady (rq : Rq) (root : PcbId) :
    Steady fun n => rq.updateLeftmost n root :=
  (leftEnd_steady rq root).bind fun _ => Steady.const _

theorem fixInserted_steady (rq : Rq) (node : PcbId) (y : Option PcbId) :
    Steady fun n => rq.fixInserted n node y := by
  cases y with
  | none => exact Steady.const _
  | some y =>
      refine Steady.ite _ ?_ (Steady.const _)
      exact (Steady.loop _ _ _).bind fun _ => Steady.const _

theorem rbInsert_steady (rq : Rq) (node : PcbId) : Steady fun n => rq.rbInsert n node := by
  refine (Steady.loop _ _ _).bind fun y => (fixInserted_steady _ _ _).bind fun rq => ?_
  cases rq.links.root with
  | none => exact Steady.const _
  | some root => exact updateLeftmost_steady _ _

theorem unlink_steady (rq : Rq) (node : PcbId) : Steady fun n => rq.unlink n node := by
  unfold unlink
  split
  · exact Steady.const _
  · exact Steady.const _
  · exact (leftEnd_steady rq _).bind fun _ => Steady.const _

theorem fixErased_steady (rq : Rq) (u : Unlinked) : Steady fun n => rq.fixErased n u := by
  refine Steady.ite _ ?_ (Steady.const _)
  exact (Steady.loop _ _ _).bind fun _ => Steady.const _

theorem rbErase_steady (rq : Rq) (node : PcbId) : Steady fun n => rq.rbErase n node := by
  refine (unlink_steady rq node).bind fun r => (fixErased_steady _ _).bind fun rq => ?_
  cases rq.links.root with
  | none => exact Steady.const _
  | some root => exact updateLeftmost_steady _ _

/-! ## The operations and the in-order list -/

theorem HasOrder.fixInserted {xs : List PcbId} {v : PcbId → Nat} (h : HasOrder xs v rq)
    {node : PcbId} (hnode : node ∈ xs) {y : Option PcbId} {fuel : Nat} {rq' : Rq}
    (hr : rq.fixInserted fuel node y = .ok rq') : HasOrder xs v rq' := by
  cases y with
  | none =>
      injection hr with hr
      rw [← hr]
      exact h
  | some y =>
      rw [Rq.fixInserted] at hr
      split at hr
      · exact h.rbInsertColorFixup hnode hr
      · injection hr with hr
        rw [← hr]
        exact h

/-- `leftmost` and `min_vruntime` at the end of both operations. -/
theorem HasOrder.updateLeftmost {xs : List PcbId} {v : PcbId → Nat} (h : HasOrder xs v rq)
    {root : PcbId} (hroot : rq.links.root = some root) {fuel : Nat} {rq' : Rq}
    (hr : rq.updateLeftmost fuel root = .ok rq') :
    HasOrder xs v rq' ∧ Leftmost rq' xs := by
  obtain ⟨⟨t, ht, rfl⟩, rfl⟩ := h
  obtain ⟨rq₁, h₁, hl, -, hv, hleft⟩ :=
    updateLeftmost_returns ht hroot (Nat.lt_succ_self t.numNodes)
  rw [(updateLeftmost_steady rq root).unique hr h₁]
  exact ⟨⟨⟨t, by rw [hl]; exact ht, rfl⟩, hv⟩, hleft⟩

/-- **`RbInsert` in the in-order list**: the new task stands where the search for its
vruntime ends. -/
theorem rbInsert_order {t : BinaryTree PcbId} (h : rq.links.Represents t) {node : PcbId}
    (hnode : node ∉ t.inorder) {fuel : Nat} {rq' : Rq}
    (hr : rq.rbInsert fuel node = .ok rq') :
    ∃ c, t = plug c nil ∧ SearchCtx rq.vruntime (rq.vruntime node) c ∧
      HasOrder (before c ++ node :: after c) rq.vruntime rq' ∧
      Leftmost rq' (before c ++ node :: after c) := by
  rw [rbInsert, bind_eq_ok_iff] at hr
  obtain ⟨y, hsearch, hr⟩ := hr
  rw [bind_eq_ok_iff] at hr
  obtain ⟨rq₂, hfix, hr⟩ := hr
  have hinit := represents_rbInitNode h hnode
  obtain ⟨c, rfl, hs, hsearch'⟩ : ∃ c, t = plug c nil ∧ _ ∧ _ :=
    @search_returns _ _ node _ hinit (Nat.lt_succ_self t.numNodes)
  obtain rfl : y = above c := (Steady.loop _ _ _).unique hsearch hsearch'
  have htree := represents_attach h hnode hs
  have hxs : (plug c (branch .left nil node nil)).inorder = before c ++ node :: after c := by
    rw [inorder_plug]
    simp [branch]
  have h₂ : HasOrder (before c ++ node :: after c) rq.vruntime rq₂ :=
    HasOrder.fixInserted ⟨⟨_, htree, hxs⟩, attach_vruntime _ _⟩ (by simp) hfix
  refine ⟨c, rfl, hs, ?_⟩
  cases hroot : rq₂.links.root with
  | none =>
      obtain ⟨⟨t', ht', hin⟩, -⟩ := h₂
      rw [ht'.root] at hroot
      rw [top_eq_none.mp hroot] at hin
      simp at hin
  | some root =>
      rw [hroot] at hr
      exact h₂.updateLeftmost hroot hr

/-- The in-order list when the colours have been repaired: the task is taken out. -/
theorem fixErased_order {t : BinaryTree PcbId} (h : rq.links.Represents t) {z : PcbId}
    (hz : z ∈ t.inorder) {fuel fuel' : Nat} {rq₁ rq₂ : Rq} {u : Unlinked}
    (hunlink : rq.unlink fuel z = .ok (rq₁, u)) (hfix : rq₁.fixErased fuel' u = .ok rq₂) :
    HasOrder (t.inorder.erase z) rq.vruntime rq₂ := by
  obtain ⟨rq₁', u', d, c, c', y, a, hunlink', -, hu⟩ :=
    unlink_returns h hz (Nat.lt_succ_self t.numNodes)
  obtain ⟨rfl, rfl⟩ := Prod.mk.inj ((unlink_steady rq z).unique hunlink hunlink')
  have h₁ : HasOrder (t.inorder.erase z) rq.vruntime rq₁ := ⟨⟨_, hu.tree, hu.elems⟩, hu.vruntime⟩
  rw [fixErased] at hfix
  split at hfix
  · refine h₁.rbEraseColorFixup (fun p hp => ?_) hfix
    rw [← hu.elems]
    exact hu.xParent p hp
  · injection hfix with hfix
    rw [← hfix]
    exact h₁

/-- **`RbErase` in the in-order list**: the task is taken out. -/
theorem rbErase_order {t : BinaryTree PcbId} (h : rq.links.Represents t) {z : PcbId}
    (hz : z ∈ t.inorder) {fuel : Nat} {rq' : Rq} (hr : rq.rbErase fuel z = .ok rq') :
    HasOrder (t.inorder.erase z) rq.vruntime rq' ∧ Leftmost rq' (t.inorder.erase z) := by
  rw [rbErase, bind_eq_ok_iff] at hr
  obtain ⟨⟨rq₁, u⟩, hunlink, hr⟩ := hr
  simp only at hr
  rw [bind_eq_ok_iff] at hr
  obtain ⟨rq₂, hfix, hr⟩ := hr
  have h₂ := fixErased_order h hz hunlink hfix
  cases hroot : rq₂.links.root with
  | none =>
      rw [hroot] at hr
      injection hr with hr
      rw [← hr]
      have hnil : t.inorder.erase z = [] := by
        obtain ⟨⟨t', ht', hin⟩, -⟩ := h₂
        rw [ht'.root] at hroot
        rw [← hin, top_eq_none.mp hroot]
        rfl
      refine ⟨h₂, ?_⟩
      rw [hnil]
      exact ⟨rfl, fun y hy => by cases hy⟩
  | some root =>
      rw [hroot] at hr
      exact h₂.updateLeftmost hroot hr

end InfoKernel.Task.Cfs.Rq
