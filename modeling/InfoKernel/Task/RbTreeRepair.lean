import InfoKernel.Task.RbTreeColor

/-!
# When `RbErase` returns

The runs of `RbInsert` and `RbErase` leave trees that are not red-black trees any more, and
`RbEraseColorFixup` works its way up such a tree when a black task with a child that is not
red has been taken out.  Each turn looks at the sibling of the node.  The loop leaves when
there is none, but when the sibling is red it is rotated away, and what takes its place, its
child on the side of the node, is used without a test: where there is no such child, the
fixup follows a null pointer.

`SiblingsThere` says for a way up the tree that this does not happen, and
`rbErase_returns_iff` that it is the exact condition, in every state that a run can reach:
under it `RbErase` returns, and otherwise it ends at the null pointer.  A run of fifteen
calls reaches one of the states in which it does (`fixup_follows_null`).
-/

namespace InfoKernel.Task.Cfs

open InfoKernel.Lib
open InfoKernel.Lib.Links
open BinaryTree hiding node

namespace Rq

variable {rq : Rq}

/-- The child subtree on side `d`. -/
def below (d : Side) : BinaryTree PcbId → BinaryTree PcbId
  | .nil => .nil
  | .node _ l r =>
      match d with
      | .left => l
      | .right => r

@[simp] theorem below_branch (d : Side) (a : BinaryTree PcbId) (x : PcbId)
    (b : BinaryTree PcbId) : below d (branch d a x b) = a := by
  cases d <;> rfl

@[simp] theorem below_opp_branch (d : Side) (a : BinaryTree PcbId) (x : PcbId)
    (b : BinaryTree PcbId) : below d.opp (branch d a x b) = b := by
  cases d <;> rfl

/-- **The siblings that the fixup uses are there**, on the way up the context, for a node
of the colour `nodeRed` in the hole: it ends at a red node, where there is no sibling, and
where a black sibling has a red child; a red sibling must have a child on the side of the
node; and otherwise it goes one level up. -/
def SiblingsThere (red : PcbId → Bool) : Ctx PcbId → Bool → Prop
  | [], _ => True
  | f :: c, nodeRed =>
      nodeRed = true ∨ f.other = nil ∨
        if topRed red f.other = true then below f.side f.other ≠ nil
        else topRed red (below f.side f.other) = true ∨
          topRed red (below f.side.opp f.other) = true ∨ SiblingsThere red c (red f.elem)

/-- Where `RbErase` takes a task out of the tree `t` to unlink `z`: `z` itself if it lacks a
child, or else its successor.  The task `y` leaves its place to the tree `a`, and the fixup
starts at the context `c`, which for a successor is that of the right subtree of `z`. -/
inductive SplicedAt (t : BinaryTree PcbId) (z : PcbId) :
    PcbId → BinaryTree PcbId → Ctx PcbId → Prop
  | self {c : Ctx PcbId} {d : Side} {a : BinaryTree PcbId} :
      t = plug c (branch d nil z a) → SplicedAt t z z a c
  | successor {c cr : Ctx PcbId} {u b : BinaryTree PcbId} {y : PcbId} :
      t = plug c (branch .left u z (plug cr (branch .left nil y b))) → u ≠ nil →
      before cr = [] → SplicedAt t z y b (⟨.right, z, u⟩ :: c)

/-- **The condition under which `RbErase` of `z` returns**: the task taken out of its place
is red, or has no child, or the fixup finds the siblings that it uses. -/
def EraseReturns (rq : Rq) (z : PcbId) : Prop :=
  ∀ t y a c, rq.links.Represents t → SplicedAt t z y a c →
    rq.isRed y = true ∨ a = nil ∨ SiblingsThere rq.isRed c (topRed rq.isRed a)

theorem mem_of_mem_below {d : Side} {t : BinaryTree PcbId} {w : PcbId}
    (h : w ∈ (below d t).inorder) : w ∈ t.inorder := by
  cases t with
  | nil => exact h
  | node x l r =>
      rw [inorder_node, List.mem_append, List.mem_cons]
      cases d
      · exact .inl h
      · exact .inr (.inr h)

theorem siblingsThere_congr {red red' : PcbId → Bool} {c : Ctx PcbId} {b : Bool}
    (h : ∀ w ∈ ctxElems c, red' w = red w) :
    SiblingsThere red' c b ↔ SiblingsThere red c b := by
  induction c generalizing b with
  | nil => exact Iff.rfl
  | cons f c ih =>
      obtain ⟨d, p, s⟩ := f
      have hp : red' p = red p := h p (mem_ctxElems_cons.mpr (.inl rfl))
      have hs : ∀ w ∈ s.inorder, red' w = red w := fun w hw =>
        h w (mem_ctxElems_cons.mpr (.inr (.inl hw)))
      have hbelow : ∀ e, topRed red' (below e s) = topRed red (below e s) := fun e =>
        topRed_congr fun w hw => hs w (mem_of_mem_below hw)
      rw [SiblingsThere, SiblingsThere]
      simp only [topRed_congr hs, hbelow, hp,
        ih fun w hw => h w (mem_ctxElems_cons.mpr (.inr (.inr hw)))]

/-- The head of the context may be renamed, when its colour is kept. -/
theorem siblingsThere_rename {red red' : PcbId → Bool} {d : Side} {y z : PcbId}
    {s : BinaryTree PcbId} {c : Ctx PcbId} {b : Bool} (hy : red' y = red z)
    (h : ∀ w ∈ ctxElems (⟨d, z, s⟩ :: c), w ≠ z → red' w = red w) (hz : z ∉ s.inorder)
    (hzc : z ∉ ctxElems c) :
    SiblingsThere red' (⟨d, y, s⟩ :: c) b ↔ SiblingsThere red (⟨d, z, s⟩ :: c) b := by
  have hs : ∀ w ∈ s.inorder, red' w = red w := fun w hw =>
    h w (mem_ctxElems_cons.mpr (.inr (.inl hw))) fun hwz => hz (hwz ▸ hw)
  have hc : ∀ w ∈ ctxElems c, red' w = red w := fun w hw =>
    h w (mem_ctxElems_cons.mpr (.inr (.inr hw))) fun hwz => hzc (hwz ▸ hw)
  have hbelow : ∀ e, topRed red' (below e s) = topRed red (below e s) := fun e =>
    topRed_congr fun w hw => hs w (mem_of_mem_below hw)
  rw [SiblingsThere, SiblingsThere]
  simp only [topRed_congr hs, hbelow, hy, siblingsThere_congr hc]

/-! ## The last branch of a turn -/

/-- At a sibling with a red child the turn ends. -/
theorem eraseFixupRotate_returns {d : Side} {c : Ctx PcbId} {r n f : BinaryTree PcbId}
    {p w : PcbId} (h : rq.links.Represents (plug c (branch d r p (branch d n w f))))
    (hred : topRed rq.isRed n = true ∨ topRed rq.isRed f = true) :
    ∃ rq', rq.eraseFixupRotate d p w = .ok rq' := by
  obtain ⟨-, hl, -⟩ := represents_plug_iff.mp h
  obtain ⟨-, -, -, -, hlw⟩ := linked_branch.mp hl
  obtain ⟨-, hwn, hwf, -, -⟩ := linked_branch.mp hlw
  unfold eraseFixupRotate
  simp only [hwn, hwf, rbIsRed_top]
  split
  · next hf =>
    have hn : topRed rq.isRed n = true := hred.resolve_right (by rw [hf]; decide)
    obtain ⟨x, hx⟩ : ∃ x, top n = some x := by
      cases n with
      | nil => cases hn
      | node x a b => exact ⟨x, rfl⟩
    obtain ⟨n₁, n₂, rfl⟩ := exists_branch_of_top d hx
    -- the inner child comes up between `p` and the sibling
    have htree : ((rq.rbSetBlack (some x)).rbSetRed (some w)).links.Represents
        (plug (⟨d.opp, p, r⟩ :: c) (branch d.opp f w (branch d.opp n₂ x n₁))) := by
      have hshape : plug (⟨d.opp, p, r⟩ :: c) (branch d.opp f w (branch d.opp n₂ x n₁)) =
          plug c (branch d r p (branch d (branch d n₁ x n₂) w f)) := by
        rw [plug_cons, branch_opp d f, branch_opp d n₂, branch_opp d _ p]
      rw [hshape]
      simpa using h
    have hrot := represents_rotate htree
    obtain ⟨hc, -, -⟩ := represents_plug_iff.mp hrot
    have hchild : (((rq.rbSetBlack (some x)).rbSetRed (some w)).rotate d.opp w).links.child
        d.opp p = some x := by
      rw [top_branch] at hc
      exact hc.1
    rw [top_branch, hchild]
    exact ⟨_, rfl⟩
  · exact ⟨_, rfl⟩

/-! ## The loop -/

/-- The state of the loop below the frame `f`: the tree on the side of the frame is `r`, and
`node` is in it, at its root if that is the left side. -/
structure Repairing (rq : Rq) (node : PcbId) (f : Frame PcbId) (c : Ctx PcbId)
    (r : BinaryTree PcbId) : Prop where
  tree : rq.links.Represents (plug (f :: c) r)
  inside : node ∈ r.inorder
  left : f.side = .left → top r = some node

/-- A node that is red ends the loop. -/
theorem loop_of_red {node : PcbId} {p : Option PcbId} (h : rq.isRed node = true) (n : Nat) :
    ∃ r, loop eraseFixupTurn Fault.outOfFuel (n + 1) (rq, some node, p) = .ok r := by
  cases p with
  | none => exact ⟨_, loop_of_leave rfl⟩
  | some p =>
      refine ⟨(rq, some node), loop_of_leave ?_⟩
      rw [eraseFixupTurn, if_pos (.inr h)]

/-- The turn at a node that is not red looks at the sibling on the other side. -/
theorem Repairing.turn {node : PcbId} {f : Frame PcbId} {c : Ctx PcbId} {r : BinaryTree PcbId}
    (h : Repairing rq node f c r) (hblack : rq.isRed node = false) :
    eraseFixupTurn (rq, some node, some f.elem) =
      rq.eraseFixupSide f.side (some node) f.elem := by
  obtain ⟨d, p, s⟩ := f
  obtain ⟨hc, -, hn⟩ := represents_plug_iff.mp h.tree
  obtain ⟨hpr, hps, -⟩ := hc
  obtain ⟨-, hnc, hdisj⟩ := nodup_inorder_plug.mp hn
  have hroot : some node ≠ rq.links.root := by
    intro hroot
    obtain ⟨x, hx, hmem⟩ := exists_top_plug (List.cons_ne_nil ⟨d, p, s⟩ c) r
    rw [h.tree.root, hx] at hroot
    rw [← Option.some.inj hroot] at hmem
    exact hdisj h.inside hmem
  rw [eraseFixupTurn, if_neg (not_or.mpr ⟨hroot, by
    show ¬ rq.isRed node = true
    rw [hblack]
    decide⟩)]
  cases d with
  | left =>
      have htop : top r = some node := h.left rfl
      have hchild : rq.links.child .left p = top r := hpr
      rw [if_pos (hchild.trans htop).symm]
  | right =>
      have hchild : rq.links.child .left p = top s := hps
      rw [if_neg]
      intro heq
      rw [hchild] at heq
      exact hdisj h.inside
        (mem_ctxElems_cons.mpr (.inr (.inl (mem_inorder_of_top heq.symm))))

/-- A turn at a red sibling: it ends at a null pointer if the sibling has no child on the
side of the node, and otherwise the next turn, if there is one, ends the loop. -/
theorem eraseFixupSide_of_red {d : Side} {c : Ctx PcbId} {r n f : BinaryTree PcbId}
    {p q : PcbId} (node : PcbId)
    (h : rq.links.Represents (plug c (branch d r p (branch d n q f))))
    (hq : rq.isRed q = true) :
    (n = nil → rq.eraseFixupSide d (some node) p = .error .nullDeref) ∧
    (n ≠ nil → (∃ res, rq.eraseFixupSide d (some node) p = .ok (.leave res)) ∨
      ∃ rq' pp, rq.eraseFixupSide d (some node) p = .ok (.again (rq', some p, pp)) ∧
        rq'.isRed p = true) := by
  obtain ⟨-, hl, -⟩ := represents_plug_iff.mp h
  obtain ⟨-, -, hpq, -, -⟩ := linked_branch.mp hl
  rw [top_branch] at hpq
  -- the tree behind the rotation
  have htree : ((rq.rbSetBlack (some q)).rbSetRed (some p)).links.Represents
      (plug c (branch d r p (branch d n q f))) := by simpa using h
  have hrot := represents_rotate htree
  obtain ⟨-, hlq, hnodup⟩ := represents_plug_iff.mp hrot
  obtain ⟨-, -, -, hlp, -⟩ := linked_branch.mp hlq
  obtain ⟨-, -, hpn, -, -⟩ := linked_branch.mp hlp
  have hsib : rq.eraseFixupSibling d p q =
      (((rq.rbSetBlack (some q)).rbSetRed (some p)).rotate d p, top n) := by
    rw [eraseFixupSibling, if_pos hq]
    exact congrArg (Prod.mk _) hpn
  refine ⟨fun hn => ?_, fun hn => ?_⟩
  · rw [eraseFixupSide, hpq]
    simp only
    rw [hsib, hn]
    rfl
  · obtain ⟨w, hw⟩ : ∃ w, top n = some w := Option.ne_none_iff_exists'.mp (mt top_eq_none.mp hn)
    obtain ⟨n₁, n₂, rfl⟩ := exists_branch_of_top d hw
    rw [hw] at hsib
    rw [eraseFixupSide, hpq]
    simp only
    rw [hsib]
    simp only
    split
    · refine .inr ⟨_, _, rfl, ?_⟩
      have hpw : p ≠ w := by
        obtain ⟨hnt, -, -⟩ := nodup_inorder_plug.mp hnodup
        obtain ⟨hnp, -, -⟩ := nodup_inorder_branch.mp hnt
        obtain ⟨-, -, -, hpn', -⟩ := nodup_inorder_branch.mp hnp
        rintro rfl
        exact hpn' (mem_inorder_branch.mpr (.inr (.inl rfl)))
      simp [hpw]
    · next hkids =>
      have hinner : (((rq.rbSetBlack (some q)).rbSetRed (some p)).rotate d p).links.Represents
          (plug (⟨d, q, f⟩ :: c) (branch d r p (branch d n₁ w n₂))) := by
        rw [plug_cons]
        exact hrot
      obtain ⟨-, hli, -⟩ := represents_plug_iff.mp hinner
      obtain ⟨-, -, -, -, hlw⟩ := linked_branch.mp hli
      obtain ⟨-, hw₁, hw₂, -, -⟩ := linked_branch.mp hlw
      rw [hw₁, hw₂, rbIsRed_top, rbIsRed_top] at hkids
      rw [not_and_or, Bool.not_eq_false, Bool.not_eq_false] at hkids
      obtain ⟨rq', hrq'⟩ := eraseFixupRotate_returns hinner hkids
      rw [hrq']
      exact .inl ⟨_, rfl⟩

/-- A turn at a black sibling: it ends the loop where the sibling has a red child, and
otherwise makes the sibling red and goes one level up. -/
theorem eraseFixupSide_of_black {d : Side} {c : Ctx PcbId} {r n f : BinaryTree PcbId}
    {p q : PcbId} (node : PcbId)
    (h : rq.links.Represents (plug c (branch d r p (branch d n q f))))
    (hq : rq.isRed q = false) :
    (topRed rq.isRed n = true ∨ topRed rq.isRed f = true →
      ∃ res, rq.eraseFixupSide d (some node) p = .ok (.leave res)) ∧
    (¬ (topRed rq.isRed n = true ∨ topRed rq.isRed f = true) →
      rq.eraseFixupSide d (some node) p =
        .ok (.again (rq.rbSetRed (some q), some p, above c))) := by
  obtain ⟨-, hl, -⟩ := represents_plug_iff.mp h
  obtain ⟨hpp, -, hpq, -, hlq⟩ := linked_branch.mp hl
  obtain ⟨-, hqn, hqf, -, -⟩ := linked_branch.mp hlq
  rw [top_branch] at hpq
  have hsib : rq.eraseFixupSibling d p q = (rq, some q) := by
    rw [eraseFixupSibling, if_neg (by rw [hq]; decide)]
  refine ⟨fun hred => ?_, fun hnone => ?_⟩
  · obtain ⟨rq', hrq'⟩ := eraseFixupRotate_returns h hred
    refine ⟨(rq', rq'.links.root), ?_⟩
    rw [eraseFixupSide, hpq]
    simp only
    rw [hsib]
    simp only [hqn, hqf, rbIsRed_top]
    rw [if_neg, hrq']
    rintro ⟨hn, hf⟩
    rcases hred with hred | hred
    · rw [hn] at hred
      cases hred
    · rw [hf] at hred
      cases hred
  · rw [not_or, Bool.not_eq_true, Bool.not_eq_true] at hnone
    rw [eraseFixupSide, hpq]
    simp only
    rw [hsib]
    simp only [hqn, hqf, rbIsRed_top]
    rw [if_pos hnone, rbSetRed_links, hpp]

/-- What the loop does from `rq` at `node`, as far as the siblings decide it. -/
def LoopDecided (rq : Rq) (node : PcbId) (parent : Option PcbId) (c : Ctx PcbId)
    (fuel : Nat) : Prop :=
  (SiblingsThere rq.isRed c (rq.isRed node) →
    ∃ res, loop eraseFixupTurn Fault.outOfFuel fuel (rq, some node, parent) = .ok res) ∧
  (¬ SiblingsThere rq.isRed c (rq.isRed node) →
    loop eraseFixupTurn Fault.outOfFuel fuel (rq, some node, parent) = .error .nullDeref)

/-- One turn of the loop: it is decided, or goes one level up to a state `rq'` in which only
the sibling has another colour. -/
theorem Repairing.loop_of_step {node p : PcbId} {d : Side} {s : BinaryTree PcbId}
    {c : Ctx PcbId} {r : BinaryTree PcbId} (h : Repairing rq node ⟨d, p, s⟩ c r) {n : Nat}
    (hup : ∀ q, top s = some q → (rq.rbSetRed (some q)).links.Represents
      (plug c (branch d r p s)) → LoopDecided (rq.rbSetRed (some q)) p (above c) c (n + 1)) :
    LoopDecided rq node (some p) (⟨d, p, s⟩ :: c) (n + 2) := by
  cases hnode : rq.isRed node with
  | true =>
      rw [LoopDecided, hnode]
      exact ⟨fun _ => loop_of_red hnode _, fun hno => absurd (.inl rfl) hno⟩
  | false =>
      have hturn := h.turn hnode
      have htree := h.tree
      rw [plug_cons] at htree
      dsimp only at hturn htree
      rw [LoopDecided, hnode]
      cases htop : top s with
      | none =>
          obtain rfl := top_eq_none.mp htop
          have hside : rq.eraseFixupSide d (some node) p = .ok (.leave (rq, some node)) := by
            obtain ⟨-, -, hps, -, -⟩ := linked_branch.mp (represents_plug_iff.mp htree).2.1
            rw [top_nil] at hps
            rw [eraseFixupSide, hps]
          exact ⟨fun _ => ⟨_, loop_of_leave (hturn.trans hside)⟩,
            fun hno => absurd (.inr (.inl rfl)) hno⟩
      | some q =>
          obtain ⟨near, far, rfl⟩ := exists_branch_of_top d htop
          have hne : branch d near q far ≠ nil := fun heq => by
            rw [heq] at htop
            cases htop
          rw [SiblingsThere]
          simp only [Bool.false_eq_true, false_or, hne, topRed_branch, below_branch,
            below_opp_branch]
          cases hq : rq.isRed q with
          | true =>
              obtain ⟨hnull, hthere⟩ := eraseFixupSide_of_red node htree hq
              rw [if_pos rfl]
              refine ⟨fun hnear => ?_, fun hnear => ?_⟩
              · rcases hthere hnear with ⟨res, hres⟩ | ⟨rq', pp, hres, hred⟩
                · exact ⟨res, loop_of_leave (hturn.trans hres)⟩
                · rw [loop_of_again (hturn.trans hres)]
                  exact loop_of_red hred n
              · exact loop_of_error (hturn.trans (hnull (not_not.mp hnear)))
          | false =>
              obtain ⟨hleave, hagain⟩ := eraseFixupSide_of_black node htree hq
              rw [if_neg (by decide)]
              by_cases hred : topRed rq.isRed near = true ∨ topRed rq.isRed far = true
              · refine ⟨fun _ => ?_, fun hno => ?_⟩
                · obtain ⟨res, hres⟩ := hleave hred
                  exact ⟨res, loop_of_leave (hturn.trans hres)⟩
                · rcases hred with hred | hred
                  · exact absurd (.inl hred) hno
                  · exact absurd (.inr (.inl hred)) hno
              · obtain ⟨hret, hnull⟩ := hup q htop (by simpa using htree)
                have hagain := hagain hred
                rw [not_or] at hred
                obtain ⟨-, -, hdisj⟩ := nodup_inorder_plug.mp htree.nodup
                obtain ⟨-, -, -, hpn, -⟩ := nodup_inorder_branch.mp
                  (nodup_inorder_plug.mp htree.nodup).1
                have hq' : q ∈ (branch d near q far).inorder :=
                  mem_inorder_branch.mpr (.inr (.inl rfl))
                have hne' : p ≠ q := by
                  rintro rfl
                  exact hpn hq'
                have hpq : (rq.rbSetRed (some q)).isRed p = rq.isRed p :=
                  Function.update_of_ne hne' _ _
                have hsame : SiblingsThere (rq.rbSetRed (some q)).isRed c (rq.isRed p) ↔
                    SiblingsThere rq.isRed c (rq.isRed p) := by
                  refine siblingsThere_congr fun w hw => Function.update_of_ne ?_ _ _
                  rintro rfl
                  exact hdisj (mem_inorder_branch.mpr (.inr (.inr hq'))) hw
                rw [hpq, hsame] at hret hnull
                rw [loop_of_again (hturn.trans hagain)]
                exact ⟨fun hthere => hret ((hthere.resolve_left hred.1).resolve_left hred.2),
                  fun hno => hnull fun hthere => hno (.inr (.inr hthere))⟩

/-- **The loop of `RbEraseColorFixup`** returns if the siblings are there, and follows a null
pointer otherwise. -/
theorem Repairing.loop_returns_iff {node : PcbId} {f : Frame PcbId} {c : Ctx PcbId}
    {r : BinaryTree PcbId} (h : Repairing rq node f c r) {fuel : Nat}
    (hfuel : c.length + 1 < fuel) : LoopDecided rq node (some f.elem) (f :: c) fuel := by
  obtain ⟨n, rfl⟩ : ∃ n, fuel = n + 2 := ⟨fuel - 2, by omega⟩
  induction c generalizing rq node f r n with
  | nil =>
      refine h.loop_of_step fun q _ _ => ⟨fun _ => ⟨_, loop_of_leave rfl⟩, fun hno => ?_⟩
      exact absurd trivial hno
  | cons g c ih =>
      refine h.loop_of_step fun q _ htree => ?_
      obtain ⟨m, rfl⟩ : ∃ m, n = m + 1 := ⟨n - 1, by simp only [List.length_cons] at hfuel; omega⟩
      refine ih ⟨htree, mem_inorder_branch.mpr (.inr (.inl rfl)), fun _ => top_branch ..⟩ m ?_
      simp only [List.length_cons] at hfuel
      omega

/-- The loop is about to start at `node` in the context. -/
def Starts (rq : Rq) (node : PcbId) (parent : Option PcbId) : Ctx PcbId → Prop
  | [] => parent = none
  | f :: c => parent = some f.elem ∧ ∃ r, Repairing rq node f c r

theorem Starts.loop {node : PcbId} {parent : Option PcbId} {c : Ctx PcbId}
    (h : Starts rq node parent c) (fuel : Nat) (hfuel : c.length < fuel) :
    LoopDecided rq node parent c fuel := by
  cases c with
  | nil =>
      obtain ⟨n, rfl⟩ : ∃ n, fuel = n + 1 :=
        ⟨fuel - 1, by simp only [List.length_nil] at hfuel; omega⟩
      obtain rfl : parent = none := h
      exact ⟨fun _ => ⟨_, loop_of_leave rfl⟩, fun hno => absurd trivial hno⟩
  | cons f c =>
      obtain ⟨rfl, r, hr⟩ := h
      exact hr.loop_returns_iff hfuel

/-! ## `RbErase` -/

/-- What `RbErase` has done when it has unlinked `z`, and where its fixup starts. -/
structure UnlinkedAt (rq rq₁ : Rq) (u : Unlinked) (y : PcbId) (a : BinaryTree PcbId)
    (c : Ctx PcbId) : Prop where
  x : u.x = top a
  red : u.yOriginalRed = rq.isRed y
  color : ∀ w, top a = some w → rq₁.isRed w = rq.isRed w
  start : ∀ w, top a = some w → ∃ c', c'.length = c.length ∧ Starts rq₁ w u.xParent c' ∧
    ∀ b, SiblingsThere rq₁.isRed c' b ↔ SiblingsThere rq.isRed c b

theorem unlink_spliced {t a : BinaryTree PcbId} {y z : PcbId} {c : Ctx PcbId}
    (h : rq.links.Represents t) (hs : SplicedAt t z y a c) {fuel : Nat}
    (hfuel : t.numNodes < fuel) :
    ∃ rq₁ u, rq.unlink fuel z = .ok (rq₁, u) ∧ UnlinkedAt rq rq₁ u y a c := by
  cases hs with
  | @self _ d _ ht =>
      subst ht
      obtain ⟨hpz, -⟩ := linked_branch.mp (represents_plug_iff.mp h).2.1
      have hrep := represents_rbReplaceNode h
      refine ⟨_, _, unlink_of_child_none h fuel, rfl, rfl, fun _ _ => rfl, fun w hw =>
        ⟨c, rfl, ?_, fun _ => Iff.rfl⟩⟩
      cases c with
      | nil => exact hpz
      | cons f c => exact ⟨hpz, a, hrep, mem_inorder_of_top hw, fun _ => hw⟩
  | @successor c cr u _ _ ht hu hcr =>
      subst ht
      obtain ⟨hnt, -, hdisj⟩ := nodup_inorder_plug.mp h.nodup
      obtain ⟨-, hnr, hzu, hzr, hdur⟩ := nodup_inorder_branch.mp hnt
      obtain ⟨hny, -, -⟩ := nodup_inorder_plug.mp hnr
      obtain ⟨-, -, -, hyb, -⟩ := nodup_inorder_branch.mp hny
      have hyr : y ∈ (plug cr (branch .left nil y a)).inorder :=
        mem_inorder_plug.mpr (.inl (mem_inorder_branch.mpr (.inr (.inl rfl))))
      have hzc : z ∉ ctxElems c := hdisj (mem_inorder_branch.mpr (.inr (.inl rfl)))
      have hnum : (plug cr (branch .left nil y a)).numNodes < fuel := by
        have h₁ := length_add_numNodes_le c
          (branch .left u z (plug cr (branch .left nil y a)))
        have h₂ : (branch .left u z (plug cr (branch .left nil y a))).numNodes =
            u.numNodes + (plug cr (branch .left nil y a)).numNodes + 1 := rfl
        omega
      obtain ⟨v, w₀, hv, hw₀, hend⟩ := children_of_successor hu hcr h hnum
      have hright : rq.links.child .right y = top a := by
        have hsub := (represents_plug_iff.mp
          ((plug_append cr (⟨.right, z, u⟩ :: c) _).symm ▸ h)).2.1
        exact (linked_branch.mp hsub).2.2.1
      have hzy : z ≠ y := by
        rintro rfl
        exact hzr hyr
      have hcolor : ((rq.unlinkSuccessor z y).1).isRed =
          Function.update rq.isRed y (rq.isRed z) := by
        simp [unlinkSuccessor, hzy]
      have hrep : (rq.unlinkSuccessor z y).1.links.Represents
          (plug (⟨.right, y, u⟩ :: c) (plug cr a)) := by
        simp only [unlinkSuccessor, setColor_links, rbSetBlack_links]
        exact represents_takePlace_detachSuccessor hcr h
      refine ⟨(rq.unlinkSuccessor z y).1, (rq.unlinkSuccessor z y).2, ?_, hright, rfl,
        fun w hw => ?_, fun w hw => ⟨⟨.right, y, u⟩ :: c, rfl, ?_, fun b => ?_⟩⟩
      · rw [unlink, hv, hw₀]
        simp only [hend]
        rfl
      · rw [hcolor]
        refine Function.update_of_ne ?_ _ _
        rintro rfl
        exact hyb (mem_inorder_of_top hw)
      · refine ⟨rfl, plug cr a, hrep, ?_, fun hside => ?_⟩
        · exact mem_inorder_plug.mpr (.inl (mem_inorder_of_top hw))
        · cases hside
      · refine siblingsThere_rename ?_ (fun x hx hxz => ?_) hzu hzc
        · rw [hcolor, Function.update_self]
        · rw [hcolor]
          refine Function.update_of_ne ?_ _ _
          rintro rfl
          rcases mem_ctxElems_cons.mp hx with hx | hx | hx
          · exact hxz hx
          · exact hdur hx hyr
          · exact hdisj (mem_inorder_branch.mpr (.inr (.inr hyr))) hx

/-- The part of `RbErase` that repairs the colours. -/
theorem UnlinkedAt.fixErased {rq₁ : Rq} {u : Unlinked} {y : PcbId} {a : BinaryTree PcbId}
    {c : Ctx PcbId} (h : UnlinkedAt rq rq₁ u y a c) (fuel : Nat) (hfuel : c.length < fuel) :
    (rq.isRed y = true ∨ a = nil ∨ SiblingsThere rq.isRed c (topRed rq.isRed a) →
      ∃ rq₂, rq₁.fixErased fuel u = .ok rq₂) ∧
    (¬ (rq.isRed y = true ∨ a = nil ∨ SiblingsThere rq.isRed c (topRed rq.isRed a)) →
      rq₁.fixErased fuel u = .error .nullDeref) := by
  by_cases hskip : rq.isRed y = true ∨ a = nil
  · have hnot : ¬ (u.x ≠ none ∧ u.yOriginalRed = false) := by
      rw [h.x, h.red]
      rintro ⟨ha, hy⟩
      rcases hskip with hred | rfl
      · rw [hy] at hred
        cases hred
      · exact ha rfl
    refine ⟨fun _ => ⟨rq₁, by rw [Rq.fixErased, if_neg hnot]⟩, fun hno => absurd ?_ hno⟩
    exact hskip.imp_right .inl
  · rw [not_or, Bool.not_eq_true] at hskip
    obtain ⟨hy, ha⟩ := hskip
    obtain ⟨w, hw⟩ := Option.ne_none_iff_exists'.mp (mt top_eq_none.mp ha)
    have hrun : u.x ≠ none ∧ u.yOriginalRed = false := by
      rw [h.x, h.red, hw]
      exact ⟨Option.some_ne_none w, hy⟩
    have htop : topRed rq.isRed a = rq.isRed w := by
      rw [topRed, hw]
    obtain ⟨c', hlen, hstart, hsame⟩ := h.start w hw
    obtain ⟨hret, hnull⟩ := hstart.loop fuel (by omega)
    rw [hsame, h.color w hw] at hret hnull
    rw [Rq.fixErased, if_pos hrun, Rq.rbEraseColorFixup, h.x, hw]
    simp only [hy, ha, htop, Bool.false_eq_true, false_or]
    refine ⟨fun hthere => ?_, fun hno => ?_⟩
    · obtain ⟨res, hres⟩ := hret hthere
      rw [hres]
      exact ⟨_, rfl⟩
    · rw [hnull hno]
      rfl

/-- The length of the context in which `RbErase` starts its fixup. -/
theorem SplicedAt.length_lt {t a : BinaryTree PcbId} {y z : PcbId} {c : Ctx PcbId}
    (h : SplicedAt t z y a c) : c.length < t.numNodes + 1 := by
  cases h with
  | @self _ d _ ht =>
      have hlen := length_add_numNodes_le c (branch d nil y a)
      rw [ht]
      omega
  | @successor c cr u _ _ ht _ _ =>
      have hlen := length_add_numNodes_le c
        (branch .left u z (plug cr (branch .left nil y a)))
      have hnum : (branch .left u z (plug cr (branch .left nil y a))).numNodes =
          u.numNodes + (plug cr (branch .left nil y a)).numNodes + 1 := rfl
      rw [ht, List.length_cons]
      omega

/-- **`RbErase` is decided by where the task is spliced out.** -/
theorem rbErase_spliced {t a : BinaryTree PcbId} {y z : PcbId} {c : Ctx PcbId}
    (h : rq.links.Represents t) (hs : SplicedAt t z y a c) (hz : z ∈ t.inorder) {fuel : Nat}
    (hfuel : t.numNodes < fuel) :
    (rq.isRed y = true ∨ a = nil ∨ SiblingsThere rq.isRed c (topRed rq.isRed a) →
      ∃ rq', rq.rbErase fuel z = .ok rq') ∧
    (¬ (rq.isRed y = true ∨ a = nil ∨ SiblingsThere rq.isRed c (topRed rq.isRed a)) →
      rq.rbErase fuel z = .error .nullDeref) := by
  obtain ⟨rq₁, u, hunlink, hu⟩ := unlink_spliced h hs hfuel
  have hlen := hs.length_lt
  obtain ⟨hret, hnull⟩ := hu.fixErased fuel (by omega)
  refine ⟨fun hthere => ?_, fun hno => ?_⟩
  · obtain ⟨rq₂, hfix⟩ := hret hthere
    obtain ⟨⟨t', ht', hin⟩, -⟩ := fixErased_order h hz hunlink hfix
    rw [rbErase, hunlink]
    show ∃ rq', (rq₁.fixErased fuel u >>= _) = _
    rw [hfix]
    cases hroot : rq₂.links.root with
    | none => exact ⟨_, by simp only [bind, Except.bind, hroot]; rfl⟩
    | some root =>
        have hnum : t'.numNodes < fuel := by
          rw [← length_inorder, hin, List.length_erase_of_mem hz, length_inorder]
          omega
        obtain ⟨rq', hrq', -⟩ := updateLeftmost_returns ht' hroot hnum
        exact ⟨rq', by simp only [bind, Except.bind, hroot]; exact hrq'⟩
  · rw [rbErase, hunlink]
    show (rq₁.fixErased fuel u >>= _) = _
    rw [hnull hno]
    rfl

theorem exists_splicedAt {t : BinaryTree PcbId} {z : PcbId} (hz : z ∈ t.inorder) :
    ∃ y a c, SplicedAt t z y a c := by
  rcases unlink_cases hz with ⟨c, d, a, ht⟩ | ⟨c, cr, u, b, y, ht, hu, hcr⟩
  · exact ⟨z, a, c, .self ht⟩
  · exact ⟨y, b, _, .successor ht hu hcr⟩

/-- **`RbErase` returns exactly under `EraseReturns`**, and otherwise it follows a null
pointer; it does not run forever. -/
theorem rbErase_returns_iff {t : BinaryTree PcbId} {z : PcbId} (h : rq.links.Represents t)
    (hz : z ∈ t.inorder) {fuel : Nat} (hfuel : t.numNodes < fuel) :
    (rq.EraseReturns z → ∃ rq', rq.rbErase fuel z = .ok rq') ∧
    (¬ rq.EraseReturns z → rq.rbErase fuel z = .error .nullDeref) := by
  refine ⟨fun hret => ?_, fun hno => ?_⟩
  · obtain ⟨y, a, c, hs⟩ := exists_splicedAt hz
    exact (rbErase_spliced h hs hz hfuel).1 (hret t y a c h hs)
  · simp only [EraseReturns, not_forall] at hno
    obtain ⟨t', y, a, c, ht', hs, hno⟩ := hno
    obtain rfl := ht'.unique h
    exact (rbErase_spliced h hs hz hfuel).2 hno

end Rq

namespace Tree

/-- The links are those of a tree of the linked tasks. -/
def Linked (s : Tree) : Prop := ∃ t, s.rq.links.Represents t ∧ t.inorder.Perm s.linked

theorem Init.linkedTree {s : Tree} (h : Init s) : Linked s := by
  obtain ⟨t, ht, -, hperm⟩ := h.inv
  exact ⟨t, ht, hperm⟩

theorem Linked.step {s s' : Tree} {op : Op} (h : Linked s) (hs : Tree.step s op s') :
    Linked s' := by
  obtain ⟨t, ht, hperm⟩ := h
  obtain ⟨fuel, hs⟩ := hs
  have hop := allowed_of_exec hs
  rw [exec.eq_def, if_pos hop] at hs
  cases op with
  | setVruntime p v =>
      injection hs with hs
      rw [← hs]
      exact ⟨t, ht, hperm⟩
  | insert p =>
      obtain ⟨rq', hins, rfl⟩ := Option.map_eq_some_iff.mp hs
      have hins := eq_ok_of_toOption hins
      have hp : p ∉ t.inorder := by
        rw [hperm.mem_iff]
        simpa [allowed] using hop
      obtain ⟨c, rfl, -, ⟨⟨t', ht', hin⟩, -⟩, -⟩ := Rq.rbInsert_order ht hp hins
      refine ⟨t', ht', ?_⟩
      rw [inorder_plug, inorder_nil, List.append_nil] at hperm
      rw [hin]
      exact List.perm_middle.trans (hperm.cons p)
  | erase p =>
      obtain ⟨rq', her, rfl⟩ := Option.map_eq_some_iff.mp hs
      have her := eq_ok_of_toOption her
      have hp : p ∈ t.inorder := by
        rw [hperm.mem_iff]
        simpa [allowed] using hop
      obtain ⟨⟨⟨t', ht', hin⟩, -⟩, -⟩ := Rq.rbErase_order ht hp her
      refine ⟨t', ht', ?_⟩
      rw [hin]
      exact hperm.erase p

theorem Linked.erase_decided {s : Tree} (h : Linked s) {p : PcbId} (hp : p ∈ s.linked)
    {fuel : Nat} (hfuel : s.linked.length < fuel) :
    (s.rq.EraseReturns p → ∃ rq, s.rq.rbErase fuel p = .ok rq) ∧
    (¬ s.rq.EraseReturns p → s.rq.rbErase fuel p = .error .nullDeref) := by
  obtain ⟨t, ht, hperm⟩ := h
  have hnum : t.numNodes = s.linked.length := (length_inorder t).symm.trans hperm.length_eq
  exact Rq.rbErase_returns_iff ht (hperm.mem_iff.mpr hp) (hnum ▸ hfuel)

/-- **In every state of every run**, `RbErase` of a linked task returns exactly under
`EraseReturns`, and otherwise it follows a null pointer. -/
theorem erase_returns_iff {s t : Tree} {ops : List Op} (hinit : Init s)
    (hrun : Run step s ops t) {p : PcbId} (hp : p ∈ t.linked) :
    ∃ n, ∀ fuel, n ≤ fuel →
      ((∃ rq, t.rq.rbErase fuel p = .ok rq) ↔ t.rq.EraseReturns p) ∧
      (t.rq.rbErase fuel p = .error .nullDeref ↔ ¬ t.rq.EraseReturns p) := by
  have hlinked := hrun.invariant hinit.linkedTree fun _ _ _ h hs => h.step hs
  refine ⟨t.linked.length + 1, fun fuel hfuel => ?_⟩
  obtain ⟨hret, hnull⟩ := hlinked.erase_decided hp hfuel
  refine ⟨⟨fun ⟨rq, hrq⟩ => ?_, hret⟩, ⟨fun herr hthere => ?_, hnull⟩⟩
  · by_contra hno
    rw [hnull hno] at hrq
    cases hrq
  · obtain ⟨rq, hrq⟩ := hret hthere
    rw [herr] at hrq
    cases hrq

/-- A call on a concrete run queue. -/
theorem erase_returns_iff_twoTasks : ∃ t, Run step empty [.insert 1, .insert 2] t ∧
    ∃ n, ∀ fuel, n ≤ fuel →
      ((∃ rq, t.rq.rbErase fuel 1 = .ok rq) ↔ t.rq.EraseReturns 1) ∧
      (t.rq.rbErase fuel 1 = .error .nullDeref ↔ ¬ t.rq.EraseReturns 1) := by
  obtain ⟨t, ht⟩ := Option.isSome_iff_exists.mp
    (by decide : (Lib.exec (fun _ _ => true) (exec 10) empty [.insert 1, .insert 2]).isSome)
  have hlinked : (Lib.exec (fun _ _ => true) (exec 10) empty [.insert 1, .insert 2]).map
      Tree.linked = some [2, 1] := by decide
  rw [ht, Option.map_some, Option.some.injEq] at hlinked
  have hrun : Run step empty [.insert 1, .insert 2] t :=
    (run_of_exec ht).mono fun _ _ _ hs => ⟨10, hs.2⟩
  exact ⟨t, hrun, erase_returns_iff ⟨rfl, rfl⟩ hrun (by rw [hlinked]; decide)⟩

/-- Ten insertions and four erasures. -/
def history : List Op :=
  [.insert 1, .insert 2, .insert 3, .insert 4, .insert 5, .insert 6, .insert 7, .insert 8,
    .insert 9, .insert 10, .erase 2, .erase 6, .erase 4, .erase 3]

/-- **The fixup follows a null pointer.**  Of the tasks 1 to 10, inserted in this order,
2, 6, 4 and 3 are erased; the erasure of 8 then rotates a red sibling away and uses what is
not there. -/
theorem fixup_follows_null :
    ¬ ∀ (s t : Tree) (ops : List Op), Init s → Run step s ops t → ∀ p ∈ t.linked,
      ∃ n, ∀ fuel, n ≤ fuel → ∃ rq, t.rq.rbErase fuel p = .ok rq := by
  intro hclaim
  obtain ⟨t, ht⟩ := Option.isSome_iff_exists.mp
    (by decide : (Lib.exec (fun _ _ => true) (exec 12) empty history).isSome)
  have hend : (Lib.exec (fun _ _ => true) (exec 12) empty history).map (fun t =>
      (decide (8 ∈ t.linked), t.linked.length, (t.rq.rbErase 12 8).isOk)) =
        some (true, 6, false) := by
    decide
  rw [ht, Option.map_some, Option.some.injEq, Prod.mk.injEq, Prod.mk.injEq,
    decide_eq_true_eq] at hend
  obtain ⟨hmem, hlen, hfails⟩ := hend
  have hrun : Run step empty history t := (run_of_exec ht).mono fun _ _ _ hs => ⟨12, hs.2⟩
  have hlinked : Linked t :=
    hrun.invariant (Init.linkedTree ⟨rfl, rfl⟩) fun _ _ _ h hs => h.step hs
  have hunsafe : ¬ t.rq.EraseReturns 8 := by
    intro hret
    obtain ⟨rq, hrq⟩ := (hlinked.erase_decided hmem (by omega : _ < 12)).1 hret
    rw [hrq] at hfails
    cases hfails
  obtain ⟨n, hn⟩ := hclaim empty t history ⟨rfl, rfl⟩ hrun 8 hmem
  obtain ⟨rq, hrq⟩ := hn (max n 12) (Nat.le_max_left n 12)
  have hnull := (hlinked.erase_decided hmem
    (Nat.lt_of_lt_of_le (by omega : _ < 12) (Nat.le_max_right n 12))).2 hunsafe
  rw [hrq] at hnull
  cases hnull

end Tree

end InfoKernel.Task.Cfs
