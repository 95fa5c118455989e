import InfoKernel.Fault
import InfoKernel.Lib.Loop
import InfoKernel.Lib.LinkedTree
import InfoKernel.Task.Basic

/-!
# The red-black tree of the run queue

The model of `src/task/rbtree.cc`.  The tree is linked through the control blocks:
`links` holds `rb_root` and the fields `se.rb_left`, `se.rb_right` and
`se.rb_parent` of every task, `isRed` the fields `se.rb_is_red`, and `vruntime` the
fields `se.vruntime`.

The source writes both mirror images of a rotation and of each turn of the two colour
repairs.  Here each pair is one function of a side `d`, and the source's function is
its value at `left` or `right`.  A loop takes the fuel of `Lib.loop`, and a function
that runs one hands the fuel on.
-/

namespace InfoKernel.Task.Cfs

open InfoKernel.Lib
open BinaryTree (Side)

/-- `class Rq`, as far as `rbtree.cc` reads and writes it, with the fields of the
tasks' `cfs::Entity` that it uses. -/
structure Rq where
  links : Links PcbId
  isRed : PcbId → Bool
  vruntime : PcbId → Nat
  leftmost : Option PcbId
  minVruntime : Nat

namespace Rq

variable (rq : Rq)

/-- A write to the colour of one task. -/
def setColor (node : PcbId) (red : Bool) : Rq :=
  { rq with isRed := Function.update rq.isRed node red }

/-- `RbSetRed` -/
def rbSetRed (node : Option PcbId) : Rq :=
  match node with
  | none => rq
  | some x => rq.setColor x true

/-- `RbSetBlack` -/
def rbSetBlack (node : Option PcbId) : Rq :=
  match node with
  | none => rq
  | some x => rq.setColor x false

/-- `RbIsRed` -/
def rbIsRed (node : Option PcbId) : Bool :=
  match node with
  | none => false
  | some x => rq.isRed x

/-- `RbSetParent` -/
def rbSetParent (node parent : Option PcbId) : Rq :=
  { rq with links := rq.links.setParent? node parent }

section Fields

variable (x p : Option PcbId)

@[simp] theorem rbSetRed_links : (rq.rbSetRed x).links = rq.links := by cases x <;> rfl
@[simp] theorem rbSetBlack_links : (rq.rbSetBlack x).links = rq.links := by cases x <;> rfl
@[simp] theorem rbSetRed_vruntime : (rq.rbSetRed x).vruntime = rq.vruntime := by
  cases x <;> rfl
@[simp] theorem rbSetBlack_vruntime : (rq.rbSetBlack x).vruntime = rq.vruntime := by
  cases x <;> rfl
@[simp] theorem rbSetParent_isRed : (rq.rbSetParent x p).isRed = rq.isRed := rfl
@[simp] theorem rbSetParent_vruntime : (rq.rbSetParent x p).vruntime = rq.vruntime := rfl
@[simp] theorem rbSetRed_isRed (y : PcbId) :
    (rq.rbSetRed (some y)).isRed = Function.update rq.isRed y true := rfl
@[simp] theorem rbSetBlack_isRed (y : PcbId) :
    (rq.rbSetBlack (some y)).isRed = Function.update rq.isRed y false := rfl
theorem rbSetBlack_isRed_of_ne {y : PcbId} (h : x ≠ some y) :
    (rq.rbSetBlack x).isRed y = rq.isRed y := by
  cases x with
  | none => rfl
  | some z => exact Function.update_of_ne (fun hyz => h (congrArg some hyz.symm)) _ _

@[simp] theorem setColor_links (y : PcbId) (b : Bool) : (rq.setColor y b).links = rq.links := rfl
@[simp] theorem setColor_vruntime (y : PcbId) (b : Bool) :
    (rq.setColor y b).vruntime = rq.vruntime := rfl
@[simp] theorem setColor_isRed (y : PcbId) (b : Bool) :
    (rq.setColor y b).isRed = Function.update rq.isRed y b := rfl

end Fields

/-- A rotation towards side `d`: the child of `x` on the other side takes the place
of `x`, which becomes its child on side `d`. -/
def rotate (d : Side) (x : PcbId) : Rq :=
  match rq.links.child d.opp x with
  | none => rq
  | some y =>
      if y = x then rq
      else
        let l := rq.links
        let l := l.setChild d.opp x (l.child d y)
        let l := l.setParent? (l.child d y) (some x)
        let l := l.setParent y (l.parent x)
        let l := l.redirect d (l.parent x) x (some y)
        let l := l.setChild d y (some x)
        let l := l.setParent x (some y)
        { rq with links := l }

/-- `Rq::RbLeftRotate` -/
def rbLeftRotate (x : PcbId) : Rq := rq.rotate .left x

/-- `Rq::RbRightRotate` -/
def rbRightRotate (y : PcbId) : Rq := rq.rotate .right y

/-- A turn of the loop of `RbInsertColorFixup` where `parent` is the child of
`grandparent` on side `d`.  The other components are the new `node`. -/
def insertFixupSide (d : Side) (node parent grandparent : PcbId) : Rq × PcbId :=
  let uncle := rq.links.child d.opp grandparent
  if rq.rbIsRed uncle then
    (((rq.rbSetBlack (some parent)).rbSetBlack uncle).rbSetRed (some grandparent),
      grandparent)
  else if rq.links.child d.opp parent = some node then
    let node := parent
    let rq := rq.rotate d node
    let parent := rq.links.parent node
    let rq := (rq.rbSetBlack parent).rbSetRed (some grandparent)
    (rq.rotate d.opp grandparent, node)
  else
    let rq := (rq.rbSetBlack (some parent)).rbSetRed (some grandparent)
    (rq.rotate d.opp grandparent, node)

/-- A turn of the loop of `RbInsertColorFixup`. -/
def insertFixupTurn : Rq × PcbId → Except Fault (Turn (Rq × PcbId) Rq)
  | (rq, node) =>
      match rq.links.parent node with
      | none => .ok (.leave rq)
      | some parent =>
          if rq.isRed parent = false then .ok (.leave rq)
          else
            match rq.links.parent parent with
            | none => .ok (.leave rq)
            | some grandparent =>
                if parent = node ∨ grandparent = parent ∨ grandparent = node then
                  .ok (.leave rq)
                else if rq.links.child .left grandparent = some parent then
                  .ok (.again (rq.insertFixupSide .left node parent grandparent))
                else
                  .ok (.again (rq.insertFixupSide .right node parent grandparent))

/-- `Rq::RbInsertColorFixup` -/
def rbInsertColorFixup (fuel : Nat) (node : PcbId) : Except Fault Rq := do
  let rq ← loop insertFixupTurn .outOfFuel fuel (rq, node)
  return rq.rbSetBlack rq.links.root

/-- The first half of a turn of the loop of `RbEraseColorFixup`, with `node` the child
of `parent` on side `d`: a red sibling is rotated away. -/
def eraseFixupSibling (d : Side) (parent sibling : PcbId) : Rq × Option PcbId :=
  if rq.isRed sibling then
    let rq := ((rq.rbSetBlack (some sibling)).rbSetRed (some parent)).rotate d parent
    (rq, rq.links.child d.opp parent)
  else (rq, some sibling)

/-- The turn's last branch, at a sibling with a red child: the inner child is rotated
up if the outer one is black, then `parent` is rotated. -/
def eraseFixupRotate (d : Side) (parent sibling : PcbId) : Except Fault Rq :=
  let inner := rq.links.child d sibling
  if rq.rbIsRed (rq.links.child d.opp sibling) = false then
    let rq := ((rq.rbSetBlack inner).rbSetRed (some sibling)).rotate d.opp sibling
    match rq.links.child d.opp parent with
    | none => .error .nullDeref
    | some sibling =>
        let rq := (rq.rbSetBlack (rq.links.child d.opp sibling)).rbSetRed (some parent)
        .ok (rq.rotate d parent)
  else
    let rq := (rq.rbSetBlack (rq.links.child d.opp sibling)).rbSetRed (some parent)
    .ok (rq.rotate d parent)

/-- The state of the loop of `RbEraseColorFixup`: the queue, `node` and `parent`. -/
abbrev EraseFixup := Rq × Option PcbId × Option PcbId

/-- A turn of the loop of `RbEraseColorFixup` where `node` is the child of `parent` on
side `d`.  The loop is left with the queue and `node`. -/
def eraseFixupSide (d : Side) (node : Option PcbId) (parent : PcbId) :
    Except Fault (Turn EraseFixup (Rq × Option PcbId)) :=
  match rq.links.child d.opp parent with
  | none => .ok (.leave (rq, node))
  | some sibling =>
      match rq.eraseFixupSibling d parent sibling with
      | (_, none) => .error .nullDeref
      | (rq, some sibling) =>
          if rq.rbIsRed (rq.links.child d sibling) = false ∧
              rq.rbIsRed (rq.links.child d.opp sibling) = false then
            let rq := rq.rbSetRed (some sibling)
            .ok (.again (rq, some parent, rq.links.parent parent))
          else
            match rq.eraseFixupRotate d parent sibling with
            | .error e => .error e
            | .ok rq => .ok (.leave (rq, rq.links.root))

/-- A turn of the loop of `RbEraseColorFixup`. -/
def eraseFixupTurn : EraseFixup → Except Fault (Turn EraseFixup (Rq × Option PcbId))
  | (rq, node, none) => .ok (.leave (rq, node))
  | (rq, node, some parent) =>
      if node = rq.links.root ∨ rq.rbIsRed node = true then .ok (.leave (rq, node))
      else if node = rq.links.child .left parent then rq.eraseFixupSide .left node parent
      else rq.eraseFixupSide .right node parent

/-- `Rq::RbEraseColorFixup` -/
def rbEraseColorFixup (fuel : Nat) (node parent : Option PcbId) : Except Fault Rq := do
  let (rq, node) ← loop eraseFixupTurn .outOfFuel fuel (rq, node, parent)
  return rq.rbSetBlack node

/-- `Rq::RbInitNode` -/
def rbInitNode (node : PcbId) : Rq :=
  { rq with
    links :=
      ((rq.links.setChild .left node none).setChild .right node none).setParent node none
    isRed := Function.update rq.isRed node true }

/-- A turn of the search loop of `RbInsert`, with the loop variables `x` and `y`. -/
def searchTurn (node : PcbId) :
    Option PcbId × Option PcbId → Except Fault (Turn (Option PcbId × Option PcbId)
      (Option PcbId))
  | (none, y) => .ok (.leave y)
  | (some x, _) =>
      if rq.vruntime node < rq.vruntime x then
        .ok (.again (rq.links.child .left x, some x))
      else .ok (.again (rq.links.child .right x, some x))

/-- A turn of the loops that walk down the left links. -/
def leftTurn (x : PcbId) : Except Fault (Turn PcbId PcbId) :=
  match rq.links.child .left x with
  | none => .ok (.leave x)
  | some y => .ok (.again y)

/-- The left end of the tree below `x`. -/
def leftEnd (fuel : Nat) (x : PcbId) : Except Fault PcbId :=
  loop rq.leftTurn .outOfFuel fuel x

/-- The part of `RbInsert` that links `node`, a fresh node, under `y`. -/
def attach (node : PcbId) (y : Option PcbId) : Rq :=
  let rq := rq.rbSetParent (some node) y
  match y with
  | none => ({ rq with links := rq.links.setRoot (some node) }).rbSetBlack (some node)
  | some y =>
      if rq.vruntime node < rq.vruntime y then
        { rq with links := rq.links.setChild .left y (some node) }
      else { rq with links := rq.links.setChild .right y (some node) }

/-- The part of `RbInsert` that repairs the colours around `node`, linked under `y`. -/
def fixInserted (fuel : Nat) (node : PcbId) (y : Option PcbId) : Except Fault Rq :=
  match y with
  | none => .ok { rq with leftmost := some node }
  | some y => if rq.links.parent y ≠ none then rq.rbInsertColorFixup fuel node else .ok rq

/-- The end of `RbInsert` and of `RbErase` for a tree with root `root`: `leftmost` and
`min_vruntime` are computed again. -/
def updateLeftmost (fuel : Nat) (root : PcbId) : Except Fault Rq := do
  let leftmost ← rq.leftEnd fuel root
  return { rq with leftmost := some leftmost, minVruntime := rq.vruntime leftmost }

/-- `Rq::RbInsert` -/
def rbInsert (fuel : Nat) (node : PcbId) : Except Fault Rq := do
  let rq := rq.rbInitNode node
  let y ← loop (rq.searchTurn node) .outOfFuel fuel (rq.links.root, none)
  let rq ← (rq.attach node y).fixInserted fuel node y
  match rq.links.root with
  | none => return rq
  | some root => rq.updateLeftmost fuel root

/-- `Rq::RbReplaceNode` -/
def rbReplaceNode (u : PcbId) (v : Option PcbId) : Rq :=
  let l := rq.links.redirect .left (rq.links.parent u) u v
  { rq with links := l.setParent? v (l.parent u) }

@[simp] theorem rbReplaceNode_isRed (u : PcbId) (v : Option PcbId) :
    (rq.rbReplaceNode u v).isRed = rq.isRed := rfl

@[simp] theorem rbReplaceNode_vruntime (u : PcbId) (v : Option PcbId) :
    (rq.rbReplaceNode u v).vruntime = rq.vruntime := rfl

/-- What `RbErase` knows when it has unlinked the node: `x`, `x_parent` and
`y_original_red`. -/
structure Unlinked where
  x : Option PcbId
  xParent : Option PcbId
  yOriginalRed : Bool

/-- The branch of `RbErase` for a node that lacks a child: its child `x` takes its
place. -/
def unlinkNode (node : PcbId) (x : Option PcbId) : Rq × Unlinked :=
  (rq.rbReplaceNode node x, ⟨x, rq.links.parent node, rq.rbIsRed (some node)⟩)

/-- The branch of `RbErase` for a node with two children, up to its first call of
`RbReplaceNode` for `node`: the successor `y` leaves its place to its right child and
takes over the right subtree of `node`, unless it is the right child of `node`. -/
def detachSuccessor (node y : PcbId) : Rq :=
  let x := rq.links.child .right y
  let rq := rq.rbSetParent x (some y)
  if rq.links.parent y = some node then rq.rbSetParent x (some y)
  else
    let rq := rq.rbReplaceNode y x
    let rq := { rq with links := rq.links.setChild .right y (rq.links.child .right node) }
    rq.rbSetParent (rq.links.child .right node) (some y)

@[simp] theorem detachSuccessor_isRed (node y : PcbId) :
    (rq.detachSuccessor node y).isRed = rq.isRed := by
  unfold detachSuccessor
  simp only
  split <;> rfl

@[simp] theorem detachSuccessor_vruntime (node y : PcbId) :
    (rq.detachSuccessor node y).vruntime = rq.vruntime := by
  unfold detachSuccessor
  simp only
  split <;> rfl

/-- The rest of the branch, but for the colour: `y` takes the place of `node`. -/
def takePlace (node y : PcbId) : Rq :=
  let rq := rq.rbReplaceNode node (some y)
  let rq := { rq with links := rq.links.setChild .left y (rq.links.child .left node) }
  rq.rbSetParent (rq.links.child .left node) (some y)

@[simp] theorem takePlace_isRed (node y : PcbId) :
    (rq.takePlace node y).isRed = rq.isRed := rfl

@[simp] theorem takePlace_vruntime (node y : PcbId) :
    (rq.takePlace node y).vruntime = rq.vruntime := rfl

/-- The branch of `RbErase` for a node with two children: its successor `y` takes its
place and its colour. -/
def unlinkSuccessor (node y : PcbId) : Rq × Unlinked :=
  let u : Unlinked := ⟨rq.links.child .right y, some y, rq.rbIsRed (some y)⟩
  let rq := ((rq.detachSuccessor node y).takePlace node y).rbSetBlack (some y)
  (rq.setColor y (rq.isRed node), u)

/-- The part of `RbErase` that unlinks `node`. -/
def unlink (fuel : Nat) (node : PcbId) : Except Fault (Rq × Unlinked) :=
  match rq.links.child .left node, rq.links.child .right node with
  | none, x => .ok (rq.unlinkNode node x)
  | x, none => .ok (rq.unlinkNode node x)
  | some _, some right => do
      let y ← rq.leftEnd fuel right
      return rq.unlinkSuccessor node y

/-- The part of `RbErase` that repairs the colours. -/
def fixErased (fuel : Nat) (u : Unlinked) : Except Fault Rq :=
  if u.x ≠ none ∧ u.yOriginalRed = false then rq.rbEraseColorFixup fuel u.x u.xParent
  else .ok rq

/-- `Rq::RbErase` -/
def rbErase (fuel : Nat) (node : PcbId) : Except Fault Rq := do
  let (rq, u) ← rq.unlink fuel node
  let rq ← rq.fixErased fuel u
  match rq.links.root with
  | none => return { rq with leftmost := none, minVruntime := 0 }
  | some root => rq.updateLeftmost fuel root

end Rq

end InfoKernel.Task.Cfs
