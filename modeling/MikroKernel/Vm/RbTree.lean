import MikroKernel.Lib.RedBlack
import MikroKernel.Machine.Spinlock

/-!
# `rb_tree.c` — the red-black tree

Nodes are `struct rb_node`s anywhere in memory, linked by their addresses as they were stored; each
access goes through `directmap_p2v`. The variable that holds the root is read as it is.

The source writes every case twice, once for each side. Here the side is an argument: with `d` the
side a piece of code is about, `d.field` is the link on that side and `d.flip.field` the other one.
The loops have fuel, the number of rounds they may take.
-/

set_option autoImplicit false

/-- `node->left` or `node->right`. -/
def RedBlack.Side.field : RedBlack.Side → MikroKernel.Field
  | .left => .left
  | .right => .right

namespace MikroKernel

open RedBlack

def rbRed : Nat := 0
def rbBlack : Nat := 1

/-! ## Turning, finding, replacing -/

/-- The conditional that the rotations and `rb_transplant` have in common: what led to `node` now
leads to `tmp`. Side `d` of the parent is looked at first. -/
def rbRelink (d : Side) (root node tmp : Nat) : K Unit := do
  if (← p2vLoad node .parent) = 0 then
    store root .ptr tmp
  else do
    if node = (← p2vLoad (← p2vLoad node .parent) d.field) then
      p2vStore (← p2vLoad node .parent) d.field tmp
    else
      p2vStore (← p2vLoad node .parent) d.flip.field tmp

/-- The rotation towards side `d`. -/
def rbRotate (d : Side) (root node : Nat) : K Unit := do
  let tmp ← p2vLoad node d.flip.field
  p2vStore node d.flip.field (← p2vLoad tmp d.field)
  if (← p2vLoad tmp d.field) ≠ 0 then
    p2vStore (← p2vLoad node d.flip.field) .parent node
  p2vStore tmp .parent (← p2vLoad node .parent)
  rbRelink d root node tmp
  p2vStore tmp d.field node
  p2vStore node .parent tmp

/-- `rb_rotate_left(root, node)`. -/
def rbRotateLeft (root node : Nat) : K Unit := rbRotate .left root node

/-- `rb_rotate_right(root, node)`. -/
def rbRotateRight (root node : Nat) : K Unit := rbRotate .right root node

/-- The loop of `rb_find_exact`. -/
def rbFindLoop (key : Nat) (cmp : Nat → Nat → K Int) : Nat → Nat → K Nat
  | 0, current => if current = 0 then pure 0 else K.stop .fuel
  | fuel + 1, current =>
      if current = 0 then pure 0
      else do
        let result ← cmp key current
        if result < 0 then rbFindLoop key cmp fuel (← p2vLoad current .left)
        else if result > 0 then rbFindLoop key cmp fuel (← p2vLoad current .right)
        else pure current

/-- `rb_find_exact(root, key, cmp)`. -/
def rbFindExact (fuel root key : Nat) (cmp : Nat → Nat → K Int) : K Nat := do
  rbFindLoop key cmp fuel (← load root .ptr)

/-- `rb_minimum(node)`. -/
def rbMinimum : Nat → Nat → K Nat
  | 0, _ => K.stop .fuel
  | fuel + 1, node => do
      if (← p2vLoad node .left) ≠ 0 then rbMinimum fuel (← p2vLoad node .left)
      else pure node

/-- `rb_transplant(root, node, replacement)`. -/
def rbTransplant (root node replacement : Nat) : K Unit := do
  rbRelink .left root node replacement
  if replacement ≠ 0 then
    p2vStore replacement .parent (← p2vLoad node .parent)

/-- `node != NULL && directmap_p2v(node)->color == RB_RED`. -/
def rbIsRed (node : Nat) : K Bool :=
  if node = 0 then pure false else do pure (decide ((← p2vLoad node .color) = rbRed))

/-! ## `rb_insert` -/

/-- Case 2 of `rb_insert_fixup`: an inner child is turned to the outer side. -/
def rbInsertFixupInner (d : Side) (root x : Nat) : K Nat := do
  if x = (← p2vLoad (← p2vLoad x .parent) d.flip.field) then do
    let x ← p2vLoad x .parent
    rbRotate d root x
    pure x
  else pure x

/-- Case 3: node is the outer child. -/
def rbInsertFixupOuter (d : Side) (root x : Nat) : K Nat := do
  p2vStore (← p2vLoad x .parent) .color rbBlack
  p2vStore (← p2vLoad (← p2vLoad x .parent) .parent) .color rbRed
  rbRotate d.flip root (← p2vLoad (← p2vLoad x .parent) .parent)
  pure x

/-- One round of `rb_insert_fixup`, where the parent of `x` is on side `d` of the grandparent. -/
def rbInsertFixupStep (d : Side) (root x : Nat) : K Nat := do
  let uncle ← p2vLoad (← p2vLoad (← p2vLoad x .parent) .parent) d.flip.field
  if ← rbIsRed uncle then do
    -- case 1: uncle is red
    p2vStore (← p2vLoad x .parent) .color rbBlack
    p2vStore uncle .color rbBlack
    p2vStore (← p2vLoad (← p2vLoad x .parent) .parent) .color rbRed
    p2vLoad (← p2vLoad x .parent) .parent
  else do
    rbInsertFixupOuter d root (← rbInsertFixupInner d root x)

/-- The loop of `rb_insert_fixup`. -/
def rbInsertFixupLoop (root : Nat) : Nat → Nat → K Unit
  | 0, _ => K.stop .fuel
  | fuel + 1, x => do
      if (← p2vLoad x .parent) = 0 then pure ()
      else do
        if (← p2vLoad (← p2vLoad x .parent) .color) ≠ rbRed then pure ()
        else do
          if (← p2vLoad (← p2vLoad x .parent) .parent) = 0 then pure ()
          else do
            let parent ← p2vLoad x .parent
            if parent = (← p2vLoad (← p2vLoad (← p2vLoad x .parent) .parent) .left) then do
              rbInsertFixupLoop root fuel (← rbInsertFixupStep .left root x)
            else do
              rbInsertFixupLoop root fuel (← rbInsertFixupStep .right root x)

/-- `rb_insert_fixup(root, x)`. -/
def rbInsertFixup (fuel root x : Nat) : K Unit := do
  rbInsertFixupLoop root fuel x
  p2vStore (← load root .ptr) .color rbBlack

/-- The loop of `rb_insert`: the last node before the end of the way, `none` for a duplicate. -/
def rbInsertLoop (node : Nat) (cmp : Nat → Nat → K Int) : Nat → Nat → Nat → K (Option Nat)
  | 0, current, parent => if current = 0 then pure (some parent) else K.stop .fuel
  | fuel + 1, current, parent =>
      if current = 0 then pure (some parent)
      else do
        let result ← cmp node current
        if result < 0 then rbInsertLoop node cmp fuel (← p2vLoad current .left) current
        else if result > 0 then rbInsertLoop node cmp fuel (← p2vLoad current .right) current
        else pure none

/-- The end of `rb_insert`, with the place found. -/
def rbInsertAt (fuel root node : Nat) (cmp : Nat → Nat → K Int) (parent : Nat) : K Nat := do
  if parent = 0 then
    store root .ptr node
    p2vStore node .parent 0
    p2vStore node .color rbBlack
    pure node
  else do
    let result ← cmp node parent
    if result = 0 then pure 0
    else do
      if result < 0 then p2vStore parent .left node else p2vStore parent .right node
      p2vStore node .parent parent
      p2vStore node .color rbRed
      rbInsertFixup fuel root node
      pure node

/-- `rb_insert(root, node, cmp)`. -/
def rbInsert (fuel root node : Nat) (cmp : Nat → Nat → K Int) : K Nat := do
  p2vStore node .left 0
  p2vStore node .right 0
  match ← rbInsertLoop node cmp fuel (← load root .ptr) 0 with
  | some parent => rbInsertAt fuel root node cmp parent
  | none => pure 0

/-! ## `rb_delete` -/

/-- `directmap_p2v(node)->left == NULL || directmap_p2v(directmap_p2v(node)->left)->color ==
RB_BLACK`, or the same of the right child. -/
def rbBlackChild (d : Side) (node : Nat) : K Bool := do
  if (← p2vLoad node d.field) = 0 then pure true
  else do pure (decide ((← p2vLoad (← p2vLoad node d.field) .color) = rbBlack))

/-- The condition of case 2: both children are black. -/
def rbBlackChildren (d : Side) (node : Nat) : K Bool := do
  if ← rbBlackChild d node then rbBlackChild d.flip node else pure false

/-- `if (directmap_p2v(node)->left != NULL)`: that child becomes black. -/
def rbBlackenChild (d : Side) (node : Nat) : K Unit := do
  if (← p2vLoad node d.field) ≠ 0 then
    p2vStore (← p2vLoad node d.field) .color rbBlack

/-- Case 1 of `rb_delete_fixup`: a red sibling is turned away. The sibling after that. -/
def rbDeleteFixupRed (d : Side) (root xParent sibling : Nat) : K Nat := do
  if ← rbIsRed sibling then do
    p2vStore sibling .color rbBlack
    p2vStore xParent .color rbRed
    rbRotate d root xParent
    p2vLoad xParent d.flip.field
  else pure sibling

/-- Case 3: sibling is black, sibling's outer child is black. The sibling after that. -/
def rbDeleteFixupInner (d : Side) (root xParent sibling : Nat) : K Nat := do
  if ← rbBlackChild d.flip sibling then do
    rbBlackenChild d sibling
    p2vStore sibling .color rbRed
    rbRotate d.flip root sibling
    p2vLoad xParent d.flip.field
  else pure sibling

/-- Case 4: sibling is black, sibling's outer child is red. -/
def rbDeleteFixupOuter (d : Side) (root xParent sibling : Nat) : K Unit := do
  p2vStore sibling .color (← p2vLoad xParent .color)
  p2vStore xParent .color rbBlack
  rbBlackenChild d.flip sibling
  rbRotate d root xParent

/-- One round of `rb_delete_fixup`, where `x` is on side `d` of `x_parent`: the new `x` and
`x_parent`. -/
def rbDeleteFixupStep (d : Side) (root xParent : Nat) : K (Nat × Nat) := do
  let sibling ← rbDeleteFixupRed d root xParent (← p2vLoad xParent d.flip.field)
  if ← rbBlackChildren d sibling then do
    -- case 2: sibling is black, both sibling's children are black
    p2vStore sibling .color rbRed
    pure (xParent, ← p2vLoad xParent .parent)
  else do
    rbDeleteFixupOuter d root xParent (← rbDeleteFixupInner d root xParent sibling)
    pure (← load root .ptr, xParent)

/-- `x == NULL || directmap_p2v(x)->color == RB_BLACK`. -/
def rbIsBlack (x : Nat) : K Bool :=
  if x = 0 then pure true else do pure (decide ((← p2vLoad x .color) = rbBlack))

/-- The loop of `rb_delete_fixup`: the `x` it ends with. -/
def rbDeleteFixupLoop (root : Nat) : Nat → Nat → Nat → K Nat
  | 0, _, _ => K.stop .fuel
  | fuel + 1, x, xParent => do
      if x = (← load root .ptr) then pure x
      else do
        if ← rbIsBlack x then do
          if x = (← p2vLoad xParent .left) then do
            let r ← rbDeleteFixupStep .left root xParent
            rbDeleteFixupLoop root fuel r.1 r.2
          else do
            let r ← rbDeleteFixupStep .right root xParent
            rbDeleteFixupLoop root fuel r.1 r.2
        else pure x

/-- `rb_delete_fixup(root, x, x_parent)`. -/
def rbDeleteFixup (fuel root x xParent : Nat) : K Unit := do
  let x ← rbDeleteFixupLoop root fuel x xParent
  if x ≠ 0 then p2vStore x .color rbBlack

/-- The successor `y` of `node` is taken out of its place, unless that is just below `node`. The
value is `x_parent`. -/
def rbDetachSuccessor (root node y x : Nat) : K Nat := do
  if (← p2vLoad y .parent) = node then do
    if x ≠ 0 then p2vStore x .parent y
    pure y
  else do
    rbTransplant root y (← p2vLoad y .right)
    p2vStore y .right (← p2vLoad node .right)
    p2vStore (← p2vLoad y .right) .parent y
    p2vLoad y .parent

/-- The part of `rb_delete` for a node with two children: `y_original_color`, `x` and `x_parent`. -/
def rbDeleteInner (fuel root node : Nat) : K (Nat × Nat × Nat) := do
  let y ← rbMinimum fuel (← p2vLoad node .right)
  let yOriginalColor ← p2vLoad y .color
  let x ← p2vLoad y .right
  let xParent ← rbDetachSuccessor root node y x
  rbTransplant root node y
  p2vStore y .left (← p2vLoad node .left)
  p2vStore (← p2vLoad y .left) .parent y
  p2vStore y .color (← p2vLoad node .color)
  pure (yOriginalColor, x, xParent)

/-- The part of `rb_delete` for a node with at most the child on side `d`: `x` and `x_parent`. -/
def rbDeleteOuter (d : Side) (root node : Nat) : K (Nat × Nat) := do
  let x ← p2vLoad node d.field
  let xParent ← p2vLoad node .parent
  rbTransplant root node (← p2vLoad node d.field)
  pure (x, xParent)

/-- The three cases of `rb_delete`: `y_original_color`, `x` and `x_parent`. -/
def rbUnlink (fuel root node color : Nat) : K (Nat × Nat × Nat) := do
  if (← p2vLoad node .left) = 0 then do
    pure (color, ← rbDeleteOuter .right root node)
  else do
    if (← p2vLoad node .right) = 0 then do
      pure (color, ← rbDeleteOuter .left root node)
    else rbDeleteInner fuel root node

/-- `rb_delete` once the node is found. -/
def rbDeleteNode (fuel root node : Nat) : K Bool := do
  let r ← rbUnlink fuel root node (← p2vLoad node .color)
  if r.1 = rbBlack then
    rbDeleteFixup fuel root r.2.1 r.2.2
  pure true

/-- `rb_delete(root, key, cmp)`. -/
def rbDelete (fuel root key : Nat) (cmp : Nat → Nat → K Int) : K Bool := do
  let node ← rbFindExact fuel root key cmp
  if node = 0 then pure false else rbDeleteNode fuel root node

end MikroKernel
