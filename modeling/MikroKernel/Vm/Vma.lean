import MikroKernel.Vm.RbTree

/-!
# `vm.c` — virtual memory areas

A `vma_t` holds its bounds and, at offset 24, the node by which it is in a tree.
-/

set_option autoImplicit false

namespace MikroKernel

/-- `offsetof(vma_t, node)`. -/
def vmaNode : Nat := 24

/-- `container_of(x, vma_t, node)`. -/
def vmaOf (x : Nat) : Nat := x - vmaNode

/-! ## Neighbours

`rb_successor` and `rb_predeccessor` are one loop with the sides exchanged, and `virt_kmalloc.c` has
both again for its own areas. -/

/-- The loop that the four have in common: an area whose start is `beyond` the address is a
candidate, and the search goes on to side `d`, otherwise to the other side. -/
def rbNearestLoop (d : RedBlack.Side) (areaOf : Nat → Nat) (start : Field) (beyond : Nat → Bool) :
    Nat → Nat → Nat → K Nat
  | 0, current, nearest => if current = 0 then pure nearest else K.stop .fuel
  | fuel + 1, current, nearest =>
      if current = 0 then pure nearest
      else do
        if beyond (← p2vLoad (areaOf current) start) then
          rbNearestLoop d areaOf start beyond fuel (← p2vLoad current d.field) current
        else
          rbNearestLoop d areaOf start beyond fuel (← p2vLoad current d.flip.field) nearest

/-- The loop from the root on, and the `container_of` of its result. -/
def rbNearest (d : RedBlack.Side) (areaOf : Nat → Nat) (start : Field) (beyond : Nat → Bool)
    (fuel root : Nat) : K Nat := do
  let nearest ← rbNearestLoop d areaOf start beyond fuel (← load root .ptr) 0
  pure (if nearest ≠ 0 then areaOf nearest else 0)

/-- `rb_successor(root, addr)`. -/
def rbSuccessor (fuel root addr : Nat) : K Nat :=
  rbNearest .left vmaOf .vmaStart (fun start => addr < start) fuel root

/-- `rb_predeccessor(root, addr)`. -/
def rbPredeccessor (fuel root addr : Nat) : K Nat :=
  rbNearest .right vmaOf .vmaStart (fun start => addr > start) fuel root

/-! ## The area of an address -/

/-- The loop of `rb_find_vma`. -/
def rbFindVmaLoop (addr : Nat) : Nat → Nat → K Nat
  | 0, current => if current = 0 then pure 0 else K.stop .fuel
  | fuel + 1, current =>
      if current = 0 then pure 0
      else do
        if addr < (← p2vLoad (vmaOf current) .vmaStart) then
          rbFindVmaLoop addr fuel (← p2vLoad current .left)
        else do
          if addr ≥ (← p2vLoad (vmaOf current) .vmaEnd) then
            rbFindVmaLoop addr fuel (← p2vLoad current .right)
          else pure (vmaOf current)

/-- `rb_find_vma(root, addr)`: the VMA that `addr` falls in. -/
def rbFindVma (fuel root addr : Nat) : K Nat := do
  rbFindVmaLoop addr fuel (← load root .ptr)

/-- The same loop for areas of any kind. -/
def rbFindAreaLoop (areaOf : Nat → Nat) (start stop : Field) (addr : Nat) : Nat → Nat → K Nat
  | 0, current => if current = 0 then pure 0 else K.stop .fuel
  | fuel + 1, current =>
      if current = 0 then pure 0
      else do
        if addr < (← p2vLoad (areaOf current) start) then
          rbFindAreaLoop areaOf start stop addr fuel (← p2vLoad current .left)
        else do
          if addr ≥ (← p2vLoad (areaOf current) stop) then
            rbFindAreaLoop areaOf start stop addr fuel (← p2vLoad current .right)
          else pure (areaOf current)

theorem rbFindVmaLoop_eq (addr : Nat) :
    rbFindVmaLoop addr = rbFindAreaLoop vmaOf .vmaStart .vmaEnd addr := by
  funext fuel
  induction fuel with
  | zero => rfl
  | succ fuel ih =>
    funext current
    unfold rbFindVmaLoop rbFindAreaLoop
    rw [ih]

/-- `vma_cmp(a, b)`. -/
def vmaCmp (a b : Nat) : K Int := do
  if (← p2vLoad (vmaOf a) .vmaStart) < (← p2vLoad (vmaOf b) .vmaStart) then pure (-1)
  else do
    if (← p2vLoad (vmaOf a) .vmaStart) > (← p2vLoad (vmaOf b) .vmaStart) then pure 1
    else pure 0

end MikroKernel
