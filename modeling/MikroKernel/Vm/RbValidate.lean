import MikroKernel.Vm.Vma

/-!
# `rb_tree.h` — the checker of debug builds

`rb_validate` reads the nodes as they are, without `directmap_p2v`, so the pointers in the tree have
to be ones the current view can read. The cell `path_black_count` points to is an argument and a
result here. Its counts are `int`s.
-/

set_option autoImplicit false

namespace MikroKernel

open RedBlack (Side)

/-- An `int`. -/
def int32 (x : Int) : Int := x.bmod (2 ^ 32)

/-- Some check of a list fails, tried in order. -/
def anyOf : List (K Bool) → K Bool
  | [] => pure false
  | check :: checks => do
      if ← check then pure true else anyOf checks

/-- `node->left != NULL && …`, where the rest is `bad` of the child. -/
def rbChildIs (node : Nat) (d : Side) (bad : Nat → K Bool) : K Bool := do
  if (← load node d.field) ≠ 0 then bad (← load node d.field) else pure false

/-- A red node has a red child. -/
def rbRedViolation (node : Nat) : K Bool := do
  if (← load node .color) = rbRed then
    anyOf [rbChildIs node .left (fun child => do pure (decide ((← load child .color) = rbRed))),
      rbChildIs node .right (fun child => do pure (decide ((← load child .color) = rbRed)))]
  else pure false

/-- The checks of a node, in the source's order: the colours, the parent links, the order. -/
def rbViolation (node : Nat) : K Bool :=
  anyOf [rbRedViolation node,
    rbChildIs node .left (fun child => do pure (decide ((← load child .parent) ≠ node))),
    rbChildIs node .right (fun child => do pure (decide ((← load child .parent) ≠ node))),
    rbChildIs node .left (fun child => do
      pure (decide ((← load (vmaOf child) .vmaStart) ≥ (← load (vmaOf node) .vmaStart)))),
    rbChildIs node .right (fun child => do
      pure (decide ((← load (vmaOf child) .vmaStart) ≤ (← load (vmaOf node) .vmaStart))))]

/-- `rb_validate_helper(node, black_count, path_black_count)`: the result, and what is in the cell
then. The fuel is the depth of the recursion. -/
def rbValidateHelper : Nat → Nat → Int → Int → K (Bool × Int)
  | 0, node, blackCount, path =>
      if node = 0
        then pure (if path = -1 then (true, blackCount) else (decide (blackCount = path), path))
      else K.stop .fuel
  | fuel + 1, node, blackCount, path =>
      if node = 0
        then pure (if path = -1 then (true, blackCount) else (decide (blackCount = path), path))
      else do
        if ← rbViolation node then pure (false, path)
        else do
          let blackCount := if (← load node .color) = rbBlack then int32 (blackCount + 1)
            else blackCount
          let left ← rbValidateHelper fuel (← load node .left) blackCount path
          if left.1 then rbValidateHelper fuel (← load node .right) blackCount left.2
          else pure left

/-- `rb_validate(root)`. -/
def rbValidate (fuel root : Nat) : K Bool := do
  if (← load root .ptr) = 0 then pure true
  else do
    if (← load (← load root .ptr) .color) ≠ rbBlack then pure false
    else do
      if (← load (← load root .ptr) .parent) ≠ 0 then pure false
      else do
        let result ← rbValidateHelper fuel (← load root .ptr) 0 (-1)
        pure result.1

end MikroKernel
