import MikroKernel.Machine.Fuel
import MikroKernel.Vm.Vma

/-!
# The tree code with more fuel
-/

set_option autoImplicit false

namespace MikroKernel
namespace Rb

variable {n n' root : Nat} {cmp : Nat → Nat → K Int}

theorem findLoop_le {key current : Nat} (h : n ≤ n') :
    (rbFindLoop key cmp n current).Le (rbFindLoop key cmp n' current) := by
  induction n generalizing n' current with
  | zero =>
    cases n' with
    | zero => exact K.Le.refl _
    | succ n' => exact K.Le.ite (K.Le.refl _) (K.Le.stop _ _)
  | succ n ih =>
    cases n' with
    | zero => exact absurd h (by omega)
    | succ n' =>
      have hle : n ≤ n' := by omega
      refine K.Le.ite (K.Le.refl _) (K.Le.bind_right (fun r => ?_))
      exact K.Le.ite (K.Le.bind_right (fun _ => ih hle))
        (K.Le.ite (K.Le.bind_right (fun _ => ih hle)) (K.Le.refl _))

theorem insertLoop_le {node current parent : Nat} (h : n ≤ n') :
    (rbInsertLoop node cmp n current parent).Le (rbInsertLoop node cmp n' current parent) := by
  induction n generalizing n' current parent with
  | zero =>
    cases n' with
    | zero => exact K.Le.refl _
    | succ n' => exact K.Le.ite (K.Le.refl _) (K.Le.stop _ _)
  | succ n ih =>
    cases n' with
    | zero => exact absurd h (by omega)
    | succ n' =>
      have hle : n ≤ n' := by omega
      refine K.Le.ite (K.Le.refl _) (K.Le.bind_right (fun r => ?_))
      exact K.Le.ite (K.Le.bind_right (fun _ => ih hle))
        (K.Le.ite (K.Le.bind_right (fun _ => ih hle)) (K.Le.refl _))

theorem findVmaLoop_le {addr current : Nat} (h : n ≤ n') :
    (rbFindVmaLoop addr n current).Le (rbFindVmaLoop addr n' current) := by
  induction n generalizing n' current with
  | zero =>
    cases n' with
    | zero => exact K.Le.refl _
    | succ n' => exact K.Le.ite (K.Le.refl _) (K.Le.stop _ _)
  | succ n ih =>
    cases n' with
    | zero => exact absurd h (by omega)
    | succ n' =>
      have hle : n ≤ n' := by omega
      refine K.Le.ite (K.Le.refl _) (K.Le.bind_right (fun _ => ?_))
      refine K.Le.ite (K.Le.bind_right (fun _ => ih hle)) (K.Le.bind_right (fun _ => ?_))
      exact K.Le.ite (K.Le.bind_right (fun _ => ih hle)) (K.Le.refl _)

theorem minimum_le {node : Nat} (h : n ≤ n') : (rbMinimum n node).Le (rbMinimum n' node) := by
  induction n generalizing n' node with
  | zero => exact K.Le.stop _ _
  | succ n ih =>
    cases n' with
    | zero => exact absurd h (by omega)
    | succ n' =>
      have hle : n ≤ n' := by omega
      refine K.Le.bind_right (fun _ => K.Le.ite (K.Le.bind_right (fun _ => ih hle)) (K.Le.refl _))

theorem insertFixupLoop_le {x : Nat} (h : n ≤ n') :
    (rbInsertFixupLoop root n x).Le (rbInsertFixupLoop root n' x) := by
  induction n generalizing n' x with
  | zero => exact K.Le.stop _ _
  | succ n ih =>
    cases n' with
    | zero => exact absurd h (by omega)
    | succ n' =>
      have hle : n ≤ n' := by omega
      refine K.Le.bind_right (fun _ => K.Le.ite (K.Le.refl _) ?_)
      refine K.Le.bind_right (fun _ => K.Le.bind_right (fun _ => K.Le.ite (K.Le.refl _) ?_))
      refine K.Le.bind_right (fun _ => K.Le.bind_right (fun _ => K.Le.ite (K.Le.refl _) ?_))
      refine K.Le.bind_right (fun _ => K.Le.bind_right (fun _ => K.Le.bind_right (fun _ =>
        K.Le.bind_right (fun _ => ?_))))
      exact K.Le.ite (K.Le.bind_right (fun _ => ih hle)) (K.Le.bind_right (fun _ => ih hle))

theorem deleteFixupLoop_le {x xParent : Nat} (h : n ≤ n') :
    (rbDeleteFixupLoop root n x xParent).Le (rbDeleteFixupLoop root n' x xParent) := by
  induction n generalizing n' x xParent with
  | zero => exact K.Le.stop _ _
  | succ n ih =>
    cases n' with
    | zero => exact absurd h (by omega)
    | succ n' =>
      have hle : n ≤ n' := by omega
      refine K.Le.bind_right (fun _ => K.Le.ite (K.Le.refl _) ?_)
      refine K.Le.bind_right (fun _ => K.Le.ite (K.Le.bind_right (fun _ => ?_)) (K.Le.refl _))
      exact K.Le.ite (K.Le.bind_right (fun _ => ih hle)) (K.Le.bind_right (fun _ => ih hle))

/-- **`rb_insert`** with more fuel. -/
theorem insert_le {x : Nat} (h : n ≤ n') : (rbInsert n root x cmp).Le (rbInsert n' root x cmp) := by
  refine K.Le.bind_right (fun _ => K.Le.bind_right (fun _ => K.Le.bind_right (fun _ => ?_)))
  refine K.Le.bind (insertLoop_le h) (fun r => ?_)
  cases r with
  | none => exact K.Le.refl _
  | some parent =>
    refine K.Le.ite (K.Le.refl _) (K.Le.bind_right (fun _ => K.Le.ite (K.Le.refl _) ?_))
    have hrest : (do
          p2vStore x .parent parent
          p2vStore x .color rbRed
          rbInsertFixup n root x
          pure x : K Nat).Le (do
          p2vStore x .parent parent
          p2vStore x .color rbRed
          rbInsertFixup n' root x
          pure x) := by
      refine K.Le.bind_right (fun _ => K.Le.bind_right (fun _ => ?_))
      exact K.Le.bind (K.Le.bind (insertFixupLoop_le h) (fun _ => K.Le.refl _))
        (fun _ => K.Le.refl _)
    exact K.Le.ite (K.Le.bind_right (fun _ => hrest)) (K.Le.bind_right (fun _ => hrest))

/-- **`rb_delete`** with more fuel. -/
theorem delete_le {key : Nat} (h : n ≤ n') :
    (rbDelete n root key cmp).Le (rbDelete n' root key cmp) := by
  refine K.Le.bind (K.Le.bind_right (fun _ => findLoop_le h))
    (fun node => K.Le.ite (K.Le.refl _) ?_)
  refine K.Le.bind_right (fun c => ?_)
  have hunlink : (rbUnlink n root node c).Le (rbUnlink n' root node c) := by
    refine K.Le.bind_right (fun _ => K.Le.ite (K.Le.refl _) ?_)
    refine K.Le.bind_right (fun _ => K.Le.ite (K.Le.refl _) ?_)
    exact K.Le.bind_right (fun _ => K.Le.bind (minimum_le h) (fun _ => K.Le.refl _))
  refine K.Le.bind hunlink (fun r => ?_)
  refine K.Le.ite (K.Le.bind ?_ (fun _ => K.Le.refl _)) (K.Le.refl _)
  exact K.Le.bind (deleteFixupLoop_le h) (fun _ => K.Le.refl _)

/-- **`rb_find_vma`** with more fuel. -/
theorem findVma_le {addr : Nat} (h : n ≤ n') :
    (rbFindVma n root addr).Le (rbFindVma n' root addr) :=
  K.Le.bind_right (fun _ => findVmaLoop_le h)

end Rb
end MikroKernel
