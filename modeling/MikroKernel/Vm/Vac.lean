import MikroKernel.Vm.Vma

/-!
# `virt_kmalloc.c` — virtual allocation chunks

A `vac_t` holds the bounds of an allocation and, at offset 16, the node by which it is in a tree.
The searches are those of `vm.c` once more.
-/

set_option autoImplicit false

namespace MikroKernel

/-- `offsetof(vac_t, node)`. -/
def vacNode : Nat := 16

/-- `container_of(x, vac_t, node)`. -/
def vacOf (x : Nat) : Nat := x - vacNode

/-- `rb_successor_vac(root, addr)`. -/
def rbSuccessorVac (fuel root addr : Nat) : K Nat :=
  rbNearest .left vacOf .vacAddr (fun start => addr < start) fuel root

/-- `rb_predeccessor_vac(root, addr)`. -/
def rbPredeccessorVac (fuel root addr : Nat) : K Nat :=
  rbNearest .right vacOf .vacAddr (fun start => addr > start) fuel root

/-- `rb_find_vac(root, addr)`: the chunk that `addr` falls in. -/
def rbFindVac (fuel root addr : Nat) : K Nat := do
  rbFindAreaLoop vacOf .vacAddr .vacEnd addr fuel (← load root .ptr)

end MikroKernel
