import MikroKernel.Proof.Mmu.Walk

/-!
# `pmap.c` — the kernel's copy of the memory map

The copy is made byte by byte, between low memory and the image, so memory is bytes here, by
physical address, and every access goes through the page tables that are in force: `tr` is their
translation, and an address it does not translate faults (`none`). `wrote` lists the virtual
addresses stored to.
-/

set_option autoImplicit false

namespace MikroKernel.Boot

structure Bytes where
  phys : Nat → BitVec 8
  wrote : List Nat

/-- `sizeof(pmap_buf)`. -/
def pmapBufSize : Nat := pageSize / 2

section

variable (tr : Nat → Option Nat)

end

end MikroKernel.Boot
