import MikroKernel.Alloc.Slab
import MikroKernel.Vm.Mmu
import MikroKernel.Vm.Vma

/-!
# `paging.c` — the kernel's own mappings

`kmap_pages` and `kunmap_pages` change two structures: the tree of VMAs under `kernel_rb_root`,
whose nodes are objects of `vma_cache`, and the page tables under `kernel_pml4t`. Both changes are
made under `kernel_page_lock`; the allocation of a VMA and the lookup of one are not.

The page allocator is an argument, as in `Vm/Mmu.lean`. `fuel` bounds the loops of the tree.
-/

set_option autoImplicit false

namespace MikroKernel

/-- Where the static variables of `paging.c` are. -/
structure Statics where
  kernelPml4t : Nat
  kernelRbRoot : Nat
  vmaCache : Nat

/-- `rb_insert_vma(v)`. -/
def rbInsertVma (fuel : Nat) (V : Statics) (v : Nat) : K Unit := do
  let _ ← rbInsert fuel V.kernelRbRoot (v + vmaNode) vmaCmp

/-- `rb_remove_vma(v)`. -/
def rbRemoveVma (fuel : Nat) (V : Statics) (v : Nat) : K Unit := do
  let _ ← rbDelete fuel V.kernelRbRoot (v + vmaNode) vmaCmp

/-- `HUGE_PAGE_SIZE` or `PAGE_SIZE`, by the flags. -/
def pageBytes (flags : Nat) : Nat := if flags &&& pteHugePage ≠ 0 then hugePageSize else pageSize

/-- The three stores that fill a VMA. -/
def fillVma (vma paddr vaddr flags numPages : Nat) : K Unit := do
  p2vStore vma .vmaStart vaddr
  p2vStore vma .vmaEnd ((vaddr + numPages * pageBytes flags) % 2 ^ 64)
  p2vStore vma .vmaPte (paddr ||| flags)

/-- What `kmap_pages` does under `kernel_page_lock`. -/
def mapSection (fuel : Nat) (kmalloc : Nat → K Nat) (V : Statics)
    (vma paddr vaddr flags numPages : Nat) : K Unit := do
  rbInsertVma fuel V vma
  mapPages kmalloc (← load V.kernelPml4t .ptr) paddr vaddr flags numPages

/-- `kmap_pages(paddr, vaddr, flags, num_pages)`. The two branches of the source differ in the size
of the pages only. -/
def kmapPages (fuel : Nat) (kmalloc : Nat → K Nat) (V : Statics)
    (paddr vaddr flags numPages : Nat) : K Unit := do
  let vma ← kmemCacheKalloc kmalloc V.vmaCache
  if vma = 0 then kpanic "FAILED TO ALLOCATE A VMA STRUCT IN KMAP_PAGES"
  fillVma vma paddr vaddr flags numPages
  locked .kernelPageLock (mapSection fuel kmalloc V vma paddr vaddr flags numPages)

/-- What `kunmap_pages` does under `kernel_page_lock`, with the VMA it has found before. -/
def unmapSection (fuel : Nat) (kfree : Nat → Nat → K Unit) (V : Statics)
    (vma paddr vaddr flags numPages : Nat) : K Unit := do
  rbRemoveVma fuel V vma
  kmemCacheKfree V.vmaCache vma
  unmapPages kfree (← load V.kernelPml4t .ptr) paddr vaddr flags numPages

/-- `kunmap_pages(paddr, vaddr, flags, num_pages)`. -/
def kunmapPages (fuel : Nat) (kfree : Nat → Nat → K Unit) (V : Statics)
    (paddr vaddr flags numPages : Nat) : K Unit := do
  let vma ← rbFindVma fuel V.kernelRbRoot vaddr
  if vma = 0 then pure ()
  else locked .kernelPageLock (unmapSection fuel kfree V vma paddr vaddr flags numPages)

end MikroKernel
