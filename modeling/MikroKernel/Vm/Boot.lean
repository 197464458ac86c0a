import MikroKernel.Alloc.Mapped
import MikroKernel.Vm.Paging

/-!
# `paging.c` — the kernel's address space at boot

`__init_mmu` and what it calls. The linker symbols, the e820 table and the VBE handoff are
arguments: the first are constants of the image, the others lie at fixed low addresses and are only
read.

`load_pmlt_cr3` puts the new tables in force. Memory is seen through `phys_map_offset`, which is set
right after it, so the call itself does nothing here.
-/

set_option autoImplicit false

namespace MikroKernel

/-! ## Constants -/

def ptePwt : Nat := 0x8
def pteGlobal : Nat := 0x100
def pteNx : Nat := 0x8000000000000000
def kernelStacksStart : Nat := 0xFFFFFC0000600000

/-- `PTE_FLAGS_DIRECT_MAP`. -/
def pteFlagsDirectMap : Nat := ptePresent ||| pteWritable ||| pteGlobal ||| pteNx
/-- `PTE_FLAGS_KERNEL_CODE`. -/
def pteFlagsKernelCode : Nat := ptePresent ||| pteGlobal
/-- `PTE_FLAGS_KERNEL_DATA`. -/
def pteFlagsKernelData : Nat := ptePresent ||| pteWritable ||| pteNx ||| pteGlobal

/-- `PTE_FLAGS_USER_DATA`. -/
def pteFlagsUserData : Nat := ptePresent ||| pteWritable ||| pteUser ||| pteNx

/-- `sizeof(vma_t)`. -/
def vmaSize : Nat := 56

/-- The symbols of `kernel.ld` that `paging.c` takes the addresses of. -/
structure Symbols where
  kernelStart : Nat
  textEnd : Nat
  rodataStart : Nat
  rodataEnd : Nat
  dataStart : Nat
  kernelEnd : Nat

/-- What `paging.c` reads of `boot_vbe_handoff`. -/
structure VbeHandoff where
  framebufferAddress : Nat
  pitch : Nat
  heightPx : Nat

/-- `(x + size - 1) & ~(size - 1)`, for a power of two. -/
def roundUp (x size : Nat) : Nat := alignDown ((x + size - 1) % 2 ^ 64) size

/-- `DIRECT_MAP_START + p`. -/
def directMapOf (p : Nat) : Nat := (directMapStart + p) % 2 ^ 64

/-- `memset_pg(ptr)`. -/
def memsetPg (ptr : Nat) : K Unit := memsetZero ptr 4096

/-! ## The pieces of `__init_mmu` -/

section

variable (fuel : Nat) (kmalloc : Nat → K Nat) (V : Statics)

/-- What `map_direct_mapping` does with a usable entry. -/
def mapUsable (e : MmapEntry) : K Unit :=
  let lastAddr := (e.baseAddress + e.chunkSize) % 2 ^ 64
  let baseAddrAligned := roundUp e.baseAddress pageSize
  let lastAddrAligned := alignDown lastAddr pageSize
  if baseAddrAligned ≥ lastAddrAligned then pure ()
  else
    let hugeBase := roundUp baseAddrAligned hugePageSize
    let hugeEnd := alignDown lastAddrAligned hugePageSize
    if hugeBase ≥ hugeEnd then
      -- whole region fits in 4KB pages
      kmapPages fuel kmalloc V baseAddrAligned (directMapOf baseAddrAligned) pteFlagsDirectMap
        ((lastAddrAligned - baseAddrAligned) / pageSize)
    else do
      if baseAddrAligned < hugeBase then
        kmapPages fuel kmalloc V baseAddrAligned (directMapOf baseAddrAligned) pteFlagsDirectMap
          ((hugeBase - baseAddrAligned) / pageSize)
      kmapPages fuel kmalloc V hugeBase (directMapOf hugeBase) (pteFlagsDirectMap ||| pteHugePage)
        ((hugeEnd - hugeBase) / hugePageSize)
      let leftoverPteNum := (lastAddrAligned - hugeEnd) / pageSize
      if leftoverPteNum > 0 then
        kmapPages fuel kmalloc V hugeEnd (directMapOf hugeEnd) pteFlagsDirectMap leftoverPteNum

/-- `map_direct_mapping()`, over the entries that are left. -/
def mapDirectMapping : List MmapEntry → K Unit
  | [] => pure ()
  | e :: rest =>
      if e.type ≠ 1 then mapDirectMapping rest
      else do
        mapUsable fuel kmalloc V e
        mapDirectMapping rest

/-- The loop of `map_stacks` that clears the pages from `i` on. -/
def clearStack (phys : Nat) : Nat → Nat → K Unit
  | 0, _ => pure ()
  | left + 1, i => do
      memsetPg ((← directmapP2v phys) + i * pageSize)
      clearStack phys left (i + 1)

/-- `map_stacks()`. -/
def mapStacks : K Nat := do
  let physStackAddr ← kmalloc (4 * pageSize)
  if physStackAddr = 0 then kpanic "Failed to allocate 16KiB page for stack"
  clearStack physStackAddr 4 0
  kmapPages fuel kmalloc V physStackAddr kernelStacksStart pteFlagsKernelData 4
  return kernelStacksStart + 4 * pageSize - 8

/-- `map_framebuffer()`. -/
def mapFramebuffer (vbe : VbeHandoff) : K Unit :=
  let fbLast := sub64 (vbe.framebufferAddress + vbe.pitch * vbe.heightPx) 1
  let baseAligned := alignDown vbe.framebufferAddress pageSize
  let endAligned := alignDown ((fbLast + pageSize) % 2 ^ 64) pageSize
  let numPages := sub64 endAligned baseAligned / pageSize
  kmapPages fuel kmalloc V baseAligned (directMapOf baseAligned)
    (pteFlagsDirectMap ||| ptePwt) numPages

/-- The flags of `map_boot_memory` and `unmap_boot_memory`. -/
def bootFlags : Nat := ptePresent ||| pteWritable ||| pteHugePage

/-- `map_boot_memory()`. -/
def mapBootMemory : K Unit := kmapPages fuel kmalloc V 0 0 bootFlags 8

/-- `unmap_boot_memory()`. -/
def unmapBootMemory (kfree : Nat → Nat → K Unit) : K Unit :=
  kunmapPages fuel kfree V 0 0 bootFlags 8

/-- The beginning of `__init_mmu`: the lock, the cache of VMAs and an empty PML4. -/
def initSpace : K Unit := do
  spinlockInit .kernelPageLock
  let _ ← kmemCacheCreateSl V.vmaCache vmaSize
  store V.kernelPml4t .ptr (← kmalloc pageSize)
  if (← load V.kernelPml4t .ptr) = 0 then kpanic "FAILED TO ALLOCATE PML4T ROOT FOR THE KERNEL"
  memsetPg (← directmapP2v (← load V.kernelPml4t .ptr))

/-- The sections of the image and the pages of the buddy metadata behind it. -/
def mapImage (Y : Symbols) : K Unit := do
  kmapPages fuel kmalloc V (sub64 Y.kernelStart kernelImageStart) Y.kernelStart pteFlagsKernelCode
    (sub64 Y.textEnd Y.kernelStart / pageSize)
  kmapPages fuel kmalloc V (sub64 Y.rodataStart kernelImageStart) Y.rodataStart
    (ptePresent ||| pteNx ||| pteGlobal) (sub64 Y.rodataEnd Y.rodataStart / pageSize)
  let numPages := sub64 Y.kernelEnd Y.dataStart / pageSize
  kmapPages fuel kmalloc V (sub64 Y.dataStart kernelImageStart) Y.dataStart
    pteFlagsKernelData numPages
  let vaddr := (Y.dataStart + numPages * pageSize) % 2 ^ 64
  kmapPages fuel kmalloc V (sub64 vaddr kernelImageStart) vaddr
    (ptePresent ||| pteNx ||| pteGlobal ||| pteWritable) 4

/-- `load_pmlt_cr3(kernel_pml4t)`. -/
def loadPmltCr3 (_pml4t : Nat) : K Unit := pure ()

/-- `phys_map_offset = DIRECT_MAP_START`. -/
def switchPhysMap : K Unit := fun _ s => .ok ((), { s with physMapOffset := directMapStart })

/-- `vesa_set_fb_virtual(virtual_fb_base)`, with the variable `s_fb_virt` at `fbVirt`. -/
def vesaSetFbVirtual (fbVirt virtualFbBase : Nat) : K Unit := store fbVirt .ptr virtualFbBase

/-- `__init_mmu()`. -/
def initMmu (fbVirt : Nat) (Y : Symbols) (entries : List MmapEntry) (vbe : VbeHandoff) : K Nat := do
  initSpace kmalloc V
  mapImage fuel kmalloc V Y
  let virtRsp ← mapStacks fuel kmalloc V
  mapDirectMapping fuel kmalloc V entries
  mapBootMemory fuel kmalloc V
  mapFramebuffer fuel kmalloc V vbe
  loadPmltCr3 (← load V.kernelPml4t .ptr)
  switchPhysMap
  vesaSetFbVirtual fbVirt (directMapOf vbe.framebufferAddress)
  return virtRsp

end

end MikroKernel
