import MikroKernel.Boot.Screen

/-!
# `start_kernel.c` — boot up to the kernel's own page tables

`start_kernel` as far as the return of `__init_mmu`, with what it writes to the framebuffer. The
call of `__init_idt` is left out here: it fills a table that only the CPU reads, and programs the
interrupt controller (`Interrupt/Idt.lean`). So is the line that `PANIC` prints before it halts.

`.bss` is no part of the loaded file and is never cleared. What a static variable there contains
when `start_kernel` begins is what was in RAM.
-/

set_option autoImplicit false

namespace MikroKernel.Boot

/-- Where the static variables are that boot uses; all are in `.bss`. -/
structure BootStatics extends Statics where
  slabCaches : Nat
  fbVirt : Nat

/-- What boot is given: the font and the symbols of the image, and what the bootloader left. -/
structure BootInput where
  font : Nat → Nat
  symbols : Symbols
  entries : List MmapEntry
  vbe : VbeInfo

section

variable (B : BootStatics) (I : BootInput)

/-- `vesa_nt_println` of a text. -/
def println (text : String) (row col : Nat) : K (List Pixel) :=
  vesaNtPrintln I.font B.fbVirt I.vbe (bytes text) row col

/-- `khello()`. -/
def khello : K (List Pixel) := do
  let cleared ← vbeBlackScreen B.fbVirt I.vbe
  return cleared ++ (← println B I "Welcome to E.K's mikrokernellib" 0 0)

/-- `__init_buddy()` with its two prints. The first comes after `spinlock_init`, which printing does
not see. -/
def initBuddyShown : K (List Pixel) := do
  let table ← vesaPrintMmap I.font B.fbVirt I.vbe I.entries 0 17 0
  initBuddy I.entries
  return table ++ (← println B I "Initialized buddy allocation..." 1 0)

/-- `__init_slab()` with its print. -/
def initSlabShown : K (Status × List Pixel) := do
  let status ← initSlab B.slabCaches
  if status = .ok then return (status, ← println B I "Initialized slab allocator caches..." 2 0)
  else return (status, [])

/-- `__init_phys_kmalloc()`. -/
def initPhysKmalloc : K (List Pixel) := do
  let buddy ← initBuddyShown B I
  let slab ← initSlabShown B I
  if slab.1 ≠ .ok then kpanic "ALLOCATOR INITIALISATION FAILURE, CANNOT BOOT KERNEL"
  return buddy ++ slab.2 ++ (← println B I "Allocator initialisation success" 3 0)

/-- `start_kernel()` up to the return of `__init_mmu`: what is written to the framebuffer, and the
stack. The page allocator is an argument here, too; the kernel's own is `buddyKalloc`. -/
def startKernel (kmalloc : Nat → K Nat) (fuel : Nat) : K (List Pixel × Nat) := do
  let hello ← khello B I
  let allocator ← initPhysKmalloc B I
  let rsp ← initMmu fuel kmalloc B.toStatics B.fbVirt I.symbols I.entries I.vbe.toVbeHandoff
  return (hello ++ allocator, rsp)

end

end MikroKernel.Boot
