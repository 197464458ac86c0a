import MikroKernel.Machine.Spinlock

/-!
# `mmu.c` — page-table entries

`map_pages` and `unmap_pages`, and the functions for one page, with the page allocator as an
argument. A table is 512 words of 8 bytes (`Field.pte`) in a frame of its own; pointers to tables
are physical and go through `directmap_p2v`.

`map_pages` walks the levels once for each page, but keeps the tables of the previous page at hand
and descends again only where an index changed (`Cursor`). The blocks that follow or create the
table of one level differ in the level and the text of the panic; they are `wireTable`.
`unmap_pages` walks from the root for each page, and takes away tables it has emptied: the nested
conditionals at the end of its loops are `prune`, one inside the other. `unmap_page` and
`unmap_huge_page` are a round of its loops with other texts.
-/

set_option autoImplicit false

namespace MikroKernel

/-! ## Entries -/

def ptePresent : Nat := 0x1
def pteWritable : Nat := 0x2
def pteUser : Nat := 0x4
def pteHugePage : Nat := 0x80
def pteAddrMask : Nat := 0x000FFFFFFFFFF000

/-- `VIRT_TO_PML4_IDX`. -/
def virtToPml4Idx (virt : Nat) : Nat := virt / 2 ^ 39 % 512
/-- `VIRT_TO_PDPT_IDX`. -/
def virtToPdptIdx (virt : Nat) : Nat := virt / 2 ^ 30 % 512
/-- `VIRT_TO_PD_IDX`. -/
def virtToPdIdx (virt : Nat) : Nat := virt / 2 ^ 21 % 512
/-- `VIRT_TO_PT_IDX`. -/
def virtToPtIdx (virt : Nat) : Nat := virt / 2 ^ 12 % 512

/-- `table + idx`, for a `uint64_t*`. -/
def entryAddr (table idx : Nat) : Nat := table + 8 * idx

/-- `paddr & ~(size - 1)`, for a power of two. -/
def alignDown (paddr size : Nat) : Nat := paddr / size * size

/-- `invlpg`: drop the TLB entry. Memory is what is modelled, so nothing happens. -/
def invlpg (_addr : Nat) : K Unit := pure ()

/-- The loop of `is_empty`, over the entries from `i` on. -/
def isEmptyLoop (directory : Nat) : Nat → Nat → K Bool
  | 0, _ => pure true
  | left + 1, i => do
      if (← load (entryAddr directory i) .pte) ≠ 0 then pure false
      else isEmptyLoop directory left (i + 1)

/-- `is_empty(page_directory)`. -/
def isEmpty (directory : Nat) : K Bool := isEmptyLoop directory 512 0

/-! ## `map_pages` -/

/-- Follow the entry at `entry`, after creating a table for it if it has none. -/
def wireTable (kmalloc : Nat → K Nat) (msg : String) (entry : Nat) : K Nat := do
  if (← p2vLoad entry .pte) &&& ptePresent = 0 then do
    let new ← kmalloc 4096
    if new = 0 then kpanic msg
    memsetZero (← directmapP2v new) pageSize
    p2vStore entry .pte (new ||| ptePresent ||| pteWritable)
  return (← p2vLoad entry .pte) &&& pteAddrMask

/-- The local variables of the loops: the indices of the last page and the tables they led to.
`~0ULL` is the index before the first page. -/
structure Cursor where
  pml4tIdx : Nat
  pdptIdx : Nat
  pdIdx : Nat
  pdpt : Nat
  pd : Nat
  pt : Nat
deriving DecidableEq, Repr

/-- `~0ULL`. -/
def noIdx : Nat := 2 ^ 64 - 1

def Cursor.start : Cursor :=
  { pml4tIdx := noIdx, pdptIdx := noIdx, pdIdx := noIdx, pdpt := 0, pd := 0, pt := 0 }

/-- `if (new_pml4t_idx != cur_pml4t_idx)`. -/
def enterPml4t (kmalloc : Nat → K Nat) (pml4t idx : Nat) (c : Cursor) : K Cursor := do
  if idx ≠ c.pml4tIdx then
    let pdpt ← wireTable kmalloc "Failed to allocate 4KiB page for PDPT" (entryAddr pml4t idx)
    return { c with pml4tIdx := idx, pdpt := pdpt, pdptIdx := noIdx }
  else
    return c

/-- `if (new_pdpt_idx != cur_pdpt_idx)`. -/
def enterPdpt (kmalloc : Nat → K Nat) (idx : Nat) (c : Cursor) : K Cursor := do
  if idx ≠ c.pdptIdx then
    let pd ← wireTable kmalloc "Failed to allocate 4KiB page for PD" (entryAddr c.pdpt idx)
    return { c with pdptIdx := idx, pd := pd, pdIdx := noIdx }
  else
    return c

/-- `if (new_pd_idx != cur_pd_idx)`. -/
def enterPd (kmalloc : Nat → K Nat) (idx : Nat) (c : Cursor) : K Cursor := do
  if idx ≠ c.pdIdx then
    let pt ← wireTable kmalloc "Failed to allocate 4KiB page for PT" (entryAddr c.pd idx)
    return { c with pdIdx := idx, pt := pt }
  else
    return c

/-- The loop of the 2MB pages. -/
def mapHugeLoop (kmalloc : Nat → K Nat) (pml4t flags : Nat) : Nat → Nat → Nat → Cursor → K Unit
  | 0, _, _, _ => pure ()
  | left + 1, vaddr, paddr, c => do
      let c ← enterPml4t kmalloc pml4t (virtToPml4Idx vaddr) c
      let c ← enterPdpt kmalloc (virtToPdptIdx vaddr) c
      p2vStore (entryAddr c.pd (virtToPdIdx vaddr)) .pte (paddr ||| flags)
      mapHugeLoop kmalloc pml4t flags left ((vaddr + hugePageSize) % 2 ^ 64)
        ((paddr + hugePageSize) % 2 ^ 64) c

/-- The loop of the 4KB pages. -/
def mapSmallLoop (kmalloc : Nat → K Nat) (pml4t flags : Nat) : Nat → Nat → Nat → Cursor → K Unit
  | 0, _, _, _ => pure ()
  | left + 1, vaddr, paddr, c => do
      let c ← enterPml4t kmalloc pml4t (virtToPml4Idx vaddr) c
      let c ← enterPdpt kmalloc (virtToPdptIdx vaddr) c
      let c ← enterPd kmalloc (virtToPdIdx vaddr) c
      p2vStore (entryAddr c.pt (virtToPtIdx vaddr)) .pte (paddr ||| flags)
      mapSmallLoop kmalloc pml4t flags left ((vaddr + pageSize) % 2 ^ 64)
        ((paddr + pageSize) % 2 ^ 64) c

/-- `map_pages(pml4t, paddr, vaddr, flags, num_pages)`. -/
def mapPages (kmalloc : Nat → K Nat) (pml4t paddr vaddr flags numPages : Nat) : K Unit :=
  if numPages = 0 then pure ()
  else if flags &&& pteHugePage ≠ 0 then
    mapHugeLoop kmalloc pml4t flags numPages vaddr paddr .start
  else
    mapSmallLoop kmalloc pml4t flags numPages vaddr (alignDown paddr pageSize) .start

/-! ## `unmap_pages` -/

/-- Take away `table` if it is empty, and then go on one level up. -/
def prune (kfree : Nat → Nat → K Unit) (table entry : Nat) (up : K Unit) : K Unit := do
  if ← isEmpty (← directmapP2v table) then do
    p2vStore entry .pte 0
    kfree table pageSize
    up

/-- The walk that unmaps a 2MB page, with the texts of its panics. -/
def unmapHugeWith (notHuge wrong : String) (kfree : Nat → Nat → K Unit) (pml4t paddr vaddr : Nat) :
    K Unit := do
  let pml4e := entryAddr pml4t (virtToPml4Idx vaddr)
  if (← p2vLoad pml4e .pte) &&& ptePresent = 0 then pure ()
  else do
    let pdpt := (← p2vLoad pml4e .pte) &&& pteAddrMask
    let pdpte := entryAddr pdpt (virtToPdptIdx vaddr)
    if (← p2vLoad pdpte .pte) &&& ptePresent = 0 then pure ()
    else do
      let pd := (← p2vLoad pdpte .pte) &&& pteAddrMask
      let pde := entryAddr pd (virtToPdIdx vaddr)
      if (← p2vLoad pde .pte) &&& ptePresent = 0 then pure ()
      else do
        if (← p2vLoad pde .pte) &&& pteHugePage = 0 then
          kpanic notHuge
        if (← p2vLoad pde .pte) &&& pteAddrMask ≠ paddr then
          kpanic wrong
        p2vStore pde .pte 0
        invlpg vaddr
        prune kfree pd pdpte (prune kfree pdpt pml4e (pure ()))

/-- One round of the loop of the 2MB pages. -/
def unmapHugeAt : (Nat → Nat → K Unit) → Nat → Nat → Nat → K Unit :=
  unmapHugeWith "TRIED TO UNMAP A REGULAR PAGE WITH INCORRECT FLAGS ARGUMENT"
    "TRIED TO UNMAP WRONG HUGE PAGES"

/-- The walk that unmaps a 4KB page, with the texts of its panics. -/
def unmapSmallWith (huge wrong : String) (kfree : Nat → Nat → K Unit) (pml4t paddr vaddr : Nat) :
    K Unit := do
  let pml4e := entryAddr pml4t (virtToPml4Idx vaddr)
  if (← p2vLoad pml4e .pte) &&& ptePresent = 0 then pure ()
  else do
    let pdpt := (← p2vLoad pml4e .pte) &&& pteAddrMask
    let pdpte := entryAddr pdpt (virtToPdptIdx vaddr)
    if (← p2vLoad pdpte .pte) &&& ptePresent = 0 then pure ()
    else do
      let pd := (← p2vLoad pdpte .pte) &&& pteAddrMask
      let pde := entryAddr pd (virtToPdIdx vaddr)
      if (← p2vLoad pde .pte) &&& ptePresent = 0 then pure ()
      else do
        if (← p2vLoad pde .pte) &&& pteHugePage ≠ 0 then
          kpanic huge
        let pt := (← p2vLoad pde .pte) &&& pteAddrMask
        let pte := entryAddr pt (virtToPtIdx vaddr)
        if (← p2vLoad pte .pte) &&& ptePresent = 0 then pure ()
        else do
          if (← p2vLoad pte .pte) &&& pteAddrMask ≠ paddr then
            kpanic wrong
          p2vStore pte .pte 0
          invlpg vaddr
          prune kfree pt pde (prune kfree pd pdpte (prune kfree pdpt pml4e (pure ())))

/-- One round of the loop of the 4KB pages. -/
def unmapSmallAt : (Nat → Nat → K Unit) → Nat → Nat → Nat → K Unit :=
  unmapSmallWith "TRIED TO UNMAP HUGE PAGE WITH REGULAR PAGE FLAGS IN UNMAP_PAGES"
    "TRIED TO UNMAP WRONG PAGES"

/-- The loops: round `i` on, with `left` rounds to go. -/
def unmapLoop (at_ : Nat → Nat → K Unit) (size paddr vaddr : Nat) : Nat → Nat → K Unit
  | 0, _ => pure ()
  | left + 1, i => do
      at_ ((paddr + i * size) % 2 ^ 64) ((vaddr + i * size) % 2 ^ 64)
      unmapLoop at_ size paddr vaddr left (i + 1)

/-- `unmap_pages(pml4t, paddr, vaddr, flags, num_pages)`. -/
def unmapPages (kfree : Nat → Nat → K Unit) (pml4t paddr vaddr flags numPages : Nat) : K Unit :=
  if numPages = 0 then pure ()
  else if flags &&& pteHugePage ≠ 0 then
    unmapLoop (unmapHugeAt kfree pml4t) hugePageSize (alignDown paddr hugePageSize) vaddr numPages 0
  else
    unmapLoop (unmapSmallAt kfree pml4t) pageSize (alignDown paddr pageSize) vaddr numPages 0

/-! ## One page -/

/-- `map_huge_page(pml4t, paddr, vaddr, flags)`. -/
def mapHugePage (kmalloc : Nat → K Nat) (pml4t paddr vaddr flags : Nat) : K Unit := do
  if flags &&& pteHugePage = 0 then
    kpanic "INCORRECTLY MAPPED PAGE WITH MAP HUGE PAGE FUNCTION"
  let pdpt ← wireTable kmalloc "Failed to allocate 4KiB page for PDPT"
    (entryAddr pml4t (virtToPml4Idx vaddr))
  let pd ← wireTable kmalloc "Failed to allocate 4KiB page for PD"
    (entryAddr pdpt (virtToPdptIdx vaddr))
  p2vStore (entryAddr pd (virtToPdIdx vaddr)) .pte (paddr ||| flags)

/-- `map_page(pml4t, paddr, vaddr, flags)`. The `return` under the test is not part of it, so the
walk that follows in the source is never reached. -/
def mapPage (kmalloc : Nat → K Nat) (pml4t paddr vaddr flags : Nat) : K Unit := do
  if flags &&& pteHugePage ≠ 0 then
    mapHugePage kmalloc pml4t paddr vaddr flags
  return

/-- `unmap_huge_page(pml4t, paddr, vaddr)`. -/
def unmapHugePage (kfree : Nat → Nat → K Unit) (pml4t paddr vaddr : Nat) : K Unit :=
  unmapHugeWith "TRIED TO UNMAP A REGULAR PAGE WITH UNMAP_HUGE_PAGE FUNCTION"
    "TRIED TO UNMAP WRONG HUGE PAGE" kfree pml4t (alignDown paddr hugePageSize) vaddr

/-- `unmap_page(pml4t, paddr, vaddr)`. -/
def unmapPage (kfree : Nat → Nat → K Unit) (pml4t paddr vaddr : Nat) : K Unit :=
  unmapSmallWith "UNMAPPED HUGE PAGE WITH REGULAR UNMAP_PAGE FUNCTION" "TRIED TO UNMAP WRONG PAGE"
    kfree pml4t (alignDown paddr pageSize) vaddr

end MikroKernel
