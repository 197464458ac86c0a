import MikroKernel.Machine.Spinlock

/-!
# `phys_kmalloc.c`, first half — the buddy allocator

`__init_buddy`, `toggle_bitmap`, `buddy_kalloc` and `buddy_kfree`, in the source's order of
loads and stores. The critical sections are definitions of their own (`popSection`,
`unlinkSection`, `insertSection`, `toggleSection`) because the source runs them one after the
other under separate acquisitions of `buddy_lock`, and what may happen between two of them is
a question of its own.

Free blocks carry their list links in their first two words (`buddy_chunk`), so a list is a
head in the metadata and a chain through physical memory. `metadata->…`, the heads and the
bitmap are in the kernel image and are dereferenced as they are; the blocks are physical and
every access to one goes through `directmap_p2v`.

The two `vesa_…println` calls of `__init_buddy` have no effect on the allocator and are left
out.
-/

set_option autoImplicit false

namespace MikroKernel

/-- `kernel_end`, where `buddy_metadata` lives. -/
def kernelEnd : K Nat := fun L s => .ok (L.kernelEnd, s)

@[simp] theorem kernelEnd_apply (L : Layout) (s : KState) :
    kernelEnd L s = .ok (L.kernelEnd, s) := rfl

/-- `sizeof(buddy_metadata)`, packed. -/
def metadataSize : Nat := 78

/-- `&metadata->order_offsets[k]`. -/
def orderOffsetAddr (metadata k : Nat) : Nat := metadata + 34 + 4 * k

/-- `&metadata->free_lists_ptr[k]` once the pointer is loaded. -/
def freeListAddr (freeListsPtr k : Nat) : Nat := freeListsPtr + 8 * k

/-- The bytes of a block of order `k`, `(1ULL << k) * PAGE_SIZE`. -/
def chunkBytes (order : Nat) : Nat := 2 ^ order * pageSize

/-- Unsigned 64-bit subtraction. -/
def sub64 (a b : Nat) : Nat := (a + 2 ^ 64 - b) % 2 ^ 64

/-! ## Order selection -/

/-- `while (size > (1ULL << order) * PAGE_SIZE) order++;` from `order`, with `fuel` shifts
left before the shift count reaches 64 and the expression is undefined. -/
def orderLoop (size : Nat) : Nat → Nat → Option Nat
  | 0, _ => none
  | fuel + 1, order =>
      if size > (2 ^ order * pageSize) % 2 ^ 64 then orderLoop size fuel (order + 1)
      else some order

/-- The order loop at the head of `buddy_kalloc` and `buddy_kfree`. -/
def selectOrder (size : Nat) : K Nat :=
  match orderLoop size 64 0 with
  | some order => pure order
  | none => K.stop .shift

/-! ## `toggle_bitmap` -/

/-- The bit position of a block's pair: the block index is computed in 64 bits, kept in 32,
halved, and added to the order's offset in 32 bits. -/
def bitPos (base orderOffset addr order : Nat) : Nat :=
  (orderOffset + ((sub64 addr base >>> (12 + order)) % 2 ^ 32) >>> 1) % 2 ^ 32

/-- The two statements of `toggle_bitmap` under `buddy_lock`. -/
def toggleSection (bitmap byteIdx bitOffset : Nat) : K Nat := do
  let old ← load (bitmap + byteIdx) .byte
  store (bitmap + byteIdx) .byte (old ^^^ (1 <<< bitOffset))
  let new ← load (bitmap + byteIdx) .byte
  pure ((new >>> bitOffset) &&& 1)

/-- `toggle_bitmap(metadata, addr, order)`: flips the pair's bit and returns the new value. -/
def toggleBitmap (addr order : Nat) : K Nat := do
  let metadata ← kernelEnd
  let bitmap ← load metadata .bitmapPtr
  let base ← load metadata .baseAddress
  let offset ← load (orderOffsetAddr metadata order) .word32
  let pos := bitPos base offset addr order
  locked .buddyLock (toggleSection bitmap (pos / 8) (pos % 8))

/-! ## `buddy_kalloc` -/

/-- One round of the split loop: the upper half of the block at `level` goes to the head of
the list below. -/
def splitStep (freeLists chunk level : Nat) : K Unit := do
  let buddy := (chunk + chunkBytes (level - 1)) % 2 ^ 64
  p2vStore buddy .chunkPrev 0
  p2vStore buddy .chunkNext (← load (freeListAddr freeLists (level - 1)) .ptr)
  if (← p2vLoad buddy .chunkNext) ≠ 0 then
    p2vStore (← p2vLoad buddy .chunkNext) .chunkPrev buddy
  store (freeListAddr freeLists (level - 1)) .ptr buddy

/-- `for (int level = idx; level > order; level--)`. -/
def splitLoop (freeLists chunk order : Nat) : Nat → K Unit
  | 0 => pure ()
  | level + 1 =>
      if level + 1 > order then do
        splitStep freeLists chunk (level + 1)
        splitLoop freeLists chunk order level
      else pure ()

/-- The critical section of one iteration of `buddy_kalloc`: `NULL` when list `idx` is empty,
otherwise the popped block, split down to `order`. -/
def popSection (idx order : Nat) : K Nat := do
  let metadata ← kernelEnd
  let freeLists ← load metadata .freeListsPtr
  if (← load (freeListAddr freeLists idx) .ptr) = 0 then pure 0
  else do
    let chunk ← load (freeListAddr freeLists idx) .ptr
    store (freeListAddr freeLists idx) .ptr (← p2vLoad chunk .chunkNext)
    if (← p2vLoad chunk .chunkNext) ≠ 0 then
      p2vStore (← p2vLoad chunk .chunkNext) .chunkPrev 0
    p2vStore chunk .chunkNext 0
    splitLoop freeLists chunk order idx
    pure chunk

/-- `for (int idx = order; idx < NUM_MAX_ORDER; idx++)`, with the number of lists left. -/
def kallocLoop (order : Nat) : Nat → Nat → K Nat
  | 0, _ => pure 0
  | n + 1, idx => do
      let chunk ← locked .buddyLock (popSection idx order)
      if chunk = 0 then kallocLoop order n (idx + 1)
      else do
        let _ ← toggleBitmap chunk order
        pure chunk

/-- `buddy_kalloc(size)`; `NULL` is `0`. -/
def buddyKalloc (size : Nat) : K Nat := do
  let metadata ← kernelEnd
  let order ← selectOrder size
  let maxOrder ← load metadata .maxOrder
  if order > maxOrder then pure 0
  else kallocLoop order (maxOrder + 1 - order) order

/-! ## `buddy_kfree` -/

/-- The critical section that takes `buddy` off list `order` by its own links, and the choice
of the lower of the two addresses. -/
def unlinkSection (buddy chunk order : Nat) : K Nat := do
  let metadata ← kernelEnd
  let freeLists ← load metadata .freeListsPtr
  if (← p2vLoad buddy .chunkPrev) ≠ 0 then
    p2vStore (← p2vLoad buddy .chunkPrev) .chunkNext (← p2vLoad buddy .chunkNext)
  else
    store (freeListAddr freeLists order) .ptr (← p2vLoad buddy .chunkNext)
  if (← p2vLoad buddy .chunkNext) ≠ 0 then
    p2vStore (← p2vLoad buddy .chunkNext) .chunkPrev (← p2vLoad buddy .chunkPrev)
  p2vStore buddy .chunkNext 0
  p2vStore buddy .chunkPrev 0
  pure (if buddy < chunk then buddy else chunk)

/-- `while (order < metadata->max_order)`, with the number of orders left: toggle, stop at a
set bit, otherwise unlink the buddy and go on with the joined block. -/
def mergeLoop : Nat → Nat → Nat → K (Nat × Nat)
  | 0, chunk, order => pure (chunk, order)
  | n + 1, chunk, order => do
      let bit ← toggleBitmap chunk order
      if bit ≠ 0 then pure (chunk, order)
      else do
        let buddy := chunk ^^^ chunkBytes order
        let joined ← locked .buddyLock (unlinkSection buddy chunk order)
        mergeLoop n joined (order + 1)

/-- The last critical section: the joined block becomes the head of its list. -/
def insertSection (block order : Nat) : K Unit := do
  let metadata ← kernelEnd
  let freeLists ← load metadata .freeListsPtr
  p2vStore block .chunkPrev 0
  p2vStore block .chunkNext (← load (freeListAddr freeLists order) .ptr)
  if (← p2vLoad block .chunkNext) ≠ 0 then
    p2vStore (← p2vLoad block .chunkNext) .chunkPrev block
  store (freeListAddr freeLists order) .ptr block

/-- `buddy_kfree(chunk, size)`. -/
def buddyKfree (chunk size : Nat) : K Unit := do
  if chunk = 0 ∨ size = 0 then pure ()
  else do
    let metadata ← kernelEnd
    let wanted ← selectOrder size
    let maxOrder ← load metadata .maxOrder
    let order := if wanted > maxOrder then maxOrder else wanted
    -- the loop does not run at the largest order, so its bit is toggled here
    if order = maxOrder then do
      let _ ← toggleBitmap chunk order
    let joined ← mergeLoop (maxOrder - order) chunk order
    locked .buddyLock (insertSection joined.1 joined.2)

/-! ## `__init_buddy` -/

/-- `mmap_entry_0xe820`, without the ACPI attributes nothing reads. -/
structure MmapEntry where
  baseAddress : Nat
  chunkSize : Nat
  type : Nat
deriving DecidableEq, Repr

/-- The inner loop of the scan: extend a run by the entries that follow it and start exactly
where it ends. Returns the run's size and the entries left. -/
def coalesce (base : Nat) : List MmapEntry → Nat → Nat × List MmapEntry
  | [], size => (size, [])
  | e :: rest, size =>
      if e.type = 1 ∧ e.baseAddress = (base + size) % 2 ^ 64 then
        coalesce base rest ((size + e.chunkSize) % 2 ^ 64)
      else (size, e :: rest)

/-- The outer loop of the scan, with the best run so far as `(base, size)`. The fuel is the
number of entries, each round uses up at least one. -/
def scanRegions : Nat → List MmapEntry → Nat × Nat → Nat × Nat
  | 0, _, best => best
  | _ + 1, [], best => best
  | n + 1, e :: rest, best =>
      if e.type ≠ 1 then scanRegions n rest best
      else
        let run := coalesce e.baseAddress rest e.chunkSize
        scanRegions n run.2
          (if run.1 > best.2 then (e.baseAddress, run.1) else best)

/-- The managed range `__init_buddy` derives from the table: the best run, raised to the
lower bound, aligned up to 4MB and cut down to whole pages, all in 64 bits. -/
def managedRange (kernelEnd : Nat) (entries : List MmapEntry) : Nat × Nat :=
  let best := scanRegions entries.length entries (0, 0)
  let afterMetadata := (kernelEnd + metadataSize + 11 * 8 + best.2 / pageSize / 8) % 2 ^ 64
  let lowerBound := if afterMetadata > 0x100000 then afterMetadata else 0x100000
  let raised :=
    if best.1 < lowerBound ∧ lowerBound < (best.1 + best.2) % 2 ^ 64 then
      (lowerBound, sub64 best.2 (lowerBound - best.1))
    else best
  let align := (chunkBytes 10 - raised.1 % chunkBytes 10) % chunkBytes 10
  ((raised.1 + align) % 2 ^ 64, sub64 raised.2 align / pageSize * pageSize)

/-- The largest order, from `order` downwards, whose block fits into `remaining` and divides
`addr`; `none` when the search falls below order 0. -/
def fittingOrder (addr remaining : Nat) : Nat → Option Nat
  | 0 => if chunkBytes 0 ≤ remaining ∧ addr % chunkBytes 0 = 0 then some 0 else none
  | order + 1 =>
      if chunkBytes (order + 1) ≤ remaining ∧ addr % chunkBytes (order + 1) = 0 then
        some (order + 1)
      else fittingOrder addr remaining order

/-- `while (remaining >= PAGE_SIZE)`: how many blocks of each order the range is cut into.
Every round takes at least one page off `remaining`, so the number of pages is fuel enough. -/
def countLoop : Nat → Nat → Nat → (Nat → Nat) → (Nat → Nat)
  | 0, _, _, counts => counts
  | n + 1, addr, remaining, counts =>
      if remaining < pageSize then counts
      else
        match fittingOrder addr remaining 10 with
        | none => counts
        | some order =>
            countLoop n ((addr + chunkBytes order) % 2 ^ 64) (remaining - chunkBytes order)
              (Function.update counts order ((counts order + 1) % 2 ^ 32))

/-- The inner linking loop: `left` of `count` blocks of one order still to link, from
`cur` on. Returns the address after the last one. -/
def linkLoop (order count : Nat) : Nat → Nat → K Nat
  | 0, cur => pure cur
  | left + 1, cur => do
      let next := (cur + chunkBytes order) % 2 ^ 64
      p2vStore cur .chunkNext (if left = 0 then 0 else next)
      p2vStore cur .chunkPrev (if left + 1 = count then 0 else sub64 cur (chunkBytes order))
      linkLoop order count left next

/-- `for (int order = metadata->max_order; order >= 0; order--)`. -/
def linkOrders (freeLists : Nat) (counts : Nat → Nat) : Nat → Nat → K Unit
  | order, cur => do
      let next ←
        if counts order = 0 then pure cur
        else do
          let next ← linkLoop order (counts order) (counts order) cur
          store (freeListAddr freeLists order) .ptr cur
          pure next
      match order with
      | 0 => pure ()
      | order + 1 => linkOrders freeLists counts order next

/-- `metadata->order_offsets[k]`, in 32 bits. -/
def orderOffset (numPages : Nat) : Nat → Nat
  | 0 => 0
  | k + 1 => (orderOffset numPages k + (numPages >>> (k + 1)) % 2 ^ 32) % 2 ^ 32

/-- The loop that fills `order_offsets[1..10]`. -/
def storeOffsets (metadata numPages : Nat) : Nat → K Unit
  | 0 => store (orderOffsetAddr metadata 0) .word32 (orderOffset numPages 0)
  | k + 1 => do
      storeOffsets metadata numPages k
      store (orderOffsetAddr metadata (k + 1)) .word32 (orderOffset numPages (k + 1))

/-- The part of `__init_buddy` after the managed range is known: cut it into blocks, link
them, clear the bitmap, fill the offsets. -/
def carve (base size : Nat) : K Unit := do
  let metadata ← kernelEnd
  let freeLists ← load metadata .freeListsPtr
  store metadata .baseAddress base
  store metadata .managedSize size
  let counts := countLoop (size / pageSize) base size (fun _ => 0)
  linkOrders freeLists counts 10 base
  let bitmap := metadata + metadataSize + 11 * 8
  store metadata .bitmapPtr bitmap
  memsetZero bitmap (size / pageSize / 8)
  storeOffsets metadata (size / pageSize) 10

/-- `__init_buddy()`, given the e820 table the bootloader left. -/
def initBuddy (entries : List MmapEntry) : K Unit := do
  spinlockInit .buddyLock
  let metadata ← kernelEnd
  store metadata .minOrder 0
  store metadata .maxOrder 10
  let freeLists := metadata + metadataSize
  store metadata .freeListsPtr freeLists
  memsetZero freeLists (11 * 8)
  let range := managedRange metadata entries
  carve range.1 range.2

end MikroKernel
