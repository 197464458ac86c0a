import MikroKernel.Proof.Alloc.Books

/-!
# The links of a free block overlay its data

A `buddy_chunk` is the first two words of the free block it is in. `Alloc/Buddy.lean` gives the
links cells of their own, beside the block's data, and for good reason: as long as every free merges
with free blocks only, no link is read or written in a block in use, and its owner's stores are not
the allocator's business.

Where a free does merge with a block in use, that block's data is read as links. So the functions
that follow a link are here once more, over a choice of the cells that hold the links: `own` is the
choice of `Alloc/Buddy.lean`, and `buddyKalloc_own` and `buddyKfree_own` say that nothing else
changed; `words` is the machine's choice, the cells that a frame in use has its page-table entries 0
and 1 in.
-/

set_option autoImplicit false

namespace MikroKernel
namespace Overlaid

/-- The cells of `buddy_chunk.next` and `buddy_chunk.prev`, for a block at each address. -/
structure ChunkCells where
  next : Nat → Nat × Field
  prev : Nat → Nat × Field

/-- The links have cells of their own. -/
def own : ChunkCells := ⟨fun p => (p, .chunkNext), fun p => (p, .chunkPrev)⟩

/-- The links are the first two words of the block. -/
def words : ChunkCells := ⟨fun p => (p, .pte), fun p => (p + 8, .pte)⟩

def loadLink (cell : Nat × Field) : K Nat := p2vLoad cell.1 cell.2

def storeLink (cell : Nat × Field) (x : Nat) : K Unit := p2vStore cell.1 cell.2 x

section

variable (C : ChunkCells)

/-! ## `buddy_kalloc` -/

/-- One round of the split loop. -/
def splitStep (freeLists chunk level : Nat) : K Unit := do
  let buddy := (chunk + chunkBytes (level - 1)) % 2 ^ 64
  storeLink (C.prev buddy) 0
  storeLink (C.next buddy) (← load (freeListAddr freeLists (level - 1)) .ptr)
  if (← loadLink (C.next buddy)) ≠ 0 then
    storeLink (C.prev (← loadLink (C.next buddy))) buddy
  store (freeListAddr freeLists (level - 1)) .ptr buddy

/-- `for (int level = idx; level > order; level--)`. -/
def splitLoop (freeLists chunk order : Nat) : Nat → K Unit
  | 0 => pure ()
  | level + 1 =>
      if level + 1 > order then do
        splitStep C freeLists chunk (level + 1)
        splitLoop freeLists chunk order level
      else pure ()

/-- The critical section of one iteration of `buddy_kalloc`. -/
def popSection (idx order : Nat) : K Nat := do
  let metadata ← kernelEnd
  let freeLists ← load metadata .freeListsPtr
  if (← load (freeListAddr freeLists idx) .ptr) = 0 then pure 0
  else do
    let chunk ← load (freeListAddr freeLists idx) .ptr
    store (freeListAddr freeLists idx) .ptr (← loadLink (C.next chunk))
    if (← loadLink (C.next chunk)) ≠ 0 then
      storeLink (C.prev (← loadLink (C.next chunk))) 0
    storeLink (C.next chunk) 0
    splitLoop C freeLists chunk order idx
    pure chunk

/-- `for (int idx = order; idx < NUM_MAX_ORDER; idx++)`. -/
def kallocLoop (order : Nat) : Nat → Nat → K Nat
  | 0, _ => pure 0
  | n + 1, idx => do
      let chunk ← locked .buddyLock (popSection C idx order)
      if chunk = 0 then kallocLoop order n (idx + 1)
      else do
        let _ ← toggleBitmap chunk order
        pure chunk

/-- `buddy_kalloc(size)`. -/
def buddyKalloc (size : Nat) : K Nat := do
  let metadata ← kernelEnd
  let order ← selectOrder size
  let maxOrder ← load metadata .maxOrder
  if order > maxOrder then pure 0
  else kallocLoop C order (maxOrder + 1 - order) order

/-! ## `buddy_kfree` -/

/-- The critical section that takes `buddy` off list `order` by its own links. -/
def unlinkSection (buddy chunk order : Nat) : K Nat := do
  let metadata ← kernelEnd
  let freeLists ← load metadata .freeListsPtr
  if (← loadLink (C.prev buddy)) ≠ 0 then
    storeLink (C.next (← loadLink (C.prev buddy))) (← loadLink (C.next buddy))
  else
    store (freeListAddr freeLists order) .ptr (← loadLink (C.next buddy))
  if (← loadLink (C.next buddy)) ≠ 0 then
    storeLink (C.prev (← loadLink (C.next buddy))) (← loadLink (C.prev buddy))
  storeLink (C.next buddy) 0
  storeLink (C.prev buddy) 0
  pure (if buddy < chunk then buddy else chunk)

/-- `while (order < metadata->max_order)`. -/
def mergeLoop : Nat → Nat → Nat → K (Nat × Nat)
  | 0, chunk, order => pure (chunk, order)
  | n + 1, chunk, order => do
      let bit ← toggleBitmap chunk order
      if bit ≠ 0 then pure (chunk, order)
      else do
        let buddy := chunk ^^^ chunkBytes order
        let joined ← locked .buddyLock (unlinkSection C buddy chunk order)
        mergeLoop n joined (order + 1)

/-- The joined block becomes the head of its list. -/
def insertSection (block order : Nat) : K Unit := do
  let metadata ← kernelEnd
  let freeLists ← load metadata .freeListsPtr
  storeLink (C.prev block) 0
  storeLink (C.next block) (← load (freeListAddr freeLists order) .ptr)
  if (← loadLink (C.next block)) ≠ 0 then
    storeLink (C.prev (← loadLink (C.next block))) block
  store (freeListAddr freeLists order) .ptr block

/-- `buddy_kfree(chunk, size)`. -/
def buddyKfree (chunk size : Nat) : K Unit := do
  if chunk = 0 ∨ size = 0 then pure ()
  else do
    let metadata ← kernelEnd
    let wanted ← selectOrder size
    let maxOrder ← load metadata .maxOrder
    let order := if wanted > maxOrder then maxOrder else wanted
    if order = maxOrder then do
      let _ ← toggleBitmap chunk order
    let joined ← mergeLoop C (maxOrder - order) chunk order
    locked .buddyLock (insertSection C joined.1 joined.2)

end

/-! ## With cells of their own -/

theorem splitStep_own : splitStep own = MikroKernel.splitStep := rfl

theorem unlinkSection_own : unlinkSection own = MikroKernel.unlinkSection := rfl

theorem insertSection_own : insertSection own = MikroKernel.insertSection := rfl

theorem splitLoop_own (freeLists chunk order level : Nat) :
    splitLoop own freeLists chunk order level
        = MikroKernel.splitLoop freeLists chunk order level := by
  induction level with
  | zero => rfl
  | succ level ih =>
    unfold splitLoop MikroKernel.splitLoop
    rw [ih, splitStep_own]

theorem popSection_own (idx order : Nat) :
    popSection own idx order = MikroKernel.popSection idx order := by
  unfold popSection MikroKernel.popSection
  simp only [splitLoop_own]
  rfl

theorem kallocLoop_own (order n idx : Nat) :
    kallocLoop own order n idx = MikroKernel.kallocLoop order n idx := by
  induction n generalizing idx with
  | zero => rfl
  | succ n ih =>
    unfold kallocLoop MikroKernel.kallocLoop
    simp only [popSection_own, ih]

/-- **`buddy_kalloc` is the one of `Alloc/Buddy.lean`**, up to the cells of the links. -/
theorem buddyKalloc_own (size : Nat) : buddyKalloc own size = MikroKernel.buddyKalloc size := by
  unfold buddyKalloc MikroKernel.buddyKalloc
  simp only [kallocLoop_own]

theorem mergeLoop_own (n chunk order : Nat) :
    mergeLoop own n chunk order = MikroKernel.mergeLoop n chunk order := by
  induction n generalizing chunk order with
  | zero => rfl
  | succ n ih =>
    unfold mergeLoop MikroKernel.mergeLoop
    simp only [unlinkSection_own, ih]

/-- **And so is `buddy_kfree`.** -/
theorem buddyKfree_own (chunk size : Nat) :
    buddyKfree own chunk size = MikroKernel.buddyKfree chunk size := by
  unfold buddyKfree MikroKernel.buddyKfree
  simp only [mergeLoop_own, insertSection_own]

/-! ## With the books -/

/-- The assertion that a block is apart from every block on the books. -/
def assertFresh (p n : Nat) : K Unit := fun _ s =>
  if p ≠ 0 ∧ ∃ b ∈ s.blocks, ¬ Block.Apart ⟨p, n⟩ b
    then .error (.panic "phys_kmalloc gave a block in use")
  else .ok ((), s)

/-- `buddy_kalloc` in the machine's cells, with the block recorded. A call that returns has returned
a fresh block, or `NULL`. -/
def kalloc (n : Nat) : K Nat := do
  let p ← buddyKalloc words n
  assertFresh p n
  Buddy.handOut p n
  pure p

/-- `buddy_kfree` in the machine's cells, with the block taken off the books. -/
def kfree (p n : Nat) : K Unit := do
  buddyKfree words p n
  Buddy.takeBack p n

end Overlaid
end MikroKernel
