import MikroKernel.Alloc.Buddy

/-!
# `phys_kmalloc.c`, second half, and `kmath.c` — the slab allocator

A cache cuts blocks of the buddy allocator into slots of one size. The block starts with its
`slab_descriptor`; the free slots are chained through their first word (`Field.link`); the
descriptor is a node of one of the cache's three circular lists, whose sentinels are inside the
`kmem_cache` object. Caches live in the kernel image and are dereferenced as they are,
descriptors and objects are physical and go through `directmap_p2v`.

The functions that call the buddy allocator take it as an argument (`pages`), so that what the
slab code needs of it can be said without it; the kernel's own functions are these with
`buddyKalloc`.

`kmem_cache_kalloc` takes `slab_lock` twice when it has to grow. What it does under the lock
before and after the growth is `firstSection` and `secondSection`; the source's early exits
inside them all release the lock, which is what `locked` does.
-/

set_option autoImplicit false

namespace MikroKernel

/-- `status_t`. -/
inductive Status
  | ok | error
deriving DecidableEq, Repr

/-! ## `kmath.c` -/

/-- `align_up(x, y)`, in 32 bits. -/
def alignUp (x y : Nat) : Nat := (x + y - 1) % 2 ^ 32 / y * y % 2 ^ 32

/-- `while ((1ULL << order) < pages) order++;`. 64 rounds are more than any 32-bit number of
pages needs. -/
def buddyOrderLoop (pages : Nat) : Nat → Nat → Nat
  | 0, order => order
  | fuel + 1, order => if 2 ^ order < pages then buddyOrderLoop pages fuel (order + 1) else order

/-- `buddy_order(size)`. -/
def buddyOrder (size : Nat) : Nat := buddyOrderLoop (size / pageSize) 64 0

/-- `while (x >>= 1) r++;`, with one round for each bit. -/
def klog2Loop : Nat → Nat → Nat → Nat
  | 0, _, r => r
  | fuel + 1, x, r => if x / 2 = 0 then r else klog2Loop fuel (x / 2) (r + 1)

/-- `klog2(x)`. -/
def klog2 (x : Nat) : Nat := klog2Loop 64 x 0

/-- `round_up_pow2(x)`, in 32 bits. -/
def roundUpPow2 (x : Nat) : Nat :=
  if x = 0 then 1
  else
    let x := x - 1
    let x := x ||| x >>> 1
    let x := x ||| x >>> 2
    let x := x ||| x >>> 4
    let x := x ||| x >>> 8
    let x := x ||| x >>> 16
    (x + 1) % 2 ^ 32

/-! ## Layout of the two structures -/

/-- `sizeof(slab_descriptor)`. -/
def descriptorSize : Nat := 40

/-- `&desc->slab_lists_node`. -/
def slabNode (desc : Nat) : Nat := desc + 24

/-- `container_of(node, slab_descriptor, slab_lists_node)`. -/
def nodeSlab (node : Nat) : Nat := sub64 node 24

/-- `&cache->free_slabs`. -/
def freeSlabs (cache : Nat) : Nat := cache + 24

/-- `&cache->partial_slabs`. -/
def partialSlabs (cache : Nat) : Nat := cache + 40

/-- `&cache->full_slabs`. -/
def fullSlabs (cache : Nat) : Nat := cache + 56

/-- `sizeof(kmem_cache)`. -/
def cacheSize : Nat := 72

/-- Where the first slot starts: the descriptor's size rounded up to the alignment. The mask is
computed in 32 bits. -/
def firstObjectOffset (align : Nat) : Nat := (descriptorSize + align - 1) &&& (2 ^ 32 - align)

/-! ## Sizes of a cache -/

/-- `calc_alignment`. -/
def calcAlignment (align : Nat) : Nat := firstObjectOffset align - descriptorSize

/-- A 64-bit value put in an `int` and taken out as a 64-bit value again. -/
def throughInt (x : Nat) : Nat :=
  if x % 2 ^ 32 < 2 ^ 31 then x % 2 ^ 32 else x % 2 ^ 32 + 2 ^ 64 - 2 ^ 32

/-- `calc_objects_per_slab`; `none` is `-1`. -/
def calcObjectsPerSlab (objectSize align slabOrder : Nat) : Option Nat :=
  let totalBytes := throughInt (pageSize * 2 ^ slabOrder)
  let rem := sub64 (sub64 totalBytes descriptorSize) (calcAlignment align)
  if rem / objectSize < 8 then none else some (rem / objectSize)

/-- `calc_object_align`; `none` is `-1`. -/
def calcObjectAlign (size : Nat) : Option Nat :=
  if size = 0 then none
  else
    let largestPow2 := size &&& (2 ^ 64 - size)
    some (if largestPow2 < 16 then largestPow2 else 16)

/-- `calc_slab_order` of a size that is not zero. -/
def calcSlabOrder (size : Nat) : Nat :=
  let minSize := (size * 8 + descriptorSize + 16) % 2 ^ 64
  buddyOrder (alignUp (minSize % 2 ^ 32) pageSize)

/-! ## Creation -/

/-- `list.next = &list; list.prev = &list;` -/
def emptyList (sentinel : Nat) : K Unit := do
  store sentinel .listNext sentinel
  store sentinel .listPrev sentinel

/-- The three empty lists. -/
def emptyLists (cache : Nat) : K Unit := do
  emptyList (freeSlabs cache)
  emptyList (partialSlabs cache)
  emptyList (fullSlabs cache)

/-- `kmem_cache_create(cache, size)`; `NULL` is `0`. -/
def kmemCacheCreate (cache size : Nat) : K Nat := do
  store cache .objectSize size
  match calcObjectAlign size with
  | none => do
      store cache .objectAlign (2 ^ 32 - 1)
      pure 0
  | some align => do
      store cache .objectAlign align
      let slabOrder := calcSlabOrder size
      store cache .slabOrder (slabOrder % 2 ^ 8)
      match calcObjectsPerSlab size align (slabOrder % 2 ^ 8) with
      | none => pure 0
      | some n => do
          store cache .objectsPerSlab (n % 2 ^ 32)
          emptyLists cache
          pure cache

/-- `kmem_cache_create_sl(cache, object_size)`. The two early returns keep `slab_lock`. -/
def kmemCacheCreateSl (cache size : Nat) : K Nat := do
  spinlockAcquire .slabLock
  store cache .objectSize size
  match calcObjectAlign size with
  | none => do
      store cache .objectAlign (2 ^ 32 - 1)
      pure 0
  | some align => do
      store cache .objectAlign align
      let slabOrder := calcSlabOrder size
      store cache .slabOrder (slabOrder % 2 ^ 8)
      match calcObjectsPerSlab size align (slabOrder % 2 ^ 8) with
      | none => pure 0
      | some n => do
          store cache .objectsPerSlab (n % 2 ^ 32)
          emptyLists cache
          spinlockRelease .slabLock
          pure cache

/-- `size_to_index(size)`, in 32 bits. -/
def sizeToIndex (size : Nat) : Nat :=
  if size = 0 then 2 ^ 32 - 1
  else
    let clamped := if size < 16 then 16 else size
    sub64 (klog2 (roundUpPow2 (clamped % 2 ^ 32))) (klog2 16) % 2 ^ 32

/-- `&slab_caches[i]`. -/
def slabCache (slabCaches i : Nat) : Nat := slabCaches + cacheSize * i

/-- The loop of `__init_slab`, with the sizes `2 ^ pow` still to come. -/
def initSlabLoop (slabCaches : Nat) : Nat → Nat → K Status
  | 0, _ => pure .ok
  | n + 1, pow => do
      let curr ← kmemCacheCreate (slabCache slabCaches (sizeToIndex (2 ^ pow))) (2 ^ pow)
      if curr = 0 then pure .error else initSlabLoop slabCaches n (pow + 1)

/-- `__init_slab()`. -/
def initSlab (slabCaches : Nat) : K Status := do
  spinlockInit .slabLock
  initSlabLoop slabCaches 8 4

/-! ## Moving a descriptor between lists -/

/-- The two statements that take a node off the list it is on. -/
def unlinkNode (node : Nat) : K Unit := do
  p2vStore (← p2vLoad node .listPrev) .listNext (← p2vLoad node .listNext)
  p2vStore (← p2vLoad node .listNext) .listPrev (← p2vLoad node .listPrev)

/-- The four statements that put it at the front of a list of the cache. -/
def insertFront (sentinel node : Nat) : K Unit := do
  p2vStore node .listNext (← load sentinel .listNext)
  p2vStore node .listPrev sentinel
  p2vStore (← load sentinel .listNext) .listPrev node
  store sentinel .listNext node

def moveNode (sentinel node : Nat) : K Unit := do
  unlinkNode node
  insertFront sentinel node

/-! ## `kmem_cache_grow` -/

/-- The threading loop, with `left` slots to go from slot `idx` on. -/
def threadLoop (first objectSize perSlab : Nat) : Nat → Nat → K Unit
  | 0, _ => pure ()
  | left + 1, idx => do
      let object := (first + idx * objectSize) % 2 ^ 64
      if idx < perSlab - 1 then p2vStore object .link ((object + objectSize) % 2 ^ 64)
      else p2vStore object .link 0
      threadLoop first objectSize perSlab left (idx + 1)

/-- `kmem_cache_grow(cache)`. -/
def kmemCacheGrow (pages : Nat → K Nat) (cache : Nat) : K Status := do
  let slabOrder ← load cache .slabOrder
  let descriptor ← pages (2 ^ slabOrder * pageSize)
  if descriptor = 0 then pure .error
  else do
    p2vStore descriptor .slabCache cache
    p2vStore descriptor .inuseNum 0
    let align ← load cache .objectAlign
    let first := (descriptor + firstObjectOffset align) % 2 ^ 64
    let perSlab ← load cache .objectsPerSlab
    let objectSize ← load cache .objectSize
    threadLoop first objectSize perSlab perSlab 0
    p2vStore descriptor .freeList first
    insertFront (freeSlabs cache) (slabNode descriptor)
    pure .ok

/-! ## `kmem_cache_kalloc` and `kmem_cache_kfree` -/

/-- The descriptor the first section chooses: partial slabs first, then free ones. -/
def pickSlab (cache : Nat) : K (Option Nat) := do
  if (← load (partialSlabs cache) .listNext) ≠ partialSlabs cache then
    return some (nodeSlab (← load (partialSlabs cache) .listNext))
  else if (← load (freeSlabs cache) .listNext) ≠ freeSlabs cache then
    return some (nodeSlab (← load (freeSlabs cache) .listNext))
  else
    return none

/-- From `ptr = desc_v->free_list` to the end: pop a slot and move the descriptor if its use
count asks for it. -/
def popObject (cache desc : Nat) : K Nat := do
  let ptr ← p2vLoad desc .freeList
  if ptr = 0 then pure 0
  else do
    p2vStore desc .freeList (← p2vLoad ptr .link)
    p2vStore desc .inuseNum (((← p2vLoad desc .inuseNum) + 1) % 2 ^ 32)
    if (← p2vLoad desc .inuseNum) = (← load cache .objectsPerSlab) then
      moveNode (fullSlabs cache) (slabNode desc)
    else if (← p2vLoad desc .inuseNum) = 1 then
      moveNode (partialSlabs cache) (slabNode desc)
    pure ptr

/-- The first section under `slab_lock`; `none` when the cache has to grow. -/
def firstSection (cache : Nat) : K (Option Nat) := do
  match ← pickSlab cache with
  | some desc => do
      let ptr ← popObject cache desc
      pure (some ptr)
  | none => pure none

/-- The descriptor the second section takes: whatever is first on `free_slabs`. -/
def grownSlab (cache : Nat) : K Nat := do
  return nodeSlab (← load (freeSlabs cache) .listNext)

/-- The second section under `slab_lock`, after the growth. -/
def secondSection (cache : Nat) (status : Status) : K Nat := do
  if status ≠ .ok then pure 0
  else do
    let desc ← grownSlab cache
    popObject cache desc

/-- `kmem_cache_kalloc(cache)`. -/
def kmemCacheKalloc (pages : Nat → K Nat) (cache : Nat) : K Nat := do
  match ← locked .slabLock (firstSection cache) with
  | some ptr => pure ptr
  | none => do
      let status ← kmemCacheGrow pages cache
      locked .slabLock (secondSection cache status)

/-- The critical section of `kmem_cache_kfree`. The descriptor is found by masking the object's
address with the slab size. -/
def freeSection (cache object : Nat) : K Unit := do
  let slabOrder ← load cache .slabOrder
  let slabSize := pageSize * 2 ^ slabOrder % 2 ^ 32
  let desc := object &&& (2 ^ 64 - 1 - sub64 slabSize 1)
  p2vStore desc .inuseNum (((← p2vLoad desc .inuseNum) + 2 ^ 32 - 1) % 2 ^ 32)
  if (← p2vLoad desc .inuseNum) = 0 then
    moveNode (freeSlabs cache) (slabNode desc)
  else if (← p2vLoad desc .inuseNum) = ((← load cache .objectsPerSlab) + 2 ^ 32 - 1) % 2 ^ 32 then
    moveNode (partialSlabs cache) (slabNode desc)
  p2vStore object .link (← p2vLoad desc .freeList)
  p2vStore desc .freeList object

/-- `kmem_cache_kfree(cache, object)`. -/
def kmemCacheKfree (cache object : Nat) : K Unit :=
  locked .slabLock (freeSection cache object)

/-! ## By size -/

/-- `slab_kalloc(size)`. -/
def slabKalloc (pages : Nat → K Nat) (slabCaches size : Nat) : K Nat :=
  if size > 2048 then pure 0
  else if sizeToIndex size ≥ 8 then pure 0
  else kmemCacheKalloc pages (slabCache slabCaches (sizeToIndex size))

/-- `slab_kfree(object, size)`. -/
def slabKfree (slabCaches object size : Nat) : K Unit :=
  if sizeToIndex size ≥ 8 then pure ()
  else kmemCacheKfree (slabCache slabCaches (sizeToIndex size)) object

end MikroKernel
