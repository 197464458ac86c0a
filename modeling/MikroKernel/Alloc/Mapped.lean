import MikroKernel.Alloc.Slab

/-!
# The dispatchers of `phys_kmalloc.c`, and `mapped_phys_kmalloc.c`

`phys_kmalloc` and `phys_kfree` choose between the two allocators. The mapped layer above them hands
out addresses of the direct map: it adds `phys_map_offset` to what the allocator returned, and takes
it off again before it frees. `slabCaches` is the address of the array `slab_caches`.
-/

set_option autoImplicit false

namespace MikroKernel

def directMapEnd : Nat := 0xFFFFBC0000200000

/-- `enum alloc_flag`. Every value but the first two is the default of the two switches. -/
inductive AllocFlag
  | buddyAlloc | slabAlloc | chooseAlloc
deriving DecidableEq, Repr

/-- `phys_kmalloc(size, flg)`. -/
def physKmalloc (slabCaches size : Nat) (flg : AllocFlag) : K Nat :=
  match flg with
  | .buddyAlloc => buddyKalloc size
  | .slabAlloc => slabKalloc buddyKalloc slabCaches size
  | .chooseAlloc =>
      if size ≤ 2048 then slabKalloc buddyKalloc slabCaches size else buddyKalloc size

/-- `phys_kfree(ptr, size, flg)`. -/
def physKfree (slabCaches ptr size : Nat) (flg : AllocFlag) : K Unit :=
  match flg with
  | .buddyAlloc => buddyKfree ptr size
  | .slabAlloc => slabKfree slabCaches ptr size
  | .chooseAlloc => if size ≤ 2048 then slabKfree slabCaches ptr size else buddyKfree ptr size

/-- `get_zeroed_phys_page()`. -/
def getZeroedPhysPage : K Nat := do
  let ptr ← buddyKalloc pageSize
  if ptr = 0 then pure 0
  else do
    memsetZero (← directmapP2v ptr) pageSize
    pure ptr

/-- `free_phys_page(page)`. -/
def freePhysPage (page : Nat) : K Unit :=
  if page = 0 then pure () else buddyKfree page pageSize

/-! ## `mapped_phys_kmalloc.c` -/

/-- The variable `phys_map_offset`. -/
def physMapOffset : K Nat := fun _ s => .ok (s.physMapOffset, s)

def isDirectMappedPtr (ptr : Nat) : Bool := decide (directMapStart ≤ ptr ∧ ptr < directMapEnd)

/-- What the allocating functions of the layer have in common: `NULL` stays `NULL`, anything else
gets the offset. -/
def mapPtr (ptr : Nat) : K Nat := do
  if ptr = 0 then pure 0 else pure ((ptr + (← physMapOffset)) % 2 ^ 64)

/-- What the freeing functions have in common: a pointer of the direct map is freed without the
offset. -/
def unmapPtr (free : Nat → K Unit) (ptr : Nat) : K Bool := do
  if isDirectMappedPtr ptr then do
    free (sub64 ptr (← physMapOffset))
    pure true
  else pure false

/-- `mapped_phys_kmalloc(size, flg)`. -/
def mappedPhysKmalloc (slabCaches size : Nat) (flg : AllocFlag) : K Nat := do
  mapPtr (← physKmalloc slabCaches size flg)

/-- `mapped_phys_kfree(ptr, size, flg)`. -/
def mappedPhysKfree (slabCaches ptr size : Nat) (flg : AllocFlag) : K Bool :=
  unmapPtr (fun p => physKfree slabCaches p size flg) ptr

/-- `mapped_kmem_cache_kalloc(cache)`. -/
def mappedKmemCacheKalloc (cache : Nat) : K Nat := do
  mapPtr (← kmemCacheKalloc buddyKalloc cache)

/-- `mapped_kmem_cache_kfree(cache, object)`. -/
def mappedKmemCacheKfree (cache object : Nat) : K Bool :=
  unmapPtr (kmemCacheKfree cache) object

/-- `mapped_buddy_kalloc(size)`. -/
def mappedBuddyKalloc (size : Nat) : K Nat := do
  mapPtr (← buddyKalloc size)

/-- `mapped_buddy_kfree(chunk, size)`. -/
def mappedBuddyKfree (chunk size : Nat) : K Bool :=
  unmapPtr (fun p => buddyKfree p size) chunk

/-- `zero_page(page)`: every word of the page, through the pointer as it is. -/
def zeroPage (page : Nat) : K Unit := memsetZero page pageSize

/-- `get_page()`. -/
def getPage : K Nat := do
  mapPtr (← getZeroedPhysPage)

/-- `get_zeroed_page()`. The offset is added to what `get_page` returned. -/
def getZeroedPage : K Nat := do
  let page ← getPage
  if page = 0 then pure 0
  else do
    zeroPage page
    pure ((page + (← physMapOffset)) % 2 ^ 64)

/-- `free_page(page)`. -/
def freePage (page : Nat) : K Bool := unmapPtr freePhysPage page

end MikroKernel
