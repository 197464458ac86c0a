import MikroKernel.Alloc.Slab
import MikroKernel.Machine.Alike
import MikroKernel.Proof.Buddy.Refine

/-!
# The allocators under a mask

What the allocators load is their own: the metadata, the list heads, the bitmap, the links of free
blocks, the caches and descriptors. So they run the same under a mask that hides something else. The
list heads are found by a pointer, so there something has to be known: `Lists`.
-/

set_option autoImplicit false
set_option synthInstance.maxSize 1000

namespace MikroKernel

variable {α β : Type} {L : Layout} {M : Mask}

theorem resolve_image {v : Nat} (h : L.image v = true) (off : Nat) :
    L.resolve off v = some v := if_pos h

/-! ## The buddy allocator -/

/-- None of the buddy allocator's own cells is hidden, and nothing is known of them, but for the
list heads. -/
class BuddyOpen (M : Mask) : Prop where
  next : Open M .chunkNext
  prev : Open M .chunkPrev
  byte : Open M .byte
  word : Open M .word32
  base : Open M .baseAddress
  size : Open M .managedSize
  least : Open M .minOrder
  most : Open M .maxOrder
  bitmap : Open M .bitmapPtr

attribute [instance] BuddyOpen.next BuddyOpen.prev BuddyOpen.byte BuddyOpen.word BuddyOpen.base
  BuddyOpen.size BuddyOpen.least BuddyOpen.most BuddyOpen.bitmap

/-- The list heads behind this pointer are not hidden, and nothing is known of them. -/
class Heads (M : Mask) (L : Layout) (freeLists : Nat) : Prop where
  seen : ∀ k, Seen M L (freeListAddr freeLists k) .ptr
  kept : ∀ k, Kept M L (freeListAddr freeLists k) .ptr

instance (freeLists k : Nat) [h : Heads M L freeLists] : Seen M L (freeListAddr freeLists k) .ptr :=
  h.seen k

instance (freeLists k : Nat) [h : Heads M L freeLists] : Kept M L (freeListAddr freeLists k) .ptr :=
  h.kept k

/-- `metadata->free_lists_ptr` is not hidden, and what is known of it is enough. -/
class Lists (M : Mask) (L : Layout) : Prop where
  seen : Seen M L L.kernelEnd .freeListsPtr
  heads : ∀ m, M.held m → Heads M L (m L.kernelEnd .freeListsPtr)

/-- The metadata is where the linker put it. -/
theorem alike_kernelEnd {R : KState → KState → Prop} {R' : α → KState → KState → Prop}
    {f g : Nat → K α} (h : Alike L R (f L.kernelEnd) (g L.kernelEnd) R') :
    Alike L R (kernelEnd >>= f) (kernelEnd >>= g) R' :=
  fun _ _ hst => h hst

theorem unaware_kernelEnd {f g : Nat → K α} (h : Unaware M L (f L.kernelEnd) (g L.kernelEnd)) :
    Unaware M L (kernelEnd >>= f) (kernelEnd >>= g) := ⟨alike_kernelEnd h.alike⟩

/-- `metadata->free_lists_ptr`. -/
theorem unaware_freeLists [hl : Lists M L] {f g : Nat → K α}
    (h : ∀ a, Heads M L a → Unaware M L (f a) (g a)) :
    Unaware M L (load L.kernelEnd .freeListsPtr >>= f) (load L.kernelEnd .freeListsPtr >>= g) := by
  have := hl.seen
  refine ⟨Alike.bind (alike_load (Q := fun a => Heads M L a) (fun off c m hc hheld => ?_))
    (fun a => Alike.given (fun ha => (h a ha).alike))⟩
  rw [resolve_image (Buddy.image_metadata L)] at hc
  obtain rfl := Option.some.inj hc
  exact hl.heads m hheld

section Buddy

variable [BuddyOpen M]

instance (size : Nat) : Unaware M L (selectOrder size) (selectOrder size) := by
  unfold selectOrder
  cases orderLoop size 64 0 <;> infer_instance

instance (bitmap i bit : Nat) :
    Unaware M L (toggleSection bitmap i bit) (toggleSection bitmap i bit) := by
  unfold toggleSection
  infer_instance

instance (addr order : Nat) [Known M .buddyLock] :
    Unaware M L (toggleBitmap addr order) (toggleBitmap addr order) := by
  unfold toggleBitmap
  exact unaware_kernelEnd inferInstance

instance (freeLists chunk level : Nat) [Heads M L freeLists] :
    Unaware M L (splitStep freeLists chunk level) (splitStep freeLists chunk level) := by
  unfold splitStep
  dsimp only
  infer_instance

instance (freeLists chunk order level : Nat) [Heads M L freeLists] :
    Unaware M L (splitLoop freeLists chunk order level)
        (splitLoop freeLists chunk order level) := by
  induction level with
  | zero => exact Unaware.pure ()
  | succ level ih =>
    unfold splitLoop
    infer_instance

variable [Lists M L]

instance (idx order : Nat) : Unaware M L (popSection idx order) (popSection idx order) := by
  unfold popSection
  dsimp only
  refine unaware_kernelEnd (unaware_freeLists (fun a ha => ?_))
  infer_instance

instance (order n idx : Nat) [Known M .buddyLock] :
    Unaware M L (kallocLoop order n idx) (kallocLoop order n idx) := by
  induction n generalizing idx with
  | zero => exact Unaware.pure 0
  | succ n ih =>
    unfold kallocLoop
    infer_instance

/-- **`buddy_kalloc`** loads nothing but the allocator's own cells. -/
instance (size : Nat) [Known M .buddyLock] : Unaware M L (buddyKalloc size) (buddyKalloc size) := by
  unfold buddyKalloc
  exact unaware_kernelEnd inferInstance

instance (buddy chunk order : Nat) :
    Unaware M L (unlinkSection buddy chunk order) (unlinkSection buddy chunk order) := by
  unfold unlinkSection
  dsimp only
  refine unaware_kernelEnd (unaware_freeLists (fun a ha => ?_))
  infer_instance

instance (n chunk order : Nat) [Known M .buddyLock] :
    Unaware M L (mergeLoop n chunk order) (mergeLoop n chunk order) := by
  induction n generalizing chunk order with
  | zero => exact Unaware.pure (chunk, order)
  | succ n ih =>
    unfold mergeLoop
    infer_instance

instance (block order : Nat) :
    Unaware M L (insertSection block order) (insertSection block order) := by
  unfold insertSection
  refine unaware_kernelEnd (unaware_freeLists (fun a ha => ?_))
  infer_instance

/-- So does **`buddy_kfree`**. -/
instance (chunk size : Nat) [Known M .buddyLock] :
    Unaware M L (buddyKfree chunk size) (buddyKfree chunk size) := by
  unfold buddyKfree
  split
  · exact Unaware.pure ()
  · refine unaware_kernelEnd ?_
    dsimp only
    infer_instance

end Buddy

/-! ## `__init_buddy` -/

/-- The metadata may be cleared from its end on. -/
class Behind (M : Mask) (L : Layout) : Prop where
  zero : ∀ m i n, metadataSize ≤ i → i < metadataSpan → M.held m →
    M.held (m.zero (L.kernelEnd + i) n)

theorem unaware_clear [hb : Behind M L] {i n : Nat} (hi : metadataSize ≤ i)
    (hlt : i < metadataSpan) :
    Unaware M L (memsetZero (L.kernelEnd + i) n) (memsetZero (L.kernelEnd + i) n) := by
  refine ⟨alike_memset (fun off c m hc hheld => ?_)⟩
  rw [resolve_image (L.metadata_image i hlt)] at hc
  obtain rfl := Option.some.inj hc
  exact hb.zero m i n hi hlt hheld

section Init

variable [BuddyOpen M]

instance (order count left cur : Nat) :
    Unaware M L (linkLoop order count left cur) (linkLoop order count left cur) := by
  induction left generalizing cur with
  | zero => exact Unaware.pure cur
  | succ left ih =>
    unfold linkLoop
    dsimp only
    infer_instance

instance (freeLists order cur : Nat) (counts : Nat → Nat) [Heads M L freeLists] :
    Unaware M L (linkOrders freeLists counts order cur)
        (linkOrders freeLists counts order cur) := by
  induction order generalizing cur with
  | zero =>
    unfold linkOrders
    infer_instance
  | succ order ih =>
    unfold linkOrders
    infer_instance

instance (metadata numPages k : Nat) :
    Unaware M L (storeOffsets metadata numPages k) (storeOffsets metadata numPages k) := by
  induction k with
  | zero =>
    unfold storeOffsets
    infer_instance
  | succ k ih =>
    unfold storeOffsets
    infer_instance

instance (base size : Nat) [Lists M L] [Behind M L] :
    Unaware M L (carve base size) (carve base size) := by
  have hclear := unaware_clear (M := M) (L := L) (i := metadataSize + 11 * 8)
    (n := size / pageSize / 8)
    (by decide) (by decide)
  rw [← Nat.add_assoc] at hclear
  unfold carve
  dsimp only
  refine unaware_kernelEnd (unaware_freeLists (fun a ha => ?_))
  infer_instance

/-- **`__init_buddy`** stores `metadata->free_lists_ptr` before it loads it. `M` is what is masked
before, `N` after: the lock is initialised, and the pointer is known. -/
theorem alike_initBuddy {N : Mask} [BuddyOpen N] [Lists N L] [Behind N L] (entries : List MmapEntry)
    (hhidden : N.hidden = M.hidden) (hblocks : N.blocks = M.blocks)
    (hloose : ∀ j, M.loose j → N.loose j ∨ j = .buddyLock)
    (hheld : ∀ m, M.held m →
      N.held (m.set L.kernelEnd .freeListsPtr (L.kernelEnd + metadataSize))) :
    Alike L (Masked M) (initBuddy entries) (initBuddy entries) (fun _ => Masked N) := by
  obtain ⟨M₁, hM₁⟩ : ∃ M₁ : Mask, M₁ = { M with loose := N.loose } := ⟨_, rfl⟩
  have hopen : BuddyOpen M₁ := by
    have h : ∀ {f}, Open M f → Open M₁ f := fun h => by
      rw [hM₁]
      exact ⟨h.seen, h.kept⟩
    exact ⟨h inferInstance, h inferInstance, h inferInstance, h inferInstance, h inferInstance,
      h inferInstance, h inferInstance, h inferInstance, h inferInstance⟩
  have hinit :
      Alike L (Masked M) (spinlockInit .buddyLock) (spinlockInit .buddyLock) (fun _ => Masked M₁) :=
    alike_init (by rw [hM₁]) (by rw [hM₁]) (by rw [hM₁]) (by rw [hM₁]; exact hloose)
  have hptr : Alike L (Masked M₁) (store L.kernelEnd .freeListsPtr (L.kernelEnd + metadataSize))
      (store L.kernelEnd .freeListsPtr (L.kernelEnd + metadataSize)) (fun _ => Masked N) := by
    refine alike_store (fun {s t} c hc h => ?_)
    rw [resolve_image (Buddy.image_metadata L)] at hc
    obtain rfl := Option.some.inj hc
    rw [hM₁] at h
    refine ⟨fun a f ha => ?_, hheld _ h.held, h.lock, h.offset, h.rflags, h.apicId,
      hblocks ▸ h.blocks⟩
    show t.mem.set _ _ _ a f = s.mem.set _ _ _ a f
    rw [Mem.set_apply, Mem.set_apply, h.mem a f (hhidden ▸ ha)]
  have hclear := unaware_clear (M := N) (L := L) (i := metadataSize) (n := 11 * 8)
    (Nat.le_refl _) (by decide)
  unfold initBuddy
  refine Alike.bind hinit (fun _ => ?_)
  refine alike_kernelEnd
    (Alike.bind Unaware.alike (fun _ => Alike.bind Unaware.alike (fun _ => ?_)))
  refine Alike.bind hptr (fun _ => ?_)
  refine Alike.bind hclear.alike (fun _ => ?_)
  exact Unaware.alike

end Init

end MikroKernel
