import MikroKernel.Alloc.Slab
import MikroKernel.Machine.Lockstep

/-!
# The allocators before and after the switch

`phys_map_offset` changes once, from 0 to `DIRECT_MAP_START`. `Steady I L x Q` says that `x` does
not notice: if it returns before the switch, it returns after it, with the same value and the same
memory. `I` is what it needs of memory and keeps. An access through `directmap_p2v` is steady,
because what is readable before the switch is physical or of the image (`stored_of_readable`). An
access to a pointer as it is has to be to the image. That is so for the variables; for
`metadata->free_lists_ptr` and `metadata->bitmap_ptr` it is an assumption on memory, `Arrays.Held`.

Most of the code follows from how it is put together, and `Blind` is the class for that.
-/

set_option autoImplicit false
set_option synthInstance.maxSize 1000

namespace MikroKernel

variable {α β : Type} {L : Layout} {s s' : KState} {m : Mem} {p v x n : Nat} {f : Field}

/-! ## What is readable -/

/-- What is readable before the switch is physical or of the image. -/
theorem stored_of_readable {c : Nat} (h : L.resolve 0 v = some c) : L.Stored v := by
  unfold Layout.resolve at h
  split at h
  · exact Or.inr ‹_›
  · split at h
    · rename_i hc
      exact Or.inl hc.2
    · exact absurd h (by simp)

/-- A stored pointer of the lower half is physical. -/
theorem Layout.Stored.phys (h : L.Stored p) (hp : p < pml4KernelHalfBase) : L.phys p = true :=
  h.resolve_right (fun hi => absurd (L.image_ge p hi) (by omega))

theorem Layout.phys_low (h : L.phys p = true) : p < pml4KernelHalfBase := by
  have := L.phys_lt p h
  unfold physTop at this
  unfold pml4KernelHalfBase
  omega

/-- One of the upper half is of the image. -/
theorem Layout.Stored.image (h : L.Stored p) (hp : pml4KernelHalfBase ≤ p) : L.image p = true :=
  h.resolve_left (fun hphys => absurd (Layout.phys_low hphys) (by omega))

/-- An access that returned was to a readable address. -/
theorem load_returned {r : Nat × KState} (h : load v f L s = .ok r) :
    ∃ c, L.resolve s.physMapOffset v = some c := by
  unfold load at h
  cases hres : L.resolve s.physMapOffset v with
  | none =>
    rw [hres] at h
    exact absurd h (by simp)
  | some c => exact ⟨c, rfl⟩

theorem store_returned {r : Unit × KState} (h : store v f x L s = .ok r) :
    ∃ c, L.resolve s.physMapOffset v = some c := by
  unfold store at h
  cases hres : L.resolve s.physMapOffset v with
  | none =>
    rw [hres] at h
    exact absurd h (by simp)
  | some c => exact ⟨c, rfl⟩

theorem memsetZero_returned {r : Unit × KState} (h : memsetZero v n L s = .ok r) :
    ∃ c, L.resolve s.physMapOffset v = some c := by
  unfold memsetZero at h
  cases hres : L.resolve s.physMapOffset v with
  | none =>
    rw [hres] at h
    exact absurd h (by simp)
  | some c => exact ⟨c, rfl⟩

/-- The same of an access through `directmap_p2v` before the switch: the pointer is a stored one. -/
theorem stored_of_returned {access : Nat → K α} {r : α × KState} (ho : s.physMapOffset = 0)
    (haccess : ∀ {v r}, access v L s = .ok r → ∃ c, L.resolve s.physMapOffset v = some c)
    (h : (do access (← directmapP2v p) : K α) L s = .ok r) : L.Stored p := by
  obtain ⟨v, s₁, hv, hrun⟩ := K.bind_eq_ok.mp h
  obtain ⟨rfl, rfl⟩ := Prod.mk.inj (Except.ok.inj hv)
  obtain ⟨c, hc⟩ := haccess hrun
  rw [ho, show (if p < pml4KernelHalfBase then (p + 0) % 2 ^ 64 else p) = p by
    unfold pml4KernelHalfBase; split <;> omega] at hc
  exact stored_of_readable hc

/-! ## Steady code -/

/-- The state, seen through an offset. -/
def KState.seen (s : KState) (off : Nat) : KState := { s with physMapOffset := off }

/-- A state before the switch with `I`, and the same state after it. -/
structure Within (I : Mem → Prop) (s t : KState) : Prop where
  before : s.physMapOffset = 0
  held : I s.mem
  after : t = s.seen directMapStart

/-- If `x` returns before the switch, with `Q`, it does the same after it. -/
def Steady (I : Mem → Prop) (L : Layout) (x : K α) (Q : α → Prop) : Prop :=
  Lockstep L (Within I) x x (fun a s t => Q a ∧ Within I s t)

/-- A load through `directmap_p2v`. -/
theorem lockstep_p2vLoad {I : Mem → Prop} :
    Lockstep L (Within I) (p2vLoad p f) (p2vLoad p f)
      (fun a s t => (a = s.mem p f ∧ L.Stored p) ∧ Within I s t) := by
  intro s t s' a hst hrun
  have hp : L.Stored p := stored_of_returned hst.before load_returned hrun
  rw [p2vLoad_apply (Or.inl hst.before) hp] at hrun
  obtain ⟨rfl, rfl⟩ := Prod.mk.inj (Except.ok.inj hrun)
  obtain ⟨-, -, rfl⟩ := id hst
  exact ⟨_, p2vLoad_apply (s := s.seen directMapStart) (Or.inr rfl) hp, ⟨rfl, hp⟩, hst⟩

/-- A store through `directmap_p2v`. -/
theorem lockstep_p2vStore {I J : Mem → Prop} (hset : ∀ m, I m → J (m.set p f x)) :
    Lockstep L (Within I) (p2vStore p f x) (p2vStore p f x) (fun _ => Within J) := by
  intro s t s' a hst hrun
  have hp : L.Stored p := stored_of_returned hst.before store_returned hrun
  rw [p2vStore_apply (Or.inl hst.before) hp] at hrun
  obtain ⟨-, rfl⟩ := Prod.mk.inj (Except.ok.inj hrun)
  obtain ⟨ho, hheld, rfl⟩ := hst
  exact ⟨_, p2vStore_apply (s := s.seen directMapStart) (Or.inr rfl) hp, ho, hset _ hheld, rfl⟩

/-- `memset` through `directmap_p2v`. -/
theorem lockstep_memset {I J : Mem → Prop} (hzero : L.Stored p → ∀ m, I m → J (m.zero p n)) :
    Lockstep L (Within I) (do memsetZero (← directmapP2v p) n) (do memsetZero (← directmapP2v p) n)
      (fun _ s t => L.Stored p ∧ Within J s t) := by
  intro s t s' a hst hrun
  have hp : L.Stored p := stored_of_returned hst.before memsetZero_returned hrun
  rw [memsetZero_p2v (Or.inl hst.before) hp] at hrun
  obtain ⟨-, rfl⟩ := Prod.mk.inj (Except.ok.inj hrun)
  obtain ⟨ho, hheld, rfl⟩ := hst
  exact ⟨_, memsetZero_p2v (s := s.seen directMapStart) (Or.inr rfl) hp, hp, ho,
    hzero hp _ hheld, rfl⟩

namespace Steady

variable {I : Mem → Prop} {Q : α → Prop} {R : β → Prop}

theorem pure {a : α} (hq : Q a) : Steady I L (Pure.pure a : K α) Q :=
  Lockstep.pure (fun _ _ h => ⟨hq, h⟩)

theorem bind {x : K α} {f : α → K β} (hx : Steady I L x Q) (hf : ∀ a, Q a → Steady I L (f a) R) :
    Steady I L (x >>= f) R := Lockstep.bind hx (fun a => Lockstep.given (hf a))

theorem mono {x : K α} {Q' : α → Prop} (h : Steady I L x Q) (hq : ∀ a, Q a → Q' a) :
    Steady I L x Q' :=
  Lockstep.mono h (fun _ _ h => h) (fun a _ _ h => ⟨hq a h.1, h.2⟩)

theorem ite {c : Prop} [Decidable c] {x y : K α} (hx : c → Steady I L x Q)
    (hy : ¬ c → Steady I L y Q) :
    Steady I L (if c then x else y) Q := Lockstep.ite hx hy

theorem stop {e : Stop} : Steady I L (K.stop e : K α) Q := Lockstep.stop

/-- A value that does not depend on the state. -/
theorem kernelEnd : Steady I L MikroKernel.kernelEnd (fun a => a = L.kernelEnd) := by
  intro s t s' a hst hrun
  obtain ⟨rfl, rfl⟩ := Prod.mk.inj (Except.ok.inj hrun)
  exact ⟨t, rfl, rfl, hst⟩

/-- A load from the upper half. -/
theorem load {Q : Nat → Prop} (hv : pml4KernelHalfBase ≤ v) (hq : ∀ m, I m → Q (m v f)) :
    Steady I L (MikroKernel.load v f) Q := by
  intro s t s' a hst hrun
  have himg : L.image v = true := by
    obtain ⟨c, hc⟩ := load_returned hrun
    rw [hst.before] at hc
    exact (stored_of_readable hc).image hv
  rw [load_image himg] at hrun
  obtain ⟨rfl, rfl⟩ := Prod.mk.inj (Except.ok.inj hrun)
  obtain ⟨-, hheld, rfl⟩ := id hst
  exact ⟨_, load_image himg, hq _ hheld, hst⟩

/-- A store into the upper half. -/
theorem store (hv : pml4KernelHalfBase ≤ v) (hset : ∀ m, I m → I (m.set v f x)) :
    Steady I L (MikroKernel.store v f x) (fun _ => True) := by
  intro s t s' a hst hrun
  have himg : L.image v = true := by
    obtain ⟨c, hc⟩ := store_returned hrun
    rw [hst.before] at hc
    exact (stored_of_readable hc).image hv
  rw [store_image himg] at hrun
  obtain ⟨-, rfl⟩ := Prod.mk.inj (Except.ok.inj hrun)
  obtain ⟨ho, hheld, rfl⟩ := hst
  exact ⟨_, store_image himg, trivial, ho, hset _ hheld, rfl⟩

theorem locked {id : LockId} {x : K α} (hx : Steady I L x Q) :
    Steady I L (MikroKernel.locked id x) Q := by
  intro s t s' a hst hrun
  obtain ⟨s₁, hfree, hsec, rfl⟩ := locked_ok hrun
  obtain ⟨ho, hheld, rfl⟩ := hst
  obtain ⟨t₁, hsame, hq, ho₁, hheld₁, rfl⟩ :=
    hx (show Within I (s.acquired id) ((s.seen directMapStart).acquired id) from ⟨ho, hheld, rfl⟩)
      hsec
  refine ⟨(s₁.released id).seen directMapStart, ?_, hq, ho₁, hheld₁, rfl⟩
  unfold MikroKernel.locked
  rw [K.bind_ok (spinlockAcquire_free (s := s.seen directMapStart) hfree), K.bind_ok hsame]
  rfl

end Steady

/-! ## The arrays behind the metadata -/

/-- Where the list heads and the bitmap are. -/
structure Arrays where
  freeLists : Nat
  bitmap : Nat
  freeLists_ge : pml4KernelHalfBase ≤ freeLists
  bitmap_ge : pml4KernelHalfBase ≤ bitmap

/-- The metadata points to the arrays. -/
structure Arrays.Held (W : Arrays) (L : Layout) (m : Mem) : Prop where
  freeLists : m L.kernelEnd .freeListsPtr = W.freeLists
  bitmap : m L.kernelEnd .bitmapPtr = W.bitmap

/-- The fields of the two pointers. After `__init_buddy` nothing stores to them. -/
class Unguarded (f : Field) : Prop where
  ne : f ≠ .freeListsPtr ∧ f ≠ .bitmapPtr

instance : Unguarded .left := ⟨by decide⟩
instance : Unguarded .right := ⟨by decide⟩
instance : Unguarded .parent := ⟨by decide⟩
instance : Unguarded .color := ⟨by decide⟩
instance : Unguarded .chunkNext := ⟨by decide⟩
instance : Unguarded .chunkPrev := ⟨by decide⟩
instance : Unguarded .listNext := ⟨by decide⟩
instance : Unguarded .listPrev := ⟨by decide⟩
instance : Unguarded .inuseNum := ⟨by decide⟩
instance : Unguarded .freeList := ⟨by decide⟩
instance : Unguarded .slabCache := ⟨by decide⟩
instance : Unguarded .link := ⟨by decide⟩
instance : Unguarded .pte := ⟨by decide⟩
instance : Unguarded .ptr := ⟨by decide⟩
instance : Unguarded .byte := ⟨by decide⟩

section Held

variable {W : Arrays}

theorem Arrays.Held.set [hf : Unguarded f] (h : W.Held L m) : W.Held L (m.set p f x) where
  freeLists := (Mem.set_ne (Or.inr hf.ne.1.symm)).trans h.freeLists
  bitmap := (Mem.set_ne (Or.inr hf.ne.2.symm)).trans h.bitmap

/-- Memory below the metadata may be zeroed. -/
theorem Arrays.Held.zero (h : W.Held L m) (hp : p + n ≤ L.kernelEnd) : W.Held L (m.zero p n) where
  freeLists := (Mem.zero_of_not_mem (Or.inr hp)).trans h.freeLists
  bitmap := (Mem.zero_of_not_mem (Or.inr hp)).trans h.bitmap

theorem kernelEnd_ge : pml4KernelHalfBase ≤ L.kernelEnd :=
  L.image_ge _ (L.metadata_image 0 (by decide))

end Held

/-! ## Code that needs no knowledge of values -/

/-- An address of the upper half, where the variables are. -/
class Upper (v : Nat) : Prop where
  ge : pml4KernelHalfBase ≤ v

theorem Upper.add (h : pml4KernelHalfBase ≤ v) : Upper (v + n) := ⟨Nat.le_add_right_of_le h⟩

/-- Steady, whatever it is given. -/
class Blind (W : Arrays) (L : Layout) (x : K α) : Prop where
  steady : Steady (W.Held L) L x (fun _ => True)

namespace Blind

variable {W : Arrays}

theorem of_steady {x : K α} {Q : α → Prop} (h : Steady (W.Held L) L x Q) : Blind W L x :=
  ⟨h.mono (fun _ _ => trivial)⟩

instance pure (a : α) : Blind W L (Pure.pure a : K α) := ⟨Steady.pure trivial⟩

instance bind (x : K α) (f : α → K β) [hx : Blind W L x] [hf : ∀ a, Blind W L (f a)] :
    Blind W L (x >>= f) :=
  ⟨hx.steady.bind (fun a _ => (hf a).steady)⟩

instance ite (c : Prop) [Decidable c] (x y : K α) [hx : Blind W L x] [hy : Blind W L y] :
    Blind W L (if c then x else y) := ⟨Steady.ite (fun _ => hx.steady) (fun _ => hy.steady)⟩

instance stop (e : Stop) : Blind W L (K.stop e : K α) := ⟨Steady.stop⟩

instance kpanic (msg : String) : Blind W L (MikroKernel.kpanic msg : K α) := ⟨Steady.stop⟩

instance p2vLoad (p : Nat) (f : Field) : Blind W L (MikroKernel.p2vLoad p f) :=
  ⟨Lockstep.mono lockstep_p2vLoad (fun _ _ h => h) (fun _ _ _ h => ⟨trivial, h.2⟩)⟩

instance p2vStore (p x : Nat) (f : Field) [Unguarded f] : Blind W L (MikroKernel.p2vStore p f x) :=
  ⟨Lockstep.mono (lockstep_p2vStore (fun _ h => h.set)) (fun _ _ h => h)
    (fun _ _ _ h => ⟨trivial, h⟩)⟩

instance load (v : Nat) (f : Field) [hv : Upper v] : Blind W L (MikroKernel.load v f) :=
  ⟨Steady.load hv.ge (fun _ _ => trivial)⟩

instance store (v x : Nat) (f : Field) [hv : Upper v] [Unguarded f] :
    Blind W L (MikroKernel.store v f x) :=
  ⟨Steady.store hv.ge (fun _ h => h.set)⟩

instance locked (id : LockId) (x : K α) [hx : Blind W L x] : Blind W L (MikroKernel.locked id x) :=
  ⟨Steady.locked hx.steady⟩

end Blind

/-! ## The buddy allocator -/

section Buddy

variable {W : Arrays}

/-- The metadata is where the linker put it. -/
theorem blind_kernelEnd {f : Nat → K α} (h : Blind W L (f L.kernelEnd)) :
    Blind W L (kernelEnd >>= f) :=
  ⟨Steady.bind Steady.kernelEnd (fun a ha => by rw [ha]; exact h.steady)⟩

/-- `metadata->free_lists_ptr`. -/
theorem blind_freeLists {f : Nat → K α} (h : Blind W L (f W.freeLists)) :
    Blind W L (load L.kernelEnd .freeListsPtr >>= f) :=
  ⟨Steady.bind (Steady.load (Q := fun a => a = W.freeLists) kernelEnd_ge (fun _ hm => hm.freeLists))
    (fun a ha => by rw [ha]; exact h.steady)⟩

/-- `metadata->bitmap_ptr`. -/
theorem blind_bitmap {f : Nat → K α} (h : Blind W L (f W.bitmap)) :
    Blind W L (load L.kernelEnd .bitmapPtr >>= f) :=
  ⟨Steady.bind (Steady.load (Q := fun a => a = W.bitmap) kernelEnd_ge (fun _ hm => hm.bitmap))
    (fun a ha => by rw [ha]; exact h.steady)⟩

instance : Upper L.kernelEnd := ⟨kernelEnd_ge⟩
instance (k : Nat) : Upper (orderOffsetAddr L.kernelEnd k) :=
  Upper.add (Nat.le_add_right_of_le kernelEnd_ge)
instance (k : Nat) : Upper (freeListAddr W.freeLists k) := Upper.add W.freeLists_ge
instance (i : Nat) : Upper (W.bitmap + i) := Upper.add W.bitmap_ge

instance (size : Nat) : Blind W L (selectOrder size) := by
  unfold selectOrder
  cases orderLoop size 64 0 <;> infer_instance

instance (i bit : Nat) : Blind W L (toggleSection W.bitmap i bit) := by
  unfold toggleSection
  infer_instance

instance (addr order : Nat) : Blind W L (toggleBitmap addr order) := by
  unfold toggleBitmap
  exact blind_kernelEnd (blind_bitmap inferInstance)

instance (chunk level : Nat) : Blind W L (splitStep W.freeLists chunk level) := by
  unfold splitStep
  dsimp only
  infer_instance

instance (chunk order level : Nat) : Blind W L (splitLoop W.freeLists chunk order level) := by
  induction level with
  | zero => exact Blind.pure ()
  | succ level ih =>
    unfold splitLoop
    infer_instance

instance (idx order : Nat) : Blind W L (popSection idx order) := by
  unfold popSection
  dsimp only
  exact blind_kernelEnd (blind_freeLists inferInstance)

instance (order n idx : Nat) : Blind W L (kallocLoop order n idx) := by
  induction n generalizing idx with
  | zero => exact Blind.pure 0
  | succ n ih =>
    unfold kallocLoop
    infer_instance

/-- **`buddy_kalloc`** is steady: what it dereferences as it is, is the metadata and the two
arrays. -/
instance (size : Nat) : Blind W L (buddyKalloc size) := by
  unfold buddyKalloc
  exact blind_kernelEnd inferInstance

instance (buddy chunk order : Nat) : Blind W L (unlinkSection buddy chunk order) := by
  unfold unlinkSection
  dsimp only
  exact blind_kernelEnd (blind_freeLists inferInstance)

instance (n chunk order : Nat) : Blind W L (mergeLoop n chunk order) := by
  induction n generalizing chunk order with
  | zero => exact Blind.pure (chunk, order)
  | succ n ih =>
    unfold mergeLoop
    infer_instance

instance (block order : Nat) : Blind W L (insertSection block order) := by
  unfold insertSection
  dsimp only
  exact blind_kernelEnd (blind_freeLists inferInstance)

/-- **`buddy_kfree`** is steady. -/
instance (chunk size : Nat) : Blind W L (buddyKfree chunk size) := by
  unfold buddyKfree
  dsimp only
  refine @Blind.ite _ _ _ _ _ _ _ inferInstance ?_
  exact blind_kernelEnd inferInstance

end Buddy

/-! ## The slab allocator -/

section Slab

variable {W : Arrays}

instance (cache : Nat) [h : Upper cache] : Upper (freeSlabs cache) := Upper.add h.ge
instance (cache : Nat) [h : Upper cache] : Upper (partialSlabs cache) := Upper.add h.ge
instance (cache : Nat) [h : Upper cache] : Upper (fullSlabs cache) := Upper.add h.ge

instance (node : Nat) : Blind W L (unlinkNode node) := by
  unfold unlinkNode
  infer_instance

instance (sentinel node : Nat) [Upper sentinel] : Blind W L (insertFront sentinel node) := by
  unfold insertFront
  infer_instance

instance (sentinel node : Nat) [Upper sentinel] : Blind W L (moveNode sentinel node) := by
  unfold moveNode
  infer_instance

instance (first objectSize perSlab left idx : Nat) :
    Blind W L (threadLoop first objectSize perSlab left idx) := by
  induction left generalizing idx with
  | zero => exact Blind.pure ()
  | succ left ih =>
    unfold threadLoop
    dsimp only
    infer_instance

instance (cache : Nat) [Upper cache] : Blind W L (kmemCacheGrow buddyKalloc cache) := by
  unfold kmemCacheGrow
  dsimp only
  infer_instance

instance (cache : Nat) [Upper cache] : Blind W L (pickSlab cache) := by
  unfold pickSlab
  infer_instance

instance (cache desc : Nat) [Upper cache] : Blind W L (popObject cache desc) := by
  unfold popObject
  dsimp only
  infer_instance

instance (cache : Nat) [Upper cache] : Blind W L (firstSection cache) := by
  unfold firstSection
  refine @Blind.bind _ _ _ _ _ _ inferInstance (fun r => ?_)
  cases r <;> infer_instance

instance (cache : Nat) (status : Status) [Upper cache] :
    Blind W L (secondSection cache status) := by
  unfold secondSection grownSlab
  infer_instance

/-- **`kmem_cache_kalloc`** is steady: it dereferences nothing as it is but the cache. -/
instance (cache : Nat) [Upper cache] : Blind W L (kmemCacheKalloc buddyKalloc cache) := by
  unfold kmemCacheKalloc
  refine @Blind.bind _ _ _ _ _ _ inferInstance (fun r => ?_)
  cases r <;> infer_instance

instance (cache object : Nat) [Upper cache] : Blind W L (freeSection cache object) := by
  unfold freeSection
  dsimp only
  infer_instance

instance (cache object : Nat) [Upper cache] : Blind W L (kmemCacheKfree cache object) := by
  unfold kmemCacheKfree
  infer_instance

end Slab

end MikroKernel
