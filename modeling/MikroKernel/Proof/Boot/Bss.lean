import MikroKernel.Proof.Alloc.Unaware
import MikroKernel.Proof.Boot.Screen
import MikroKernel.Proof.Vm.Start

/-!
# What boot does not read

`.bss` is what RAM contained. Two machines whose `.bss` differs start boot in states that differ
there. Step by step boot stores to these variables, and after the PML4 is stored the states are the
same: no variable is loaded before it is stored, but for two. `s_fb_virt` is loaded by all that
prints before `__init_mmu`, and `kernel_rb_root` is loaded by the first `rb_insert` and never
cleared.
-/

set_option autoImplicit false

namespace MikroKernel
namespace Boot

open Slab

variable {L : Layout} {B : BootStatics} {I : BootInput} {M : Mask} {s t : KState}
    {H : Nat → Field → Prop}
  {a cache size align n : Nat} {f : Field}

/-! ## The variables -/

/-- The cells of a `kmem_cache`. -/
def CacheCell (cache a : Nat) (f : Field) : Prop :=
  (a = cache ∧ (f = .objectSize ∨ f = .objectAlign ∨ f = .slabOrder ∨ f = .objectsPerSlab)) ∨
    ((a = freeSlabs cache ∨ a = partialSlabs cache ∨ a = fullSlabs cache) ∧
      (f = .listNext ∨ f = .listPrev))

/-- The cells of `.bss` that boot uses. -/
def Bss (B : BootStatics) (a : Nat) (f : Field) : Prop :=
  (f = .ptr ∧ (a = B.kernelRbRoot ∨ a = B.kernelPml4t ∨ a = B.fbVirt)) ∨
    (∃ i, i < 8 ∧ CacheCell (slabCache B.slabCaches i) a f) ∨ CacheCell B.vmaCache a f

/-- The states agree but for `.bss`, where the locks are too. -/
structure SameButBss (B : BootStatics) (s t : KState) : Prop where
  mem : ∀ a f, ¬ Bss B a f → t.mem a f = s.mem a f
  offset : t.physMapOffset = s.physMapOffset
  rflags : t.rflags = s.rflags
  apicId : t.apicId = s.apicId
  blocks : t.blocks = s.blocks

/-- The linker put `.bss` in the image, before `_kernel_end`: the pointers apart from each other and
from `vma_cache`. -/
structure InBss (L : Layout) (B : BootStatics) : Prop where
  pml4 : L.image B.kernelPml4t = true
  root : L.image B.kernelRbRoot = true
  fb : L.image B.fbVirt = true
  caches : ∀ i, i < cacheSize * 8 → L.image (B.slabCaches + i) = true
  vmaCache : ∀ i, i < cacheSize → L.image (B.vmaCache + i) = true
  pml4_lt : B.kernelPml4t < L.kernelEnd
  root_lt : B.kernelRbRoot < L.kernelEnd
  fb_lt : B.fbVirt < L.kernelEnd
  caches_le : B.slabCaches + cacheSize * 8 ≤ L.kernelEnd
  vmaCache_le : B.vmaCache + cacheSize ≤ L.kernelEnd
  pml4_root : B.kernelPml4t ≠ B.kernelRbRoot
  fb_pml4 : B.fbVirt ≠ B.kernelPml4t
  fb_root : B.fbVirt ≠ B.kernelRbRoot
  pml4_cache : ¬ (B.vmaCache ≤ B.kernelPml4t ∧ B.kernelPml4t < B.vmaCache + cacheSize)
  root_cache : ¬ (B.vmaCache ≤ B.kernelRbRoot ∧ B.kernelRbRoot < B.vmaCache + cacheSize)
  fb_cache : ¬ (B.vmaCache ≤ B.fbVirt ∧ B.fbVirt < B.vmaCache + cacheSize)

theorem CacheCell.slabField (h : CacheCell cache a f) : slabField f = true := by
  rcases h with ⟨-, rfl | rfl | rfl | rfl⟩ | ⟨-, rfl | rfl⟩ <;> rfl

/-- A new cache is the same whatever was there. -/
theorem created_agree {m m' : Mem} (h : m' a f = m a f ∨ CacheCell cache a f) :
    created m' cache size align n a f = created m cache size align n a f := by
  rcases h with h | ⟨rfl, rfl | rfl | rfl | rfl⟩ | ⟨rfl | rfl | rfl, rfl | rfl⟩
  · simp only [created, Mem.set_apply, h]
  all_goals simp [created, Mem.set_apply, freeSlabs, partialSlabs, fullSlabs]

/-! ## What is hidden -/

/-- The list heads are not in `.bss`. -/
theorem head_ne {v c off k : Nat} (himg : L.image v = true) (hlt : v < L.kernelEnd)
    (hres : L.resolve off (freeListAddr (L.kernelEnd + metadataSize) k) = some c) : c ≠ v := by
  rintro rfl
  unfold Layout.resolve at hres
  split at hres
  · have hc := Option.some.inj hres
    unfold freeListAddr at hc
    omega
  · split at hres
    · rename_i hphys
      rw [Option.some.inj hres] at hphys
      exact Buddy.phys_ne_image hphys.2 himg rfl
    · exact absurd hres (by simp)

/-- Hidden is at most `kernel_pml4t` and what the slab allocator stores. Known is at most where the
lists are, and what is in `kernel_rb_root`. -/
structure Bare (L : Layout) (B : BootStatics) (M : Mask) : Prop where
  hidden : ∀ a f, M.hidden a f → (a = B.kernelPml4t ∧ f = .ptr) ∨ slabField f = true
  held : ∀ m m', m' L.kernelEnd .freeListsPtr = m L.kernelEnd .freeListsPtr →
    m' B.kernelRbRoot .ptr = m B.kernelRbRoot .ptr → M.held m → M.held m'

namespace Bare

theorem opens (h : Bare L B M) (h1 : slabField f = false) (h2 : f ≠ .ptr) (h3 : f ≠ .freeListsPtr) :
    Open M f := by
  refine ⟨fun c hc => ?_, fun m c x hm =>
    h.held _ _ (Mem.set_ne (Or.inr h3.symm)) (Mem.set_ne (Or.inr h2.symm)) hm⟩
  rcases h.hidden c f hc with ⟨-, hf⟩ | hf
  · exact h2 hf
  · rw [h1] at hf
    exact absurd hf (by decide)

theorem buddyOpen (h : Bare L B M) : BuddyOpen M where
  next := h.opens rfl (by decide) (by decide)
  prev := h.opens rfl (by decide) (by decide)
  byte := h.opens rfl (by decide) (by decide)
  word := h.opens rfl (by decide) (by decide)
  base := h.opens rfl (by decide) (by decide)
  size := h.opens rfl (by decide) (by decide)
  least := h.opens rfl (by decide) (by decide)
  most := h.opens rfl (by decide) (by decide)
  bitmap := h.opens rfl (by decide) (by decide)

theorem lists (h : Bare L B M) (hB : InBss L B)
    (hknown : ∀ m, M.held m → m L.kernelEnd .freeListsPtr = L.kernelEnd + metadataSize) :
    Lists M L := by
  refine ⟨⟨fun off c _ hc => ?_⟩, fun m hm => ?_⟩
  · rcases h.hidden c _ hc with ⟨-, hf⟩ | hf <;> exact absurd hf (by decide)
  · rw [hknown m hm]
    refine ⟨fun k => ⟨fun off c hres hc => ?_⟩, fun k => ⟨fun off c x m hres => ?_⟩⟩
    · rcases h.hidden c _ hc with ⟨hc, -⟩ | hf
      · exact head_ne hB.pml4 hB.pml4_lt hres hc
      · exact absurd hf (by decide)
    · exact h.held _ _ (Mem.set_ne (Or.inr (by decide)))
        (Mem.set_ne (Or.inl (head_ne hB.root hB.root_lt hres).symm))

theorem behind (h : Bare L B M) (hB : InBss L B) : Behind M L := by
  refine ⟨fun m i n hi _ hm => h.held _ _ (Mem.zero_of_not_mem (Or.inl ?_))
    (Mem.zero_of_not_mem (Or.inl ?_)) hm⟩
  · unfold metadataSize at hi
    omega
  · exact Nat.lt_of_lt_of_le hB.root_lt (Nat.le_add_right _ _)

theorem fb (h : Bare L B M) (hB : InBss L B) : ¬ M.hidden B.fbVirt .ptr := by
  intro hc
  rcases h.hidden _ _ hc with ⟨heq, -⟩ | hf
  · exact hB.fb_pml4 heq
  · exact absurd hf (by decide)

end Bare

/-- What draws is the same under a mask that does not hide `s_fb_virt`. -/
theorem Bare.draws {α : Type} (h : Bare L B M) (hB : InBss L B) (I : BootInput) (x : K α)
    [hx : Draws L B.fbVirt I.vbe x] : Unaware M L x x := by
  obtain ⟨g, hg⟩ := hx.drawn hB.fb
  refine ⟨fun s t hst => ?_⟩
  have hsame : framebuffer B.fbVirt I.vbe t.mem = framebuffer B.fbVirt I.vbe s.mem := by
    unfold framebuffer
    rw [hst.mem _ _ (h.fb hB)]
  rw [hg s, hg t, hsame]
  exact ⟨rfl, hst⟩

/-! ## The caches -/

/-- **Creation makes a cache known.** -/
theorem alike_create (himg : ∀ i, i < cacheSize → L.image (cache + i) = true)
    (hal : calcObjectAlign size = some align)
    (hn : calcObjectsPerSlab size align (calcSlabOrder size % 2 ^ 8) = some n) (h : Bare L B M)
    (hH : ∀ a f, M.hidden a f → H a f ∨ CacheCell cache a f) :
    Alike L (Masked M) (kmemCacheCreate cache size) (kmemCacheCreate cache size)
      (fun p s t => p = cache ∧ Masked { M with hidden := H } s t) := by
  intro s t hst
  rw [kmemCacheCreate_edits himg hal hn s rfl rfl, kmemCacheCreate_edits himg hal hn t rfl rfl]
  refine ⟨rfl, rfl, fun a f ha => created_agree ?_, ?_, hst.lock, hst.offset, hst.rflags,
    hst.apicId, hst.blocks⟩
  · by_cases hhid : M.hidden a f
    · exact Or.inr ((hH a f hhid).resolve_left ha)
    · exact Or.inl (hst.mem a f hhid)
  · exact h.held _ _ (created_spares rfl) (created_spares rfl) hst.held

/-- The loop of `__init_slab`: the caches still to come are hidden, and then none is. -/
theorem alike_initSlabLoop {slabCaches : Nat}
    (himg : ∀ i, i < cacheSize * 8 → L.image (slabCaches + i) = true) :
    ∀ {k pow : Nat} {M : Mask}, 4 ≤ pow → pow + k = 12 → Bare L B M →
      (∀ a f, M.hidden a f → H a f ∨ ∃ i, pow - 4 ≤ i ∧ i < 8 ∧
        CacheCell (slabCache slabCaches i) a f) →
      Alike L (Masked M) (initSlabLoop slabCaches k pow) (initSlabLoop slabCaches k pow)
        (fun _ => Masked { M with hidden := H }) := by
  intro k
  induction k with
  | zero =>
    intro pow M h4 hk h hH
    refine Alike.pure (fun s t hst => ⟨fun a f ha => hst.mem a f (fun hM => ?_), hst.held, hst.lock,
      hst.offset, hst.rflags, hst.apicId, hst.blocks⟩)
    obtain ⟨i, h1, h2, -⟩ := (hH a f hM).resolve_left ha
    omega
  | succ k ih =>
    intro pow M h4 hk h hH
    obtain ⟨hidx, -, align, n, hal, hn⟩ := initSlab_sizes h4 (show pow < 12 by omega)
    have himg' : ∀ i, i < cacheSize → L.image (slabCache slabCaches (pow - 4) + i) = true := by
      intro i hi
      have := himg (cacheSize * (pow - 4) + i) (by unfold cacheSize at *; omega)
      unfold slabCache
      rwa [Nat.add_assoc]
    obtain ⟨M', hM'⟩ : ∃ M' : Mask, M' = { M with
        hidden := fun a f => M.hidden a f ∧
          ¬ CacheCell (slabCache slabCaches (pow - 4)) a f } := ⟨_, rfl⟩
    have hcreate := alike_create himg' hal hn h (H := M'.hidden) (fun a f ha => by
      rw [hM']
      by_cases hc : CacheCell (slabCache slabCaches (pow - 4)) a f
      · exact Or.inr hc
      · exact Or.inl ⟨ha, hc⟩)
    have hbare : Bare L B M' := by
      rw [hM']
      exact ⟨fun a f ha => h.hidden a f ha.1, h.held⟩
    have hrest := ih (M := M') (show 4 ≤ pow + 1 by omega) (by omega) hbare (fun a f ha => by
      rw [hM'] at ha
      refine (hH a f ha.1).imp_right (fun ⟨i, h1, h2, hc⟩ => ⟨i, ?_, h2, hc⟩)
      have hne : i ≠ pow - 4 := by
        rintro rfl
        exact ha.2 hc
      omega)
    unfold initSlabLoop
    rw [hidx]
    refine Alike.bind hcreate (fun p => Alike.given (fun hp => ?_))
    have hne : p ≠ 0 := by
      have := L.image_ge _ (himg' 0 (by decide))
      unfold pml4KernelHalfBase at this
      omega
    rw [if_neg hne]
    rw [hM'] at hrest ⊢
    exact hrest

/-! ## The stages -/

/-- What `__init_mmu` stores to before it loads. -/
def Later (B : BootStatics) (a : Nat) (f : Field) : Prop :=
  (a = B.kernelPml4t ∧ f = .ptr) ∨ CacheCell B.vmaCache a f

/-- At the start no lock is initialised. -/
def atStart (B : BootStatics) : Mask where
  hidden a f := Later B a f ∨ ∃ i, i < 8 ∧ CacheCell (slabCache B.slabCaches i) a f
  loose _ := True
  held _ := True
  blocks b c := c = b

def afterBuddy (L : Layout) (B : BootStatics) : Mask :=
  { atStart B with
    loose := fun id => id ≠ .buddyLock
    held := fun m => m L.kernelEnd .freeListsPtr = L.kernelEnd + metadataSize }

def afterSlab (L : Layout) (B : BootStatics) : Mask :=
  { afterBuddy L B with
    hidden := Later B
    loose := fun id => id = .kernelPageLock }

theorem Later.bare (h : Later B a f) : (a = B.kernelPml4t ∧ f = .ptr) ∨ slabField f = true :=
  h.imp_right CacheCell.slabField

theorem Bare.loosen (h : Bare L B M) (loose : LockId → Prop) : Bare L B { M with loose := loose } :=
  ⟨h.hidden, h.held⟩

theorem atStart_bare (L : Layout) (B : BootStatics) : Bare L B (atStart B) where
  hidden _ _ h := h.elim Later.bare (fun ⟨_, _, hc⟩ => Or.inr hc.slabField)
  held _ _ _ _ _ := trivial

theorem afterBuddy_bare (L : Layout) (B : BootStatics) : Bare L B (afterBuddy L B) where
  hidden := (atStart_bare L B).hidden
  held _ _ heq _ hm := heq.trans hm

theorem afterSlab_bare (L : Layout) (B : BootStatics) : Bare L B (afterSlab L B) where
  hidden _ _ := Later.bare
  held _ _ heq _ hm := heq.trans hm

/-- `__init_buddy` and its prints. -/
theorem alike_initBuddyShown (hB : InBss L B) : Alike L (Masked (atStart B)) (initBuddyShown B I)
    (initBuddyShown B I) (fun _ => Masked (afterBuddy L B)) := by
  have hbare := atStart_bare L B
  have hbare' := afterBuddy_bare L B
  have hopen := hbare.buddyOpen
  have hopen' := hbare'.buddyOpen
  have hlists := hbare'.lists hB (fun _ h => h)
  have hbehind := hbare'.behind hB
  have hinit : Alike L (Masked (atStart B)) (initBuddy I.entries) (initBuddy I.entries)
      (fun _ => Masked (afterBuddy L B)) := by
    refine alike_initBuddy I.entries rfl rfl (fun j _ => ?_) (fun m _ => Mem.set_self _ _ _ _)
    by_cases hj : j = .buddyLock
    · exact Or.inr hj
    · exact Or.inl hj
  unfold initBuddyShown
  refine Alike.bind (hbare.draws hB I _).alike (fun _ => Alike.bind hinit (fun _ => ?_))
  refine Alike.bind (hbare'.draws hB I _).alike (fun _ => ?_)
  exact Alike.pure (fun _ _ h => h)

/-- `__init_slab` makes its lock and its caches known. -/
theorem alike_initSlab (hB : InBss L B) : Alike L (Masked (afterBuddy L B)) (initSlab B.slabCaches)
    (initSlab B.slabCaches) (fun _ => Masked (afterSlab L B)) := by
  have hinit : Alike L (Masked (afterBuddy L B)) (spinlockInit .slabLock) (spinlockInit .slabLock)
      (fun _ => Masked { afterBuddy L B with loose := fun id => id = .kernelPageLock }) := by
    refine alike_init rfl rfl rfl (fun j hj => ?_)
    cases j with
    | buddyLock => exact absurd rfl hj
    | slabLock => exact Or.inr rfl
    | kernelPageLock => exact Or.inl rfl
  have hbare := (afterBuddy_bare L B).loosen (fun id => id = .kernelPageLock)
  have hloop := alike_initSlabLoop (H := Later B) hB.caches (show 4 ≤ 4 by omega)
    (show 4 + 8 = 12 by omega) hbare
    (fun a f ha => ha.imp_right (fun ⟨i, hi, hc⟩ => ⟨i, Nat.zero_le _, hi, hc⟩))
  exact Alike.bind hinit (fun _ => hloop)

theorem alike_initPhysKmalloc (hB : InBss L B) : Alike L (Masked (atStart B)) (initPhysKmalloc B I)
    (initPhysKmalloc B I) (fun _ => Masked (afterSlab L B)) := by
  have hprint := fun text row => (afterSlab_bare L B).draws hB I (println B I text row 0)
  unfold initPhysKmalloc initSlabShown
  refine Alike.bind (alike_initBuddyShown hB) (fun _ => ?_)
  refine Alike.bind (Alike.bind (alike_initSlab hB) (fun _ => Unaware.alike)) (fun _ => ?_)
  exact Unaware.alike

/-- The cache of VMAs is created under a lock that is initialised. -/
theorem alike_createSl (hB : InBss L B) (h : Bare L B M) (hslab : Known M .slabLock)
    (hH : ∀ a f, M.hidden a f → H a f ∨ CacheCell B.vmaCache a f) :
    Alike L (Masked M) (kmemCacheCreateSl B.vmaCache vmaSize) (kmemCacheCreateSl B.vmaCache vmaSize)
      (fun _ => Masked { M with hidden := H }) := by
  obtain ⟨align, n, hal, hn⟩ := Vm.vmaSize_numbers
  rw [kmemCacheCreateSl_eq hal hn]
  unfold locked
  refine Alike.bind (alike_acquire hslab.known) (fun _ => ?_)
  refine Alike.bind (alike_create hB.vmaCache hal hn h hH) (fun p => Alike.given (fun _ => ?_))
  refine Alike.bind (alike_release hslab.known) (fun _ => ?_)
  exact Alike.pure (fun _ _ hst => hst)

/-- **After the PML4 is stored** the states are the same. -/
theorem alike_initSpace (hB : InBss L B) :
    Alike L (Masked (afterSlab L B)) (initSpace buddyKalloc B.toStatics)
    (initSpace buddyKalloc B.toStatics) (fun _ s t => t = s) := by
  obtain ⟨M, hM⟩ : ∃ M : Mask, M = { afterSlab L B with loose := fun _ => False } := ⟨_, rfl⟩
  obtain ⟨N, hN⟩ : ∃ N :
    Mask, N = { M with hidden := fun a f => a = B.kernelPml4t ∧ f = .ptr } := ⟨_, rfl⟩
  have hMbare : Bare L B M := by
    rw [hM]
    exact (afterSlab_bare L B).loosen _
  have hNbare : Bare L B N := by
    rw [hN]
    exact ⟨fun _ _ => Or.inl, hMbare.held⟩
  have hlock :
    Alike L (Masked (afterSlab L B)) (spinlockInit .kernelPageLock) (spinlockInit .kernelPageLock)
      (fun _ => Masked M) := by
    rw [hM]
    exact alike_init rfl rfl rfl (fun j hj => Or.inr hj)
  have hcache :
    Alike L (Masked M) (kmemCacheCreateSl B.vmaCache vmaSize) (kmemCacheCreateSl B.vmaCache vmaSize)
      (fun _ => Masked N) := by
    rw [hN]
    refine alike_createSl hB hMbare ⟨by rw [hM]; exact id⟩ (fun a f ha => ?_)
    rw [hM] at ha
    exact ha
  have hpage :
      Alike L (Masked N) (buddyKalloc pageSize) (buddyKalloc pageSize) (fun _ => Masked N) := by
    have hopen := hNbare.buddyOpen
    have hlists := hNbare.lists hB (fun m hm => by rw [hN, hM] at hm; exact hm)
    have hbuddy : Known N .buddyLock := ⟨by rw [hN, hM]; exact id⟩
    exact Unaware.alike
  have hstore : ∀ x, Alike L (Masked N) (store B.kernelPml4t .ptr x) (store B.kernelPml4t .ptr x)
      (fun _ s t => t = s) := by
    intro x
    have hknown : Alike L (Masked N) (store B.kernelPml4t .ptr x) (store B.kernelPml4t .ptr x)
        (fun _ => Masked { N with hidden := fun _ _ => False }) := by
      refine alike_store (fun {s t} c hc h => ?_)
      rw [resolve_image hB.pml4] at hc
      obtain rfl := Option.some.inj hc
      refine ⟨fun a f _ => ?_, hNbare.held _ _ (Mem.set_ne (Or.inr (by decide)))
        (Mem.set_ne (Or.inl hB.pml4_root.symm)) h.held, h.lock, h.offset, h.rflags,
          h.apicId, h.blocks⟩
      show t.mem.set _ _ _ a f = s.mem.set _ _ _ a f
      rw [Mem.set_apply, Mem.set_apply]
      by_cases hcell : a = B.kernelPml4t ∧ f = .ptr
      · rw [if_pos hcell, if_pos hcell]
      · rw [if_neg hcell, if_neg hcell]
        exact h.mem a f (by rw [hN]; exact hcell)
    refine hknown.mono (fun _ _ h => h) (fun _ s t h => h.eq (fun _ _ => id) (fun id => ?_) ?_)
    · show ¬ N.loose id
      rw [hN, hM]
      exact fun hl => hl
    · have hb : N.blocks s.blocks t.blocks := h.blocks
      rw [hN, hM] at hb
      exact hb
  refine Alike.bind hlock (fun _ => Alike.bind hcache (fun _ => Alike.bind hpage (fun x => ?_)))
  exact Alike.bind (hstore x) (fun _ => Alike.refl _)

/-- **Boot does not tell** two machines apart whose `.bss` agrees on `kernel_rb_root` and
`s_fb_virt`. -/
theorem startKernel_eq (hB : InBss L B) (h : SameButBss B s t) (fuel : Nat)
    (hroot : t.mem B.kernelRbRoot .ptr = s.mem B.kernelRbRoot .ptr)
    (hfb : t.mem B.fbVirt .ptr = s.mem B.fbVirt .ptr) :
    startKernel B I buddyKalloc fuel L t = startKernel B I buddyKalloc fuel L s := by
  have hstart : Masked (atStart B) s t := by
    refine ⟨fun a f ha => ?_, trivial, fun _ hl => absurd trivial hl, h.offset, h.rflags,
      h.apicId, h.blocks⟩
    by_cases hbss : Bss B a f
    · rcases hbss with ⟨rfl, rfl | rfl | rfl⟩ | hc | hc
      · exact hroot
      · exact absurd (Or.inl (Or.inl ⟨rfl, rfl⟩)) ha
      · exact hfb
      · exact absurd (Or.inr hc) ha
      · exact absurd (Or.inl (Or.inr hc)) ha
    · exact h.mem a f hbss
  have hhello := (atStart_bare L B).draws hB I (khello B I)
  refine Alike.eq
    (Alike.bind hhello.alike (fun _ => Alike.bind (alike_initPhysKmalloc hB) (fun _ => ?_))) hstart
  refine Alike.bind (Alike.bind (alike_initSpace hB) (fun _ => Alike.refl _))
    (fun _ => Alike.refl _)

end Boot
end MikroKernel
