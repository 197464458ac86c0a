import MikroKernel.Proof.Slab.Create
import MikroKernel.Proof.Vm.Calls

/-!
# The empty address space

`__init_mmu` starts by making one: `initSpace_yields`.
-/

set_option autoImplicit false

namespace MikroKernel
namespace Vm

open Rb RedBlack RedBlack.RBTree

variable {L : Layout} {A : KernelAlloc L} {V : Statics} {s s' : KState}

/-- What `__init_mmu` finds: allocators that work, and no VMA. -/
structure Ready (A : KernelAlloc L) (V : Statics) (s : KState) : Prop where
  ok : A.Ok s
  view : View s.physMapOffset
  slab : (s.lock .slabLock).Free
  placed : Placed A.toPageSource V
  image : ∀ i, i < cacheSize → L.image (V.vmaCache + i) = true
  unmanaged : ∀ a, V.vmaCache ≤ a → a < V.vmaCache + cacheSize → ¬ A.managed a
  root : s.mem V.kernelRbRoot .ptr = 0

/-- A VMA fits in a slab. -/
theorem vmaSize_numbers : ∃ align n, calcObjectAlign vmaSize = some align ∧
    calcObjectsPerSlab vmaSize align (calcSlabOrder vmaSize % 2 ^ 8) = some n := ⟨_, _, rfl, rfl⟩

/-- `kmem_cache_create_sl(&vma_cache, sizeof(vma_t))`. -/
theorem Ready.createSl (h : Ready A V s) :
    ∃ s₁ g, kmemCacheCreateSl V.vmaCache vmaSize L s = .ok (V.vmaCache, s₁) ∧ Quiet s s₁ ∧
      g.size = vmaSize ∧ s₁.mem V.kernelRbRoot .ptr = 0 ∧
      Slab.CacheInv A.toPageSource g V.vmaCache s₁ (fun _ => []) (fun _ => []) [] := by
  obtain ⟨align, n, hal, hn⟩ := vmaSize_numbers
  obtain ⟨g, hsize, halign, horder, hper⟩ :=
    Slab.exists_geometry (by decide) (by decide) (by decide)
    hal hn
  obtain ⟨s₁, hrun, hm, hq⟩ := Edits.locked h.slab
    (Slab.kmemCacheCreate_edits (m := s.mem) h.image hal hn)
  rw [← Slab.kmemCacheCreateSl_eq hal hn] at hrun
  have hview : View s₁.physMapOffset := hq.offset ▸ h.view
  have hout : ∀ a f, ¬ (V.vmaCache ≤ a ∧ a < V.vmaCache + cacheSize) → s₁.mem a f = s.mem a f := by
    intro a f ha
    rw [hm]
    exact Slab.created_frame (by omega)
  have hok : A.Ok s₁ := by
    refine A.ok_frame h.ok hview hq.free hq.blocks (fun a f hne hman => ?_)
    by_cases ha : V.vmaCache ≤ a ∧ a < V.vmaCache + cacheSize
    · exact absurd hman (h.unmanaged a ha.1 ha.2)
    · exact absurd (hout a f ha) hne
  refine ⟨s₁, g, hrun, hq, hsize, (hout _ _ h.placed.root_apart).trans h.root, ?_, hok, hview,
    hq.free _ h.slab, by simp, h.unmanaged⟩
  rw [hm]
  exact Slab.CacheMem.created h.image hsize halign horder hper

/-- The cache and the tree stay empty, whatever is written elsewhere; a zeroed block is an empty
PML4. -/
theorem Space.empty {g : Slab.Geometry} {pml4 : Nat} (hp : Placed A.toPageSource V)
    (hg : g.size = vmaSize)
    (hc : Slab.CacheInv A.toPageSource g V.vmaCache s' (fun _ => []) (fun _ => []) [])
    (hroot : s'.mem V.kernelRbRoot .ptr = 0) (hpml4 : s'.mem V.kernelPml4t .ptr = pml4)
    (hblock : ⟨pml4, pageSize⟩ ∈ s'.blocks) (hdvd : pageSize ∣ pml4)
    (hzero : ∀ i, i < 512 → s'.mem (entryAddr pml4 i) .pte = 0) :
    Space A V pml4 s' .nil [] (Mmu.Tables.bare pml4) := by
  have htables := Mmu.Start.inv ⟨hc.ok, hc.view, hblock, hdvd, hzero⟩
  refine ⟨hp, hpml4, ⟨g, _, _, hg, hc, by simp⟩, ?_, by simp [toList], htables.1, htables.2⟩
  exact ⟨⟨trivial, hroot, rfl, List.nodup_nil, fun x hx => absurd hx List.not_mem_nil, hp.root⟩,
    valid_nil, List.Pairwise.nil⟩

/-- `spinlock_init(&kernel_page_lock)`. -/
theorem Ready.initLock (h : Ready A V s) :
    ∃ s₀, spinlockInit .kernelPageLock L s = .ok ((), s₀) ∧ Ready A V s₀ ∧
      (s₀.lock .kernelPageLock).Free ∧
      s₀.physMapOffset = s.physMapOffset := by
  refine ⟨{ s with lock := Function.update s.lock .kernelPageLock Spinlock.init }, rfl, ?_, ?_, rfl⟩
  · refine ⟨A.ok_locks h.ok rfl rfl rfl ?_, h.view, ?_, h.placed, h.image, h.unmanaged, h.root⟩
    · show Function.update s.lock .kernelPageLock Spinlock.init .buddyLock = s.lock .buddyLock
      exact Function.update_of_ne (by decide) _ _
    · show (Function.update s.lock _ _ LockId.slabLock).Free
      rw [Function.update_of_ne (by decide)]
      exact h.slab
  · show (Function.update s.lock _ _ LockId.kernelPageLock).Free
    rw [Function.update_self]
    rfl

/-- The block at `p` is the PML4, and zeroed. -/
theorem Ready.startPml4 {s₁ s₂ : KState} {g : Slab.Geometry} {p : Nat} (h : Ready A V s)
    (hg : g.size = vmaSize)
    (hc : Slab.CacheInv A.toPageSource g V.vmaCache s₁ (fun _ => []) (fun _ => []) [])
    (hroot : s₁.mem V.kernelRbRoot .ptr = 0) (hlock : (s₂.lock .kernelPageLock).Free)
    (hok : A.Ok s₂) (hf : AllocFrame A.managed s₁.blocks s₁ s₂) (hdvd : pageSize ∣ p)
    (hblocks : s₂.blocks = ⟨p, pageSize⟩ :: s₁.blocks) :
    Shows A V p { s₂ with mem := (s₂.mem.set V.kernelPml4t .ptr p).zero p 4096 }
        (fun _ => none) [] := by
  have hblock : ⟨p, pageSize⟩ ∈ s₂.blocks := by
    rw [hblocks]
    exact List.mem_cons_self
  have hphys : ∀ a, p ≤ a → a < p + pageSize → L.phys a = true ∧ A.managed a :=
    (A.ok_blocks hok ⟨p, pageSize⟩ hblock).2
  have hview : View s₂.physMapOffset := hf.offset ▸ hc.view
  obtain ⟨m, hm⟩ : ∃ m, m = (s₂.mem.set V.kernelPml4t .ptr p).zero p 4096 := ⟨_, rfl⟩
  rw [← hm]
  -- only the variable and the block are written
  have hchanged : ∀ a f, m a f ≠ s₂.mem a f → a = V.kernelPml4t ∨ (p ≤ a ∧ a < p + pageSize) := by
    intro a f hne
    by_contra hc
    refine hne ?_
    rw [hm, Mem.zero_of_not_mem (by unfold pageSize at hc; omega), Mem.set_ne (Or.inl (by tauto))]
  have hkeep : ∀ a f, ¬ A.managed a → a ≠ V.kernelPml4t → m a f = s₁.mem a f := by
    intro a f hman hne
    by_contra hdiff
    by_cases hsame : m a f = s₂.mem a f
    · exact hman (hf.mem a f (fun he => hdiff (hsame.trans he))).1
    · rcases hchanged a f hsame with he | ⟨h1, h2⟩
      · exact hne he
      · exact hman (hphys a h1 h2).2
  have hok' : A.Ok { s₂ with mem := m } := by
    refine A.ok_frame hok hview (fun _ hl => hl) rfl (fun a f hne hman => ?_)
    rcases hchanged a f hne with rfl | hin
    · exact absurd hman h.placed.pml4_unmanaged
    · exact ⟨⟨p, pageSize⟩, hblock, hin⟩
  have hpml4 : m V.kernelPml4t .ptr = p := by
    rw [hm, Mem.zero_of_not_mem, Mem.set_self]
    by_contra hc
    exact h.placed.pml4_unmanaged (hphys _ (by omega) (by unfold pageSize; omega)).2
  have hc' : Slab.CacheInv A.toPageSource g V.vmaCache { s₂ with mem := m } (fun _ => [])
      (fun _ => []) [] := by
    refine hc.others hok' hview (hf.free _ hc.lock) (by simp) (fun a f h1 h2 => ?_) (by simp)
    refine hkeep a f (h.unmanaged a h1 h2) ?_
    rintro rfl
    exact h.placed.pml4_apart ⟨h1, h2⟩
  have hroot' : m V.kernelRbRoot .ptr = 0 :=
    (hkeep _ _ h.placed.root_unmanaged h.placed.ne.symm).trans hroot
  refine ⟨hlock, .nil, [], _, Space.empty h.placed hg hc' hroot' hpml4 hblock hdvd (fun i hi => ?_),
    Mmu.bare_lookup p, rfl⟩
  show m (entryAddr p i) .pte = 0
  rw [hm]
  exact Mem.zero_of_mem (by unfold entryAddr; omega) (by unfold entryAddr; omega)

instance {alarm : Stop} (x y : Nat → K Nat) [∀ n, Guards alarm (x n) (y n)] (V : Statics) :
    Guards alarm (initSpace x V) (initSpace y V) := by
  unfold initSpace
  infer_instance

/-- **The beginning of `__init_mmu`** makes an empty address space. -/
theorem initSpace_yields (h : Ready A V s) :
    Tied L nullAlarm (· = "FAILED TO ALLOCATE PML4T ROOT FOR THE KERNEL")
      (initSpace (orHalt A.kmalloc) V) (initSpace A.kmalloc V) s
      (fun _ s' => s'.physMapOffset = s.physMapOffset ∧
          ∃ pml4, Shows A V pml4 s' (fun _ => none) []) := by
  obtain ⟨s₀, hinit, h₀, hlock, hoff⟩ := h.initLock
  obtain ⟨s₁, g, hcreate, hq, hg, hroot, hc⟩ := h₀.createSl
  obtain ⟨p, s₂, hkmalloc, hok, hf, hcase⟩ := A.kmalloc_spec hc.ok (show 0 ≤ 10 by omega)
  rw [show pageSize * 2 ^ 0 = pageSize from rfl] at hkmalloc hcase
  have hview : View s₂.physMapOffset := hf.offset ▸ hc.view
  refine Tied.bind_ok hinit (Tied.bind_ok hcreate ?_)
  rcases hcase with ⟨rfl, -⟩ | ⟨h0, hdvd, hblocks⟩
  · refine Tied.of_alarm (by rw [K.bind_apply, orHalt_null hkmalloc]) (Yields.bind_ok hkmalloc ?_)
    refine Yields.bind_edits (Edits.store h.placed.pml4) ?_
    refine Yields.bind_edits (Edits.load h.placed.pml4 (Mem.set_self _ _ _ _)) ?_
    exact Yields.panic_bind rfl
  · refine Tied.bind (Tied.ret hkmalloc (Q := fun r s' => p = r ∧ s₂ = s') ⟨rfl, rfl⟩) ?_
    rintro _ _ ⟨rfl, rfl⟩
    refine Tied.bind_edits (Edits.store h.placed.pml4) ?_
    refine Tied.bind_edits (Edits.load h.placed.pml4 (Mem.set_self _ _ _ _)) ?_
    have hphys : L.phys p = true := by
      refine ((A.ok_blocks hok ⟨p, pageSize⟩ ?_).2 p (Nat.le_refl _)
        (by unfold pageSize; simp only; omega)).1
      rw [hblocks]
      exact List.mem_cons_self
    refine Tied.ite_neg h0 ?_
    refine Tied.bind_edits (Edits.load h.placed.pml4 (Mem.set_self _ _ _ _)) ?_
    refine Tied.bind_edits (Edits.directmapP2v p) ?_
    refine Tied.ret ((Edits.memsetZero_p2v hview (Or.inl hphys)) _ rfl rfl) ?_
    exact ⟨hf.offset.trans (hq.offset.trans hoff), p,
      h₀.startPml4 hg hc hroot (hf.free _ (hq.free _ hlock)) hok hf hdvd hblocks⟩

end Vm
end MikroKernel
