import MikroKernel.Proof.Alloc.Books
import MikroKernel.Proof.Mmu.Runs
import MikroKernel.Proof.Slab.Runs
import MikroKernel.Proof.Vm.Areas
import MikroKernel.Vm.Boot

/-!
# The kernel's address space at rest

Three structures share the memory behind `paging.c`: the tree of VMAs, whose nodes are in live
objects of `vma_cache`; the cache, with its slabs in blocks of the page allocator; and the page
tables, in other blocks of it. `Space` says that all three are right and apart. Each operation
writes one of them and leaves the other two as they are: `Space.edit` (the tree and the VMAs),
`Space.retable` (the page tables), `Space.kalloc` and `Space.kfree` (the cache).
-/

set_option autoImplicit false

namespace MikroKernel
namespace Vm

open Rb RedBlack RedBlack.RBTree

/-- A page allocator that may be called under a lock of the caller: its state is its memory and its
own lock. -/
structure KernelAlloc (L : Layout) extends PhysAlloc L where
  ok_locks : ∀ {s s'}, Ok s → s'.mem = s.mem → s'.blocks = s.blocks →
    s'.physMapOffset = s.physMapOffset → s'.lock .buddyLock = s.lock .buddyLock → Ok s'

/-- **The buddy allocator** with its books, for the kernel's own mappings. -/
def buddyAlloc (L : Layout) (base size : Nat) (hm : Buddy.Linkable L base size) :
    KernelAlloc L where
  toPhysAlloc := Buddy.buddyPages L base size hm
  ok_locks h hmem hb ho hl := Buddy.Booked.of_same h hmem hb ho hl

variable {L : Layout} {A : KernelAlloc L} {V : Statics} {pml4 : Nat} {s s' : KState}
  {t t' : RBTree Nat} {live : List Nat} {T T' : Mmu.Tables}

/-- The variables are in the kernel image, apart from each other and from what the page allocator
writes. -/
structure Placed (A : PageSource L) (V : Statics) : Prop where
  pml4 : L.image V.kernelPml4t = true
  root : L.image V.kernelRbRoot = true
  ne : V.kernelPml4t ≠ V.kernelRbRoot
  pml4_unmanaged : ¬ A.managed V.kernelPml4t
  root_unmanaged : ¬ A.managed V.kernelRbRoot
  pml4_apart : ¬ (V.vmaCache ≤ V.kernelPml4t ∧ V.kernelPml4t < V.vmaCache + cacheSize)
  root_apart : ¬ (V.vmaCache ≤ V.kernelRbRoot ∧ V.kernelRbRoot < V.vmaCache + cacheSize)

/-- Tree, cache and page tables are right, and apart. -/
structure Space (A : KernelAlloc L) (V : Statics) (pml4 : Nat) (s : KState) (t : RBTree Nat)
    (live : List Nat) (T : Mmu.Tables) : Prop where
  placed : Placed A.toPageSource V
  pml4_eq : s.mem V.kernelPml4t .ptr = pml4
  cache : ∃ g lists chain, g.size = vmaSize ∧
    Slab.CacheInv A.toPageSource g V.vmaCache s lists chain live ∧
    ∀ i, ∀ d ∈ lists i, ¬ Mmu.Owns T ⟨d, g.bytes⟩
  tree : IsTree L V.kernelRbRoot (startOrder s.mem) s.mem t
  nodes : ∀ x ∈ t.toList, ∃ o ∈ live, x = o + vmaNode
  tables : Mmu.Inv A.toPhysAlloc pml4 s T
  full : Mmu.Full T

/-! ## Where things are -/

/-- Address `a` is in a live object. -/
def InObject (live : List Nat) (a : Nat) : Prop := ∃ o ∈ live, o ≤ a ∧ a < o + vmaSize

theorem Space.view (h : Space A V pml4 s t live T) : View s.physMapOffset := h.tables.view

theorem vmaOf_node (o : Nat) : vmaOf (o + vmaNode) = o := Nat.add_sub_cancel o vmaNode

/-- A live object is in a slab, and the slab is no table. -/
theorem Space.object_block (h : Space A V pml4 s t live T) {a : Nat} (ha : InObject live a) :
    ∃ b ∈ s.blocks, ¬ Mmu.Owns T b ∧ b.addr ≤ a ∧ a < b.addr + b.len := by
  obtain ⟨g, lists, chain, hg, hc, hown⟩ := h.cache
  obtain ⟨o, ho, h1, h2⟩ := ha
  obtain ⟨i, d, hd, hod, -⟩ := (hc.mem.live_iff o).mp ho
  have hb := Slab.Geometry.slot_bounds hod
  rw [hg] at hb
  exact ⟨⟨d, g.bytes⟩, hc.block i d hd, hown i d hd, by show d ≤ a; omega,
    by show a < d + g.bytes; omega⟩

theorem Space.object_phys (h : Space A V pml4 s t live T) {a : Nat} (ha : InObject live a) :
    L.phys a = true := by
  obtain ⟨b, hb, -, h1, h2⟩ := h.object_block ha
  exact ((A.ok_blocks h.tables.ok b hb).2 a h1 h2).1

theorem Space.ne_object (h : Space A V pml4 s t live T) {a b : Nat} (ha : InObject live a)
    (hb : L.image b = true) : a ≠ b := (Slab.image_ne_phys hb (h.object_phys ha)).symm

/-- The cells of a table are in no other block. -/
theorem Space.table_apart (h : Space A V pml4 s t live T) {b : Block} (hb : b ∈ s.blocks)
    (hown : ¬ Mmu.Owns T b) {l K u i : Nat} (hu : T.dir l K = some u) (hi : i < 512) :
    ¬ (b.addr ≤ entryAddr u i ∧ entryAddr u i < b.addr + b.len) := by
  rintro ⟨h1, h2⟩
  have hap := h.tables.foreign_apart hu hb hown
  unfold entryAddr at h1 h2
  simp only [Block.Apart, pageSize] at hap
  omega

theorem Space.table_not_object (h : Space A V pml4 s t live T) {l K u i : Nat}
    (hu : T.dir l K = some u) (hi : i < 512) : ¬ InObject live (entryAddr u i) := by
  intro ha
  obtain ⟨b, hb, hown, hin⟩ := h.object_block ha
  exact h.table_apart hb hown hu hi hin

theorem Space.table_phys (h : Space A V pml4 s t live T) {l K u i : Nat}
    (hu : T.dir l K = some u) (hi : i < 512) : L.phys (entryAddr u i) = true :=
  h.tables.phys hu (by unfold entryAddr; omega) (by unfold entryAddr pageSize; omega)

/-- A node is inside its object, and so is the start of the object. -/
theorem Space.node_object (h : Space A V pml4 s t live T) {x : Nat} (hx : x ∈ t.toList) :
    InObject live x ∧ InObject live (vmaOf x) := by
  obtain ⟨o, ho, rfl⟩ := h.nodes x hx
  rw [vmaOf_node]
  exact ⟨⟨o, ho, by unfold vmaNode; omega, by unfold vmaNode vmaSize; omega⟩,
    ⟨o, ho, Nat.le_refl _, by unfold vmaSize; omega⟩⟩

theorem Space.stored_vma (h : Space A V pml4 s t live T) {x : Nat} (hx : x ∈ t.toList) :
    L.Stored (vmaOf x) := Or.inl (h.object_phys (h.node_object hx).2)

/-- A tree in a memory that is the same in the live objects and at the root. -/
theorem Space.tree_kept (h : Space A V pml4 s t live T)
    (hroot : s'.mem V.kernelRbRoot .ptr = s.mem V.kernelRbRoot .ptr)
    (hobj : ∀ a f, InObject live a → s'.mem a f = s.mem a f) :
    IsTree L V.kernelRbRoot (startOrder s'.mem) s'.mem t :=
  isTree_congr h.tree hroot (fun x hx f _ => hobj x f (h.node_object hx).1)
    (fun _ hx => hobj _ _ (h.node_object hx).2)

/-- The page tables, when others wrote elsewhere. -/
theorem tables_others {root : Nat} (h : Mmu.Inv A.toPhysAlloc root s T) (hok : A.Ok s')
    (hv : View s'.physMapOffset) (hblocks : ∀ b ∈ s.blocks, b ∈ s'.blocks)
    (hmem : ∀ {l K u : Nat}, T.dir l K = some u → ∀ i, i < 512 →
      s'.mem (entryAddr u i) .pte = s.mem (entryAddr u i) .pte) :
    Mmu.Inv A.toPhysAlloc root s' T :=
  ⟨h.shape, fun hu i hi => (hmem hu i hi).trans (h.entries hu i hi),
    fun hu => hblocks _ (h.block hu), hok, hv⟩

/-! ## Operations on one structure -/

/-- **The tree and the VMAs change**: nothing is written but the root variable and live objects. -/
theorem Space.edit (h : Space A V pml4 s t live T) (hq : Quiet s s')
    (hmem : ∀ a f, s'.mem a f ≠ s.mem a f → (a = V.kernelRbRoot ∧ f = .ptr) ∨ InObject live a)
    (htree : IsTree L V.kernelRbRoot (startOrder s'.mem) s'.mem t')
    (hnodes : ∀ x ∈ t'.toList, ∃ o ∈ live, x = o + vmaNode) :
    Space A V pml4 s' t' live T := by
  obtain ⟨g, lists, chain, hg, hc, hown⟩ := h.cache
  have hview : View s'.physMapOffset := hq.offset ▸ h.view
  have hok : A.Ok s' := by
    refine A.ok_frame h.tables.ok hview hq.free hq.blocks (fun a f hne hman => ?_)
    rcases hmem a f hne with ⟨rfl, -⟩ | ha
    · exact absurd hman h.placed.root_unmanaged
    · obtain ⟨b, hb, -, hin⟩ := h.object_block ha
      exact ⟨b, hb, hin⟩
  refine ⟨h.placed, ?_, ⟨g, lists, chain, hg, ?_, hown⟩, htree, hnodes, ?_, h.full⟩
  · rw [← h.pml4_eq]
    by_contra hne
    rcases hmem _ _ hne with ⟨he, -⟩ | ha
    · exact h.placed.ne he
    · exact h.ne_object ha h.placed.pml4 rfl
  · refine hc.others hok hview (hq.free _ hc.lock) (fun k d hd => hq.blocks ▸ hc.block k d hd) ?_ ?_
    · intro a f h1 h2
      by_contra hne
      rcases hmem a f hne with ⟨rfl, -⟩ | ha
      · exact h.placed.root_apart ⟨h1, h2⟩
      · have himg := hc.mem.image (a - V.vmaCache) (by omega)
        rw [show V.vmaCache + (a - V.vmaCache) = a by omega] at himg
        exact h.ne_object ha himg rfl
    · intro a f hne k d hd h1 h2
      rcases hmem a f hne with ⟨rfl, -⟩ | ha
      · exact absurd rfl (Slab.image_ne_phys h.placed.root (hc.mem.phys k d hd _ h1 h2))
      · rw [hg]
        exact ha
  · refine tables_others h.tables hok hview (fun b hb => hq.blocks ▸ hb) (fun hu i hi => ?_)
    by_contra hne
    rcases hmem _ _ hne with ⟨he, -⟩ | ha
    · exact Slab.image_ne_phys h.placed.root (h.table_phys hu hi) he.symm
    · exact h.table_not_object hu hi ha

/-- Only locks change, and neither the allocator's nor the cache's. -/
theorem Space.relock (h : Space A V pml4 s t live T) (hmem : s'.mem = s.mem)
    (hblocks : s'.blocks = s.blocks) (hoff : s'.physMapOffset = s.physMapOffset)
    (hbuddy : s'.lock .buddyLock = s.lock .buddyLock)
    (hslab : s'.lock .slabLock = s.lock .slabLock) :
    Space A V pml4 s' t live T := by
  obtain ⟨g, lists, chain, hg, hc, hown⟩ := h.cache
  have hok : A.Ok s' := A.ok_locks h.tables.ok hmem hblocks hoff hbuddy
  have hview : View s'.physMapOffset := hoff ▸ h.view
  refine ⟨h.placed, hmem ▸ h.pml4_eq, ⟨g, lists, chain, hg, ?_, hown⟩, hmem ▸ h.tree,
    h.nodes, ?_, h.full⟩
  · refine hc.others hok hview (hslab ▸ hc.lock) (fun k d hd => hblocks ▸ hc.block k d hd) ?_ ?_
    · exact fun a f _ _ => by rw [hmem]
    · exact fun a f hne => absurd (by rw [hmem]) hne
  · exact tables_others h.tables hok hview (fun b hb => hblocks ▸ hb) (fun _ _ _ => by rw [hmem])

/-- Changing page tables changes no object. -/
theorem Space.objects_kept (h : Space A V pml4 s t live T) (hf : Mmu.Frame A.toPhysAlloc T T' s s')
    {a : Nat} (f : Field) (ha : InObject live a) : s'.mem a f = s.mem a f := by
  obtain ⟨b, hb, ho, hin⟩ := h.object_block ha
  by_contra hne
  exact (hf.mem a f hne).2 b hb ho hin

/-- **The page tables change.** -/
theorem Space.retable (h : Space A V pml4 s t live T) (hinv : Mmu.Inv A.toPhysAlloc pml4 s' T')
    (hfull : Mmu.Full T') (hf : Mmu.Frame A.toPhysAlloc T T' s s') :
    Space A V pml4 s' t live T' := by
  obtain ⟨g, lists, chain, hg, hc, hown⟩ := h.cache
  have hout : ∀ a f, ¬ A.managed a → s'.mem a f = s.mem a f := by
    intro a f ha
    by_contra hne
    exact ha (hf.mem a f hne).1
  have hforeign : ∀ i, ∀ d ∈ lists i, (⟨d, g.bytes⟩ : Block) ∈ s'.blocks ∧
      ¬ Mmu.Owns T' ⟨d, g.bytes⟩ :=
    fun i d hd => (hf.foreign _).mpr ⟨hc.block i d hd, hown i d hd⟩
  refine ⟨h.placed, (hout _ _ h.placed.pml4_unmanaged).trans h.pml4_eq,
    ⟨g, lists, chain, hg, ?_, fun i d hd => (hforeign i d hd).2⟩, ?_, h.nodes, hinv, hfull⟩
  · refine hc.others hinv.ok hinv.view (hf.free _ hc.lock) (fun i d hd => (hforeign i d hd).1) ?_ ?_
    · exact fun a f h1 h2 => hout a f (hc.unmanaged a h1 h2)
    · intro a f hne k d hd h1 h2
      exact absurd ⟨h1, h2⟩ ((hf.mem a f hne).2 _ (hc.block k d hd) (hown k d hd))
  · exact h.tree_kept (hout _ _ h.placed.root_unmanaged) (fun a f ha => h.objects_kept hf f ha)

/-- What a call of the slab allocator leaves alone. -/
theorem Space.call_kept {g : Slab.Geometry} {lists : Slab.SlabList → List Nat}
    {chain : Nat → List Nat} {kept : List Nat} (h : Space A V pml4 s t live T)
    (hg : g.size = vmaSize) (hc : Slab.CacheInv A.toPageSource g V.vmaCache s lists chain live)
    (hown : ∀ i, ∀ d ∈ lists i, ¬ Mmu.Owns T ⟨d, g.bytes⟩)
    (hf : Slab.CallFrame A.toPageSource g V.vmaCache lists kept s s')
    (hkept : ∀ o ∈ kept, o ∈ live) :
    (∀ a f, L.image a = true → ¬ A.managed a →
      ¬ (V.vmaCache ≤ a ∧ a < V.vmaCache + cacheSize) → s'.mem a f = s.mem a f) ∧
    (∀ a f, InObject kept a → s'.mem a f = s.mem a f) ∧
    (∀ {l K u : Nat}, T.dir l K = some u → ∀ i, i < 512 →
      s'.mem (entryAddr u i) .pte = s.mem (entryAddr u i) .pte) := by
  refine ⟨fun a f himg hman hcache => ?_, fun a f ha => ?_, fun {l K u} hu i hi => ?_⟩ <;>
    by_contra hne
  · rcases hf.mem a f hne with hin | ⟨hm, -⟩ | ⟨⟨k, d, hd, h1, h2⟩, -⟩
    · exact hcache hin
    · exact hman hm
    · exact Slab.image_ne_phys himg (hc.mem.phys k d hd a h1 h2) rfl
  · obtain ⟨o, ho, h1, h2⟩ := ha
    have hin : InObject live a := ⟨o, hkept o ho, h1, h2⟩
    rcases hf.mem a f hne with ⟨h3, h4⟩ | ⟨-, hblocks⟩ | ⟨-, hobj⟩
    · have himg := hc.mem.image (a - V.vmaCache) (by omega)
      rw [show V.vmaCache + (a - V.vmaCache) = a by omega] at himg
      exact h.ne_object hin himg rfl
    · obtain ⟨b, hb, -, hbin⟩ := h.object_block hin
      exact hblocks ⟨b, hb, hbin⟩
    · exact hobj o ho ⟨h1, by rw [hg]; exact h2⟩
  · have hphys := h.table_phys hu hi
    rcases hf.mem _ _ hne with ⟨h3, h4⟩ | ⟨-, hblocks⟩ | ⟨⟨k, d, hd, h1, h2⟩, -⟩
    · have himg := hc.mem.image (entryAddr u i - V.vmaCache) (by omega)
      rw [show V.vmaCache + (entryAddr u i - V.vmaCache) = entryAddr u i by omega] at himg
      exact Slab.image_ne_phys himg hphys rfl
    · refine hblocks ⟨_, h.tables.block hu, ?_⟩
      unfold entryAddr pageSize
      simp only
      omega
    · exact h.table_apart (hc.block k d hd) (hown k d hd) hu hi ⟨h1, h2⟩

/-- **A VMA is allocated**, or the page allocator had no block for it. -/
theorem Space.kalloc (h : Space A V pml4 s t live T) :
    ∃ p s', kmemCacheKalloc A.kmalloc V.vmaCache L s = .ok (p, s') ∧
      (∀ id, (s.lock id).Free → (s'.lock id).Free) ∧ (p ≠ 0 → p ∉ live) ∧
      (∀ a f, InObject live a → s'.mem a f = s.mem a f) ∧
      (p = 0 → ReturnedNull L A.kmalloc (fun kmalloc => kmemCacheKalloc kmalloc V.vmaCache) s) ∧
      Space A V pml4 s' t (if p = 0 then live else p :: live) T := by
  obtain ⟨g, lists, chain, hg, hc, hown⟩ := h.cache
  obtain ⟨p, s', lists', chain', fresh, hrun, hc', hf, hblocks, -, -, hslabs, hnull⟩ :=
    Slab.kmemCacheKalloc_returns hc
  obtain ⟨himg, hobj, htab⟩ := h.call_kept hg hc hown hf (fun _ ho => ho)
  have hsub : ∀ b ∈ s.blocks, b ∈ s'.blocks := by
    intro b hb
    rw [hblocks]
    exact List.mem_append_right _ hb
  refine ⟨p, s', hrun, hf.free, fun h0 hp => ?_, hobj, hnull, h.placed, ?_,
    ⟨g, lists', chain', hg, hc', ?_⟩, ?_, ?_, ?_, h.full⟩
  · have hnd := hc'.mem.live_nodup
    rw [if_neg h0] at hnd
    exact (List.nodup_cons.mp hnd).1 hp
  · rw [himg _ _ h.placed.pml4 h.placed.pml4_unmanaged h.placed.pml4_apart, h.pml4_eq]
  · -- a fresh block is no table: the tables are blocks of before
    intro i d hd howns
    rcases (hslabs d).mp ⟨i, hd⟩ with hfresh | ⟨k, hk⟩
    · obtain ⟨l, K, hu, hlen⟩ := howns
      simp only at hu hlen
      have hold := h.tables.block hu
      have hap := A.ok_apart hc'.ok
      rw [hblocks] at hap
      have := (List.pairwise_append.mp hap).2.2 _ (List.mem_map.mpr ⟨d, hfresh, rfl⟩) _ hold
      have hpos := g.bytes_pos
      simp only [Block.Apart, pageSize] at this
      omega
    · exact hown k d hk howns
  · exact h.tree_kept (himg _ _ h.placed.root h.placed.root_unmanaged h.placed.root_apart) hobj
  · intro x hx
    obtain ⟨o, ho, he⟩ := h.nodes x hx
    refine ⟨o, ?_, he⟩
    split
    · exact ho
    · exact List.mem_cons_of_mem _ ho
  · exact tables_others h.tables hc'.ok hc'.view hsub htab

/-- **A VMA that is not in the tree is freed.** -/
theorem Space.kfree (h : Space A V pml4 s t live T) {o : Nat} (ho : o ∈ live)
    (hot : o + vmaNode ∉ t.toList) :
    ∃ s', kmemCacheKfree V.vmaCache o L s = .ok ((), s') ∧
      (∀ id, id ≠ .slabLock → s'.lock id = s.lock id) ∧
      (∀ a f, InObject (live.erase o) a → s'.mem a f = s.mem a f) ∧
      Space A V pml4 s' t (live.erase o) T := by
  obtain ⟨g, lists, chain, hg, hc, hown⟩ := h.cache
  obtain ⟨s', lists', chain', hrun, hc', hf, hblocks, hslabs⟩ := Slab.kmemCacheKfree_returns hc ho
  obtain ⟨himg, hobj, htab⟩ := h.call_kept hg hc hown hf (fun _ => List.mem_of_mem_erase)
  have hnodes : ∀ x ∈ t.toList, ∃ q ∈ live.erase o, x = q + vmaNode := by
    intro x hx
    obtain ⟨q, hq, rfl⟩ := h.nodes x hx
    refine ⟨q, (List.mem_erase_of_ne ?_).mpr hq, rfl⟩
    rintro rfl
    exact hot hx
  refine ⟨s', hrun, ?_, hobj, h.placed, ?_, ⟨g, lists', chain', hg, hc', ?_⟩, ?_,
    hnodes, ?_, h.full⟩
  · intro id hid
    obtain ⟨s₁, -, hx, rfl⟩ := locked_ok hrun
    have hplain := Plain.result hx
    rw [hplain]
    simp [KState.released, KState.acquired, Function.update_of_ne hid]
  · rw [himg _ _ h.placed.pml4 h.placed.pml4_unmanaged h.placed.pml4_apart, h.pml4_eq]
  · intro i d hd
    obtain ⟨k, hk⟩ := (hslabs d).mp ⟨i, hd⟩
    exact hown k d hk
  · refine isTree_congr h.tree
      (himg _ _ h.placed.root h.placed.root_unmanaged h.placed.root_apart) (fun x hx f _ => ?_)
      (fun x hx => ?_)
    · obtain ⟨q, hq, rfl⟩ := hnodes x hx
      exact hobj _ f ⟨q, hq, by unfold vmaNode; omega, by unfold vmaNode vmaSize; omega⟩
    · obtain ⟨q, hq, rfl⟩ := hnodes x hx
      rw [vmaOf_node]
      exact hobj _ _ ⟨q, hq, Nat.le_refl _, by unfold vmaSize; omega⟩
  · exact tables_others h.tables hc'.ok hc'.view (fun b hb => hblocks ▸ hb) htab

end Vm
end MikroKernel
