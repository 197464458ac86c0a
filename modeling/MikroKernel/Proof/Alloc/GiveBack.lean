import MikroKernel.Proof.Alloc.Locks
import MikroKernel.Proof.Buddy.Steps
import MikroKernel.Proof.Slab.Create
import MikroKernel.Proof.Slab.Grow

/-!
# An allocation given back at once

`phys_kmalloc` and `phys_kfree` each work out the allocator, the cache and the order from the size
and the flag. For the two to undo each other they have to come to the same result, and both have to
accept the request. They do, but for one request: `buddy_kalloc` takes a size of 0 for a page and
`buddy_kfree` returns at once (`kmalloc_kfree_iff`).

A slab request may make its cache grow. The pages then stay with the cache, so it is the free pages
and the pages of the new slab together that are as before.
-/

set_option autoImplicit false
set_option synthInstance.maxSize 1000

namespace MikroKernel
namespace GiveBack

open Buddy hiding Lists
open Tiling

variable {α β : Type} {L : Layout} {m m' : Mem} {s s₁ : KState} {base size np : Nat} {h : Heap}

/-! ## What the buddy allocator leaves to the slabs -/

/-- Code that stores into no field of the slab allocator. -/
abbrev SparesSlab (x : K α) : Prop := Spares Slab.slabField x

instance (v x : Nat) : SparesSlab (store v .ptr x) := Spares.store rfl

instance (v x : Nat) : SparesSlab (store v .byte x) := Spares.store rfl

instance (p x : Nat) : SparesSlab (p2vStore p .chunkNext x) := Spares.p2vStore rfl

instance (p x : Nat) : SparesSlab (p2vStore p .chunkPrev x) := Spares.p2vStore rfl

instance : SparesSlab kernelEnd :=
  Spares.of_same (fun hrun => (Prod.mk.inj (Except.ok.inj hrun)).2.symm)

instance (size : Nat) : SparesSlab (selectOrder size) := by
  unfold selectOrder
  cases orderLoop size 64 0 with
  | some order => infer_instance
  | none => exact ⟨fun hrun => absurd hrun (by simp)⟩

instance (bitmap byteIdx bitOffset : Nat) :
    SparesSlab (toggleSection bitmap byteIdx bitOffset) := by
  unfold toggleSection
  infer_instance

instance (addr order : Nat) : SparesSlab (toggleBitmap addr order) := by
  unfold toggleBitmap
  infer_instance

instance (freeLists chunk level : Nat) : SparesSlab (splitStep freeLists chunk level) := by
  unfold splitStep
  dsimp only
  infer_instance

instance (freeLists chunk order level : Nat) :
    SparesSlab (splitLoop freeLists chunk order level) := by
  induction level with
  | zero => exact Spares.pure ()
  | succ level ih =>
    unfold splitLoop
    infer_instance

instance (idx order : Nat) : SparesSlab (popSection idx order) := by
  unfold popSection
  dsimp only
  infer_instance

instance (order n idx : Nat) : SparesSlab (kallocLoop order n idx) := by
  induction n generalizing idx with
  | zero => exact Spares.pure 0
  | succ n ih =>
    unfold kallocLoop
    infer_instance

instance (size : Nat) : SparesSlab (buddyKalloc size) := by
  unfold buddyKalloc
  infer_instance

section Cache

variable {g : Slab.Geometry} {cache : Nat} {lists : Slab.SlabList → List Nat}
    {chain : Nat → List Nat}
  {live : List Nat}

/-- A cache is in the fields of the slab allocator. -/
theorem cacheMem_spared (hc : Slab.CacheMem L m g cache lists chain live)
    (hm : ∀ a f, Slab.slabField f = true → m' a f = m a f) :
    Slab.CacheMem L m' g cache lists chain live := by
  refine ⟨hc.image, ?_, ?_, ?_, ?_, ?_, hc.phys, hc.aligned, ?_, hc.fits, hc.live_iff,
    hc.live_nodup⟩
  · rw [hm _ _ rfl]; exact hc.objectSize
  · rw [hm _ _ rfl]; exact hc.objectAlign
  · rw [hm _ _ rfl]; exact hc.slabOrder
  · rw [hm _ _ rfl]; exact hc.objectsPerSlab
  · exact hc.lists_ok.congr (fun k a _ f hf => hm a f (by rcases hf with rfl | rfl <;> rfl))
  · intro i d hd
    have hs := hc.slab i d hd
    refine ⟨?_, hs.thread.congr (fun o _ => hm o _ rfl), ?_, hs.nodup, hs.slots⟩
    · rw [hm _ _ rfl]; exact hs.head
    · rw [hm _ _ rfl]; exact hs.inuse

/-- The free lists and the bitmap are in the other fields. -/
theorem rep_spared (hr : Rep L m base np h)
    (hm : ∀ a f, Slab.slabField f = false → m' a f = m a f) :
    Rep L m' base np h := by
  refine ⟨?_, ?_, ?_, ?_, fun k hk => ?_, fun k hk => ?_, fun p hp => ?_⟩
  · rw [hm _ _ rfl]; exact hr.freeListsPtr
  · rw [hm _ _ rfl]; exact hr.bitmapPtr
  · rw [hm _ _ rfl]; exact hr.baseAddress
  · rw [hm _ _ rfl]; exact hr.maxOrder
  · rw [hm _ _ rfl]; exact hr.offsets k hk
  · obtain ⟨hhead, hlink⟩ := hr.lists k hk
    exact ⟨by rw [hm _ _ rfl]; exact hhead,
      hlink.congr (fun a _ => hm a _ rfl) (fun a _ => hm a _ rfl)⟩
  · unfold bitOf
    rw [hm _ _ rfl]
    exact hr.bits p hp

theorem stores_spares {d : Nat} {ls : List Nat} (hs : Slab.Stores cache lists d ls m m')
    (a : Nat) (f : Field) (hf : Slab.slabField f = false) : m' a f = m a f := by
  by_contra hne
  rcases hs a f hne with ⟨-, rfl | rfl | rfl⟩ | ⟨rfl | rfl, -⟩ | ⟨rfl, -⟩
    <;> exact absurd hf (by decide)

/-! ## A request of a cache -/

/-- Address `a` is in a slab that the cache has in `lists'` and did not have in `lists`. -/
def Grown (g : Slab.Geometry) (lists lists' : Slab.SlabList → List Nat) (a : Nat) : Prop :=
  ∃ d, (∃ k, d ∈ lists' k) ∧ (∀ k, d ∉ lists k) ∧ d ≤ a ∧ a < d + g.bytes

theorem not_grown {lists' : Slab.SlabList → List Nat}
    (hsame : ∀ e, (∃ k, e ∈ lists' k) ↔ ∃ k, e ∈ lists k) (a : Nat) : ¬ Grown g lists lists' a := by
  rintro ⟨d, hd, hnot, -⟩
  obtain ⟨k, hk⟩ := (hsame d).mp hd
  exact hnot k hk

/-- The two allocators, with a cache whose slabs are not on the free lists. -/
structure CacheState (L : Layout) (base np : Nat) (s : KState) (h : Heap) (g : Slab.Geometry)
    (cache : Nat) (lists : Slab.SlabList → List Nat) (chain : Nat → List Nat) (live : List Nat) :
    Prop where
  buddy : Buddy.Lists L base np s h
  lock : (s.lock .slabLock).Free
  cache : Slab.CacheMem L s.mem g cache lists chain live
  apart : ∀ k, ∀ d ∈ lists k, ∀ a, d ≤ a → a < d + g.bytes → ¬ FreeAt h.free a

/-- What the allocation has done to the free pages and the cache. -/
structure Served (L : Layout) (base np : Nat) (h : Heap) (g : Slab.Geometry) (cache : Nat)
    (lists : Slab.SlabList → List Nat) (live : List Nat) (p : Nat) (s' : KState) (h' : Heap)
    (lists' : Slab.SlabList → List Nat) (chain' : Nat → List Nat) : Prop where
  buddy : Buddy.Lists L base np s' h'
  lock : (s'.lock .slabLock).Free
  cache : Slab.CacheMem L s'.mem g cache lists' chain' (p :: live)
  pages : ∀ a, FreeAt h'.free a ∨ Grown g lists lists' a ↔ FreeAt h.free a

/-- A slab is as long as a block of its order. -/
theorem bytes_eq (g : Slab.Geometry) : g.bytes = chunkBytes g.order := Nat.mul_comm _ _

/-- A pop leaves the free pages alone. -/
theorem served_of_popped {s' : KState} {d o : Nat} {lists' : Slab.SlabList → List Nat}
    {chain' : Nat → List Nat} (hb : Buddy.Lists L base np s h) (hlock : (s.lock .slabLock).Free)
    (hpop : Slab.Popped L g cache lists chain live s.mem d o s'.mem lists' chain')
    (hq : Quiet s s') :
    Buddy.Lists L base np s' h ∧ (s'.lock .slabLock).Free ∧
      Slab.CacheMem L s'.mem g cache lists' chain' (o :: live) :=
  ⟨⟨hb.ready.quiet hq, rep_spared hb.rep (stores_spares hpop.stores), hb.packed⟩,
    hq.free _ hlock, hpop.mem⟩

/-- **`kmem_cache_kalloc` on the buddy allocator.** When it returns an object, the pages that are
free no more are those of the slab the cache has grown by. -/
theorem kmemCacheKalloc_served {p : Nat} (hc : CacheState L base np s h g cache lists chain live)
    (hrun : kmemCacheKalloc buddyKalloc cache L s = .ok (p, s₁)) (hp : p ≠ 0) :
    ∃ h' lists' chain', Served L base np h g cache lists live p s₁ h' lists' chain' := by
  have hview := hc.buddy.ready.view
  cases hcand : Slab.candidates lists with
  | cons d ds =>
    obtain ⟨o, m', lists', chain', hedit, hpop⟩ := Slab.firstSection_some hview hc.cache hcand
    obtain ⟨s', hsec, rfl, hq⟩ := Edits.locked hc.lock hedit
    have heq : kmemCacheKalloc buddyKalloc cache L s = .ok (o, s') := by
      unfold kmemCacheKalloc
      rw [K.bind_ok hsec]
      rfl
    obtain ⟨rfl, rfl⟩ := Prod.mk.inj (Except.ok.inj (heq.symm.trans hrun))
    obtain ⟨hb, hl, hcm⟩ := served_of_popped hc.buddy hc.lock hpop hq
    exact ⟨h, lists', chain', hb, hl, hcm, fun a => or_iff_left (not_grown hpop.slabs a)⟩
  | nil =>
    obtain ⟨s₂, hsec, hmem, hq⟩ := Edits.locked hc.lock (Slab.firstSection_none hc.cache hcand)
    have hb₂ : Buddy.Lists L base np s₂ h := ⟨hc.buddy.ready.quiet hq, hmem ▸ hc.buddy.rep,
      hc.buddy.packed⟩
    have hcm₂ : Slab.CacheMem L s₂.mem g cache lists chain live := hmem ▸ hc.cache
    have hl₂ := hq.free _ hc.lock
    have hten : chunkBytes g.order ≤ chunkBytes 10 := chunkBytes_le g.order_le
    have horder : Buddy.orderOf (chunkBytes g.order) = g.order := orderOf_chunkBytes g.order_le
    have hgrow : ∀ {c s₃}, buddyKalloc (chunkBytes g.order) L s₂ = .ok (c, s₃) →
        kmemCacheGrow buddyKalloc cache L s₂
          = (if c = 0 then pure .error else Slab.growTail cache c : K Status) L s₃ := by
      intro c s₃ hk
      have hload : load cache .slabOrder L s₂ = .ok (g.order, s₂) := by
        rw [load_image hcm₂.image_self, hcm₂.slabOrder]
      exact (K.bind_ok hload).trans (K.bind_ok hk)
    have hstart : kmemCacheKalloc buddyKalloc cache L s = (do
        let status ← kmemCacheGrow buddyKalloc cache
        locked .slabLock (secondSection cache status) : K Nat) L s₂ := by
      unfold kmemCacheKalloc
      rw [K.bind_ok hsec]
    by_cases hnone : ∀ j, g.order ≤ j → j ≤ 10 → h.free j = []
    · -- no block, no object
      obtain ⟨s₃, hk, -, hq₃⟩ := buddyKalloc_none hb₂.ready hb₂.rep hten (by rwa [horder])
      obtain ⟨s₄, hsec₄, -, -⟩ := Edits.locked (s := s₃) (hq₃.free _ hl₂)
        (Slab.secondSection_error (L := L) cache)
      have hfail := (K.bind_ok (f := fun status => locked .slabLock (secondSection cache status))
        ((hgrow hk).trans (by rw [if_pos rfl]; rfl))).trans hsec₄
      exact absurd (Prod.mk.inj (Except.ok.inj ((hstart.trans hfail).symm.trans hrun))).1.symm hp
    · push Not at hnone
      obtain ⟨j, hj1, hj2, hne⟩ := hnone
      obtain ⟨c, s₃, h₃, hk, htakes⟩ := buddyKalloc_takes hb₂ hten ⟨j, by rwa [horder], hj2, hne⟩
      rw [horder] at htakes
      have hq₃ := Calm.result hk
      have hcm₃ := cacheMem_spared hcm₂ (Spares.spares hk)
      have hfree : ∀ a, c ≤ a → a < c + g.bytes → FreeAt h.free a := by
        intro a h1 h2
        rw [bytes_eq] at h2
        obtain ⟨i, b, -, hi, hb, h3, h4⟩ := htakes.part
        exact freeAt_of_mem hi hb (by omega) (by omega)
      have hfresh : ∀ i, c ∉ lists i := fun i hi =>
        hc.apart i c hi c (Nat.le_refl c) (Nat.lt_add_of_pos_right g.bytes_pos)
          (hfree c (Nat.le_refl c) (Nat.lt_add_of_pos_right g.bytes_pos))
      -- the block becomes a slab, and the second section pops from it
      obtain ⟨m₄, hedit₄, hcm₄, hstores₄⟩ := Slab.growTail_edits
        (p := c) htakes.lists.ready.view hcm₃
        (fun a h1 h2 => (hc.buddy.packed.freeAt_usable (hfree a h1 h2)).2)
          (bytes_eq g ▸ htakes.aligned) hfresh
      obtain ⟨o, m₅, lists', chain', hedit₅, hpop⟩ :=
        Slab.secondSection_ok htakes.lists.ready.view hcm₄
        (Function.update_self _ _ _)
      obtain ⟨s₅, hsec₅, rfl, hq₅⟩ := Edits.locked (s := { s₃ with mem := m₄ })
        (hq₃.free _ hl₂) hedit₅
      have heq : kmemCacheKalloc buddyKalloc cache L s = .ok (o, s₅) := by
        refine hstart.trans ((K.bind_ok ((hgrow hk).trans ?_)).trans hsec₅)
        rw [if_neg htakes.ne_zero]
        exact hedit₄ s₃ rfl rfl
      obtain ⟨rfl, rfl⟩ := Prod.mk.inj (Except.ok.inj (heq.symm.trans hrun))
      have hb₄ : Buddy.Lists L base np { s₃ with mem := m₄ } h₃ :=
        ⟨htakes.lists.ready.quiet (Quiet.setMem s₃ m₄),
          rep_spared htakes.lists.rep (stores_spares hstores₄), htakes.lists.packed⟩
      obtain ⟨hb, hl, hcm⟩ := served_of_popped hb₄ (hq₃.free _ hl₂) hpop hq₅
      refine ⟨h₃, lists', chain', hb, hl, hcm, fun a => ?_⟩
      have hgrown : Grown g lists lists' a ↔ c ≤ a ∧ a < c + chunkBytes g.order := by
        rw [← bytes_eq]
        constructor
        · rintro ⟨d, hd, hnot, h1, h2⟩
          obtain ⟨k, hd⟩ := (hpop.slabs d).mp hd
          rcases (Slab.mem_added hfresh k d).mp hd with ⟨rfl, -⟩ | ⟨-, hd⟩
          · exact ⟨h1, h2⟩
          · exact absurd hd (hnot k)
        · rintro ⟨h1, h2⟩
          exact ⟨c, (hpop.slabs c).mpr ⟨.freeSlabs, by rw [Function.update_self]; simp⟩,
            hfresh, h1, h2⟩
      rw [hgrown, htakes.exact]
      constructor
      · rintro (⟨hf, -⟩ | ⟨h1, h2⟩)
        · exact hf
        · exact hfree a h1 (by rwa [bytes_eq])
      · intro hf
        by_cases hin : c ≤ a ∧ a < c + chunkBytes g.order
        · exact Or.inr hin
        · exact Or.inl ⟨hf, hin⟩

/-- **`kmem_cache_kfree` of the object** puts it back and leaves the free pages as they are. -/
theorem kmemCacheKfree_served {p : Nat} {h' : Heap} {lists' : Slab.SlabList → List Nat}
    {chain' : Nat → List Nat} (hs : Served L base np h g cache lists live p s₁ h' lists' chain') :
    ∃ s₂ lists'' chain'', kmemCacheKfree cache p L s₁ = .ok ((), s₂) ∧ Buddy.Lists L base np s₂ h' ∧
      Slab.CacheMem L s₂.mem g cache lists'' chain'' live ∧ (∃ k, ∃ d ∈ lists'' k, p ∈ chain'' d) ∧
      ∀ a, FreeAt h'.free a ∨ Grown g lists lists'' a ↔ FreeAt h.free a := by
  have hp : p ∈ p :: live := List.mem_cons_self
  obtain ⟨m', lists'', i, d, hd, -, hedit, hcm, hstores, hiff⟩ :=
    Slab.freeSection_edits hs.buddy.ready.view hs.cache hp
  obtain ⟨s₂, hrun, rfl, hq⟩ := Edits.locked hs.lock hedit
  rw [List.erase_cons_head] at hcm
  have hslabs : ∀ e, (∃ k, e ∈ lists'' k) ↔ ∃ k, e ∈ lists' k := by
    intro e
    constructor
    · rintro ⟨k, he⟩
      rcases (hiff k e).mp he with ⟨rfl, -⟩ | ⟨-, he⟩
      · exact ⟨i, hd⟩
      · exact ⟨k, he⟩
    · rintro ⟨k, he⟩
      by_cases hed : e = d
      · exact ⟨_, (hiff _ e).mpr (Or.inl ⟨hed, rfl⟩)⟩
      · exact ⟨k, (hiff k e).mpr (Or.inr ⟨hed, he⟩)⟩
  refine ⟨s₂, lists'', _, hrun,
    ⟨hs.buddy.ready.quiet hq, rep_spared hs.buddy.rep (stores_spares hstores), hs.buddy.packed⟩,
    hcm, ?_, fun a => ?_⟩
  · obtain ⟨k, hk⟩ := (hslabs d).mpr ⟨i, hd⟩
    exact ⟨k, d, hk, by rw [Function.update_self]; exact List.mem_cons_self⟩
  · rw [← hs.pages a]
    unfold Grown
    simp only [hslabs]

end Cache

/-! ## A direct request -/

/-- One memory, one set of free pages. -/
theorem freeAt_unique {h' : Heap} (hl : Buddy.Lists L base np s h)
    (hl' : Buddy.Lists L base np s h') (a : Nat) :
    FreeAt h.free a ↔ FreeAt h'.free a := by
  have hsame : ∀ k, k ≤ 10 → h.free k = h'.free k := fun k hk =>
    (hl.rep.lists k hk).unique (hl'.rep.lists k hk)
  unfold FreeAt Reach
  simp only [mem_freeChunks]
  constructor
  · rintro ⟨c, ⟨hk, hc⟩, hin⟩
    exact ⟨c, ⟨hk, hsame _ hk ▸ hc⟩, hin⟩
  · rintro ⟨c, ⟨hk, hc⟩, hin⟩
    exact ⟨c, ⟨hk, (hsame _ hk).symm ▸ hc⟩, hin⟩

/-- **A block of its own order goes out and comes back.** The allocation finds the bit of its pair
set, and so does the free after it: it merges nothing. -/
theorem buddy_restored {sz p : Nat} (hm : Managed L base size)
    (hl : Buddy.Lists L base (size / pageSize) s h)
    (hin : Packed (fun p => base ≤ p ∧ p < base + size) h.free 0) (hb : BitInv base size h)
    (h0 : sz ≠ 0) (hrun : buddyKalloc sz L s = .ok (p, s₁)) (hp : p ≠ 0)
    (hown : h.free (Buddy.orderOf sz) ≠ []) :
    ∃ s₂ h₂, buddyKfree p sz L s₁ = .ok ((), s₂) ∧ Buddy.Lists L base (size / pageSize) s₂ h₂ ∧
      ∀ a, FreeAt h₂.free a ↔ FreeAt h.free a := by
  have hsz := buddyKalloc_le hl.rep hrun hp
  obtain ⟨-, h10, -⟩ := orderOf_spec hsz
  obtain ⟨c, rest, hlist⟩ := List.exists_cons_of_ne_nil hown
  obtain ⟨m', ⟨s', hrun', hmem, hq⟩, hrep⟩ := buddyKalloc_returns hl.ready hsz hl.rep hl.packed
  have halloc :
    Heap.alloc (pairPos base (size / pageSize)) (Buddy.orderOf sz) (11 - Buddy.orderOf sz)
      (Buddy.orderOf sz) h = (c, (h.drop (Buddy.orderOf sz) c).flip
        (pairPos base (size / pageSize) c (Buddy.orderOf sz))) := by
    obtain ⟨n, hn⟩ : ∃ n, 11 - Buddy.orderOf sz = n + 1 := ⟨10 - Buddy.orderOf sz, by omega⟩
    rw [hn]
    unfold Heap.alloc
    simp only [hlist]
    rw [Heap.split_self]
  rw [halloc] at hrun' hrep
  obtain ⟨rfl, rfl⟩ := Prod.mk.inj (Except.ok.inj (hrun'.symm.trans hrun))
  have hc : c ∈ h.free (Buddy.orderOf sz) := by rw [hlist]; exact List.mem_cons_self
  have hmemc : (⟨c, Buddy.orderOf sz⟩ : Chunk) ∈ freeChunks h.free + 0 :=
    Multiset.mem_add.mpr (Or.inl (mem_freeChunks.mpr ⟨h10, hc⟩))
  have hpos := chunkBytes_pos (Buddy.orderOf sz)
  have hlast := hin.packs.inside _ hmemc (c + chunkBytes (Buddy.orderOf sz) - 1)
    ⟨show c ≤ _ by omega, show _ < c + chunkBytes (Buddy.orderOf sz) by omega⟩
  have hfirst := hin.packs.inside _ hmemc c ⟨Nat.le_refl c, Nat.lt_add_of_pos_right hpos⟩
  have htake : Packed (Usable L) ((h.drop (Buddy.orderOf sz) c).flip
      (pairPos base (size / pageSize) c (Buddy.orderOf sz))).free (⟨c, Buddy.orderOf sz⟩ ::ₘ 0) :=
    hl.packed.take h10 hc
  have hsound : MergeSound (pairPos base (size / pageSize))
      (fun j a => a ∈ ((h.drop (Buddy.orderOf sz) c).flip
        (pairPos base (size / pageSize) c (Buddy.orderOf sz))).free j)
      (10 - Buddy.orderOf sz)
      ((h.drop (Buddy.orderOf sz) c).flip
        (pairPos base (size / pageSize) c (Buddy.orderOf sz))).bit
      c (Buddy.orderOf sz) := by
    rcases Nat.eq_or_lt_of_le h10 with heq | hlt
    · rw [heq]
      trivial
    · obtain ⟨n, hn⟩ : ∃ n, 10 - Buddy.orderOf sz = n + 1 := ⟨9 - Buddy.orderOf sz, by omega⟩
      have hd : chunkBytes (Buddy.orderOf sz) ∣ c := (hin.aligned _ hmemc).2
      obtain ⟨hbit, hboth⟩ := hb.at_block hm hlt hd hfirst.1 (by omega)
      have hset : h.bit (pairPos base (size / pageSize) c (Buddy.orderOf sz)) = true :=
        hbit.mpr (Or.inl ⟨hc, fun hs => hboth ⟨hc, hs⟩⟩)
      rw [hn]
      intro hflip
      simp [Heap.flip, hset] at hflip
  rw [← hmem] at hrep
  obtain ⟨m₂, ⟨s₂, hfree, hmem₂, hq₂⟩, hrep₂⟩ :=
    buddyKfree_returns (hl.ready.quiet hq) h0 hsz hrep htake hsound
  refine ⟨s₂, _, hfree, ⟨(hl.ready.quiet hq).quiet hq₂, hmem₂ ▸ hrep₂, htake.release h10 hsound⟩,
    fun a => ?_⟩
  rw [freeAt_release h10 htake hsound, ← held_drop h10 hc, held_iff, or_comm]
  rfl

/-- `buddy_kalloc` takes a size of 0 for a page, and `buddy_kfree` drops it. -/
theorem zero_lost {p : Nat} (hl : Buddy.Lists L base np s h)
    (hrun : buddyKalloc 0 L s = .ok (p, s₁)) (hp : p ≠ 0) :
    buddyKfree p 0 L s₁ = .ok ((), s₁) ∧
      ∀ h₂, Buddy.Lists L base np s₁ h₂ → FreeAt h.free p ∧ ¬ FreeAt h₂.free p := by
  have hsz : 0 ≤ chunkBytes 10 := Nat.zero_le _
  refine ⟨?_, fun h₂ hl₂ => ?_⟩
  · unfold buddyKfree
    rw [if_pos (Or.inr rfl)]
    rfl
  · by_cases hnone : ∀ j, Buddy.orderOf 0 ≤ j → j ≤ 10 → h.free j = []
    · obtain ⟨s', hrun', -, -⟩ := buddyKalloc_none hl.ready hl.rep hsz hnone
      exact absurd (Prod.mk.inj (Except.ok.inj (hrun'.symm.trans hrun))).1.symm hp
    · push Not at hnone
      obtain ⟨c, s', h', hrun', htakes⟩ := buddyKalloc_takes hl hsz hnone
      obtain ⟨rfl, rfl⟩ := Prod.mk.inj (Except.ok.inj (hrun'.symm.trans hrun))
      have hpos := chunkBytes_pos (Buddy.orderOf 0)
      obtain ⟨j, b, -, hj, hb, h1, h2⟩ := htakes.part
      refine ⟨freeAt_of_mem hj hb h1 (by omega), fun hf => ?_⟩
      have := (htakes.exact c).mp ((freeAt_unique hl₂ htakes.lists c).mp hf)
      exact this.2 ⟨Nat.le_refl c, Nat.lt_add_of_pos_right hpos⟩

/-! ## `phys_kmalloc` and `phys_kfree` -/

/-- The cache a request is for; `none` is a direct request. -/
def cacheIndex (sz : Nat) : AllocFlag → Option Nat
  | .buddyAlloc => none
  | .slabAlloc => some (sizeToIndex sz)
  | .chooseAlloc => if sz ≤ 2048 then some (sizeToIndex sz) else none

variable {slabCaches : Nat} {geo : Nat → Slab.Geometry} {lists : Nat → Slab.SlabList → List Nat}
  {chain : Nat → Nat → List Nat} {live : Nat → List Nat}

/-- A state of the allocators: the managed range is whole blocks of 4MB, the free lists are lists of
blocks of the range, the bits mean what they should, and the eight caches are well formed, with
slabs that are not on the free lists. -/
structure Consistent (L : Layout) (base size slabCaches : Nat) (s : KState) (h : Heap)
    (geo : Nat → Slab.Geometry) (lists : Nat → Slab.SlabList → List Nat)
    (chain : Nat → Nat → List Nat) (live : Nat → List Nat) : Prop where
  managed : Managed L base size
  ready : Ready s
  lock : (s.lock .slabLock).Free
  rep : Rep L s.mem base (size / pageSize) h
  packed : Packed (fun p => base ≤ p ∧ p < base + size) h.free 0
  bits : BitInv base size h
  caches : ∀ i, i < 8 →
    Slab.CacheMem L s.mem (geo i) (slabCache slabCaches i) (lists i) (chain i) (live i)
  apart : ∀ i, i < 8 → ∀ k, ∀ d ∈ lists i k, ∀ a, d ≤ a → a < d + (geo i).bytes → ¬ FreeAt h.free a

theorem Consistent.lists_ok (hc : Consistent L base size slabCaches s h geo lists chain live) :
    Buddy.Lists L base (size / pageSize) s h :=
  ⟨hc.ready, hc.rep, ⟨hc.packed.packs.mono (fun _ => hc.managed.paged.usable), hc.packed.aligned⟩⟩

/-- What `phys_kfree(p, sz, flg)` is to do in the state that the allocation of `p` has left: it
returns, the free pages are again those of before, but for the pages of the slabs the cache has
grown by, and an object is again a free slot of its cache. -/
def Restored (L : Layout) (base size slabCaches : Nat) (h : Heap) (geo : Nat → Slab.Geometry)
    (lists : Nat → Slab.SlabList → List Nat) (live : Nat → List Nat) (sz : Nat)
    (flg : AllocFlag) (p : Nat) (s₁ : KState) : Prop :=
  ∃ s₂ h₂, physKfree slabCaches p sz flg L s₁ = .ok ((), s₂) ∧
    Buddy.Lists L base (size / pageSize) s₂ h₂ ∧
    match cacheIndex sz flg with
    | none => ∀ a, FreeAt h₂.free a ↔ FreeAt h.free a
    | some i => ∃ lists' chain',
        Slab.CacheMem L s₂.mem (geo i) (slabCache slabCaches i) lists' chain' (live i) ∧
        (∃ k, ∃ d ∈ lists' k, p ∈ chain' d) ∧
        ∀ a, FreeAt h₂.free a ∨ Grown (geo i) (lists i) lists' a ↔ FreeAt h.free a

/-- The slab half. -/
theorem slab_restored {sz p : Nat} (hc : Consistent L base size slabCaches s h geo lists chain live)
    (hrun : slabKalloc buddyKalloc slabCaches sz L s = .ok (p, s₁)) (hp : p ≠ 0) :
    ∃ s₂ h₂, slabKfree slabCaches p sz L s₁ = .ok ((), s₂) ∧
      Buddy.Lists L base (size / pageSize) s₂ h₂ ∧
      ∃ lists' chain',
      Slab.CacheMem L s₂.mem (geo (sizeToIndex sz)) (slabCache slabCaches (sizeToIndex sz)) lists'
          chain' (live (sizeToIndex sz)) ∧
        (∃ k, ∃ d ∈ lists' k, p ∈ chain' d) ∧
        ∀ a, FreeAt h₂.free a ∨ Grown (geo (sizeToIndex sz)) (lists (sizeToIndex sz)) lists' a ↔
        FreeAt h.free a := by
  unfold slabKalloc at hrun
  by_cases hbig : sz > 2048
  · rw [if_pos hbig] at hrun
    exact absurd (Prod.mk.inj (Except.ok.inj hrun)).1.symm hp
  by_cases hidx : sizeToIndex sz ≥ 8
  · rw [if_neg hbig, if_pos hidx] at hrun
    exact absurd (Prod.mk.inj (Except.ok.inj hrun)).1.symm hp
  rw [if_neg hbig, if_neg hidx] at hrun
  have hlt : sizeToIndex sz < 8 := by omega
  obtain ⟨h', lists', chain', hserved⟩ := kmemCacheKalloc_served
    ⟨hc.lists_ok, hc.lock, hc.caches _ hlt, hc.apart _ hlt⟩ hrun hp
  obtain ⟨s₂, lists'', chain'', hfree, hl, hcm, hslot, hpages⟩ := kmemCacheKfree_served hserved
  refine ⟨s₂, h', ?_, hl, lists'', chain'', hcm, hslot, hpages⟩
  unfold slabKfree
  rw [if_neg hidx]
  exact hfree

theorem not_restored_zero {p : Nat}
    (hc : Consistent L base size slabCaches s h geo lists chain live)
    (hrun : physKmalloc slabCaches 0 .buddyAlloc L s = .ok (p, s₁)) (hp : p ≠ 0) :
    ¬ Restored L base size slabCaches h geo lists live 0 .buddyAlloc p s₁ := by
  rintro ⟨s₂, h₂, hfree, hl, hpages⟩
  obtain ⟨hsame, hlost⟩ := zero_lost hc.lists_ok hrun hp
  obtain ⟨-, rfl⟩ := Prod.mk.inj (Except.ok.inj (hsame.symm.trans hfree))
  obtain ⟨h1, h2⟩ := hlost h₂ hl
  exact h2 ((hpages p).mpr h1)

/-- **Which allocations can be given back**: all but a direct one of size 0. -/
theorem kmalloc_kfree_iff {sz p : Nat} {flg : AllocFlag}
    (hc : Consistent L base size slabCaches s h geo lists chain live)
    (hrun : physKmalloc slabCaches sz flg L s = .ok (p, s₁)) (hp : p ≠ 0)
    (hown : cacheIndex sz flg = none → h.free (Buddy.orderOf sz) ≠ []) :
    Restored L base size slabCaches h geo lists live sz flg p s₁ ↔
        ¬ (flg = .buddyAlloc ∧ sz = 0) := by
  cases flg with
  | buddyAlloc =>
    by_cases h0 : sz = 0
    · subst h0
      exact iff_of_false (not_restored_zero hc hrun hp) (fun hn => hn ⟨rfl, rfl⟩)
    · refine iff_of_true ?_ (fun hh => h0 hh.2)
      exact buddy_restored hc.managed hc.lists_ok hc.packed hc.bits h0 hrun hp (hown rfl)
  | slabAlloc => exact iff_of_true (slab_restored hc hrun hp) (fun hh => absurd hh.1 (by decide))
  | chooseAlloc =>
    refine iff_of_true ?_ (fun hh => absurd hh.1 (by decide))
    unfold physKmalloc at hrun
    unfold Restored physKfree
    by_cases hle : sz ≤ 2048
    · simp only [cacheIndex, if_pos hle] at hrun hown ⊢
      exact slab_restored hc hrun hp
    · simp only [cacheIndex, if_neg hle] at hrun hown ⊢
      exact buddy_restored hc.managed hc.lists_ok hc.packed hc.bits (by omega) hrun hp
        (hown trivial)

/-! ### A machine with one page -/

/-- Blocks all of whose addresses are in one page are that page. -/
theorem order_zero_of_page {b : Chunk} {p : Nat}
    (hin : ∀ a, b.addr ≤ a → a < b.addr + chunkBytes b.order →
    p ≤ a ∧ a < p + chunkBytes 0) : b.order = 0 := by
  have hpos := chunkBytes_pos b.order
  have hfirst := hin b.addr (Nat.le_refl _) (by omega)
  have hlast := hin (b.addr + chunkBytes b.order - 1) (by omega) (by omega)
  by_contra hne
  have hup := chunkBytes_le (show 0 + 1 ≤ b.order by omega)
  rw [chunkBytes_succ] at hup
  have := chunkBytes_pos 0
  omega

/-- The range of `smallLayout` with its first page free, and new caches. -/
theorem exists_consistent :
    ∃ s h geo, Consistent smallLayout 0x400000 0x400000 kernelImageStart s h geo
    (fun _ _ => []) (fun _ _ => []) (fun _ => []) ∧ h.free 0 ≠ [] := by
  have hm := smallManaged
  obtain ⟨s, h, hrun, hgives⟩ := kfree_steps_small hm (by decide) _ _ _ _
    (emptyState_lists smallLayout 0x400000 (0x400000 / pageSize)) (emptyHeap_bits _ _)
      (emptyHeap_freed hm (by decide))
  have horder : freeOrder 4096 = 0 := by decide
  have hpage : ∀ a, FreeAt h.free a ↔ 0x400000 ≤ a ∧ a < 0x400000 + chunkBytes 0 := by
    intro a
    rw [hgives.exact, horder]
    exact or_iff_right (emptyHeap_freeAt a)
  have hsmall : chunkBytes 0 ≤ 0x400000 := by decide
  obtain ⟨m', -, -, hspare, hcaches⟩ := Slab.initSlabLoop_edits s.physMapOffset (m := s.mem)
    Slab.smallLayout_caches
    (show 4 ≤ 4 by omega) (show 4 + 8 = 12 by omega)
  choose geo hsize hcm using hcaches
  have hpacked := hgives.lists.packed
  refine ⟨{ s with mem := m' }, h, fun i => if hi : i < 8 then geo i (Nat.zero_le i) hi
    else geo 0 (Nat.zero_le 0) (by decide), ⟨hm, ?_, ?_, rep_spared hgives.lists.rep hspare, ?_,
      hgives.bits, ?_, ?_⟩, ?_⟩
  · exact hgives.lists.ready.quiet (Quiet.setMem s m')
  · exact (Calm.result hrun).free .slabLock rfl
  · refine ⟨⟨hpacked.packs.pos, fun b hb a ha => ?_, hpacked.packs.once⟩, hpacked.aligned⟩
    rw [add_zero] at hb
    have := (hpage a).mp ⟨b, hb, ha⟩
    omega
  · intro i hi
    simp only [dif_pos hi]
    exact hcm i (Nat.zero_le i) hi
  · intro i _ k d hd
    exact absurd hd (by simp)
  · -- the one block is a page
    obtain ⟨b, hb, hcov⟩ := (hpage 0x400000).mpr ⟨Nat.le_refl _,
      Nat.lt_add_of_pos_right (chunkBytes_pos 0)⟩
    have hzero := order_zero_of_page (fun a h1 h2 => (hpage a).mp ⟨b, hb, h1, h2⟩)
    have hmem := (mem_freeChunks.mp hb).2
    rw [hzero] at hmem
    exact List.ne_nil_of_mem hmem

theorem kmalloc_page (sz : Nat) {s : KState} {h : Heap} {geo : Nat → Slab.Geometry}
    (hc : Consistent L base size slabCaches s h geo lists chain live) (hsz : sz ≤ chunkBytes 10)
    (hne : h.free (Buddy.orderOf sz) ≠ []) :
    ∃ p s₁, physKmalloc slabCaches sz .buddyAlloc L s = .ok (p, s₁) ∧ p ≠ 0 := by
  obtain ⟨p, s₁, _, hrun, htakes⟩ := buddyKalloc_takes hc.lists_ok hsz
    ⟨Buddy.orderOf sz, Nat.le_refl _, (orderOf_spec hsz).2.1, hne⟩
  exact ⟨p, s₁, hrun, htakes.ne_zero⟩

/-- The page goes out and comes back. -/
theorem kmalloc_kfree_iff_page :
    ∃ s h geo p s₁, Consistent smallLayout 0x400000 0x400000 kernelImageStart s h geo
    (fun _ _ => []) (fun _ _ => []) (fun _ => []) ∧
    physKmalloc kernelImageStart 4096 .buddyAlloc smallLayout s = .ok (p, s₁) ∧ p ≠ 0 ∧
    Restored smallLayout 0x400000 0x400000 kernelImageStart h geo (fun _ _ => []) (fun _ => []) 4096
    .buddyAlloc p
      s₁ := by
  obtain ⟨s, h, geo, hc, hne⟩ := exists_consistent
  have horder : Buddy.orderOf 4096 = 0 := by decide
  obtain ⟨p, s₁, hrun, hp⟩ := kmalloc_page 4096 hc (by decide) (by rwa [horder])
  exact ⟨s, h, geo, p, s₁, hc, hrun, hp,
    (kmalloc_kfree_iff hc hrun hp (fun _ => by rwa [horder])).mpr
    (fun hh => absurd hh.2 (by decide))⟩

/-- With a size of 0 it goes out and does not come back. -/
theorem kmalloc_zero_lost : ¬ ∀ (L : Layout) (base size slabCaches : Nat) (s : KState) (h : Heap)
    (geo : Nat → Slab.Geometry) (lists : Nat → Slab.SlabList → List Nat)
    (chain : Nat → Nat → List Nat) (live : Nat → List Nat) (sz : Nat) (flg : AllocFlag) (p : Nat)
    (s₁ : KState), Consistent L base size slabCaches s h geo lists chain live → sz < 2 ^ 64 →
    physKmalloc slabCaches sz flg L s = .ok (p, s₁) → p ≠ 0 →
    (cacheIndex sz flg = none → h.free (Buddy.orderOf sz) ≠ []) →
    Restored L base size slabCaches h geo lists live sz flg p s₁ := by
  intro hall
  obtain ⟨s, h, geo, hc, hne⟩ := exists_consistent
  have horder : Buddy.orderOf 0 = 0 := by decide
  obtain ⟨p, s₁, hrun, hp⟩ := kmalloc_page 0 hc (Nat.zero_le _) (by rwa [horder])
  exact not_restored_zero hc hrun hp
    (hall _ _ _ _ _ _ _ _ _ _ 0 .buddyAlloc p s₁ hc (by decide) hrun hp
    (fun _ => by rwa [horder]))

end GiveBack
end MikroKernel
