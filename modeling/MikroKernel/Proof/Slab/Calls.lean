import MikroKernel.Alloc.PhysAlloc
import MikroKernel.Proof.Slab.Grow

/-!
# Calls of the slab allocator

`CacheInv` is the cache at rest on a machine with a page allocator: memory holds it, and its slabs
are blocks the allocator has handed out. The calls keep it, and they return whenever the page
allocator does: `kmemCacheKalloc_returns` and `kmemCacheKfree_returns` are total statements. Both
also say what the call leaves alone (`CallFrame`), in particular everything the owners of live
objects have stored in them.
-/

set_option autoImplicit false

namespace MikroKernel
namespace Slab

variable {L : Layout} {m : Mem} {g : Geometry} {cache d o : Nat}
  {lists : SlabList → List Nat} {chain : Nat → List Nat} {live : List Nat}

/-- The cache at rest: memory holds it, its slabs are blocks of the page allocator, and the
allocator does not write the cache. -/
structure CacheInv (A : PageSource L) (g : Geometry) (cache : Nat) (s : KState)
    (lists : SlabList → List Nat) (chain : Nat → List Nat) (live : List Nat) : Prop where
  mem : CacheMem L s.mem g cache lists chain live
  ok : A.Ok s
  view : View s.physMapOffset
  lock : (s.lock .slabLock).Free
  block : ∀ i, ∀ d ∈ lists i, ⟨d, g.bytes⟩ ∈ s.blocks
  unmanaged : ∀ a, cache ≤ a → a < cache + cacheSize → ¬ A.managed a

variable {A : PageSource L} {s : KState}

/-- Where an operation on slab `d` stores. -/
theorem CacheMem.stores_cases {m' : Mem} {ls : List Nat}
    (h : CacheMem L m g cache lists chain live) (hs : Stores cache lists d ls m m') {a : Nat}
    {f : Field} (hne : m' a f ≠ m a f) :
    (cache ≤ a ∧ a < cache + cacheSize) ∨
    (∃ e, (e = d ∨ ∃ k, e ∈ lists k) ∧ e ≤ a ∧ a < e + descriptorSize) ∨
    (f = .link ∧ a ∈ ls) := by
  rcases hs a f hne with ⟨rfl, -⟩ | ⟨-, ha⟩ | ha
  · exact Or.inr (Or.inl ⟨a, Or.inl rfl, Nat.le_refl _, by unfold descriptorSize; omega⟩)
  · rcases ha with rfl | ⟨k, ha⟩
    · exact Or.inr (Or.inl ⟨d, Or.inl rfl, by unfold slabNode; omega,
        by unfold slabNode descriptorSize; omega⟩)
    · rcases h.ringNode_cases ha with ⟨h1, h2, -⟩ | ⟨e, he, rfl⟩
      · exact Or.inl ⟨by omega, h2⟩
      · exact Or.inr (Or.inl ⟨e, Or.inr ⟨k, he⟩, by omega, by unfold descriptorSize; omega⟩)
  · exact Or.inr (Or.inr ha)

/-- The header is part of the slab. -/
theorem Geometry.header_le (g : Geometry) : descriptorSize ≤ g.bytes := by
  have h1 := g.offset_ge
  have h2 := g.fits
  unfold Geometry.bytes
  omega

/-- **An operation on one slab keeps the invariant** of the machine: it stores nowhere but in the
cache and in blocks of the cache. -/
theorem CacheInv.operate {s' : KState} {lists' : SlabList → List Nat} {chain' : Nat → List Nat}
    {live' ls : List Nat} (h : CacheInv A g cache s lists chain live)
    (hd : ⟨d, g.bytes⟩ ∈ s.blocks) (hq : Quiet s s') (hs : Stores cache lists d ls s.mem s'.mem)
    (hls : ∀ o ∈ ls, o ∈ g.slots d)
    (hm : CacheMem L s'.mem g cache lists' chain' live')
    (hold : ∀ k, ∀ e ∈ lists' k, e = d ∨ ∃ k', e ∈ lists k') :
    CacheInv A g cache s' lists' chain' live' := by
  have hblock : ∀ {e}, (e = d ∨ ∃ k, e ∈ lists k) → ⟨e, g.bytes⟩ ∈ s.blocks := by
    rintro e (rfl | ⟨k, he⟩)
    · exact hd
    · exact h.block k e he
  have hview : View s'.physMapOffset := hq.offset ▸ h.view
  refine ⟨hm, ?_, hview, hq.free _ h.lock, fun k e he => ?_, h.unmanaged⟩
  · refine A.ok_frame h.ok hview hq.free hq.blocks (fun a f hne hman => ?_)
    have hhead := g.header_le
    rcases h.mem.stores_cases hs hne with ⟨h1, h2⟩ | ⟨e, he, h1, h2⟩ | ⟨-, ha⟩
    · exact absurd hman (h.unmanaged a h1 h2)
    · exact ⟨_, hblock he, h1, by show a < e + g.bytes; omega⟩
    · have hb := Geometry.slot_bounds (hls a ha)
      have hsz := g.size_ge
      exact ⟨_, hd, by show d ≤ a; omega, by show a < d + g.bytes; omega⟩
  · rw [hq.blocks]
    exact hblock (hold k e he)

/-- A section that stores nothing. -/
theorem CacheInv.quiet {s' : KState} (h : CacheInv A g cache s lists chain live)
    (hm : s'.mem = s.mem) (hq : Quiet s s') : CacheInv A g cache s' lists chain live := by
  have hview : View s'.physMapOffset := hq.offset ▸ h.view
  refine ⟨hm ▸ h.mem, A.ok_frame h.ok hview hq.free hq.blocks ?_, hview, hq.free _ h.lock,
    fun k d hd => hq.blocks ▸ h.block k d hd, h.unmanaged⟩
  exact fun a f hne => absurd (by rw [hm]) hne

/-- What the owners of live objects have stored there stays, unless it is one of the slots the
operation is about. -/
theorem CacheMem.live_kept {m' : Mem} {ls : List Nat} {a : Nat} {f : Field}
    (h : CacheMem L m g cache lists chain live) (halign : g.bytes ∣ d)
    (hs : Stores cache lists d ls m m') (ho : o ∈ live) (h1 : o ≤ a) (h2 : a < o + g.size)
    (hls : a ∉ ls) : m' a f = m a f := by
  by_contra hne
  obtain ⟨i, e, he, hoe, -⟩ := (h.live_iff o).mp ho
  have hb := Geometry.slot_bounds hoe
  have hhead := g.header_le
  rcases h.stores_cases hs hne with ⟨h3, h4⟩ | ⟨e', he', h3, h4⟩ | ⟨-, ha⟩
  · have himg := h.image (a - cache) (by omega)
    rw [show cache + (a - cache) = a by omega] at himg
    exact image_ne_phys himg (h.phys i e he a (by omega) (by omega)) rfl
  · have halign' : g.bytes ∣ e' := by
      rcases he' with rfl | ⟨k, he'⟩
      · exact halign
      · exact h.aligned k e' he'
    have heq : e' = e := Geometry.slab_inj halign' (h.aligned i e he) h3 (by omega) (by omega)
      (by omega)
    omega
  · exact hls ha

/-- What a call leaves alone: the offset, the free locks, and all memory but the cache, what the
page allocator keeps for itself, and the slabs outside their live objects. -/
structure CallFrame (A : PageSource L) (g : Geometry) (cache : Nat) (lists : SlabList → List Nat)
    (live : List Nat) (s s' : KState) : Prop where
  offset : s'.physMapOffset = s.physMapOffset
  free : ∀ id, (s.lock id).Free → (s'.lock id).Free
  mem : ∀ a f, s'.mem a f ≠ s.mem a f → (cache ≤ a ∧ a < cache + cacheSize) ∨
    (A.managed a ∧ ¬ InBlocks s.blocks a) ∨
    ((∃ k, ∃ d ∈ lists k, d ≤ a ∧ a < d + g.bytes) ∧ ∀ o ∈ live, ¬ (o ≤ a ∧ a < o + g.size))

/-- An operation on slab `d`, which is one of the cache's or just about to be, is framed. -/
theorem CacheInv.frame_stores {s' : KState} {ls kept : List Nat}
    (h : CacheInv A g cache s lists chain live) (hd : ∃ k, d ∈ lists k) (hq : Quiet s s')
    (hs : Stores cache lists d ls s.mem s'.mem) (hls : ∀ o ∈ ls, o ∈ g.slots d)
    (hkept : ∀ o ∈ kept, o ∈ live ∧ ∀ x ∈ ls, ¬ (o ≤ x ∧ x < o + g.size)) :
    CallFrame A g cache lists kept s s' := by
  obtain ⟨k, hd⟩ := hd
  refine ⟨hq.offset, hq.free, fun a f hne => ?_⟩
  have hhead := g.header_le
  have hout : ∀ o ∈ kept, ¬ (o ≤ a ∧ a < o + g.size) := by
    rintro o ho ⟨h1, h2⟩
    obtain ⟨holive, hx⟩ := hkept o ho
    exact hne (h.mem.live_kept (h.mem.aligned k d hd) hs holive h1 h2
      (fun ha => hx a ha ⟨h1, h2⟩))
  rcases h.mem.stores_cases hs hne with h1 | ⟨e, he, h1, h2⟩ | ⟨-, ha⟩
  · exact Or.inl h1
  · refine Or.inr (Or.inr ⟨?_, hout⟩)
    rcases he with rfl | ⟨k', he⟩
    · exact ⟨k, e, hd, h1, by omega⟩
    · exact ⟨k', e, he, h1, by omega⟩
  · have hb := Geometry.slot_bounds (hls a ha)
    have hsz := g.size_ge
    exact Or.inr (Or.inr ⟨⟨k, d, hd, by omega, by omega⟩, hout⟩)

/-- Two live objects do not overlap. -/
theorem CacheMem.live_disjoint {o' : Nat} (h : CacheMem L m g cache lists chain live)
    (ho : o ∈ live) (ho' : o' ∈ live) (hne : o ≠ o') : o + g.size ≤ o' ∨ o' + g.size ≤ o := by
  obtain ⟨i, d, hd, hod, -⟩ := (h.live_iff o).mp ho
  obtain ⟨i', d', hd', hod', -⟩ := (h.live_iff o').mp ho'
  have hb := Geometry.slot_bounds hod
  have hb' := Geometry.slot_bounds hod'
  by_cases hdd : d = d'
  · subst hdd
    exact (Geometry.slot_apart hod hod').resolve_left hne
  · -- different slabs, whose sizes both addresses divide
    obtain ⟨q, hq⟩ := h.aligned i d hd
    obtain ⟨q', hq'⟩ := h.aligned i' d' hd'
    rcases Nat.lt_trichotomy q q' with hlt | rfl | hlt
    · have := Nat.mul_le_mul_left g.bytes hlt
      rw [Nat.mul_succ] at this
      omega
    · exact absurd (hq.trans hq'.symm) hdd
    · have := Nat.mul_le_mul_left g.bytes hlt
      rw [Nat.mul_succ] at this
      omega

/-- **What the owners of live objects and the rest of the kernel write** is no descriptor and no
free slot. -/
theorem CacheInv.others {s' : KState} (h : CacheInv A g cache s lists chain live) (hok : A.Ok s')
    (hv : View s'.physMapOffset) (hlock : (s'.lock .slabLock).Free)
    (hblocks : ∀ k, ∀ d ∈ lists k, ⟨d, g.bytes⟩ ∈ s'.blocks)
    (hcache : ∀ a f, cache ≤ a → a < cache + cacheSize → s'.mem a f = s.mem a f)
    (hslab : ∀ a f, s'.mem a f ≠ s.mem a f → ∀ k, ∀ d ∈ lists k, d ≤ a → a < d + g.bytes →
      ∃ o ∈ live, o ≤ a ∧ a < o + g.size) :
    CacheInv A g cache s' lists chain live := by
  have hcm := h.mem
  have hhead := g.header_le
  have hsz := g.size_ge
  refine ⟨hcm.frame hcache (fun k d hd a f ha => ?_), hok, hv, hlock, hblocks, h.unmanaged⟩
  by_contra hne
  have hin : d ≤ a ∧ a < d + g.bytes := by
    rcases ha with ⟨h1, h2⟩ | ⟨-, hc⟩
    · omega
    · have hb := Geometry.slot_bounds ((hcm.slab k d hd).slots a hc)
      omega
  obtain ⟨o, ho, h1, h2⟩ := hslab a f hne k d hd hin.1 hin.2
  obtain ⟨i, e, he, hoe, hoc⟩ := (hcm.live_iff o).mp ho
  have hb := Geometry.slot_bounds hoe
  have : e = d := Geometry.slab_inj (hcm.aligned i e he) (hcm.aligned k d hd)
    (show e ≤ a by omega) (by omega) hin.1 hin.2
  subst this
  rcases ha with ⟨-, h3⟩ | ⟨-, hc⟩
  · omega
  · rcases Geometry.slot_apart ((hcm.slab k e hd).slots a hc) hoe with rfl | h3 | h3
    · exact hoc hc
    · omega
    · omega

/-! ## Growth -/

theorem kmemCacheGrow_eq (pages : Nat → K Nat) (cache : Nat) :
    kmemCacheGrow pages cache = (do
      let slabOrder ← load cache .slabOrder
      let descriptor ← pages (2 ^ slabOrder * pageSize)
      if descriptor = 0 then pure .error else growTail cache descriptor) := rfl

/-- A call of the page allocator does not disturb the cache. -/
theorem CacheInv.allocated {s' : KState} (bs : List Block)
    (h : CacheInv A g cache s lists chain live) (hok : A.Ok s')
    (hf : AllocFrame A.managed s.blocks s s') (hbs : s'.blocks = bs ++ s.blocks) :
    CacheInv A g cache s' lists chain live := by
  have hsame : ∀ a f, ¬ A.managed a ∨ InBlocks s.blocks a → s'.mem a f = s.mem a f := by
    intro a f ha
    by_contra hne
    obtain ⟨h1, h2⟩ := hf.mem a f hne
    rcases ha with ha | ha
    · exact ha h1
    · exact h2 ha
  refine ⟨h.mem.frame (fun a f h1 h2 => hsame a f (Or.inl (h.unmanaged a h1 h2))) ?_, hok,
    hf.offset ▸ h.view, hf.free _ h.lock, fun k d hd => ?_, h.unmanaged⟩
  · intro k d hd a f ha
    refine hsame a f (Or.inr ⟨_, h.block k d hd, ?_⟩)
    have hhead := g.header_le
    show d ≤ a ∧ a < d + g.bytes
    rcases ha with ⟨h1, h2⟩ | ⟨-, ha⟩
    · omega
    · have hb := Geometry.slot_bounds ((h.mem.slab k d hd).slots a ha)
      have hsz := g.size_ge
      omega
  · rw [hbs]
    exact List.mem_append_right _ (h.block k d hd)

/-- A block apart from the others has none of their addresses. -/
theorem not_inBlocks {b : Block} {bs : List Block} (h : ∀ c ∈ bs, b.Apart c) {a : Nat}
    (h1 : b.addr ≤ a) (h2 : a < b.addr + b.len) : ¬ InBlocks bs a := by
  rintro ⟨c, hc, h3, h4⟩
  rcases h c hc with h5 | h5 <;> omega

section Guards

variable {alarm : Stop} (x y : Nat → K Nat) [∀ n, Guards alarm (x n) (y n)]

instance (cache : Nat) : Guards alarm (kmemCacheGrow x cache) (kmemCacheGrow y cache) := by
  unfold kmemCacheGrow
  infer_instance

instance (cache : Nat) : Guards alarm (kmemCacheKalloc x cache) (kmemCacheKalloc y cache) := by
  unfold kmemCacheKalloc
  refine Guards.rest (fun r => ?_)
  cases r with
  | some ptr => exact Guards.refl _
  | none => infer_instance

end Guards

/-- **Growth**: nothing happens, for want of a block, or a fresh block becomes the first free
slab. -/
theorem kmemCacheGrow_returns (h : CacheInv A g cache s lists chain live) :
    ∃ st s', kmemCacheGrow A.kmalloc cache L s = .ok (st, s') ∧
      CallFrame A g cache lists live s s' ∧
      ((st = .error ∧ s'.blocks = s.blocks ∧ CacheInv A g cache s' lists chain live ∧
          ReturnedNull L A.kmalloc (fun kmalloc => kmemCacheGrow kmalloc cache) s) ∨
       (st = .ok ∧ ∃ p, (∀ i, p ∉ lists i) ∧ s'.blocks = ⟨p, g.bytes⟩ :: s.blocks ∧
          (∀ a, p ≤ a → a < p + g.bytes → A.managed a ∧ ¬ InBlocks s.blocks a) ∧
          CacheInv A g cache s' (Function.update lists .freeSlabs (p :: lists .freeSlabs))
            (Function.update chain p (g.slots p)) live)) := by
  have hn : 2 ^ g.order * pageSize = pageSize * 2 ^ g.order := Nat.mul_comm _ _
  obtain ⟨p, s₁, hrun, hok, hf, hcase⟩ := A.kmalloc_spec h.ok g.order_le
  have hload : load cache .slabOrder L s = .ok (g.order, s) := by
    rw [load_image h.mem.image_self, h.mem.slabOrder]
  have hhead : kmemCacheGrow A.kmalloc cache L s
      = (if p = 0 then pure .error else growTail cache p : K Status) L s₁ := by
    rw [kmemCacheGrow_eq, K.bind_ok hload, hn, K.bind_ok hrun]
  rcases hcase with ⟨rfl, hblocks⟩ | ⟨hp, halign, hblocks⟩
  · refine ⟨.error, s₁, by rw [hhead]; rfl, ⟨hf.offset, hf.free, ?_⟩,
      Or.inl ⟨rfl, hblocks, h.allocated [] hok hf hblocks, ?_⟩⟩
    · exact fun a f hne => Or.inr (Or.inl (hf.mem a f hne))
    · show kmemCacheGrow (orHalt A.kmalloc) cache L s = .error nullAlarm
      rw [kmemCacheGrow_eq, K.bind_ok hload, hn, K.bind_apply, orHalt_null hrun]
  · have h₁ := h.allocated [⟨p, g.bytes⟩] hok hf hblocks
    have hmem : (⟨p, g.bytes⟩ : Block) ∈ s₁.blocks := by
      rw [hblocks]
      exact List.mem_cons_self
    have hphys := (A.ok_blocks hok _ hmem).2
    have hapart : ∀ c ∈ s.blocks, Block.Apart ⟨p, g.bytes⟩ c := by
      have := A.ok_apart hok
      rw [hblocks] at this
      exact (List.pairwise_cons.mp this).1
    have hfresh : ∀ i, p ∉ lists i := by
      intro i hi
      have hpos := g.bytes_pos
      have := hapart _ (h.block i p hi)
      simp only [Block.Apart] at this
      omega
    have hown : ∀ a, p ≤ a → a < p + g.bytes → A.managed a ∧ ¬ InBlocks s.blocks a :=
      fun a h1 h2 => ⟨(hphys a h1 h2).2, not_inBlocks hapart h1 h2⟩
    obtain ⟨m', hedit, hcm, hstores⟩ := growTail_edits (p := p) h₁.view h₁.mem
      (fun a h1 h2 => (hphys a h1 h2).1) halign hfresh
    have hq := Quiet.setMem s₁ m'
    refine ⟨.ok, { s₁ with mem := m' }, ?_, ⟨hf.offset, hf.free, ?_⟩,
      Or.inr ⟨rfl, p, hfresh, hblocks, hown, ?_⟩⟩
    · rw [hhead, if_neg hp]
      exact hedit s₁ rfl rfl
    · intro a f hne
      by_cases hsame : m' a f = s₁.mem a f
      · exact Or.inr (Or.inl (hf.mem a f (fun he => hne (hsame.trans he))))
      · rcases h₁.mem.stores_cases hstores hsame with h1 | ⟨e, he, h1, h2⟩ | ⟨-, ha⟩
        · exact Or.inl h1
        · have hhead := g.header_le
          rcases he with rfl | ⟨k, he⟩
          · exact Or.inr (Or.inl (hown a h1 (by omega)))
          · refine Or.inr (Or.inr ⟨⟨k, e, he, h1, by omega⟩, ?_⟩)
            rintro o ho ⟨h3, h4⟩
            refine hsame (h₁.mem.live_kept halign hstores ho h3 h4 (fun ha => ?_))
            have hb := Geometry.slot_bounds ha
            have := Geometry.slab_inj halign (h.mem.aligned k e he) (show p ≤ a by omega)
              (by have := g.size_ge; omega) h1 (by omega)
            exact hfresh k (this ▸ he)
        · have hb := Geometry.slot_bounds ha
          have hsz := g.size_ge
          exact Or.inr (Or.inl (hown a (by omega) (by omega)))
    · refine h₁.operate hmem hq hstores (fun _ ho => ho) hcm (fun k e he => ?_)
      rcases (mem_added hfresh k e).mp he with ⟨rfl, -⟩ | ⟨-, he⟩
      · exact Or.inl rfl
      · exact Or.inr ⟨k, he⟩

/-! ## The calls -/

/-- A pop under the lock. -/
theorem CacheInv.popped {s' : KState} {m' : Mem} {lists' : SlabList → List Nat}
    {chain' : Nat → List Nat} (h : CacheInv A g cache s lists chain live) (hd : ∃ k, d ∈ lists k)
    (hpop : Popped L g cache lists chain live s.mem d o m' lists' chain') (hm : s'.mem = m')
    (hq : Quiet s s') :
    CacheInv A g cache s' lists' chain' (o :: live) ∧ CallFrame A g cache lists live s s' := by
  subst hm
  refine ⟨?_, h.frame_stores hd hq hpop.stores (by simp) (fun o ho => ⟨ho, by simp⟩)⟩
  obtain ⟨k, hd⟩ := hd
  refine h.operate (h.block k d hd) hq hpop.stores (by simp) hpop.mem (fun k' e he => ?_)
  exact Or.inr ((hpop.slabs e).mp ⟨k', he⟩)

/-- **`kmem_cache_kalloc` returns** `NULL` and changes nothing in the cache, or a slot that was
free. The slabs after the call are those before it and the block it took from the page
allocator, if it took one; `NULL` is returned only if there was none. -/
theorem kmemCacheKalloc_returns (h : CacheInv A g cache s lists chain live) :
    ∃ p s' lists' chain', ∃ fresh : List Nat, kmemCacheKalloc A.kmalloc cache L s = .ok (p, s') ∧
      CacheInv A g cache s' lists' chain' (if p = 0 then live else p :: live) ∧
      CallFrame A g cache lists live s s' ∧
      s'.blocks = fresh.map (fun d => ⟨d, g.bytes⟩) ++ s.blocks ∧ fresh.Nodup ∧
      (∀ e ∈ fresh, ∀ k, e ∉ lists k) ∧
      (∀ e, (∃ k, e ∈ lists' k) ↔ e ∈ fresh ∨ ∃ k, e ∈ lists k) ∧
      (p = 0 → ReturnedNull L A.kmalloc (fun kmalloc => kmemCacheKalloc kmalloc cache) s) := by
  cases hc : candidates lists with
  | cons d ds =>
    -- the first section serves the request
    obtain ⟨o, m', lists', chain', hedit, hpop⟩ := firstSection_some h.view h.mem hc
    obtain ⟨i, hd, -⟩ := h.mem.candidate (show d ∈ candidates lists by rw [hc]; simp)
    obtain ⟨s', hrun, hm, hq⟩ := Edits.locked h.lock hedit
    obtain ⟨hinv, hframe⟩ := h.popped ⟨i, hd⟩ hpop hm hq
    refine ⟨o, s', lists', chain', [], ?_, ?_, hframe, hq.blocks, List.nodup_nil, by simp, ?_,
      fun h0 => absurd h0 hpop.ne_zero⟩
    · unfold kmemCacheKalloc
      rw [K.bind_ok hrun]
      rfl
    · rwa [if_neg hpop.ne_zero]
    · simpa using hpop.slabs
  | nil =>
    obtain ⟨s₁, hrun₁, hm₁, hq₁⟩ := Edits.locked h.lock (firstSection_none h.mem hc)
    have h₁ := h.quiet hm₁ hq₁
    have hstart : ∀ kmalloc, kmemCacheKalloc kmalloc cache L s = (do
        let status ← kmemCacheGrow kmalloc cache
        locked .slabLock (secondSection cache status) : K Nat) L s₁ := by
      intro kmalloc
      unfold kmemCacheKalloc
      rw [K.bind_ok hrun₁]
    obtain ⟨st, s₂, hrun₂, hframe₂, hcase⟩ := kmemCacheGrow_returns h₁
    have hframe : ∀ {s₃ : KState}, Quiet s₂ s₃ →
        (∀ a f, s₃.mem a f ≠ s.mem a f → (cache ≤ a ∧ a < cache + cacheSize) ∨
          (A.managed a ∧ ¬ InBlocks s.blocks a) ∨
          ((∃ k, ∃ d ∈ lists k, d ≤ a ∧ a < d + g.bytes) ∧
            ∀ o ∈ live, ¬ (o ≤ a ∧ a < o + g.size))) →
        CallFrame A g cache lists live s s₃ := fun hq hmem =>
      ⟨(hq.offset.trans hframe₂.offset).trans hq₁.offset,
        fun id hid => hq.free id (hframe₂.free id (hq₁.free id hid)), hmem⟩
    have hmem₂ : ∀ a f, s₂.mem a f ≠ s.mem a f → (cache ≤ a ∧ a < cache + cacheSize) ∨
        (A.managed a ∧ ¬ InBlocks s.blocks a) ∨
        ((∃ k, ∃ d ∈ lists k, d ≤ a ∧ a < d + g.bytes) ∧
          ∀ o ∈ live, ¬ (o ≤ a ∧ a < o + g.size)) := by
      intro a f hne
      have := hframe₂.mem a f (by rwa [hm₁])
      rwa [hq₁.blocks] at this
    rcases hcase with ⟨rfl, hblocks, h₂, hnull⟩ | ⟨rfl, p, hfresh, hblocks, hown, h₂⟩
    · -- no memory
      obtain ⟨s₃, hrun₃, hm₃, hq₃⟩ := Edits.locked h₂.lock (secondSection_error (L := L) cache)
      refine ⟨0, s₃, lists, chain, [], ?_, ?_, hframe hq₃ (fun a f => hm₃ ▸ hmem₂ a f), ?_,
        List.nodup_nil, by simp, by simp, fun _ => ?_⟩
      · rw [hstart, K.bind_ok hrun₂]
        exact hrun₃
      · rw [if_pos rfl]
        exact h₂.quiet hm₃ hq₃
      · rw [hq₃.blocks, hblocks, hq₁.blocks]
        rfl
      · show kmemCacheKalloc (orHalt A.kmalloc) cache L s = .error nullAlarm
        have hnull : kmemCacheGrow (orHalt A.kmalloc) cache L s₁ = .error nullAlarm := hnull
        rw [hstart, K.bind_apply, hnull]
    · -- the second section pops from the new slab
      obtain ⟨o, m', lists', chain', hedit, hpop⟩ := secondSection_ok h₂.view h₂.mem
        (Function.update_self _ _ _)
      have hp : ∃ k, p ∈ Function.update lists .freeSlabs (p :: lists .freeSlabs) k :=
        ⟨.freeSlabs, by rw [Function.update_self]; simp⟩
      obtain ⟨s₃, hrun₃, hm₃, hq₃⟩ := Edits.locked h₂.lock hedit
      obtain ⟨h₃, hframe₃⟩ := h₂.popped hp hpop hm₃ hq₃
      refine ⟨o, s₃, lists', chain', [p], ?_, ?_, hframe hq₃ ?_, ?_, List.nodup_singleton p,
        by simpa using hfresh, fun e => ?_, fun h0 => absurd h0 hpop.ne_zero⟩
      · rw [hstart, K.bind_ok hrun₂]
        exact hrun₃
      · rwa [if_neg hpop.ne_zero]
      · intro a f hne
        by_cases hsame : s₃.mem a f = s₂.mem a f
        · exact hmem₂ a f (fun he => hne (hsame.trans he))
        · rcases hframe₃.mem a f hsame with h1 | ⟨h1, h2⟩ | ⟨⟨k, e, he, h1, h2⟩, h3⟩
          · exact Or.inl h1
          · refine Or.inr (Or.inl ⟨h1, fun hb => h2 ?_⟩)
            obtain ⟨b, hb, hb'⟩ := hb
            exact ⟨b, by rw [hblocks, hq₁.blocks]; exact List.mem_cons_of_mem _ hb, hb'⟩
          · rcases (mem_added hfresh k e).mp he with ⟨rfl, -⟩ | ⟨-, he⟩
            · have := hown a h1 h2
              rw [hq₁.blocks] at this
              exact Or.inr (Or.inl this)
            · exact Or.inr (Or.inr ⟨⟨k, e, he, h1, h2⟩, h3⟩)
      · rw [hq₃.blocks, hblocks, hq₁.blocks]
        rfl
      · rw [hpop.slabs]
        simp only [mem_added hfresh, List.mem_singleton]
        constructor
        · rintro ⟨k, ⟨rfl, -⟩ | ⟨-, he⟩⟩
          · exact Or.inl rfl
          · exact Or.inr ⟨k, he⟩
        · rintro (rfl | ⟨k, he⟩)
          · exact ⟨.freeSlabs, Or.inl ⟨rfl, rfl⟩⟩
          · exact ⟨k, Or.inr ⟨fun hep => hfresh k (hep ▸ he), he⟩⟩

/-- **`kmem_cache_kfree` returns** and gives the object's slot back. -/
theorem kmemCacheKfree_returns (h : CacheInv A g cache s lists chain live) (ho : o ∈ live) :
    ∃ s' lists' chain', kmemCacheKfree cache o L s = .ok ((), s') ∧
      CacheInv A g cache s' lists' chain' (live.erase o) ∧
      CallFrame A g cache lists (live.erase o) s s' ∧ s'.blocks = s.blocks ∧
      ∀ e, (∃ k, e ∈ lists' k) ↔ ∃ k, e ∈ lists k := by
  obtain ⟨m', lists', i, d, hd, hod, hedit, hmem, hstores, hiff⟩ :=
    freeSection_edits h.view h.mem ho
  obtain ⟨s', hrun, hm, hq⟩ := Edits.locked h.lock hedit
  have hls : ∀ x ∈ [o], x ∈ g.slots d := by simpa using hod
  subst hm
  refine ⟨s', lists', Function.update chain d (o :: chain d), hrun, ?_, ?_, hq.blocks,
    fun e => ?_⟩
  · refine h.operate (h.block i d hd) hq hstores hls hmem (fun k e he => ?_)
    rcases (hiff k e).mp he with ⟨rfl, -⟩ | ⟨-, he⟩
    · exact Or.inl rfl
    · exact Or.inr ⟨k, he⟩
  · refine h.frame_stores ⟨i, hd⟩ hq hstores hls (fun x hx => ?_)
    obtain ⟨hxo, hx⟩ := h.mem.live_nodup.mem_erase_iff.mp hx
    refine ⟨hx, ?_⟩
    simp only [List.mem_singleton, forall_eq]
    have hsz := g.size_ge
    have := h.mem.live_disjoint hx ho hxo
    omega
  · constructor
    · rintro ⟨k, he⟩
      rcases (hiff k e).mp he with ⟨rfl, -⟩ | ⟨-, he⟩
      · exact ⟨i, hd⟩
      · exact ⟨k, he⟩
    · rintro ⟨k, he⟩
      by_cases hed : e = d
      · exact ⟨_, (hiff _ e).mpr (Or.inl ⟨hed, rfl⟩)⟩
      · exact ⟨k, (hiff k e).mpr (Or.inr ⟨hed, he⟩)⟩

end Slab
end MikroKernel
