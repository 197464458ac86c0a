import MikroKernel.Lib.Run
import MikroKernel.Proof.Slab.Calls
import MikroKernel.Proof.Slab.Create

/-!
# Runs of a slab cache

A run starts with a cache that `__init_slab` or `kmem_cache_create_sl` has just made and goes on by
calls: `kmem_cache_kalloc`, `kmem_cache_kfree` of a live object, and between calls whatever the
owners of the live objects and the rest of the kernel write (`Step`). The page allocator is any that
keeps its contract (`PageSource`).

`Sound` is what is wanted of every state: the three lists, the chain of each slab and the live
objects are in step. **It holds along every run**, `sound_of_run`, and every further call returns.
-/

set_option autoImplicit false

namespace MikroKernel
namespace Slab

open Run Chain Circular

/-! ## Clients -/

/-- The machine, the objects handed out and not yet freed, and the blocks the cache has taken from
the page allocator. -/
structure Client where
  s : KState
  live : List Nat
  slabs : List Nat

/-- The blocks handed out between two states. -/
def taken (s s' : KState) : List Nat :=
  (s'.blocks.take (s'.blocks.length - s.blocks.length)).map Block.addr

/-- A call of `kmem_cache_kalloc`. -/
def Client.kalloc (L : Layout) (pages : Nat → K Nat) (cache : Nat) (c : Client) : Option Client :=
  match kmemCacheKalloc pages cache L c.s with
  | .ok (o, s') => some ⟨s', if o = 0 then c.live else o :: c.live, taken c.s s' ++ c.slabs⟩
  | .error _ => none

/-- A call of `kmem_cache_kfree` with a live object. -/
def Client.kfree (L : Layout) (cache o : Nat) (c : Client) : Option Client :=
  if o ∈ c.live then
    match kmemCacheKfree cache o L c.s with
    | .ok ((), s') => some ⟨s', c.live.erase o, c.slabs⟩
    | .error _ => none
  else none

/-- `PAGE_SIZE << cache->slab_order`. -/
def slabSize (m : Mem) (cache : Nat) : Nat := slabBytes (m cache .slabOrder)

/-- What may be written between calls: not the cache, and of its slabs only live objects. -/
def Writable (cache : Nat) (c : Client) (a : Nat) : Prop :=
  ¬ (cache ≤ a ∧ a < cache + cacheSize) ∧
  ∀ d ∈ c.slabs, d ≤ a → a < d + slabSize c.s.mem cache →
    ∃ o ∈ c.live, o ≤ a ∧ a < o + c.s.mem cache .objectSize

variable {L : Layout}

inductive Step (A : PageSource L) (cache : Nat) : Client → Client → Prop
  | kalloc {c c' : Client} : c.kalloc L A.kmalloc cache = some c' → Step A cache c c'
  | kfree {c c' : Client} {o : Nat} : c.kfree L cache o = some c' → Step A cache c c'
  | others {c : Client} {s' : KState} : A.Ok s' → View s'.physMapOffset →
      (s'.lock .slabLock).Free → (∀ d ∈ c.slabs, ⟨d, slabSize c.s.mem cache⟩ ∈ s'.blocks) →
      (∀ a f, s'.mem a f ≠ c.s.mem a f → Writable cache c a) →
      Step A cache c ⟨s', c.live, c.slabs⟩

/-- A cache of the kernel image that was just built. -/
inductive Built (L : Layout) (cache : Nat) (s : KState) : Prop
  | boot {slabCaches i : Nat} {s₀ : KState} :
      (∀ j, j < cacheSize * 8 → L.image (slabCaches + j) = true) → i < 8 →
      cache = slabCache slabCaches i → initSlab slabCaches L s₀ = .ok (.ok, s) → Built L cache s
  | createSl {size p : Nat} {s₀ : KState} :
      (∀ j, j < cacheSize → L.image (cache + j) = true) → 8 ≤ size → size < 2 ^ 64 →
      kmemCacheCreateSl cache size L s₀ = .ok (p, s) → p ≠ 0 → s.mem cache .slabOrder ≤ 10 →
      Built L cache s

structure Start (A : PageSource L) (cache : Nat) (c : Client) : Prop where
  built : Built L cache c.s
  ok : A.Ok c.s
  view : View c.s.physMapOffset
  unmanaged : ∀ a, cache ≤ a → a < cache + cacheSize → ¬ A.managed a
  no_live : c.live = []
  no_slabs : c.slabs = []

/-! ## What is claimed of a state -/

/-- The slots of the slab at `d`, from the fields of the cache. -/
def slotsOf (m : Mem) (cache d : Nat) : List Nat :=
  (List.range (m cache .objectsPerSlab)).map fun i =>
    d + firstObjectOffset (m cache .objectAlign) + i * m cache .objectSize

/-- Each slab is on exactly one list, and its use count says which. -/
structure ListsSound (m : Mem) (cache : Nat) (slabs : List Nat) (lists : SlabList → List Nat) :
    Prop where
  ring : ∀ i, Ring (m · .listNext) (m · .listPrev) (i.sentinel cache) ((lists i).map slabNode)
  once : ∀ d ∈ slabs, ∃! i, d ∈ lists i
  only : ∀ i, ∀ d ∈ lists i, d ∈ slabs
  free : ∀ d ∈ slabs, d ∈ lists .freeSlabs ↔ m d .inuseNum = 0
  some_used : ∀ d ∈ slabs, d ∈ lists .partialSlabs ↔
    0 < m d .inuseNum ∧ m d .inuseNum < m cache .objectsPerSlab
  full : ∀ d ∈ slabs, d ∈ lists .fullSlabs ↔ m d .inuseNum = m cache .objectsPerSlab

/-- The free list of a slab ends in `NULL` and has no slot twice; with the live objects of the slab
it makes up the slab's slots, each once. -/
def ChainSound (m : Mem) (cache : Nat) (live : List Nat) (d : Nat) : Prop :=
  ∃ l, m d .freeList = Chain.first l ∧ Threaded (m · .link) l ∧ l.Nodup ∧
    l.length + m d .inuseNum = m cache .objectsPerSlab ∧
    (l ++ live.filter fun o => d ≤ o ∧ o < d + slabSize m cache).Perm (slotsOf m cache d)

/-- Live objects do not overlap each other or a descriptor, and are aligned. -/
structure LiveSound (m : Mem) (cache : Nat) (slabs live : List Nat) : Prop where
  disjoint : live.Pairwise fun o o' =>
    o + m cache .objectSize ≤ o' ∨ o' + m cache .objectSize ≤ o
  aligned : ∀ o ∈ live, m cache .objectAlign ∣ o
  inside : ∀ o ∈ live, ∃ d ∈ slabs, d + descriptorSize ≤ o ∧
    o + m cache .objectSize ≤ d + slabSize m cache

structure Sound (m : Mem) (cache : Nat) (slabs live : List Nat) : Prop where
  nodup : slabs.Nodup
  lists : ∃ lists, ListsSound m cache slabs lists
  chains : ∀ d ∈ slabs, ChainSound m cache live d
  live : LiveSound m cache slabs live

/-! ## The invariant implies it -/

variable {m : Mem} {g : Geometry} {cache d o : Nat} {lists : SlabList → List Nat}
  {chain : Nat → List Nat} {live slabs : List Nat}

theorem CacheMem.slotsOf_eq (h : CacheMem L m g cache lists chain live) (d : Nat) :
    slotsOf m cache d = g.slots d := by
  unfold slotsOf Geometry.slots Geometry.slot
  rw [h.objectsPerSlab, h.objectAlign, h.objectSize, ← g.offset_eq]

theorem CacheMem.slabSize_eq (h : CacheMem L m g cache lists chain live) :
    slabSize m cache = g.bytes := by
  unfold slabSize Geometry.bytes
  rw [h.slabOrder]

/-- The use count of a slab says which list it is on. -/
theorem CacheMem.mem_iff (h : CacheMem L m g cache lists chain live) {i : SlabList}
    (hd : d ∈ lists i) :
    (d ∈ lists .freeSlabs ↔ m d .inuseNum = 0) ∧
    (d ∈ lists .partialSlabs ↔ 0 < m d .inuseNum ∧ m d .inuseNum < g.per) ∧
    (d ∈ lists .fullSlabs ↔ m d .inuseNum = g.per) := by
  have hin : ∀ j, d ∈ lists j ↔ i = j := fun j =>
    ⟨fun hj => h.lists_ok.once i j d hd hj, fun hij => hij ▸ hd⟩
  have hle := h.length_le hd
  have hper := g.per_ge
  have hfits := h.fits i d hd
  rw [hin, hin, hin, (h.slab i d hd).inuse]
  cases i with
  | freeSlabs =>
    simp only [SlabList.Fits] at hfits
    simp only [reduceCtorEq, true_iff, false_iff]
    omega
  | partialSlabs =>
    simp only [SlabList.Fits] at hfits
    simp only [reduceCtorEq, true_iff, false_iff]
    omega
  | fullSlabs =>
    simp only [SlabList.Fits] at hfits
    simp only [reduceCtorEq, true_iff, false_iff, hfits, List.length_nil]
    omega

/-- The chain and the live objects of a slab share out its slots. -/
theorem CacheMem.perm_slots (h : CacheMem L m g cache lists chain live) {i : SlabList}
    (hd : d ∈ lists i) :
    (chain d ++ live.filter fun o => d ≤ o ∧ o < d + g.bytes).Perm (g.slots d) := by
  have hs := h.slab i d hd
  have hsz := g.size_ge
  -- a live object in the range of `d` is a slot of `d`
  have hmine : ∀ o ∈ live, d ≤ o → o < d + g.bytes → o ∈ g.slots d ∧ o ∉ chain d := by
    intro o ho h1 h2
    obtain ⟨k, e, he, hoe, hne⟩ := (h.live_iff o).mp ho
    have hb := Geometry.slot_bounds hoe
    have : e = d := Geometry.slab_inj (h.aligned k e he) (h.aligned i d hd) (show e ≤ o by omega)
      (by omega) h1 h2
    subst this
    exact ⟨hoe, hne⟩
  have hnd : (chain d ++ live.filter fun o => d ≤ o ∧ o < d + g.bytes).Nodup := by
    refine List.Nodup.append hs.nodup (h.live_nodup.filter _) (fun o hc hl => ?_)
    simp only [List.mem_filter, decide_eq_true_eq] at hl
    exact (hmine o hl.1 hl.2.1 hl.2.2).2 hc
  refine (List.perm_ext_iff_of_nodup hnd (g.slots_nodup d)).mpr (fun o => ?_)
  simp only [List.mem_append, List.mem_filter, decide_eq_true_eq]
  constructor
  · rintro (hc | ⟨hl, h1, h2⟩)
    · exact hs.slots o hc
    · exact (hmine o hl h1 h2).1
  · intro hod
    by_cases hc : o ∈ chain d
    · exact Or.inl hc
    · have hb := Geometry.slot_bounds hod
      exact Or.inr ⟨(h.live_iff o).mpr ⟨i, d, hd, hod, hc⟩, by omega, by omega⟩

/-- Slots are aligned: the slab is aligned to pages, the first slot and the size to the
alignment. -/
theorem Geometry.slot_aligned (hd : g.bytes ∣ d) (ho : o ∈ g.slots d) : g.align ∣ o := by
  obtain ⟨i, -, rfl⟩ := Geometry.mem_slots.mp ho
  have hpage : g.align ∣ g.bytes := Nat.dvd_trans g.align_page (Nat.dvd_mul_right _ _)
  exact Nat.dvd_add (Nat.dvd_add (Nat.dvd_trans hpage hd) g.align_offset)
    (Nat.dvd_trans g.align_size (Nat.dvd_mul_left _ _))

theorem CacheMem.sound (h : CacheMem L m g cache lists chain live) (hnd : slabs.Nodup)
    (hslabs : ∀ e, e ∈ slabs ↔ ∃ k, e ∈ lists k) : Sound m cache slabs live := by
  refine ⟨hnd, ⟨lists, h.lists_ok.ring, ?_, ?_, ?_, ?_, ?_⟩, ?_, ?_, ?_, ?_⟩
  · intro d hd
    obtain ⟨i, hi⟩ := (hslabs d).mp hd
    exact ⟨i, hi, fun j hj => h.lists_ok.once j i d hj hi⟩
  · exact fun i d hd => (hslabs d).mpr ⟨i, hd⟩
  · intro d hd
    obtain ⟨i, hi⟩ := (hslabs d).mp hd
    exact (h.mem_iff hi).1
  · intro d hd
    obtain ⟨i, hi⟩ := (hslabs d).mp hd
    rw [h.objectsPerSlab]
    exact (h.mem_iff hi).2.1
  · intro d hd
    obtain ⟨i, hi⟩ := (hslabs d).mp hd
    rw [h.objectsPerSlab]
    exact (h.mem_iff hi).2.2
  · intro d hd
    obtain ⟨i, hi⟩ := (hslabs d).mp hd
    have hs := h.slab i d hi
    have hle := h.length_le hi
    refine ⟨chain d, hs.head, hs.thread, hs.nodup, ?_, ?_⟩
    · rw [hs.inuse, h.objectsPerSlab]
      omega
    · rw [h.slotsOf_eq, h.slabSize_eq]
      exact h.perm_slots hi
  · rw [h.objectSize]
    exact h.live_nodup.imp_of_mem (fun ho ho' hne => h.live_disjoint ho ho' hne)
  · intro o ho
    obtain ⟨i, d, hd, hod, -⟩ := (h.live_iff o).mp ho
    rw [h.objectAlign]
    exact Geometry.slot_aligned (h.aligned i d hd) hod
  · intro o ho
    obtain ⟨i, d, hd, hod, -⟩ := (h.live_iff o).mp ho
    rw [h.objectSize, h.slabSize_eq]
    exact ⟨d, (hslabs d).mpr ⟨i, hd⟩, Geometry.slot_bounds hod⟩

/-! ## Runs keep it -/

variable {A : PageSource L} {c c' : Client}

/-- The cache at rest, with `slabs` the blocks it has taken. -/
structure Inv (A : PageSource L) (cache : Nat) (g : Geometry) (c : Client)
    (lists : SlabList → List Nat) (chain : Nat → List Nat) : Prop where
  cache : CacheInv A g cache c.s lists chain c.live
  nodup : c.slabs.Nodup
  slabs : ∀ e, e ∈ c.slabs ↔ ∃ k, e ∈ lists k

theorem Built.cacheMem {s : KState} (h : Built L cache s) :
    ∃ g, CacheMem L s.mem g cache (fun _ => []) (fun _ => []) [] ∧ (s.lock .slabLock).Free := by
  cases h with
  | boot himg hi hcache hrun =>
    obtain ⟨g, -, hmem, hlock, -⟩ := initSlab_returned himg hrun hi
    exact ⟨g, hcache ▸ hmem, hlock⟩
  | createSl himg h8 hlt hrun hp hord =>
    obtain ⟨align, n, hal, hn, hm, hfree, hq⟩ := kmemCacheCreateSl_returned himg hrun hp
    rw [hm] at hord
    obtain ⟨g, hsize, halign, horder, hper⟩ := exists_geometry h8 hlt
      (by simpa [created, Mem.set_apply] using hord) hal hn
    exact ⟨g, hm ▸ CacheMem.created himg hsize halign horder hper, hq.free _ hfree⟩

theorem Inv.start (h : Start A cache c) :
    ∃ g, Inv A cache g c (fun _ => []) (fun _ => []) := by
  obtain ⟨g, hmem, hlock⟩ := h.built.cacheMem
  refine ⟨g, ⟨?_, h.ok, h.view, hlock, by simp, h.unmanaged⟩, ?_, ?_⟩
  · rw [h.no_live]; exact hmem
  · rw [h.no_slabs]; exact List.nodup_nil
  · rw [h.no_slabs]; simp

/-- The blocks taken are the ones in front. -/
theorem taken_eq {s s' : KState} (fresh : List Nat) (n : Nat)
    (h : s'.blocks = fresh.map (fun d => ⟨d, n⟩) ++ s.blocks) : taken s s' = fresh := by
  unfold taken
  rw [h, List.length_append, Nat.add_sub_cancel, List.take_left, List.map_map]
  exact List.map_id' fresh

theorem Inv.kalloc (h : Inv A cache g c lists chain) :
    ∃ c' lists' chain', c.kalloc L A.kmalloc cache = some c' ∧ Inv A cache g c' lists' chain' := by
  obtain ⟨o, s', lists', chain', fresh, hrun, hinv, -, hblocks, hnd, hfresh, hslabs, -⟩ :=
    kmemCacheKalloc_returns h.cache
  refine ⟨_, lists', chain', by unfold Client.kalloc; rw [hrun], hinv, ?_, fun e => ?_⟩
  · show (taken c.s s' ++ c.slabs).Nodup
    rw [taken_eq fresh g.bytes hblocks]
    refine List.Nodup.append hnd h.nodup (fun e he hc => ?_)
    obtain ⟨k, hk⟩ := (h.slabs e).mp hc
    exact hfresh e he k hk
  · show e ∈ taken c.s s' ++ c.slabs ↔ _
    rw [taken_eq fresh g.bytes hblocks, List.mem_append, hslabs, h.slabs]

theorem Inv.kfree (h : Inv A cache g c lists chain) (ho : o ∈ c.live) :
    ∃ c' lists' chain', c.kfree L cache o = some c' ∧ Inv A cache g c' lists' chain' := by
  obtain ⟨s', lists', chain', hrun, hinv, -, -, hslabs⟩ := kmemCacheKfree_returns h.cache ho
  refine ⟨⟨s', c.live.erase o, c.slabs⟩, lists', chain',
    by unfold Client.kfree; rw [if_pos ho, hrun], hinv, h.nodup, fun e => ?_⟩
  rw [hslabs]
  exact h.slabs e

theorem Client.kfree_mem (h : c.kfree L cache o = some c') : o ∈ c.live := by
  unfold Client.kfree at h
  split at h
  · assumption
  · exact absurd h (by simp)

theorem Inv.others {s' : KState} (h : Inv A cache g c lists chain) (hok : A.Ok s')
    (hv : View s'.physMapOffset) (hlock : (s'.lock .slabLock).Free)
    (hblocks : ∀ d ∈ c.slabs, ⟨d, slabSize c.s.mem cache⟩ ∈ s'.blocks)
    (hw : ∀ a f, s'.mem a f ≠ c.s.mem a f → Writable cache c a) :
    Inv A cache g ⟨s', c.live, c.slabs⟩ lists chain := by
  have hcm := h.cache.mem
  rw [hcm.slabSize_eq] at hblocks
  unfold Writable at hw
  simp only [hcm.slabSize_eq, hcm.objectSize] at hw
  refine ⟨h.cache.others hok hv hlock (fun k d hd => hblocks d ((h.slabs d).mpr ⟨k, hd⟩)) ?_ ?_,
    h.nodup, h.slabs⟩
  · intro a f h1 h2
    by_contra hne
    exact (hw a f hne).1 ⟨h1, h2⟩
  · exact fun a f hne k d hd => (hw a f hne).2 d ((h.slabs d).mpr ⟨k, hd⟩)

theorem Inv.step (h : Inv A cache g c lists chain) (hstep : Step A cache c c') :
    ∃ lists' chain', Inv A cache g c' lists' chain' := by
  cases hstep with
  | kalloc hcall =>
    obtain ⟨c'', lists', chain', hrun, hinv⟩ := h.kalloc
    rw [hcall, Option.some.injEq] at hrun
    exact ⟨lists', chain', hrun ▸ hinv⟩
  | kfree hcall =>
    obtain ⟨c'', lists', chain', hrun, hinv⟩ := h.kfree (Client.kfree_mem hcall)
    rw [hcall, Option.some.injEq] at hrun
    exact ⟨lists', chain', hrun ▸ hinv⟩
  | others hok hv hlock hblocks hw => exact ⟨lists, chain, h.others hok hv hlock hblocks hw⟩

theorem Inv.run (h : Start A cache c) (hrun : Reaches (Step A cache) c c') :
    ∃ g lists chain, Inv A cache g c' lists chain := by
  obtain ⟨g, h0⟩ := Inv.start h
  obtain ⟨lists, chain, hinv⟩ :=
    hrun.invariant (fun c => ∃ lists chain, Inv A cache g c lists chain)
    ⟨_, _, h0⟩ (fun a b _ ha hstep => by
      obtain ⟨lists, chain, ha⟩ := ha
      exact ha.step hstep)
  exact ⟨g, lists, chain, hinv⟩

/-- **A slab cache stays sound**: after every sequence of calls lists, chains and live objects are
in step, and the next call returns. -/
theorem sound_of_run (h : Start A cache c) (hrun : Reaches (Step A cache) c c') :
    Sound c'.s.mem cache c'.slabs c'.live ∧
    (∃ c'', c'.kalloc L A.kmalloc cache = some c'') ∧
    ∀ o ∈ c'.live, ∃ c'', c'.kfree L cache o = some c'' := by
  obtain ⟨g, lists, chain, hinv⟩ := Inv.run h hrun
  refine ⟨hinv.cache.mem.sound hinv.nodup hinv.slabs, ?_, fun o ho => ?_⟩
  · obtain ⟨c'', -, -, hcall, -⟩ := hinv.kalloc
    exact ⟨c'', hcall⟩
  · obtain ⟨c'', -, -, hcall, -⟩ := hinv.kfree ho
    exact ⟨c'', hcall⟩

/-! ## A run on the small machine -/

/-- First fit over the RAM of the small machine. -/
def smallSource : PageSource smallLayout :=
  firstFit smallLayout 0x400000 0x400000 small_base_ne smallLayout_phys

/-- A cache for objects of 512 bytes. -/
def smallCache : Option Client :=
  match kmemCacheCreateSl 0xFFFFFFFF80100000 512 smallLayout bootState with
  | .ok (_, s) => some ⟨s, [], []⟩
  | .error _ => none

theorem smallCache_result :
    (match kmemCacheCreateSl 0xFFFFFFFF80100000 512 smallLayout bootState with
    | .ok (p, s) => some (p, s.mem 0xFFFFFFFF80100000 .slabOrder)
    | .error _ => none) = some (0xFFFFFFFF80100000, 1) := by
  decide +kernel

theorem smallCache_start {c : Client} (h : smallCache = some c) :
    Start smallSource 0xFFFFFFFF80100000 c := by
  have hres := smallCache_result
  unfold smallCache at h
  cases hrun : kmemCacheCreateSl 0xFFFFFFFF80100000 512 smallLayout bootState with
  | error e => rw [hrun] at h; exact absurd h (by simp)
  | ok r =>
    obtain ⟨p, s⟩ := r
    rw [hrun] at h hres
    simp only [Option.some.injEq, Prod.mk.injEq] at h hres
    subst h
    obtain ⟨hp, hord⟩ := hres
    have himg : ∀ j, j < cacheSize → smallLayout.image (0xFFFFFFFF80100000 + j) = true :=
      fun j hj => decide_eq_true (by
        unfold cacheSize at hj
        unfold kernelImageStart metadataSpan
        omega)
    obtain ⟨-, -, -, -, -, -, hq⟩ := kmemCacheCreateSl_returned himg hrun (by omega)
    refine ⟨.createSl himg (by omega) (by omega) hrun (by omega) ?_, ⟨?_, ?_⟩,
      Or.inl hq.offset, fun a h1 _ h3 => ?_, rfl, rfl⟩
    · show s.mem _ _ ≤ 10
      omega
    · rw [show s.blocks = [] from hq.blocks]
      simp
    · rw [show s.blocks = [] from hq.blocks]
      exact List.Pairwise.nil
    · have h4 : a < 0x400000 + 0x400000 := h3.2
      omega

/-- Two objects are allocated and the first of them is freed. -/
def smallRun : Option Client :=
  smallCache.bind fun c =>
    (c.kalloc smallLayout smallSource.kmalloc 0xFFFFFFFF80100000).bind fun c =>
      (c.kalloc smallLayout smallSource.kmalloc 0xFFFFFFFF80100000).bind fun c =>
        c.kfree smallLayout 0xFFFFFFFF80100000 0x400030

theorem smallRun_result : (smallRun.map fun c => (c.live, c.slabs))
    = some ([0x400230], [0x400000]) := by
  decide +kernel

theorem sound_of_run_small : ∃ c c' : Client, Start smallSource 0xFFFFFFFF80100000 c ∧
    c'.live = [0x400230] ∧ c'.slabs = [0x400000] ∧
    Sound c'.s.mem 0xFFFFFFFF80100000 c'.slabs c'.live := by
  obtain ⟨c₃, hrun, hres⟩ := Option.map_eq_some_iff.mp smallRun_result
  obtain ⟨hlive, hslabs⟩ := Prod.mk.inj hres
  obtain ⟨c, hc, hrun⟩ := Option.bind_eq_some_iff.mp hrun
  obtain ⟨c₁, h₁, hrun⟩ := Option.bind_eq_some_iff.mp hrun
  obtain ⟨c₂, h₂, h₃⟩ := Option.bind_eq_some_iff.mp hrun
  refine ⟨c, c₃, smallCache_start hc, hlive, hslabs,
    (sound_of_run (smallCache_start hc) ?_).1⟩
  refine Relation.ReflTransGen.head (.kalloc h₁) (Relation.ReflTransGen.head (.kalloc h₂) ?_)
  exact Relation.ReflTransGen.single (.kfree h₃)

end Slab
end MikroKernel
