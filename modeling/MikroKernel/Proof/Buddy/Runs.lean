import MikroKernel.Lib.Run
import MikroKernel.Proof.Buddy.Bits

/-!
# Runs of the buddy allocator

A run starts in the state `__init_buddy` leaves and goes on by calls: `buddy_kalloc` with a size
from 1 byte to 4MB, `buddy_kfree` of a live block with the size it was asked for with, and between
calls whatever the owners of the live blocks and the rest of the kernel write (`Step`).

Two facts are wanted of every state reached: that the pages are partitioned among the free lists
and the live blocks (`Partitioned`), and that the bits of the bitmap mean what `toggle_bitmap`
says (`BitsExact`). Neither holds of every run. `buddy_kalloc` flips the bit of the order it was
asked for and no other, so a split over more than one order leaves blocks on lists whose bits do
not know it; `split_leaves_bit_stale` is the shortest run that shows it. A later free that reads
such a bit merges with a block that is still in use, `free_merges_live_block`.

**What is proved**: the partition holds as long as every free merges with siblings that are on
their lists (`partitioned_of_sound_merges`); the bits are exact as long as no allocation splits
over more than the last order (`bits_exact_of_own_order`), and in such runs the first condition
holds by itself.
-/

set_option autoImplicit false

namespace MikroKernel
namespace Buddy

open Run Chain Tiling

/-! ## Clients -/

/-- A block handed out, with the size it was asked for with. -/
structure Request where
  addr : Nat
  size : Nat
deriving DecidableEq, Repr

def Request.chunk (r : Request) : Chunk := ⟨r.addr, orderOf r.size⟩

/-- The machine and the blocks handed out and not yet freed. -/
structure Client where
  s : KState
  live : List Request

def liveChunks (live : List Request) : Multiset Chunk := (live.map Request.chunk : List Chunk)

/-- A call of `buddy_kalloc`. -/
def Client.kalloc (L : Layout) (sz : Nat) (c : Client) : Option Client :=
  match buddyKalloc sz L c.s with
  | .ok (p, s') => some ⟨s', if p = 0 then c.live else ⟨p, sz⟩ :: c.live⟩
  | .error _ => none

/-- A call of `buddy_kfree` with a live block and the size it was asked for with. -/
def Client.kfree (L : Layout) (r : Request) (c : Client) : Option Client :=
  if r ∈ c.live then
    match buddyKfree r.addr r.size L c.s with
    | .ok ((), s') => some ⟨s', c.live.erase r⟩
    | .error _ => none
  else none

/-- What may be written between calls: live blocks, and memory that is neither managed nor
metadata. -/
def Writable (L : Layout) (base size : Nat) (live : List Request) (a : Nat) : Prop :=
  (∃ r ∈ live, r.addr ≤ a ∧ a < r.addr + chunkBytes (orderOf r.size)) ∨
  ((a < base ∨ base + size ≤ a) ∧ (a < L.kernelEnd ∨ L.kernelEnd + metadataSpan ≤ a))

/-- One step, where `okAlloc` and `okFree` are conditions on the memory at a call. -/
inductive Step (L : Layout) (base size : Nat) (okAlloc : Mem → Nat → Prop)
    (okFree : Mem → Request → Prop) : Client → Client → Prop
  | kalloc {c c' : Client} {sz : Nat} : 1 ≤ sz → sz ≤ 0x400000 → okAlloc c.s.mem sz →
      c.kalloc L sz = some c' → Step L base size okAlloc okFree c c'
  | kfree {c c' : Client} {r : Request} : okFree c.s.mem r → c.kfree L r = some c' →
      Step L base size okAlloc okFree c c'
  | others {c : Client} {s' : KState} : View s'.physMapOffset → (s'.lock .buddyLock).Free →
      (∀ a f, s'.mem a f ≠ c.s.mem a f → Writable L base size c.live a) →
      Step L base size okAlloc okFree c ⟨s', c.live⟩

/-- No condition. -/
abbrev AnyStep (L : Layout) (base size : Nat) : Client → Client → Prop :=
  Step L base size (fun _ _ => True) (fun _ _ => True)

/-- `__init_buddy` ran, with this managed range, and nothing is allocated. -/
structure Start (L : Layout) (entries : List MmapEntry) (base size : Nat) (c : Client) : Prop where
  range : managedRange L.kernelEnd entries = (base, size)
  managed : Managed L base size
  init : ∃ s₀ : KState, View s₀.physMapOffset ∧ initBuddy entries L s₀ = .ok ((), c.s)
  none : c.live = []

/-! ## What is claimed of a state -/

/-- `a` is on free list `k`. -/
def OnList (L : Layout) (m : Mem) (k a : Nat) : Prop := ∃ l, FreeList L m k l ∧ a ∈ l

/-- How many blocks contain address `p`: entries of free lists, and live blocks. -/
def holders (free : Nat → List Nat) (live : List Request) (p : Nat) : Nat :=
  (∑ k ∈ Finset.range 11, (free k).countP (fun a => a ≤ p ∧ p < a + chunkBytes k)) +
    live.countP (fun r => r.addr ≤ p ∧ p < r.addr + chunkBytes (orderOf r.size))

/-- **Each managed page belongs to exactly one block, free or live.** The blocks are aligned to
their own size and so made of whole pages; the count is taken at every address. -/
def Partitioned (L : Layout) (m : Mem) (base size : Nat) (live : List Request) : Prop :=
  ∃ free : Nat → List Nat, (∀ k, k ≤ 10 → FreeList L m k (free k)) ∧
    (∀ k, k ≤ 10 → ∀ a ∈ free k, chunkBytes k ∣ a) ∧
    (∀ r ∈ live, chunkBytes (orderOf r.size) ∣ r.addr) ∧
    ∀ p, base ≤ p → p < base + size → holders free live p = 1

/-- **The bit of a pair is set iff exactly one of its blocks is on the list of its order, and
never are both**, for every order below `max_order`. -/
def BitsExact (L : Layout) (m : Mem) (base size : Nat) : Prop :=
  ∀ k, k < 10 → ∀ c, PairAt base size k c →
    (bitOf L m (pairPos base (size / pageSize) c k) = true ↔
      Xor (OnList L m k c) (OnList L m k (c + chunkBytes k))) ∧
    ¬ (OnList L m k c ∧ OnList L m k (c + chunkBytes k))

/-- The condition on a free: each merge its loop would decide on is with a sibling that is on the
list of that order. -/
def SoundFree (L : Layout) (base size : Nat) (m : Mem) (r : Request) : Prop :=
  MergeSound (pairPos base (size / pageSize)) (OnList L m) (10 - orderOf r.size) (bitOf L m)
    r.addr (orderOf r.size)

/-- The condition on an allocation: its order's own list has a block, or it asks for half of the
largest order, or there is nothing to be had. -/
def OwnOrder (L : Layout) (m : Mem) (sz : Nat) : Prop :=
  m (listHead L (orderOf sz)) .ptr ≠ 0 ∨ orderOf sz = 9 ∨
    ∀ k, orderOf sz ≤ k → k ≤ 10 → m (listHead L k) .ptr = 0

/-! ## The invariant -/

variable {L : Layout} {base size : Nat}

/-- The lists `free` and the live blocks partition the range, and memory holds the lists. -/
structure Inv (L : Layout) (base size : Nat) (c : Client) (free : Nat → List Nat) : Prop where
  ready : Ready c.s
  rep : Rep L c.s.mem base (size / pageSize) ⟨free, bitOf L c.s.mem⟩
  partition : Partition base size free (liveChunks c.live)
  sizes : ∀ r ∈ c.live, 1 ≤ r.size ∧ r.size ≤ 0x400000

theorem le_four_mb {sz : Nat} (h : sz ≤ 0x400000) : sz ≤ chunkBytes 10 := by
  rw [chunkBytes_ten]
  exact h

/-- Two readings of the bits differ only above `2 ^ 32`, where no pair has a bit. -/
theorem Rep.normalize {m : Mem} {np : Nat} {h : Heap} (hr : Rep L m base np h) :
    Rep L m base np ⟨h.free, bitOf L m⟩ :=
  ⟨hr.freeListsPtr, hr.bitmapPtr, hr.baseAddress, hr.maxOrder, hr.offsets, hr.lists,
    fun _ _ => rfl⟩

theorem onList_iff {m : Mem} {np : Nat} {h : Heap} (hr : Rep L m base np h) {k a : Nat}
    (hk : k ≤ 10) : OnList L m k a ↔ a ∈ h.free k := by
  constructor
  · rintro ⟨l, hl, ha⟩
    rwa [hl.unique (hr.lists k hk)] at ha
  · exact fun ha => ⟨_, hr.lists k hk, ha⟩

theorem liveChunks_cons (r : Request) (live : List Request) :
    liveChunks (r :: live) = r.chunk ::ₘ liveChunks live := rfl

theorem liveChunks_erase {r : Request} {live : List Request} (hr : r ∈ live) :
    liveChunks live = r.chunk ::ₘ liveChunks (live.erase r) := by
  rw [← liveChunks_cons]
  exact Multiset.coe_eq_coe.mpr ((List.perm_cons_erase hr).map Request.chunk)

theorem Inv.start {entries : List MmapEntry} {c : Client} (h : Start L entries base size c) :
    Inv L base size c (initFree base size) ∧
      ∀ p, p < size / pageSize → bitOf L c.s.mem p = false := by
  obtain ⟨s₀, hv, hinit⟩ := h.init
  obtain ⟨s', hrun, hoff, hfree, hrep, hbits⟩ := initBuddy_whole hv h.range h.managed
  obtain rfl : s' = c.s := by
    rw [hinit] at hrun
    exact (Prod.mk.inj (Except.ok.inj hrun)).2.symm
  refine ⟨⟨⟨by rw [hoff]; exact hv, hfree⟩, hrep, ?_, ?_⟩, hbits⟩
  · rw [h.none]
    exact partition_init h.managed
  · rw [h.none]
    exact fun r hr => absurd hr (by simp)

/-- The state after a `buddy_kalloc` that returned. -/
theorem Client.kalloc_rep {c c' : Client} {np : Nat} {h : Heap} {own : Multiset Chunk} {sz : Nat}
    (hs : Ready c.s) (hr : Rep L c.s.mem base np h) (hp : Packed (Usable L) h.free own)
    (hsz : sz ≤ chunkBytes 10) (hcall : c.kalloc L sz = some c') :
    ∃ r : Nat × Heap,
      r = Heap.alloc (pairPos base np) (orderOf sz) (11 - orderOf sz) (orderOf sz) h ∧
      c'.live = (if r.1 = 0 then c.live else ⟨r.1, sz⟩ :: c.live) ∧ Ready c'.s ∧
      Rep L c'.s.mem base np r.2 := by
  obtain ⟨m', ⟨s', hrun, hmem, hq⟩, hrep⟩ := buddyKalloc_returns hs hsz hr hp
  unfold Client.kalloc at hcall
  rw [hrun] at hcall
  simp only [Option.some.injEq] at hcall
  subst hcall
  exact ⟨_, rfl, rfl, hs.quiet hq, by rw [hmem]; exact hrep⟩

theorem Inv.kalloc_rep {c c' : Client} {free : Nat → List Nat} {sz : Nat}
    (hm : Managed L base size) (h : Inv L base size c free) (hsz : sz ≤ 0x400000)
    (hcall : c.kalloc L sz = some c') :
    ∃ r : Nat × Heap, r = Heap.alloc (pairPos base (size / pageSize)) (orderOf sz)
        (11 - orderOf sz) (orderOf sz) ⟨free, bitOf L c.s.mem⟩ ∧
      c'.live = (if r.1 = 0 then c.live else ⟨r.1, sz⟩ :: c.live) ∧ Ready c'.s ∧
      Rep L c'.s.mem base (size / pageSize) r.2 := by
  exact Client.kalloc_rep h.ready h.rep (h.partition.usable hm.paged) (le_four_mb hsz) hcall

/-- **Allocation keeps the invariant.** -/
theorem Inv.kalloc {c c' : Client} {free : Nat → List Nat} {sz : Nat}
    (hm : Managed L base size) (h : Inv L base size c free) (hsz1 : 1 ≤ sz)
    (hsz : sz ≤ 0x400000) (hcall : c.kalloc L sz = some c') :
    ∃ free', Inv L base size c' free' := by
  obtain ⟨r, hreq, hlive, hready, hrep⟩ := h.kalloc_rep hm hsz hcall
  have h10 := (orderOf_spec (le_four_mb hsz)).2.1
  refine ⟨r.2.free, hready, hrep.normalize, ?_, ?_⟩
  · rcases h.partition.alloc (h := ⟨free, bitOf L c.s.mem⟩) (Nat.le_refl (orderOf sz))
      (show orderOf sz + (11 - orderOf sz) = 11 by omega) with
      ⟨heq, -⟩ | ⟨a, j, -, -, -, -, heq, hpart⟩
    · rw [hlive, hreq, heq, if_pos rfl]
      exact h.partition
    · have ha0 : a ≠ 0 := by
        have h1 := (hpart.inside (c := ⟨a, orderOf sz⟩) (by simp)).1
        have h2 := hm.base_ne
        simp only at h1
        omega
      rw [hreq] at hlive ⊢
      rw [heq, if_neg ha0] at hlive
      rw [hlive]
      exact hpart
  · rw [hlive]
    split
    · exact h.sizes
    · intro x hx
      rcases List.mem_cons.mp hx with rfl | hx
      · exact ⟨hsz1, hsz⟩
      · exact h.sizes x hx

theorem Client.kfree_mem {c c' : Client} {r : Request} (h : c.kfree L r = some c') :
    r ∈ c.live := by
  unfold Client.kfree at h
  split at h
  · assumption
  · exact absurd h (by simp)

/-- **A free with sound merges keeps the invariant.** -/
theorem Inv.kfree {c c' : Client} {free : Nat → List Nat} {r : Request}
    (hm : Managed L base size) (h : Inv L base size c free)
    (hsound : SoundFree L base size c.s.mem r) (hcall : c.kfree L r = some c') :
    c'.live = c.live.erase r ∧
    Rep L c'.s.mem base (size / pageSize)
      (Heap.release (pairPos base (size / pageSize)) r.addr (orderOf r.size)
        ⟨free, bitOf L c.s.mem⟩) ∧
    Inv L base size c' (Heap.release (pairPos base (size / pageSize)) r.addr (orderOf r.size)
      ⟨free, bitOf L c.s.mem⟩).free := by
  have hr := Client.kfree_mem hcall
  obtain ⟨h1, h2⟩ := h.sizes r hr
  have hp := h.partition
  rw [liveChunks_erase hr] at hp
  have hs : MergeSound (pairPos base (size / pageSize)) (fun j a => a ∈ free j)
      (10 - orderOf r.size) (bitOf L c.s.mem) r.addr (orderOf r.size) :=
    hsound.mono (fun j a _ hj ha => (onList_iff h.rep (by omega)).mp ha)
  obtain ⟨m', ⟨s', hrun, hmem, hq⟩, hrep⟩ := buddyKfree_returns h.ready (by omega)
    (le_four_mb h2) h.rep (hp.usable hm.paged) hs
  unfold Client.kfree at hcall
  rw [if_pos hr, hrun] at hcall
  simp only [Option.some.injEq] at hcall
  subst hcall
  subst hmem
  have h10 := (orderOf_spec (le_four_mb h2)).2.1
  exact ⟨rfl, hrep, ⟨h.ready.quiet hq, hrep.normalize,
    Partition.release (h := ⟨free, bitOf L c.s.mem⟩) h10 hp hs,
    fun x hx => h.sizes x (List.mem_of_mem_erase hx)⟩⟩

/-- Memory still holds the lists if the metadata and the free blocks' own words are as before. -/
theorem Rep.kept {m m' : Mem} {np : Nat} {free : Nat → List Nat}
    (hr : Rep L m base np ⟨free, bitOf L m⟩)
    (hmeta : ∀ i f, i < metadataSpan → m' (L.kernelEnd + i) f = m (L.kernelEnd + i) f)
    (hnode : ∀ k, k ≤ 10 → ∀ a ∈ free k, ∀ f, m' a f = m a f) :
    Rep L m' base np ⟨free, bitOf L m'⟩ ∧ ∀ p, p < 2 ^ 32 → bitOf L m' p = bitOf L m p := by
  have hbits : ∀ p, p < 2 ^ 32 → bitOf L m' p = bitOf L m p := by
    intro p hp
    have := hmeta (78 + 88 + p / 8) .byte (by unfold metadataSpan; omega)
    unfold bitOf bitmapByte metadataSize
    rw [show L.kernelEnd + 78 + 11 * 8 + p / 8 = L.kernelEnd + (78 + 88 + p / 8) by omega, this]
  have hbase : ∀ f, m' L.kernelEnd f = m L.kernelEnd f := fun f =>
    hmeta 0 f (by unfold metadataSpan; omega)
  refine ⟨⟨?_, ?_, ?_, ?_, ?_, ?_, fun p _ => rfl⟩, hbits⟩
  · rw [hbase]; exact hr.freeListsPtr
  · rw [hbase]; exact hr.bitmapPtr
  · rw [hbase]; exact hr.baseAddress
  · rw [hbase]; exact hr.maxOrder
  · intro k hk
    have := hmeta (34 + 4 * k) .word32 (by unfold metadataSpan; omega)
    rw [← hr.offsets k hk]
    unfold orderOffsetAddr
    rw [Nat.add_assoc, this]
  · intro k hk
    obtain ⟨hhead, hlink⟩ := hr.lists k hk
    refine ⟨?_, hlink.congr (fun a ha => hnode k hk a ha _) (fun a ha => hnode k hk a ha _)⟩
    rw [← hhead]
    have := hmeta (78 + 8 * k) .ptr (by unfold metadataSpan; omega)
    unfold listHead freeListAddr metadataSize
    rw [Nat.add_assoc, this]

/-- What the owners and the rest of the kernel write is no metadata and no free block. -/
theorem Rep.others {m m' : Mem} {np : Nat} {free : Nat → List Nat} {live : List Request}
    {R : Nat → Prop} (hr : Rep L m base np ⟨free, bitOf L m⟩) (hp : Packed R free (liveChunks live))
    (hR : ∀ p, R p → base ≤ p ∧ p < base + size ∧ L.phys p = true)
    (hw : ∀ a f, m' a f ≠ m a f → Writable L base size live a) :
    Rep L m' base np ⟨free, bitOf L m'⟩ ∧ ∀ p, p < 2 ^ 32 → bitOf L m' p = bitOf L m p := by
  have hlive : ∀ r ∈ live, r.chunk ∈ freeChunks free + liveChunks live := by
    intro r hmem
    rw [liveChunks_erase hmem]
    simp
  refine hr.kept (fun i f hi => ?_) (fun k hk a ha f => ?_)
  · -- a live block is physical, the metadata is in the image
    by_contra hne
    rcases hw _ _ hne with ⟨r, hmem, h1, h2⟩ | ⟨-, h1 | h1⟩
    · have hphys := (hR _ (hp.packs.inside r.chunk (hlive r hmem) (L.kernelEnd + i) ⟨h1, h2⟩)).2.2
      exact phys_ne_image hphys (L.metadata_image i hi) rfl
    · omega
    · omega
  · by_contra hne
    have hpos := chunkBytes_pos k
    have hin := hR _ (hp.packs.inside ⟨a, k⟩
      (Multiset.mem_add.mpr (Or.inl (mem_freeChunks.mpr ⟨hk, ha⟩))) a
      ⟨Nat.le_refl _, Nat.lt_add_of_pos_right hpos⟩)
    rcases hw _ _ hne with ⟨r, hmem, h1, h2⟩ | ⟨h1, -⟩
    · have hap := hp.own_apart (c := r.chunk) (by rw [liveChunks_erase hmem]; simp) hk ha
      simp only [Request.chunk] at hap
      omega
    · omega

theorem Inv.others {c : Client} {free : Nat → List Nat} {s' : KState}
    (hm : Managed L base size) (h : Inv L base size c free) (hv : View s'.physMapOffset)
    (hlock : (s'.lock .buddyLock).Free)
    (hw : ∀ a f, s'.mem a f ≠ c.s.mem a f → Writable L base size c.live a) :
    Inv L base size ⟨s', c.live⟩ free ∧ ∀ p, p < 2 ^ 32 → bitOf L s'.mem p = bitOf L c.s.mem p := by
  obtain ⟨hrep, hbits⟩ := h.rep.others h.partition.packed
    (fun p hp => ⟨hp.1, hp.2, hm.phys p hp.1 hp.2⟩) hw
  exact ⟨⟨⟨hv, hlock⟩, hrep, h.partition, h.sizes⟩, hbits⟩

/-- The count of the partition, list by list. -/
theorem holders_eq (free : Nat → List Nat) (live : List Request) (p : Nat) :
    holders free live p
      = (freeChunks free + liveChunks live).countP (Covers Chunk.addr Chunk.len p) := by
  rw [Multiset.countP_add]
  unfold holders freeChunks liveChunks
  congr 1
  · rw [← Multiset.coe_countPAddMonoidHom, map_sum]
    refine Finset.sum_congr rfl (fun k _ => ?_)
    rw [Multiset.coe_countPAddMonoidHom, Multiset.countP_map, ← Multiset.countP_eq_card_filter]
    rfl
  · rw [Multiset.coe_countP, List.countP_map]
    rfl

theorem Inv.partitioned {c : Client} {free : Nat → List Nat} (h : Inv L base size c free) :
    Partitioned L c.s.mem base size c.live := by
  refine ⟨free, h.rep.lists, ?_, ?_, ?_⟩
  · intro k hk a ha
    exact (h.partition.aligned ⟨a, k⟩
      (Multiset.mem_add.mpr (Or.inl (mem_freeChunks.mpr ⟨hk, ha⟩)))).2
  · intro r hr
    exact (h.partition.aligned r.chunk (by rw [liveChunks_erase hr]; simp)).2
  · intro p h1 h2
    rw [holders_eq]
    exact h.partition.tiles.once p h1 h2

theorem Tiles.pairwise {B : Multiset Chunk} : ∀ {live : List Request},
    Tiles Chunk.addr Chunk.len base size (B + liveChunks live) →
    live.Pairwise (fun r r' => r.addr + chunkBytes (orderOf r.size) ≤ r'.addr ∨
      r'.addr + chunkBytes (orderOf r'.size) ≤ r.addr)
  | [], _ => List.Pairwise.nil
  | r :: live, h => by
    rw [liveChunks_cons, Multiset.add_cons] at h
    refine List.pairwise_cons.mpr ⟨fun r' hr' => ?_, ?_⟩
    · rw [liveChunks_erase hr', Multiset.add_cons] at h
      exact h.packs.apart
    · rw [← Multiset.cons_add] at h
      exact Tiles.pairwise h

/-! ## The partition, over whole runs -/

theorem Inv.sound_run {entries : List MmapEntry} {c c' : Client}
    (hstart : Start L entries base size c)
    (hrun : Reaches (Step L base size (fun _ _ => True) (SoundFree L base size)) c c') :
    ∃ free, Inv L base size c' free := by
  have hm := hstart.managed
  refine hrun.invariant (fun c => ∃ free, Inv L base size c free) ⟨_, (Inv.start hstart).1⟩ ?_
  rintro a b - ⟨free, h⟩ hstep
  cases hstep with
  | kalloc h1 h2 _ hcall => exact h.kalloc hm h1 h2 hcall
  | kfree hsound hcall => exact ⟨_, (h.kfree hm hsound hcall).2.2⟩
  | others hv hlock hw => exact ⟨free, (h.others hm hv hlock hw).1⟩

/-- **The pages stay partitioned in every run whose frees merge soundly.** In particular live
blocks do not overlap each other or a free block, and the next call returns. -/
theorem partitioned_of_sound_merges {entries : List MmapEntry} {c c' : Client}
    (hstart : Start L entries base size c)
    (hrun : Reaches (Step L base size (fun _ _ => True) (SoundFree L base size)) c c') :
    Partitioned L c'.s.mem base size c'.live ∧
    c'.live.Pairwise (fun r r' => r.addr + chunkBytes (orderOf r.size) ≤ r'.addr ∨
      r'.addr + chunkBytes (orderOf r'.size) ≤ r.addr) ∧
    (∀ r ∈ c'.live, ∀ k a, k ≤ 10 → OnList L c'.s.mem k a →
      a + chunkBytes k ≤ r.addr ∨ r.addr + chunkBytes (orderOf r.size) ≤ a) ∧
    (∀ sz, 1 ≤ sz → sz ≤ 0x400000 → ∃ c'', c'.kalloc L sz = some c'') ∧
    (∀ r ∈ c'.live, SoundFree L base size c'.s.mem r → ∃ c'', c'.kfree L r = some c'') := by
  have hm := hstart.managed
  obtain ⟨free, h⟩ := Inv.sound_run hstart hrun
  refine ⟨h.partitioned, Tiles.pairwise h.partition.tiles, ?_, ?_, ?_⟩
  · intro r hr k a hk ha
    exact h.partition.own_apart (c := r.chunk) (by rw [liveChunks_erase hr]; simp) hk
      ((onList_iff h.rep hk).mp ha)
  · intro sz _ hsz
    obtain ⟨m', ⟨s', hcall, -, -⟩, -⟩ :=
      buddyKalloc_returns h.ready (le_four_mb hsz) h.rep (h.partition.usable hm.paged)
    exact ⟨_, by unfold Client.kalloc; rw [hcall]⟩
  · intro r hr hsound
    obtain ⟨h1, h2⟩ := h.sizes r hr
    have hp := h.partition
    rw [liveChunks_erase hr] at hp
    obtain ⟨m', ⟨s', hcall, -, -⟩, -⟩ := buddyKfree_returns h.ready (by omega) (le_four_mb h2)
      h.rep (hp.usable hm.paged)
        (hsound.mono (fun j a _ hj ha => (onList_iff h.rep (by omega)).mp ha))
    exact ⟨_, by unfold Client.kfree; rw [if_pos hr, hcall]⟩

/-! ## The bits, over whole runs -/

theorem BitInv.normalize {m : Mem} {h : Heap} (hr : Rep L m base (size / pageSize) h)
    (hb : BitInv base size h) : BitInv base size ⟨h.free, bitOf L m⟩ :=
  hb.congr (fun _ _ => rfl) (fun k _ c _ => hr.bits _ (pairPos_lt _ _ c k))

/-- After initialisation no pair has a block on a list below order 10 and no bit is set. -/
theorem BitInv.init (hm : Managed L base size) (hsize : size ≤ 2 ^ 44) {bit : Nat → Bool}
    (hbit : ∀ p, p < size / pageSize → bit p = false) :
    BitInv base size ⟨initFree base size, bit⟩ := by
  intro k hk c hc
  have hnil : initFree base size k = [] := Function.update_of_ne (by omega) _ _
  have hpos := chunkBytes_pos (k + 1)
  have hge := hc.ge
  have hle := hc.le
  -- the pair's bit is among the pages' bits
  have hlt : pairPos base (size / pageSize) c k < size / pageSize := by
    rw [pairPos_eq hm hsize (by omega) hge (by omega)]
    have h1 : (c - base) / chunkBytes (k + 1) < size / pageSize / 2 ^ (k + 1) :=
      Nat.div_lt_of_lt_mul (by rw [← hm.blocks (show k + 1 ≤ 10 by omega)]; omega)
    have h2 : size / pageSize / 2 ^ (k + 1) ≤ size / pageSize / 2 ^ k :=
      Nat.div_le_div_left (Nat.pow_le_pow_right (by omega) (by omega)) (Nat.two_pow_pos _)
    have h3 : size / pageSize / 2 ^ k ≤ size / pageSize := Nat.div_le_self _ _
    generalize (c - base) / chunkBytes (k + 1) = x at h1
    generalize size / pageSize / 2 ^ (k + 1) = r₁ at h1 h2
    generalize size / pageSize / 2 ^ k = r at h2 h3
    omega
  simp only [hnil, hbit _ hlt]
  simp

/-- An allocation that pops its own order's list, or splits once from the top, keeps the bits. -/
theorem Inv.kalloc_bits {c c' : Client} {free : Nat → List Nat} {sz : Nat}
    (hm : Managed L base size) (hsize : size ≤ 2 ^ 44) (h : Inv L base size c free)
    (hb : BitInv base size ⟨free, bitOf L c.s.mem⟩) (hsz1 : 1 ≤ sz) (hsz : sz ≤ 0x400000)
    (hown : OwnOrder L c.s.mem sz) (hcall : c.kalloc L sz = some c') :
    ∃ free', Inv L base size c' free' ∧ BitInv base size ⟨free', bitOf L c'.s.mem⟩ := by
  obtain ⟨r, hreq, -, -, hrep⟩ := h.kalloc_rep hm hsz hcall
  have h10 := (orderOf_spec (le_four_mb hsz)).2.1
  suffices hbr : BitInv base size r.2 by
    obtain ⟨free', hinv'⟩ := h.kalloc hm hsz1 hsz hcall
    -- memory holds one heap only
    have hb' := hbr.normalize hrep
    refine ⟨free', hinv', hb'.congr (fun k hk => ?_) (fun _ _ _ _ => rfl)⟩
    exact (hinv'.rep.lists k (by omega)).unique (hrep.lists k (by omega))
  rcases h.partition.alloc (h := ⟨free, bitOf L c.s.mem⟩) (Nat.le_refl (orderOf sz))
    (show orderOf sz + (11 - orderOf sz) = 11 by omega) with
    ⟨heq, -⟩ | ⟨a, j, h1, h2, h3, h4, heq, -⟩
  · rw [hreq, heq]
    exact hb
  · rw [hreq, heq]
    refine BitInv.alloc (h := ⟨free, bitOf L c.s.mem⟩) hm hsize h2 h.partition hb h3 ?_
    have hempty : ∀ k, k ≤ 10 → (c.s.mem (listHead L k) .ptr = 0 ↔ free k = []) := fun k hk => by
      rw [(h.rep.lists k hk).1]
      exact (h.rep.lists k hk).2.first_eq_zero
    rcases hown with hne | h9 | hnone
    · -- the first list looked at has a block
      left
      by_contra hjo
      exact hne ((hempty _ h10).mpr (h4 _ (Nat.le_refl _) (by omega)))
    · omega
    · have := (hempty j h2).mp (hnone j h1 h2)
      simp only at h3
      rw [this] at h3
      exact absurd h3 (by simp)

theorem BitInv.own_order_run {entries : List MmapEntry} {c c' : Client}
    (hstart : Start L entries base size c) (hsize : size ≤ 2 ^ 44)
    (hrun : Reaches (Step L base size (OwnOrder L) (fun _ _ => True)) c c') :
    ∃ free, Inv L base size c' free ∧ BitInv base size ⟨free, bitOf L c'.s.mem⟩ := by
  have hm := hstart.managed
  obtain ⟨hinv, hzero⟩ := Inv.start hstart
  refine hrun.invariant
    (fun c => ∃ free, Inv L base size c free ∧ BitInv base size ⟨free, bitOf L c.s.mem⟩)
    ⟨_, hinv, BitInv.init hm hsize hzero⟩ ?_
  rintro a b - ⟨free, h, hb⟩ hstep
  cases hstep with
  | @kalloc _ sz h1 h2 hown hcall =>
    exact h.kalloc_bits hm hsize hb h1 h2 hown hcall
  | @kfree _ r _ hcall =>
    have hr := Client.kfree_mem hcall
    obtain ⟨-, hsz⟩ := h.sizes r hr
    have hp := h.partition
    rw [liveChunks_erase hr] at hp
    -- exact bits make the merges sound
    obtain ⟨hin1, hin2⟩ := hp.inside (c := r.chunk) (by simp)
    obtain ⟨hs, hb'⟩ := BitInv.release (h := ⟨free, bitOf L a.s.mem⟩) hm hsize
      (orderOf_spec (le_four_mb hsz)).2.1 hp.packed hin1 hin2 hb
    have hsound : SoundFree L base size a.s.mem r :=
      hs.mono (fun j x _ hj hx => (onList_iff h.rep (by omega)).mpr hx)
    obtain ⟨-, hrep, hinv'⟩ := h.kfree hm hsound hcall
    exact ⟨_, hinv', hb'.normalize hrep⟩
  | others hv hlock hw =>
    obtain ⟨hinv', hbits⟩ := h.others hm hv hlock hw
    exact ⟨free, hinv', hb.congr (fun _ _ => rfl) (fun k _ x _ => hbits _ (pairPos_lt _ _ x k))⟩

/-- The bits in memory are exact iff those of the heap it holds are. -/
theorem bitsExact_iff {m : Mem} {h : Heap} (hr : Rep L m base (size / pageSize) h) :
    BitsExact L m base size ↔ BitInv base size h := by
  refine forall₂_congr (fun k hk => forall₂_congr (fun x _ => ?_))
  rw [onList_iff hr (by omega), onList_iff hr (by omega), hr.bits _ (pairPos_lt _ _ _ _)]

/-- **The bits are exact in every run whose allocations split no deeper than from the largest
order to the next**, for ranges whose bit positions fit in 32 bits. Once everything is freed the
lists are those of initialisation. -/
theorem bits_exact_of_own_order {entries : List MmapEntry} {c c' : Client}
    (hstart : Start L entries base size c) (hsize : size ≤ 2 ^ 44)
    (hrun : Reaches (Step L base size (OwnOrder L) (fun _ _ => True)) c c') :
    BitsExact L c'.s.mem base size ∧ Partitioned L c'.s.mem base size c'.live ∧
    (c'.live = [] → ∀ k, k ≤ 10 → ∃ l l', FreeList L c.s.mem k l ∧ FreeList L c'.s.mem k l' ∧
      l'.Perm l) := by
  have hm := hstart.managed
  obtain ⟨free, h, hb⟩ := BitInv.own_order_run hstart hsize hrun
  refine ⟨(bitsExact_iff h.rep).mpr hb, h.partitioned, ?_⟩
  · intro hlive k hk
    have hp := h.partition
    rw [hlive] at hp
    exact ⟨_, _, (Inv.start hstart).1.rep.lists k hk, h.rep.lists k hk,
      BitInv.all_free (h := ⟨free, bitOf L c'.s.mem⟩) hm hb hp hk⟩

/-! ## Runs on a machine with one block of 4MB -/

def smallTable : List MmapEntry := [⟨0x400000, 0x400000, 1⟩]

/-- The client `__init_buddy` leaves there. -/
def booted : Option Client :=
  match initBuddy smallTable smallLayout bootState with
  | .ok ((), s) => some ⟨s, []⟩
  | .error _ => none

theorem booted_start {c : Client} (h : booted = some c) :
    Start smallLayout smallTable 0x400000 0x400000 c := by
  have hb : (0x400000 : Nat) = chunkBytes 10 := chunkBytes_ten.symm
  unfold booted at h
  cases hrun : initBuddy smallTable smallLayout bootState with
  | error e => rw [hrun] at h; exact absurd h (by simp)
  | ok r =>
    rw [hrun] at h
    obtain rfl := Option.some.inj h
    refine ⟨by decide +kernel, ⟨by omega, ⟨1, by omega⟩, ⟨1, by omega⟩, fun p h1 h2 => ?_⟩,
      ⟨bootState, Or.inl rfl, hrun⟩, rfl⟩
    exact decide_eq_true ⟨h1, h2⟩

/-- One page is allocated and freed, then two blocks of two pages are allocated and the first of
them is freed. The bit of order 1 has missed the split of the first call. -/
def mergeRun : Option Client :=
  booted.bind fun c => (c.kalloc smallLayout 4096).bind fun c =>
    (c.kfree smallLayout ⟨0x400000, 4096⟩).bind fun c => (c.kalloc smallLayout 8192).bind fun c =>
      (c.kalloc smallLayout 8192).bind fun c => c.kfree smallLayout ⟨0x400000, 8192⟩

theorem mergeRun_result : (mergeRun.map fun c => (c.live, c.s.mem (listHead smallLayout 2) .ptr))
    = some ([⟨0x402000, 8192⟩], 0x400000) := by
  decide +kernel

/-- **A free merges with a live block**: in the end list 2 holds the four pages at 4MB, two of
which are still handed out. -/
theorem free_merges_live_block : ∃ c c' : Client,
    Start smallLayout smallTable 0x400000 0x400000 c ∧
    Reaches (AnyStep smallLayout 0x400000 0x400000) c c' ∧
    ¬ Partitioned smallLayout c'.s.mem 0x400000 0x400000 c'.live := by
  obtain ⟨c', hrun, hres⟩ := Option.map_eq_some_iff.mp mergeRun_result
  obtain ⟨hlive, hhead⟩ := Prod.mk.inj hres
  obtain ⟨c, hc, hrun⟩ := Option.bind_eq_some_iff.mp hrun
  obtain ⟨c₁, h₁, hrun⟩ := Option.bind_eq_some_iff.mp hrun
  obtain ⟨c₂, h₂, hrun⟩ := Option.bind_eq_some_iff.mp hrun
  obtain ⟨c₃, h₃, hrun⟩ := Option.bind_eq_some_iff.mp hrun
  obtain ⟨c₄, h₄, h₅⟩ := Option.bind_eq_some_iff.mp hrun
  refine ⟨c, c', booted_start hc, ?_, ?_⟩
  · refine Relation.ReflTransGen.head (.kalloc (by omega) (by omega) trivial h₁) ?_
    refine Relation.ReflTransGen.head (.kfree trivial h₂) ?_
    refine Relation.ReflTransGen.head (.kalloc (by omega) (by omega) trivial h₃) ?_
    refine Relation.ReflTransGen.head (.kalloc (by omega) (by omega) trivial h₄) ?_
    exact Relation.ReflTransGen.single (.kfree trivial h₅)
  · rintro ⟨free, hlists, -, -, honce⟩
    obtain ⟨hfirst, hlink⟩ := hlists 2 (by omega)
    rw [hhead] at hfirst
    have hmem : 0x400000 ∈ free 2 := by
      rw [hfirst]
      exact first_mem (fun hnil => by rw [hnil] at hfirst; exact absurd hfirst (by decide))
    have h1 := honce 0x402000 (by omega) (by omega)
    -- the free block and the live one both contain the third page
    have hfree : 0 < (free 2).countP (fun a => a ≤ 0x402000 ∧ 0x402000 < a + chunkBytes 2) :=
      List.countP_pos_iff.mpr ⟨0x400000, hmem, by decide⟩
    have hsum : (free 2).countP (fun a => a ≤ 0x402000 ∧ 0x402000 < a + chunkBytes 2)
        ≤ ∑ k ∈ Finset.range 11,
            (free k).countP (fun a => a ≤ 0x402000 ∧ 0x402000 < a + chunkBytes k) :=
      Finset.single_le_sum
        (f := fun k => (free k).countP (fun a => a ≤ 0x402000 ∧ 0x402000 < a + chunkBytes k))
        (fun _ _ => Nat.zero_le _) (by decide)
    have hcount : c'.live.countP (fun r => r.addr ≤ 0x402000 ∧ 0x402000 < r.addr +
        chunkBytes (orderOf r.size)) = 1 := by
      rw [hlive]
      decide
    unfold holders at h1
    omega

/-- A list of one block. -/
theorem freeList_single {m : Mem} {k a : Nat} (h0 : a ≠ 0) (hhead : m (listHead L k) .ptr = a)
    (hnext : m a .chunkNext = 0) (hprev : m a .chunkPrev = 0) : FreeList L m k [a] :=
  ⟨hhead, h0, hprev, hnext, trivial⟩

theorem splitRun_result : ((booted.bind fun c => c.kalloc smallLayout 4096).map fun c =>
    (c.s.mem (listHead smallLayout 1) .ptr, c.s.mem 0x402000 .chunkNext,
      c.s.mem 0x402000 .chunkPrev,
      bitOf smallLayout c.s.mem (pairPos 0x400000 (0x400000 / pageSize) 0x400000 1)))
    = some (0x402000, 0, 0, false) := by
  decide +kernel

/-- **A split leaves a stale bit**: after the first allocation of a page one block of the pair of
order 1 at 4MB is on its list, and the bit of the pair is clear. -/
theorem split_leaves_bit_stale : ∃ c c' : Client,
    Start smallLayout smallTable 0x400000 0x400000 c ∧
    Reaches (AnyStep smallLayout 0x400000 0x400000) c c' ∧
    ¬ BitsExact smallLayout c'.s.mem 0x400000 0x400000 := by
  obtain ⟨c', hrun, hres⟩ := Option.map_eq_some_iff.mp splitRun_result
  obtain ⟨hhead, hres⟩ := Prod.mk.inj hres
  obtain ⟨hnext, hres⟩ := Prod.mk.inj hres
  obtain ⟨hprev, hbit⟩ := Prod.mk.inj hres
  obtain ⟨c, hc, h₁⟩ := Option.bind_eq_some_iff.mp hrun
  refine ⟨c, c', booted_start hc,
    Relation.ReflTransGen.single (.kalloc (by omega) (by omega) trivial h₁), ?_⟩
  intro hexact
  have hlist : FreeList smallLayout c'.s.mem 1 [0x402000] :=
    freeList_single (by omega) hhead hnext hprev
  have hpair : PairAt 0x400000 0x400000 1 0x400000 := ⟨⟨256, by decide⟩, by omega, by decide⟩
  obtain ⟨hiff, -⟩ := hexact 1 (by omega) 0x400000 hpair
  rw [hbit] at hiff
  refine absurd (hiff.mpr (Or.inr ⟨⟨_, hlist, by decide⟩, ?_⟩)) (by decide)
  rintro ⟨l, hl, hmem⟩
  rw [hl.unique hlist] at hmem
  exact absurd hmem (by decide)

/-- Both halves of the block are allocated. -/
def halvesRun : Option Client :=
  booted.bind fun c => (c.kalloc smallLayout 0x200000).bind fun c => c.kalloc smallLayout 0x200000

theorem halvesRun_result : (halvesRun.map fun c =>
      bitOf smallLayout c.s.mem (pairPos 0x400000 (0x400000 / pageSize) 0x400000 9)) = some false ∧
    ((halvesRun.bind fun c => c.kfree smallLayout ⟨0x400000, 0x200000⟩).map fun c =>
      (c.s.mem (listHead smallLayout 9) .ptr, c.s.mem 0x400000 .chunkNext,
        c.s.mem 0x400000 .chunkPrev)) = some (0x400000, 0, 0) ∧
    ((halvesRun.bind fun c => (c.kfree smallLayout ⟨0x400000, 0x200000⟩).bind fun c =>
      c.kfree smallLayout ⟨0x600000, 0x200000⟩).map fun c => c.live) = some [] := by
  decide +kernel

/-- The run that allocates both halves and frees both, the second free merging them. -/
theorem halvesRun_steps : ∃ c c₁ c₂ c₃ c₄ : Client, booted = some c ∧
    c.kalloc smallLayout 0x200000 = some c₁ ∧ c₁.kalloc smallLayout 0x200000 = some c₂ ∧
    c₂.kfree smallLayout ⟨0x400000, 0x200000⟩ = some c₃ ∧
    c₃.kfree smallLayout ⟨0x600000, 0x200000⟩ = some c₄ ∧ c₄.live = [] ∧
    SoundFree smallLayout 0x400000 0x400000 c₂.s.mem ⟨0x400000, 0x200000⟩ ∧
    SoundFree smallLayout 0x400000 0x400000 c₃.s.mem ⟨0x600000, 0x200000⟩ := by
  obtain ⟨hbit, hlist, hlive⟩ := halvesRun_result
  obtain ⟨c₄, hrun, hlive⟩ := Option.map_eq_some_iff.mp hlive
  obtain ⟨c₂, h₂, hrun⟩ := Option.bind_eq_some_iff.mp hrun
  obtain ⟨c₃, h₃, h₄⟩ := Option.bind_eq_some_iff.mp hrun
  rw [h₂, Option.map_some, Option.some.injEq] at hbit
  rw [h₂, Option.bind_some, h₃, Option.map_some, Option.some.injEq] at hlist
  obtain ⟨hhead, hlist⟩ := Prod.mk.inj hlist
  obtain ⟨hnext, hprev⟩ := Prod.mk.inj hlist
  obtain ⟨c, hc, hrun⟩ := Option.bind_eq_some_iff.mp h₂
  obtain ⟨c₁, h₁, h₂⟩ := Option.bind_eq_some_iff.mp hrun
  have h9 : orderOf 0x200000 = 9 := by decide
  refine ⟨c, c₁, c₂, c₃, c₄, hc, h₁, h₂, h₃, h₄, hlive, ?_, ?_⟩
  · -- the bit is clear, the free stops at its own order
    unfold SoundFree
    simp only [h9]
    intro hset
    rw [hbit] at hset
    exact absurd hset (by decide)
  · unfold SoundFree
    simp only [h9]
    exact fun _ => ⟨⟨_, freeList_single (by omega) hhead hnext hprev, by decide⟩, trivial⟩

theorem partitioned_of_sound_merges_halves : ∃ c c' : Client,
    Start smallLayout smallTable 0x400000 0x400000 c ∧ c'.live = [] ∧
    Partitioned smallLayout c'.s.mem 0x400000 0x400000 c'.live := by
  obtain ⟨c, c₁, c₂, c₃, c₄, hc, h₁, h₂, h₃, h₄, hlive, hs₂, hs₃⟩ := halvesRun_steps
  refine ⟨c, c₄, booted_start hc, hlive, (partitioned_of_sound_merges (booted_start hc) ?_).1⟩
  refine Relation.ReflTransGen.head (.kalloc (by omega) (by omega) trivial h₁) ?_
  refine Relation.ReflTransGen.head (.kalloc (by omega) (by omega) trivial h₂) ?_
  refine Relation.ReflTransGen.head (.kfree hs₂ h₃) ?_
  exact Relation.ReflTransGen.single (.kfree hs₃ h₄)

theorem bits_exact_of_own_order_halves : ∃ c c' : Client,
    Start smallLayout smallTable 0x400000 0x400000 c ∧ c'.live = [] ∧
    BitsExact smallLayout c'.s.mem 0x400000 0x400000 := by
  obtain ⟨c, c₁, c₂, c₃, c₄, hc, h₁, h₂, h₃, h₄, hlive, -, -⟩ := halvesRun_steps
  have h9 : orderOf 0x200000 = 9 := by decide
  refine ⟨c, c₄, booted_start hc, hlive,
    (bits_exact_of_own_order (booted_start hc) (by norm_num) ?_).1⟩
  refine Relation.ReflTransGen.head (.kalloc (by omega) (by omega) (Or.inr (Or.inl h9)) h₁) ?_
  refine Relation.ReflTransGen.head (.kalloc (by omega) (by omega) (Or.inr (Or.inl h9)) h₂) ?_
  refine Relation.ReflTransGen.head (.kfree trivial h₃) ?_
  exact Relation.ReflTransGen.single (.kfree trivial h₄)

end Buddy
end MikroKernel
