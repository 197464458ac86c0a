import MikroKernel.Alloc.PhysAlloc
import MikroKernel.Proof.Alloc.Locks
import MikroKernel.Proof.Buddy.Owners

/-!
# The buddy allocator is a page allocator

The rest of the kernel is verified over a page allocator with a contract (`PhysAlloc`), whose books
are a ghost. `buddy_kalloc` and `buddy_kfree` keep none, so `recordedKalloc` and `recordedKfree` are
the two with the books kept beside them. `Booked` says that the books are right: the blocks on the
free lists and the blocks on the books are in the managed range, aligned and apart. Allocation keeps
that always, and a free if it merges with blocks on the lists only, which `soundFree` tests by
reading the bits and walking the lists.

`buddyPages` puts this together: **the real allocator has the contract** wherever `__init_buddy`
began with installed memory.
-/

set_option autoImplicit false

namespace MikroKernel
namespace Buddy

variable {L : Layout} {base size : Nat} {s s' : KState}

/-! ## The locks -/

/-- Whatever code does, the other locks are as before. -/
class LeavesOthers {α : Type} (id : LockId) (x : K α) : Prop where
  other : ∀ {L : Layout} {s s' : KState} {a : α}, x L s = .ok (a, s') → ∀ j, j ≠ id →
    s'.lock j = s.lock j

namespace LeavesOthers

variable {α β : Type} {id : LockId}

instance ofPlain (x : K α) [Plain x] : LeavesOthers id x := by
  refine ⟨fun hrun j _ => ?_⟩
  rw [Plain.result hrun]

instance bind (x : K α) (f : α → K β) [hx : LeavesOthers id x] [hf : ∀ a, LeavesOthers id (f a)] :
    LeavesOthers id (x >>= f) := by
  refine ⟨fun hrun j hj => ?_⟩
  obtain ⟨a, s₁, h₁, h₂⟩ := K.bind_eq_ok.mp hrun
  exact ((hf a).other h₂ j hj).trans (hx.other h₁ j hj)

instance ite (c : Prop) [Decidable c] (x y : K α) [hx : LeavesOthers id x]
    [hy : LeavesOthers id y] :
    LeavesOthers id (if c then x else y) := by
  split
  · exact hx
  · exact hy

instance locked (x : K α) [hx : LeavesOthers id x] : LeavesOthers id (MikroKernel.locked id x) := by
  refine ⟨fun hrun j hj => ?_⟩
  obtain ⟨s₁, -, hsec, rfl⟩ := locked_ok hrun
  rw [KState.released_lock_ne hj, hx.other hsec j hj, KState.acquired_lock_ne hj]

end LeavesOthers

instance (addr order : Nat) : LeavesOthers .buddyLock (toggleBitmap addr order) := by
  unfold toggleBitmap
  infer_instance

instance (order n idx : Nat) : LeavesOthers .buddyLock (kallocLoop order n idx) := by
  induction n generalizing idx with
  | zero => exact LeavesOthers.ofPlain (pure 0)
  | succ n ih =>
    unfold kallocLoop
    infer_instance

instance (sz : Nat) : LeavesOthers .buddyLock (buddyKalloc sz) := by
  unfold buddyKalloc
  infer_instance

instance (n block order : Nat) : LeavesOthers .buddyLock (mergeLoop n block order) := by
  induction n generalizing block order with
  | zero => exact LeavesOthers.ofPlain (pure (block, order))
  | succ n ih =>
    unfold mergeLoop
    infer_instance

instance (p sz : Nat) : LeavesOthers .buddyLock (buddyKfree p sz) := by
  unfold buddyKfree
  infer_instance

/-! ## The books -/

/-- The entry in the books. -/
def handOut (p n : Nat) : K Unit := fun _ s =>
  .ok ((), { s with blocks := if p = 0 then s.blocks else ⟨p, n⟩ :: s.blocks })

/-- `buddy_kalloc`, with the block recorded. -/
def recordedKalloc (n : Nat) : K Nat := do
  let p ← buddyKalloc n
  handOut p n
  return p

/-- The entry is struck out. -/
def takeBack (p n : Nat) : K Unit := fun _ s => .ok ((), { s with blocks := s.blocks.erase ⟨p, n⟩ })

/-- `buddy_kfree`, with the block taken off the books. -/
def recordedKfree (p n : Nat) : K Unit := do
  buddyKfree p n
  takeBack p n

/-- The blocks on the books, as requests. -/
def requests (bs : List Block) : List Request := bs.map fun b => ⟨b.addr, b.len⟩

/-- The books are right: the lists and the blocks on them are in the range, aligned and apart, and
each block is as long as was asked for. -/
structure Booked (L : Layout) (base size : Nat) (s : KState) : Prop where
  owned : ∃ free, Owned L base size ⟨s, requests s.blocks⟩ free
  len : ∀ b ∈ s.blocks, ∃ k, k ≤ 10 ∧ b.len = chunkBytes k

/-- What the allocator writes: its metadata, and the range. -/
def Realm (L : Layout) (base size a : Nat) : Prop :=
  (L.kernelEnd ≤ a ∧ a < L.kernelEnd + metadataSpan) ∨ Laid base size a

theorem requests_chunk {b : Block} (hlen : ∃ k, k ≤ 10 ∧ b.len = chunkBytes k) :
    (Request.chunk ⟨b.addr, b.len⟩).len = b.len := by
  obtain ⟨k, hk, hb⟩ := hlen
  show chunkBytes (orderOf b.len) = b.len
  rw [hb, orderOf_chunkBytes hk]

theorem mem_requests {b : Block} {bs : List Block} (h : b ∈ bs) :
    (⟨b.addr, b.len⟩ : Request) ∈ requests bs :=
  List.mem_map.mpr ⟨b, h, rfl⟩

/-- The invariant is about the memory, the offset and the lock. -/
theorem Owned.of_same {live : List Request} {free : Nat → List Nat}
    (h : Owned L base size ⟨s, live⟩ free) (hm : s'.mem = s.mem)
    (ho : s'.physMapOffset = s.physMapOffset) (hl : s'.lock .buddyLock = s.lock .buddyLock) :
    Owned L base size ⟨s', live⟩ free := by
  refine ⟨⟨?_, ?_⟩, ?_, h.packed, h.sizes⟩
  · show View s'.physMapOffset
    rw [ho]
    exact h.ready.view
  · show (s'.lock .buddyLock).Free
    rw [hl]
    exact h.ready.free
  · show Rep L s'.mem base (size / pageSize) ⟨free, bitOf L s'.mem⟩
    rw [hm]
    exact h.rep

namespace Booked

/-- A block on the books is in the range. -/
theorem laid (h : Booked L base size s) {b : Block} (hb : b ∈ s.blocks) {a : Nat} (h1 : b.addr ≤ a)
    (h2 : a < b.addr + b.len) : Laid base size a := by
  obtain ⟨free, howned⟩ := h.owned
  refine howned.packed.packs.inside (Request.chunk ⟨b.addr, b.len⟩) ?_ a ⟨h1, ?_⟩
  · rw [liveChunks_erase (mem_requests hb)]
    simp
  · rw [requests_chunk (h.len b hb)]
    exact h2

/-- It is installed memory, and not the page at 0. -/
theorem block (hm : Linkable L base size) (h : Booked L base size s) {b : Block}
    (hb : b ∈ s.blocks) :
    b.addr ≠ 0 ∧ ∀ a, b.addr ≤ a → a < b.addr + b.len → L.phys a = true ∧ Realm L base size a := by
  refine ⟨fun h0 => ?_, fun a h1 h2 => ⟨(hm.laid (h.laid hb h1 h2)).2, Or.inr (h.laid hb h1 h2)⟩⟩
  obtain ⟨k, -, hlen⟩ := h.len b hb
  have hpos := chunkBytes_pos k
  exact (h.laid hb (Nat.le_refl b.addr) (by omega)).1 h0

theorem apart (h : Booked L base size s) : s.blocks.Pairwise Block.Apart := by
  obtain ⟨free, howned⟩ := h.owned
  have hpair := howned.packed.packs.pairwise
  unfold requests at hpair
  rw [List.map_map, List.pairwise_map] at hpair
  refine hpair.imp_of_mem (fun {b c} hb hc hap => ?_)
  simp only [Function.comp_apply] at hap
  rw [requests_chunk (h.len b hb), requests_chunk (h.len c hc)] at hap
  exact hap

/-- What is not metadata and no free block may be written by anybody. -/
theorem frame (hm : Linkable L base size) (h : Booked L base size s) (hv : View s'.physMapOffset)
    (hlock : (s.lock .buddyLock).Free → (s'.lock .buddyLock).Free) (hb : s'.blocks = s.blocks)
    (hw : ∀ a f, s'.mem a f ≠ s.mem a f → Realm L base size a → InBlocks s.blocks a) :
    Booked L base size s' := by
  obtain ⟨free, howned⟩ := h.owned
  have hmeta : ∀ i f, i < metadataSpan →
      s'.mem (L.kernelEnd + i) f = s.mem (L.kernelEnd + i) f := by
    intro i f hi
    by_contra hne
    obtain ⟨b, hb, h1, h2⟩ := hw _ f hne (Or.inl ⟨Nat.le_add_right _ _, Nat.add_lt_add_left hi _⟩)
    exact phys_ne_image (hm.laid (h.laid hb h1 h2)).2 (L.metadata_image i hi) rfl
  have hnode : ∀ k, k ≤ 10 → ∀ a ∈ free k, ∀ f, s'.mem a f = s.mem a f := by
    intro k hk a ha f
    by_contra hne
    have hin := howned.packed.packs.inside ⟨a, k⟩
      (Multiset.mem_add.mpr (Or.inl (mem_freeChunks.mpr ⟨hk, ha⟩))) a
      ⟨Nat.le_refl _, Nat.lt_add_of_pos_right (chunkBytes_pos k)⟩
    obtain ⟨b, hb, h1, h2⟩ := hw a f hne (Or.inr hin)
    have hap := howned.packed.own_apart (c := Request.chunk ⟨b.addr, b.len⟩)
      (by rw [liveChunks_erase (mem_requests hb)]; simp) hk ha
    have hlen := requests_chunk (h.len b hb)
    have hpos := chunkBytes_pos k
    unfold Chunk.len at hlen
    rw [hlen] at hap
    simp only [Request.chunk] at hap
    omega
  obtain ⟨hrep, -⟩ := howned.rep.kept hmeta hnode
  refine ⟨⟨free, ⟨hv, hlock howned.ready.free⟩, hrep, ?_, ?_⟩, ?_⟩
  · rw [hb]
    exact howned.packed
  · rw [hb]
    exact howned.sizes
  · rw [hb]
    exact h.len

/-- What an allocation writes is in the realm, and in no block on the books. -/
theorem writes (hm : Linkable L base size) (h : Booked L base size s) {free : Nat → List Nat}
    (howned : Owned L base size ⟨s, requests s.blocks⟩ free) :
    Writes L ⟨free, bitOf L s.mem⟩ (fun a => Realm L base size a ∧ ¬ InBlocks s.blocks a) := by
  have hmeta : ∀ i, i < metadataSpan → Realm L base size (L.kernelEnd + i) ∧
      ¬ InBlocks s.blocks (L.kernelEnd + i) := by
    refine fun i hi => ⟨Or.inl ⟨Nat.le_add_right _ _, Nat.add_lt_add_left hi _⟩, ?_⟩
    rintro ⟨b, hb, h1, h2⟩
    exact phys_ne_image (hm.laid (h.laid hb h1 h2)).2 (L.metadata_image i hi) rfl
  refine ⟨fun k hk => ?_, fun p hp => ?_, fun k hk c hc a h1 h2 => ⟨Or.inr ?_, ?_⟩⟩
  · have := hmeta (78 + 8 * k) (by unfold metadataSpan; omega)
    rwa [← Nat.add_assoc] at this
  · have := hmeta (78 + 88 + p / 8) (by unfold metadataSpan; omega)
    rwa [← Nat.add_assoc, ← Nat.add_assoc] at this
  · exact howned.packed.packs.inside ⟨c, k⟩
      (Multiset.mem_add.mpr (Or.inl (mem_freeChunks.mpr ⟨hk, hc⟩))) a ⟨h1, h2⟩
  · rintro ⟨b, hb, h3, h4⟩
    have hap := howned.packed.own_apart (c := Request.chunk ⟨b.addr, b.len⟩)
      (by rw [liveChunks_erase (mem_requests hb)]; simp) hk hc
    have hlen := requests_chunk (h.len b hb)
    unfold Chunk.len at hlen
    rw [hlen] at hap
    simp only [Request.chunk] at hap
    omega

/-- **`buddy_kalloc` keeps the books right.** -/
theorem kalloc (hm : Linkable L base size) {k : Nat} (h : Booked L base size s) (hk : k ≤ 10) :
    ∃ p s', recordedKalloc (pageSize * 2 ^ k) L s = .ok (p, s') ∧ Booked L base size s' ∧
      AllocFrame (Realm L base size) s.blocks s s' ∧
      (p = 0 ∧ s'.blocks = s.blocks ∨
        p ≠ 0 ∧ pageSize * 2 ^ k ∣ p ∧ s'.blocks = ⟨p, pageSize * 2 ^ k⟩ :: s.blocks) := by
  have hsz : pageSize * 2 ^ k = chunkBytes k := Nat.mul_comm _ _
  have hle : chunkBytes k ≤ chunkBytes 10 := chunkBytes_le hk
  rw [hsz]
  obtain ⟨free, howned⟩ := h.owned
  obtain ⟨m', ⟨s₁, hrun, hmem, hq⟩, -, hwrites⟩ := buddyKalloc_writes howned.ready hle howned.rep
    (howned.packed.of_laid hm) (h.writes hm howned)
  obtain ⟨p, hp⟩ : ∃ p, p = (Heap.alloc (pairPos base (size / pageSize)) (orderOf (chunkBytes k))
    (11 - orderOf (chunkBytes k)) (orderOf (chunkBytes k)) ⟨free, bitOf L s.mem⟩).1 := ⟨_, rfl⟩
  rw [← hp] at hrun
  obtain ⟨s', hs'⟩ : ∃ s', s' = { s₁ with
    blocks := if p = 0 then s₁.blocks else ⟨p, chunkBytes k⟩ :: s₁.blocks } := ⟨_, rfl⟩
  have hblocks : s'.blocks = if p = 0 then s.blocks else ⟨p, chunkBytes k⟩ :: s.blocks := by
    rw [hs', ← hq.blocks]
  -- the books gain what the client gains
  have hcall : Client.kalloc L (chunkBytes k) ⟨s, requests s.blocks⟩
      = some ⟨s₁, requests s'.blocks⟩ := by
    unfold Client.kalloc
    rw [hrun]
    simp only
    rw [hblocks]
    split <;> rfl
  obtain ⟨free', howned'⟩ := howned.kalloc hm hcall
  have hsame : Owned L base size ⟨s', requests s'.blocks⟩ free' :=
    Owned.of_same howned' (by rw [hs']) (by rw [hs']) (by rw [hs'])
  refine ⟨p, s', ?_, ⟨⟨free', hsame⟩, ?_⟩, ⟨?_, ?_, ?_, ?_⟩, ?_⟩
  · unfold recordedKalloc
    rw [K.bind_ok hrun, hs']
    rfl
  · rw [hblocks]
    split
    · exact h.len
    · exact List.forall_mem_cons.mpr ⟨⟨k, hk, rfl⟩, h.len⟩
  · rw [hs']
    exact hq.offset
  · intro id hid
    rw [hs']
    exact LeavesOthers.other hrun id hid
  · intro id hfree
    rw [hs']
    exact hq.free id hfree
  · intro a f hne
    refine hwrites a f ?_
    rw [← hmem]
    rwa [hs'] at hne
  · by_cases hp0 : p = 0
    · exact Or.inl ⟨hp0, by rw [hblocks, if_pos hp0]⟩
    · rw [if_neg hp0] at hblocks
      refine Or.inr ⟨hp0, ?_, hblocks⟩
      have hal := (howned'.packed.aligned (Request.chunk ⟨p, chunkBytes k⟩) (by
        rw [hblocks]
        show Request.chunk ⟨p, chunkBytes k⟩
          ∈ freeChunks free' + liveChunks (⟨p, chunkBytes k⟩ :: requests s.blocks)
        rw [liveChunks_cons]
        simp)).2
      rwa [show (Request.chunk ⟨p, chunkBytes k⟩).order = k from orderOf_chunkBytes hk] at hal

/-- **`buddy_kfree` of a block on the books keeps them right**, if it merges only with blocks on the
lists. -/
theorem kfree (hm : Linkable L base size) {p sz : Nat} (h : Booked L base size s)
    (hmem : (⟨p, chunkBytes (orderOf sz)⟩ : Block) ∈ s.blocks) (h0 : sz ≠ 0)
    (hsz : sz ≤ chunkBytes 10) (hsound : SoundFree L base size s.mem ⟨p, sz⟩) :
    ∃ s', buddyKfree p sz L s = .ok ((), s') ∧
      Booked L base size { s' with blocks := s.blocks.erase ⟨p, chunkBytes (orderOf sz)⟩ } ∧
      AllocFrame (Realm L base size) (s.blocks.erase ⟨p, chunkBytes (orderOf sz)⟩) s s' ∧
      s'.blocks = s.blocks := by
  obtain ⟨b, hb⟩ : ∃ b : Block, b = ⟨p, chunkBytes (orderOf sz)⟩ := ⟨_, rfl⟩
  rw [← hb] at hmem ⊢
  have h10 := (orderOf_spec hsz).2.1
  obtain ⟨free, howned⟩ := h.owned
  -- the books are those of the other blocks and this one
  have hperm : (requests s.blocks).Perm (⟨b.addr, b.len⟩ :: requests (s.blocks.erase b)) :=
    (List.perm_cons_erase hmem).map _
  have hchunk : Request.chunk ⟨b.addr, b.len⟩ = ⟨p, orderOf sz⟩ := by
    rw [hb]
    show (⟨p, orderOf (chunkBytes (orderOf sz))⟩ : Chunk) = _
    rw [orderOf_chunkBytes h10]
  have hlive : liveChunks (requests s.blocks)
      = ⟨p, orderOf sz⟩ ::ₘ liveChunks (requests (s.blocks.erase b)) := by
    rw [← hchunk]
    exact Multiset.coe_eq_coe.mpr (hperm.map Request.chunk)
  have hpacked := howned.packed
  rw [hlive] at hpacked
  have hs : MergeSound (pairPos base (size / pageSize)) (fun j a => a ∈ free j) (10 - orderOf sz)
      (bitOf L s.mem) p (orderOf sz) :=
    hsound.mono (fun j a _ hj ha => (onList_iff howned.rep (by omega)).mp ha)
  -- what it writes is not in the other blocks
  have hothers : ∀ a, p ≤ a → a < p + chunkBytes (orderOf sz) →
      ¬ InBlocks (s.blocks.erase b) a := by
    rintro a h1 h2 ⟨c, hc, h3, h4⟩
    have hpair := ((List.perm_cons_erase hmem).pairwise_iff (fun hap => Or.symm hap)).mp h.apart
    have hap := (List.pairwise_cons.mp hpair).1 c hc
    rw [hb] at hap
    simp only at hap
    omega
  have hw := h.writes hm howned
  have hsub : ∀ {a}, InBlocks (s.blocks.erase b) a → InBlocks s.blocks a :=
    fun ⟨c, hc, hin⟩ => ⟨c, List.mem_of_mem_erase hc, hin⟩
  have hw' : Writes L ⟨free, bitOf L s.mem⟩ (fun a => Realm L base size a ∧
      ¬ InBlocks (s.blocks.erase b) a) :=
    ⟨fun k hk => ⟨(hw.head k hk).1, fun hin => (hw.head k hk).2 (hsub hin)⟩,
      fun q hq => ⟨(hw.byte q hq).1, fun hin => (hw.byte q hq).2 (hsub hin)⟩,
      fun k hk c hc a h1 h2 => ⟨(hw.free k hk c hc a h1 h2).1,
        fun hin => (hw.free k hk c hc a h1 h2).2 (hsub hin)⟩⟩
  rw [← freeOrder_eq hsz] at hpacked hs hothers h10
  obtain ⟨m', ⟨s', hrun, hmem', hq⟩, hrep, hwrites⟩ :=
    buddyKfree_writes howned.ready h0 (le_of_four_mb hsz)
    howned.rep (hpacked.of_laid hm) hs hw'
      (fun a h1 h2 => ⟨Or.inr (h.laid hmem (by rw [hb]; exact h1)
      (by rw [hb, ← freeOrder_eq hsz]; exact h2)), hothers a h1 h2⟩)
  have hpacked' := Packed.release (h := ⟨free, bitOf L s.mem⟩) h10 hpacked hs
  rw [← hmem'] at hrep hwrites
  refine ⟨s', hrun, ⟨⟨_, ⟨hq.offset ▸ howned.ready.view, hq.free _ howned.ready.free⟩,
    hrep.normalize, hpacked', ?_⟩, fun c hc => h.len c (List.mem_of_mem_erase hc)⟩,
    ⟨hq.offset, ?_, hq.free, hwrites⟩, hq.blocks⟩
  · exact fun r hr => howned.sizes r (hperm.mem_iff.mpr (List.mem_cons_of_mem _ hr))
  · exact fun id hid => LeavesOthers.other hrun id hid

/-- The locks of others are no part of the books. -/
theorem of_same (h : Booked L base size s) (hm : s'.mem = s.mem) (hb : s'.blocks = s.blocks)
    (ho : s'.physMapOffset = s.physMapOffset) (hl : s'.lock .buddyLock = s.lock .buddyLock) :
    Booked L base size s' := by
  obtain ⟨free, howned⟩ := h.owned
  refine ⟨⟨free, ?_⟩, ?_⟩
  · rw [hb]
    exact Owned.of_same howned hm ho hl
  · rw [hb]
    exact h.len

end Booked

/-! ## The test of a free -/

/-- The nodes of free list `k`. A list of a range has fewer than the range has bytes. -/
def listNodes (L : Layout) (size : Nat) (m : Mem) (k : Nat) : List Nat :=
  Chain.nodes (m · .chunkNext) size (m (listHead L k) .ptr)

/-- The free of `n` bytes at `p` merges with blocks on the lists only. -/
def soundFree (L : Layout) (base size : Nat) (s : KState) (p n : Nat) : Bool :=
  decide (MergeSound (pairPos base (size / pageSize)) (fun k a => a ∈ listNodes L size s.mem k)
    (10 - orderOf n) (bitOf L s.mem) p (orderOf n))

/-- No list of the range is longer than the range. -/
theorem Owned.length_le {c : Client} {free : Nat → List Nat} (h : Owned L base size c free)
    {k : Nat} (hk : k ≤ 10) : (free k).length ≤ size := by
  have hmod := Nat.mod_le size (2 ^ 54)
  have hin : ∀ a ∈ free k, a ∈ Finset.Ico base (base + size) := by
    intro a ha
    have := h.packed.packs.inside ⟨a, k⟩
      (Multiset.mem_add.mpr (Or.inl (mem_freeChunks.mpr ⟨hk, ha⟩))) a
      ⟨Nat.le_refl _, Nat.lt_add_of_pos_right (chunkBytes_pos k)⟩
    exact Finset.mem_Ico.mpr ⟨this.2.1, by have := this.2.2; omega⟩
  rw [← List.toFinset_card_of_nodup (h.packed.nodup hk)]
  calc (free k).toFinset.card
    _ ≤ (Finset.Ico base (base + size)).card :=
        Finset.card_le_card (fun a ha => hin a (List.mem_toFinset.mp ha))
    _ = size := by rw [Nat.card_Ico]; omega

/-- The walk along a list finds the blocks on it. -/
theorem Owned.mem_listNodes {c : Client} {free : Nat → List Nat} (h : Owned L base size c free)
    {k a : Nat} (hk : k ≤ 10) : a ∈ listNodes L size c.s.mem k ↔ OnList L c.s.mem k a := by
  obtain ⟨hhead, hlink⟩ := h.rep.lists k hk
  rw [onList_iff h.rep hk]
  unfold listNodes
  rw [hhead, hlink.nodes_eq, List.take_of_length_le (h.length_le hk)]

/-- **The test decides whether the free is sound.** -/
theorem Booked.soundFree_iff (h : Booked L base size s) (p n : Nat) :
    soundFree L base size s p n = true ↔ SoundFree L base size s.mem ⟨p, n⟩ := by
  obtain ⟨free, howned⟩ := h.owned
  unfold soundFree
  rw [decide_eq_true_iff]
  constructor
  · exact fun hs => hs.mono (fun j a _ hj ha => (howned.mem_listNodes (by omega)).mp ha)
  · exact fun hs => hs.mono (fun j a _ hj ha => (howned.mem_listNodes (by omega)).mpr ha)

/-- **A block on the books goes back**, and off the books. -/
theorem Booked.giveBack (hm : Linkable L base size) {p n : Nat} (h : Booked L base size s)
    (hmem : ⟨p, n⟩ ∈ s.blocks) (hs : soundFree L base size s p n = true) :
    ∃ s', recordedKfree p n L s = .ok ((), s') ∧ Booked L base size s' ∧
      AllocFrame (Realm L base size) (s.blocks.erase ⟨p, n⟩) s s' ∧
      s'.blocks = s.blocks.erase ⟨p, n⟩ := by
  obtain ⟨k, hk, hlen⟩ := h.len _ hmem
  obtain rfl : n = chunkBytes k := hlen
  have horder := orderOf_chunkBytes hk
  have hpos := chunkBytes_pos k
  obtain ⟨s', hrun, hbooked, hframe, hblocks⟩ :=
    h.kfree hm (by rwa [horder]) (by omega) (chunkBytes_le hk)
    ((h.soundFree_iff p _).mp hs)
  rw [horder] at hbooked hframe
  rw [← hblocks] at hbooked hframe ⊢
  refine ⟨_, by unfold recordedKfree; rw [K.bind_ok hrun]; rfl, hbooked, ?_, rfl⟩
  exact ⟨hframe.offset, hframe.lock, hframe.free, hframe.mem⟩

/-! ## The allocator -/

/-- **The buddy allocator**, where the range is installed memory. -/
def buddyPages (L : Layout) (base size : Nat) (hm : Linkable L base size) : PhysAlloc L where
  kmalloc := recordedKalloc
  kfree := recordedKfree
  managed := Realm L base size
  Ok := Booked L base size
  ok_blocks h _ hb := h.block hm hb
  ok_apart h := h.apart
  ok_frame h hv hl hb hw := h.frame hm hv (hl .buddyLock) hb hw
  kmalloc_spec h hk := h.kalloc hm hk
  sound := soundFree L base size
  kfree_spec h hmem hs := h.giveBack hm hmem hs

/-- `__init_buddy` leaves right books, with nothing on them. -/
theorem initBuddy_booked {entries : List MmapEntry}
    (hrange : managedRange L.kernelEnd entries = (base, size)) (hphys : ∀ p, base ≤ p →
      p < base + size % 2 ^ 54 → L.phys p = true) (hv : View s.physMapOffset) :
    ∃ s', initBuddy entries L s = .ok ((), s') ∧ Booked L base size { s' with blocks := [] } := by
  obtain ⟨s', hrun, -⟩ := initBuddyAt_laid (L := L) hv (linkable_of_range hrange hphys)
  have hinit : initBuddy entries L s = .ok ((), s') := by
    rw [initBuddy_eq, hrange]
    exact hrun
  have hbegan : Began L entries base size ⟨s', []⟩ := ⟨hrange, hphys, ⟨s, hv, hinit⟩, rfl⟩
  have howned := Owned.start hbegan
  exact ⟨s', hinit, ⟨_, ⟨howned.ready.view, howned.ready.free⟩, howned.rep, howned.packed,
    howned.sizes⟩, fun b hb => absurd hb List.not_mem_nil⟩

/-! ### On the small machine -/

theorem smallTable_range :
    managedRange smallLayout.kernelEnd smallTable = (0x400000, 0x400000) := by
  decide +kernel

theorem smallLinkable : Linkable smallLayout 0x400000 0x400000 :=
  linkable_of_range smallTable_range (fun p h1 h2 => smallLayout_phys p h1 (by omega))

/-- The buddy allocator there. -/
def smallPages : PhysAlloc smallLayout := buddyPages smallLayout 0x400000 0x400000 smallLinkable

/-- After the initialisation, with the books. -/
def smallPagesStart : KState :=
  match initBuddy smallTable smallLayout bootState with
  | .ok ((), s) => { s with blocks := [] }
  | .error _ => bootState

theorem smallPagesStart_ok : smallPages.Ok smallPagesStart ∧
    View smallPagesStart.physMapOffset := by
  obtain ⟨s', hrun, hbooked⟩ := initBuddy_booked (s := bootState) smallTable_range
    smallLinkable.phys (Or.inl rfl)
  unfold smallPagesStart
  rw [hrun]
  obtain ⟨free, howned⟩ := hbooked.owned
  exact ⟨hbooked, howned.ready.view⟩

end Buddy
end MikroKernel
