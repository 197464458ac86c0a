import MikroKernel.Proof.Buddy.Runs

/-!
# One call of the buddy allocator

What `buddy_kalloc` and `buddy_kfree` do to free lists that nothing is known of but that they are
lists of blocks that are aligned and apart: where the blocks come from, and what the rest of the
range is used for, does not matter. The pages on the lists are `Reach` of the free blocks; an
allocation takes exactly its block from them and a free adds exactly its block.
-/

set_option autoImplicit false

namespace MikroKernel
namespace Buddy

open Tiling

variable {L : Layout} {s s' : KState} {base size np : Nat} {h : Heap} {own : Multiset Chunk}
    {R : Nat → Prop}

/-- Address `p` is in a block on one of the lists. -/
def FreeAt (free : Nat → List Nat) (p : Nat) : Prop :=
  Reach Chunk.addr Chunk.len (freeChunks free) p

/-- A state of the allocator: the metadata as `__init_buddy` leaves it, for some base and number of
pages, and `NULL`-terminated doubly linked lists of blocks in memory, aligned and apart. -/
structure Lists (L : Layout) (base np : Nat) (s : KState) (h : Heap) : Prop where
  ready : Ready s
  rep : Rep L s.mem base np h
  packed : Packed (Usable L) h.free 0

/-! ## What is covered -/

/-- The block in hand and the lists. -/
def Held (free : Nat → List Nat) (b : Chunk) (p : Nat) : Prop :=
  Reach Chunk.addr Chunk.len (b ::ₘ freeChunks free) p

theorem held_iff {free : Nat → List Nat} {b : Chunk} {p : Nat} :
    Held free b p ↔ Covers Chunk.addr Chunk.len p b ∨ FreeAt free p := reach_cons

/-- A block leaves its list. -/
theorem held_drop {k b p : Nat} {free : Nat → List Nat} (hk : k ≤ 10) (hb : b ∈ free k) :
    Held (Function.update free k ((free k).erase b)) ⟨b, k⟩ p ↔ FreeAt free p := by
  unfold Held FreeAt
  rw [freeChunks_erase hk hb]

theorem freeAt_push {k b p : Nat} {free : Nat → List Nat} (hk : k ≤ 10) :
    FreeAt (Function.update free k (b :: free k)) p ↔ Held free ⟨b, k⟩ p := by
  unfold Held FreeAt
  rw [freeChunks_cons free hk]

/-- The upper half of the block in hand goes to its list. -/
theorem held_half {c level p : Nat} {free : Nat → List Nat} (hk : level ≤ 10) :
    Held (Function.update free level ((c + chunkBytes level) :: free level)) ⟨c, level⟩ p ↔
      Held free ⟨c, level + 1⟩ p := by
  unfold Held
  rw [freeChunks_cons free hk]
  exact reach_halves (b := Chunk.mk c (level + 1)) rfl rfl (chunkBytes_succ level)

/-- The block in hand is joined with its sibling. -/
theorem held_join {c k p : Nat} {free : Nat → List Nat} (hk : k < 10) (hd : chunkBytes k ∣ c)
    (hs : sibling c k ∈ free k) :
    Held (Function.update free k ((free k).erase (sibling c k))) ⟨parent c k, k + 1⟩ p ↔
      Held free ⟨c, k⟩ p := by
  unfold Held
  rw [← freeChunks_erase (show k ≤ 10 by omega) hs]
  rcases pair_cases hd with ⟨hp, hsib, -⟩ | ⟨hp, hsib, -⟩
  · rw [hp]
    refine Iff.symm ?_
    exact reach_halves (b := Chunk.mk c (k + 1)) rfl hsib (chunkBytes_succ k)
  · rw [hp, Multiset.cons_swap]
    refine Iff.symm ?_
    exact reach_halves (b := Chunk.mk (sibling c k) (k + 1)) rfl hsib (chunkBytes_succ k)

theorem held_split {c order level : Nat} (hp : Packed R h.free (⟨c, level⟩ ::ₘ own))
    (hle : order ≤ level) (p : Nat) : Held (Heap.split c order level h).free ⟨c, order⟩ p ↔
    Held h.free ⟨c, level⟩ p := by
  have hkeep := Heap.split_keeps (h := h)
    (P := fun free b => b.order ≤ 10 ∧ (Held free b p ↔ Held h.free ⟨c, level⟩ p)) (c := c) ?_
    ⟨(hp.aligned ⟨c, level⟩ (by simp)).1, Iff.rfl⟩ hle
  · exact hkeep.2
  · rintro free k ⟨hk, hiff⟩
    exact ⟨Nat.le_of_succ_le hk, (held_half (Nat.le_of_succ_le hk)).trans hiff⟩

theorem held_merge {pos : Nat → Nat → Nat} {n c k : Nat} (hp : Packed R h.free (⟨c, k⟩ ::ₘ own))
    (hn : k + n = 10) (hs : MergeSound pos (fun j a => a ∈ h.free j) n h.bit c k) (p : Nat) :
    Held (Heap.merge pos n c k h).2.free (Heap.merge pos n c k h).1 p ↔ Held h.free ⟨c, k⟩ p := by
  have hkeep := Heap.merge_keeps (h := h)
    (P := fun free b => chunkBytes b.order ∣ b.addr ∧ (Held free b p ↔ Held h.free ⟨c, k⟩ p)) ?_
    ⟨(hp.aligned ⟨c, k⟩ (by simp)).2, Iff.rfl⟩ hn hs
  · exact hkeep.2
  · rintro free c k hk hon ⟨hd, hiff⟩
    exact ⟨parent_dvd hd, (held_join hk hd hon).trans hiff⟩

/-- What is owned may be forgotten. -/
theorem Packed.forget {free : Nat → List Nat} (hp : Packed R free own) : Packed R free 0 :=
  hp.le (Multiset.zero_le own)

/-- The lists have what is covered but for the block in hand. -/
theorem Packed.freeAt_iff {free : Nat → List Nat} {b : Chunk} (hp : Packed R free (b ::ₘ 0))
    {p : Nat} :
    FreeAt free p ↔ Held free b p ∧ ¬ Covers Chunk.addr Chunk.len p b := by
  have hpacks := hp.packs
  rw [Multiset.add_cons, add_zero] at hpacks
  exact hpacks.reach_iff

theorem freeAt_of_mem {free : Nat → List Nat} {k b p : Nat} (hk : k ≤ 10) (hb : b ∈ free k)
    (h1 : b ≤ p) (h2 : p < b + chunkBytes k) : FreeAt free p :=
  ⟨⟨b, k⟩, mem_freeChunks.mpr ⟨hk, hb⟩, h1, h2⟩

theorem Packed.freeAt_usable {free : Nat → List Nat} (hp : Packed R free own) {p : Nat}
    (hf : FreeAt free p) :
    R p := by
  obtain ⟨c, hc, hin⟩ := hf
  exact hp.packs.inside c (Multiset.mem_add.mpr (Or.inl hc)) p hin

/-! ## `buddy_kalloc` -/

/-- With nothing on the lists, nothing is touched. -/
theorem kallocLoop_none {order : Nat} : ∀ {n idx : Nat} {s : KState}, Ready s →
    Rep L s.mem base np h →
    idx + n = 11 → (∀ j, idx ≤ j → j ≤ 10 → h.free j = []) →
    Returns L (kallocLoop order n idx) s 0 s.mem := by
  intro n
  induction n with
  | zero => exact fun _ _ _ _ => Returns.pure 0
  | succ n ih =>
    intro idx s hs hr hn hnone
    obtain ⟨s₁, hrun, hmem, hq⟩ := Edits.locked hs.free
      (popSection_empty order (show idx ≤ 10 by omega) hr (hnone idx (Nat.le_refl _) (by omega)))
    obtain ⟨s₂, hrun₂, hmem₂, hq₂⟩ := ih (hs.quiet hq) (by rwa [hmem])
      (show idx + 1 + n = 11 by omega)
      (fun j h1 h2 => hnone j (by omega) h2)
    refine ⟨s₂, ?_, hmem₂.trans hmem, hq.trans hq₂⟩
    unfold kallocLoop
    rw [K.bind_ok hrun, if_pos rfl]
    exact hrun₂

theorem buddyKalloc_none {sz : Nat} (hs : Ready s) (hr : Rep L s.mem base np h)
    (hsz : sz ≤ chunkBytes 10) (hnone : ∀ j, orderOf sz ≤ j → j ≤ 10 → h.free j = []) :
    Returns L (buddyKalloc sz) s 0 s.mem := by
  have h10 := (orderOf_spec hsz).2.1
  refine Returns.bind_edits (Edits.of_eq (fun s => rfl)) ?_
  refine Returns.bind_edits (selectOrder_edits (le_of_four_mb hsz)) ?_
  refine Returns.bind_edits (Edits.load (image_metadata L) hr.maxOrder) ?_
  rw [if_neg (by omega)]
  exact kallocLoop_none hs hr (by omega) hnone

/-- What `buddy_kalloc` has done when it returns the block at `c`. -/
structure Takes (L : Layout) (base np order : Nat) (h : Heap) (c : Nat) (s' : KState) (h' : Heap) :
    Prop where
  lists : Lists L base np s' h'
  ne_zero : c ≠ 0
  aligned : chunkBytes order ∣ c
  part : ∃ j b, order ≤ j ∧ j ≤ 10 ∧ b ∈ h.free j ∧ b ≤ c ∧ c + chunkBytes order ≤ b + chunkBytes j
  exact : ∀ p, FreeAt h'.free p ↔ FreeAt h.free p ∧ ¬ (c ≤ p ∧ p < c + chunkBytes order)

theorem buddyKalloc_takes {sz : Nat} (hl : Lists L base np s h) (hsz : sz ≤ chunkBytes 10)
    (hsome : ∃ j, orderOf sz ≤ j ∧ j ≤ 10 ∧ h.free j ≠ []) :
    ∃ c s' h', buddyKalloc sz L s = .ok (c, s') ∧ Takes L base np (orderOf sz) h c s' h' := by
  obtain ⟨-, h10, -⟩ := orderOf_spec hsz
  obtain ⟨m', ⟨s', hrun, hmem, hq⟩, hrep⟩ := buddyKalloc_returns hl.ready hsz hl.rep hl.packed
  have hcases := Heap.alloc_cases (h := h) (pairPos base np) (orderOf sz)
    (show orderOf sz + (11 - orderOf sz) = 11 by omega)
  obtain ⟨c, j, hj1, hj2, hc, -, heq⟩ := hcases.resolve_left (fun hno => by
    obtain ⟨j, hj1, hj2, hne⟩ := hsome
    exact hne (hno.2 j hj1 hj2))
  rw [heq] at hrun hrep
  have htake := hl.packed.take hj2 hc
  have hsplit :
      Packed (Usable L) (Heap.split c (orderOf sz) j (h.drop j c)).free (⟨c, orderOf sz⟩ ::ₘ 0) :=
    Packed.split (h := h.drop j c) htake hj1
  have hmemc : (⟨c, orderOf sz⟩ : Chunk) ∈
      freeChunks (Heap.split c (orderOf sz) j (h.drop j c)).free + (⟨c, orderOf sz⟩ ::ₘ 0) := by
        simp
  refine ⟨c, s', _, hrun, ⟨hl.ready.quiet hq, hmem ▸ hrep, ?_⟩, (hsplit.usable hmemc).1,
    (hsplit.aligned _ hmemc).2, ⟨j, c, hj1, hj2, hc, Nat.le_refl c, ?_⟩, fun p => ?_⟩
  · exact hsplit.forget
  · have := chunkBytes_le hj1
    omega
  · rw [Heap.flip_free, hsplit.freeAt_iff, held_split (h := h.drop j c) htake hj1]
    exact and_congr_left' (held_drop hj2 hc)

/-- **A call of `buddy_kalloc`.** The order is the least that will do. If no list from there on has
a block the call returns `NULL` and memory is as before; else it takes exactly its block from the
free pages and leaves lists of the same kind. -/
theorem kalloc_step {sz : Nat} (hl : Lists L base np s h) (h2 : sz ≤ 0x400000) :
    IsLeast {k | sz ≤ chunkBytes k} (orderOf sz) ∧ orderOf sz ≤ 10 ∧
    ((∀ j, orderOf sz ≤ j → j ≤ 10 → h.free j = []) →
      ∃ s', buddyKalloc sz L s = .ok (0, s') ∧ s'.mem = s.mem ∧ Quiet s s') ∧
    ((∃ j, orderOf sz ≤ j ∧ j ≤ 10 ∧ h.free j ≠ []) →
      ∃ c s' h', buddyKalloc sz L s = .ok (c, s') ∧ Takes L base np (orderOf sz) h c s' h') := by
  have hsz : sz ≤ chunkBytes 10 := by
    rw [chunkBytes_ten]
    exact h2
  obtain ⟨-, h10, hle⟩ := orderOf_spec hsz
  have hleast : IsLeast {k | sz ≤ chunkBytes k} (orderOf sz) := by
    refine ⟨hle, fun k hk => ?_⟩
    by_contra hlt
    have := (orderOf_some (le_of_four_mb hsz)).2.2 k (by omega)
    exact absurd hk (by simp only [Set.mem_ofPred_eq]; omega)
  refine ⟨hleast, h10, fun hnone => ?_, buddyKalloc_takes hl hsz⟩
  obtain ⟨s₁, hrun₁, hmem₁, hq₁⟩ := buddyKalloc_none hl.ready hl.rep hsz hnone
  exact ⟨s₁, hrun₁, hmem₁, hq₁⟩

/-- The booted machine has one block of 4MB, and a page is cut from it. -/
theorem kalloc_step_page : ∃ c : Client, booted = some c ∧ ∃ h p s' h',
    Lists smallLayout 0x400000 (0x400000 / pageSize) c.s h ∧
    buddyKalloc 4096 smallLayout c.s = .ok (p, s') ∧
    Takes smallLayout 0x400000 (0x400000 / pageSize) (orderOf 4096) h p s' h' := by
  have hboot : booted.isSome = true := by
    decide +kernel
  obtain ⟨c, hc⟩ := Option.isSome_iff_exists.mp hboot
  have hstart := booted_start hc
  obtain ⟨hinv, -⟩ := Inv.start hstart
  have hp := hinv.partition
  rw [hstart.none] at hp
  have hl : Lists smallLayout 0x400000 (0x400000 / pageSize) c.s
      ⟨initFree 0x400000 0x400000, bitOf smallLayout c.s.mem⟩ :=
    ⟨hinv.ready, hinv.rep, hp.usable hstart.managed.paged⟩
  have hlist : initFree 0x400000 0x400000 10 ≠ [] := by
    decide +kernel
  have hsz : 4096 ≤ 0x400000 := by decide
  obtain ⟨p, s', h', hrun, htakes⟩ :=
    (kalloc_step hl hsz).2.2.2 ⟨10, by decide, Nat.le_refl 10, hlist⟩
  exact ⟨c, hc, _, p, s', h', hl, hrun, htakes⟩

/-! ## `buddy_kfree` -/

/-- A block that is apart from the free ones is put in hand. -/
theorem Packed.hold {free : Nat → List Nat} {b : Chunk} (hp : Packed R free 0) (hk : b.order ≤ 10)
    (hd : chunkBytes b.order ∣ b.addr)
    (hin : ∀ p, b.addr ≤ p → p < b.addr + chunkBytes b.order → R p ∧ ¬ FreeAt free p) :
    Packed R free (b ::ₘ 0) := by
  obtain ⟨hpacks, ha⟩ := hp
  rw [add_zero] at hpacks ha
  refine ⟨⟨?_, ?_, fun p => ?_⟩, ?_⟩
  · intro c hc
    exact chunkBytes_pos c.order
  · intro c hc p hcov
    rw [Multiset.add_cons, add_zero] at hc
    rcases Multiset.mem_cons.mp hc with rfl | hc
    · exact (hin p hcov.1 hcov.2).1
    · exact hpacks.inside c hc p hcov
  · rw [Multiset.add_cons, add_zero, Multiset.countP_cons]
    by_cases hcov : Covers Chunk.addr Chunk.len p b
    · have hfree : (freeChunks free).countP (Covers Chunk.addr Chunk.len p) = 0 :=
        Multiset.countP_eq_zero.mpr (fun c hc hpc => (hin p hcov.1 hcov.2).2 ⟨c, hc, hpc⟩)
      rw [hfree, if_pos hcov]
    · rw [if_neg hcov]
      exact hpacks.once p
  · intro c hc
    rw [Multiset.add_cons, add_zero] at hc
    rcases Multiset.mem_cons.mp hc with rfl | hc
    · exact ⟨hk, hd⟩
    · exact ha c hc

/-- A free adds its block to the free pages. -/
theorem freeAt_release {pos : Nat → Nat → Nat} {c k : Nat} (hk : k ≤ 10)
    (hp : Packed R h.free (⟨c, k⟩ ::ₘ own))
    (hs : MergeSound pos (fun j a => a ∈ h.free j) (10 - k) h.bit c k) (p : Nat) :
    FreeAt (Heap.release pos c k h).free p ↔ FreeAt h.free p ∨ (c ≤ p ∧ p < c + chunkBytes k) := by
  rw [← Heap.entry_free h pos c k] at hp
  have hmerge := held_merge hp (by omega) hs.entry p
  rw [Heap.entry_free] at hmerge
  unfold Heap.release
  refine (freeAt_push (Heap.merge_order.2.trans (by omega))).trans (hmerge.trans ?_)
  rw [held_iff, or_comm]
  rfl

/-- What is asked of a call of `buddy_kfree`: the size selects the order of a block of the range
that is aligned and apart from the free ones. -/
structure Freed (base size : Nat) (free : Nat → List Nat) (c sz : Nat) : Prop where
  pos : 1 ≤ sz
  le : sz ≤ 2 ^ 63
  aligned : chunkBytes (freeOrder sz) ∣ c
  ge : base ≤ c
  inside : c + chunkBytes (freeOrder sz) ≤ base + size
  apart : ∀ p, c ≤ p → p < c + chunkBytes (freeOrder sz) → ¬ FreeAt free p

/-- What `buddy_kfree` has done when it returns. -/
structure Gives (L : Layout) (base size order : Nat) (h : Heap) (c : Nat) (s' : KState)
    (h' : Heap) : Prop where
  lists : Lists L base (size / pageSize) s' h'
  bits : BitInv base size h'
  exact : ∀ p, FreeAt h'.free p ↔ FreeAt h.free p ∨ (c ≤ p ∧ p < c + chunkBytes order)
  /-- every block that was unlinked was on the list it was unlinked from -/
  merges : MergeSound (pairPos base (size / pageSize)) (fun j a => a ∈ h.free j)
    (10 - order) h.bit c order

/-- **Every call of `buddy_kfree` on a range keeps the lists and the bits** and adds exactly its
block to the free pages. -/
def KfreeSteps (L : Layout) (base size : Nat) : Prop :=
  ∀ s h c sz, Lists L base (size / pageSize) s h → BitInv base size h →
    Freed base size h.free c sz →
    ∃ s' h', buddyKfree c sz L s = .ok ((), s') ∧ Gives L base size (freeOrder sz) h c s' h'

theorem Freed.held {c sz : Nat} (hf : Freed base size h.free c sz) (hm : Managed L base size)
    (hp : Packed (Usable L) h.free 0) : Packed (Usable L) h.free (⟨c, freeOrder sz⟩ ::ₘ 0) := by
  refine hp.hold (freeOrder_le sz) hf.aligned
    (fun p h1 h2 => ⟨hm.paged.usable ?_, hf.apart p h1 h2⟩)
  have hge := hf.ge
  have hin := hf.inside
  simp only at h1 h2
  omega

/-- With a bit for each pair. -/
theorem kfree_steps_small (hm : Managed L base size) (hsize : size ≤ 2 ^ 44) :
    KfreeSteps L base size := by
  intro s h c sz hl hb hf
  have hp := hf.held hm hl.packed
  obtain ⟨hsound, hbits⟩ := hb.release hm hsize (freeOrder_le sz) hp hf.ge hf.inside
  obtain ⟨m', ⟨s', hrun, hmem, hq⟩, hrep⟩ := buddyKfree_frees hl.ready
    (by have := hf.pos; omega) hf.le hl.rep hp hsound
  refine ⟨s', _, hrun, ⟨hl.ready.quiet hq, hmem ▸ hrep, hp.release (freeOrder_le sz) hsound⟩, hbits,
    ?_, hsound⟩
  exact freeAt_release (freeOrder_le sz) hp hsound

/-! ### Where positions wrap around

Beyond `2 ^ 32` pages the first pair and the pair `2 ^ 44` bytes above it have the same bit. -/

/-- Memory with nothing on the lists and a cleared bitmap. -/
def emptyMem (L : Layout) (base np : Nat) : Mem := fun a f =>
  match f with
  | .freeListsPtr => L.kernelEnd + metadataSize
  | .bitmapPtr => L.kernelEnd + metadataSize + 11 * 8
  | .baseAddress => base
  | .maxOrder => 10
  | .word32 => orderOffset np ((a - (L.kernelEnd + 34)) / 4)
  | _ => 0

def emptyHeap : Heap := ⟨fun _ => [], fun _ => false⟩

def emptyState (L : Layout) (base np : Nat) : KState := { bootState with mem := emptyMem L base np }

theorem emptyHeap_freeAt (p : Nat) : ¬ FreeAt emptyHeap.free p := by
  rintro ⟨c, hc, -⟩
  exact absurd (mem_freeChunks.mp hc).2 (by simp [emptyHeap])

theorem emptyState_lists (L : Layout) (base np : Nat) :
    Lists L base np (emptyState L base np) emptyHeap := by
  refine ⟨⟨Or.inl rfl, rfl⟩, ⟨rfl, rfl, rfl, rfl, fun k _ => ?_, fun k _ => ⟨rfl, trivial⟩,
    fun p _ => ?_⟩, ?_⟩
  · show orderOffset np ((orderOffsetAddr L.kernelEnd k - (L.kernelEnd + 34)) / 4)
      = orderOffset np k
    rw [show (orderOffsetAddr L.kernelEnd k - (L.kernelEnd + 34)) / 4 = k by
      unfold orderOffsetAddr
      omega]
  · exact Nat.zero_testBit _
  · have hnone : freeChunks emptyHeap.free + 0 = 0 := by
      rw [add_zero]
      exact Multiset.eq_zero_of_forall_notMem
        (fun c hc => by simpa [emptyHeap] using (mem_freeChunks.mp hc).2)
    refine ⟨⟨?_, ?_, fun p => ?_⟩, ?_⟩
    all_goals rw [hnone]; simp

theorem emptyHeap_bits (base size : Nat) : BitInv base size emptyHeap := by
  intro k _ c _
  simp [emptyHeap, Xor]

/-- The first page of the range can be given back. -/
theorem emptyHeap_freed (hm : Managed L base size) (hpos : 0 < size) :
    Freed base size emptyHeap.free base 4096 := by
  have hten : chunkBytes 10 ≤ size := Nat.le_of_dvd hpos hm.size_dvd
  have hle : chunkBytes (freeOrder 4096) ≤ chunkBytes 10 := chunkBytes_le (freeOrder_le _)
  refine ⟨by omega, by omega, ?_, Nat.le_refl _, by omega, fun p _ _ => emptyHeap_freeAt p⟩
  exact Nat.dvd_trans (chunkBytes_dvd (freeOrder_le _)) hm.base_dvd

/-- Two pairs with one bit. -/
theorem pairPos_wraps (hm : Managed L base size) (hbig : 2 ^ 44 < size) (np : Nat) :
    pairPos base np (base + 2 ^ 44) 0 = pairPos base np base 0 := by
  have hlt := L.phys_lt _ (hm.phys (base + 2 ^ 44) (by omega) (by omega))
  unfold physTop at hlt
  have hzero : sub64 base base = 0 := by
    unfold sub64
    omega
  have hsub : sub64 (base + 2 ^ 44) base = 2 ^ 44 := by
    unfold sub64
    omega
  unfold pairPos bitPos
  rw [hzero, hsub]
  rfl

/-- **The bit of another pair is flipped.** -/
theorem kfree_breaks_bits (hm : Managed L base size) (hbig : 2 ^ 44 < size) :
    ∃ s', buddyKfree base 4096 L (emptyState L base (size / pageSize)) = .ok ((), s') ∧
      ∀ h', Rep L s'.mem base (size / pageSize) h' → ¬ BitInv base size h' := by
  have hl := emptyState_lists L base (size / pageSize)
  have hf := emptyHeap_freed hm (show 0 < size by omega)
  have horder : freeOrder 4096 = 0 := by decide
  have hsound : MergeSound (pairPos base (size / pageSize)) (fun j a => a ∈ emptyHeap.free j)
      (10 - freeOrder 4096) emptyHeap.bit base (freeOrder 4096) := by
    rw [horder]
    intro hbit
    exact absurd hbit (by simp [emptyHeap])
  obtain ⟨m', ⟨s', hrun, hmem, -⟩, hrep⟩ := buddyKfree_frees hl.ready (by omega) hf.le hl.rep
    (hf.held hm hl.packed) hsound
  have hheap : Heap.release (pairPos base (size / pageSize)) base (freeOrder 4096) emptyHeap
      = (emptyHeap.flip (pairPos base (size / pageSize) base 0)).push 0 base := by
    rw [horder]
    rfl
  rw [hheap] at hrep
  refine ⟨s', hrun, fun h' hr' hb => ?_⟩
  rw [hmem] at hr'
  have hfree : h'.free 0 = [base] := (hr'.lists 0 (by omega)).unique (hrep.lists 0 (by omega))
  have hpos := pairPos_lt base (size / pageSize) base 0
  have hbit : h'.bit (pairPos base (size / pageSize) base 0) = true := by
    rw [← hr'.bits _ hpos, hrep.bits _ hpos]
    simp [Heap.push, Heap.flip, emptyHeap]
  have hpair : PairAt base size 0 (base + 2 ^ 44) := by
    have h10 : chunkBytes 10 ∣ size - 2 ^ 44 :=
      Nat.dvd_sub hm.size_dvd (by rw [chunkBytes_ten]; decide)
    have hten : chunkBytes 10 ≤ size - 2 ^ 44 := Nat.le_of_dvd (by omega) h10
    have hle : chunkBytes 1 ≤ chunkBytes 10 := chunkBytes_le (by omega)
    refine ⟨Nat.dvd_add (Nat.dvd_trans (chunkBytes_dvd (by omega)) hm.base_dvd) ?_, by omega, ?_⟩
    · rw [chunkBytes_eq]
      decide
    · show base + 2 ^ 44 + chunkBytes 1 ≤ base + size
      omega
  have hexact := (hb 0 (by omega) _ hpair).1
  rw [pairPos_wraps hm hbig, hbit, hfree] at hexact
  have hpage := chunkBytes_pos 0
  have hnot : ¬ Xor (base + 2 ^ 44 ∈ [base]) (base + 2 ^ 44 + chunkBytes 0 ∈ [base]) := by
    simp only [List.mem_singleton, Xor]
    omega
  exact hnot (hexact.mp rfl)

/-- **`buddy_kfree` keeps lists and bits on exactly the ranges of up to `2 ^ 44` bytes**: there
every pair has a bit of its own. -/
theorem kfree_steps_iff (hm : Managed L base size) : KfreeSteps L base size ↔ size ≤ 2 ^ 44 := by
  constructor
  · intro hstep
    by_contra hbig
    have hlt : 2 ^ 44 < size := by omega
    obtain ⟨s', h', hrun, hgives⟩ := hstep _ _ _ _ (emptyState_lists L base (size / pageSize))
      (emptyHeap_bits base size) (emptyHeap_freed hm (by omega))
    obtain ⟨s'', hrun', hbreaks⟩ := kfree_breaks_bits hm hlt
    rw [hrun, Except.ok.injEq, Prod.mk.injEq] at hrun'
    exact hbreaks h' (hrun'.2 ▸ hgives.lists.rep) hgives.bits
  · exact kfree_steps_small hm

/-! ### On a small machine and on a large one -/

theorem smallManaged : Managed smallLayout 0x400000 0x400000 := by
  have hb : (0x400000 : Nat) = chunkBytes 10 := chunkBytes_ten.symm
  exact ⟨by omega, ⟨1, by omega⟩, ⟨1, by omega⟩, fun p h1 h2 => decide_eq_true ⟨h1, h2⟩⟩

/-- The first page is given back to an allocator that has nothing, and then its buddy. -/
def smallFrees : Option (KState × KState) :=
  (buddyKfree 0x400000 4096 smallLayout
    (emptyState smallLayout 0x400000 (0x400000 / pageSize))).toOption.bind
    fun r₁ => (buddyKfree 0x401000 4096 smallLayout r₁.2).toOption.map fun r₂ => (r₁.2, r₂.2)

/-- The two are merged, and list 0 is empty again. -/
theorem smallFrees_result : (smallFrees.map fun x =>
      (x.1.mem (listHead smallLayout 0) .ptr, x.2.mem (listHead smallLayout 0) .ptr,
        x.2.mem (listHead smallLayout 1) .ptr, x.2.mem 0x400000 .chunkNext,
        x.2.mem 0x400000 .chunkPrev))
    = some (0x400000, 0, 0x400000, 0, 0) := by
  decide +kernel

theorem kfree_steps_iff_pair : ∃ s₁ h₁ s₂ h₂,
    buddyKfree 0x400000 4096 smallLayout (emptyState smallLayout 0x400000 (0x400000 / pageSize))
    = .ok ((), s₁) ∧
    Gives smallLayout 0x400000 0x400000 (freeOrder 4096) emptyHeap 0x400000 s₁ h₁ ∧
    buddyKfree 0x401000 4096 smallLayout s₁ = .ok ((), s₂) ∧
    Gives smallLayout 0x400000 0x400000 (freeOrder 4096) h₁ 0x401000 s₂ h₂ ∧
    h₂.free 0 = [] ∧ h₂.free 1 = [0x400000] := by
  have hsteps : KfreeSteps smallLayout 0x400000 0x400000 :=
    (kfree_steps_iff smallManaged).mpr (by decide)
  obtain ⟨⟨t₁, t₂⟩, hrun, hres⟩ := Option.map_eq_some_iff.mp smallFrees_result
  obtain ⟨⟨⟨⟩, u₁⟩, hfst, hrun⟩ := Option.bind_eq_some_iff.mp hrun
  obtain ⟨⟨⟨⟩, u₂⟩, hsnd, heq⟩ := Option.map_eq_some_iff.mp hrun
  obtain ⟨rfl, rfl⟩ := Prod.mk.inj heq
  simp only [Prod.mk.injEq] at hres
  obtain ⟨-, hempty, hhead, hnext, hprev⟩ := hres
  obtain ⟨s₁, h₁, hrun₁, hgives₁⟩ := hsteps _ _ _ _ (emptyState_lists _ _ _) (emptyHeap_bits _ _)
    (emptyHeap_freed smallManaged (by decide))
  obtain rfl : u₁ = s₁ := (Prod.mk.inj (Except.ok.inj ((toOption_ok hfst).symm.trans hrun₁))).2
  -- only the first page is free when its buddy is given back
  have horder : freeOrder 4096 = 0 := by decide
  have hfreed : Freed 0x400000 0x400000 h₁.free 0x401000 4096 := by
    refine ⟨by omega, by omega, ?_, by omega, ?_, fun p h1 _ hp => ?_⟩
    · rw [horder, chunkBytes_eq]
      decide
    · rw [horder, chunkBytes_eq]
      decide
    · rcases (hgives₁.exact p).mp hp with hp | hp
      · exact emptyHeap_freeAt p hp
      · rw [horder, chunkBytes_eq] at hp
        omega
  obtain ⟨s₂, h₂, hrun₂, hgives₂⟩ := hsteps _ _ _ _ hgives₁.lists hgives₁.bits hfreed
  obtain rfl : u₂ = s₂ := (Prod.mk.inj (Except.ok.inj ((toOption_ok hsnd).symm.trans hrun₂))).2
  refine ⟨u₁, h₁, u₂, h₂, hrun₁, hgives₁, hrun₂, hgives₂, ?_, ?_⟩
  · exact (hgives₂.lists.rep.lists 0 (by omega)).unique ⟨hempty, trivial⟩
  · exact (hgives₂.lists.rep.lists 1 (by omega)).unique ⟨hhead, by omega, hprev, hnext, trivial⟩

/-- RAM from 4MB on, 4MB more than 16TB of it. -/
def bigLayout : Layout where
  phys p := decide (0x400000 ≤ p ∧ p < 0x800000 + 2 ^ 44)
  image := smallLayout.image
  kernelEnd := smallLayout.kernelEnd
  phys_lt p h := by
    have := of_decide_eq_true h
    unfold physTop
    omega
  image_ge := smallLayout.image_ge
  image_lt := smallLayout.image_lt
  image_alias p h := by
    have := of_decide_eq_true h
    refine decide_eq_false ?_
    unfold kernelImageStart directMapStart
    omega
  metadata_image := smallLayout.metadata_image

theorem bigManaged : Managed bigLayout 0x400000 (0x400000 + 2 ^ 44) := by
  have hb := chunkBytes_ten
  exact ⟨by omega, ⟨1, by omega⟩, ⟨2 ^ 22 + 1, by omega⟩,
    fun p h1 h2 => decide_eq_true ⟨h1, by omega⟩⟩

/-- **More than 16TB**: the page at the base is given back, and the bit of the pair 16TB above is
set with neither of its blocks on a list. -/
theorem kfree_flips_other_pair : Managed bigLayout 0x400000 (0x400000 + 2 ^ 44) ∧ ∃ s h,
    Lists bigLayout 0x400000 ((0x400000 + 2 ^ 44) / pageSize) s h ∧
    BitInv 0x400000 (0x400000 + 2 ^ 44) h ∧
    Freed 0x400000 (0x400000 + 2 ^ 44) h.free 0x400000 4096 ∧
    ∃ s', buddyKfree 0x400000 4096 bigLayout s = .ok ((), s') ∧
      ∀ h', Rep bigLayout s'.mem 0x400000 ((0x400000 + 2 ^ 44) / pageSize) h' →
        ¬ BitInv 0x400000 (0x400000 + 2 ^ 44) h' :=
  ⟨bigManaged, _, _, emptyState_lists _ _ _, emptyHeap_bits _ _,
    emptyHeap_freed bigManaged (by omega), kfree_breaks_bits bigManaged (by omega)⟩

end Buddy
end MikroKernel
