import MikroKernel.Proof.Buddy.Owners
import MikroKernel.Proof.Buddy.Ragged

/-!
# The pages the allocator's metadata is mapped with

`__init_mmu` maps four pages behind the kernel, for the metadata, the heads of the lists and the
bitmap. How long the bitmap is depends on the machine: a bit for each pair of blocks of each order
is a bit for a page, and the four pages hold the bits of 129811 pages (`bytes_mapped_iff`).

`kallocBytes` and `kfreeBytes` are the bytes of the bitmap that a call touches, read off the code as
the call goes.
-/

set_option autoImplicit false

namespace MikroKernel
namespace Buddy

open Run Tiling

variable {L : Layout} {s : KState} {base size np : Nat} {h : Heap} {own : Multiset Chunk}

/-! ## What a call touches -/

/-- `&bitmap[byte_idx]` in `toggle_bitmap(metadata, addr, order)`. -/
def toggledByte (addr order : Nat) (L : Layout) (s : KState) : Nat :=
  s.mem L.kernelEnd .bitmapPtr +
    bitPos (s.mem L.kernelEnd .baseAddress) (s.mem (orderOffsetAddr L.kernelEnd order) .word32)
      addr order / 8

/-- Up to the loops: the order of the size and the largest order. -/
def callOrders (size : Nat) : K (Nat × Nat) := do
  let metadata ← kernelEnd
  let order ← selectOrder size
  let maxOrder ← load metadata .maxOrder
  pure (order, maxOrder)

/-- The bytes `kallocLoop` touches. -/
def kallocLoopBytes (order : Nat) : Nat → Nat → Layout → KState → List Nat
  | 0, _, _, _ => []
  | n + 1, idx, L, s =>
      match locked .buddyLock (popSection idx order) L s with
      | .error _ => []
      | .ok (chunk, s₁) =>
          if chunk = 0 then kallocLoopBytes order n (idx + 1) L s₁
            else [toggledByte chunk order L s₁]

/-- The bytes of the bitmap that `buddy_kalloc(size)` touches. -/
def kallocBytes (size : Nat) (L : Layout) (s : KState) : List Nat :=
  match callOrders size L s with
  | .error _ => []
  | .ok ((order, maxOrder), s₁) =>
      if order > maxOrder then [] else kallocLoopBytes order (maxOrder + 1 - order) order L s₁

/-- The bytes `mergeLoop` touches. -/
def mergeBytes : Nat → Nat → Nat → Layout → KState → List Nat
  | 0, _, _, _, _ => []
  | n + 1, chunk, order, L, s =>
      toggledByte chunk order L s :: match toggleBitmap chunk order L s with
        | .error _ => []
        | .ok (bit, s₁) =>
            if bit ≠ 0 then []
            else match locked .buddyLock (unlinkSection (chunk ^^^ chunkBytes order) chunk order) L
                s₁ with
              | .error _ => []
              | .ok (joined, s₂) => mergeBytes n joined (order + 1) L s₂

/-- The bytes of the bitmap that `buddy_kfree(chunk, size)` touches. -/
def kfreeBytes (chunk size : Nat) (L : Layout) (s : KState) : List Nat :=
  if chunk = 0 ∨ size = 0 then []
  else
    match callOrders size L s with
    | .error _ => []
    | .ok ((wanted, maxOrder), s₁) =>
        let order := if wanted > maxOrder then maxOrder else wanted
        if order = maxOrder then [toggledByte chunk order L s₁]
        else mergeBytes (maxOrder - order) chunk order L s₁

/-- The four pages that `mapImage` maps behind the kernel. -/
def MetadataMapped (L : Layout) (a : Nat) : Prop := L.kernelEnd ≤ a ∧ a < L.kernelEnd + 4 * pageSize

instance (L : Layout) (a : Nat) : Decidable (MetadataMapped L a) :=
  inferInstanceAs (Decidable (_ ∧ _))

/-! ## Where the bits are -/

theorem toggledByte_eq (hr : Rep L s.mem base np h) {addr order : Nat} (hk : order ≤ 10) :
    toggledByte addr order L s = bitmapByte L (pairPos base np addr order) := by
  unfold toggledByte bitmapByte pairPos
  rw [hr.bitmapPtr, hr.baseAddress, hr.offsets order hk]

theorem bitmapByte_mapped {p : Nat} : MetadataMapped L (bitmapByte L p) ↔ p < 129744 := by
  unfold MetadataMapped bitmapByte metadataSize pageSize
  omega

/-- The metadata and the heads take up the first bytes. -/
theorem heads_mapped {i : Nat} (hi : i < metadataSize + 11 * 8) :
    MetadataMapped L (L.kernelEnd + i) := by
  unfold metadataSize at hi
  unfold MetadataMapped pageSize
  omega

theorem orderOffset_le {m n : Nat} (hle : m ≤ n) (hn : n < 2 ^ 32) :
    ∀ k, orderOffset m k ≤ orderOffset n k
  | 0 => Nat.le_refl 0
  | k + 1 => by
    rw [(orderOffset_room (show m < 2 ^ 32 by omega) k).2, (orderOffset_room hn k).2]
    exact Nat.add_le_add (orderOffset_le hle hn k) (Nat.div_le_div_right hle)

/-- The index of a block's pair within its order. -/
theorem pairPos_index {addr order np : Nat} (h1 : base ≤ addr) (h64 : addr < 2 ^ 64) :
    pairPos base np addr order
      = (orderOffset np order + (addr - base) / 2 ^ (12 + order) % 2 ^ 32 / 2) % 2 ^ 32 := by
  have hsub : sub64 addr base = addr - base := by
    unfold sub64
    omega
  unfold pairPos bitPos
  rw [hsub, Nat.shiftRight_eq_div_pow, Nat.shiftRight_eq_div_pow, pow_one]

/-- In 129811 pages no pair has its bit further on. -/
theorem pairPos_mapped (hd : pageSize ∣ size) (hnp : size / pageSize ≤ 129811) {addr order : Nat}
    (hk : order ≤ 10) (h1 : base ≤ addr) (h2 : addr < base + size) (h64 : addr < 2 ^ 64) :
    pairPos base (size / pageSize) addr order < 129744 := by
  have hoff := orderOffset_le hnp (by omega) order
  have hlast : (addr - base) / 2 ^ (12 + order) / 2 ≤ 129810 / 2 ^ (order + 1) := by
    have hpow : 2 ^ (12 + order) * 2 = 0x1000 * 2 ^ (order + 1) := by
      rw [Nat.pow_add, Nat.pow_succ 2 order, Nat.mul_assoc]
    rw [Nat.div_div_eq_div_mul, hpow, ← Nat.div_div_eq_div_mul]
    refine Nat.div_le_div_right ?_
    unfold pageSize at hnp hd
    omega
  have hword : (addr - base) / 2 ^ (12 + order) % 2 ^ 32 / 2
      ≤ (addr - base) / 2 ^ (12 + order) / 2 :=
    Nat.div_le_div_right (Nat.mod_le _ _)
  have hsum : orderOffset 129811 order + 129810 / 2 ^ (order + 1) < 129744 := by
    interval_cases order <;> decide
  rw [pairPos_index h1 h64]
  exact Nat.lt_of_le_of_lt (Nat.mod_le _ _) (by omega)

/-- **The four pages hold the bits of exactly the ranges of up to 129811 pages**, that is of 507MB
and 76KB. -/
theorem bytes_mapped_iff (hb : chunkBytes 10 ∣ base) (hd : pageSize ∣ size)
    (htop : base + size < 2 ^ 64) :
    (∀ addr order, order ≤ 10 → chunkBytes order ∣ addr → Inside base size ⟨addr, order⟩ →
      MetadataMapped L (bitmapByte L (pairPos base (size / pageSize) addr order))) ↔
      size / pageSize ≤ 129811 := by
  constructor
  · intro hall
    by_contra hgt
    rcases Nat.lt_or_ge (size / pageSize) (2 ^ 32) with hnp | hnp
    · -- the last whole block of 4MB
      obtain ⟨last, hlast⟩ : ∃ last, last + 1 = size / pageSize / 2 ^ 10 :=
        ⟨size / pageSize / 2 ^ 10 - 1, by omega⟩
      have hin : Inside base size ⟨base + last * chunkBytes 10, 10⟩ := by
        refine ⟨Nat.le_add_right _ _, ?_⟩
        show base + last * chunkBytes 10 + chunkBytes 10 ≤ base + size
        rw [chunkBytes_ten]
        unfold pageSize at hlast
        omega
      have hmapped := bitmapByte_mapped.mp
        (hall _ 10 (Nat.le_refl 10) (Nat.dvd_add hb (Nat.dvd_mul_left _ _)) hin)
      have hoff := orderOffset_le (show 129812 ≤ size / pageSize by omega) hnp 10
      have hroom := (orderOffset_room hnp 10).1
      have hconst : orderOffset 129812 10 = 129682 := by decide
      have hdiv : (base + last * chunkBytes 10 - base) / 2 ^ (12 + 10) = last := by
        rw [Nat.add_sub_cancel_left, chunkBytes_eq, Nat.mul_div_cancel _ (Nat.two_pow_pos _)]
      have hend := hin.2
      simp only at hend
      rw [pairPos_index (Nat.le_add_right _ _) (by omega), hdiv] at hmapped
      omega
    · -- the 129744th pair of pages
      have hin : Inside base size ⟨base + 259488 * chunkBytes 0, 0⟩ := by
        refine ⟨Nat.le_add_right _ _, ?_⟩
        show base + 259488 * chunkBytes 0 + chunkBytes 0 ≤ base + size
        rw [chunkBytes_eq]
        unfold pageSize at hnp
        omega
      have hmapped := bitmapByte_mapped.mp (hall _ 0 (Nat.zero_le 10)
        (Nat.dvd_add (Nat.dvd_trans (chunkBytes_dvd (Nat.zero_le 10)) hb) (Nat.dvd_mul_left _ _))
          hin)
      have hdiv : (base + 259488 * chunkBytes 0 - base) / 2 ^ (12 + 0) = 259488 := by
        rw [Nat.add_sub_cancel_left, chunkBytes_eq, Nat.mul_div_cancel _ (Nat.two_pow_pos _)]
      have hend := hin.2
      simp only at hend
      rw [pairPos_index (Nat.le_add_right _ _) (by omega), hdiv,
        show orderOffset (size / pageSize) 0 = 0 from rfl]
        at hmapped
      omega
  · intro hnp addr order hk hdvd hin
    obtain ⟨h1, h2⟩ : base ≤ addr ∧ addr + chunkBytes order ≤ base + size := hin
    have hpos := chunkBytes_pos order
    exact bitmapByte_mapped.mpr (pairPos_mapped hd hnp hk h1 (by omega) (by omega))

/-! ## The calls -/

/-- A byte with the bit of a block of the range. -/
def PairByte (L : Layout) (base size np a : Nat) : Prop :=
  ∃ addr order, order ≤ 10 ∧ Laid base size addr ∧ a = bitmapByte L (pairPos base np addr order)

theorem Packed.pairByte {c k : Nat} (hp : Packed (Laid base size) h.free (⟨c, k⟩ ::ₘ own))
    (hr : Rep L s.mem base np h) : PairByte L base size np (toggledByte c k L s) := by
  have hk : k ≤ 10 := (hp.aligned ⟨c, k⟩ (by simp)).1
  exact ⟨c, k, hk,
    hp.packs.inside ⟨c, k⟩ (by simp) c ⟨Nat.le_refl _, Nat.lt_add_of_pos_right (chunkBytes_pos k)⟩,
    toggledByte_eq hr hk⟩

theorem callOrders_ok {sz : Nat} (hr : Rep L s.mem base np h) (hsz : sz ≤ 2 ^ 63) :
    callOrders sz L s = .ok ((orderOf sz, 10), s) := by
  unfold callOrders
  rw [K.bind_ok (kernelEnd_apply L s), K.bind_ok (selectOrder_edits hsz s rfl rfl),
    K.bind_ok (Edits.load (image_metadata L) hr.maxOrder s rfl rfl)]
  rfl

theorem callOrders_stop {sz : Nat} (hsz : 2 ^ 63 < sz) : callOrders sz L s = .error .shift := by
  unfold callOrders
  rw [K.bind_ok (kernelEnd_apply L s), K.bind_apply, selectOrder_stop hsz]

/-- The first list with a block ends the search. -/
theorem kallocLoopBytes_head {order n idx c : Nat} {l : List Nat} (hs : Ready s)
    (hr : Rep L s.mem base np h) (hp : Packed (Usable L) h.free own) (hle : order ≤ idx)
    (hidx : idx ≤ 10) (hl : h.free idx = c :: l) :
    kallocLoopBytes order (n + 1) idx L s = [bitmapByte L (pairPos base np c order)] := by
  have hc : c ∈ h.free idx := by
    rw [hl]
    exact List.mem_cons_self
  obtain ⟨m₁, hedit, hr₁⟩ := popSection_edits hs.view hidx hle hr hp hl
  obtain ⟨s₁, hrun, hmem, -⟩ := Edits.locked hs.free hedit
  have hc0 : c ≠ 0 := (hp.usable (c := ⟨c, idx⟩)
    (Multiset.mem_add.mpr (Or.inl (mem_freeChunks.mpr ⟨hidx, hc⟩)))).1
  rw [← hmem] at hr₁
  unfold kallocLoopBytes
  rw [hrun]
  simp only [if_neg hc0, toggledByte_eq hr₁ (show order ≤ 10 by omega)]

/-- The one byte an allocation touches is that of its block's pair. -/
theorem kallocLoopBytes_laid (hm : Linkable L base size) {order : Nat} :
    ∀ {n idx : Nat} {s : KState}, Ready s → Rep L s.mem base np h →
    Packed (Laid base size) h.free own → order ≤ idx → idx + n = 11 →
    ∀ a ∈ kallocLoopBytes order n idx L s, PairByte L base size np a := by
  intro n
  induction n with
  | zero =>
    intro idx s _ _ _ _ _ a ha
    exact absurd ha (by simp [kallocLoopBytes])
  | succ n ih =>
    intro idx s hs hr hp hle hn a ha
    cases hl : h.free idx with
    | nil =>
      unfold kallocLoopBytes at ha
      obtain ⟨s₁, hrun, hmem, hq⟩ :=
        Edits.locked hs.free (popSection_empty order (show idx ≤ 10 by omega) hr hl)
      rw [hrun] at ha
      simp only [if_pos] at ha
      exact ih (hs.quiet hq) (by rwa [hmem]) hp (by omega) (by omega) a ha
    | cons c l =>
      have hc : c ∈ h.free idx := by
        rw [hl]
        exact List.mem_cons_self
      rw [kallocLoopBytes_head hs hr (hp.of_laid hm) hle (by omega) hl] at ha
      obtain rfl := List.mem_singleton.mp ha
      have htake := hp.take (show idx ≤ 10 by omega) hc
      exact ⟨c, order, by omega, htake.packs.inside ⟨c, idx⟩ (by simp) c
        ⟨Nat.le_refl _, Nat.lt_add_of_pos_right (chunkBytes_pos idx)⟩, rfl⟩

theorem mergeBytes_laid (hm : Linkable L base size) :
    ∀ {n c k : Nat} {s : KState} {h : Heap}, Ready s →
    Rep L s.mem base np h → Packed (Laid base size) h.free (⟨c, k⟩ ::ₘ own) → k + n = 10 →
    MergeSound (pairPos base np) (fun j a => a ∈ h.free j) n h.bit c k →
    ∀ a ∈ mergeBytes n c k L s, PairByte L base size np a := by
  intro n
  induction n with
  | zero =>
    intro c k s h _ _ _ _ _ a ha
    exact absurd ha (by simp [mergeBytes])
  | succ n ih =>
    intro c k s h hs hr hp hn hsound a ha
    obtain ⟨m₁, ⟨s₁, hrun, hmem, hq⟩, hr₁⟩ := toggleBitmap_returns (c := c) hs
      (show k ≤ 10 by omega) hr
    unfold mergeBytes at ha
    rw [hrun] at ha
    rcases List.mem_cons.mp ha with rfl | ha
    · exact hp.pairByte hr
    · by_cases hbit : h.bit (pairPos base np c k) = true
      · obtain ⟨hon, hrest⟩ := hsound hbit
        rw [← hmem] at hr₁
        have hs₁ := hs.quiet hq
        have hlaid := hp.of_laid hm
        obtain ⟨s₂, hrun₂, hmem₂, hq₂⟩ := Edits.locked hs₁.free
          (unlinkSection_edits (c := c) hs₁.view (show k ≤ 10 by omega) hr₁ hlaid hon)
        have hr₂ := hr₁.unlink (show k ≤ 10 by omega) hlaid hon
        rw [← hmem₂] at hr₂
        rw [hbit] at ha
        simp only [if_true, ne_eq, not_true_eq_false, if_false,
          show c ^^^ chunkBytes k = sibling c k from rfl, hrun₂] at ha
        have htake := hp.take (show k ≤ 10 by omega) hon
        rw [Multiset.cons_swap] at htake
        refine ih (hs₁.quiet hq₂) hr₂ (htake.join (by omega)) (by omega)
          (hrest.mono (fun j x hj _ hx => ?_)) a ha
        show x ∈ Function.update h.free k ((h.free k).erase (sibling c k)) j
        rwa [Function.update_of_ne (by omega)]
      · rw [if_neg hbit] at ha
        exact absurd ha (by simp)

theorem PairByte.mapped (hm : Linkable L base size) (hnp : size / pageSize ≤ 129811) {a : Nat}
    (h : PairByte L base size (size / pageSize) a) : MetadataMapped L a := by
  obtain ⟨addr, order, hk, hlaid, rfl⟩ := h
  have hmod := Nat.mod_le size (2 ^ 54)
  have htop := hm.top
  obtain ⟨-, h1, h2⟩ := hlaid
  exact bitmapByte_mapped.mpr (pairPos_mapped hm.size_dvd hnp hk h1 (by omega) (by omega))

theorem Owned.kalloc_mapped {c : Client} {free : Nat → List Nat} (hm : Linkable L base size)
    (hnp : size / pageSize ≤ 129811) (ho : Owned L base size c free) (sz : Nat) :
    ∀ a ∈ kallocBytes sz L c.s, MetadataMapped L a := by
  intro a ha
  unfold kallocBytes at ha
  by_cases h63 : sz ≤ 2 ^ 63
  · rw [callOrders_ok ho.rep h63] at ha
    by_cases h10 : orderOf sz > 10
    · simp only [if_pos h10] at ha
      exact absurd ha (by simp)
    · simp only [if_neg h10] at ha
      exact (kallocLoopBytes_laid hm ho.ready ho.rep ho.packed (Nat.le_refl _)
        (by omega) a ha).mapped hm hnp
  · rw [callOrders_stop (by omega)] at ha
    exact absurd ha (by simp)

theorem Owned.kfree_mapped {c : Client} {free : Nat → List Nat} {r : Request}
    (hm : Linkable L base size) (hnp : size / pageSize ≤ 129811) (ho : Owned L base size c free)
    (hr : r ∈ c.live) (hsound : r.size ≠ 0 → SoundFree L base size c.s.mem r) :
    ∀ a ∈ kfreeBytes r.addr r.size L c.s, MetadataMapped L a := by
  intro a ha
  unfold kfreeBytes at ha
  have hsz := ho.sizes r hr
  obtain ⟨-, h10, -⟩ := orderOf_spec hsz
  by_cases hnone : r.addr = 0 ∨ r.size = 0
  · rw [if_pos hnone] at ha
    exact absurd ha (by simp)
  · obtain ⟨hp, hs⟩ := ho.merges hr (hsound (fun h0 => hnone (Or.inr h0)))
    rw [if_neg hnone, callOrders_ok ho.rep (le_of_four_mb hsz)] at ha
    simp only [if_neg (show ¬ orderOf r.size > 10 by omega)] at ha
    by_cases he : orderOf r.size = 10
    · rw [if_pos he] at ha
      obtain rfl := List.mem_singleton.mp ha
      exact (hp.pairByte ho.rep).mapped hm hnp
    · rw [if_neg he] at ha
      exact (mergeBytes_laid hm ho.ready ho.rep hp (by omega) hs a ha).mapped hm hnp

/-- **The metadata stays mapped** on a range of up to 129811 pages: in every state reached every
call returns and touches bytes of the four pages only. -/
theorem metadata_mapped {entries : List MmapEntry} {c c' : Client}
    (hbegan : Began L entries base size c) (hnp : size / pageSize ≤ 129811)
    (hrun : Reaches (Call L base size) c c') :
    (∀ i, i < metadataSize + 11 * 8 → MetadataMapped L (L.kernelEnd + i)) ∧
    (∀ sz, (∀ a ∈ kallocBytes sz L c'.s, MetadataMapped L a) ∧
      (sz ≤ 2 ^ 63 → ∃ p s', buddyKalloc sz L c'.s = .ok (p, s'))) ∧
    ∀ r ∈ c'.live, (r.size ≠ 0 → SoundFree L base size c'.s.mem r) →
      (∀ a ∈ kfreeBytes r.addr r.size L c'.s, MetadataMapped L a) ∧
        ∃ s', buddyKfree r.addr r.size L c'.s = .ok ((), s') := by
  have hm := hbegan.linkable
  obtain ⟨free, ho⟩ := Owned.run hbegan hrun
  refine ⟨fun i hi => heads_mapped hi, fun sz => ⟨ho.kalloc_mapped hm hnp sz, ho.kalloc_returns hm⟩,
    ?_⟩
  exact fun r hr hsound => ⟨ho.kfree_mapped hm hnp hr hsound, ho.kfree_returns hm hr hsound⟩

/-! ## Machines of 4MB and of 1GB -/

theorem Start.began {entries : List MmapEntry} {c : Client} (h : Start L entries base size c) :
    Began L entries base size c := by
  refine ⟨h.range, fun p h1 h2 => h.managed.phys p h1 ?_, h.init, h.none⟩
  have := Nat.mod_le size (2 ^ 54)
  omega

/-- The machine of one block of 4MB, after a page has been handed out. -/
theorem metadata_mapped_page : ∃ c c' :
    Client, booted = some c ∧ c.kalloc smallLayout 4096 = some c' ∧
    ∀ a ∈ kallocBytes 8192 smallLayout c'.s, MetadataMapped smallLayout a := by
  have hboot : (booted.bind fun c => c.kalloc smallLayout 4096).isSome = true := by
    decide +kernel
  obtain ⟨c', hrun⟩ := Option.isSome_iff_exists.mp hboot
  obtain ⟨c, hc, hcall⟩ := Option.bind_eq_some_iff.mp hrun
  exact ⟨c, c', hc, hcall, ((metadata_mapped (booted_start hc).began (by decide)
    (Relation.ReflTransGen.single (Call.kalloc hcall))).2.1 8192).1⟩

/-- RAM from 4MB on, 1GB of it. -/
def gigLayout : Layout where
  phys p := decide (0x400000 ≤ p ∧ p < 0x400000 + 2 ^ 30)
  image := smallLayout.image
  kernelEnd := smallLayout.kernelEnd
  phys_lt p h := by
    have := of_decide_eq_true h
    unfold physTop
    omega
  image_ge := smallLayout.image_ge
  image_lt := smallLayout.image_lt
  image_alias p h := by
    have := of_decide_eq_true h
    refine decide_eq_false ?_
    unfold kernelImageStart directMapStart
    omega
  metadata_image := smallLayout.metadata_image

theorem gigPaged : Paged gigLayout 0x400000 (2 ^ 30) := by
  have hten := chunkBytes_ten
  exact ⟨by omega, ⟨1, by omega⟩, ⟨2 ^ 18, by unfold pageSize; omega⟩,
    fun p h1 h2 => decide_eq_true ⟨h1, h2⟩⟩

theorem gigLinkable : Linkable gigLayout 0x400000 (2 ^ 30) := gigPaged.linkable (by omega)

/-- **1GB**: the first block of 4MB handed out has its bit in a byte that is not mapped. -/
theorem gigabyte_unmapped : ∃ c :
    Client, Began gigLayout [⟨0x400000, 2 ^ 30, 1⟩] 0x400000 (2 ^ 30) c ∧
    ∃ a ∈ kallocBytes 0x400000 gigLayout c.s, ¬ MetadataMapped gigLayout a := by
  obtain ⟨s, hrun, hoff, hfree, hrep, -⟩ := initBuddyAt_laid (s := bootState)
    (Or.inl rfl) gigLinkable
  have hrange : managedRange gigLayout.kernelEnd [⟨0x400000, 2 ^ 30, 1⟩] = (0x400000, 2 ^ 30) := by
    decide
  have hready : Ready s := ⟨by rw [hoff]; exact Or.inl rfl, hfree⟩
  have hlist : laid 0x400000 (2 ^ 30) 10
      = 0x400000 :: blockRow 10 (0x400000 + chunkBytes 10) 255 := by
    rw [laid_eq_carved gigPaged, carved_ten, show 2 ^ 30 / pageSize / 2 ^ 10 = 255 + 1 by decide]
    rfl
  have horder : orderOf 0x400000 = 10 := by decide
  have hfar : ¬ pairPos 0x400000 (2 ^ 30 / pageSize) 0x400000 10 < 129744 := by decide
  refine ⟨⟨s, []⟩, ⟨hrange, gigLinkable.phys, ⟨bootState, Or.inl rfl, ?_⟩, rfl⟩, _, ?_,
    fun hmapped => hfar (bitmapByte_mapped.mp hmapped)⟩
  · rw [initBuddy_eq, hrange]
    exact hrun
  · unfold kallocBytes
    rw [callOrders_ok hrep (by omega)]
    simp only [horder]
    rw [if_neg (by omega), kallocLoopBytes_head hready hrep
      ((packed_laid gigLinkable.base_dvd gigLinkable.size_dvd).of_laid gigLinkable) (Nat.le_refl 10)
      (Nat.le_refl 10) hlist]
    exact List.mem_singleton.mpr rfl

end Buddy
end MikroKernel
