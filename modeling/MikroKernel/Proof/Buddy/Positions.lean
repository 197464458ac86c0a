import MikroKernel.Machine.Calm
import MikroKernel.Proof.Buddy.Init

/-!
# The bit of each pair

`order_offsets` gives each order a row of bits, one for each pair (`rowStart`). A row is as long as
the number of whole pairs; the last block of an order with an odd number of blocks has its bit
behind the row, where the next one begins. So the rows are apart when no order below 10 with more
than one block has an odd number of them (`EvenRows`), which is when the number of pages is a
multiple of 1024 or a smaller power of two. `bitsPrivate_iff` adds the two bounds: 8 pages, since a
smaller bitmap has no bytes, and `2 ^ 32` pages, above which block indexes wrap around.
-/

set_option autoImplicit false

namespace MikroKernel
namespace Buddy

variable {L : Layout} {m : Mem} {s s₀ s₁ : KState} {entries : List MmapEntry}
    {base size np b c j k : Nat}

/-! ## What `__init_buddy` stores -/

/-- The fields of `buddy_metadata` that hold the managed range. -/
def rangeField : Field → Bool
  | .baseAddress | .managedSize => true
  | _ => false

instance (order count left cur : Nat) : Spares rangeField (linkLoop order count left cur) := by
  induction left generalizing cur with
  | zero => exact Spares.pure cur
  | succ left ih =>
    have hnext : ∀ p x, Spares rangeField (p2vStore p .chunkNext x) :=
      fun p x => Spares.p2vStore rfl
    have hprev : ∀ p x, Spares rangeField (p2vStore p .chunkPrev x) :=
      fun p x => Spares.p2vStore rfl
    unfold linkLoop
    dsimp only
    infer_instance

instance (freeLists order cur : Nat) (counts : Nat → Nat) :
    Spares rangeField (linkOrders freeLists counts order cur) := by
  have hptr : ∀ v x, Spares rangeField (store v .ptr x) := fun v x => Spares.store rfl
  induction order generalizing cur with
  | zero =>
    unfold linkOrders
    infer_instance
  | succ order ih =>
    unfold linkOrders
    infer_instance

/-- What memory holds of the range: where it is, and where the row of each order begins. -/
structure Stored (L : Layout) (m : Mem) (base size : Nat) : Prop where
  baseAddress : m L.kernelEnd .baseAddress = base
  managedSize : m L.kernelEnd .managedSize = size
  offsets : ∀ k, k ≤ 10 → m (orderOffsetAddr L.kernelEnd k) .word32
    = orderOffset (size / pageSize) k

/-- A store that returned wrote the image cell it names. -/
theorem store_image_ok {a x : Nat} {f : Field} (h : L.image a = true)
    (hrun : store a f x L s₀ = .ok ((), s₁)) :
    s₁.mem = s₀.mem.set a f x := by
  rw [store_image h] at hrun
  rw [← (Prod.mk.inj (Except.ok.inj hrun)).2]

theorem carve_stored (hrun : carve base size L s₀ = .ok ((), s₁)) : Stored L s₁.mem base size := by
  have himg := image_metadata L
  have hbitmap : L.image (L.kernelEnd + metadataSize + 11 * 8) = true :=
    L.metadata_image 166 (by decide)
  have hptr : ∀ v x, Spares rangeField (store v .bitmapPtr x) := fun v x => Spares.store rfl
  unfold carve at hrun
  rw [K.bind_ok (kernelEnd_apply L s₀), K.bind_ok (load_image himg)] at hrun
  obtain ⟨⟨⟩, t₁, hbase, hrun⟩ := K.bind_eq_ok.mp hrun
  obtain ⟨⟨⟩, t₂, hsize, hrun⟩ := K.bind_eq_ok.mp hrun
  obtain ⟨⟨⟩, t₃, hlink, hrun⟩ := K.bind_eq_ok.mp hrun
  obtain ⟨⟨⟩, t₄, hbit, hrun⟩ := K.bind_eq_ok.mp hrun
  obtain ⟨⟨⟩, t₅, hzero, hrun⟩ := K.bind_eq_ok.mp hrun
  rw [memsetZero_image hbitmap] at hzero
  obtain ⟨-, rfl⟩ := Prod.mk.inj (Except.ok.inj hzero)
  obtain ⟨m', hedit, hoff, hframe⟩ := @storeOffsets_edits L
    (t₄.mem.zero (L.kernelEnd + metadataSize + 11 * 8) (size / pageSize / 8)) t₄.physMapOffset
      (size / pageSize) 10
    (Nat.le_refl 10)
  have hlast := hedit
    { t₄ with mem := t₄.mem.zero (L.kernelEnd + metadataSize + 11 * 8) (size / pageSize / 8) }
    rfl rfl
  obtain ⟨-, rfl⟩ := Prod.mk.inj (Except.ok.inj (hlast.symm.trans hrun))
  show Stored L m' base size
  -- the two fields are below what is cleared
  have hkept : ∀ f, rangeField f = true → m' L.kernelEnd f = t₂.mem L.kernelEnd f := by
    intro f hf
    have hword : f ≠ .word32 := by
      intro heq
      rw [heq] at hf
      exact absurd hf (by decide)
    rw [hframe _ f hword]
    refine (Mem.zero_of_not_mem (Or.inl (by unfold metadataSize; omega))).trans ?_
    rw [Spares.spares hbit _ f hf, Spares.spares hlink _ f hf]
  refine ⟨?_, ?_, hoff⟩
  · rw [hkept _ rfl, store_image_ok himg hsize, Mem.set_ne (Or.inr (by decide)),
      store_image_ok himg hbase, Mem.set_self]
  · rw [hkept _ rfl, store_image_ok himg hsize, Mem.set_self]

theorem initBuddyAt_stored (hrun : initBuddyAt base size L s₀ = .ok ((), s₁)) :
    Stored L s₁.mem base size := by
  unfold initBuddyAt at hrun
  obtain ⟨⟨⟩, t₁, -, hrun⟩ := K.bind_eq_ok.mp hrun
  rw [K.bind_ok (kernelEnd_apply L t₁)] at hrun
  obtain ⟨⟨⟩, t₂, -, hrun⟩ := K.bind_eq_ok.mp hrun
  obtain ⟨⟨⟩, t₃, -, hrun⟩ := K.bind_eq_ok.mp hrun
  obtain ⟨⟨⟩, t₄, -, hrun⟩ := K.bind_eq_ok.mp hrun
  obtain ⟨⟨⟩, t₅, -, hrun⟩ := K.bind_eq_ok.mp hrun
  exact carve_stored hrun

/-- **`__init_buddy` stores the managed range** and the offsets of its rows. -/
theorem initBuddy_stored (hrun : initBuddy entries L s₀ = .ok ((), s₁)) :
    Stored L s₁.mem (managedRange L.kernelEnd entries).1 (managedRange L.kernelEnd entries).2 := by
  rw [initBuddy_eq] at hrun
  exact initBuddyAt_stored hrun

/-! ## The rows -/

/-- Where the row of an order begins, as a sum of exact numbers. -/
def rowStart (np : Nat) : Nat → Nat
  | 0 => 0
  | k + 1 => rowStart np k + np / 2 ^ (k + 1)

theorem half_blocks (np k : Nat) : np / 2 ^ (k + 1) = np / 2 ^ k / 2 := by
  rw [Nat.pow_succ, Nat.div_div_eq_div_mul]

/-- The rows up to an order, and its blocks, are at most as many as the pages. -/
theorem rowStart_le (np k : Nat) : rowStart np k + np / 2 ^ k ≤ np := by
  induction k with
  | zero => simp [rowStart]
  | succ k ih =>
    unfold rowStart
    rw [half_blocks]
    omega

theorem rowStart_mono (h : k ≤ j) : rowStart np k ≤ rowStart np j := by
  induction h with
  | refl => exact Nat.le_refl _
  | step _ ih => exact Nat.le_trans ih (Nat.le_add_right _ _)

/-- No sum wraps up to `2 ^ 32` pages. -/
theorem orderOffset_rowStart (hnp : np ≤ 2 ^ 32) (hk : k ≤ 10) :
    orderOffset np k = rowStart np k := by
  induction k with
  | zero => rfl
  | succ k ih =>
    have hle := rowStart_le np (k + 1)
    have hlt : np / 2 ^ (k + 1) < 2 ^ 32 := by
      rw [half_blocks]
      have := Nat.div_le_self np (2 ^ k)
      omega
    unfold orderOffset
    rw [ih (by omega), Nat.shiftRight_eq_div_pow, Nat.mod_eq_of_lt hlt]
    have hrows : rowStart np (k + 1) < 2 ^ 32 := by
      by_contra hge
      -- all the pages are in rows, and one block is left
      have hsmall : np / 2 ^ (k + 1) = 0 := by
        generalize np / 2 ^ (k + 1) = x at hle ⊢
        omega
      have h10 : np / 2 ^ 10 ≤ np / 2 ^ (k + 1) :=
        Nat.div_le_div_left (Nat.pow_le_pow_right (by omega) hk) (Nat.two_pow_pos _)
      omega
    exact Nat.mod_eq_of_lt hrows

/-! ## The position of a block's pair -/

/-- The position that `toggle_bitmap` computes from what memory holds. -/
def togglePos (L : Layout) (m : Mem) (addr order : Nat) : Nat :=
  bitPos (m L.kernelEnd .baseAddress) (m (orderOffsetAddr L.kernelEnd order) .word32) addr order

theorem toggleBitmap_eq (hk : k ≤ 10) (addr : Nat) : toggleBitmap addr k L s =
    locked .buddyLock (toggleSection (s.mem L.kernelEnd .bitmapPtr) (togglePos L s.mem addr k / 8)
      (togglePos L s.mem addr k % 8)) L s := by
  have himg := image_metadata L
  unfold toggleBitmap
  rw [K.bind_ok (kernelEnd_apply L s), K.bind_ok (load_image himg), K.bind_ok (load_image himg),
    K.bind_ok (load_image (image_orderOffset L hk))]
  rfl

/-- Block `b` of an order is in the range. -/
def BlockIn (size k b : Nat) : Prop := (b + 1) * chunkBytes k ≤ size

theorem blockIn_iff : BlockIn size k b ↔ b < size / pageSize / 2 ^ k := by
  unfold BlockIn chunkBytes
  rw [← Nat.succ_le_iff, Nat.le_div_iff_mul_le (Nat.two_pow_pos k),
    Nat.le_div_iff_mul_le (by decide), Nat.mul_assoc]

/-- The index of a block is kept in 32 bits. -/
theorem togglePos_eq (hs : Stored L m base size) (h64 : size < 2 ^ 64) (hk : k ≤ 10)
    (hb : BlockIn size k b) :
    togglePos L m (base + b * chunkBytes k) k =
      (orderOffset (size / pageSize) k + b % 2 ^ 32 / 2) % 2 ^ 32 := by
  have hlt : b * chunkBytes k < 2 ^ 64 := by
    have := Nat.mul_le_mul_right (chunkBytes k) (show b ≤ b + 1 by omega)
    unfold BlockIn at hb
    omega
  have hsub : sub64 (base + b * chunkBytes k) base = b * chunkBytes k := by
    unfold sub64
    omega
  unfold togglePos bitPos
  rw [hs.baseAddress, hs.offsets k hk, hsub, Nat.shiftRight_eq_div_pow, Nat.shiftRight_eq_div_pow,
    ← chunkBytes_eq, Nat.mul_div_cancel _ (chunkBytes_pos k)]

/-- **Up to `2 ^ 32` pages** the position is in the row, or just behind it. -/
theorem togglePos_row (hs : Stored L m base size) (hnp : size / pageSize ≤ 2 ^ 32) (hk : k ≤ 10)
    (hb : BlockIn size k b) :
    togglePos L m (base + b * chunkBytes k) k = rowStart (size / pageSize) k + b / 2 := by
  have hlt := blockIn_iff.mp hb
  have hle := rowStart_le (size / pageSize) k
  have h64 : size < 2 ^ 64 := by
    unfold pageSize at hnp
    omega
  rw [togglePos_eq hs h64 hk hb, orderOffset_rowStart hnp hk,
    Nat.mod_eq_of_lt (show b < 2 ^ 32 by omega)]
  exact Nat.mod_eq_of_lt (by omega)

/-! ## When the rows are apart -/

/-- No order below the largest has an odd number of blocks, except one. -/
def EvenRows (np : Nat) : Prop := ∀ k, k < 10 → np / 2 ^ k % 2 = 0 ∨ np / 2 ^ k ≤ 1

theorem EvenRows.dvd (h : EvenRows np) (h0 : 0 < np) : ∀ {k}, k ≤ 10 → 2 ^ k ∣ np ∨ ∃ j, j < k ∧
    np = 2 ^ j := by
  intro k
  induction k with
  | zero =>
    intro _
    exact Or.inl (Nat.one_dvd np)
  | succ k ih =>
    intro hk
    rcases ih (by omega) with ⟨q, hq⟩ | ⟨j, hj, hnp⟩
    · have hdiv : np / 2 ^ k = q := by
        rw [hq, Nat.mul_div_cancel_left _ (Nat.two_pow_pos k)]
      rcases h k (by omega) with heven | hone
      · obtain ⟨r, hr⟩ := Nat.dvd_of_mod_eq_zero heven
        left
        rw [hq, ← hdiv, hr, Nat.pow_succ]
        exact Nat.mul_dvd_mul_left _ (Nat.dvd_mul_right 2 r)
      · right
        refine ⟨k, by omega, ?_⟩
        have hqpos : q ≠ 0 := by
          rintro rfl
          omega
        rw [hq, show q = 1 by omega, Nat.mul_one]
    · exact Or.inr ⟨j, by omega, hnp⟩

theorem evenRows_iff (h0 : 0 < np) : EvenRows np ↔ 1024 ∣ np ∨ ∃ j, j < 10 ∧ np = 2 ^ j := by
  constructor
  · intro h
    exact h.dvd h0 (Nat.le_refl 10)
  · intro h k hk
    rcases h with hdvd | ⟨j, hj, rfl⟩
    · left
      obtain ⟨q, hq⟩ : 2 ^ (k + 1) ∣ np := Nat.dvd_trans (Nat.pow_dvd_pow 2 hk) hdvd
      rw [hq, Nat.pow_succ, Nat.mul_assoc, Nat.mul_div_cancel_left _ (Nat.two_pow_pos k),
        Nat.mul_mod_right]
    · rcases Nat.lt_or_ge k j with hlt | hge
      · left
        rw [Nat.pow_div (Nat.le_of_lt hlt) (by omega),
          show j - k = (j - k - 1) + 1 by omega, Nat.pow_succ, Nat.mul_mod_left]
      · right
        exact Nat.div_le_of_le_mul (by rw [Nat.mul_one]; exact Nat.pow_le_pow_right (by omega) hge)

/-- A block of an order has its bit before the row of any larger one that has blocks. -/
theorem EvenRows.lt (h : EvenRows np) (hkj : k < j) (hj : j ≤ 10) (hb : b < np / 2 ^ k)
    (hc : c < np / 2 ^ j) :
    rowStart np k + b / 2 < rowStart np j := by
  have hmono : np / 2 ^ j ≤ np / 2 ^ (k + 1) :=
    Nat.div_le_div_left (Nat.pow_le_pow_right (by omega) hkj) (Nat.two_pow_pos _)
  have hnext : rowStart np k + np / 2 ^ (k + 1) ≤ rowStart np j :=
    rowStart_mono (show k + 1 ≤ j from hkj)
  have hhalf := half_blocks np k
  have heven := h k (by omega)
  generalize np / 2 ^ (k + 1) = x at hmono hnext hhalf
  generalize np / 2 ^ k = y at hb hhalf heven
  omega

/-! ## Private bits -/

/-- What the bits of the pairs are for: different pairs have different bits, and all are in the
bytes that are reserved. -/
structure BitsPrivate (L : Layout) (m : Mem) (base size : Nat) : Prop where
  own : ∀ k j b c, k ≤ 10 → j ≤ 10 → BlockIn size k b → BlockIn size j c →
    togglePos L m (base + b * chunkBytes k) k = togglePos L m (base + c * chunkBytes j) j → k = j ∧
    b / 2 = c / 2
  inside : ∀ k b, k ≤ 10 → BlockIn size k b →
    togglePos L m (base + b * chunkBytes k) k < 8 * (size / pageSize / 8)

/-- The numbers of pages with a bit for each pair. -/
def Regular (np : Nat) : Prop := np ≤ 2 ^ 32 ∧ (1024 ∣ np ∨ ∃ j, 3 ≤ j ∧ j < 10 ∧ np = 2 ^ j)

theorem Regular.evenRows (h : Regular np) (h0 : 0 < np) : EvenRows np := by
  rw [evenRows_iff h0]
  rcases h.2 with hdvd | ⟨j, -, hj, hnp⟩
  · exact Or.inl hdvd
  · exact Or.inr ⟨j, hj, hnp⟩

theorem Regular.eight_dvd (h : Regular np) : 8 ∣ np := by
  rcases h.2 with hdvd | ⟨j, h3, -, rfl⟩
  · exact Nat.dvd_trans (by decide) hdvd
  · exact Nat.pow_dvd_pow 2 h3

theorem Regular.bitsPrivate (h : Regular (size / pageSize)) (h0 : 0 < size / pageSize)
    (hs : Stored L m base size) :
    BitsPrivate L m base size := by
  have heven := h.evenRows h0
  constructor
  · intro k j b c hk hj hb hc heq
    rw [togglePos_row hs h.1 hk hb, togglePos_row hs h.1 hj hc] at heq
    have hb' := blockIn_iff.mp hb
    have hc' := blockIn_iff.mp hc
    rcases Nat.lt_trichotomy k j with hlt | rfl | hlt
    · have := heven.lt hlt hj hb' hc'
      omega
    · exact ⟨rfl, by omega⟩
    · have := heven.lt hlt hk hc' hb'
      omega
  · intro k b hk hb
    have hb' := blockIn_iff.mp hb
    have hle := rowStart_le (size / pageSize) k
    rw [togglePos_row hs h.1 hk hb, Nat.mul_div_cancel' h.eight_dvd]
    omega

/-- Above `2 ^ 32` pages the index of the block with number `2 ^ 32` is 0. -/
theorem BitsPrivate.le (h : BitsPrivate L m base size) (hs : Stored L m base size)
    (h64 : size < 2 ^ 64) :
    size / pageSize ≤ 2 ^ 32 := by
  by_contra hgt
  have h1 : BlockIn size 0 0 := blockIn_iff.mpr (by rw [Nat.pow_zero, Nat.div_one]; omega)
  have h2 : BlockIn size 0 (2 ^ 32) := blockIn_iff.mpr (by rw [Nat.pow_zero, Nat.div_one]; omega)
  have heq := h.own 0 0 0 (2 ^ 32) (by omega) (by omega) h1 h2
    (by rw [togglePos_eq hs h64 (by omega) h1, togglePos_eq hs h64 (by omega) h2, Nat.mod_self,
          Nat.zero_mod])
  exact absurd heq.2 (by decide)

/-- The last of an odd number of blocks has the first bit of the next row. -/
theorem BitsPrivate.evenRows (h : BitsPrivate L m base size) (hs : Stored L m base size)
    (hnp : size / pageSize ≤ 2 ^ 32) : EvenRows (size / pageSize) := by
  intro k hk
  by_contra hodd
  have hhalf := half_blocks (size / pageSize) k
  have hb : BlockIn size k (size / pageSize / 2 ^ k - 1) := blockIn_iff.mpr (by omega)
  have hc : BlockIn size (k + 1) 0 := blockIn_iff.mpr (by omega)
  have heq := h.own k (k + 1) _ 0 (by omega) (by omega) hb hc (by
    rw [togglePos_row hs hnp (by omega) hb, togglePos_row hs hnp (by omega) hc,
      show rowStart (size / pageSize) (k + 1)
      = rowStart (size / pageSize) k + size / pageSize / 2 ^ (k + 1) from rfl]
    omega)
  omega

/-- **Each pair has a bit of its own, in the bitmap**, exactly for regular numbers of pages. -/
theorem bitsPrivate_iff (h0 : 0 < size) (hd : pageSize ∣ size) (h64 : size < 2 ^ 64)
    (hs : Stored L m base size) :
    BitsPrivate L m base size ↔ Regular (size / pageSize) := by
  have hpos : 0 < size / pageSize := Nat.div_pos (Nat.le_of_dvd h0 hd) (by decide)
  constructor
  · intro h
    have hle := h.le hs h64
    have hfirst : BlockIn size 0 0 := blockIn_iff.mpr (by rw [Nat.pow_zero, Nat.div_one]; omega)
    have hin := h.inside 0 0 (by omega) hfirst
    refine ⟨hle, ?_⟩
    rcases (evenRows_iff hpos).mp (h.evenRows hs hle) with hdvd | ⟨j, hj, hnp⟩
    · exact Or.inl hdvd
    · -- fewer than 8 pages leave no byte
      have h3 : 2 ^ 3 ≤ 2 ^ j := by omega
      exact Or.inr ⟨j, (Nat.pow_le_pow_iff_right (by omega)).mp h3, hj, hnp⟩
  · intro h
    exact h.bitsPrivate hpos hs

/-- The range of `smallLayout`, or its first pages, can be managed. -/
theorem initBuddyAt_small (hd : pageSize ∣ size) (hle : size ≤ 0x400000) :
    ∃ s, initBuddyAt 0x400000 size smallLayout bootState = .ok ((), s) := by
  have hpaged : Paged smallLayout 0x400000 size :=
    ⟨by decide, by decide, hd, fun p h1 h2 => decide_eq_true ⟨h1, by omega⟩⟩
  obtain ⟨s, hrun, -⟩ := initBuddyAt_rep (s := bootState) (Or.inl rfl) hpaged (by omega)
  exact ⟨s, hrun⟩

/-- 4MB are 1024 pages. -/
theorem bitsPrivate_iff_block :
    ∃ s, initBuddyAt 0x400000 0x400000 smallLayout bootState = .ok ((), s) ∧
    BitsPrivate smallLayout s.mem 0x400000 0x400000 := by
  obtain ⟨s, hrun⟩ := initBuddyAt_small (show pageSize ∣ 0x400000 by decide) (by decide)
  refine ⟨s, hrun, ?_⟩
  rw [bitsPrivate_iff (by decide) (by decide) (by decide) (initBuddyAt_stored hrun)]
  exact ⟨by decide, Or.inl (by decide)⟩

/-- **1023 pages**: the last page has the bit of the first two. -/
theorem odd_page_shares : ∃ s, initBuddyAt 0x400000 0x3ff000 smallLayout bootState = .ok ((), s) ∧
    togglePos smallLayout s.mem (0x400000 + 1022 * chunkBytes 0) 0 =
      togglePos smallLayout s.mem (0x400000 + 0 * chunkBytes 1) 1 ∧
    ¬ BitsPrivate smallLayout s.mem 0x400000 0x3ff000 := by
  obtain ⟨s, hrun⟩ := initBuddyAt_small (show pageSize ∣ 0x3ff000 by decide) (by decide)
  have hs := initBuddyAt_stored hrun
  have hpage : BlockIn 0x3ff000 0 1022 := by
    unfold BlockIn
    decide
  have hpair : BlockIn 0x3ff000 1 0 := by
    unfold BlockIn
    decide
  have hsame : togglePos smallLayout s.mem (0x400000 + 1022 * chunkBytes 0) 0 =
      togglePos smallLayout s.mem (0x400000 + 0 * chunkBytes 1) 1 := by
    rw [togglePos_row hs (by decide) (by decide) hpage,
      togglePos_row hs (by decide) (by decide) hpair]
    decide
  refine ⟨s, hrun, hsame, fun h => ?_⟩
  exact absurd (h.own 0 1 1022 0 (by decide) (by decide) hpage hpair hsame).1 (by decide)

end Buddy
end MikroKernel
