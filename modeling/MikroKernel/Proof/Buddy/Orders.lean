import MikroKernel.Alloc.Slab
import MikroKernel.Proof.Buddy.Calls

/-!
# The order of a size

The order is computed twice: `buddy_kalloc` and `buddy_kfree` compare bytes in a loop
(`selectOrder`), `buddy_order` divides first and compares pages. The first loop finds the least
order up to `2 ^ 63` (`orderSelected_iff`); from there on the bound wraps to 0 before it reaches the
size, and the loop goes on until it shifts by 64. The second drops the part of a page at the end,
and finds the least order unless what is left is a power of two of pages (`buddyOrder_exact_iff`).
-/

set_option autoImplicit false

namespace MikroKernel
namespace Buddy

variable {L : Layout} {size order : Nat}

/-! ## The loop of the two calls -/

/-- `buddy_kalloc` from the end of its order loop on. -/
def kallocAt (order : Nat) : K Nat := do
  let metadata ← kernelEnd
  let maxOrder ← load metadata .maxOrder
  if order > maxOrder then pure 0
  else kallocLoop order (maxOrder + 1 - order) order

/-- `buddy_kfree` from the end of its order loop on. -/
def kfreeAt (chunk wanted : Nat) : K Unit := do
  let metadata ← kernelEnd
  let maxOrder ← load metadata .maxOrder
  let order := if wanted > maxOrder then maxOrder else wanted
  if order = maxOrder then do
    let _ ← toggleBitmap chunk order
  let joined ← mergeLoop (maxOrder - order) chunk order
  locked .buddyLock (insertSection joined.1 joined.2)

theorem buddyKalloc_at {s : KState} {k : Nat} (h : selectOrder size L s = .ok (k, s)) :
    buddyKalloc size L s = kallocAt k L s := by
  unfold buddyKalloc kallocAt
  rw [K.bind_ok (kernelEnd_apply L s), K.bind_ok h, K.bind_ok (kernelEnd_apply L s)]

theorem buddyKfree_at {s : KState} {chunk k : Nat} (hc : chunk ≠ 0) (hs : size ≠ 0)
    (h : selectOrder size L s = .ok (k, s)) : buddyKfree chunk size L s = kfreeAt chunk k L s := by
  unfold buddyKfree kfreeAt
  rw [if_neg (by tauto), K.bind_ok (kernelEnd_apply L s), K.bind_ok h,
    K.bind_ok (kernelEnd_apply L s)]

/-- The least order whose blocks hold `size` bytes. -/
def LeastOrder (size order : Nat) : Prop := IsLeast {k | size ≤ chunkBytes k} order

/-- What the order loop of a request is for: it stops, at the least order, both calls go on with
that, and a request for more than the largest block gets nothing and changes nothing. -/
structure OrderSelected (size : Nat) : Prop where
  least : ∃ k, LeastOrder size k ∧ orderLoop size 64 0 = some k ∧ ∀ (L : Layout) (s : KState),
    buddyKalloc size L s = kallocAt k L s ∧
    ∀ chunk, chunk ≠ 0 → size ≠ 0 → buddyKfree chunk size L s = kfreeAt chunk k L s
  larger : chunkBytes 10 < size → ∀ (L : Layout) (s : KState), s.mem L.kernelEnd .maxOrder = 10 →
    buddyKalloc size L s = .ok (0, s)

theorem orderOf_least (h : size ≤ 2 ^ 63) : LeastOrder size (orderOf size) := by
  obtain ⟨-, hle, hlt⟩ := orderOf_some h
  refine ⟨hle, fun k hk => ?_⟩
  by_contra hkr
  have := hlt k (by omega)
  have : size ≤ chunkBytes k := hk
  omega

theorem selectOrder_ok (h : size ≤ 2 ^ 63) (s : KState) :
    selectOrder size L s = .ok (orderOf size, s) :=
  selectOrder_edits h s rfl rfl

/-- Below an order that is above the largest, `buddy_kalloc` has nothing to give. -/
theorem kallocAt_larger {s : KState} (h : 10 < order) (hmax : s.mem L.kernelEnd .maxOrder = 10) :
    kallocAt order L s = .ok (0, s) := by
  unfold kallocAt
  rw [K.bind_ok (kernelEnd_apply L s), K.bind_ok (load_image (image_metadata L)), hmax, if_pos h]
  rfl

theorem LeastOrder.larger (h : LeastOrder size order) (hgt : chunkBytes 10 < size) :
    10 < order := by
  by_contra hle
  have h1 := chunkBytes_le (show order ≤ 10 by omega)
  have h2 : size ≤ chunkBytes order := h.1
  omega

/-- **The loops end well exactly up to `2 ^ 63`**. Above it they shift by 64. -/
theorem orderSelected_iff (size : Nat) : OrderSelected size ↔ size ≤ 2 ^ 63 := by
  constructor
  · intro h
    obtain ⟨k, -, hloop, -⟩ := h.least
    by_contra hgt
    rw [orderLoop_none (by omega)] at hloop
    exact absurd hloop (by simp)
  · intro h
    have hleast := orderOf_least h
    refine ⟨⟨orderOf size, hleast, (orderOf_some h).1, ?_⟩, ?_⟩
    · intro L s
      have hsel := selectOrder_ok (L := L) h s
      exact ⟨buddyKalloc_at hsel, fun chunk hc hs => buddyKfree_at hc hs hsel⟩
    · intro hgt L s hmax
      rw [buddyKalloc_at (selectOrder_ok h s)]
      exact kallocAt_larger (hleast.larger hgt) hmax

/-- **A request for `2 ^ 63 + 1` bytes**: the loop does not stop before the shift of 64. -/
theorem huge_request_shifts : orderLoop (2 ^ 63 + 1) 64 0 = none ∧
    ¬ OrderSelected (2 ^ 63 + 1) := by
  have hnone : orderLoop (2 ^ 63 + 1) 64 0 = none := by decide
  refine ⟨hnone, fun h => ?_⟩
  obtain ⟨k, -, hloop, -⟩ := h.least
  rw [hnone] at hloop
  exact absurd hloop (by simp)

/-! ## `buddy_order` -/

theorem buddyOrderLoop_ge (pages fuel order : Nat) : order ≤ buddyOrderLoop pages fuel order := by
  induction fuel generalizing order with
  | zero => exact Nat.le_refl _
  | succ fuel ih =>
    unfold buddyOrderLoop
    split
    · exact Nat.le_trans (Nat.le_succ order) (ih (order + 1))
    · exact Nat.le_refl _

/-- The loop stops at the first order with enough pages. -/
theorem buddyOrderLoop_le_iff {pages fuel k : Nat} (h : order ≤ k) (hk : k < order + fuel) :
    buddyOrderLoop pages fuel order ≤ k ↔ pages ≤ 2 ^ k := by
  induction fuel generalizing order with
  | zero => omega
  | succ fuel ih =>
    unfold buddyOrderLoop
    split
    case isTrue hlt =>
      rcases Nat.eq_or_lt_of_le h with rfl | hlt'
      · have := buddyOrderLoop_ge pages fuel (order + 1)
        omega
      · exact ih hlt' (by omega)
    case isFalse hge =>
      have := Nat.pow_le_pow_right (show 0 < 2 by omega) h
      omega

theorem buddyOrder_le_iff {k : Nat} (hk : k < 64) : buddyOrder size ≤ k ↔ size / pageSize ≤ 2 ^ k :=
  buddyOrderLoop_le_iff (Nat.zero_le k) (by omega)

/-- No size is too small for the order. -/
theorem buddyOrder_least (h : size ≤ 2 ^ 63) {k : Nat} (hk : size ≤ chunkBytes k) :
    buddyOrder size ≤ k := by
  by_cases hlt : k < 64
  · rw [buddyOrder_le_iff hlt]
    unfold chunkBytes at hk
    exact Nat.div_le_of_le_mul (by rwa [Nat.mul_comm])
  · have h51 : buddyOrder size ≤ 51 := by
      rw [buddyOrder_le_iff (by omega)]
      unfold pageSize
      omega
    omega

/-- A size that `buddy_order` takes for a power of two of pages, and is more. -/
def JustAbove (size : Nat) : Prop := ∃ k, chunkBytes k < size ∧ size < chunkBytes k + pageSize

theorem buddyOrder_of_justAbove {k : Nat} (h63 : size ≤ 2 ^ 63) (h1 : chunkBytes k < size)
    (h2 : size < chunkBytes k + pageSize) : buddyOrder size ≤ k := by
  have hk : k < 64 := by
    by_contra hge
    have h64 : chunkBytes 64 ≤ chunkBytes k := chunkBytes_le (by omega)
    have : chunkBytes 64 = 2 ^ 76 := chunkBytes_eq 64
    omega
  rw [buddyOrder_le_iff hk]
  unfold chunkBytes at h2
  rw [← Nat.lt_succ_iff, Nat.div_lt_iff_lt_mul (by decide), Nat.succ_mul]
  exact h2

/-- The blocks of the order hold the size, unless it is just above a power of two of pages. -/
theorem le_buddyOrder (h63 : size ≤ 2 ^ 63) (h : ¬ JustAbove size) :
    size ≤ chunkBytes (buddyOrder size) := by
  by_contra hgt
  apply h
  refine ⟨buddyOrder size, by omega, ?_⟩
  have h51 : buddyOrder size ≤ 51 := by
    rw [buddyOrder_le_iff (by omega)]
    unfold pageSize
    omega
  have hle : size / pageSize ≤ 2 ^ buddyOrder size :=
    (buddyOrder_le_iff (by omega)).mp (Nat.le_refl _)
  rw [← Nat.lt_succ_iff, Nat.div_lt_iff_lt_mul (by decide), Nat.succ_mul] at hle
  exact hle

/-- Whole pages are not just above anything. -/
theorem not_justAbove_of_dvd (h : pageSize ∣ size) : ¬ JustAbove size := by
  intro ⟨k, h1, h2⟩
  have := Bits.add_le_of_dvd (Nat.dvd_mul_left pageSize (2 ^ k)) h h1
  unfold chunkBytes at h2
  omega

/-- Both functions find the least order. -/
structure OrdersAgree (size : Nat) : Prop where
  least : LeastOrder size (buddyOrder size)
  same : ∀ (L : Layout) (s : KState), selectOrder size L s = .ok (buddyOrder size, s)

/-- **`buddy_order` is right, and equal to the order of the calls**, exactly for the sizes that are
not just above a power of two of pages. -/
theorem ordersAgree_iff (h : size ≤ 2 ^ 62) : OrdersAgree size ↔ ¬ JustAbove size := by
  have h63 : size ≤ 2 ^ 63 := h.trans (by decide)
  constructor
  · intro hagree ⟨k, h1, h2⟩
    have hle := chunkBytes_le (buddyOrder_of_justAbove h63 h1 h2)
    have hsize : size ≤ chunkBytes (buddyOrder size) := hagree.least.1
    omega
  · intro hnot
    have hleast : LeastOrder size (buddyOrder size) :=
      ⟨le_buddyOrder h63 hnot, fun k hk => buddyOrder_least h63 hk⟩
    refine ⟨hleast, fun L s => ?_⟩
    rw [selectOrder_ok h63, (orderOf_least h63).unique hleast]

/-- Three pages. -/
theorem ordersAgree_iff_three : ¬ JustAbove 12288 ∧ OrdersAgree 12288 := by
  have hnot : ¬ JustAbove 12288 := not_justAbove_of_dvd (by decide)
  exact ⟨hnot, (ordersAgree_iff (by decide)).mpr hnot⟩

/-- **One byte more than a page**: `buddy_order` answers 0, and a block of order 0 is a page. -/
theorem page_and_byte : buddyOrder 4097 = 0 ∧ chunkBytes 0 < 4097 ∧ ¬ OrdersAgree 4097 := by
  have hzero : buddyOrder 4097 = 0 := by decide
  refine ⟨hzero, by decide, fun h => ?_⟩
  have hle : 4097 ≤ chunkBytes (buddyOrder 4097) := h.least.1
  rw [hzero] at hle
  exact absurd hle (by decide)

/-- `calc_slab_order` asks for whole pages, where the two agree. -/
theorem calcSlabOrder_agrees (size : Nat) : ∃ bytes, calcSlabOrder size = buddyOrder bytes ∧
    OrdersAgree bytes := by
  refine ⟨_, rfl, (ordersAgree_iff ?_).mpr (not_justAbove_of_dvd ?_)⟩
  · unfold alignUp
    omega
  · unfold alignUp pageSize
    omega

end Buddy
end MikroKernel
