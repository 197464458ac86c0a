import MikroKernel.Proof.Buddy.Orders
import MikroKernel.Proof.Slab.Create

/-!
# The sizes `kmem_cache_create_sl` accepts

It computes the order of the slab in 32 bits, the bytes of it in an `int`, and the number of slots
in 64 bits again. Up to order 18 the three agree, and a size is turned down if fewer than eight
objects fit. At the orders 19 and 20 the `int` wraps, the bytes look like almost `2 ^ 64`, and any
size below `2 ^ 61` is accepted (`accepted_iff`).
-/

set_option autoImplicit false

namespace MikroKernel
namespace Slab

variable {size align n order : Nat}

/-! ## The order -/

/-- The pages for eight objects and 56 bytes, in 32 bits. -/
def slabPages (size : Nat) : Nat := (8 * size + 4151) % 2 ^ 32 / pageSize

theorem slabPages_lt (size : Nat) : slabPages size < 2 ^ 20 := by
  unfold slabPages pageSize
  omega

theorem calcSlabOrder_le_iff {k : Nat} (hk : k < 64) :
    calcSlabOrder size ≤ k ↔ slabPages size ≤ 2 ^ k := by
  have hpages : alignUp ((size * 8 + descriptorSize + 16) % 2 ^ 64 % 2 ^ 32) pageSize / pageSize
      = slabPages size := by
    unfold alignUp slabPages descriptorSize pageSize
    omega
  unfold calcSlabOrder buddyOrder
  simp only [hpages]
  exact Buddy.buddyOrderLoop_le_iff (Nat.zero_le k) (by omega)

theorem calcSlabOrder_le (size : Nat) : calcSlabOrder size ≤ 20 :=
  (calcSlabOrder_le_iff (by omega)).mpr (Nat.le_of_lt (slabPages_lt size))

/-- The order is stored in a byte, and fits there. -/
theorem calcSlabOrder_mod (size : Nat) : calcSlabOrder size % 2 ^ 8 = calcSlabOrder size := by
  have := calcSlabOrder_le size
  exact Nat.mod_eq_of_lt (by omega)

/-- Eight objects and 56 bytes, rounded up to pages in 32 bits, are at most 1GB. -/
def SmallSlab (size : Nat) : Prop := (8 * size + 4151) % 2 ^ 32 < 2 ^ 30 + 4096

theorem smallSlab_iff : SmallSlab size ↔ calcSlabOrder size ≤ 18 := by
  rw [calcSlabOrder_le_iff (by omega)]
  unfold SmallSlab slabPages pageSize
  omega

/-! ## The number of slots -/

/-- The bytes behind the descriptor, as `calc_objects_per_slab` computes them. -/
theorem calcObjectsPerSlab_some (hoff : descriptorSize ≤ firstObjectOffset align)
    (hoff' : firstObjectOffset align ≤ 48) (h : calcObjectsPerSlab size align order = some n) :
    n = sub64 (throughInt (pageSize * 2 ^ order)) (firstObjectOffset align) / size ∧ 8 ≤ n := by
  have hrem : sub64 (sub64 (throughInt (pageSize * 2 ^ order)) descriptorSize) (calcAlignment align)
      = sub64 (throughInt (pageSize * 2 ^ order)) (firstObjectOffset align) := by
    unfold throughInt sub64 calcAlignment
    unfold descriptorSize at *
    split <;> omega
  unfold calcObjectsPerSlab at h
  simp only [hrem] at h
  split at h
  · exact absurd h (by simp)
  · rename_i hge
    obtain rfl := Option.some.inj h
    exact ⟨rfl, by omega⟩

/-- **Up to order 18** the number is right. -/
theorem calcObjectsPerSlab_small (hord : order ≤ 18)
    (hoff : descriptorSize ≤ firstObjectOffset align) (hoff' : firstObjectOffset align ≤ 48)
    (h : calcObjectsPerSlab size align order = some n) :
    8 ≤ n ∧ n < 2 ^ 32 ∧ firstObjectOffset align + n * size ≤ pageSize * 2 ^ order := by
  obtain ⟨hn, h8⟩ := calcObjectsPerSlab_some hoff hoff' h
  have hle : 2 ^ order ≤ 2 ^ 18 := Nat.pow_le_pow_right (by omega) hord
  have hpos : 0 < 2 ^ order := Nat.two_pow_pos order
  have hrem : sub64 (throughInt (pageSize * 2 ^ order)) (firstObjectOffset align)
      = pageSize * 2 ^ order - firstObjectOffset align := by
    unfold throughInt sub64 pageSize
    rw [if_pos (by omega)]
    omega
  rw [hrem] at hn
  have hmul := Nat.div_mul_le_self (pageSize * 2 ^ order - firstObjectOffset align) size
  have hself := Nat.div_le_self (pageSize * 2 ^ order - firstObjectOffset align) size
  rw [← hn] at hmul hself
  unfold pageSize at *
  exact ⟨h8, by omega, by omega⟩

theorem calcObjectsPerSlab_huge (h : 2 ^ 61 ≤ size) :
    calcObjectsPerSlab size align order = none := by
  refine if_pos ?_
  have hlt : ∀ x y : Nat, sub64 x y < 2 ^ 64 := fun x y => Nat.mod_lt _ (by decide)
  rw [Nat.div_lt_iff_lt_mul (by omega)]
  have := hlt (sub64 (throughInt (pageSize * 2 ^ order)) descriptorSize) (calcAlignment align)
  omega

/-- **Sizes above 1GB** are accepted, up to `2 ^ 61`. -/
theorem wrapped_accepted (h0 : size ≠ 0) (hlt : size < 2 ^ 61) (hwrap : ¬ SmallSlab size)
    (hoff : descriptorSize ≤ firstObjectOffset align) (hoff' : firstObjectOffset align ≤ 48) :
    ∃ n, calcObjectsPerSlab size align (calcSlabOrder size) = some n := by
  have hrem : ∀ total, 8 * size + firstObjectOffset align ≤ total → total ≤ 2 ^ 64 →
      8 ≤ sub64 (sub64 (total % 2 ^ 64) descriptorSize) (calcAlignment align) / size := by
    intro total h1 h2
    rw [Nat.le_div_iff_mul_le (Nat.pos_of_ne_zero h0)]
    unfold sub64 calcAlignment
    unfold descriptorSize at *
    omega
  have h19 : ¬ calcSlabOrder size ≤ 18 := fun h => hwrap (smallSlab_iff.mpr h)
  have h20 := calcSlabOrder_le size
  unfold SmallSlab at hwrap
  unfold calcObjectsPerSlab
  rcases Nat.lt_or_ge 19 (calcSlabOrder size) with hord | hord
  · obtain hord : calcSlabOrder size = 20 := by omega
    have htotal : throughInt (pageSize * 2 ^ 20) = 2 ^ 64 % 2 ^ 64 := by decide
    have hpages : slabPages size ≤ 2 ^ 20 := (calcSlabOrder_le_iff (by omega)).mp h20
    have := hrem (2 ^ 64) (by unfold slabPages pageSize at hpages; omega) (Nat.le_refl _)
    rw [hord]
    simp only [htotal]
    exact ⟨_, if_neg (by omega)⟩
  · have htotal : throughInt (pageSize * 2 ^ 19) = (2 ^ 64 - 2 ^ 31) % 2 ^ 64 := by decide
    have hpages : slabPages size ≤ 2 ^ 19 := (calcSlabOrder_le_iff (by omega)).mp hord
    have := hrem (2 ^ 64 - 2 ^ 31) (by unfold slabPages pageSize at hpages; omega) (by omega)
    obtain hord : calcSlabOrder size = 19 := by omega
    rw [hord]
    simp only [htotal]
    exact ⟨_, if_neg (by omega)⟩

/-- **A size whose 32 bits do not overflow** is accepted. -/
theorem small_accepted (h0 : size ≠ 0) (hle : 8 * size + 4151 < 2 ^ 32) (hsmall : SmallSlab size)
    (hoff : descriptorSize ≤ firstObjectOffset align) (hoff' : firstObjectOffset align ≤ 48) :
    ∃ n, calcObjectsPerSlab size align (calcSlabOrder size) = some n := by
  obtain ⟨order, hord⟩ : ∃ order, order = calcSlabOrder size := ⟨_, rfl⟩
  have hpages : slabPages size ≤ 2 ^ order := (calcSlabOrder_le_iff (by
    have := calcSlabOrder_le size
    omega)).mp (Nat.le_of_eq hord.symm)
  have h18 : 2 ^ order ≤ 2 ^ 18 := Nat.pow_le_pow_right (by omega) (hord ▸ smallSlab_iff.mp hsmall)
  have htotal : throughInt (pageSize * 2 ^ order) = pageSize * 2 ^ order := by
    unfold throughInt pageSize
    rw [if_pos (by omega)]
    omega
  rw [← hord]
  unfold calcObjectsPerSlab
  simp only [htotal]
  refine ⟨_, if_neg ?_⟩
  rw [Nat.not_lt, Nat.le_div_iff_mul_le (Nat.pos_of_ne_zero h0)]
  unfold slabPages pageSize at *
  unfold sub64 calcAlignment
  unfold descriptorSize at *
  omega

/-- **Which sizes are accepted**: of those whose slab is of order 18 or less the ones that 32 bits
have room for, and of the others all below `2 ^ 61`. -/
theorem accepted_iff (hlt : size < 2 ^ 64) :
    (∃ align n, calcObjectAlign size = some align ∧
        calcObjectsPerSlab size align (calcSlabOrder size) = some n) ↔
      size ≠ 0 ∧ size < 2 ^ 61 ∧ (SmallSlab size → 8 * size + 4151 < 2 ^ 32) := by
  constructor
  · rintro ⟨align, n, hal, hn⟩
    have h0 : size ≠ 0 := by
      rintro rfl
      exact absurd hal (by simp [calcObjectAlign])
    obtain ⟨hoff, hoff', -⟩ := firstObjectOffset_spec (calcObjectAlign_cases h0 hlt hal).2
    refine ⟨h0, ?_, fun hsmall => ?_⟩
    · by_contra hge
      rw [calcObjectsPerSlab_huge (by omega)] at hn
      exact absurd hn (by simp)
    · -- eight objects do not fit into 1GB
      have h18 := smallSlab_iff.mp hsmall
      obtain ⟨h8, -, hfit⟩ := calcObjectsPerSlab_small h18 hoff hoff' hn
      have hpow : 2 ^ calcSlabOrder size ≤ 2 ^ 18 := Nat.pow_le_pow_right (by omega) h18
      have hmul := Nat.mul_le_mul_right size h8
      unfold pageSize at hfit
      omega
  · rintro ⟨h0, h61, hsmall⟩
    obtain ⟨align, hal⟩ : ∃ align, calcObjectAlign size = some align := ⟨_, if_neg h0⟩
    obtain ⟨hoff, hoff', -⟩ := firstObjectOffset_spec (calcObjectAlign_cases h0 hlt hal).2
    by_cases h : SmallSlab size
    · obtain ⟨n, hn⟩ := small_accepted h0 (hsmall h) h hoff hoff'
      exact ⟨align, n, hal, hn⟩
    · obtain ⟨n, hn⟩ := wrapped_accepted h0 h61 h hoff hoff'
      exact ⟨align, n, hal, hn⟩

end Slab
end MikroKernel
