import Mathlib.Data.Nat.Bitwise
import Mathlib.Data.Nat.Size
import Mathlib.Tactic

/-!
# Aligned blocks and their siblings, and smeared bits

The block of `2 ^ n` units that pairs with an aligned block at `a` starts at `a ^^^ 2 ^ n`: the
bit `n` of an aligned address is the lowest one that may be set, and flipping it moves to the
other half of the enclosing block of `2 ^ (n + 1)`.
-/

set_option autoImplicit false

namespace Bits

/-- Flipping bit `n` of a multiple of `2 ^ n` flips the parity of the quotient. -/
theorem xor_two_pow {a n : Nat} (h : 2 ^ n ∣ a) :
    a ^^^ 2 ^ n = if a / 2 ^ n % 2 = 0 then a + 2 ^ n else a - 2 ^ n := by
  obtain ⟨q, rfl⟩ := h
  have hpos : 0 < 2 ^ n := Nat.two_pow_pos n
  have hx : 2 ^ n * q ^^^ 2 ^ n = 2 ^ n * (q ^^^ 1) := by
    have := Nat.shiftLeft_xor_distrib (a := q) (b := 1) (i := n)
    simp only [Nat.shiftLeft_eq] at this
    rw [Nat.mul_comm (2 ^ n) q, Nat.mul_comm (2 ^ n) (q ^^^ 1), this, Nat.one_mul]
  rw [hx, Nat.mul_div_cancel_left q hpos]
  split
  · rename_i he
    rw [Nat.xor_one_of_even (Nat.even_iff.mpr he), Nat.mul_add, Nat.mul_one]
  · rename_i ho
    rw [Nat.xor_one_of_odd (Nat.odd_iff.mpr (by omega)), Nat.mul_sub, Nat.mul_one]

/-- Two multiples of `B` less than `B` apart are equal. -/
theorem eq_of_dvd_near {B x y : Nat} (hx : B ∣ x) (hy : B ∣ y) (h1 : x < y + B) (h2 : y < x + B) :
    x = y := by
  obtain ⟨a, rfl⟩ := hx
  obtain ⟨b, rfl⟩ := hy
  rw [← Nat.mul_succ] at h1 h2
  have h3 := Nat.lt_of_mul_lt_mul_left h1
  have h4 := Nat.lt_of_mul_lt_mul_left h2
  rw [show a = b by omega]

/-- Between multiples of `B`, strictly below one step is at most at the multiple. -/
theorem le_of_dvd_near {B x y : Nat} (hx : B ∣ x) (hy : B ∣ y) (h : x < y + B) : x ≤ y := by
  obtain ⟨a, rfl⟩ := hx
  obtain ⟨b, rfl⟩ := hy
  rw [← Nat.mul_succ] at h
  exact Nat.mul_le_mul_left _ (Nat.lt_succ_iff.mp (Nat.lt_of_mul_lt_mul_left h))

/-- Multiples of one number are at least that number apart. -/
theorem add_le_of_dvd {n a b : Nat} (ha : n ∣ a) (hb : n ∣ b) (hlt : a < b) : a + n ≤ b := by
  have hle : n ≤ b - a := Nat.le_of_dvd (by omega) (Nat.dvd_sub hb ha)
  omega

/-- Clearing the low `k` bits of a 64-bit value. -/
theorem and_high_mask {a k : Nat} (ha : a < 2 ^ 64) (hk : k ≤ 64) :
    a &&& (2 ^ 64 - 2 ^ k) = a / 2 ^ k * 2 ^ k := by
  have hmask : 2 ^ 64 - 2 ^ k = (2 ^ (64 - k) - 1) <<< k := by
    rw [Nat.shiftLeft_eq, Nat.sub_mul, Nat.one_mul, ← Nat.pow_add, Nat.sub_add_cancel hk]
  have hdiv : a / 2 ^ k * 2 ^ k = (a >>> k) <<< k := by
    rw [Nat.shiftLeft_eq, Nat.shiftRight_eq_div_pow]
  rw [hmask, hdiv]
  refine Nat.eq_of_testBit_eq (fun i => ?_)
  rw [Nat.testBit_and, Nat.testBit_shiftLeft, Nat.testBit_shiftLeft, Nat.testBit_two_pow_sub_one,
    Nat.testBit_shiftRight]
  by_cases hki : k ≤ i
  · by_cases hi : i < 64
    · simp [hki, Nat.add_sub_cancel' hki, show i - k < 64 - k by omega]
    · have hzero : a.testBit i = false := Nat.testBit_lt_two_pow
        (Nat.lt_of_lt_of_le ha (Nat.pow_le_pow_right (by omega) (by omega)))
      simp [hki, Nat.add_sub_cancel' hki, hzero]
  · simp [hki]

/-! ## The lowest set bit -/

/-- A bit of `x &&& -x` is a bit of `x` that `x - 1` has not. -/
theorem testBit_lowest {x n i : Nat} (h0 : x ≠ 0) (hx : x < 2 ^ n) :
    (x &&& (2 ^ n - x)).testBit i = (x.testBit i && (decide (i < n) && !(x - 1).testBit i)) := by
  have := Nat.testBit_two_pow_sub_succ (show x - 1 < 2 ^ n by omega) i
  rw [show x - 1 + 1 = x by omega] at this
  rw [Nat.testBit_and, this]

theorem lowest_ne_zero {x n : Nat} (h0 : x ≠ 0) (hx : x < 2 ^ n) : x &&& (2 ^ n - x) ≠ 0 := by
  obtain ⟨k, m, hm, rfl⟩ := Nat.exists_eq_two_pow_mul_odd h0
  obtain ⟨q, rfl⟩ := hm
  have hpos := Nat.two_pow_pos k
  have hkn : k < n := by
    by_contra hle
    have := Nat.pow_le_pow_right (show 0 < 2 by omega) (Nat.le_of_not_lt hle)
    have := Nat.le_mul_of_pos_right (2 ^ k) (show 0 < 2 * q + 1 by omega)
    omega
  have hbit : (2 ^ k * (2 * q + 1) &&& (2 ^ n - 2 ^ k * (2 * q + 1))).testBit k = true := by
    have hpred : (2 ^ k * (2 * q + 1) - 1) / 2 ^ k = 2 * q := by
      rw [Nat.div_eq_iff hpos]
      rw [Nat.mul_add, Nat.mul_comm (2 * q)]
      omega
    rw [testBit_lowest h0 hx, Nat.testBit_eq_decide_div_mod_eq, Nat.testBit_eq_decide_div_mod_eq,
      hpred, Nat.mul_div_cancel_left _ hpos]
    simp [hkn, Nat.add_mod]
  intro hz
  rw [hz] at hbit
  simp at hbit

/-- Below bit `k`, the lowest set bit of `x` is that of `x` modulo `2 ^ k`. -/
theorem lowest_of_not_dvd {x n k : Nat} (hx : x < 2 ^ n) (hk : k ≤ n) (hd : x % 2 ^ k ≠ 0) :
    x &&& (2 ^ n - x) = x % 2 ^ k &&& (2 ^ k - x % 2 ^ k) := by
  have hpos := Nat.two_pow_pos k
  have h0 : x ≠ 0 := by
    rintro rfl
    simp at hd
  have hlt : x &&& (2 ^ n - x) < 2 ^ k := by
    refine Nat.lt_pow_two_of_testBit _ (fun i hi => ?_)
    have hdiv : (x - 1) / 2 ^ k = x / 2 ^ k := by
      rw [Nat.div_eq_iff hpos]
      have := Nat.div_add_mod x (2 ^ k)
      rw [Nat.mul_comm] at this
      have := Nat.mod_lt x hpos
      omega
    have hshift : ∀ y : Nat, y.testBit i = (y / 2 ^ k).testBit (i - k) := by
      intro y
      rw [Nat.testBit_div_two_pow, Nat.sub_add_cancel hi]
    rw [testBit_lowest h0 hx, hshift x, hshift (x - 1), hdiv]
    cases (x / 2 ^ k).testBit (i - k) <;> simp
  have hmod : (2 ^ n - x) % 2 ^ k = 2 ^ k - x % 2 ^ k := by
    obtain ⟨c, hc⟩ := Nat.pow_dvd_pow 2 hk
    have hq := Nat.div_add_mod x (2 ^ k)
    have hr := Nat.mod_lt x hpos
    have hc' : x / 2 ^ k < c := by
      rw [Nat.div_lt_iff_lt_mul hpos, Nat.mul_comm, ← hc]
      exact hx
    obtain ⟨e, he⟩ : ∃ e, c = x / 2 ^ k + 1 + e := ⟨c - (x / 2 ^ k + 1), by omega⟩
    have : 2 ^ n - x = 2 ^ k * e + (2 ^ k - x % 2 ^ k) := by
      rw [hc, he, Nat.mul_add, Nat.mul_add]
      omega
    rw [this, Nat.mul_add_mod, Nat.mod_eq_of_lt (by omega)]
  rw [← hmod, ← Nat.and_mod_two_pow, Nat.mod_eq_of_lt hlt]

/-! ## Smearing

`x |= x >> w` with `w = 1, 2, 4, …` copies each bit down. After the widths below `w` a bit is set
iff `x` has one at most `w - 1` places above it. -/

/-- Bit `i` of `y` tells whether `x` has a bit among the `w` places from `i` on. -/
def Smeared (x w y : Nat) : Prop := ∀ i, y.testBit i = true ↔ ∃ d, d < w ∧ x.testBit (i + d) = true

theorem Smeared.one (x : Nat) : Smeared x 1 x := by
  intro i
  constructor
  · intro h
    exact ⟨0, by omega, h⟩
  · intro ⟨d, hd, h⟩
    obtain rfl : d = 0 := by omega
    exact h

/-- One step of the smearing. -/
theorem Smeared.double {x w y : Nat} (h : Smeared x w y) : Smeared x (w + w) (y ||| y >>> w) := by
  intro i
  rw [Nat.testBit_or, Nat.testBit_shiftRight, Bool.or_eq_true, h, h]
  constructor
  · intro hor
    cases hor with
    | inl hlow =>
      obtain ⟨d, hd, hb⟩ := hlow
      exact ⟨d, by omega, hb⟩
    | inr hhigh =>
      obtain ⟨d, hd, hb⟩ := hhigh
      refine ⟨w + d, by omega, ?_⟩
      rwa [← Nat.add_assoc, Nat.add_comm i w]
  · intro ⟨d, hd, hb⟩
    by_cases hdw : d < w
    · exact Or.inl ⟨d, hdw, hb⟩
    · refine Or.inr ⟨d - w, by omega, ?_⟩
      rwa [show w + i + (d - w) = i + d by omega]

/-- The bit below the length is set. -/
theorem testBit_size {x : Nat} (h : 0 < x.size) : x.testBit (x.size - 1) = true := by
  by_contra hb
  have hlt : x < 2 ^ (x.size - 1) := by
    apply Nat.lt_pow_two_of_testBit
    intro i hi
    rcases Nat.eq_or_lt_of_le hi with rfl | hlt
    · exact Bool.eq_false_iff.mpr hb
    · exact Nat.testBit_lt_two_pow (Nat.size_le.mp (by omega))
  have := Nat.size_le.mpr hlt
  omega

/-- **Smearing as far as the length of `x`** sets all bits below the length. -/
theorem Smeared.eq {x w y : Nat} (h : Smeared x w y) (hx : x < 2 ^ w) : y = 2 ^ x.size - 1 := by
  apply Nat.eq_of_testBit_eq
  intro i
  rw [Nat.testBit_two_pow_sub_one, Bool.eq_iff_iff, h i, decide_eq_true_iff]
  constructor
  · intro ⟨d, _, hb⟩
    have := Nat.lt_size.mpr (Nat.ge_two_pow_of_testBit hb)
    omega
  · intro hi
    have hle := Nat.size_le.mpr hx
    refine ⟨x.size - 1 - i, by omega, ?_⟩
    rw [show i + (x.size - 1 - i) = x.size - 1 by omega]
    exact testBit_size (by omega)

end Bits
