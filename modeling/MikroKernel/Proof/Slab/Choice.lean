import MikroKernel.Proof.Slab.Create

/-!
# The cache of a size

`size_to_index` rounds a size up to a power of two and takes its logarithm. The rounding smears bits
in 32 bits, so a size that does not fit in 32 bits is taken for its low half: it gets an index when
that half is between 9 and 2048. `slab_kalloc` refuses sizes above 2048 before it asks for the
index, `slab_kfree` does not, and gives such an object to a cache (`cacheChosen_iff`).
-/

set_option autoImplicit false

namespace MikroKernel
namespace Slab

variable {L : Layout} {slabCaches size i : Nat}

/-! ## `kmath.c` -/

/-- The loop counts the halvings. -/
theorem klog2Loop_eq {fuel x r : Nat} (h : x < 2 ^ fuel) : klog2Loop fuel x r = r + x.log2 := by
  induction fuel generalizing x r with
  | zero =>
    obtain rfl : x = 0 := by omega
    rfl
  | succ fuel ih =>
    unfold klog2Loop
    rw [Nat.log2_def]
    by_cases h2 : 2 ≤ x
    · rw [if_neg (by omega), if_pos h2, ih (by omega)]
      omega
    · rw [if_pos (by omega), if_neg h2]
      rfl

theorem klog2_two_pow {n : Nat} (h : n < 64) : klog2 (2 ^ n) = n := by
  unfold klog2
  rw [klog2Loop_eq (Nat.pow_lt_pow_right (by omega) h), Nat.log2_two_pow, Nat.zero_add]

/-- The smearing of `round_up_pow2` goes as far as 32 bits. -/
theorem roundUpPow2_eq {x : Nat} (h0 : x ≠ 0) (hx : x ≤ 2 ^ 32) :
    roundUpPow2 x = 2 ^ (x - 1).size % 2 ^ 32 := by
  have hsmear := (Bits.Smeared.one (x - 1)).double.double.double.double.double
  have hall := hsmear.eq (show x - 1 < 2 ^ 32 by omega)
  have hpos := Nat.two_pow_pos (x - 1).size
  unfold roundUpPow2
  rw [if_neg h0]
  show (_ + 1) % 2 ^ 32 = _
  rw [hall, Nat.sub_add_cancel hpos]

theorem klog2_roundUpPow2 {x : Nat} (h0 : x ≠ 0) (hx : x ≤ 2 ^ 31) :
    klog2 (roundUpPow2 x) = (x - 1).size := by
  have hsize : (x - 1).size ≤ 31 := Nat.size_le.mpr (by omega)
  rw [roundUpPow2_eq h0 (by omega), Nat.mod_eq_of_lt (Nat.pow_lt_pow_right (by omega) (by omega)),
    klog2_two_pow (by omega)]

/-- Above `2 ^ 31` the power of two does not fit. -/
theorem klog2_roundUpPow2_high {x : Nat} (h31 : 2 ^ 31 < x) (hx : x ≤ 2 ^ 32) :
    klog2 (roundUpPow2 x) = 0 := by
  have h1 : (x - 1).size ≤ 32 := Nat.size_le.mpr (by omega)
  have h2 : 31 < (x - 1).size := Nat.lt_size.mpr (by omega)
  rw [roundUpPow2_eq (by omega) hx, show (x - 1).size = 32 by omega, Nat.mod_self]
  rfl

/-! ## `size_to_index` -/

/-- The 32 bits that are rounded up. -/
def rounded (size : Nat) : Nat := (if size < 16 then 16 else size) % 2 ^ 32

/-- The index is a logarithm less 4, in 32 bits. -/
theorem sizeToIndex_eq (h0 : size ≠ 0) :
    sizeToIndex size = (klog2 (roundUpPow2 (rounded size)) + 2 ^ 32 - 4) % 2 ^ 32 := by
  have h16 : klog2 16 = 4 := by decide
  unfold sizeToIndex rounded sub64
  rw [if_neg h0]
  simp only [h16]
  omega

/-- The index is that of a cache if the rounded number is between 9 and 2048, and then it is the
logarithm rounded up, less 4. -/
theorem sizeToIndex_lt_iff (h0 : size ≠ 0) :
    sizeToIndex size < 8 ↔ 8 < rounded size ∧ rounded size ≤ 2048 := by
  have hlt : rounded size < 2 ^ 32 := Nat.mod_lt _ (by decide)
  rw [sizeToIndex_eq h0]
  by_cases hzero : rounded size = 0
  · rw [hzero, show klog2 (roundUpPow2 0) = 0 from by decide]
    omega
  by_cases h31 : rounded size ≤ 2 ^ 31
  · have h3 : (rounded size - 1).size ≤ 3 ↔ rounded size - 1 < 2 ^ 3 := Nat.size_le
    have h11 : (rounded size - 1).size ≤ 11 ↔ rounded size - 1 < 2 ^ 11 := Nat.size_le
    have hsize : (rounded size - 1).size ≤ 31 := Nat.size_le.mpr (by omega)
    rw [klog2_roundUpPow2 hzero h31]
    omega
  · rw [klog2_roundUpPow2_high (by omega) (by omega)]
    omega

/-- Up to 2048 the index is below another iff the size is at most the other's object size. -/
theorem sizeToIndex_le_iff (h0 : size ≠ 0) (h : size ≤ 2048) :
    sizeToIndex size ≤ i ↔ size ≤ 2 ^ (i + 4) := by
  have hr : rounded size = if size < 16 then 16 else size := by
    unfold rounded
    split <;> exact Nat.mod_eq_of_lt (by omega)
  have h16 : 16 ≤ rounded size ∧ rounded size ≤ 2048 := by
    rw [hr]
    split <;> omega
  have hsize : (rounded size - 1).size ≤ 11 := Nat.size_le.mpr (by omega)
  have hfour : 3 < (rounded size - 1).size := Nat.lt_size.mpr (by omega)
  have hi : (rounded size - 1).size ≤ i + 4 ↔ rounded size - 1 < 2 ^ (i + 4) := Nat.size_le
  have hpow : 2 ^ 4 ≤ 2 ^ (i + 4) := Nat.pow_le_pow_right (by omega) (by omega)
  rw [sizeToIndex_eq h0, klog2_roundUpPow2 (by omega) (by omega),
    show ((rounded size - 1).size + 2 ^ 32 - 4) % 2 ^ 32 ≤ i
      ↔ (rounded size - 1).size ≤ i + 4 by omega, hi, hr]
  split <;> omega

/-! ## The two functions -/

/-- The sizes that a static cache is for. -/
def Cached (size : Nat) : Prop := 1 ≤ size ∧ size ≤ 2048

/-- What the choice of a cache is for: `m` holds the static caches. -/
structure CacheChosen (m : Mem) (slabCaches size : Nat) : Prop where
  index : sizeToIndex size < 8 ↔ Cached size
  least : sizeToIndex size < 8 →
    IsLeast {i | i < 8 ∧ size ≤ m (slabCache slabCaches i) .objectSize} (sizeToIndex size)
  kalloc : Cached size → ∀ pages,
    slabKalloc pages slabCaches size
    = kmemCacheKalloc pages (slabCache slabCaches (sizeToIndex size))
  kfree : Cached size → ∀ object,
    slabKfree slabCaches object size
    = kmemCacheKfree (slabCache slabCaches (sizeToIndex size)) object
  refused : ¬ Cached size → ∀ pages, slabKalloc pages slabCaches size = pure 0
  ignored : ¬ Cached size → ∀ object, slabKfree slabCaches object size = pure ()

/-- A size of more than 32 bits whose low half is taken for a size. -/
def TakenForSmall (size : Nat) : Prop := 2 ^ 32 ≤ size ∧ 8 < size % 2 ^ 32 ∧ size % 2 ^ 32 ≤ 2048

theorem sizeToIndex_cached (size : Nat) : sizeToIndex size < 8 ↔ Cached size ∨
    TakenForSmall size := by
  by_cases h0 : size = 0
  · subst h0
    unfold Cached TakenForSmall
    exact iff_of_false (by decide) (by omega)
  · rw [sizeToIndex_lt_iff h0]
    unfold rounded Cached TakenForSmall
    split <;> omega

/-- **The choice is right exactly for the sizes that are not taken for small ones.** -/
theorem cacheChosen_iff {s s' : KState} {st : Status}
    (himg : ∀ i, i < cacheSize * 8 → L.image (slabCaches + i) = true)
    (hrun : initSlab slabCaches L s = .ok (st, s')) (size : Nat) :
    CacheChosen s'.mem slabCaches size ↔ ¬ TakenForSmall size := by
  have hidx := sizeToIndex_cached size
  constructor
  · intro h hsmall
    have hcached := h.index.mp (hidx.mpr (Or.inr hsmall))
    have h1 := hcached.2
    have h2 := hsmall.1
    omega
  · intro hnot
    have hindex : sizeToIndex size < 8 ↔ Cached size := by
      rw [hidx]
      exact or_iff_left hnot
    refine ⟨hindex, fun hlt => ?_, fun hc pages => ?_, fun hc object => ?_, fun hc pages => ?_,
      fun hc object => ?_⟩
    · have hc := hindex.mp hlt
      have hobject : ∀ i, i < 8 → s'.mem (slabCache slabCaches i) .objectSize = 2 ^ (i + 4) := by
        intro i hi
        obtain ⟨g, hsize, hmem, -⟩ := initSlab_returned himg hrun hi
        rw [hmem.objectSize, hsize]
      have hle : ∀ i, sizeToIndex size ≤ i ↔ size ≤ 2 ^ (i + 4) :=
        fun i => sizeToIndex_le_iff (by have := hc.1; omega) hc.2
      refine ⟨⟨hlt, ?_⟩, fun i hi => ?_⟩
      · rw [hobject _ hlt]
        exact (hle _).mp (Nat.le_refl _)
      · rw [hle, ← hobject i hi.1]
        exact hi.2
    · unfold slabKalloc
      have h1 := hindex.mpr hc
      have h2 := hc.2
      rw [if_neg (by omega), if_neg (by omega)]
    · unfold slabKfree
      have h1 := hindex.mpr hc
      rw [if_neg (by omega)]
    · unfold slabKalloc
      have h1 : ¬ sizeToIndex size < 8 := fun h => hc (hindex.mp h)
      rw [if_pos (show sizeToIndex size ≥ 8 by omega), ite_self]
    · unfold slabKfree
      have h1 : ¬ sizeToIndex size < 8 := fun h => hc (hindex.mp h)
      rw [if_pos (by omega)]

/-- 100 bytes go to the cache of 128. -/
theorem cacheChosen_iff_hundred :
    ∃ s', initSlab kernelImageStart smallLayout bootState = .ok (.ok, s') ∧
    ¬ TakenForSmall 100 ∧ CacheChosen s'.mem kernelImageStart 100 := by
  obtain ⟨s', hrun⟩ := initSlab_returns smallLayout_caches bootState
  have hnot : ¬ TakenForSmall 100 := by
    unfold TakenForSmall
    omega
  exact ⟨s', hrun, hnot, (cacheChosen_iff smallLayout_caches hrun 100).mpr hnot⟩

/-- **A free of `2 ^ 32 + 64` bytes** goes to the cache of 64. An allocation of that size is
refused. -/
theorem large_free_taken : ∃ s', initSlab kernelImageStart smallLayout bootState = .ok (.ok, s') ∧
    (∀ pages, slabKalloc pages kernelImageStart (2 ^ 32 + 64) = pure 0) ∧
    (∀ object, slabKfree kernelImageStart object (2 ^ 32 + 64) =
      kmemCacheKfree (slabCache kernelImageStart 2) object) ∧
    ¬ CacheChosen s'.mem kernelImageStart (2 ^ 32 + 64) := by
  obtain ⟨s', hrun⟩ := initSlab_returns smallLayout_caches bootState
  have hidx : sizeToIndex (2 ^ 32 + 64) = 2 := by decide
  refine ⟨s', hrun, fun pages => ?_, fun object => ?_, fun h => ?_⟩
  · unfold slabKalloc
    rw [if_pos (by decide)]
  · unfold slabKfree
    rw [hidx, if_neg (by decide)]
  · have hcached := h.index.mp (by rw [hidx]; decide)
    exact absurd hcached.2 (by decide)

end Slab
end MikroKernel
