import MikroKernel.Lib.Run
import MikroKernel.Proof.Alloc.Overlaid
import MikroKernel.Proof.Mmu.Walk

/-!
# Runs of `map_pages` and `unmap_pages`

What the two functions are for is said without tables: there is a map from pages to translations
(`PageMap`), one function adds a range to it and the other takes a range away. **After every run the
walk gives what the map gives**, `walk_of_run`, and no call panics but for want of memory.

The tables themselves are the subject of `tidy_of_run`: after every run each is led to by one entry,
none is empty, and they are the frames taken from the page allocator and not given back.

Both ask of the page allocator that a frame given back is merged with free blocks only.
`table_merged` is the run that shows why: the PML4 is in use, and `buddy_kfree` takes it for the
free buddy of a PD.
-/

set_option autoImplicit false

namespace MikroKernel
namespace Mmu

open Run

/-! ## Calls -/

/-- The arguments after the PML4. -/
structure Args where
  paddr : Nat
  vaddr : Nat
  flags : Nat
  numPages : Nat
deriving DecidableEq, Repr

namespace Args

/-- The size of the pages of the call. -/
def size (a : Args) : Nat := if a.flags &&& pteHugePage ≠ 0 then hugePageSize else pageSize

/-- Among pages of that size, the number of the one that has the 4KB page `P`. -/
def slot (a : Args) (P : Nat) : Nat := P / (a.size / pageSize)

/-- The first page of the call. -/
def first (a : Args) : Nat := a.slot (pageNo a.vaddr)

/-- The 4KB page `P` is in page `i` of the range. -/
def At (a : Args) (i P : Nat) : Prop := a.slot P = a.slot (pageNo ((a.vaddr + i * a.size) % 2 ^ 64))

instance (a : Args) (i P : Nat) : Decidable (a.At i P) :=
  inferInstanceAs (Decidable (a.slot P = a.slot (pageNo ((a.vaddr + i * a.size) % 2 ^ 64))))

/-- The 4KB page `P` is in the range. -/
def Covers (a : Args) (P : Nat) : Prop := ∃ i, i < a.numPages ∧ a.At i P

instance (a : Args) (P : Nat) : Decidable (a.Covers P) :=
  inferInstanceAs (Decidable (∃ i, i < a.numPages ∧
    a.slot P = a.slot (pageNo ((a.vaddr + i * a.size) % 2 ^ 64))))

/-- The range does not wrap around the index space. -/
def NoWrap (a : Args) : Prop := a.first + a.numPages ≤ a.slot (2 ^ 36)

variable {a : Args} {i P : Nat}

theorem size_huge (h : a.flags &&& pteHugePage ≠ 0) : a.size = hugePageSize := if_pos h

theorem size_small (h : a.flags &&& pteHugePage = 0) : a.size = pageSize := if_neg (not_not.mpr h)

theorem size_pos (a : Args) : 0 < a.size := by
  unfold size
  split <;> decide

theorem slot_huge (h : a.flags &&& pteHugePage ≠ 0) (P : Nat) : a.slot P = P / 512 := by
  unfold slot
  rw [size_huge h]
  rfl

theorem slot_small (h : a.flags &&& pteHugePage = 0) (P : Nat) : a.slot P = P := by
  unfold slot
  rw [size_small h]
  exact Nat.div_one P

theorem pageSize_dvd_size (a : Args) : pageSize ∣ a.size := by
  unfold size
  split
  · decide
  · exact Nat.dvd_refl _

/-- Without wrapping, page `i` of the range is the `i`-th from the first. -/
theorem NoWrap.slot_at (h : a.NoWrap) (hi : i < a.numPages) :
    a.slot (pageNo ((a.vaddr + i * a.size) % 2 ^ 64)) = a.first + i := by
  unfold NoWrap first at h
  unfold first
  by_cases hmark : a.flags &&& pteHugePage = 0
  · simp only [slot_small hmark, size_small hmark] at h ⊢
    unfold pageNo pageSize at *
    omega
  · simp only [slot_huge hmark, size_huge hmark] at h ⊢
    unfold pageNo hugePageSize at *
    omega

theorem NoWrap.covers_iff (h : a.NoWrap) :
    a.Covers P ↔ a.first ≤ a.slot P ∧ a.slot P < a.first + a.numPages := by
  constructor
  · rintro ⟨i, hi, hat⟩
    unfold At at hat
    rw [h.slot_at hi] at hat
    omega
  · intro hin
    refine ⟨a.slot P - a.first, by omega, ?_⟩
    unfold At
    rw [h.slot_at (by omega)]
    omega

end Args

/-! ## The map -/

/-- Translations, by the number of the 4KB page. A 2MB page is there at each of its 512 numbers. -/
abbrev PageMap := Nat → Option Leaf

namespace PageMap

/-- Page `i` of the range is added as `(paddr + i * size, flags)`. -/
def map (M : PageMap) (a : Args) : PageMap := fun P =>
  if a.Covers P then some ⟨a.paddr + (a.slot P - a.first) * a.size, a.flags, a.size⟩ else M P

/-- The pages of the range are deleted. -/
def unmap (M : PageMap) (a : Args) : PageMap := fun P => if a.Covers P then none else M P

/-- Every frame is aligned to the size of its page. -/
def Aligned (M : PageMap) : Prop := ∀ P x, M P = some x → x.size ∣ x.frame

theorem Aligned.map {M : PageMap} {a : Args} (h : M.Aligned) (ha : a.size ∣ a.paddr) :
    (M.map a).Aligned := by
  intro P x hx
  unfold PageMap.map at hx
  by_cases hc : a.Covers P
  · rw [if_pos hc, Option.some.injEq] at hx
    subst hx
    exact Nat.dvd_add ha (Nat.dvd_mul_left _ _)
  · rw [if_neg hc] at hx
    exact h P x hx

theorem Aligned.unmap {M : PageMap} (a : Args) (h : M.Aligned) : (M.unmap a).Aligned := by
  intro P x hx
  unfold PageMap.unmap at hx
  by_cases hc : a.Covers P
  · rw [if_pos hc] at hx
    exact absurd hx (by simp)
  · rw [if_neg hc] at hx
    exact h P x hx

end PageMap

/-- What is asked of a call of `map_pages`: the flags have `PTE_PRESENT` and no bit of the address,
the frames are aligned, the range does not wrap and none of it is mapped. The two bounds are those
of `uint64_t`. -/
structure MapArgs (mapped : Nat → Prop) (a : Args) : Prop where
  present : a.flags &&& ptePresent ≠ 0
  clear : a.flags &&& pteAddrMask = 0
  flags_lt : a.flags < 2 ^ 64
  aligned : a.size ∣ a.paddr
  paddr_lt : a.paddr < 2 ^ 64
  noWrap : a.NoWrap
  fresh : ∀ P, a.Covers P → ¬ mapped P

/-- What is asked of a call of `unmap_pages`: whatever is mapped in its range is mapped in pages of
its size to the frames it names. -/
def UnmapArgs (M : PageMap) (a : Args) : Prop :=
  ∀ i P x, i < a.numPages → a.At i P → M P = some x →
    x.size = a.size ∧ x.frame = a.paddr + i * a.size

/-- `map_pages(root, ...)`. -/
def Args.map (a : Args) (kmalloc : Nat → K Nat) (root : Nat) : K Unit :=
  mapPages kmalloc root a.paddr a.vaddr a.flags a.numPages

/-- `unmap_pages(root, ...)`. -/
def Args.unmap (a : Args) (kfree : Nat → Nat → K Unit) (root : Nat) : K Unit :=
  unmapPages kfree root a.paddr a.vaddr a.flags a.numPages

/-- Every table the call of `unmap_pages` gives back merges with free blocks only. -/
def Args.Sound {L : Layout} (a : Args) (A : PhysAlloc L) (root : Nat) (s : KState) : Prop :=
  FreesSound A (fun kfree => a.unmap kfree root) s

instance {L : Layout} (a : Args) (A : PhysAlloc L) (root : Nat) (s : KState) :
    Decidable (a.Sound A root s) := inferInstanceAs (Decidable (FreesSound _ _ _))

variable {L : Layout} {A : PhysAlloc L} {s s' : KState} {root : Nat} {T T' : Tables} {a : Args}
  {M : PageMap}

/-! ## What a call does to the leaves -/

/-- The 4KB leaves after a call of `map_pages`. -/
def Args.mapSmall (a : Args) (T : Tables) : Nat → Nat :=
  if a.flags &&& pteHugePage ≠ 0 then T.small
  else spread a.first a.numPages a.size a.paddr a.flags T.small

/-- The 2MB leaves after a call of `map_pages`. -/
def Args.mapHuge (a : Args) (T : Tables) : Nat → Nat :=
  if a.flags &&& pteHugePage ≠ 0 then spread a.first a.numPages a.size a.paddr a.flags T.huge
  else T.huge

theorem Tables.lookup_of_huge {P : Nat} (h : T.huge (P / 512) ≠ 0) :
    T.lookup P = some (leafOf (T.huge (P / 512)) hugePageSize) := if_pos h

theorem Tables.lookup_of_small {P : Nat} (h0 : T.huge (P / 512) = 0) (h : T.small P ≠ 0) :
    T.lookup P = some (leafOf (T.small P) pageSize) := by
  unfold Tables.lookup
  rw [if_neg (not_not.mpr h0), if_pos h]

theorem Tables.lookup_eq_none {P : Nat} : T.lookup P = none ↔ T.huge (P / 512) = 0 ∧
    T.small P = 0 := by
  unfold Tables.lookup
  by_cases h0 : T.huge (P / 512) = 0 <;> by_cases h1 : T.small P = 0 <;> simp [h0, h1]

/-- Two sizes of pages do not overlap. -/
theorem Shape.small_of_huge {P : Nat} (h : Shape root T) (hh : T.huge (P / 512) ≠ 0) :
    T.small P = 0 := by
  refine h.small_of_none (Nat.le_refl 1) (by omega) ?_
  rw [Nat.pow_one]
  exact h.huge_none hh

/-- The address of the first frame, as the code takes it: a 2MB frame is not rounded. -/
def Args.base (a : Args) : Nat :=
  if a.flags &&& pteHugePage ≠ 0 then a.paddr else alignDown a.paddr pageSize

theorem Args.base_of_aligned (h : a.size ∣ a.paddr) : a.base = a.paddr := by
  unfold Args.base
  split
  · rfl
  · exact alignDown_of_dvd (Nat.dvd_trans a.pageSize_dvd_size h)

/-- No page of the other size is in the range. -/
def Fits (T : Tables) (a : Args) : Prop :=
  ∀ P, a.Covers P → if a.flags &&& pteHugePage ≠ 0 then T.dir 1 (P / 512) = none
    else T.huge (P / 512) = 0

/-- **A call of `map_pages`**, over pages of its own size or none. -/
theorem map_over_yields (h : Inv A root s T) (hfull : Full T) (hpres : a.flags &&& ptePresent ≠ 0)
    (hp : a.paddr < 2 ^ 64) (hnw : a.NoWrap) (hfit : Fits T a) :
    Tied L nullAlarm (· ∈ allocFailures) (a.map (orHalt A.kmalloc) root) (a.map A.kmalloc root) s
      (fun _ s' => Holds A root T s
      (if a.flags &&& pteHugePage ≠ 0 then T.small
        else spread a.first a.numPages a.size a.base a.flags T.small)
      (if a.flags &&& pteHugePage ≠ 0 then spread a.first a.numPages a.size a.base a.flags T.huge
        else T.huge) s') := by
  have hcov : ∀ P, a.first ≤ a.slot P → a.slot P < a.first + a.numPages → a.Covers P :=
    fun P h1 h2 => hnw.covers_iff.mpr ⟨h1, h2⟩
  have hwrap := hnw
  unfold Args.NoWrap at hwrap
  unfold Args.map Args.base
  by_cases hmark : a.flags &&& pteHugePage = 0
  · unfold Args.first at hwrap hcov ⊢
    simp only [a.slot_small hmark] at hwrap hcov ⊢
    simp only [if_neg (not_not.mpr hmark)]
    rw [a.size_small hmark]
    refine mapPages_small h hfull hpres hmark hp hwrap (fun P h1 h2 => ?_)
    have := hfit P (hcov P h1 h2)
    rwa [if_neg (not_not.mpr hmark)] at this
  · unfold Args.first at hwrap hcov ⊢
    simp only [a.slot_huge hmark] at hwrap hcov ⊢
    simp only [if_pos hmark]
    rw [a.size_huge hmark]
    refine mapPages_huge h hfull hpres hmark hp (by omega) (fun Q h1 h2 => ?_)
    have := hfit (Q * 512) (hcov _ (by omega) (by omega))
    rwa [if_pos hmark, Nat.mul_div_cancel _ (by omega)] at this

/-- Where nothing is mapped, nothing is in the way. -/
theorem fits_of_fresh (hfull : Full T) (hnw : a.NoWrap)
    (hfree : ∀ P, a.Covers P → T.lookup P = none) :
    Fits T a := by
  intro P hP
  by_cases hmark : a.flags &&& pteHugePage = 0
  · rw [if_neg (not_not.mpr hmark)]
    exact (Tables.lookup_eq_none.mp (hfree P hP)).1
  · rw [if_pos hmark]
    -- a PT there would have a page
    cases hd : T.dir 1 (P / 512) with
    | none => rfl
    | some t =>
      obtain ⟨i, hi, hne⟩ := hfull (by omega) hd
      have hcov : a.Covers (P / 512 * 512 + i) := by
        rw [hnw.covers_iff, a.slot_huge hmark] at hP ⊢
        rwa [show (P / 512 * 512 + i) / 512 = P / 512 by omega]
      exact absurd (Tables.lookup_eq_none.mp (hfree _ hcov)).2 hne

/-- **A call of `map_pages`** in a range where nothing is mapped. -/
theorem map_yields (h : Inv A root s T) (hfull : Full T) (ha : MapArgs (T.lookup · ≠ none) a) :
    Tied L nullAlarm (· ∈ allocFailures) (a.map (orHalt A.kmalloc) root) (a.map A.kmalloc root) s
      (fun _ s' => Holds A root T s (a.mapSmall T) (a.mapHuge T) s') := by
  have hfit := fits_of_fresh hfull ha.noWrap (fun P hP => not_not.mp (ha.fresh P hP))
  have hover := map_over_yields h hfull ha.present ha.paddr_lt ha.noWrap hfit
  rwa [Args.base_of_aligned ha.aligned] at hover

/-- The leaf of a page is its frame and its flags. -/
theorem leafOf_or {p flags : Nat} (size : Nat) (hp : pageSize ∣ p) (hlt : p < 2 ^ 52)
    (hclear : flags &&& pteAddrMask = 0) (hf : flags < 2 ^ 64) :
    leafOf (p ||| flags) size = ⟨p, flags, size⟩ := by
  have hmask : pteAddrMask &&& pteFlagsMask = 0 := by decide
  have hall : pteAddrMask ||| pteFlagsMask = 2 ^ 64 - 1 := by decide
  have hframe := or_and_mask hp hlt hclear
  have hpflags : p &&& pteFlagsMask = 0 := by
    rw [← and_mask_of_dvd hp hlt, Nat.and_assoc, hmask, Nat.and_zero]
  have hflags : flags &&& pteFlagsMask = flags := by
    have := Nat.and_two_pow_sub_one_of_lt_two_pow hf
    rwa [← hall, Nat.and_or_distrib_left, hclear, Nat.zero_or] at this
  unfold leafOf
  rw [hframe, Nat.and_or_distrib_right, hpflags, hflags, Nat.zero_or]

/-- The leaf of a page of the range. -/
theorem MapArgs.leaf {mapped : Nat → Prop} (ha : MapArgs mapped a)
    (hphys : a.paddr + a.numPages * a.size ≤ 2 ^ 52) {j : Nat} (hj : j < a.numPages) :
    (a.paddr + j * a.size) % 2 ^ 64 ||| a.flags ≠ 0 ∧
      leafOf ((a.paddr + j * a.size) % 2 ^ 64 ||| a.flags) a.size
        = ⟨a.paddr + j * a.size, a.flags, a.size⟩ := by
  have hdvd : pageSize ∣ a.paddr + j * a.size :=
    Nat.dvd_trans a.pageSize_dvd_size (Nat.dvd_add ha.aligned (Nat.dvd_mul_left _ _))
  have hpos := a.size_pos
  have hlt : a.paddr + j * a.size < 2 ^ 52 := by
    have h1 : (j + 1) * a.size ≤ a.numPages * a.size := Nat.mul_le_mul_right _ hj
    rw [Nat.succ_mul] at h1
    omega
  rw [Nat.mod_eq_of_lt (by omega)]
  exact ⟨ne_zero_of_and (leaf_mark ha.present),
    leafOf_or a.size hdvd hlt ha.clear ha.flags_lt⟩

/-- **The leaves after `map_pages` are those of the map.** -/
theorem lookup_map (ha : MapArgs (T.lookup · ≠ none) a)
    (hphys : a.paddr + a.numPages * a.size ≤ 2 ^ 52) (hsmall : T'.small = a.mapSmall T)
    (hhuge : T'.huge = a.mapHuge T) : T'.lookup = PageMap.map T.lookup a := by
  funext P
  unfold PageMap.map
  by_cases hc : a.Covers P
  · rw [if_pos hc]
    obtain ⟨h0, h1⟩ := Tables.lookup_eq_none.mp (not_not.mp (ha.fresh P hc))
    have hin := ha.noWrap.covers_iff.mp hc
    obtain ⟨hne, hleaf⟩ := ha.leaf hphys (j := a.slot P - a.first) (by omega)
    by_cases hmark : a.flags &&& pteHugePage = 0
    · have hs : T'.small P = (a.paddr + (a.slot P - a.first) * a.size) % 2 ^ 64 ||| a.flags := by
        rw [hsmall]
        unfold Args.mapSmall spread
        rw [if_neg (not_not.mpr hmark)]
        rw [a.slot_small hmark] at hin ⊢
        rw [if_pos hin]
      have hh : T'.huge (P / 512) = 0 := by
        rw [hhuge]
        unfold Args.mapHuge
        rw [if_neg (not_not.mpr hmark), h0]
      rw [Tables.lookup_of_small hh (by rwa [hs]), hs, ← hleaf, a.size_small hmark]
    · have hh :
          T'.huge (P / 512) = (a.paddr + (a.slot P - a.first) * a.size) % 2 ^ 64 ||| a.flags := by
        rw [hhuge]
        unfold Args.mapHuge spread
        rw [if_pos hmark]
        rw [a.slot_huge hmark] at hin ⊢
        rw [if_pos hin]
      rw [Tables.lookup_of_huge (by rwa [hh]), hh, ← hleaf, a.size_huge hmark]
  · rw [if_neg hc]
    rw [ha.noWrap.covers_iff] at hc
    unfold Tables.lookup
    rw [hsmall, hhuge]
    unfold Args.mapSmall Args.mapHuge spread
    by_cases hmark : a.flags &&& pteHugePage = 0
    · rw [a.slot_small hmark] at hc
      rw [if_neg (not_not.mpr hmark), if_neg (not_not.mpr hmark), if_neg hc]
    · rw [a.slot_huge hmark] at hc
      rw [if_pos hmark, if_pos hmark, if_neg hc]

/-- The 4KB leaves after a call of `unmap_pages`. -/
def Args.unmapSmall (a : Args) (T : Tables) : Nat → Nat :=
  if a.flags &&& pteHugePage ≠ 0 then T.small else wipe (smallKey a.vaddr) a.numPages 0 T.small

/-- The 2MB leaves after a call of `unmap_pages`. -/
def Args.unmapHuge (a : Args) (T : Tables) : Nat → Nat :=
  if a.flags &&& pteHugePage ≠ 0 then wipe (hugeKey a.vaddr) a.numPages 0 T.huge else T.huge

/-- The call was asked for a page that is not what it was said to be. -/
def Args.Wrong (a : Args) (T : Tables) : Prop :=
  if a.flags &&& pteHugePage ≠ 0 then
    ∃ j, j < a.numPages ∧
      WrongHuge T (hugeKey a.vaddr j) ((alignDown a.paddr hugePageSize + j * hugePageSize) % 2 ^ 64)
  else
    ∃ j, j < a.numPages ∧
      WrongSmall T (smallKey a.vaddr j) ((alignDown a.paddr pageSize + j * pageSize) % 2 ^ 64)

theorem checked_unmap_yields (a : Args) (h : Inv A root s T) (hfull : Full T) :
    Yields L (a.unmap A.checkedKfree root) s (OrClash fun _ => a.Wrong T)
      (fun _ s' => Holds A root T s (a.unmapSmall T) (a.unmapHuge T) s') := by
  unfold Args.unmap Args.Wrong Args.unmapSmall Args.unmapHuge
  by_cases hmark : a.flags &&& pteHugePage = 0
  · simp only [if_neg (not_not.mpr hmark)]
    exact unmapPages_small h hfull hmark
  · simp only [if_pos hmark]
    exact unmapPages_huge h hfull hmark

/-- **A call of `unmap_pages`** whose frees are sound. -/
theorem unmap_yields (a : Args) (h : Inv A root s T) (hfull : Full T) (hs : a.Sound A root s) :
    Yields L (a.unmap A.kfree root) s (fun _ => a.Wrong T)
      (fun _ s' => Holds A root T s (a.unmapSmall T) (a.unmapHuge T) s') := by
  refine Yields.of_guarded ?_ hs (checked_unmap_yields a h hfull)
  unfold Args.unmap
  infer_instance

/-- The frame of an entry is below `2 ^ 52` and aligned to 4KB. -/
theorem frame_bounds (x : Nat) : x &&& pteAddrMask < 2 ^ 52 ∧ pageSize ∣ x &&& pteAddrMask := by
  refine ⟨Nat.lt_of_le_of_lt Nat.and_le_right (by decide), ?_⟩
  have : (x &&& pteAddrMask) % 2 ^ 12 = 0 := by
    rw [Nat.and_mod_two_pow, show pteAddrMask % 2 ^ 12 = 0 by decide, Nat.and_zero]
  exact Nat.dvd_of_mod_eq_zero this

/-- The frame that a call is to find at page `j`, as the code computes it. -/
theorem expected_frame {x size p j : Nat} (hlt : x < 2 ^ 52) (hdvd : size ∣ x)
    (hx : x = p + j * size) : (alignDown p size + j * size) % 2 ^ 64 = x := by
  have hp : size ∣ p := by
    rw [hx] at hdvd
    exact (Nat.dvd_add_left (Nat.dvd_mul_left _ _)).mp hdvd
  rw [alignDown_of_dvd hp, ← hx, Nat.mod_eq_of_lt (by omega)]

/-- A call whose pages are what it says finds nothing wrong. -/
theorem UnmapArgs.not_wrong (ha : UnmapArgs T.lookup a) (hs : Shape root T)
    (hal : ∀ P x, a.Covers P → T.lookup P = some x → x.size ∣ x.frame) : ¬ a.Wrong T := by
  unfold Args.Wrong
  by_cases hmark : a.flags &&& pteHugePage = 0
  · rw [if_neg (not_not.mpr hmark)]
    rintro ⟨j, hj, hw⟩
    have hat : a.At j (smallKey a.vaddr j) := by
      unfold Args.At smallKey
      rw [a.size_small hmark]
    by_cases h0 : T.huge (smallKey a.vaddr j / 512) = 0
    · obtain ⟨h1, h2⟩ := hw.resolve_left (not_not.mpr h0)
      obtain ⟨-, hframe⟩ := ha j _ _ hj hat (Tables.lookup_of_small h0 h1)
      rw [a.size_small hmark] at hframe
      have hb := frame_bounds (T.small (smallKey a.vaddr j))
      exact h2 (expected_frame hb.1 hb.2 hframe).symm
    · obtain ⟨hsize, -⟩ := ha j _ _ hj hat (Tables.lookup_of_huge h0)
      rw [a.size_small hmark] at hsize
      exact absurd hsize (show ¬ hugePageSize = pageSize by decide)
  · rw [if_pos hmark]
    rintro ⟨j, hj, hw⟩
    have hat : ∀ {P}, P / 512 = hugeKey a.vaddr j → a.At j P := by
      intro P hP
      unfold Args.At
      rw [a.slot_huge hmark, a.slot_huge hmark, a.size_huge hmark, hP]
      rfl
    have hkey : hugeKey a.vaddr j * 512 / 512 = hugeKey a.vaddr j := Nat.mul_div_cancel _ (by omega)
    rcases hw with ⟨P, hP, h1⟩ | ⟨h0, h2⟩
    · by_cases h0 : T.huge (P / 512) = 0
      · obtain ⟨hsize, -⟩ := ha j P _ hj (hat hP) (Tables.lookup_of_small h0 h1)
        rw [a.size_huge hmark] at hsize
        exact absurd hsize (show ¬ pageSize = hugePageSize by decide)
      · exact h1 (hs.small_of_huge h0)
    · rw [← hkey] at h0
      have hlook := Tables.lookup_of_huge h0
      obtain ⟨-, hframe⟩ := ha j _ _ hj (hat hkey) hlook
      have hdvd : hugePageSize ∣ _ := hal _ _ ⟨j, hj, hat hkey⟩ hlook
      rw [hkey] at hframe hdvd
      rw [a.size_huge hmark] at hframe
      exact h2 (expected_frame (frame_bounds _).1 hdvd hframe).symm

/-- **The leaves after `unmap_pages` are those of the map.** -/
theorem lookup_unmap (ha : UnmapArgs T.lookup a) (hs : Shape root T)
    (hsmall : T'.small = a.unmapSmall T) (hhuge : T'.huge = a.unmapHuge T) :
    T'.lookup = PageMap.unmap T.lookup a := by
  funext P
  unfold PageMap.unmap
  unfold Args.unmapSmall at hsmall
  unfold Args.unmapHuge at hhuge
  by_cases hmark : a.flags &&& pteHugePage = 0
  · rw [if_neg (not_not.mpr hmark)] at hsmall hhuge
    have hat : ∀ {i}, a.At i P ↔ P = smallKey a.vaddr i := by
      intro i
      unfold Args.At smallKey
      rw [a.slot_small hmark, a.slot_small hmark, a.size_small hmark]
    by_cases hc : a.Covers P
    · rw [if_pos hc]
      obtain ⟨i, hi, hiP⟩ := hc
      refine Tables.lookup_eq_none.mpr ⟨?_, ?_⟩
      · rw [hhuge]
        by_contra h0
        obtain ⟨hsize, -⟩ := ha i P _ hi hiP (Tables.lookup_of_huge h0)
        rw [a.size_small hmark] at hsize
        exact absurd hsize (show ¬ hugePageSize = pageSize by decide)
      · rw [hsmall, hat.mp hiP]
        exact wipe_of_hit _ (Nat.zero_le _) (by omega)
    · have hmiss : T'.small P = T.small P := by
        rw [hsmall]
        exact wipe_of_miss _ (fun j _ hj hk => hc ⟨j, by omega, hat.mpr hk⟩)
      rw [if_neg hc]
      unfold Tables.lookup
      rw [hmiss, hhuge]
  · rw [if_pos hmark] at hsmall hhuge
    have hat : ∀ {i}, a.At i P ↔ P / 512 = hugeKey a.vaddr i := by
      intro i
      unfold Args.At hugeKey
      rw [a.slot_huge hmark, a.slot_huge hmark, a.size_huge hmark]
    by_cases hc : a.Covers P
    · rw [if_pos hc]
      obtain ⟨i, hi, hiP⟩ := hc
      refine Tables.lookup_eq_none.mpr ⟨?_, ?_⟩
      · rw [hhuge, hat.mp hiP]
        exact wipe_of_hit _ (Nat.zero_le _) (by omega)
      · rw [hsmall]
        by_contra h1
        by_cases h0 : T.huge (P / 512) = 0
        · obtain ⟨hsize, -⟩ := ha i P _ hi hiP (Tables.lookup_of_small h0 h1)
          rw [a.size_huge hmark] at hsize
          exact absurd hsize (show ¬ pageSize = hugePageSize by decide)
        · exact h1 (hs.small_of_huge h0)
    · have hmiss : T'.huge (P / 512) = T.huge (P / 512) := by
        rw [hhuge]
        exact wipe_of_miss _ (fun j _ hj hk => hc ⟨j, by omega, hat.mpr hk⟩)
      rw [if_neg hc]
      unfold Tables.lookup
      rw [hmiss, hsmall]

/-! ## From an empty PML4 -/

/-- A PML4 that the page allocator gave and that has been zeroed. -/
structure Start (A : PhysAlloc L) (root : Nat) (s : KState) : Prop where
  ok : A.Ok s
  view : View s.physMapOffset
  block : ⟨root, pageSize⟩ ∈ s.blocks
  aligned : pageSize ∣ root
  zero : ∀ i, i < 512 → s.mem (entryAddr root i) .pte = 0

/-- A frame of the allocator, zeroed, is one. -/
theorem Start.of_kmalloc {p : Nat} (hok : A.Ok s) (hv : View s.physMapOffset)
    (hrun : A.kmalloc 4096 L s = .ok (p, s')) (hp : p ≠ 0) :
    Start A p { s' with mem := s'.mem.zero p pageSize } := by
  obtain ⟨q, s₁, hrun', hok', hframe, hcase⟩ := A.kmalloc_spec hok (show 0 ≤ 10 by omega)
  rw [show pageSize * 2 ^ 0 = 4096 from rfl, hrun, Except.ok.injEq, Prod.mk.injEq] at hrun'
  obtain ⟨rfl, rfl⟩ := hrun'
  obtain ⟨-, hdvd, hblocks⟩ := hcase.resolve_left (fun h => hp h.1)
  have hmem : (⟨p, pageSize⟩ : Block) ∈ s'.blocks := by
    rw [hblocks]
    exact List.mem_cons_self
  refine ⟨A.ok_frame hok' (hframe.offset ▸ hv) (fun _ hf => hf) rfl (fun a f hne _ => ?_),
    hframe.offset ▸ hv, hmem, hdvd, fun i hi => ?_⟩
  · by_cases hin : p ≤ a ∧ a < p + pageSize
    · exact ⟨_, hmem, hin.1, hin.2⟩
    · exact absurd (Mem.zero_of_not_mem (by omega)) hne
  · have hin := entryAddr_inside p hi
    exact Mem.zero_of_mem hin.1 hin.2

/-- The root and nothing else. -/
def Tables.bare (root : Nat) : Tables where
  dir l K := if l = 4 ∧ K = 0 then some root else none
  huge _ := 0
  small _ := 0

theorem Tables.bare_dir {l K t : Nat} (h : (Tables.bare root).dir l K = some t) :
    l = 4 ∧ K = 0 ∧ t = root := by
  simp only [Tables.bare, Option.ite_none_right_eq_some, Option.some.injEq] at h
  exact ⟨h.1.1, h.1.2, h.2.symm⟩

theorem Start.inv (h : Start A root s) : Inv A root s (Tables.bare root) ∧
    Full (Tables.bare root) := by
  refine ⟨⟨⟨?_, ?_, ?_, ?_, ?_, ?_, ?_, ?_, ?_, ?_⟩, ?_, ?_, h.ok, h.view⟩, ?_⟩
  · intro K t
    constructor
    · intro ht
      exact ⟨(Tables.bare_dir ht).2.1, (Tables.bare_dir ht).2.2⟩
    · rintro ⟨rfl, rfl⟩
      simp [Tables.bare]
  · intro l K t ht
    have := (Tables.bare_dir ht).1
    omega
  · intro l K t ht hl
    have := (Tables.bare_dir ht).1
    omega
  · intro l K l' K' t h₁ h₂
    obtain ⟨rfl, rfl, -⟩ := Tables.bare_dir h₁
    obtain ⟨rfl, rfl, -⟩ := Tables.bare_dir h₂
    exact ⟨rfl, rfl⟩
  · intro l K t ht
    rw [(Tables.bare_dir ht).2.2]
    exact h.aligned
  · exact fun hne => absurd rfl hne
  · exact fun hne => absurd rfl hne
  · exact fun hne => absurd rfl hne
  · exact fun hne => absurd rfl hne
  · exact fun hne => absurd rfl hne
  · intro l K t ht i hi
    obtain ⟨rfl, rfl, rfl⟩ := Tables.bare_dir ht
    rw [h.zero i hi]
    exact (Tables.entry_none (l := 3) (by omega) (by simp [Tables.bare])).symm
  · intro l K t ht
    rw [(Tables.bare_dir ht).2.2]
    exact h.block
  · intro l K t hl ht
    have := (Tables.bare_dir ht).1
    omega

theorem bare_lookup (root : Nat) : (Tables.bare root).lookup = fun _ => none := by
  funext P
  exact Tables.lookup_eq_none.mpr ⟨rfl, rfl⟩

/-! ## The walk refines the map -/

/-- A call that returns, and what it does to the map. The memory that is mapped lies below `2 ^ 52`,
and the tables given back merge with free blocks only. -/
inductive Step (A : PhysAlloc L) (root : Nat) : KState × PageMap → KState × PageMap → Prop
  | map {s s' : KState} {M : PageMap} {a : Args} : MapArgs (M · ≠ none) a →
      a.paddr + a.numPages * a.size ≤ 2 ^ 52 → a.map A.kmalloc root L s = .ok ((), s') →
      Step A root (s, M) (s', M.map a)
  | unmap {s s' : KState} {M : PageMap} {a : Args} : UnmapArgs M a → a.Sound A root s →
      a.unmap A.kfree root L s = .ok ((), s') → Step A root (s, M) (s', M.unmap a)

/-- Memory holds tables with the leaves of the map. -/
def Refines (A : PhysAlloc L) (root : Nat) (s : KState) (M : PageMap) : Prop :=
  M.Aligned ∧ ∃ T, Inv A root s T ∧ Full T ∧ T.lookup = M

theorem Refines.walk_eq (h : Refines A root s M) (v : Nat) : walk s.mem root v = M (pageNo v) := by
  obtain ⟨-, T, hinv, -, rfl⟩ := h
  exact hinv.walk_eq v

/-- A call of `map_pages` returns unless the page allocator had no frame for a table. -/
theorem Refines.map (h : Refines A root s M) (ha : MapArgs (M · ≠ none) a)
    (hphys : a.paddr + a.numPages * a.size ≤ 2 ^ 52) :
    Tied L nullAlarm (· ∈ allocFailures) (a.map (orHalt A.kmalloc) root) (a.map A.kmalloc root) s
      (fun _ s' => Refines A root s' (M.map a)) := by
  obtain ⟨hal, T, hinv, hfull, rfl⟩ := h
  refine (map_yields hinv hfull ha).mono (fun _ hm => hm) ?_
  rintro _ s' ⟨T', hinv', hfull', -, hsmall, hhuge⟩
  exact ⟨hal.map ha.aligned, T', hinv', hfull', lookup_map ha hphys hsmall hhuge⟩

/-- A call of `unmap_pages` whose frees are sound returns. -/
theorem Refines.unmap (h : Refines A root s M) (ha : UnmapArgs M a) (hsound : a.Sound A root s) :
    ∃ s', a.unmap A.kfree root L s = .ok ((), s') ∧ Refines A root s' (M.unmap a) := by
  obtain ⟨hal, T, hinv, hfull, rfl⟩ := h
  rcases unmap_yields a hinv hfull hsound with ⟨⟨⟩, s', hrun, T', hinv', hfull', -, hs,
    hh⟩ | ⟨-, -, hw⟩
  · exact ⟨s', hrun, hal.unmap a, T', hinv', hfull', lookup_unmap ha hinv.shape hs hh⟩
  · exact absurd hw (ha.not_wrong hinv.shape (fun P x _ => hal P x))

theorem Refines.start (h : Start A root s) : Refines A root s (fun _ => none) :=
  ⟨fun _ _ hx => absurd hx (by simp), _, h.inv.1, h.inv.2, bare_lookup root⟩

theorem Refines.step {x y : KState × PageMap} (h : Refines A root x.1 x.2)
    (hstep : Step A root x y) :
    Refines A root y.1 y.2 := by
  cases hstep with
  | map ha hphys hrun => exact (h.map ha hphys).of_ok hrun
  | unmap ha hsound hrun =>
    obtain ⟨s', hrun', h'⟩ := h.unmap ha hsound
    rw [hrun, Except.ok.injEq, Prod.mk.injEq] at hrun'
    exact hrun'.2 ▸ h'

theorem Refines.run {x y : KState × PageMap} (h : Refines A root x.1 x.2)
    (hr : Reaches (Step A root) x y) : Refines A root y.1 y.2 :=
  hr.invariant (fun x => Refines A root x.1 x.2) h (fun _ _ _ hx hstep => hx.step hstep)

/-- An address outside the range of a call is translated as before. -/
theorem Refines.outside {M' : PageMap} (h : Refines A root s M) (h' : Refines A root s' M')
    {v : Nat} (hM : M' (pageNo v) = M (pageNo v)) : walk s'.mem root v = walk s.mem root v := by
  rw [h'.walk_eq, h.walk_eq, hM]

/-- **The page tables refine the map.** After every run the walk of any address gives what the map
gives. The next call of `map_pages` returns, or the page allocator gave it no frame for a table; the
next call of `unmap_pages` returns if the tables it gives back merge with free blocks only; each
does to the walk what it does to the map, and addresses outside its range are translated as
before. -/
theorem walk_of_run (h : Start A root s)
    (hrun : Reaches (Step A root) (s, fun _ => none) (s', M)) :
    (∀ v, walk s'.mem root v = M (pageNo v)) ∧
    (∀ a : Args, MapArgs (M · ≠ none) a → a.paddr + a.numPages * a.size ≤ 2 ^ 52 →
      Yields L (a.map A.kmalloc root) s'
        (fun msg => msg ∈ allocFailures ∧
          ReturnedNull L A.kmalloc (fun kmalloc => a.map kmalloc root) s')
        (fun _ s'' => ∀ v, walk s''.mem root v = M.map a (pageNo v) ∧
          (¬ a.Covers (pageNo v) → walk s''.mem root v = walk s'.mem root v))) ∧
    (∀ a : Args, UnmapArgs M a → a.Sound A root s' →
      ∃ s'', a.unmap A.kfree root L s' = .ok ((), s'') ∧
      ∀ v, walk s''.mem root v = M.unmap a (pageNo v) ∧
        (¬ a.Covers (pageNo v) → walk s''.mem root v = walk s'.mem root v)) := by
  have hr : Refines A root s' M := (Refines.start h).run hrun
  refine ⟨hr.walk_eq, fun a ha hphys => ?_, fun a ha hsound => ?_⟩
  · refine (hr.map ha hphys).mono (fun _ hm => hm) (fun _ s'' hr' v => ?_)
    exact ⟨hr'.walk_eq v, fun hc => hr.outside hr' (if_neg hc)⟩
  · obtain ⟨s'', hcall, hr'⟩ := hr.unmap ha hsound
    exact ⟨s'', hcall, fun v => ⟨hr'.walk_eq v, fun hc => hr.outside hr' (if_neg hc)⟩⟩

/-! ### On the small machine -/

/-- The buddy allocator of the small machine. -/
abbrev smallAlloc : PhysAlloc smallLayout := Buddy.smallPages

/-- The small machine with a zeroed PML4, the first frame its allocator gave. -/
def smallStart : KState :=
  match smallAlloc.kmalloc 4096 smallLayout Buddy.smallPagesStart with
  | .ok (p, s) => { s with mem := s.mem.zero p pageSize }
  | .error _ => bootState

theorem smallRoot_result :
    ((smallAlloc.kmalloc 4096 smallLayout Buddy.smallPagesStart).toOption.map Prod.fst)
    = some 0x400000 := by
  decide +kernel

theorem smallStart_start : Start smallAlloc 0x400000 smallStart := by
  obtain ⟨⟨p, s⟩, hrun, hp⟩ := Option.map_eq_some_iff.mp smallRoot_result
  obtain rfl : p = 0x400000 := hp
  have hrun := toOption_ok hrun
  unfold smallStart
  rw [hrun]
  exact Start.of_kmalloc Buddy.smallPagesStart_ok.1 Buddy.smallPagesStart_ok.2 hrun (by decide)

/-- The state a call returns with. -/
def outcome (x : K Unit) (s : KState) : Option KState :=
  match x smallLayout s with
  | .ok ((), s') => some s'
  | .error _ => none

theorem outcome_eq_some {x : K Unit} (h : outcome x s = some s') :
    x smallLayout s = .ok ((), s') := by
  unfold outcome at h
  cases hx : x smallLayout s with
  | error e =>
    rw [hx] at h
    exact absurd h (by simp)
  | ok r =>
    rw [hx] at h
    rw [← Option.some.inj h]

/-- Two 4KB pages with a PT each. -/
def pairArgs : Args := ⟨0x5000, 0x1FF000, 3, 2⟩

theorem pairArgs_ok {mapped : Nat → Prop} (h : ∀ P, ¬ mapped P) : MapArgs mapped pairArgs :=
  ⟨by decide, by decide, by decide, by decide, by decide, by unfold Args.NoWrap; decide,
    fun P _ => h P⟩

/-- The second of them. -/
def lastArgs : Args := ⟨0x6000, 0x200000, 3, 1⟩

theorem lastArgs_ok : UnmapArgs (PageMap.map (fun _ => none) pairArgs) lastArgs := by
  intro i P x hi hat hx
  obtain rfl : i = 0 := Nat.lt_one_iff.mp hi
  have hP : P = 512 := by
    unfold Args.At at hat
    rw [lastArgs.slot_small (by decide)] at hat
    exact hat
  subst hP
  rw [show PageMap.map (fun _ => none) pairArgs 512 = some ⟨0x6000, 3, pageSize⟩ by decide,
    Option.some.injEq] at hx
  subst hx
  decide

/-- The two pages are mapped and the second is unmapped, which gives its PT back. -/
def smallRun : Option (KState × KState) :=
  (outcome (pairArgs.map smallAlloc.kmalloc 0x400000) smallStart).bind fun s₁ =>
    (outcome (lastArgs.unmap smallAlloc.kfree 0x400000) s₁).bind fun s₂ =>
      if lastArgs.Sound smallAlloc 0x400000 s₁ then some (s₁, s₂) else none

theorem smallRun_result : (smallRun.map fun x => x.2.blocks.map Block.addr)
    = some [0x403000, 0x402000, 0x401000, 0x400000] := by
  decide +kernel

theorem smallRun_calls {s₁ s₂ : KState} (h : smallRun = some (s₁, s₂)) :
    pairArgs.map smallAlloc.kmalloc 0x400000 smallLayout smallStart = .ok ((), s₁) ∧
      lastArgs.Sound smallAlloc 0x400000 s₁ ∧
      lastArgs.unmap smallAlloc.kfree 0x400000 smallLayout s₁ = .ok ((), s₂) := by
  obtain ⟨s₁', h₁, h⟩ := Option.bind_eq_some_iff.mp h
  obtain ⟨s₂', h₂, h⟩ := Option.bind_eq_some_iff.mp h
  obtain ⟨hsound, h⟩ := Option.ite_none_right_eq_some.mp h
  obtain ⟨rfl, rfl⟩ := Prod.mk.inj (Option.some.inj h)
  exact ⟨outcome_eq_some h₁, hsound, outcome_eq_some h₂⟩

theorem walk_of_run_pair : ∃ s' : KState,
    Reaches (Step smallAlloc 0x400000) (smallStart, fun _ => none)
      (s', PageMap.unmap (PageMap.map (fun _ => none) pairArgs) lastArgs) ∧
    walk s'.mem 0x400000 0x1FF123 = some ⟨0x5000, 3, pageSize⟩ ∧
    walk s'.mem 0x400000 0x200000 = none := by
  obtain ⟨⟨s₁, s₂⟩, hrun, -⟩ := Option.map_eq_some_iff.mp smallRun_result
  obtain ⟨h₁, hsound, h₂⟩ := smallRun_calls hrun
  have hreach : Reaches (Step smallAlloc 0x400000) (smallStart, fun _ => none)
      (s₂, PageMap.unmap (PageMap.map (fun _ => none) pairArgs) lastArgs) :=
    .tail (.single (.map (pairArgs_ok (fun _ => not_not.mpr rfl)) (by decide) h₁))
      (.unmap lastArgs_ok hsound h₂)
  have hwalk := (walk_of_run smallStart_start hreach).1
  refine ⟨s₂, hreach, (hwalk _).trans ?_, (hwalk _).trans ?_⟩
  · decide
  · decide

/-- Two pages, of which the second is past the last frame an entry can name. -/
def topArgs : Args := ⟨2 ^ 52 - pageSize, 0, 1, 2⟩

/-- The second entry gets bit 52 of the address among its flags and names frame 0. -/
theorem walk_past_top : MapArgs (fun _ => (none : Option Leaf) ≠ none) topArgs ∧
    topArgs.paddr < 2 ^ 52 ∧
    ∃ s', topArgs.map smallAlloc.kmalloc 0x400000 smallLayout smallStart = .ok ((), s') ∧
      walk s'.mem 0x400000 0x1000 = some ⟨0, 2 ^ 52 + 1, pageSize⟩ ∧
      PageMap.map (fun _ => none) topArgs (pageNo 0x1000) = some ⟨2 ^ 52, 1, pageSize⟩ := by
  have hres : ((outcome (topArgs.map smallAlloc.kmalloc 0x400000) smallStart).map fun s' =>
      walk s'.mem 0x400000 0x1000) = some (some ⟨0, 2 ^ 52 + 1, pageSize⟩) := by
    decide +kernel
  obtain ⟨s', hrun, hwalk⟩ := Option.map_eq_some_iff.mp hres
  refine ⟨⟨by decide, by decide, by decide, by decide, by decide, by unfold Args.NoWrap; decide,
    fun _ _ => not_not.mpr rfl⟩, by decide, s', outcome_eq_some hrun, hwalk, by decide⟩

/-! ## The frames of the tables -/

/-- Some address of page `P` is translated. -/
def Mapped (m : Mem) (root P : Nat) : Prop := ∃ v, pageNo v = P ∧ walk m root v ≠ none

/-- A call that returns, over the functions of an allocator. Of a call of `unmap_pages` nothing is
asked but `ok`. -/
inductive Call (L : Layout) (kmalloc : Nat → K Nat) (kfree : Nat → Nat → K Unit)
    (ok : KState → Args → Prop) (root : Nat) : KState → KState → Prop
  | map {s s' : KState} {a : Args} : MapArgs (Mapped s.mem root) a →
      a.map kmalloc root L s = .ok ((), s') → Call L kmalloc kfree ok root s s'
  | unmap {s s' : KState} {a : Args} : ok s a → a.unmap kfree root L s = .ok ((), s') →
      Call L kmalloc kfree ok root s s'

/-- The calls of an allocator whose frees are sound. -/
abbrev SoundCall (A : PhysAlloc L) (root : Nat) : KState → KState → Prop :=
  Call L A.kmalloc A.kfree (fun s a => a.Sound A root s) root

/-- The tables are as they should be, in a state that a run came to from `s₀`. The blocks of `s`
that are not in `s₀` are the frames the calls took from the page allocator and did not give back. -/
structure Tidy (root : Nat) (s₀ s : KState) : Prop where
  /-- one entry leads to each table -/
  one_parent : ∀ l t, Linked s.mem root l t → l ≤ 3 →
    ∃! e : Nat × Nat, References s.mem root t e.1 e.2
  /-- no table is empty -/
  nonempty : ∀ l t, Linked s.mem root l t → l ≤ 3 → ∃ i, i < 512 ∧ s.mem (entryAddr t i) .pte ≠ 0
  /-- the tables are the frames taken and not given back -/
  frames : ∀ b, (b ∈ s.blocks ∧ b ∉ s₀.blocks) ↔
    ∃ l t, l ≤ 3 ∧ Linked s.mem root l t ∧ b = ⟨t, pageSize⟩
  /-- nobody else's frame was given back -/
  kept : ∀ b ∈ s₀.blocks, b ∈ s.blocks
  /-- with nothing mapped all frames are back and the PML4 is zero -/
  cleared : (∀ v, walk s.mem root v = none) →
    (∀ b, b ∈ s.blocks ↔ b ∈ s₀.blocks) ∧ ∀ i, i < 512 → s.mem (entryAddr root i) .pte = 0

/-- Memory holds full tables, in the frames taken since `s₀`. -/
def Kept (A : PhysAlloc L) (root : Nat) (s₀ s : KState) : Prop :=
  ∃ T, Inv A root s T ∧ Full T ∧ Frame A (Tables.bare root) T s₀ s

theorem Args.Covers.lt {P : Nat} (h : a.Covers P) : P < 2 ^ 36 := by
  obtain ⟨i, -, hat⟩ := h
  have hlt := pageNo_lt ((a.vaddr + i * a.size) % 2 ^ 64)
  unfold Args.At at hat
  by_cases hmark : a.flags &&& pteHugePage = 0
  · rw [a.slot_small hmark, a.slot_small hmark] at hat
    omega
  · rw [a.slot_huge hmark, a.slot_huge hmark] at hat
    omega

/-- An address of each page. -/
theorem pageNo_base {P : Nat} (h : P < 2 ^ 36) : pageNo (P * pageSize) = P := by
  unfold pageNo pageSize
  omega

theorem Kept.call {s₀ : KState} (h : Kept A root s₀ s) (hcall : SoundCall A root s s') :
    Kept A root s₀ s' := by
  obtain ⟨T, hinv, hfull, hframe⟩ := h
  cases hcall with
  | @map a ha hrun =>
    have ha' : MapArgs (T.lookup · ≠ none) a := by
      refine ⟨ha.present, ha.clear, ha.flags_lt, ha.aligned, ha.paddr_lt, ha.noWrap, ?_⟩
      intro P hc hne
      refine ha.fresh P hc ⟨P * pageSize, pageNo_base hc.lt, ?_⟩
      rwa [hinv.walk_eq, pageNo_base hc.lt]
    obtain ⟨T', hinv', hfull', hframe', -, -⟩ := (map_yields hinv hfull ha').of_ok hrun
    exact ⟨T', hinv', hfull', hframe.trans hframe'⟩
  | unmap hsound hrun =>
    obtain ⟨T', hinv', hfull', hframe', -, -⟩ := (unmap_yields _ hinv hfull hsound).of_ok hrun
    exact ⟨T', hinv', hfull', hframe.trans hframe'⟩

/-- The blocks taken since the start are the tables below the root. -/
theorem Inv.taken_iff {s₀ : KState} (h : Inv A root s T) (h0 : Start A root s₀)
    (hf : Frame A (Tables.bare root) T s₀ s) (b : Block) :
    (b ∈ s.blocks ∧ b ∉ s₀.blocks) ↔ ∃ l K, l ≤ 3 ∧ T.dir l K = some b.addr ∧ b.len = pageSize := by
  constructor
  · rintro ⟨hb, hb0⟩
    have howns : Owns T b := by
      by_contra ho
      exact hb0 ((hf.foreign b).mp ⟨hb, ho⟩).1
    obtain ⟨l, K, hd, hlen⟩ := howns
    refine ⟨l, K, ?_, hd, hlen⟩
    by_contra hl
    obtain rfl : l = 4 := by
      have := (h.shape.level hd).2
      omega
    obtain ⟨-, hroot⟩ := (h.shape.root K b.addr).mp hd
    refine hb0 ?_
    rw [show b = ⟨root, pageSize⟩ by rw [← hroot, ← hlen]]
    exact h0.block
  · rintro ⟨l, K, hl, hd, hlen⟩
    have hb : b = ⟨b.addr, pageSize⟩ := by rw [← hlen]
    refine ⟨hb ▸ h.block hd, fun hb0 => ?_⟩
    have hbare : ¬ Owns (Tables.bare root) b := by
      rintro ⟨l', K', hd', -⟩
      obtain ⟨rfl, rfl, hroot⟩ := Tables.bare_dir hd'
      have := (h.shape.inj hd (hroot ▸ h.root_dir)).1
      omega
    exact ((hf.foreign b).mpr ⟨hb0, hbare⟩).2 ⟨l, K, hd, hlen⟩

theorem Kept.tidy {s₀ : KState} (h0 : Start A root s₀) (h : Kept A root s₀ s) : Tidy root s₀ s := by
  obtain ⟨T, hinv, hfull, hframe⟩ := h
  have hkept : ∀ b ∈ s₀.blocks, b ∈ s.blocks := by
    intro b hb
    by_cases ho : Owns (Tables.bare root) b
    · obtain ⟨l, K, hd, hlen⟩ := ho
      obtain ⟨-, -, hroot⟩ := Tables.bare_dir hd
      rw [show b = ⟨root, pageSize⟩ by rw [← hroot, ← hlen]]
      exact hinv.block hinv.root_dir
    · exact ((hframe.foreign b).mpr ⟨hb, ho⟩).1
  refine ⟨?_, ?_, ?_, hkept, ?_⟩
  · intro l t hlink hl
    obtain ⟨K, ht⟩ := hinv.linked_iff.mp hlink
    exact hinv.one_reference hl ht
  · intro l t hlink hl
    obtain ⟨K, ht⟩ := hinv.linked_iff.mp hlink
    obtain ⟨i, hi, hne⟩ := hfull hl ht
    exact ⟨i, hi, by rwa [hinv.entries ht i hi]⟩
  · intro b
    rw [hinv.taken_iff h0 hframe]
    constructor
    · rintro ⟨l, K, hl, hd, hlen⟩
      exact ⟨l, b.addr, hl, hinv.linked_iff.mpr ⟨K, hd⟩, by rw [← hlen]⟩
    · rintro ⟨l, t, hl, hlink, rfl⟩
      obtain ⟨K, ht⟩ := hinv.linked_iff.mp hlink
      exact ⟨l, K, hl, ht, rfl⟩
  · intro hnone
    -- a table below the root would have a page
    have hbare : ∀ {l K t}, l ≤ 3 → T.dir l K ≠ some t := by
      intro l K t hl hd
      obtain ⟨P, hP, hne⟩ := hfull.exists_leaf hinv.shape hl hd
      refine hne ?_
      have := hnone (P * pageSize)
      rwa [hinv.walk_eq, pageNo_base hP] at this
    refine ⟨fun b => ⟨fun hb => ?_, hkept b⟩, fun i hi => ?_⟩
    · by_contra hb0
      obtain ⟨l, K, hl, hd, -⟩ := (hinv.taken_iff h0 hframe b).mp ⟨hb, hb0⟩
      exact hbare hl hd
    · rw [hinv.entries hinv.root_dir i hi]
      refine Tables.entry_none (l := 3) (by omega) ?_
      cases hd : T.dir 3 (0 * 512 + i) with
      | none => rfl
      | some t => exact absurd hd (hbare (Nat.le_refl 3))

/-- **No table is leaked, shared or used after it is freed**, along every run in which the tables
given back merge with free blocks only. -/
theorem tidy_of_run {s₀ : KState} (h : Start A root s₀) (hrun : Reaches (SoundCall A root) s₀ s) :
    Tidy root s₀ s := by
  have h0 : Kept A root s₀ s₀ := ⟨_, h.inv.1, h.inv.2, Frame.refl _ _⟩
  exact (hrun.invariant (Kept A root s₀) h0 (fun _ _ _ hk hcall => hk.call hcall)).tidy h

theorem tidy_of_run_pair : ∃ s', Reaches (SoundCall smallAlloc 0x400000) smallStart s' ∧
    s'.blocks.map Block.addr = [0x403000, 0x402000, 0x401000, 0x400000] ∧
    Tidy 0x400000 smallStart s' := by
  obtain ⟨⟨s₁, s₂⟩, hrun, hblocks⟩ := Option.map_eq_some_iff.mp smallRun_result
  obtain ⟨h₁, hsound, h₂⟩ := smallRun_calls hrun
  have hfresh : ∀ P, ¬ Mapped smallStart.mem 0x400000 P := by
    rintro P ⟨v, -, hv⟩
    rw [smallStart_start.inv.1.walk_eq, bare_lookup] at hv
    exact hv rfl
  have hreach : Reaches (SoundCall smallAlloc 0x400000) smallStart s₂ :=
    .tail (.single (.map (pairArgs_ok hfresh) h₁)) (.unmap hsound h₂)
  exact ⟨s₂, hreach, hblocks, tidy_of_run smallStart_start hreach⟩

/-! ### A free that merges with a table in use -/

/-- An empty PML4 translates nothing. -/
theorem walk_of_not_present {m : Mem}
    (h : ∀ i, i < 512 → m (entryAddr root i) .pte &&& ptePresent = 0) (v : Nat) :
    walk m root v = none := by
  unfold walk
  exact if_pos (h _ (by rw [virtToPml4Idx_eq]; have := pageNo_lt v; omega))

/-- The small machine with a zeroed PML4, the first frame its allocator gave, with the links of the
free blocks in their first words. -/
def overlaidStart : KState :=
  match Overlaid.kalloc 4096 smallLayout Buddy.smallPagesStart with
  | .ok (p, s) => { s with mem := s.mem.zero p pageSize }
  | .error _ => bootState

/-- One page with a PDPT, a PD and a PT of its own. -/
def loneArgs : Args := ⟨0, 0x10000000000, 3, 1⟩

theorem loneArgs_ok {mapped : Nat → Prop} (h : ∀ P, ¬ mapped P) : MapArgs mapped loneArgs :=
  ⟨by decide, by decide, by decide, by decide, by decide, by unfold Args.NoWrap; decide,
    fun P _ => h P⟩

/-- The calls over the allocator of that machine. Of its frees nothing is asked. -/
abbrev OverlaidCall : KState → KState → Prop :=
  Call smallLayout Overlaid.kalloc Overlaid.kfree (fun _ _ => True) 0x400000

/-- The page is mapped and unmapped twice. -/
def overlaidRun : Option (KState × KState × KState × KState) :=
  (outcome (loneArgs.map Overlaid.kalloc 0x400000) overlaidStart).bind fun s₁ =>
    (outcome (loneArgs.unmap Overlaid.kfree 0x400000) s₁).bind fun s₂ =>
      (outcome (loneArgs.map Overlaid.kalloc 0x400000) s₂).bind fun s₃ =>
        (outcome (loneArgs.unmap Overlaid.kfree 0x400000) s₃).map fun s₄ => (s₁, s₂, s₃, s₄)

/-- No entry of the PML4 is present. -/
def RootClear (s : KState) : Prop :=
  ∀ i, i < 512 → s.mem (entryAddr 0x400000 i) .pte &&& ptePresent = 0

instance (s : KState) : Decidable (RootClear s) :=
  Nat.decidableBallLT 512 fun i _ => s.mem (entryAddr 0x400000 i) .pte &&& ptePresent = 0

theorem RootClear.unmapped (h : RootClear s) (P : Nat) : ¬ Mapped s.mem 0x400000 P :=
  fun ⟨v, _, hv⟩ => hv (walk_of_not_present h v)

theorem overlaidStart_result :
    ((List.range 512).all fun i => overlaidStart.mem (entryAddr 0x400000 i) .pte == 0) = true ∧
      overlaidStart.blocks = [⟨0x400000, 4096⟩] := by
  decide +kernel

theorem overlaidStart_zeroed (i : Nat) (hi : i < 512) :
    overlaidStart.mem (entryAddr 0x400000 i) .pte = 0 :=
  eq_of_beq (List.all_eq_true.mp overlaidStart_result.1 i (List.mem_range.mpr hi))

theorem overlaidRun_result :
    (overlaidRun.map fun x => (decide (RootClear x.2.1), decide (RootClear x.2.2.2),
      x.2.2.2.blocks, x.2.2.2.mem (entryAddr 0x400000 0) .pte))
    = some (true, true, [⟨0x400000, 4096⟩], 0x404000) := by
  decide +kernel

/-- **A table in use is taken for a free block.** The pool is one block of 4MB and the PML4 is its
first page, but the bits of the orders above 0 do not say so. The first run of `unmap_pages` toggles
the bit of order 1 to 1 and the second back to 0: `buddy_kfree` merges the PML4 with the PD it is
given, and leaves the old head of free list 2 in PML4 entry 0. -/
theorem table_merged : ∃ s',
    (∀ i, i < 512 → overlaidStart.mem (entryAddr 0x400000 i) .pte = 0) ∧
    Reaches OverlaidCall overlaidStart s' ∧
    (∀ v, walk s'.mem 0x400000 v = none) ∧ s'.blocks = overlaidStart.blocks ∧
    s'.mem (entryAddr 0x400000 0) .pte = 0x404000 ∧ ¬ Tidy 0x400000 overlaidStart s' := by
  obtain ⟨⟨s₁, s₂, s₃, s₄⟩, hrun, hres⟩ := Option.map_eq_some_iff.mp overlaidRun_result
  obtain ⟨s₁', h₁, hrun⟩ := Option.bind_eq_some_iff.mp hrun
  obtain ⟨s₂', h₂, hrun⟩ := Option.bind_eq_some_iff.mp hrun
  obtain ⟨s₃', h₃, hrun⟩ := Option.bind_eq_some_iff.mp hrun
  obtain ⟨s₄', h₄, heq⟩ := Option.map_eq_some_iff.mp hrun
  simp only [Prod.mk.injEq] at heq hres
  obtain ⟨rfl, rfl, rfl, rfl⟩ := heq
  obtain ⟨hclear, hend, hblocks, hentry⟩ := hres
  have hclear0 : RootClear overlaidStart := fun i hi => by rw [overlaidStart_zeroed i hi]; rfl
  have hclear2 := of_decide_eq_true hclear
  have hnone := walk_of_not_present (of_decide_eq_true hend)
  refine ⟨s₄', overlaidStart_zeroed, ?_, hnone, hblocks.trans overlaidStart_result.2.symm, hentry,
    fun h => ?_⟩
  · have hmap : OverlaidCall overlaidStart s₁' :=
      .map (loneArgs_ok hclear0.unmapped) (outcome_eq_some h₁)
    have hunmap : OverlaidCall s₁' s₂' := .unmap trivial (outcome_eq_some h₂)
    have hremap : OverlaidCall s₂' s₃' := .map (loneArgs_ok hclear2.unmapped) (outcome_eq_some h₃)
    exact (((Relation.ReflTransGen.single hmap).tail hunmap).tail hremap).tail
      (.unmap trivial (outcome_eq_some h₄))
  · have := (h.cleared hnone).2 0 (by decide)
    omega

end Mmu
end MikroKernel
