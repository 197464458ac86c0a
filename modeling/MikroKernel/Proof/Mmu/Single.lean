import MikroKernel.Proof.Mmu.Cached

/-!
# The functions for one page

`map_huge_page` is `map_pages` for one page, step for step (`mapHugePage_eq`). `map_page` hands 2MB
pages on to it and does nothing else, so for a 4KB page it agrees with `map_pages` only where there
was nothing to do (`mapPage_agrees_iff`).
-/

set_option autoImplicit false

namespace MikroKernel
namespace Mmu

variable {L : Layout} {A : PhysAlloc L} {s s₁ : KState} {root : Nat} {D : Dir}
  {p v flags size P : Nat}

/-! ## Entries and what they say -/

/-- The two parts of an entry that holds an address. -/
theorem and_masks {x : Nat} (h : x < 2 ^ 52) :
    x &&& pteAddrMask = alignDown x pageSize ∧ x &&& pteFlagsMask = x % pageSize := by
  have hlow : x % 2 ^ 12 < 2 ^ 12 := Nat.mod_lt _ (by decide)
  have hdvd : pageSize ∣ alignDown x pageSize := Nat.dvd_mul_left _ _
  have hlt : alignDown x pageSize < 2 ^ 52 := Nat.lt_of_le_of_lt (alignDown_le x pageSize) h
  have hx : x = alignDown x pageSize ||| x % 2 ^ 12 := by
    have hor := Nat.two_pow_add_eq_or_of_lt hlow (x / 2 ^ 12)
    unfold alignDown pageSize
    rw [Nat.mul_comm, show 0x1000 = 2 ^ 12 by decide, ← hor]
    omega
  have hlowMask : x % 2 ^ 12 &&& pteAddrMask = 0 := by
    have hle : x % 2 ^ 12 &&& pteAddrMask < 2 ^ 12 := Nat.lt_of_le_of_lt Nat.and_le_left hlow
    rw [← Nat.mod_eq_of_lt hle, Nat.and_mod_two_pow,
      show pteAddrMask % 2 ^ 12 = 0 by decide, Nat.and_zero]
  have hlowFlags : x % 2 ^ 12 &&& pteFlagsMask = x % 2 ^ 12 := by
    have hle : x % 2 ^ 12 &&& pteFlagsMask < 2 ^ 12 := Nat.lt_of_le_of_lt Nat.and_le_left hlow
    rw [← Nat.mod_eq_of_lt hle, Nat.and_mod_two_pow,
      show pteFlagsMask % 2 ^ 12 = 2 ^ 12 - 1 by decide, Nat.and_two_pow_sub_one_eq_mod,
      Nat.mod_mod, Nat.mod_mod]
  have hframe := and_mask_of_dvd hdvd hlt
  have hframeFlags : alignDown x pageSize &&& pteFlagsMask = 0 := by
    rw [← hframe, Nat.and_assoc, show pteAddrMask &&& pteFlagsMask = 0 by decide, Nat.and_zero]
  constructor
  · rw [hx, Nat.and_or_distrib_right, ← hx, hframe, hlowMask, Nat.or_zero]
  · rw [hx, Nat.and_or_distrib_right, ← hx, hframeFlags, hlowFlags, Nat.zero_or]
    rfl

theorem leafOf_or_eq (hclear : flags &&& pteAddrMask = 0) (hflags : flags < 2 ^ 64) :
    leafOf (p ||| flags) size = ⟨p &&& pteAddrMask, p &&& pteFlagsMask ||| flags, size⟩ := by
  have hall : pteAddrMask ||| pteFlagsMask = 2 ^ 64 - 1 := by decide
  have hf : flags &&& pteFlagsMask = flags := by
    have := Nat.and_two_pow_sub_one_of_lt_two_pow hflags
    rwa [← hall, Nat.and_or_distrib_left, hclear, Nat.zero_or] at this
  unfold leafOf
  rw [Nat.and_or_distrib_right, hclear, Nat.or_zero, Nat.and_or_distrib_right, hf]

/-- **A leaf says what was asked for** if its frame can be named and the bits of the address below
the page are among the flags. -/
theorem leafOf_eq_iff (hsize : size = pageSize ∨ size = hugePageSize)
    (hclear : flags &&& pteAddrMask = 0) (hflags : flags < 2 ^ 64) :
    leafOf (p ||| flags) size = ⟨alignDown p size, flags, size⟩ ↔
      p < 2 ^ 52 ∧ p % size ||| flags = flags := by
  have hsplit : ∀ n, alignDown p n + p % n = p := fun n => Nat.div_add_mod' p n
  rw [leafOf_or_eq hclear hflags, Leaf.mk.injEq]
  constructor
  · rintro ⟨hframe, hrest, -⟩
    have hlt : p < 2 ^ 52 := by
      have := (frame_bounds p).1
      rw [hframe] at this
      unfold alignDown pageSize hugePageSize at *
      rcases hsize with rfl | rfl <;> omega
    obtain ⟨h1, h2⟩ := and_masks hlt
    have hmod : p % size = p % pageSize := by
      have := hsplit size
      have := hsplit pageSize
      omega
    rw [h2, ← hmod] at hrest
    exact ⟨hlt, hrest⟩
  · rintro ⟨hlt, hrest⟩
    obtain ⟨h1, h2⟩ := and_masks hlt
    -- the bits below the page are below 4KB, as flags have none of the address
    have hlow : p % size &&& pteAddrMask = 0 := by
      rw [← hrest, Nat.and_or_distrib_right] at hclear
      exact (Nat.or_eq_zero_iff.mp hclear).1
    rw [(and_masks (Nat.lt_of_le_of_lt (Nat.mod_le p size) hlt)).1] at hlow
    have hmod : p % size = p % pageSize := by
      unfold alignDown pageSize hugePageSize at *
      rcases hsize with rfl | rfl <;> omega
    refine ⟨?_, ?_, rfl⟩
    · have := hsplit size
      have := hsplit pageSize
      omega
    · rw [h2, ← hmod]
      exact hrest

/-! ## The walk over well-formed tables -/

namespace WellFormed

variable {pdpt pd pt : Nat}

/-- The entry above a table. -/
theorem entry_target {l k t u : Nat} (h : WellFormed A root s D) (hu : D (l + 1) (k / 512) = some u)
    (hl : l ≤ 3) (ht : D l k = some t) : target (s.mem (entryAddr u (k % 512)) .pte) = some t := by
  rw [← ht, h.below l k (h.level ht).1 hl, cell_some hu]

/-- The walk down to the PD. -/
theorem walk_pd (h : WellFormed A root s D) (hpdpt : D 3 (pageNo v / 512 ^ 3) = some pdpt)
    (hpd : D 2 (pageNo v / 512 ^ 2) = some pd) :
    walk s.mem root v =
      (let pde := s.mem (entryAddr pd (pageNo v / 512 ^ 1 % 512)) .pte
       if pde &&& ptePresent = 0 then none
       else if pde &&& pteHugePage ≠ 0 then some (leafOf pde hugePageSize)
       else
         let pte := s.mem (entryAddr (pde &&& pteAddrMask) (pageNo v % 512)) .pte
         if pte &&& ptePresent = 0 then none else some (leafOf pte pageSize)) := by
  have hP := pageNo_lt v
  have hroot : D (3 + 1) (pageNo v / 512 ^ 3 / 512) = some root := by
    rw [show pageNo v / 512 ^ 3 / 512 = 0 by omega]
    exact h.root_dir
  obtain ⟨hp4, -, ha4⟩ := target_some (h.entry_target hroot (Nat.le_refl 3) hpdpt)
  have hup : D (2 + 1) (pageNo v / 512 ^ 2 / 512) = some pdpt := by rwa [key_div]
  obtain ⟨hp3, hm3, ha3⟩ := target_some (h.entry_target hup (by omega) hpd)
  rw [Nat.mod_eq_of_lt (by omega)] at hp4 ha4
  unfold walk
  rw [virtToPml4Idx_eq, virtToPdptIdx_eq, virtToPdIdx_eq, virtToPtIdx_eq]
  simp only
  rw [if_neg hp4, ha4, if_neg hp3, if_neg (not_not.mpr hm3), ha3]

/-- The walk down to the PT. -/
theorem walk_pt (h : WellFormed A root s D) (hpdpt : D 3 (pageNo v / 512 ^ 3) = some pdpt)
    (hpd : D 2 (pageNo v / 512 ^ 2) = some pd) (hpt : D 1 (pageNo v / 512 ^ 1) = some pt) :
    walk s.mem root v =
      (let pte := s.mem (entryAddr pt (pageNo v % 512)) .pte
       if pte &&& ptePresent = 0 then none else some (leafOf pte pageSize)) := by
  have hup : D (1 + 1) (pageNo v / 512 ^ 1 / 512) = some pd := by rwa [key_div]
  obtain ⟨hp2, hm2, ha2⟩ := target_some (h.entry_target hup (by omega) hpt)
  rw [h.walk_pd hpdpt hpd]
  simp only
  rw [if_neg hp2, if_neg (not_not.mpr hm2), ha2]

/-- The tables above a PT. -/
theorem above (h : WellFormed A root s D) (hpt : D 1 (pageNo v / 512 ^ 1) = some pt) :
    ∃ pdpt pd, D 3 (pageNo v / 512 ^ 3) = some pdpt ∧ D 2 (pageNo v / 512 ^ 2) = some pd := by
  obtain ⟨pd, hpd⟩ := h.parent hpt (by omega)
  rw [key_div] at hpd
  obtain ⟨pdpt, hpdpt⟩ := h.parent hpd (by omega)
  rw [key_div] at hpdpt
  exact ⟨pdpt, pd, hpdpt, hpd⟩

/-- **A 4KB translation has a PT.** -/
theorem pt_of_walk {x : Leaf} (h : WellFormed A root s D) (hwalk : walk s.mem root v = some x)
    (hsize : x.size = pageSize) : ∃ pt, D 1 (pageNo v / 512 ^ 1) = some pt := by
  have hP := pageNo_lt v
  have hroot : D (3 + 1) (pageNo v / 512 ^ 3 / 512) = some root := by
    rw [show pageNo v / 512 ^ 3 / 512 = 0 by omega]
    exact h.root_dir
  cases hpdpt : D 3 (pageNo v / 512 ^ 3) with
  | none =>
    have h0 := (h.present_iff (by omega) (Nat.le_refl 3) (by omega)).mpr hpdpt
    rw [cell_some hroot, Nat.mod_eq_of_lt (by omega)] at h0
    unfold walk at hwalk
    rw [virtToPml4Idx_eq] at hwalk
    simp only at hwalk
    rw [if_pos h0] at hwalk
    exact absurd hwalk (by simp)
  | some pdpt =>
    have hup : D (2 + 1) (pageNo v / 512 ^ 2 / 512) = some pdpt := by rwa [key_div]
    obtain ⟨hp4, -, ha4⟩ := target_some (h.entry_target hroot (Nat.le_refl 3) hpdpt)
    rw [Nat.mod_eq_of_lt (by omega)] at hp4 ha4
    cases hpd : D 2 (pageNo v / 512 ^ 2) with
    | none =>
      have h0 := (h.present_iff (by omega) (by omega) (by omega)).mpr hpd
      rw [cell_some hup] at h0
      unfold walk at hwalk
      rw [virtToPml4Idx_eq, virtToPdptIdx_eq] at hwalk
      simp only at hwalk
      rw [if_neg hp4, ha4, if_pos h0] at hwalk
      exact absurd hwalk (by simp)
    | some pd =>
      have hup' : D (1 + 1) (pageNo v / 512 ^ 1 / 512) = some pd := by rwa [key_div]
      rw [h.below 1 _ (Nat.le_refl 1) (by omega), cell_some hup']
      rw [h.walk_pd hpdpt hpd] at hwalk
      simp only at hwalk
      unfold target
      split_ifs at hwalk with h1 h2 h3
      · obtain rfl := Option.some.inj hwalk
        exact absurd hsize (show ¬ hugePageSize = pageSize by decide)
      · exact ⟨_, if_pos ⟨h1, not_not.mp h2⟩⟩

end WellFormed

/-! ## `map_huge_page` and `map_page` -/

/-- `map_pages` for one 2MB page. -/
theorem mapPages_one_huge (kmalloc : Nat → K Nat) (hmark : flags &&& pteHugePage ≠ 0) :
    mapPages kmalloc root p v flags 1 = (do
      let r ← WellFormed.toPd kmalloc root (pageNo v)
      p2vStore (entryAddr r.2 (pageNo v / 512 ^ 1 % 512)) .pte (p ||| flags)) := by
  have hP := pageNo_lt v
  have h4 : pageNo v / 512 ^ 3 ≠ Cursor.start.pml4tIdx := WellFormed.noIdx_ne (by omega)
  have h3 : pageNo v / 512 ^ 2 % 512 ≠ noIdx := WellFormed.noIdx_ne (by omega)
  unfold mapPages WellFormed.toPd
  rw [if_neg (by omega), if_pos hmark, mapHugeLoop, virtToPml4Idx_eq, virtToPdptIdx_eq,
    virtToPdIdx_eq]
  unfold enterPml4t enterPdpt mapHugeLoop
  rw [if_pos h4]
  simp only [K.bind_assoc', K.pure_bind', if_pos h3, K.bind_pure_unit]

/-- `map_pages` for one 4KB page. -/
theorem mapPages_one_small (kmalloc : Nat → K Nat) (hmark : flags &&& pteHugePage = 0) :
    mapPages kmalloc root p v flags 1 = (do
      let r ← WellFormed.toPt kmalloc root (pageNo v)
      p2vStore (entryAddr r.2.2 (pageNo v % 512)) .pte (alignDown p pageSize ||| flags)) := by
  have hP := pageNo_lt v
  have h4 : pageNo v / 512 ^ 3 ≠ Cursor.start.pml4tIdx := WellFormed.noIdx_ne (by omega)
  have h3 : pageNo v / 512 ^ 2 % 512 ≠ noIdx := WellFormed.noIdx_ne (by omega)
  have h2 : pageNo v / 512 ^ 1 % 512 ≠ noIdx := WellFormed.noIdx_ne (by omega)
  unfold mapPages WellFormed.toPt WellFormed.toPd
  rw [if_neg (by omega), if_neg (not_not.mpr hmark), mapSmallLoop, virtToPml4Idx_eq,
    virtToPdptIdx_eq, virtToPdIdx_eq, virtToPtIdx_eq]
  unfold enterPml4t enterPdpt enterPd mapSmallLoop
  rw [if_pos h4]
  simp only [K.bind_assoc', K.pure_bind', if_pos h3, if_pos h2, K.bind_pure_unit]

/-- **`map_huge_page` is `map_pages` for one page.** -/
theorem mapHugePage_eq (kmalloc : Nat → K Nat) (hmark : flags &&& pteHugePage ≠ 0) :
    mapHugePage kmalloc root p v flags = mapPages kmalloc root p v flags 1 := by
  rw [mapPages_one_huge kmalloc hmark]
  unfold mapHugePage WellFormed.toPd
  rw [if_neg hmark, virtToPml4Idx_eq, virtToPdptIdx_eq, virtToPdIdx_eq]
  simp only [K.bind_assoc', K.pure_bind']

theorem mapPage_huge (kmalloc : Nat → K Nat) (hmark : flags &&& pteHugePage ≠ 0) :
    mapPage kmalloc root p v flags = mapPages kmalloc root p v flags 1 := by
  unfold mapPage
  rw [if_pos hmark, mapHugePage_eq kmalloc hmark, K.bind_pure_unit]

theorem mapPage_small (kmalloc : Nat → K Nat) (hmark : flags &&& pteHugePage = 0) :
    mapPage kmalloc root p v flags = pure () := by
  unfold mapPage
  rw [if_neg (not_not.mpr hmark)]

/-- The 4KB page is mapped as asked for already. -/
def AlreadyMapped (m : Mem) (D : Dir) (p v flags : Nat) : Prop :=
  ∃ pt, D 1 (pageNo v / 512) = some pt ∧
    m (entryAddr pt (pageNo v % 512)) .pte = alignDown p pageSize ||| flags

/-- `map_page` leaves what `map_pages` for one page left in `s₁`, and the address translates as
asked for. -/
def Agrees (A : PhysAlloc L) (root : Nat) (s s₁ : KState) (p v flags : Nat) : Prop :=
  ∃ s₂, mapPage A.kmalloc root p v flags L s = .ok ((), s₂) ∧ s₂.mem = s₁.mem ∧
    walk s₂.mem root v = some ⟨alignDown p (Args.mk p v flags 1).size, flags,
      (Args.mk p v flags 1).size⟩

theorem mapPages_one_huge_walk (h : WellFormed A root s D) (hpres : flags &&& ptePresent ≠ 0)
    (hmark : flags &&& pteHugePage ≠ 0) (hnone : D 1 (pageNo v / 512 ^ 1) = none)
    (hrun : mapPages A.kmalloc root p v flags 1 L s = .ok ((), s₁)) :
    walk s₁.mem root v = some (leafOf (p ||| flags) hugePageSize) := by
  rw [mapPages_one_huge A.kmalloc hmark] at hrun
  obtain ⟨r, s', htables, hstore⟩ := K.bind_eq_ok.mp hrun
  obtain ⟨D', h', he, hpdpt, hpd⟩ :=
    (h.toPd_leads A.kmalloc 2 (pageNo_lt v) (Nat.le_refl 2)).of_ok htables
  have hup : D' 2 (pageNo v / 512 ^ 1 / 512) = some r.2 := by rwa [key_div]
  have hleaf : target (p ||| flags) = none := if_neg (fun hh => leaf_mark hmark hh.2)
  have h₁ := h'.write hup (Nat.le_refl 2) (fun _ => ⟨(he.low 1 _ (by omega)).trans hnone, hleaf⟩)
  rw [p2vStore_apply h'.view (h'.stored hup)] at hstore
  obtain ⟨-, rfl⟩ := Prod.mk.inj (Except.ok.inj hstore)
  rw [h₁.walk_pd hpdpt hpd]
  simp only [Mem.set_self]
  rw [if_neg (leaf_mark hpres), if_pos (leaf_mark hmark)]

theorem agrees_huge_iff (h : WellFormed A root s D) (hpres : flags &&& ptePresent ≠ 0)
    (hclear : flags &&& pteAddrMask = 0) (hflags : flags < 2 ^ 64)
    (hmark : flags &&& pteHugePage ≠ 0) (hnone : D 1 (pageNo v / 512 ^ 1) = none)
    (hrun : mapPages A.kmalloc root p v flags 1 L s = .ok ((), s₁)) :
    Agrees A root s s₁ p v flags ↔ p < 2 ^ 52 ∧ p % hugePageSize ||| flags = flags := by
  have hsize : (Args.mk p v flags 1).size = hugePageSize := Args.size_huge hmark
  rw [← leafOf_eq_iff (Or.inr rfl) hclear hflags]
  unfold Agrees
  rw [mapPage_huge A.kmalloc hmark, hsize, hrun]
  have hwalk := mapPages_one_huge_walk h hpres hmark hnone hrun
  constructor
  · rintro ⟨s₂, hs, -, hwalk₂⟩
    obtain ⟨-, rfl⟩ := Prod.mk.inj (Except.ok.inj hs)
    exact Option.some.inj (hwalk.symm.trans hwalk₂)
  · intro heq
    exact ⟨s₁, rfl, rfl, by rw [hwalk, heq]⟩

theorem agrees_small_iff (h : WellFormed A root s D) (hpres : flags &&& ptePresent ≠ 0)
    (hclear : flags &&& pteAddrMask = 0) (hflags : flags < 2 ^ 64)
    (hmark : flags &&& pteHugePage = 0)
    (hrun : mapPages A.kmalloc root p v flags 1 L s = .ok ((), s₁)) :
    Agrees A root s s₁ p v flags ↔ p < 2 ^ 52 ∧ AlreadyMapped s.mem D p v flags := by
  have hsize : (Args.mk p v flags 1).size = pageSize := Args.size_small hmark
  have hP := pageNo_lt v
  rw [mapPages_one_small A.kmalloc hmark] at hrun
  -- with the tables there, the call writes one entry
  have hset : ∀ {pt}, D 1 (pageNo v / 512 ^ 1) = some pt →
      s₁.mem = s.mem.set (entryAddr pt (pageNo v % 512)) .pte (alignDown p pageSize ||| flags) := by
    intro pt hpt
    obtain ⟨pdpt, pd, hpdpt, hpd⟩ := h.above hpt
    have hstored := h.stored (show D 1 (pageNo v / 512) = some pt by rwa [Nat.pow_one] at hpt)
    rw [K.bind_ok (h.toPt_known A.kmalloc hP hpdpt hpd hpt), p2vStore_apply h.view hstored] at hrun
    rw [← (Prod.mk.inj (Except.ok.inj hrun)).2]
  have hlow : alignDown p pageSize % pageSize = 0 := Nat.mul_mod_left _ _
  have hleaf := leafOf_eq_iff (p := alignDown p pageSize) (Or.inl rfl) hclear hflags
  have hlt : alignDown p pageSize < 2 ^ 52 ↔ p < 2 ^ 52 := by
    unfold alignDown pageSize
    omega
  rw [hlow, Nat.zero_or, hlt,
    alignDown_of_dvd (show pageSize ∣ alignDown p pageSize from Nat.dvd_mul_left _ _)] at hleaf
  unfold Agrees
  rw [mapPage_small A.kmalloc hmark, hsize]
  constructor
  · rintro ⟨s₂, hs, hmem, hwalk⟩
    obtain ⟨-, rfl⟩ := Prod.mk.inj (Except.ok.inj hs)
    obtain ⟨pt, hpt⟩ := h.pt_of_walk hwalk rfl
    have hentry : s.mem (entryAddr pt (pageNo v % 512)) .pte = alignDown p pageSize ||| flags := by
      rw [hmem, hset hpt, Mem.set_self]
    obtain ⟨pdpt, pd, hpdpt, hpd⟩ := h.above hpt
    rw [h.walk_pt hpdpt hpd hpt] at hwalk
    simp only [hentry] at hwalk
    rw [if_neg (leaf_mark hpres), Option.some.injEq] at hwalk
    rw [Nat.pow_one] at hpt
    exact ⟨(hleaf.mp hwalk).1, pt, hpt, hentry⟩
  · rintro ⟨hp, pt, hpt, hentry⟩
    rw [← Nat.pow_one 512] at hpt
    obtain ⟨pdpt, pd, hpdpt, hpd⟩ := h.above hpt
    refine ⟨s, rfl, ?_, ?_⟩
    · rw [hset hpt, Mem.set_eq_self hentry]
    · rw [h.walk_pt hpdpt hpd hpt]
      simp only [hentry]
      rw [if_neg (leaf_mark hpres), hleaf.mpr ⟨hp, rfl⟩]

/-- **`map_page` agrees with `map_pages`** for a 2MB page whose frame can be written so, and
otherwise only if the page was mapped as asked for before. -/
theorem mapPage_agrees_iff (h : WellFormed A root s D) (hpres : flags &&& ptePresent ≠ 0)
    (hclear : flags &&& pteAddrMask = 0) (hflags : flags < 2 ^ 64)
    (hconf : NoConflict s.mem D ⟨p, v, flags, 1⟩) (hv : v < 2 ^ 64)
    (hrun : mapPages A.kmalloc root p v flags 1 L s = .ok ((), s₁)) :
    Agrees A root s s₁ p v flags ↔ p < 2 ^ 52 ∧
      if flags &&& pteHugePage ≠ 0 then p % hugePageSize ||| flags = flags
      else AlreadyMapped s.mem D p v flags := by
  by_cases hmark : flags &&& pteHugePage = 0
  · rw [if_neg (not_not.mpr hmark)]
    exact agrees_small_iff h hpres hclear hflags hmark hrun
  · have hcov : (Args.mk p v flags 1).Covers (pageNo v) := by
      refine ⟨0, Nat.zero_lt_one, ?_⟩
      unfold Args.At
      rw [Nat.zero_mul, Nat.add_zero, Nat.mod_eq_of_lt hv]
    have hnone := hconf _ hcov
    rw [if_pos hmark] at hnone ⊢
    rw [← Nat.pow_one 512] at hnone
    exact agrees_huge_iff h hpres hclear hflags hmark hnone hrun

/-! ### On the small machine -/

theorem mapPage_agrees_iff_huge : ∃ s₁,
    mapPages smallAlloc.kmalloc 0x400000 0x600000 0x200000 0x83 1 smallLayout smallStart
    = .ok ((), s₁) ∧
    Agrees smallAlloc 0x400000 smallStart s₁ 0x600000 0x200000 0x83 := by
  have hruns : (outcome (mapPages smallAlloc.kmalloc 0x400000 0x600000 0x200000 0x83 1)
      smallStart).isSome := by decide +kernel
  obtain ⟨s₁, hrun⟩ := Option.isSome_iff_exists.mp hruns
  have hrun := outcome_eq_some hrun
  refine ⟨s₁, hrun, ?_⟩
  exact (mapPage_agrees_iff (A := smallAlloc) smallStart_start.inv.1.wellFormed
    (by decide) (by decide) (by decide) (bare_noConflict _) (by decide) hrun).mpr
    ⟨by decide, by rw [if_pos (by decide)]; decide⟩

/-- **A 4KB page is not mapped**: `map_page` returns and the address has no translation. -/
theorem mapPage_drops_page : WellFormed smallAlloc 0x400000 smallStart (Tables.bare 0x400000).dir ∧
    NoConflict smallStart.mem (Tables.bare 0x400000).dir ⟨0x5000, 0x1000, 3, 1⟩ ∧
    ∃ s₁ s₂,
      mapPages smallAlloc.kmalloc 0x400000 0x5000 0x1000 3 1 smallLayout smallStart = .ok ((), s₁) ∧
      walk s₁.mem 0x400000 0x1000 = some ⟨0x5000, 3, pageSize⟩ ∧
      mapPage smallAlloc.kmalloc 0x400000 0x5000 0x1000 3 smallLayout smallStart = .ok ((), s₂) ∧
      walk s₂.mem 0x400000 0x1000 = none := by
  have hruns :
      ((outcome (mapPages smallAlloc.kmalloc 0x400000 0x5000 0x1000 3 1) smallStart).bind fun s₁ =>
      (outcome (mapPage smallAlloc.kmalloc 0x400000 0x5000 0x1000 3) smallStart).map fun s₂ =>
        (walk s₁.mem 0x400000 0x1000, walk s₂.mem 0x400000 0x1000))
      = some (some ⟨0x5000, 3, pageSize⟩, none) := by
    decide +kernel
  obtain ⟨s₁, h₁, hrest⟩ := Option.bind_eq_some_iff.mp hruns
  obtain ⟨s₂, h₂, hwalks⟩ := Option.map_eq_some_iff.mp hrest
  obtain ⟨hw₁, hw₂⟩ := Prod.mk.inj hwalks
  exact ⟨smallStart_start.inv.1.wellFormed, bare_noConflict _, s₁, s₂, outcome_eq_some h₁, hw₁,
    outcome_eq_some h₂, hw₂⟩

end Mmu
end MikroKernel
