import MikroKernel.Proof.Buddy.Positions
import MikroKernel.Proof.Buddy.Regions
import MikroKernel.Proof.Vm.DirectMap

/-!
# The frames of the buddy allocator in the direct map

Two walks of the e820 table have to agree. `__init_buddy` joins entries that touch before it rounds
the run to whole pages; `map_direct_mapping` rounds each entry on its own. A page of the run on both
sides of a seam is managed and not mapped, and there is no other such page: `managed_mapped_iff`.
-/

set_option autoImplicit false

namespace MikroKernel
namespace Vm

open Mmu
open Buddy
    (selectedRun lowerBound raised aligned managedRange_eq linkable_of_range initBuddy_booked)

variable {L : Layout} {A : KernelAlloc L} {V : Statics} {pml4 fuel base size : Nat}
    {s s₀ s₁ : KState}
  {M : PageMap} {areas : List (Nat × Nat)} {entries l : List MmapEntry} {run : Nat × Nat}

/-! ## The run -/

/-- Each byte of the run is in a usable entry, and the run ends within the window. -/
structure Usable (entries : List MmapEntry) (run : Nat × Nat) : Prop where
  bound : run.1 + run.2 ≤ windowSize
  has : ∀ p, run.1 ≤ p → p < run.1 + run.2 → ∃ e ∈ entries, e.type = 1 ∧ Has e p

theorem usable_entry (ht : TableOk entries) {e : MmapEntry} (he : e ∈ entries)
    (htype : e.type = 1) :
    Usable entries (e.baseAddress, e.chunkSize) :=
  ⟨ht.bound e he htype, fun _ h1 h2 => ⟨e, he, htype, h1, h2⟩⟩

/-- The joined entries are usable as one run. -/
theorem coalesce_usable (ht : TableOk entries) (hl : ∀ e ∈ l, e ∈ entries)
    (h : Usable entries (base, size)) :
    Usable entries (base, (coalesce base l size).1) ∧ ∀ e ∈ (coalesce base l size).2,
        e ∈ entries := by
  induction l generalizing size with
  | nil => exact ⟨h, hl⟩
  | cons e rest ih =>
    have hww : windowSize < 2 ^ 64 := by decide
    have hb : base + size ≤ windowSize := h.bound
    unfold coalesce
    by_cases hnext : e.type = 1 ∧ e.baseAddress = (base + size) % 2 ^ 64
    · rw [if_pos hnext]
      obtain ⟨htype, hat⟩ := hnext
      have he := hl e List.mem_cons_self
      have hbound := ht.bound e he htype
      rw [Nat.mod_eq_of_lt (by omega)] at hat
      rw [Nat.mod_eq_of_lt (by omega)]
      refine ih (fun f hf => hl f (List.mem_cons_of_mem _ hf)) ⟨?_, fun p h1 h2 => ?_⟩
      · show base + (size + e.chunkSize) ≤ windowSize
        omega
      · by_cases hp : p < base + size
        · exact h.has p h1 hp
        · exact ⟨e, he, htype, by omega, by simp only at h2; omega⟩
    · rw [if_neg hnext]
      exact ⟨h, hl⟩

theorem scanRegions_usable (ht : TableOk entries) {n : Nat} (hl : ∀ e ∈ l, e ∈ entries)
    (h : Usable entries run) : Usable entries (scanRegions n l run) := by
  induction n generalizing l run with
  | zero => exact h
  | succ n ih =>
    cases l with
    | nil => exact h
    | cons e rest =>
      have hrest : ∀ f ∈ rest, f ∈ entries := fun f hf => hl f (List.mem_cons_of_mem _ hf)
      unfold scanRegions
      by_cases htype : e.type = 1
      · rw [if_neg (not_not.mpr htype)]
        obtain ⟨hjoin, hleft⟩ :=
          coalesce_usable ht hrest (usable_entry ht (hl e List.mem_cons_self) htype)
        refine ih hleft ?_
        split
        · exact hjoin
        · exact h
      · rw [if_pos htype]
        exact ih hrest h

theorem selectedRun_usable (ht : TableOk entries) : Usable entries (selectedRun entries) :=
  scanRegions_usable ht (fun _ he => he) ⟨Nat.zero_le _, fun _ _ h => absurd h (Nat.not_lt_zero _)⟩

/-! ## The managed range -/

/-- Whole pages of the run. -/
structure PagesOf (run range : Nat × Nat) : Prop where
  base_dvd : pageSize ∣ range.1
  size_dvd : pageSize ∣ range.2
  ge : run.1 ≤ range.1
  le : range.1 + range.2 ≤ run.1 + run.2

/-- The bound is in the kernel image, or it has wrapped, and then the run is of terabytes. -/
theorem lowerBound_cases (L : Layout) {len : Nat} (hlen : len ≤ windowSize) :
    windowSize ≤ lowerBound L.kernelEnd len ∨
        (lowerBound L.kernelEnd len < 2 ^ 31 ∧ 2 ^ 32 ≤ len) := by
  have hfirst := L.image_ge _ (L.metadata_image 0 (by decide))
  have hlast := L.image_lt _ (L.metadata_image (metadataSpan - 1) (by decide))
  unfold lowerBound metadataSize pageSize
  unfold pml4KernelHalfBase at hfirst
  unfold metadataSpan at hlast
  unfold windowSize directMapEnd directMapStart at *
  split <;> omega

/-- What is left of a run of 8MB is of 4MB at least. -/
theorem raised_spec {lower : Nat} (hbound : run.1 + run.2 ≤ windowSize) (hlong : 0x800000 ≤ run.2)
    (hlower : windowSize ≤ lower ∨ (lower < 2 ^ 31 ∧ 2 ^ 32 ≤ run.2)) :
    run.1 ≤ (raised lower run).1 ∧ (raised lower run).1 + (raised lower run).2 = run.1 + run.2 ∧
      chunkBytes 10 ≤ (raised lower run).2 := by
  have hww : windowSize < 2 ^ 64 := by decide
  have hten : chunkBytes 10 = 0x400000 := rfl
  unfold raised
  split
  · rename_i h
    rw [Nat.mod_eq_of_lt (by omega)] at h
    unfold sub64
    simp only
    omega
  · omega

theorem aligned_pages (hlong : chunkBytes 10 ≤ run.2) (htop : run.1 + run.2 < 2 ^ 64) :
    PagesOf run (aligned run) := by
  unfold aligned sub64
  rw [show chunkBytes 10 = 0x400000 from rfl] at *
  refine ⟨?_, Nat.dvd_mul_left _ _, ?_, ?_⟩ <;> simp only [pageSize]
  · omega
  · omega
  · omega

/-- **The managed range is whole pages of the selected run.** -/
theorem managedRange_pages (hbound : (selectedRun entries).1 + (selectedRun entries).2 ≤ windowSize)
    (hlong : 0x800000 ≤ (selectedRun entries).2) :
    PagesOf (selectedRun entries) (managedRange L.kernelEnd entries) := by
  have hww : windowSize < 2 ^ 64 := by decide
  obtain ⟨hge, hend, hlen⟩ := raised_spec hbound hlong (lowerBound_cases L (by omega))
  rw [managedRange_eq]
  have hp := aligned_pages hlen (by omega)
  exact ⟨hp.base_dvd, hp.size_dvd, Nat.le_trans hge hp.ge, by rw [← hend]; exact hp.le⟩

/-! ## The seams -/

/-- No usable entry that has a byte ends within `[lo, hi)` in the middle of a page. -/
def SeamsOnPages (entries : List MmapEntry) (lo hi : Nat) : Prop :=
  ∀ e ∈ entries, e.type = 1 → 0 < e.chunkSize → lo < e.baseAddress + e.chunkSize →
    e.baseAddress + e.chunkSize < hi → pageSize ∣ e.baseAddress + e.chunkSize

/-- A byte is in one usable entry at most. -/
theorem TableOk.unique (ht : TableOk entries) {e f : MmapEntry} {p : Nat} (he : e ∈ entries)
    (hf : f ∈ entries) (htype : e.type = 1) (htype' : f.type = 1) (hp : Has e p) (hp' : Has f p) :
    e = f := by
  have hmem : ∀ {d : MmapEntry}, d ∈ entries → d.type = 1 → d ∈ entries.filter (·.type = 1) :=
    fun hd ht => List.mem_filter.mpr ⟨hd, decide_eq_true ht⟩
  have : Std.Symm fun e f : MmapEntry => ∀ p, Has e p → ¬ Has f p :=
    ⟨fun _ _ h p hf he => h p he hf⟩
  by_contra hne
  exact ht.apart.forall (hmem he htype) (hmem hf htype') hne p hp hp'

/-- **A page of the run is in one entry** unless a seam is inside it. -/
theorem pages_usable_iff (ht : TableOk entries) {range : Nat × Nat} (hu : Usable entries run)
    (hp : PagesOf run range) :
    (∀ p, range.1 ≤ p → p < range.1 + range.2 → InUsablePage entries p) ↔
      SeamsOnPages entries range.1 (range.1 + range.2) := by
  obtain ⟨⟨i, hi⟩, ⟨j, hj⟩, hge, hle⟩ := hp
  constructor
  · intro hall e he htype hpos hlo hhi
    by_contra hmid
    obtain ⟨f, hf, htype', h1, h2⟩ := hall (e.baseAddress + e.chunkSize) (Nat.le_of_lt hlo) hhi
    -- the last byte of the entry is on the page, and so in the other entry too
    have hbelow : (e.baseAddress + e.chunkSize) / pageSize * pageSize
        < e.baseAddress + e.chunkSize := by
      refine Nat.lt_of_le_of_ne (Nat.div_mul_le_self _ _) (fun heq => hmid ?_)
      exact ⟨_, (Nat.mul_comm _ _ ▸ heq).symm⟩
    have hlast : Has e (e.baseAddress + e.chunkSize - 1) := ⟨by omega, by omega⟩
    have hlast' : Has f (e.baseAddress + e.chunkSize - 1) := by
      refine ⟨by omega, ?_⟩
      have := Nat.lt_div_mul_add (a := e.baseAddress + e.chunkSize) (show 0 < pageSize by decide)
      omega
    obtain rfl := ht.unique he hf htype htype' hlast hlast'
    have := Nat.lt_div_mul_add (a := e.baseAddress + e.chunkSize) (show 0 < pageSize by decide)
    omega
  · intro hs p h1 h2
    have hfirst : range.1 ≤ p / pageSize * pageSize ∧ p / pageSize * pageSize + pageSize
        ≤ range.1 + range.2 := by
      unfold pageSize at *
      omega
    obtain ⟨e, he, htype, hlo, hhi⟩ := hu.has (p / pageSize * pageSize) (by omega)
      (by have : 0 < pageSize := by decide
          omega)
    refine ⟨e, he, htype, hlo, ?_⟩
    by_contra hshort
    obtain ⟨k, hk⟩ := hs e he htype (by omega) (by omega) (by omega)
    unfold pageSize at *
    omega

/-- **The managed frames are in the direct map if and only if** the entries of the run meet at page
boundaries. -/
theorem managed_mapped_iff (h : Shows A V pml4 s M areas) (ht : TableOk entries)
    (hempty : ∀ p, p < windowSize → walk s.mem pml4 (directMapStart + p) = none)
    (hfuel : areas.length + 3 * entries.length ≤ fuel) (hlong : 0x800000 ≤ (selectedRun entries).2)
    (hinit : initBuddy entries L s₀ = .ok ((), s₁)) (hbase : s₁.mem L.kernelEnd .baseAddress = base)
    (hsize : s₁.mem L.kernelEnd .managedSize = size) :
    Yields L (mapDirectMapping fuel A.kmalloc V entries) s
      (fun msg => msg ∈ outOfMemory ∧
        ReturnedNull L A.kmalloc (fun kmalloc => mapDirectMapping fuel kmalloc V entries) s)
      (fun _ s' => (∀ p, base ≤ p → p < base + size → DirectlyMapped s'.mem pml4 p) ↔
        SeamsOnPages entries base (base + size)) := by
  obtain ⟨hb, hs, -⟩ := Buddy.initBuddy_stored hinit
  rw [hb] at hbase
  rw [hs] at hsize
  subst hbase hsize
  have hu := selectedRun_usable ht
  have hp := managedRange_pages (L := L) hu.bound hlong
  have hend := hp.le
  refine Yields.mono (mapDirectMapping_yields h ht hempty hfuel) (fun _ hm => hm) ?_
  intro _ s' hmapped
  rw [← pages_usable_iff ht hu hp]
  refine forall_congr' fun p => forall_congr' fun h1 => forall_congr' fun h2 => ?_
  obtain ⟨hin, hout⟩ := hmapped p (by have := hu.bound; omega)
  refine ⟨fun ⟨x, hx, _⟩ => ?_, hin⟩
  by_contra hno
  rw [hout hno] at hx
  exact absurd hx (by simp)

/-! ### On a wider machine -/

/-- The small machine with RAM from 4MB to 16MB. -/
def wideLayout : Layout where
  phys p := decide (0x400000 ≤ p ∧ p < 0x1000000)
  image := smallLayout.image
  kernelEnd := smallLayout.kernelEnd
  phys_lt p h := by
    have := of_decide_eq_true h
    unfold physTop
    omega
  image_ge := smallLayout.image_ge
  image_lt := smallLayout.image_lt
  image_alias p h := by
    have := of_decide_eq_true h
    refine decide_eq_false ?_
    unfold kernelImageStart directMapStart
    omega
  metadata_image := smallLayout.metadata_image

/-- Two entries that meet at `seam`, behind 4MB of RAM. -/
def seamTable (seam : Nat) : List MmapEntry :=
  [⟨0x400000, seam - 0x400000, 1⟩, ⟨seam, 0xC02000 - seam, 1⟩]

theorem seamTable_range :
    managedRange wideLayout.kernelEnd (seamTable 0xC01000) = (0x400000, 0x802000) ∧
    managedRange wideLayout.kernelEnd (seamTable 0xC00800) = (0x400000, 0x802000) := by
  decide +kernel

theorem wideLayout_phys (p : Nat) (h1 : 0x400000 ≤ p) (h2 : p < 0x400000 + 0x802000 % 2 ^ 54) :
    wideLayout.phys p = true :=
  decide_eq_true ⟨h1, by omega⟩

/-- The buddy allocator there. -/
abbrev wideAlloc : KernelAlloc wideLayout :=
  buddyAlloc wideLayout 0x400000 0x802000 (linkable_of_range seamTable_range.1 wideLayout_phys)

theorem wide_unmanaged {x : Nat} (h : kernelImageStart ≤ x) (hx : x < smallLayout.kernelEnd) :
    ¬ wideAlloc.managed x := by
  unfold kernelImageStart at h
  rintro (⟨h1, -⟩ | ⟨-, -, h1⟩)
  · exact Nat.not_lt.mpr h1 hx
  · omega

theorem wide_ready (hok : wideAlloc.Ok s) (hview : View s.physMapOffset)
    (hslab : (s.lock .slabLock).Free) (hroot : s.mem smallStatics.kernelRbRoot .ptr = 0) :
    Ready wideAlloc smallStatics s where
  ok := hok
  view := hview
  slab := hslab
  placed := ⟨smallStatics_placed.pml4, smallStatics_placed.root, smallStatics_placed.ne,
    wide_unmanaged (by decide) (by decide), wide_unmanaged (by decide) (by decide),
    smallStatics_placed.pml4_apart, smallStatics_placed.root_apart⟩
  image := smallPages_ready.image
  unmanaged x h h' := wide_unmanaged (Nat.le_trans (by decide) h) (Nat.lt_trans h' (by decide))
  root := hroot

/-- `__init_buddy`, the beginning of `__init_mmu` and `map_direct_mapping`. -/
def seamBoot (seam : Nat) : K Unit := do
  initBuddy (seamTable seam)
  initSpace wideAlloc.kmalloc smallStatics
  mapDirectMapping 8 wideAlloc.kmalloc smallStatics (seamTable seam)

theorem seamTable_ok {seam : Nat} (h1 : 0x400000 ≤ seam) (h2 : seam ≤ 0xC02000) :
    TableOk (seamTable seam) where
  apart := by
    refine List.pairwise_pair.mpr (fun p hp hp' => ?_)
    unfold Has at hp hp'
    simp only at hp hp'
    omega
  bound e he _ := by
    have hw : 0xC02000 ≤ windowSize := by decide
    rcases List.mem_pair.mp he with rfl | rfl
    · show 0x400000 + (seam - 0x400000) ≤ windowSize
      omega
    · show seam + (0xC02000 - seam) ≤ windowSize
      omega

/-- What `__init_buddy` leaves, as far as `__init_mmu` cares. -/
def afterBuddy (s : KState) : List Block × Nat × Spinlock × Nat × Nat × Nat :=
  (s.blocks, s.physMapOffset, s.lock .slabLock, s.mem smallStatics.kernelRbRoot .ptr,
    s.mem wideLayout.kernelEnd .baseAddress, s.mem wideLayout.kernelEnd .managedSize)

theorem seamBoot_runs (seam : Nat)
    (hrange : managedRange wideLayout.kernelEnd (seamTable seam) = (0x400000, 0x802000))
    (hok : (seamBoot seam wideLayout bootState).toOption.isSome)
    (hbuddy : (initBuddy (seamTable seam) wideLayout bootState).toOption.map
      (fun r => afterBuddy r.2)
      = some ([], 0, Spinlock.init, 0, 0x400000, 0x802000)) :
    ∃ s₁ s₂ s₃ pml4, initBuddy (seamTable seam) wideLayout bootState = .ok ((), s₁) ∧
      initSpace wideAlloc.kmalloc smallStatics wideLayout s₁ = .ok ((), s₂) ∧
      mapDirectMapping 8 wideAlloc.kmalloc smallStatics (seamTable seam) wideLayout s₂
      = .ok ((), s₃) ∧
      Shows wideAlloc smallStatics pml4 s₂ (fun _ => none) [] ∧
      s₁.mem wideLayout.kernelEnd .baseAddress = 0x400000 ∧ s₁.mem wideLayout.kernelEnd .managedSize
      = 0x802000 := by
  obtain ⟨⟨⟨⟩, s₃⟩, hrun⟩ : ∃ r, seamBoot seam wideLayout bootState = .ok r := by
    cases hr : seamBoot seam wideLayout bootState with
    | error e =>
      rw [hr] at hok
      exact absurd hok (by simp [Except.toOption])
    | ok r => exact ⟨r, rfl⟩
  obtain ⟨⟨⟩, s₁, h₁, hrun⟩ := K.bind_eq_ok.mp hrun
  obtain ⟨⟨⟩, s₂, h₂, h₃⟩ := K.bind_eq_ok.mp hrun
  rw [h₁] at hbuddy
  obtain ⟨hblocks, hoff, hslab, hroot, hbase, hsize⟩ : s₁.blocks = [] ∧ s₁.physMapOffset = 0 ∧
      s₁.lock .slabLock = Spinlock.init ∧ s₁.mem smallStatics.kernelRbRoot .ptr = 0 ∧
      s₁.mem wideLayout.kernelEnd .baseAddress = 0x400000 ∧
      s₁.mem wideLayout.kernelEnd .managedSize = 0x802000 := by
    simpa [Except.toOption, afterBuddy] using hbuddy
  obtain ⟨s₁', h₁', hbooked⟩ := initBuddy_booked (s := bootState) hrange wideLayout_phys
    (Or.inl rfl)
  obtain ⟨-, rfl⟩ := Prod.mk.inj (Except.ok.inj (h₁.symm.trans h₁'))
  have hsame : ({ s₁ with blocks := [] } : KState) = s₁ := by rw [← hblocks]
  have hok : wideAlloc.Ok s₁ := hsame ▸ hbooked
  have hready := wide_ready hok (Or.inl hoff) (by rw [hslab]; rfl) hroot
  obtain ⟨-, pml4, hshows⟩ := (initSpace_yields hready).of_ok h₂
  exact ⟨s₁, s₂, s₃, pml4, h₁, h₂, h₃, hshows, hbase, hsize⟩

/-- The entries meet at a page boundary. -/
theorem managed_mapped_iff_page : ∃ s₁ s₂ s₃ pml4,
    initBuddy (seamTable 0xC01000) wideLayout bootState = .ok ((), s₁) ∧
    initSpace wideAlloc.kmalloc smallStatics wideLayout s₁ = .ok ((), s₂) ∧
    mapDirectMapping 8 wideAlloc.kmalloc smallStatics (seamTable 0xC01000) wideLayout s₂
    = .ok ((), s₃) ∧
    ∀ p, 0x400000 ≤ p → p < 0xC02000 → DirectlyMapped s₃.mem pml4 p := by
  obtain ⟨s₁, s₂, s₃, pml4, h₁, h₂, h₃, hshows, hbase, hsize⟩ :=
    seamBoot_runs 0xC01000 seamTable_range.1 (by decide +kernel) (by decide +kernel)
  refine ⟨s₁, s₂, s₃, pml4, h₁, h₂, h₃, ?_⟩
  refine ((managed_mapped_iff hshows (seamTable_ok (by decide) (by decide))
    (fun p _ => hshows.walk_eq _)
    (by decide) (by decide) h₁ hbase hsize).of_ok h₃).mpr ?_
  intro e he _ _ h1 h2
  rcases List.mem_pair.mp he with rfl | rfl
  · decide
  · exact absurd h2 (by decide)

/-- **The entries meet in the middle of a page**, and the page is managed and not mapped. -/
theorem seam_page_not_mapped : TableOk (seamTable 0xC00800) ∧
    selectedRun (seamTable 0xC00800) = (0x400000, 0x802000) ∧ ∃ s₁ s₂ s₃ pml4,
    initBuddy (seamTable 0xC00800) wideLayout bootState = .ok ((), s₁) ∧
    initSpace wideAlloc.kmalloc smallStatics wideLayout s₁ = .ok ((), s₂) ∧
    mapDirectMapping 8 wideAlloc.kmalloc smallStatics (seamTable 0xC00800) wideLayout s₂
    = .ok ((), s₃) ∧
    s₁.mem wideLayout.kernelEnd .baseAddress ≤ 0xC00000 ∧
    0xC00000 < s₁.mem wideLayout.kernelEnd .baseAddress + s₁.mem wideLayout.kernelEnd .managedSize ∧
    ¬ DirectlyMapped s₃.mem pml4 0xC00000 := by
  obtain ⟨s₁, s₂, s₃, pml4, h₁, h₂, h₃, hshows, hbase, hsize⟩ :=
    seamBoot_runs 0xC00800 seamTable_range.2 (by decide +kernel) (by decide +kernel)
  have htable : TableOk (seamTable 0xC00800) := seamTable_ok (by decide) (by decide)
  refine ⟨htable, by decide, s₁, s₂, s₃, pml4, h₁, h₂, h₃, by rw [hbase]; decide,
    by rw [hbase, hsize]; decide, ?_⟩
  rintro ⟨x, hx, -⟩
  have hexact := (mapDirectMapping_yields hshows htable (fun p _ => hshows.walk_eq _)
    (show 0 + 3 * 2 ≤ 8 by decide)).of_ok h₃
  rw [(hexact 0xC00000 (by decide)).2 ?_] at hx
  · exact absurd hx (by simp)
  · rintro ⟨e, he, -, h1, h2⟩
    rcases List.mem_pair.mp he with rfl | rfl
    · exact absurd h2 (by decide)
    · exact absurd h1 (by decide)

end Vm
end MikroKernel
