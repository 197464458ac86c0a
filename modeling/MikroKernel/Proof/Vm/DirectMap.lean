import MikroKernel.Proof.Vm.Agree
import MikroKernel.Proof.Vm.Batch

/-!
# The direct map

`map_direct_mapping` cuts each usable entry of the e820 table into 4KB pages up to the first 2MB
boundary, 2MB pages, and 4KB pages after the last. The cuts of an entry tile the whole pages of it
(`usableCalls_tiles`), and so the direct map is exact: `direct_map_exact`.
-/

set_option autoImplicit false

namespace MikroKernel
namespace Vm

open Mmu Buddy

variable {L : Layout} {A : KernelAlloc L} {V : Statics} {pml4 fuel : Nat} {s s' : KState}
  {M : PageMap} {areas : List (Nat × Nat)} {a b : Args} {l : List Args} {e : MmapEntry}
  {entries : List MmapEntry}

/-! ## Tables -/

/-- The bytes of the direct-map window. -/
def windowSize : Nat := directMapEnd - directMapStart

/-- The entry has the byte at `p`. -/
def Has (e : MmapEntry) (p : Nat) : Prop := e.baseAddress ≤ p ∧ p < e.baseAddress + e.chunkSize

/-- The usable entries share no byte, and end within the window. -/
structure TableOk (entries : List MmapEntry) : Prop where
  apart : (entries.filter (·.type = 1)).Pairwise fun e f => ∀ p, Has e p → ¬ Has f p
  bound : ∀ e ∈ entries, e.type = 1 → e.baseAddress + e.chunkSize ≤ windowSize

/-- The 4KB page of `p` is in a usable entry as a whole. -/
def InUsablePage (entries : List MmapEntry) (p : Nat) : Prop :=
  ∃ e ∈ entries, e.type = 1 ∧ e.baseAddress ≤ p / pageSize * pageSize ∧
    p / pageSize * pageSize + pageSize ≤ e.baseAddress + e.chunkSize

/-! ## The calls for one entry -/

/-- A call for the direct map of `[lo, hi)`. -/
structure Direct (a : Args) (lo hi : Nat) : Prop where
  sound : Sound a
  paddr : a.paddr = lo
  vaddr : a.vaddr = directMapStart + lo
  end_eq : lo + a.numPages * a.size = hi
  lt : lo < hi

/-- One call after the other, without gaps. -/
inductive Tiles : List Args → Nat → Nat → Prop
  | nil (lo : Nat) : Tiles [] lo lo
  | cons {a : Args} {l : List Args} {lo mid hi : Nat} : Direct a lo mid → Tiles l mid hi →
      Tiles (a :: l) lo hi

theorem Tiles.append {l₁ l₂ : List Args} {lo mid hi : Nat} (h₁ : Tiles l₁ lo mid)
    (h₂ : Tiles l₂ mid hi) : Tiles (l₁ ++ l₂) lo hi := by
  induction h₁ with
  | nil => exact h₂
  | cons hd _ ih => exact .cons hd (ih h₂)

theorem Tiles.le {lo hi : Nat} (h : Tiles l lo hi) : lo ≤ hi := by
  induction h with
  | nil => exact Nat.le_refl _
  | cons hd _ ih => exact Nat.le_trans (Nat.le_of_lt hd.lt) ih

theorem Direct.has_iff {lo hi v : Nat} (h : Direct a lo hi) :
    a.Has v ↔ directMapStart + lo ≤ v ∧ v < directMapStart + hi := by
  have := h.end_eq
  unfold Args.Has Args.last
  rw [h.vaddr]
  omega

theorem Tiles.mem {lo hi : Nat} (h : Tiles l lo hi) (ha : a ∈ l) :
    ∃ lo' hi', Direct a lo' hi' ∧ lo ≤ lo' ∧ hi' ≤ hi := by
  induction h with
  | nil => exact absurd ha List.not_mem_nil
  | @cons b l lo mid hi hd ht ih =>
    rcases List.mem_cons.mp ha with rfl | ha
    · exact ⟨lo, mid, hd, Nat.le_refl _, ht.le⟩
    · obtain ⟨lo', hi', hd', h1, h2⟩ := ih ha
      exact ⟨lo', hi', hd', Nat.le_trans (Nat.le_of_lt hd.lt) h1, h2⟩

theorem Tiles.cover {lo hi p : Nat} (h : Tiles l lo hi) (h1 : lo ≤ p) (h2 : p < hi) :
    ∃ a ∈ l, a.Has (directMapStart + p) := by
  induction h with
  | nil => omega
  | @cons b l lo mid hi hd ht ih =>
    by_cases hp : p < mid
    · exact ⟨b, List.mem_cons_self, hd.has_iff.mpr ⟨by omega, by omega⟩⟩
    · obtain ⟨a, ha, hin⟩ := ih (by omega) h2
      exact ⟨a, List.mem_cons_of_mem _ ha, hin⟩

theorem Tiles.apart {lo hi : Nat} (h : Tiles l lo hi) : l.Pairwise RangesApart := by
  induction h with
  | nil => exact List.Pairwise.nil
  | @cons b l lo mid hi hd ht ih =>
    refine List.pairwise_cons.mpr ⟨fun a ha v hv hv' => ?_, ih⟩
    obtain ⟨lo', hi', hd', h1, -⟩ := ht.mem ha
    have := hd.has_iff.mp hv
    have := hd'.has_iff.mp hv'
    omega

/-- The calls for the pages of `[lo, hi)`, with 2MB pages in `[hugeBase, hugeEnd)`. -/
def cut (lo hi hugeBase hugeEnd : Nat) : List Args :=
  if lo ≥ hi then []
  else if hugeBase ≥ hugeEnd then [⟨lo, directMapOf lo, pteFlagsDirectMap, (hi - lo) / pageSize⟩]
  else
    (if lo < hugeBase then [⟨lo, directMapOf lo, pteFlagsDirectMap, (hugeBase - lo) / pageSize⟩]
      else []) ++
    ([⟨hugeBase, directMapOf hugeBase, pteFlagsDirectMap ||| pteHugePage,
        (hugeEnd - hugeBase) / hugePageSize⟩] ++
    (if (hi - hugeEnd) / pageSize > 0 then
      [⟨hugeEnd, directMapOf hugeEnd, pteFlagsDirectMap, (hi - hugeEnd) / pageSize⟩] else []))

/-- The first and the last address of the whole pages of an entry. -/
def firstPage (e : MmapEntry) : Nat := roundUp e.baseAddress pageSize
def lastPage (e : MmapEntry) : Nat := alignDown ((e.baseAddress + e.chunkSize) % 2 ^ 64) pageSize

/-- The calls of `mapUsable`. -/
def usableCalls (e : MmapEntry) : List Args :=
  cut (firstPage e) (lastPage e) (roundUp (firstPage e) hugePageSize)
    (alignDown (lastPage e) hugePageSize)

theorem kmapAll_singleton (kmalloc : Nat → K Nat) (a : Args) :
    kmapAll fuel kmalloc V [a] = kmap fuel kmalloc V a :=
  K.bind_pure_unit _

theorem mapUsable_eq (kmalloc : Nat → K Nat) (e : MmapEntry) :
    mapUsable fuel kmalloc V e = kmapAll fuel kmalloc V (usableCalls e) := by
  unfold mapUsable usableCalls cut firstPage lastPage
  dsimp only
  -- nothing depends on what the bounds are
  generalize roundUp (roundUp e.baseAddress pageSize) hugePageSize = hugeBase
  generalize alignDown (alignDown _ pageSize) hugePageSize = hugeEnd
  generalize roundUp e.baseAddress pageSize = lo
  generalize alignDown _ pageSize = hi
  split_ifs
  · rfl
  · rw [kmapAll_singleton]
    rfl
  · rw [kmapAll_append, kmapAll_append, kmapAll_singleton, kmapAll_singleton, kmapAll_singleton]
    rfl
  · rw [List.append_nil, kmapAll_append, kmapAll_singleton, kmapAll_singleton, K.bind_pure_unit]
    rfl
  · rw [List.nil_append, kmapAll_append, kmapAll_singleton, kmapAll_singleton]
    rfl
  · rw [List.nil_append, List.append_nil, kmapAll_singleton, K.bind_pure_unit]
    rfl

/-- The calls of `map_direct_mapping`. -/
def directCalls (entries : List MmapEntry) : List Args :=
  (entries.filter (·.type = 1)).flatMap usableCalls

theorem directCalls_cons (e : MmapEntry) (rest : List MmapEntry) :
    directCalls (e :: rest) = if e.type = 1 then usableCalls e ++ directCalls rest
        else directCalls rest := by
  unfold directCalls
  simp only [List.filter_cons, decide_eq_true_eq]
  split
  · rw [List.flatMap_cons]
  · rfl

theorem mapDirectMapping_eq (kmalloc : Nat → K Nat) (entries : List MmapEntry) :
    mapDirectMapping fuel kmalloc V entries = kmapAll fuel kmalloc V (directCalls entries) := by
  induction entries with
  | nil => rfl
  | cons e rest ih =>
    rw [mapDirectMapping, directCalls_cons, ih, mapUsable_eq]
    by_cases he : e.type = 1
    · rw [if_neg (not_not.mpr he), if_pos he, kmapAll_append]
    · rw [if_pos he, if_neg he]

theorem usableCalls_length (e : MmapEntry) : (usableCalls e).length ≤ 3 := by
  unfold usableCalls cut
  split_ifs <;> simp

theorem directCalls_length (entries : List MmapEntry) :
    (directCalls entries).length ≤ 3 * entries.length := by
  induction entries with
  | nil => exact Nat.le_refl 0
  | cons e rest ih =>
    have := usableCalls_length e
    rw [directCalls_cons, List.length_cons]
    split
    · rw [List.length_append]
      omega
    · omega

/-! ## The pieces -/

theorem directMapOf_eq {p : Nat} (h : p ≤ windowSize) : directMapOf p = directMapStart + p := by
  unfold directMapOf
  unfold windowSize directMapEnd directMapStart at *
  omega

/-- Whole pages of the window. -/
theorem direct_of {lo hi flags size : Nat}
    (hsize : (Args.mk lo (directMapOf lo) flags ((hi - lo) / size)).size = size)
    (h : Sound (Args.mk 0 (2 ^ 64 - 2 ^ 47) flags 0)) (hpos : size ∣ directMapStart)
    (h1 : size ∣ lo) (h2 : size ∣ hi) (hlt : lo < hi) (hw : hi ≤ windowSize) :
    Direct ⟨lo, directMapOf lo, flags, (hi - lo) / size⟩ lo hi := by
  have hend : (hi - lo) / size * size = hi - lo := Nat.div_mul_cancel (Nat.dvd_sub h2 h1)
  have hw' : windowSize ≤ 2 ^ 47 - 2 ^ 22 := by decide
  have hds : 2 ^ 64 - 2 ^ 47 + 2 ^ 21 = directMapStart := by decide
  have hv := directMapOf_eq (Nat.le_trans (Nat.le_of_lt hlt) hw)
  refine ⟨⟨h.present, h.clear, h.flags_lt, ?_, ?_, ?_, ?_⟩, rfl, hv, ?_, hlt⟩
  · rw [hsize]
    exact h1
  · rw [hsize]
    simp only [hend]
    omega
  · rw [hsize]
    simp only [hv]
    exact Nat.dvd_add hpos h1
  · right
    unfold Args.last
    rw [hsize]
    simp only [hv, hend]
    omega
  · rw [hsize]
    simp only [hend]
    omega

theorem direct_small {lo hi : Nat} (h1 : pageSize ∣ lo) (h2 : pageSize ∣ hi) (hlt : lo < hi)
    (hw : hi ≤ windowSize) :
    Direct ⟨lo, directMapOf lo, pteFlagsDirectMap, (hi - lo) / pageSize⟩ lo hi := by
  have hmark : pteFlagsDirectMap &&& pteHugePage = 0 := by decide
  exact direct_of (Args.size_small hmark) ⟨by decide, by decide, by decide, by decide, by decide,
    ⟨by decide, by decide⟩⟩ (by decide) h1 h2 hlt hw

theorem direct_huge {lo hi : Nat} (h1 : hugePageSize ∣ lo) (h2 : hugePageSize ∣ hi) (hlt : lo < hi)
    (hw : hi ≤ windowSize) :
    Direct ⟨lo, directMapOf lo, pteFlagsDirectMap ||| pteHugePage,
        (hi - lo) / hugePageSize⟩ lo hi := by
  have hmark : (pteFlagsDirectMap ||| pteHugePage) &&& pteHugePage ≠ 0 := by decide
  exact direct_of (Args.size_huge hmark) ⟨by decide, by decide, by decide, by decide, by decide,
    ⟨by decide, by decide⟩⟩ (by decide) h1 h2 hlt hw

theorem tiles_single {lo hi : Nat} (h : Direct a lo hi) : Tiles [a] lo hi := .cons h (.nil hi)

/-- 4KB pages up to the first 2MB boundary, 2MB pages, 4KB pages. -/
theorem cut_tiles {lo hi hugeBase hugeEnd : Nat} (h1 : pageSize ∣ lo) (h2 : pageSize ∣ hi)
    (hlt : lo < hi) (hw : hi ≤ windowSize) (hb : hugePageSize ∣ hugeBase)
    (he : hugePageSize ∣ hugeEnd) (hlo : lo ≤ hugeBase) (hhi : hugeEnd ≤ hi) :
    Tiles (cut lo hi hugeBase hugeEnd) lo hi := by
  have hdvd : pageSize ∣ hugePageSize := by decide
  have hb' := Nat.dvd_trans hdvd hb
  have he' := Nat.dvd_trans hdvd he
  unfold cut
  rw [if_neg (Nat.not_le.mpr hlt)]
  by_cases hmid : hugeBase ≥ hugeEnd
  · rw [if_pos hmid]
    exact tiles_single (direct_small h1 h2 hlt hw)
  · rw [if_neg hmid]
    have hmid := Nat.not_le.mp hmid
    have hhead : Tiles (if lo < hugeBase then
        [⟨lo, directMapOf lo, pteFlagsDirectMap, (hugeBase - lo) / pageSize⟩]
            else []) lo hugeBase := by
      by_cases hlt' : lo < hugeBase
      · rw [if_pos hlt']
        exact tiles_single (direct_small h1 hb' hlt' (by omega))
      · obtain rfl : lo = hugeBase := by omega
        rw [if_neg hlt']
        exact .nil lo
    have htail : Tiles (if (hi - hugeEnd) / pageSize > 0 then
        [⟨hugeEnd, directMapOf hugeEnd, pteFlagsDirectMap, (hi - hugeEnd) / pageSize⟩]
            else []) hugeEnd hi := by
      by_cases hlt' : hugeEnd < hi
      · rw [if_pos (Nat.div_pos (Nat.le_of_dvd (by omega) (Nat.dvd_sub h2 he')) (by decide))]
        exact tiles_single (direct_small he' h2 hlt' hw)
      · obtain rfl : hugeEnd = hi := by omega
        rw [Nat.sub_self, if_neg (by decide)]
        exact .nil hugeEnd
    exact hhead.append ((tiles_single (direct_huge hb he hmid (Nat.le_trans hhi hw))).append htail)

theorem alignDown_spec (x : Nat) {n : Nat} (hn : 0 < n) :
    n ∣ alignDown x n ∧ alignDown x n ≤ x ∧ x < alignDown x n + n := by
  have := Nat.div_add_mod' x n
  have := Nat.mod_lt x hn
  unfold alignDown
  exact ⟨Nat.dvd_mul_left n (x / n), by omega, by omega⟩

theorem roundUp_spec {x n : Nat} (hn : 0 < n) (h : x + n ≤ 2 ^ 64) :
    n ∣ roundUp x n ∧ x ≤ roundUp x n ∧ roundUp x n < x + n := by
  unfold roundUp
  rw [Nat.mod_eq_of_lt (by omega)]
  obtain ⟨h1, h2, h3⟩ := alignDown_spec (x + n - 1) hn
  exact ⟨h1, by omega, by omega⟩

/-- The whole pages of an entry. -/
theorem entry_pages (hw : e.baseAddress + e.chunkSize ≤ windowSize) :
    pageSize ∣ firstPage e ∧ pageSize ∣ lastPage e ∧
      (e.baseAddress ≤ firstPage e ∧ firstPage e < e.baseAddress + pageSize) ∧
      lastPage e ≤ e.baseAddress + e.chunkSize ∧
      e.baseAddress + e.chunkSize < lastPage e + pageSize := by
  have hww : windowSize + pageSize ≤ 2 ^ 64 := by decide
  have hn : 0 < pageSize := by decide
  obtain ⟨h1, h2, h3⟩ := roundUp_spec (x := e.baseAddress) hn (by omega)
  obtain ⟨k1, k2, k3⟩ := alignDown_spec ((e.baseAddress + e.chunkSize) % 2 ^ 64) hn
  unfold firstPage lastPage
  rw [Nat.mod_eq_of_lt (by omega)] at k1 k2 k3 ⊢
  exact ⟨h1, k1, ⟨h2, h3⟩, k2, k3⟩

/-- **The calls for an entry** tile the whole pages of it. -/
theorem usableCalls_tiles (hw : e.baseAddress + e.chunkSize ≤ windowSize)
    (hlt : firstPage e < lastPage e) :
    Tiles (usableCalls e) (firstPage e) (lastPage e) := by
  have hww : windowSize + hugePageSize ≤ 2 ^ 64 := by decide
  have hn : 0 < hugePageSize := by decide
  obtain ⟨h1, h2, -, h3, -⟩ := entry_pages hw
  obtain ⟨a1, a2, -⟩ := roundUp_spec (x := firstPage e) hn (by omega)
  obtain ⟨b1, b2, -⟩ := alignDown_spec (lastPage e) hn
  exact cut_tiles h1 h2 hlt (by omega) a1 b1 a2 b2

theorem usableCalls_empty (h : lastPage e ≤ firstPage e) : usableCalls e = [] := if_pos h

/-- What the calls for an entry map. -/
theorem usableCalls_has (hw : e.baseAddress + e.chunkSize ≤ windowSize) (p : Nat) :
    (∃ a ∈ usableCalls e, a.Has (directMapStart + p)) ↔ firstPage e ≤ p ∧ p < lastPage e := by
  by_cases hlt : firstPage e < lastPage e
  · have ht := usableCalls_tiles hw hlt
    refine ⟨fun ⟨a, ha, hin⟩ => ?_, fun h => ht.cover h.1 h.2⟩
    obtain ⟨lo, hi, hd, hlo, hhi⟩ := ht.mem ha
    have := hd.has_iff.mp hin
    omega
  · rw [usableCalls_empty (by omega)]
    refine ⟨fun ⟨a, ha, _⟩ => absurd ha List.not_mem_nil, fun h => ?_⟩
    omega

theorem usableCalls_direct (hw : e.baseAddress + e.chunkSize ≤ windowSize)
    (ha : a ∈ usableCalls e) :
    ∃ lo hi, Direct a lo hi := by
  by_cases hlt : firstPage e < lastPage e
  · obtain ⟨lo, hi, hd, -⟩ := (usableCalls_tiles hw hlt).mem ha
    exact ⟨lo, hi, hd⟩
  · rw [usableCalls_empty (by omega)] at ha
    exact absurd ha List.not_mem_nil

/-- The calls for an entry are for bytes of it. -/
theorem usableCalls_bytes (hw : e.baseAddress + e.chunkSize ≤ windowSize) (ha : a ∈ usableCalls e)
    {v : Nat} (hv : a.Has v) : ∃ p, v = directMapStart + p ∧ Has e p := by
  obtain ⟨lo, hi, hd⟩ := usableCalls_direct hw ha
  have hvd := hd.has_iff.mp hv
  obtain ⟨p, rfl⟩ := Nat.exists_eq_add_of_le (show directMapStart ≤ v by omega)
  have hp := (usableCalls_has hw p).mp ⟨a, ha, hv⟩
  obtain ⟨-, -, ⟨h1, -⟩, h2, -⟩ := entry_pages hw
  exact ⟨p, rfl, by omega, by omega⟩

theorem wholePage_iff (hw : e.baseAddress + e.chunkSize ≤ windowSize) (p : Nat) :
    (e.baseAddress ≤ p / pageSize * pageSize ∧
      p / pageSize * pageSize + pageSize ≤ e.baseAddress + e.chunkSize) ↔
    firstPage e ≤ p ∧ p < lastPage e := by
  obtain ⟨⟨i, hi⟩, ⟨j, hj⟩, h1, h2⟩ := entry_pages hw
  unfold pageSize at *
  omega

/-! ## All entries -/

theorem mem_directCalls : a ∈ directCalls entries ↔ ∃ e ∈ entries, e.type = 1 ∧
    a ∈ usableCalls e := by
  unfold directCalls
  simp only [List.mem_flatMap, List.mem_filter, decide_eq_true_eq, and_assoc]

theorem directCalls_apart (h : TableOk entries) : (directCalls entries).Pairwise RangesApart := by
  have hbound : ∀ e ∈ entries.filter (·.type = 1), e.baseAddress + e.chunkSize ≤ windowSize := by
    intro e he
    obtain ⟨he, htype⟩ := List.mem_filter.mp he
    exact h.bound e he (of_decide_eq_true htype)
  unfold directCalls
  refine List.pairwise_flatMap.mpr ⟨fun e he => ?_, ?_⟩
  · by_cases hlt : firstPage e < lastPage e
    · exact (usableCalls_tiles (hbound e he) hlt).apart
    · rw [usableCalls_empty (by omega)]
      exact List.Pairwise.nil
  · refine h.apart.imp_of_mem (fun {e f} he hf hap x hx y hy v hv hv' => ?_)
    obtain ⟨p, rfl, hp⟩ := usableCalls_bytes (hbound e he) hx hv
    obtain ⟨q, hq, hp'⟩ := usableCalls_bytes (hbound f hf) hy hv'
    obtain rfl : p = q := by omega
    exact hap p hp hp'

/-- The calls of the direct map can be made one after the other. -/
theorem directCalls_batch (h : TableOk entries)
    (hfree : ∀ p, p < windowSize → M (pageNo (directMapStart + p)) = none) :
    Batch M (directCalls entries) := by
  refine ⟨fun a ha => ?_, directCalls_apart h, fun a ha v _ hv => ?_⟩
  · obtain ⟨e, he, htype, ha⟩ := mem_directCalls.mp ha
    obtain ⟨_, _, hd⟩ := usableCalls_direct (h.bound e he htype) ha
    exact hd.sound
  · obtain ⟨e, he, htype, ha⟩ := mem_directCalls.mp ha
    have hw := h.bound e he htype
    obtain ⟨p, rfl, hp⟩ := usableCalls_bytes hw ha hv
    exact hfree p (Nat.lt_of_lt_of_le hp.2 hw)

/-- **The window is covered** where a page is in a usable entry as a whole. -/
theorem directCalls_cover (h : TableOk entries) (p : Nat) :
    InUsablePage entries p ↔ ∃ a ∈ directCalls entries, a.Has (directMapStart + p) := by
  constructor
  · rintro ⟨e, he, htype, hpage⟩
    have hw := h.bound e he htype
    obtain ⟨a, ha, hin⟩ := (usableCalls_has hw p).mpr ((wholePage_iff hw p).mp hpage)
    exact ⟨a, mem_directCalls.mpr ⟨e, he, htype, ha⟩, hin⟩
  · rintro ⟨a, ha, hin⟩
    obtain ⟨e, he, htype, ha⟩ := mem_directCalls.mp ha
    have hw := h.bound e he htype
    exact ⟨e, he, htype, (wholePage_iff hw p).mpr ((usableCalls_has hw p).mp ⟨a, ha, hin⟩)⟩

/-- The flags of the calls. -/
theorem usableCalls_flags (ha : a ∈ usableCalls e) :
    a.flags = pteFlagsDirectMap ∨ a.flags = pteFlagsDirectMap ||| pteHugePage := by
  unfold usableCalls cut at ha
  split_ifs at ha <;> simp only [List.mem_append, List.mem_singleton, List.not_mem_nil, false_or,
    or_false] at ha
  · exact Or.inl (ha ▸ rfl)
  · rcases ha with rfl | rfl | rfl
    · exact Or.inl rfl
    · exact Or.inr rfl
    · exact Or.inl rfl
  · rcases ha with rfl | rfl
    · exact Or.inl rfl
    · exact Or.inr rfl
  · rcases ha with rfl | rfl
    · exact Or.inr rfl
    · exact Or.inl rfl
  · exact Or.inr (ha ▸ rfl)

/-- The alias of `p` in the window translates to `p`, with the rights of the direct map. -/
def DirectlyMapped (m : Mem) (root p : Nat) : Prop :=
  ∃ x, walk m root (directMapStart + p) = some x ∧ x.frame + p % x.size = p ∧
    ((x.size = pageSize ∧ x.flags = pteFlagsDirectMap) ∨
      (x.size = hugePageSize ∧ x.flags = pteFlagsDirectMap ||| pteHugePage))

theorem directlyMapped_leafAt {m : Mem} {root p lo hi : Nat} (hd : Direct a lo hi)
    (hflags : a.flags = pteFlagsDirectMap ∨ a.flags = pteFlagsDirectMap ||| pteHugePage)
    (hin : a.Has (directMapStart + p))
    (hwalk : walk m root (directMapStart + p) = some (leafAt a (directMapStart + p))) :
    DirectlyMapped m root p := by
  refine ⟨_, hwalk, ?_, ?_⟩
  · have hin := hd.has_iff.mp hin
    obtain ⟨d, rfl⟩ := Nat.exists_eq_add_of_le (show lo ≤ p by omega)
    have hdiv := Nat.div_add_mod' d a.size
    have hmod : (lo + d) % a.size = d % a.size := by
      obtain ⟨q, hq⟩ := hd.sound.frames
      rw [← hd.paddr, hq, Nat.mul_add_mod]
    unfold leafAt
    simp only [hd.paddr, hd.vaddr]
    rw [show directMapStart + (lo + d) - (directMapStart + lo) = d by omega, hmod]
    omega
  · rcases hflags with h | h
    · exact Or.inl ⟨Args.size_small (by rw [h]; decide), h⟩
    · exact Or.inr ⟨Args.size_huge (by rw [h]; decide), h⟩

theorem window_canonical {p : Nat} (h : p < windowSize) : Canonical (directMapStart + p) := by
  unfold Canonical
  unfold windowSize directMapEnd directMapStart at *
  omega

/-- The calls of the direct map find the window free. -/
theorem Shows.directBatch (h : Shows A V pml4 s M areas) (ht : TableOk entries)
    (hempty : ∀ p, p < windowSize → walk s.mem pml4 (directMapStart + p) = none) :
    Batch M (directCalls entries) := by
  refine directCalls_batch ht (fun p hp => ?_)
  rw [← h.walk_eq, hempty p hp]

/-- What is usable in whole pages is mapped to itself, and nothing else of the window is mapped. -/
theorem mapDirectMapping_yields (h : Shows A V pml4 s M areas) (ht : TableOk entries)
    (hempty : ∀ p, p < windowSize → walk s.mem pml4 (directMapStart + p) = none)
    (hfuel : areas.length + 3 * entries.length ≤ fuel) :
    Tied L nullAlarm (· ∈ outOfMemory) (mapDirectMapping fuel (orHalt A.kmalloc) V entries)
      (mapDirectMapping fuel A.kmalloc V entries) s (fun _ s' =>
        ∀ p, p < windowSize → (InUsablePage entries p → DirectlyMapped s'.mem pml4 p) ∧
          (¬ InUsablePage entries p → walk s'.mem pml4 (directMapStart + p) = none)) := by
  have hlen := directCalls_length entries
  have hb := h.directBatch ht hempty
  rw [mapDirectMapping_eq, mapDirectMapping_eq]
  refine (h.kmapAll hb (by omega)).mono (fun _ hm => hm) ?_
  rintro - s' ⟨areas', h', -⟩ p hp
  have hproper : ∀ a ∈ directCalls entries, a.Proper := fun a ha => (hb.sound a ha).proper
  have hc := window_canonical hp
  rw [directCalls_cover ht]
  refine ⟨fun ⟨a, ha, hin⟩ => ?_, fun hout => ?_⟩
  · obtain ⟨e, he, htype, hae⟩ := mem_directCalls.mp ha
    obtain ⟨lo, hi, hd⟩ := usableCalls_direct (ht.bound e he htype) hae
    refine directlyMapped_leafAt hd (usableCalls_flags hae) hin ?_
    rw [h'.walk_eq, foldl_map_inside hproper hb.apart hc ha hin]
  · rw [h'.walk_eq, foldl_map_outside hproper hc (fun a ha hin => hout ⟨a, ha, hin⟩), ← h.walk_eq,
      hempty p hp]

/-- **The direct map is exact**: what is usable in whole pages is mapped to itself, nothing else of
the window is mapped, and no call comes upon a page of the other size. It panics only if an
allocation returned `NULL`. -/
theorem direct_map_exact (h : Shows A V pml4 s M areas) (ht : TableOk entries)
    (hempty : ∀ p, p < windowSize → walk s.mem pml4 (directMapStart + p) = none)
    (hfuel : areas.length + 3 * entries.length ≤ fuel) :
    (mapDirectMapping fuel A.kmalloc V entries = kmapAll fuel A.kmalloc V (directCalls entries) ∧
      CleanRun fuel A V pml4 (directCalls entries) s) ∧
    Yields L (mapDirectMapping fuel A.kmalloc V entries) s
      (fun msg => msg ∈ outOfMemory ∧
        ReturnedNull L A.kmalloc (fun kmalloc => mapDirectMapping fuel kmalloc V entries) s)
      (fun _ s' => ∀ p, p < windowSize → (InUsablePage entries p → DirectlyMapped s'.mem pml4 p) ∧
        (¬ InUsablePage entries p → walk s'.mem pml4 (directMapStart + p) = none)) := by
  have hlen := directCalls_length entries
  have hclean := h.cleanRun (h.directBatch ht hempty) (show areas.length + _ ≤ fuel by omega)
  exact ⟨⟨mapDirectMapping_eq _ entries, hclean⟩, mapDirectMapping_yields h ht hempty hfuel⟩

/-- One usable entry, from the middle of a page to the middle of another. -/
def raggedTable : List MmapEntry := [⟨0x400800, 0x2000, 1⟩]

theorem raggedTable_ok : TableOk raggedTable where
  apart := List.pairwise_singleton _ _
  bound e he _ := by
    rw [List.mem_singleton.mp he]
    decide

theorem direct_map_exact_ragged : ∃ pml4 s s',
    initSpace smallKernelAlloc.kmalloc smallStatics smallLayout smallPagesStart = .ok ((), s) ∧
    mapDirectMapping 4 smallKernelAlloc.kmalloc smallStatics raggedTable smallLayout s
    = .ok ((), s') ∧
    DirectlyMapped s'.mem pml4 0x401ABC ∧ walk s'.mem pml4 (directMapStart + 0x402000) = none := by
  have hruns :
      ((outcome (initSpace smallKernelAlloc.kmalloc smallStatics) smallPagesStart).bind fun s =>
      (outcome (mapDirectMapping 4 smallKernelAlloc.kmalloc smallStatics raggedTable) s).map
        fun s' => (s, s')).isSome := by
    decide +kernel
  obtain ⟨⟨s, s'⟩, hrun⟩ := Option.isSome_iff_exists.mp hruns
  obtain ⟨s₁, h₁, hrun⟩ := Option.bind_eq_some_iff.mp hrun
  obtain ⟨s₂, h₂, hrun⟩ := Option.map_eq_some_iff.mp hrun
  obtain ⟨rfl, rfl⟩ := Prod.mk.inj hrun
  have hinit := outcome_eq_some h₁
  have hmap := outcome_eq_some h₂
  obtain ⟨pml4, h⟩ := Agrees.start smallPages_ready hinit
  have hexact := (direct_map_exact h.shows_ raggedTable_ok (fun p _ => h.shows_.walk_eq _)
    (show 0 + 3 * 1 ≤ 4 by decide)).2.of_ok hmap
  refine ⟨pml4, s₁, s₂, hinit, hmap, (hexact 0x401ABC (by decide)).1 ?_,
    (hexact 0x402000 (by decide)).2 ?_⟩
  · exact ⟨_, List.mem_singleton_self _, rfl, by decide, by decide⟩
  · rintro ⟨e, he, -, -, hle⟩
    rw [List.mem_singleton.mp he] at hle
    exact absurd hle (by decide)

end Vm
end MikroKernel
