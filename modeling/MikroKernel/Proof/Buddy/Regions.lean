import MikroKernel.Alloc.Buddy
import MikroKernel.Lib.FirstLargest
import Mathlib.Data.List.SplitBy

/-!
# The region the buddy allocator manages

`__init_buddy` scans the e820 table for the largest run of usable entries that touch, and cuts the
managed range out of it. The first part is right for every table: the scan keeps the first of the
largest among the maximal runs (`scanRegions_exact`). The second part subtracts without looking.
-/

set_option autoImplicit false

namespace MikroKernel
namespace Buddy

variable {entries l : List MmapEntry} {base size n : Nat} {best : Nat × Nat} {e f : MmapEntry}

/-! ## Runs -/

/-- The usable entries end below `2 ^ 64`. -/
def NonWrapping (entries : List MmapEntry) : Prop :=
  ∀ e ∈ entries, e.type = 1 → e.baseAddress + e.chunkSize < 2 ^ 64

/-- Two usable entries, the second where the first ends. -/
def joins (e f : MmapEntry) : Bool :=
  decide (e.type = 1 ∧ f.type = 1 ∧ f.baseAddress = e.baseAddress + e.chunkSize)

/-- The maximal runs of usable entries that touch, in table order. -/
def runs (entries : List MmapEntry) : List (List MmapEntry) :=
  (entries.splitBy joins).filter (·.all fun e => e.type = 1)

/-- The base of a run and its size. -/
def runRange (run : List MmapEntry) : Nat × Nat :=
  ((run.head?.map (·.baseAddress)).getD 0, (run.map (·.chunkSize)).sum)

/-- The run `__init_buddy` selects, as `(base, size)`. -/
def selectedRun (entries : List MmapEntry) : Nat × Nat := scanRegions entries.length entries (0, 0)

theorem NonWrapping.of_mem (h : NonWrapping entries) (hl : ∀ e ∈ l, e ∈ entries) : NonWrapping l :=
  fun e he => h e (hl e he)

/-- An entry that is not usable is in no run. -/
theorem runs_skip (he : e.type ≠ 1) : runs (e :: l) = runs l := by
  have hsplit : (e :: l).splitBy joins = [e].splitBy joins ++ l.splitBy joins := by
    refine List.splitBy_append (l := [e]) (m := l) (fun x hx y _ => ?_)
    obtain rfl : e = x := by simpa using hx
    exact decide_eq_false (fun h => he h.1)
  unfold runs
  rw [hsplit, List.splitBy_of_isChain (by simp) (List.isChain_singleton e), List.filter_append]
  simp [he]

/-- A run in front, if the entry behind it does not go on with it. -/
theorem runs_run {run rest : List MmapEntry} (hne : run ≠ []) (htype : ∀ e ∈ run, e.type = 1)
    (hchain : run.IsChain fun e f => joins e f)
    (hend : ∀ x ∈ run.getLast?, ∀ y ∈ rest.head?, joins x y = false) :
    runs (run ++ rest) = run :: runs rest := by
  unfold runs
  have hall : (run.all fun e => e.type = 1) = true := by simpa using htype
  rw [List.splitBy_append hend, List.splitBy_of_isChain hne hchain, List.filter_append,
    List.filter_singleton, hall]
  rfl

/-- **The inner loop goes on to the end of the run.** The entry before the list is `e`, and the run
up to it ends where `e` does. -/
theorem coalesce_spec (hw : NonWrapping l) (he : e.type = 1)
    (hend : e.baseAddress + e.chunkSize = base + size) (hlt : base + size < 2 ^ 64) :
    ∃ tail rest, l = tail ++ rest ∧ (∀ f ∈ tail, f.type = 1) ∧
      coalesce base l size = (size + (tail.map (·.chunkSize)).sum, rest) ∧
      (e :: tail).IsChain (fun e f => joins e f) ∧
      ∀ x ∈ (e :: tail).getLast?, ∀ y ∈ rest.head?, joins x y = false := by
  induction l generalizing size e with
  | nil => exact ⟨[], [], rfl, by simp, rfl, List.isChain_singleton e, by simp⟩
  | cons f l ih =>
    unfold coalesce
    rw [Nat.mod_eq_of_lt hlt]
    by_cases hjoin : f.type = 1 ∧ f.baseAddress = base + size
    · have hf := hw f List.mem_cons_self hjoin.1
      rw [if_pos hjoin, Nat.mod_eq_of_lt (by omega)]
      obtain ⟨tail, rest, rfl, htype, hrun, hchain, hlast⟩ := ih
        (hw.of_mem (fun _ => List.mem_cons_of_mem _)) hjoin.1
        (show f.baseAddress + f.chunkSize = base + (size + f.chunkSize) by omega) (by omega)
      refine ⟨f :: tail, rest, rfl, List.forall_mem_cons.mpr ⟨hjoin.1, htype⟩, ?_, ?_, ?_⟩
      · rw [hrun, List.map_cons, List.sum_cons, Nat.add_assoc]
      · exact List.isChain_cons_cons.mpr ⟨decide_eq_true ⟨he, hjoin.1, by omega⟩, hchain⟩
      · rwa [List.getLast?_cons_cons]
    · rw [if_neg hjoin]
      refine ⟨[], f :: l, rfl, by simp, rfl, List.isChain_singleton e, ?_⟩
      intro x hx y hy
      obtain rfl : e = x := by simpa using hx
      obtain rfl : f = y := by simpa using hy
      exact decide_eq_false (fun h => hjoin ⟨h.2.1, by omega⟩)

/-- **The scan** keeps the first of the largest runs, and the entries are rounds enough. -/
theorem scanRegions_eq (hw : NonWrapping l) (hn : l.length ≤ n) :
    scanRegions n l best = ((runs l).map runRange).foldl (FirstLargest.larger Prod.snd) best := by
  induction n generalizing l best with
  | zero =>
    obtain rfl := List.length_eq_zero_iff.mp (Nat.le_zero.mp hn)
    rfl
  | succ n ih =>
    cases l with
    | nil => rfl
    | cons e l =>
      have hl := hw.of_mem (l := l) (fun _ => List.mem_cons_of_mem _)
      rw [List.length_cons] at hn
      unfold scanRegions
      by_cases he : e.type = 1
      · rw [if_neg (not_not.mpr he)]
        obtain ⟨tail, rest, rfl, htype, hrun, hchain, hlast⟩ :=
          coalesce_spec hl he rfl (hw e List.mem_cons_self he)
        rw [List.length_append] at hn
        rw [hrun, ih (hl.of_mem (fun _ => List.mem_append_right _)) (by omega),
          show e :: (tail ++ rest) = (e :: tail) ++ rest from rfl,
          runs_run (by simp) (List.forall_mem_cons.mpr ⟨he, htype⟩) hchain hlast]
        rfl
      · rw [if_pos he, ih hl (by omega), runs_skip he]

/-- One usable entry makes the whole chain usable. -/
theorem usable_of_chain {run : List MmapEntry} (hchain : run.IsChain fun e f => joins e f)
    (hf : f ∈ run) (htype : f.type = 1) : ∀ e ∈ run, e.type = 1 := by
  induction run generalizing f with
  | nil => exact fun e he => absurd he List.not_mem_nil
  | cons x run ih =>
    cases run with
    | nil =>
      intro e he
      rw [List.mem_singleton.mp he, ← List.mem_singleton.mp hf, htype]
    | cons y run =>
      obtain ⟨hxy, hchain⟩ := List.isChain_cons_cons.mp hchain
      obtain ⟨hx, hy, -⟩ := of_decide_eq_true hxy
      exact List.forall_mem_cons.mpr ⟨hx, ih hchain List.mem_cons_self hy⟩

/-- The runs are of the usable entries, and each of these is in one. -/
theorem mem_runs : (∃ run ∈ runs entries, e ∈ run) ↔ e ∈ entries ∧ e.type = 1 := by
  constructor
  · rintro ⟨run, hrun, he⟩
    obtain ⟨hrun, htype⟩ := List.mem_filter.mp hrun
    refine ⟨?_, of_decide_eq_true (List.all_eq_true.mp htype e he)⟩
    rw [← List.flatten_splitBy joins entries]
    exact List.mem_flatten.mpr ⟨run, hrun, he⟩
  · rintro ⟨he, htype⟩
    rw [← List.flatten_splitBy joins entries] at he
    obtain ⟨run, hrun, he⟩ := List.mem_flatten.mp he
    have hall := usable_of_chain (List.isChain_of_mem_splitBy hrun) he htype
    refine ⟨run, List.mem_filter.mpr ⟨hrun, ?_⟩, he⟩
    simpa using hall

theorem runBytes_eq_zero {run : List MmapEntry} :
    (runRange run).2 = 0 ↔ ∀ e ∈ run, e.chunkSize = 0 := by
  unfold runRange
  simp only [List.sum_eq_zero_iff, List.mem_map, forall_exists_index, and_imp,
    forall_apply_eq_imp_iff₂]

/-- **The region selection is exact**: it ends, with the first of the largest maximal runs, or with
`(0, 0)` if no usable entry has a byte. -/
theorem scanRegions_exact (hw : NonWrapping entries) :
    (∀ n, entries.length ≤ n → scanRegions n entries (0, 0) = selectedRun entries) ∧
    (selectedRun entries = (0, 0) ↔ ∀ e ∈ entries, e.type = 1 → e.chunkSize = 0) ∧
    (selectedRun entries ≠ (0, 0) →
      FirstLargest.Is Prod.snd ((runs entries).map runRange) (selectedRun entries)) := by
  have heq : ∀ n, entries.length ≤ n → scanRegions n entries (0, 0)
      = ((runs entries).map runRange).foldl (FirstLargest.larger Prod.snd) (0, 0) :=
    fun _ hn => scanRegions_eq hw hn
  have hself : selectedRun entries = _ := heq entries.length (Nat.le_refl _)
  refine ⟨fun n hn => (heq n hn).trans hself.symm, ?_⟩
  rw [hself]
  rcases FirstLargest.foldl_larger Prod.snd (b := ((0 : Nat), (0 : Nat)))
    (l := (runs entries).map runRange) with ⟨hzero, hall⟩ | ⟨hfirst, hpos⟩
  · refine ⟨⟨fun _ e he htype => ?_, fun _ => hzero⟩, fun hne => absurd hzero hne⟩
    obtain ⟨run, hrun, hin⟩ := mem_runs.mpr ⟨he, htype⟩
    exact runBytes_eq_zero.mp (Nat.le_zero.mp (hall _ (List.mem_map_of_mem hrun))) e hin
  · refine ⟨⟨fun h => absurd hpos (by rw [h]; exact Nat.lt_irrefl 0), fun hall => ?_⟩,
      fun _ => hfirst⟩
    -- the run has a byte, and so has an entry of it
    obtain ⟨before, after, hsplit, -, -⟩ := hfirst
    obtain ⟨run, hrun, hr⟩ := List.mem_map.mp
      (hsplit ▸ List.mem_append_right before (List.mem_cons_self (l := after)))
    rw [← hr] at hpos
    refine absurd (runBytes_eq_zero.mpr fun e he => ?_) (Nat.ne_of_gt hpos)
    obtain ⟨hmem, htype⟩ := mem_runs.mp ⟨run, hrun, he⟩
    exact hall e hmem htype

/-- Two runs of the same size: the first, of two entries, is selected. -/
theorem scanRegions_exact_first : selectedRun [⟨0, 0x1000, 1⟩, ⟨0x1000, 0x1000, 2⟩,
      ⟨0x4000, 0x1000, 1⟩,
    ⟨0x5000, 0x1000, 1⟩, ⟨0x8000, 0x2000, 1⟩] = (0x4000, 0x2000) ∧
    FirstLargest.Is Prod.snd [(0, 0x1000), (0x4000, 0x2000),
      (0x8000, 0x2000)] (0x4000, 0x2000) := by
  refine ⟨by decide, ?_⟩
  have hw : NonWrapping [⟨0, 0x1000, 1⟩, ⟨0x1000, 0x1000, 2⟩, ⟨0x4000, 0x1000, 1⟩,
    ⟨0x5000, 0x1000, 1⟩,
      ⟨0x8000, 0x2000, 1⟩] := by
    unfold NonWrapping
    decide
  exact (scanRegions_exact hw).2.2 (by decide)

/-! ## The managed range -/

/-- What the base has to clear, for a run of `len` bytes. -/
def lowerBound (kernelEnd len : Nat) : Nat :=
  if (kernelEnd + metadataSize + 11 * 8 + len / pageSize / 8) % 2 ^ 64 > 0x100000 then
    (kernelEnd + metadataSize + 11 * 8 + len / pageSize / 8) % 2 ^ 64
  else 0x100000

/-- The run without what is below the bound. -/
def raised (lower : Nat) (run : Nat × Nat) : Nat × Nat :=
  if run.1 < lower ∧ lower < (run.1 + run.2) % 2 ^ 64 then (lower, sub64 run.2 (lower - run.1))
    else run

/-- The run from the next multiple of 4MB on, in whole pages. -/
def aligned (run : Nat × Nat) : Nat × Nat :=
  let align := (chunkBytes 10 - run.1 % chunkBytes 10) % chunkBytes 10
  ((run.1 + align) % 2 ^ 64, sub64 run.2 align / pageSize * pageSize)

theorem managedRange_eq (kernelEnd : Nat) (entries : List MmapEntry) :
    managedRange kernelEnd entries
    = aligned (raised (lowerBound kernelEnd (selectedRun entries).2) (selectedRun entries)) := rfl

/-- Whatever the table, the range starts at a multiple of 4MB and is made of pages. -/
theorem managedRange_whole (kernelEnd : Nat) (entries : List MmapEntry) :
    chunkBytes 10 ∣ (managedRange kernelEnd entries).1 ∧
      (managedRange kernelEnd entries).1 < 2 ^ 64 ∧
      pageSize ∣ (managedRange kernelEnd entries).2 := by
  rw [managedRange_eq]
  generalize raised (lowerBound kernelEnd (selectedRun entries).2) (selectedRun entries) = run
  refine ⟨?_, Nat.mod_lt _ (by omega), Nat.dvd_mul_left _ _⟩
  unfold aligned
  rw [show chunkBytes 10 = 0x400000 from rfl]
  dsimp only
  omega

/-- Where the run starts, or the lower bound if that cuts the run. -/
def runStart (kernelEnd : Nat) (run : Nat × Nat) : Nat :=
  (raised (lowerBound kernelEnd run.2) run).1

/-- The next multiple of 4MB. -/
def roundUp (start : Nat) : Nat := (start + (chunkBytes 10 - 1)) / chunkBytes 10 * chunkBytes 10

theorem roundUp_spec (start : Nat) :
    start ≤ roundUp start ∧ roundUp start < start + chunkBytes 10 ∧
        chunkBytes 10 ∣ roundUp start := by
  refine ⟨?_, ?_, Nat.dvd_mul_left _ _⟩ <;> unfold roundUp
    <;> rw [show chunkBytes 10 = 0x400000 from rfl] <;> omega

/-- There is a multiple of 4MB up to `stop` exactly if the next one is. -/
theorem roundUp_le_iff {start stop : Nat} :
    roundUp start ≤ stop ↔ ∃ m, chunkBytes 10 ∣ m ∧ start ≤ m ∧ m ≤ stop := by
  obtain ⟨hge, -, hdvd⟩ := roundUp_spec start
  refine ⟨fun h => ⟨_, hdvd, hge, h⟩, ?_⟩
  rintro ⟨_, ⟨k, rfl⟩, h1, h2⟩
  refine Nat.le_trans ?_ h2
  rw [show chunkBytes 10 = 0x400000 from rfl] at h1
  unfold roundUp
  rw [show chunkBytes 10 = 0x400000 from rfl]
  omega

/-- A run of entries that do not wrap does not wrap. -/
theorem runRange_lt (hw : NonWrapping entries) {run : List MmapEntry} (hrun : run ∈ runs entries) :
    (runRange run).1 + (runRange run).2 < 2 ^ 64 := by
  have hmem : ∀ e ∈ run, e.baseAddress + e.chunkSize < 2 ^ 64 := fun e he =>
    hw e (mem_runs.mp ⟨run, hrun, he⟩).1 (mem_runs.mp ⟨run, hrun, he⟩).2
  have hchain : run.IsChain fun e f => joins e f :=
    List.isChain_of_mem_splitBy (List.mem_filter.mp hrun).1
  clear hrun
  induction run with
  | nil => decide
  | cons e run ih =>
    cases run with
    | nil => exact hmem e List.mem_cons_self
    | cons f run =>
      obtain ⟨hef, hchain⟩ := List.isChain_cons_cons.mp hchain
      obtain ⟨-, -, hnext⟩ := of_decide_eq_true hef
      have hrest : f.baseAddress + ((f :: run).map (·.chunkSize)).sum < 2 ^ 64 :=
        ih (fun e he => hmem e (List.mem_cons_of_mem _ he)) hchain
      show e.baseAddress + ((e :: f :: run).map (·.chunkSize)).sum < 2 ^ 64
      rw [List.map_cons, List.sum_cons]
      omega

theorem selectedRun_lt (hw : NonWrapping entries) :
    (selectedRun entries).1 + (selectedRun entries).2 < 2 ^ 64 := by
  by_cases h : selectedRun entries = (0, 0)
  · rw [h]
    decide
  · obtain ⟨before, after, hsplit, -, -⟩ := (scanRegions_exact hw).2.2 h
    obtain ⟨run, hrun, heq⟩ := List.mem_map.mp
      (hsplit ▸ List.mem_append_right before (List.mem_cons_self (l := after)))
    rw [← heq]
    exact runRange_lt hw hrun

/-- What the lower bound leaves of a run. -/
theorem raised_left (lower : Nat) {run : Nat × Nat} (hrun : run.1 + run.2 < 2 ^ 64) :
    run.1 ≤ (raised lower run).1 ∧ (raised lower run).1 + (raised lower run).2 = run.1 + run.2 := by
  unfold raised
  split
  · rename_i h
    rw [Nat.mod_eq_of_lt hrun] at h
    unfold sub64
    simp only
    omega
  · omega

/-- **The managed range**, with the subtraction of the gap as the code makes it. -/
theorem aligned_eq {run : Nat × Nat} (hrun : run.1 + run.2 < 2 ^ 64) :
    (roundUp run.1 ≤ run.1 + run.2 →
        aligned run = (roundUp run.1, (run.1 + run.2 - roundUp run.1) / pageSize * pageSize)) ∧
      (run.1 + run.2 < roundUp run.1 → aligned run = (roundUp run.1 % 2 ^ 64,
        (2 ^ 64 - (roundUp run.1 - (run.1 + run.2))) / pageSize * pageSize)) := by
  have hten : chunkBytes 10 = 0x400000 := rfl
  unfold aligned sub64 roundUp
  rw [hten]
  dsimp only
  refine ⟨fun h => Prod.ext ?_ ?_, fun h => Prod.ext ?_ ?_⟩
  · show _ = _
    omega
  · show _ / _ * _ = _
    congr 2
    omega
  · show _ = _
    omega
  · show _ / _ * _ = _
    congr 2
    omega

theorem managedRange_cases (hw : NonWrapping entries) (kernelEnd : Nat) :
    let run := selectedRun entries
    let first := roundUp (runStart kernelEnd run)
    (first ≤ run.1 + run.2 →
        managedRange kernelEnd entries = (first, (run.1 + run.2 - first) / pageSize * pageSize)) ∧
      (run.1 + run.2 < first → managedRange kernelEnd entries
        = (first % 2 ^ 64, (2 ^ 64 - (first - (run.1 + run.2))) / pageSize * pageSize)) := by
  intro run first
  have hrun := selectedRun_lt hw
  obtain ⟨-, hleft⟩ := raised_left (lowerBound kernelEnd run.2) hrun
  have hcases := aligned_eq (hleft ▸ hrun)
  rw [hleft] at hcases
  exact hcases

/-- For a run of nearly everything the sum behind the lower bound wraps. -/
theorem lowerBound_wraps (L : Layout) {len : Nat} (hlen : 2 ^ 64 - 0x800000 ≤ len)
    (hlt : len < 2 ^ 64) :
    lowerBound L.kernelEnd len ≤ 2 ^ 50 := by
  have hhigh := L.image_ge _ (L.metadata_image 0 (by decide))
  have htop := L.image_lt _ (L.metadata_image 0 (by decide))
  unfold pml4KernelHalfBase at hhigh
  unfold lowerBound metadataSize pageSize
  split <;> omega

/-- The range is in the run: it does not wrap, its bytes are the run's, and it is empty if no page
of the run is at a multiple of 4MB. -/
structure WithinRun (run range : Nat × Nat) : Prop where
  no_wrap : range.1 + range.2 ≤ 2 ^ 64
  within : ∀ p, range.1 ≤ p → p < range.1 + range.2 → run.1 ≤ p ∧ p < run.1 + run.2
  short : (∀ m, chunkBytes 10 ∣ m → run.1 ≤ m → run.1 + run.2 < m + pageSize) → range.2 = 0

/-- **The managed range is in the selected run if and only if** what is left of the run reaches a
multiple of 4MB. -/
theorem managedRange_inside_iff (L : Layout) (hw : NonWrapping entries) :
    WithinRun (selectedRun entries) (managedRange L.kernelEnd entries) ↔
      ∃ m, chunkBytes 10 ∣ m ∧ runStart L.kernelEnd (selectedRun entries) ≤ m ∧
        m ≤ (selectedRun entries).1 + (selectedRun entries).2 := by
  have hrun := selectedRun_lt hw
  obtain ⟨hge, hleft⟩ := raised_left (lowerBound L.kernelEnd (selectedRun entries).2) hrun
  obtain ⟨hfits, hwraps⟩ := managedRange_cases hw L.kernelEnd
  obtain ⟨hfirst, hnext, hdvd⟩ := roundUp_spec (runStart L.kernelEnd (selectedRun entries))
  have hten : chunkBytes 10 = 0x400000 := rfl
  rw [← roundUp_le_iff]
  generalize hm : roundUp (runStart L.kernelEnd (selectedRun entries)) = first at *
  unfold runStart at hfirst hnext hm
  generalize hr : selectedRun entries = run at *
  unfold pageSize at *
  constructor
  · intro h
    by_contra hshort
    rw [hwraps (by omega)] at h
    -- the wrapped size is all of the address space but 4MB, and so is the run then
    have h1 := h.within (first % 2 ^ 64) (Nat.le_refl _) (by simp only; omega)
    have h2 :=
      h.within (first % 2 ^ 64 + (2 ^ 64 - (first - (run.1 + run.2))) / 0x1000 * 0x1000 - 1)
      (by simp only; omega) (by simp only; omega)
    have hlong : 2 ^ 64 - 0x800000 ≤ run.2 := by omega
    have hlow := lowerBound_wraps L hlong (by omega)
    have hstart : (raised (lowerBound L.kernelEnd run.2) run).1 ≤ 2 ^ 50 := by
      unfold raised
      split
      · exact hlow
      · omega
    omega
  · intro hle
    rw [hfits hle]
    refine ⟨by simp only; omega, fun p h1 h2 => ?_, fun hno => ?_⟩
    · simp only at h1 h2
      omega
    · have := hno first hdvd (by omega)
      unfold pageSize at this
      simp only
      omega

/-- The small machine's RAM begins at a multiple of 4MB. -/
theorem managedRange_inside_iff_small : WithinRun (selectedRun [⟨0x400000, 0x400000, 1⟩])
    (managedRange smallLayout.kernelEnd [⟨0x400000, 0x400000, 1⟩]) :=
  (managedRange_inside_iff smallLayout
    (show NonWrapping [⟨0x400000, 0x400000, 1⟩] by unfold NonWrapping; decide)).mpr
    ⟨0x400000, by decide, by decide, by decide⟩

/-- **A run of 1MB from 1MB on**: the gap to 4MB is three times as long, and the size wraps. -/
theorem short_run_wraps : NonWrapping [⟨0x100000, 0x100000, 1⟩] ∧
    managedRange smallLayout.kernelEnd [⟨0x100000, 0x100000, 1⟩] = (0x400000, 2 ^ 64 - 0x200000) ∧
    ¬ WithinRun (selectedRun [⟨0x100000, 0x100000, 1⟩])
      (managedRange smallLayout.kernelEnd [⟨0x100000, 0x100000, 1⟩]) :=
  ⟨by unfold NonWrapping; decide, by decide, fun h => absurd h.no_wrap (by decide)⟩

/-! ## Low memory, the image and the metadata -/

/-- A byte of a range, which may go on past `2 ^ 64`. -/
def InRange (range : Nat × Nat) (p : Nat) : Prop := ∃ i < range.2, p = (range.1 + i) % 2 ^ 64

/-- The byte past `buddy_metadata`, the free-list heads and the bitmap of so many pages, behind an
image that ends at `imageEnd`. -/
def metadataEnd (imageEnd pages : Nat) : Nat := imageEnd + metadataSize + 11 * 8 + pages / 8

/-- What must not be handed out: the first megabyte, the kernel image from `KERNEL_PHYS` on, and the
allocator's own data behind it. -/
def Occupied (imageEnd pages p : Nat) : Prop :=
  p < 0x100000 ∨ (0x13000 ≤ p ∧ p < imageEnd) ∨ (imageEnd ≤ p ∧ p < metadataEnd imageEnd pages)

theorem occupied_iff {imageEnd pages p : Nat} :
    Occupied imageEnd pages p ↔ p < 0x100000 ∨ p < metadataEnd imageEnd pages := by
  unfold Occupied metadataEnd
  omega

/-- The pages from `first` on to `stop`, if there are any, are behind all that is occupied. -/
def FreeOfOccupied (imageEnd first stop : Nat) : Prop :=
  first ≤ stop ∧ (stop < first + pageSize ∨
    (0x100000 ≤ first ∧ metadataEnd imageEnd ((stop - first) / pageSize) ≤ first))

/-- **Nothing that is occupied is managed if and only if** the run reaches the first multiple of
4MB, and what is behind that, unless it is less than a page, begins above 1MB and above the bitmap.
The address the code compares the run with is the virtual one of the metadata. -/
theorem occupied_unmanaged_iff {imageEnd : Nat} (hw : NonWrapping entries)
    (hlong : 0x1000000 ≤ (selectedRun entries).2) :
    (∀ p, InRange (managedRange (kernelImageStart + imageEnd) entries) p →
        ¬ Occupied imageEnd ((managedRange (kernelImageStart + imageEnd) entries).2 / pageSize) p) ↔
      FreeOfOccupied imageEnd
        (roundUp (runStart (kernelImageStart + imageEnd) (selectedRun entries)))
        ((selectedRun entries).1 + (selectedRun entries).2) := by
  have hrun := selectedRun_lt hw
  obtain ⟨hge, hleft⟩ := raised_left
    (lowerBound (kernelImageStart + imageEnd) (selectedRun entries).2) hrun
  obtain ⟨hfits, hwraps⟩ := managedRange_cases hw (kernelImageStart + imageEnd)
  obtain ⟨hfirst, hnext, k, hk⟩ :=
    roundUp_spec (runStart (kernelImageStart + imageEnd) (selectedRun entries))
  have hten : chunkBytes 10 = 0x400000 := rfl
  simp only [occupied_iff, not_or, Nat.not_lt]
  unfold FreeOfOccupied
  generalize hf : roundUp (runStart (kernelImageStart + imageEnd) (selectedRun entries))
    = first at *
  generalize hs : (selectedRun entries).1 + (selectedRun entries).2 = stop at *
  by_cases hle : first ≤ stop
  · rw [hfits hle]
    have hpages : (stop - first) / pageSize * pageSize / pageSize = (stop - first) / pageSize :=
      Nat.mul_div_cancel _ (by decide)
    show (∀ p, InRange (first, (stop - first) / pageSize * pageSize) p → 0x100000 ≤ p ∧
      metadataEnd imageEnd ((stop - first) / pageSize * pageSize / pageSize) ≤ p) ↔ _
    rw [hpages]
    constructor
    · intro hfree
      refine ⟨hle, ?_⟩
      by_cases hshort : stop < first + pageSize
      · exact Or.inl hshort
      · -- the first byte is managed
        have h := hfree first ⟨0, ?_, ?_⟩
        · exact Or.inr h
        · unfold pageSize at *
          simp only
          omega
        · simp only
          omega
    · rintro ⟨-, hshort | ⟨h1, h2⟩⟩ p ⟨i, hi, rfl⟩
      · unfold pageSize at *
        simp only at hi
        omega
      · have hin : (stop - first) / pageSize * pageSize ≤ stop - first := Nat.div_mul_le_self _ _
        simp only at hi ⊢
        rw [Nat.mod_eq_of_lt (by omega)]
        omega
  · refine ⟨fun hfree => ?_, fun h => absurd h.1 hle⟩
    -- the range goes all the way round to the end of the run, and passes address 0
    rw [hwraps (by omega)] at hfree
    unfold runStart at hfirst hnext
    have htop : first ≤ 2 ^ 64 := by
      rw [hten] at hk
      omega
    have h := hfree 0 ⟨(2 ^ 64 - first) % 2 ^ 64, ?_, ?_⟩
    · exact absurd h.1 (by decide)
    · show (2 ^ 64 - first) % 2 ^ 64 < (2 ^ 64 - (first - stop)) / pageSize * pageSize
      unfold pageSize
      omega
    · show 0 = (first % 2 ^ 64 + (2 ^ 64 - first) % 2 ^ 64) % 2 ^ 64
      omega

/-- RAM from 4MB on, and an image of 1MB. -/
theorem occupied_unmanaged_iff_high : NonWrapping [⟨0x400000, 0x1000000, 1⟩] ∧
    ∀ p, InRange (managedRange (kernelImageStart + 0x100000) [⟨0x400000, 0x1000000, 1⟩]) p →
      ¬ Occupied 0x100000
      ((managedRange (kernelImageStart + 0x100000) [⟨0x400000, 0x1000000, 1⟩]).2 / pageSize)
        p :=
  have hmap : NonWrapping [⟨0x400000, 0x1000000, 1⟩] := by
    unfold NonWrapping
    decide
  ⟨hmap, (occupied_unmanaged_iff hmap (by decide)).mpr ⟨by decide, by decide⟩⟩

/-- **A run of 32MB from address 0 on** is managed from address 0 on: the virtual bound is above all
of it. -/
theorem low_memory_managed : NonWrapping [⟨0, 0x2000000, 1⟩] ∧
    selectedRun [⟨0, 0x2000000, 1⟩] = (0, 0x2000000) ∧
    InRange (managedRange (kernelImageStart + 0x100000) [⟨0, 0x2000000, 1⟩]) 0x13000 ∧
    Occupied 0x100000
    ((managedRange (kernelImageStart + 0x100000) [⟨0, 0x2000000, 1⟩]).2 / pageSize) 0x13000 :=
  ⟨by unfold NonWrapping; decide, by decide, ⟨0x13000, by decide, by decide⟩, Or.inl (by decide)⟩

end Buddy
end MikroKernel
