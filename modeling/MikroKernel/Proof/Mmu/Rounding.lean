import MikroKernel.Proof.Mmu.Overlap

/-!
# The frame that is mapped and the frame that is unmapped

`unmap_pages` rounds the address of a frame down to the size of its pages. `map_pages` does so for
4KB pages only: the bits of an address below 2MB go into the leaf. So the two agree on a 2MB page
just if these bits are flags it has anyway (`rounding_iff`).
-/

set_option autoImplicit false

namespace MikroKernel
namespace Mmu

variable {L : Layout} {A : PhysAlloc L} {s s' : KState} {root : Nat} {T T' : Tables}
    {a : Args} {i P : Nat}

/-- The pages of a call are mapped to its frames, rounded down, with its flags. -/
def Rounded (m : Mem) (root : Nat) (a : Args) : Prop :=
  ∀ i v, i < a.numPages → a.At i (pageNo v) →
    walk m root v = some ⟨alignDown a.paddr a.size + i * a.size, a.flags, a.size⟩

/-- The frames can be named, and what is left over of the address of a 2MB frame is among the
flags. -/
def Args.Named (a : Args) : Prop :=
  a.numPages = 0 ∨ (alignDown a.paddr a.size + a.numPages * a.size ≤ 2 ^ 52 ∧
    (a.flags &&& pteHugePage ≠ 0 → a.paddr % hugePageSize ||| a.flags = a.flags))

theorem Args.size_eq (a : Args) : a.size = pageSize ∨ a.size = hugePageSize := by
  by_cases hmark : a.flags &&& pteHugePage = 0
  · exact Or.inl (a.size_small hmark)
  · exact Or.inr (a.size_huge hmark)

theorem Args.size_dvd (a : Args) : a.size ∣ 2 ^ 52 := by
  rcases a.size_eq with h | h <;> rw [h] <;> decide

theorem Args.base_le (a : Args) : a.base ≤ a.paddr := by
  unfold Args.base
  split
  · exact Nat.le_refl _
  · exact alignDown_le _ _

theorem alignDown_add_mul (p i : Nat) {size : Nat} (h : 0 < size) :
    alignDown (p + i * size) size = alignDown p size + i * size := by
  unfold alignDown
  rw [Nat.add_mul_div_right _ _ h, Nat.add_mul]

/-- Either rounding gives the same frame. -/
theorem Args.alignDown_base (a : Args) : alignDown a.base a.size = alignDown a.paddr a.size := by
  by_cases hmark : a.flags &&& pteHugePage = 0
  · unfold Args.base
    rw [if_neg (not_not.mpr hmark), a.size_small hmark]
    exact alignDown_of_dvd (Nat.dvd_mul_left _ _)
  · unfold Args.base
    rw [if_pos hmark]

/-- What is left over. -/
theorem Args.base_mod (a : Args) : a.base % a.size ||| a.flags = a.flags ↔
    (a.flags &&& pteHugePage ≠ 0 → a.paddr % hugePageSize ||| a.flags = a.flags) := by
  unfold Args.base
  by_cases hmark : a.flags &&& pteHugePage = 0
  · have hzero : alignDown a.paddr pageSize % pageSize = 0 := Nat.mul_mod_left _ _
    rw [if_neg (not_not.mpr hmark), a.size_small hmark, hzero, Nat.zero_or]
    exact iff_of_true rfl (fun h => absurd hmark h)
  · rw [if_pos hmark, a.size_huge hmark]
    exact ⟨fun h _ => h, fun h => h hmark⟩

/-- A frame can be named if it ends by `2 ^ 52`. -/
theorem lt_top_iff {p size : Nat} (hpos : 0 < size) (hdvd : size ∣ 2 ^ 52) :
    p < 2 ^ 52 ↔ alignDown p size + size ≤ 2 ^ 52 := by
  obtain ⟨k, hk⟩ := hdvd
  unfold alignDown
  rw [hk, ← Nat.succ_mul, Nat.mul_comm size k, Nat.mul_le_mul_right_iff hpos]
  exact (Nat.div_lt_iff_lt_mul hpos).symm

theorem Args.NoWrap.bytes (h : a.NoWrap) : a.numPages * a.size ≤ 2 ^ 48 := by
  unfold Args.NoWrap at h
  by_cases hmark : a.flags &&& pteHugePage = 0
  · rw [a.slot_small hmark] at h
    rw [a.size_small hmark]
    unfold pageSize
    omega
  · rw [a.slot_huge hmark] at h
    rw [a.size_huge hmark]
    unfold hugePageSize
    omega

section

variable (hclear : a.flags &&& pteAddrMask = 0) (hflags : a.flags < 2 ^ 64) (hp : a.paddr < 2 ^ 52)
  (hnw : a.NoWrap)

include hclear hflags hp hnw

/-- The leaf of page `i`. -/
theorem Args.leaf_rounded_iff (hi : i < a.numPages) (hat : a.At i P) :
    leafOf (a.entry P) a.size = ⟨alignDown a.paddr a.size + i * a.size, a.flags, a.size⟩ ↔
      alignDown a.paddr a.size + (i + 1) * a.size ≤ 2 ^ 52 ∧
        (a.flags &&& pteHugePage ≠ 0 → a.paddr % hugePageSize ||| a.flags = a.flags) := by
  have hslot : a.slot P - a.first = i := by
    unfold Args.At at hat
    rw [hnw.slot_at hi] at hat
    omega
  have hlt : a.base + i * a.size < 2 ^ 64 := by
    have hmul : i * a.size ≤ a.numPages * a.size := Nat.mul_le_mul_right _ (by omega)
    have := hnw.bytes
    have := a.base_le
    omega
  have hround : alignDown (a.base + i * a.size) a.size = alignDown a.paddr a.size + i * a.size := by
    rw [alignDown_add_mul _ _ a.size_pos, a.alignDown_base]
  unfold Args.entry
  rw [hslot, Nat.mod_eq_of_lt hlt, ← hround, leafOf_eq_iff a.size_eq hclear hflags,
    lt_top_iff a.size_pos a.size_dvd, hround, Nat.add_mul_mod_self_right, a.base_mod, Nat.succ_mul,
    Nat.add_assoc]

/-- **The leaves are the frames rounded down** just if they can be named and nothing is left
over. -/
theorem rounded_iff (h : Inv A root s' T')
    (hlook : ∀ P, T'.lookup P = if a.Covers P then some (leafOf (a.entry P) a.size)
      else T.lookup P) :
    Rounded s'.mem root a ↔ a.Named := by
  have hleaf : ∀ {i v}, i < a.numPages → a.At i (pageNo v) →
      walk s'.mem root v = some (leafOf (a.entry (pageNo v)) a.size) := by
    intro i v hi hat
    rw [h.walk_eq, hlook, if_pos ⟨i, hi, hat⟩]
  constructor
  · intro hr
    rcases Nat.eq_zero_or_pos a.numPages with hn | hpos
    · exact Or.inl hn
    -- the last page says it for all
    have hi : a.numPages - 1 < a.numPages := by omega
    have hlast := hr _ _ hi (a.at_self (a.numPages - 1))
    rw [hleaf hi (a.at_self _), Option.some.injEq,
      Args.leaf_rounded_iff hclear hflags hp hnw hi (a.at_self _), Nat.sub_add_cancel hpos] at hlast
    exact Or.inr hlast
  · intro hn i v hi hat
    obtain ⟨htop, hrest⟩ := hn.resolve_left (by omega)
    rw [hleaf hi hat, Option.some.injEq, Args.leaf_rounded_iff hclear hflags hp hnw hi hat]
    have hmul : (i + 1) * a.size ≤ a.numPages * a.size := Nat.mul_le_mul_right _ hi
    exact ⟨by omega, hrest⟩

end

/-- Pages at the frames a call of `unmap_pages` looks for are not wrong. -/
theorem Rounded.not_wrong (h : Rounded s.mem root a) (hinv : Inv A root s T) : ¬ a.Wrong T := by
  -- the code rounds, so the address may as well be rounded before
  have hdvd : a.size ∣ alignDown a.paddr a.size := Nat.dvd_mul_left _ _
  have hsame : Args.Wrong { a with paddr := alignDown a.paddr a.size } T ↔ a.Wrong T := by
    have hround : alignDown (alignDown a.paddr a.size) a.size = alignDown a.paddr a.size :=
      alignDown_of_dvd hdvd
    unfold Args.Wrong
    by_cases hmark : a.flags &&& pteHugePage = 0
    · rw [a.size_small hmark] at hround
      simp only [if_neg (not_not.mpr hmark), a.size_small hmark, hround]
    · rw [a.size_huge hmark] at hround
      simp only [if_pos hmark, a.size_huge hmark, hround]
  have hlook : ∀ {i P x}, i < a.numPages → a.At i P → T.lookup P = some x →
      x = ⟨alignDown a.paddr a.size + i * a.size, a.flags, a.size⟩ := by
    intro i P x hi hat hx
    have hno := pageNo_base (Args.Covers.lt (a := a) ⟨i, hi, hat⟩)
    have hwalk := h i (P * pageSize) hi (by rwa [hno])
    rw [hinv.walk_eq, hno, hx, Option.some.injEq] at hwalk
    exact hwalk
  rw [← hsame]
  refine UnmapArgs.not_wrong ?_ hinv.shape ?_
  · intro i P x hi hat hx
    rw [hlook hi hat hx]
    exact ⟨rfl, rfl⟩
  · rintro P x ⟨i, hi, hat⟩ hx
    rw [hlook hi hat hx]
    exact Nat.dvd_add hdvd (Nat.dvd_mul_left _ _)

/-- `unmap_pages` and `unmap_huge_page` return, if their frees are sound. -/
theorem Rounded.unmaps (h : Rounded s.mem root a) (hinv : Inv A root s T) (hfull : Full T)
    (hsound : a.Sound A root s) : ∃ s', a.unmap A.kfree root L s = .ok ((), s') := by
  rcases unmap_yields a hinv hfull hsound with ⟨⟨⟩, s', hrun, -⟩ | ⟨-, -, hw⟩
  · exact ⟨s', hrun⟩
  · exact absurd hw (h.not_wrong hinv)

/-- Every table the call of `unmap_huge_page` gives back merges with free blocks only. -/
def Args.SoundHuge (a : Args) (A : PhysAlloc L) (root : Nat) (s : KState) : Prop :=
  FreesSound A (fun kfree => unmapHugePage kfree root a.paddr a.vaddr) s

theorem Rounded.unmaps_huge (h : Rounded s.mem root a) (hinv : Inv A root s T) (hfull : Full T)
    (hmark : a.flags &&& pteHugePage ≠ 0) (hone : a.numPages = 1) (hp : a.paddr < 2 ^ 52)
    (hsound : a.SoundHuge A root s) :
    ∃ s', unmapHugePage A.kfree root a.paddr a.vaddr L s = .ok ((), s') := by
  have hyields : Yields L (unmapHugePage A.kfree root a.paddr a.vaddr) s
      (fun _ => WrongHuge T (pageNo a.vaddr / 512) (alignDown a.paddr hugePageSize))
          (fun _ _ => True) :=
    Yields.of_guarded inferInstance hsound
      ((unmapHugeWith_yields _ _ hinv hfull).mono (fun _ hm => hm) (fun _ _ _ => trivial))
  rcases hyields with ⟨⟨⟩, s', hrun, -⟩ | ⟨-, -, hw⟩
  · exact ⟨s', hrun⟩
  · refine absurd ?_ (h.not_wrong hinv)
    have hkey : hugeKey a.vaddr 0 = pageNo a.vaddr / 512 := by
      unfold hugeKey pageNo
      omega
    have hframe : (alignDown a.paddr hugePageSize + 0 * hugePageSize) % 2 ^ 64
        = alignDown a.paddr hugePageSize := by
      have := alignDown_le a.paddr hugePageSize
      rw [Nat.zero_mul, Nat.add_zero, Nat.mod_eq_of_lt (by omega)]
    unfold Args.Wrong
    rw [if_pos hmark]
    exact ⟨0, by omega, by rwa [hkey, hframe]⟩

/-- **Mapping and unmapping round alike** just if the frames can be named and, of a 2MB frame, what
is below 2MB is among the flags. Then the leaves are the frames rounded down; and the call of
`unmap_pages` with the same arguments returns, if the tables it gives back merge with free blocks
only. So it is for the functions for one 2MB page. -/
theorem rounding_iff (h : Inv A root s T) (hfull : Full T) (hpres : a.flags &&& ptePresent ≠ 0)
    (hclear : a.flags &&& pteAddrMask = 0) (hflags : a.flags < 2 ^ 64) (hp : a.paddr < 2 ^ 52)
    (hnw : a.NoWrap) (hfresh : ∀ v, a.Covers (pageNo v) → walk s.mem root v = none) :
    Yields L (a.map A.kmalloc root) s
      (fun msg => msg ∈ allocFailures ∧
        ReturnedNull L A.kmalloc (fun kmalloc => a.map kmalloc root) s)
      (fun _ s' => (Rounded s'.mem root a ↔ a.Named) ∧ (a.Sound A root s' →
        ((Rounded s'.mem root a ∧ ∃ s'', a.unmap A.kfree root L s' = .ok ((), s'')) ↔ a.Named))) ∧
    (a.flags &&& pteHugePage ≠ 0 → a.numPages = 1 →
      Yields L (mapHugePage A.kmalloc root a.paddr a.vaddr a.flags) s
        (fun msg => msg ∈ allocFailures ∧
          ReturnedNull L A.kmalloc (fun kmalloc => mapHugePage kmalloc root a.paddr a.vaddr a.flags)
          s)
        (fun _ s' => (Rounded s'.mem root a ↔ a.Named) ∧
          (a.SoundHuge A root s' → ((Rounded s'.mem root a ∧
          ∃ s'', unmapHugePage A.kfree root a.paddr a.vaddr L s' = .ok ((), s'')) ↔
          a.Named)))) := by
  have hfree : ∀ P, a.Covers P → T.lookup P = none := by
    intro P hc
    have hno := pageNo_base hc.lt
    have := hfresh (P * pageSize) (by rwa [hno])
    rwa [h.walk_eq, hno] at this
  have hover := map_over h hfull hpres (by omega) hnw (fits_of_fresh hfull hnw hfree)
  constructor
  · refine hover.mono (fun _ hm => hm) ?_
    rintro - s' ⟨T', h', hfull', -, hlook⟩
    rw [← rounded_iff hclear hflags hp hnw h' hlook]
    exact ⟨Iff.rfl, fun hsound => ⟨fun hr => hr.1, fun hr => ⟨hr, hr.unmaps h' hfull' hsound⟩⟩⟩
  · intro hmark hone
    have hcall : ∀ kmalloc, a.map kmalloc root
        = mapHugePage kmalloc root a.paddr a.vaddr a.flags := by
      intro kmalloc
      rw [mapHugePage_eq kmalloc hmark, ← hone]
      rfl
    rw [hcall, hcall] at hover
    refine hover.mono (fun _ hm => hm) ?_
    rintro - s' ⟨T', h', hfull', -, hlook⟩
    rw [← rounded_iff hclear hflags hp hnw h' hlook]
    exact ⟨Iff.rfl, fun hsound =>
      ⟨fun hr => hr.1, fun hr => ⟨hr, hr.unmaps_huge h' hfull' hmark hone hp hsound⟩⟩⟩

/-! ### On the small machine -/

/-- The pages of `pairArgs`, with an address inside the first frame. -/
def oddArgs : Args := { pairArgs with paddr := 0x5123 }

theorem rounding_iff_pair : ∃ s' s'', oddArgs.map smallAlloc.kmalloc 0x400000 smallLayout smallStart
    = .ok ((), s') ∧
    Rounded s'.mem 0x400000 oddArgs ∧
    oddArgs.unmap smallAlloc.kfree 0x400000 smallLayout s' = .ok ((), s'') := by
  have hfresh : ∀ v, oddArgs.Covers (pageNo v) → walk smallStart.mem 0x400000 v = none := by
    intro v _
    rw [smallStart_start.inv.1.walk_eq, bare_lookup]
  have hres : ((outcome (oddArgs.map smallAlloc.kmalloc 0x400000) smallStart).map fun s' =>
      decide (oddArgs.Sound smallAlloc 0x400000 s')) = some true := by
    decide +kernel
  obtain ⟨s', hrun, hsound⟩ := Option.map_eq_some_iff.mp hres
  have hiff := (rounding_iff smallStart_start.inv.1 smallStart_start.inv.2 (by decide) (by decide)
    (by decide) (by decide) (by unfold Args.NoWrap; decide) hfresh).1.of_ok (outcome_eq_some hrun)
  obtain ⟨hround, s'', hunmap⟩ :=
    (hiff.2 (of_decide_eq_true hsound)).mpr (Or.inr ⟨by decide, by decide⟩)
  exact ⟨s', s'', outcome_eq_some hrun, hround, hunmap⟩

/-- The text a call panics with. -/
def panicText (x : K Unit) (s : KState) : Option String :=
  match x smallLayout s with
  | .error (.panic msg) => some msg
  | _ => none

theorem panicText_eq_some {x : K Unit} {msg : String} (h : panicText x s = some msg) :
    x smallLayout s = .error (.panic msg) := by
  unfold panicText at h
  split at h
  · rename_i hx
    rw [hx, Option.some.inj h]
  · exact absurd h (by simp)

/-- A 2MB page, for a frame aligned to 4KB. -/
def betweenArgs : Args := ⟨0x201000, 0x200000, 0x83, 1⟩

/-- **What was mapped cannot be unmapped**: the leaf has the address as it was given, and the call
with the same arguments panics. -/
theorem rounding_differs : betweenArgs.paddr < 2 ^ 52 ∧ betweenArgs.flags &&& ptePresent ≠ 0 ∧
    betweenArgs.flags &&& pteAddrMask = 0 ∧ betweenArgs.NoWrap ∧
    (∀ v, walk smallStart.mem 0x400000 v = none) ∧
    ∃ s', betweenArgs.map smallAlloc.kmalloc 0x400000 smallLayout smallStart = .ok ((), s') ∧
      walk s'.mem 0x400000 0x200000 = some ⟨0x201000, 0x83, hugePageSize⟩ ∧
      alignDown betweenArgs.paddr hugePageSize = 0x200000 ∧
      betweenArgs.unmap smallAlloc.kfree 0x400000 smallLayout s'
        = .error (.panic "TRIED TO UNMAP WRONG HUGE PAGES") := by
  have hnone : ∀ v, walk smallStart.mem 0x400000 v = none := by
    intro v
    rw [smallStart_start.inv.1.walk_eq, bare_lookup]
  have hres : ((outcome (betweenArgs.map smallAlloc.kmalloc 0x400000) smallStart).map fun s' =>
      (walk s'.mem 0x400000 0x200000, panicText (betweenArgs.unmap smallAlloc.kfree 0x400000) s'))
      = some (some ⟨0x201000, 0x83, hugePageSize⟩, some "TRIED TO UNMAP WRONG HUGE PAGES") := by
    decide +kernel
  obtain ⟨s', hrun, hres⟩ := Option.map_eq_some_iff.mp hres
  obtain ⟨hwalk, htext⟩ := Prod.mk.inj hres
  exact ⟨by decide, by decide, by decide, by unfold Args.NoWrap; decide, hnone, s',
    outcome_eq_some hrun, hwalk, by decide, panicText_eq_some htext⟩

end Mmu
end MikroKernel
