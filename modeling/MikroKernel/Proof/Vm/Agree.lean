import MikroKernel.Lib.Run
import MikroKernel.Proof.Vm.Ranges
import MikroKernel.Proof.Vm.Start

/-!
# The tree of VMAs and the page tables

A run is made of calls of `kmap_pages`, each in a range that no VMA and no mapping covers, and of
`kunmap_pages`, in ranges of what is mapped. The tree and the tables agree after every call if each
`kunmap_pages` is for one whole VMA and gives its tables back soundly, and no VMA ends at the top of
the address space, where its end wraps to `0` (`agree_of_run`). A `kunmap_pages` of a part takes the
whole VMA with it (`agree_partial`).
-/

set_option autoImplicit false

namespace MikroKernel
namespace Vm

open Run Mmu Buddy

variable {L : Layout} {A : KernelAlloc L} {V : Statics} {pml4 : Nat} {s s₀ s' : KState} {m : Mem}
  {M : PageMap} {areas : List (Nat × Nat)} {a : Args}

/-! ## What is compared -/

/-- `kernel_pml4t` translates the address. -/
def Translated (V : Statics) (m : Mem) (v : Nat) : Prop := walk m (m V.kernelPml4t .ptr) v ≠ none

/-- A VMA of the kernel's tree has the address. -/
def Covered (L : Layout) (V : Statics) (m : Mem) (v : Nat) : Prop :=
  ∃ t, Rb.Holds L V.kernelRbRoot m t ∧ ∃ x ∈ t.toList, Contains m v x

/-! ## Calls -/

inductive Op
  | kmap (a : Args)
  | kunmap (a : Args)

/-- A call of `kmap_pages` for whole pages, with the flag `PTE_PRESENT`, in a free range of the
address space. -/
structure KmapArgs (L : Layout) (V : Statics) (m : Mem) (a : Args) : Prop where
  present : a.flags &&& ptePresent ≠ 0
  clear : a.flags &&& pteAddrMask = 0
  flags_lt : a.flags < 2 ^ 64
  pages : 1 ≤ a.numPages
  frames : a.size ∣ a.paddr
  phys : a.paddr + a.numPages * a.size ≤ 2 ^ 52
  aligned : a.size ∣ a.vaddr
  canonical : ∀ v, a.Has v → Canonical v
  fresh : ∀ v, a.Has v → ¬ Translated V m v ∧ ¬ Covered L V m v

/-- A call of `kunmap_pages` for whole pages: what is mapped in its range is mapped in pages of its
size to the frames it names. -/
structure KunmapArgs (V : Statics) (m : Mem) (a : Args) : Prop where
  pages : 1 ≤ a.numPages
  aligned : a.size ∣ a.vaddr
  canonical : ∀ v, a.Has v → Canonical v
  frames : ∀ v, a.Has v → ∀ x, walk m (m V.kernelPml4t .ptr) v = some x →
    x.size = a.size ∧ x.frame + v % a.size = a.paddr + (v - a.vaddr)

/-- A call that returns. `Good` is what is asked of it besides. -/
inductive Step (A : KernelAlloc L) (V : Statics) (Good : KState → Op → Prop) :
    KState → KState → Prop
  | kmap {s s' : KState} {a : Args} : KmapArgs L V s.mem a → Good s (.kmap a) →
      Finishes L (fun fuel => Vm.kmap fuel A.kmalloc V a) s () s' → Step A V Good s s'
  | kunmap {s s' : KState} {a : Args} : KunmapArgs V s.mem a → Good s (.kunmap a) →
      Finishes L (fun fuel => Vm.kunmap fuel A.kfree V a) s () s' → Step A V Good s s'

/-- The range of a `kmap_pages` ends below the top of the address space; a `kunmap_pages` of an
address in a VMA is for all of that VMA and no more, and merges the tables it gives back with free
blocks only. -/
def Whole (A : KernelAlloc L) (V : Statics) (s : KState) : Op → Prop
  | .kmap a => a.last < 2 ^ 64
  | .kunmap a =>
    (∀ t, Rb.Holds L V.kernelRbRoot s.mem t → ∀ x ∈ t.toList, Contains s.mem a.vaddr x →
      range s.mem x = (a.vaddr, a.last)) ∧ SoundKunmap A.toPhysAlloc V a s

/-! ## The arguments, as the parts need them -/

theorem Shows.translated_iff (h : Shows A V pml4 s M areas) (v : Nat) :
    Translated V s.mem v ↔ M (pageNo v) ≠ none := by
  have hwalk := h.walk_eq v
  obtain ⟨-, t, live, T, h, -⟩ := h
  unfold Translated
  rw [h.pml4_eq, hwalk]

theorem Shows.covered_iff (h : Shows A V pml4 s M areas) (v : Nat) :
    Covered L V s.mem v ↔ ∃ r ∈ areas, Within v r := by
  obtain ⟨-, t, live, T, h, -, rfl⟩ := h
  constructor
  · rintro ⟨t', ht', x, hx, hin⟩
    obtain rfl := Rb.Holds.unique ht' h.tree.at_
    exact ⟨_, List.mem_map_of_mem hx, hin⟩
  · rintro ⟨r, hr, hin⟩
    obtain ⟨x, hx, rfl⟩ := List.mem_map.mp hr
    exact ⟨t, h.tree.at_, x, hx, hin⟩

/-- The VMAs are in the order of their starts. -/
theorem Shows.sorted (h : Shows A V pml4 s M areas) : areas.Pairwise fun p q => p.1 < q.1 := by
  obtain ⟨-, t, live, T, h, -, rfl⟩ := h
  exact List.pairwise_map.mpr (h.tree.sorted.imp (fun hlt => startOrder_lt.mp hlt))

theorem Shows.whole_iff (h : Shows A V pml4 s M areas) :
    Whole A V s (.kunmap a) ↔ (∀ r ∈ areas, Within a.vaddr r → r = (a.vaddr, a.last)) ∧
      SoundKunmap A.toPhysAlloc V a s := by
  obtain ⟨-, t, live, T, h, -, rfl⟩ := h
  refine and_congr_left' ?_
  constructor
  · intro hwhole r hr hin
    obtain ⟨x, hx, rfl⟩ := List.mem_map.mp hr
    exact hwhole t h.tree.at_ x hx hin
  · intro hall t' ht' x hx hin
    obtain rfl := Rb.Holds.unique ht' h.tree.at_
    exact hall _ (List.mem_map_of_mem hx) hin

/-- A range of canonical addresses is on one side. -/
theorem proper_of_canonical (hdvd : a.size ∣ a.vaddr) (hpages : 1 ≤ a.numPages)
    (hc : ∀ v, a.Has v → Canonical v) : a.Proper := by
  have hpos : a.vaddr < a.last := by
    unfold Args.last
    have := Nat.mul_le_mul_right a.size hpages
    have := a.size_pos
    omega
  have hfirst := hc a.vaddr ⟨Nat.le_refl _, hpos⟩
  have hhole := hc (2 ^ 47)
  have htop := hc (2 ^ 64)
  unfold Canonical Args.Has at *
  exact ⟨hdvd, by omega⟩

theorem KmapArgs.proper (h : KmapArgs L V m a) : a.Proper :=
  proper_of_canonical h.aligned h.pages h.canonical

theorem KmapArgs.mapArgs (h : KmapArgs L V s.mem a) (hs : Shows A V pml4 s M areas) :
    MapArgs (M · ≠ none) a := by
  have hlt : a.paddr < 2 ^ 64 := by
    have := h.phys
    omega
  refine ⟨h.present, h.clear, h.flags_lt, h.frames, hlt, h.proper.noWrap, fun P hP => ?_⟩
  refine fresh_of_addresses h.proper (fun v _ hv => ?_) hP
  have := (h.fresh v hv).1
  rwa [hs.translated_iff, not_not] at this

theorem KunmapArgs.proper (h : KunmapArgs V m a) : a.Proper :=
  proper_of_canonical h.aligned h.pages h.canonical

theorem KunmapArgs.unmapArgs (h : KunmapArgs V s.mem a) (hs : Shows A V pml4 s M areas) :
    UnmapArgs M a := by
  intro i P x hi hat hx
  have hP : a.Covers P := ⟨i, hi, hat⟩
  have hlt := hP.lt
  have hslot : a.slot P = a.first + i := by
    unfold Args.At at hat
    rw [hat, h.proper.noWrap.slot_at hi]
  have hno := pageNo_pageBase hlt
  have hin : a.Has (pageBase P) :=
    (h.proper.covers_iff (pageBase_canonical hlt)).mp (by rw [hno]; exact hP)
  have hoff := h.proper.offset hin
  rw [hno, hslot, Nat.add_sub_cancel_left] at hoff
  have hwalk := hs.walk_eq (pageBase P)
  obtain ⟨-, t, live, T, hspace, -⟩ := hs
  obtain ⟨hsize, hframe⟩ := h.frames _ hin x (by rw [hspace.pml4_eq, hwalk, hno, hx])
  exact ⟨hsize, by omega⟩

/-! ## The invariant -/

/-- Tree and tables agree, in an address space whose VMAs are apart. -/
structure Agrees (A : KernelAlloc L) (V : Statics) (pml4 : Nat) (s : KState) (M : PageMap)
    (areas : List (Nat × Nat)) : Prop where
  shows_ : Shows A V pml4 s M areas
  aligned : M.Aligned
  order : InOrder areas
  nonempty : ∀ r ∈ areas, r.1 < r.2
  same : ∀ v, Canonical v → (M (pageNo v) ≠ none ↔ ∃ r ∈ areas, Within v r)

theorem Agrees.mapped_iff (h : Agrees A V pml4 s M areas) {v : Nat} (hv : Canonical v) :
    Translated V s.mem v ↔ Covered L V s.mem v := by
  rw [h.shows_.translated_iff, h.shows_.covered_iff]
  exact h.same v hv

/-- A range that starts in no area and meets none is entered where it belongs. -/
theorem enters_inOrder {r : Nat × Nat} {l₁ l₂ : List (Nat × Nat)} (h : InOrder (l₁ ++ l₂))
    (hne : ∀ q ∈ l₁ ++ l₂, q.1 < q.2) (hsorted : (l₁ ++ r :: l₂).Pairwise fun p q => p.1 < q.1)
    (hr : r.1 < r.2) (hapart : ∀ v, Within v r → ∀ q ∈ l₁ ++ l₂, ¬ Within v q) :
    InOrder (l₁ ++ r :: l₂) := by
  unfold InOrder at *
  obtain ⟨h₁, h₂, h₁₂⟩ := List.pairwise_append.mp h
  obtain ⟨-, hs₂, hs⟩ := List.pairwise_append.mp hsorted
  have hafter := (List.pairwise_cons.mp hs₂).1
  refine List.pairwise_append.mpr ⟨h₁, List.pairwise_cons.mpr ⟨fun q hq => ?_, h₂⟩,
    fun p hp q hq => ?_⟩
  · have hlt := hafter q hq
    have hq2 := hne q (List.mem_append_right _ hq)
    by_contra hc
    exact hapart q.1 ⟨Nat.le_of_lt hlt, by omega⟩ q (List.mem_append_right _ hq)
      ⟨Nat.le_refl _, hq2⟩
  · rcases List.mem_cons.mp hq with rfl | hq
    · have hlt := hs p hp q List.mem_cons_self
      by_contra hc
      exact hapart q.1 ⟨Nat.le_refl _, hr⟩ p (List.mem_append_left _ hp)
        ⟨Nat.le_of_lt hlt, by omega⟩
    · exact h₁₂ p hp q hq

/-- **A call of `kmap_pages` keeps the agreement.** -/
theorem Agrees.kmap (h : Agrees A V pml4 s M areas) (ha : KmapArgs L V s.mem a)
    (htop : a.last < 2 ^ 64) (hrun : Finishes L (fun fuel => Vm.kmap fuel A.kmalloc V a) s () s') :
    ∃ areas', Agrees A V pml4 s' (M.map a) areas' ∧ Enters (a.vaddr, a.last) areas areas' := by
  obtain ⟨fuel, hfuel, hrun⟩ := hrun.enough (kmap_le _) (areas.length + 1)
  obtain ⟨areas', hs', henters⟩ := (h.shows_.kmap (ha.mapArgs h.shows_) ha.phys hfuel).of_ok hrun
  have harea : area a = (a.vaddr, a.last) := by
    show (a.vaddr, a.last % 2 ^ 64) = _
    rw [Nat.mod_eq_of_lt htop]
  rw [harea] at henters
  have hpos : a.vaddr < a.last := by
    unfold Args.last
    have := Nat.mul_le_mul_right a.size ha.pages
    have := a.size_pos
    omega
  have hfree : ∀ v, a.Has v → ∀ q ∈ areas, ¬ Within v q := by
    intro v hv q hq hin
    exact (ha.fresh v hv).2 ((h.shows_.covered_iff v).mpr ⟨q, hq, hin⟩)
  refine ⟨areas', ?_, henters⟩
  rcases henters with ⟨⟨q, hq, he⟩, -⟩ | ⟨-, l₁, l₂, rfl, rfl⟩
  · have hin : Within a.vaddr q := by
      have := h.nonempty q hq
      simp only at he
      exact ⟨by omega, by omega⟩
    exact absurd hin (hfree _ ⟨Nat.le_refl _, hpos⟩ q hq)
  · refine ⟨hs', h.aligned.map ha.frames,
      enters_inOrder h.order h.nonempty hs'.sorted hpos (fun v hv => hfree v hv), ?_,
      fun v hv => ?_⟩
    · intro q hq
      rcases List.mem_cons.mp (List.perm_middle.mem_iff.mp hq) with rfl | hq
      · exact hpos
      · exact h.nonempty q hq
    · rw [PageMap.map_ne_none ha.proper hv, h.same v hv]
      constructor
      · rintro (hin | ⟨q, hq, hin⟩)
        · exact ⟨_, List.perm_middle.mem_iff.mpr List.mem_cons_self, hin⟩
        · exact ⟨q, List.perm_middle.mem_iff.mpr (List.mem_cons_of_mem _ hq), hin⟩
      · rintro ⟨q, hq, hin⟩
        rcases List.mem_cons.mp (List.perm_middle.mem_iff.mp hq) with rfl | hq
        · exact Or.inl hin
        · exact Or.inr ⟨q, hq, hin⟩

/-- Ranges in order share no address. -/
theorem InOrder.apart {l₁ l₂ : List (Nat × Nat)} {r : Nat × Nat} (h : InOrder (l₁ ++ r :: l₂))
    {v : Nat} (hv : Within v r) : ∀ q ∈ l₁ ++ l₂, ¬ Within v q := by
  obtain ⟨-, h₂, h₁₂⟩ := List.pairwise_append.mp h
  have hafter := (List.pairwise_cons.mp h₂).1
  intro q hq hin
  unfold Within at hv hin
  rcases List.mem_append.mp hq with hq | hq
  · have := h₁₂ q hq r List.mem_cons_self
    omega
  · have := hafter q hq
    omega

/-- **A call of `kunmap_pages` for a whole VMA keeps the agreement.** -/
theorem Agrees.kunmap (h : Agrees A V pml4 s M areas) (ha : KunmapArgs V s.mem a)
    (hwhole : Whole A V s (.kunmap a))
    (hrun : Finishes L (fun fuel => Vm.kunmap fuel A.kfree V a) s () s') :
    ∃ M' areas', Agrees A V pml4 s' M' areas' := by
  obtain ⟨hareas, n, hsound⟩ := h.shows_.whole_iff.mp hwhole
  obtain ⟨fuel, hfuel, hrun⟩ := hrun.enough (kunmap_le _) (max n (areas.length + 1))
  obtain ⟨s'', hrun', hcase⟩ := h.shows_.kunmap h.aligned (ha.unmapArgs h.shows_) h.order
    (by omega) (hsound fuel (by omega))
  obtain ⟨-, rfl⟩ := Prod.mk.inj (Except.ok.inj (hrun.symm.trans hrun'))
  rcases hcase with ⟨-, rfl⟩ | ⟨l₁, r, l₂, rfl, hin, hs'⟩
  · exact ⟨M, areas, h⟩
  · obtain rfl : r = (a.vaddr, a.last) := hareas r (by simp) hin
    refine ⟨_, _, hs', h.aligned.unmap a, ?_, fun q hq => ?_, fun v hv => ?_⟩
    · exact h.order.sublist (List.Sublist.append_left (List.sublist_cons_self _ _) _)
    · exact h.nonempty q (List.perm_middle.mem_iff.mpr (List.mem_cons_of_mem _ hq))
    · rw [PageMap.unmap_ne_none ha.proper hv, h.same v hv]
      constructor
      · rintro ⟨hout, q, hq, hin⟩
        rcases List.mem_cons.mp (List.perm_middle.mem_iff.mp hq) with rfl | hq
        · exact absurd hin hout
        · exact ⟨q, hq, hin⟩
      · rintro ⟨q, hq, hin⟩
        exact ⟨fun hv => h.order.apart hv q hq hin, q,
          List.perm_middle.mem_iff.mpr (List.mem_cons_of_mem _ hq), hin⟩

theorem Agrees.step (h : ∃ pml4 M areas, Agrees A V pml4 s M areas)
    (hstep : Step A V (Whole A V) s s') :
    ∃ pml4 M areas, Agrees A V pml4 s' M areas := by
  obtain ⟨pml4, M, areas, h⟩ := h
  cases hstep with
  | kmap ha htop hrun =>
    obtain ⟨areas', h', -⟩ := h.kmap ha htop hrun
    exact ⟨pml4, _, areas', h'⟩
  | kunmap ha hwhole hrun =>
    obtain ⟨M', areas', h'⟩ := h.kunmap ha hwhole hrun
    exact ⟨pml4, M', areas', h'⟩

/-- An empty address space agrees. -/
theorem Agrees.start (h : Ready A V s₀) (hinit : initSpace A.kmalloc V L s₀ = .ok ((), s)) :
    ∃ pml4, Agrees A V pml4 s (fun _ => none) [] := by
  obtain ⟨-, pml4, hs⟩ := (initSpace_yields h).of_ok hinit
  exact ⟨pml4, hs, fun _ _ hx => absurd hx (by simp), List.Pairwise.nil,
    fun r hr => absurd hr List.not_mem_nil, fun v _ => by simp⟩

/-- **Tree and page tables agree**, in every run where each `kunmap_pages` is for a whole VMA and
gives its tables back soundly, and no range ends at the top. -/
theorem agree_of_run (h : Ready A V s₀) (hinit : initSpace A.kmalloc V L s₀ = .ok ((), s))
    (hrun : Reaches (Step A V (Whole A V)) s s') (v : Nat) (hv : Canonical v) :
    Translated V s'.mem v ↔ Covered L V s'.mem v := by
  obtain ⟨pml4, h₀⟩ := Agrees.start h hinit
  obtain ⟨pml4, M, areas, h'⟩ := hrun.invariant (fun s => ∃ pml4 M areas, Agrees A V pml4 s M areas)
    ⟨pml4, _, _, h₀⟩ (fun _ _ _ ha hstep => Agrees.step ha hstep)
  exact h'.mapped_iff hv

/-! ### On the small machine -/

/-- After `kmap_pages`, the first pages of its range may be unmapped. -/
theorem KunmapArgs.of_map {b : Args} (hs : Shows A V pml4 s (M.map a) areas) (ha : a.Proper)
    (hc : ∀ v, a.Has v → Canonical v) (hsize : b.size = a.size) (hvaddr : b.vaddr = a.vaddr)
    (hpaddr : b.paddr = a.paddr) (h1 : 1 ≤ b.numPages) (hn : b.numPages ≤ a.numPages) :
    KunmapArgs V s.mem b := by
  have hhas : ∀ v, b.Has v → a.Has v := by
    intro v hv
    have := Nat.mul_le_mul_right a.size hn
    unfold Args.Has Args.last at *
    rw [hsize, hvaddr] at hv
    omega
  refine ⟨h1, hsize ▸ hvaddr ▸ ha.aligned, fun v hv => hc v (hhas v hv), fun v hv x hx => ?_⟩
  have hin := hhas v hv
  have hwalk := hs.walk_eq v
  obtain ⟨-, t, live, T, hspace, -⟩ := hs
  rw [hspace.pml4_eq, hwalk, PageMap.map, if_pos ((ha.covers_iff (hc v hin)).mpr hin),
    Option.some.injEq] at hx
  have hoff := ha.offset hin
  subst hx
  rw [hsize, hvaddr, hpaddr]
  exact ⟨rfl, by simp only; omega⟩

/-- The buddy allocator of the small machine. -/
abbrev smallKernelAlloc : KernelAlloc smallLayout :=
  buddyAlloc smallLayout 0x400000 0x400000 smallLinkable

/-- The variables at the start of the image. -/
def smallStatics : Statics := ⟨kernelImageStart, kernelImageStart + 8, kernelImageStart + 16⟩

theorem small_unmanaged {x : Nat} (h : kernelImageStart ≤ x) (hx : x < smallLayout.kernelEnd) :
    ¬ smallKernelAlloc.managed x := by
  unfold kernelImageStart at h
  rintro (⟨h1, -⟩ | ⟨-, -, h1⟩) <;> omega

theorem smallStatics_placed : Placed smallKernelAlloc.toPageSource smallStatics where
  pml4 := by decide
  root := by decide
  ne := by decide
  pml4_unmanaged := small_unmanaged (by decide) (by decide)
  root_unmanaged := small_unmanaged (by decide) (by decide)
  pml4_apart := by decide
  root_apart := by decide

/-- Its lists are set up. -/
theorem smallPages_ready : Ready smallKernelAlloc smallStatics smallPagesStart where
  ok := smallPagesStart_ok.1
  view := smallPagesStart_ok.2
  slab := show (smallPagesStart.lock .slabLock).ticket = (smallPagesStart.lock .slabLock).serving by
    decide +kernel
  placed := smallStatics_placed
  image i h := by
    unfold cacheSize at h
    refine decide_eq_true ⟨?_, ?_⟩ <;> unfold smallStatics kernelImageStart
    · simp only
      omega
    · unfold metadataSpan
      simp only
      omega
  unmanaged x h h' := small_unmanaged (Nat.le_trans (by decide) h) (Nat.lt_trans h' (by decide))
  root := by decide +kernel

/-- Two pages. -/
def twoPages : Args := ⟨0x5000, 0x1000, 3, 2⟩

/-- The first of them. -/
def onePage : Args := ⟨0x5000, 0x1000, 3, 1⟩

theorem twoPages_canonical (v : Nat) (h : twoPages.Has v) : Canonical v := by
  have h2 : v < 0x3000 := h.2
  exact Or.inl (by omega)

/-- They are mapped first. -/
theorem twoPages_args {areas : List (Nat × Nat)}
    (h : Agrees smallKernelAlloc smallStatics pml4 s (fun _ => none) areas) :
    KmapArgs smallLayout smallStatics s.mem twoPages := by
  refine ⟨by decide, by decide, by decide, by decide, by decide, by decide, by decide,
    twoPages_canonical, fun v hv => ?_⟩
  have hnot : ¬ Translated smallStatics s.mem v := by
    rw [h.shows_.translated_iff]
    exact not_not.mpr rfl
  exact ⟨hnot, fun hc => hnot ((h.mapped_iff (twoPages_canonical v hv)).mpr hc)⟩

/-- The address space, with two pages, and after `kunmap_pages(b)` with its frees checked. -/
def smallRun (b : Args) : Option (KState × KState × KState) :=
  (outcome (initSpace smallKernelAlloc.kmalloc smallStatics) smallPagesStart).bind fun s =>
    (outcome (Vm.kmap 4 smallKernelAlloc.kmalloc smallStatics twoPages) s).bind fun s₁ =>
      (outcome (Vm.kunmap 4 smallKernelAlloc.checkedKfree smallStatics b) s₁).map fun s₂ =>
        (s, s₁, s₂)

theorem smallRun_calls {b : Args} {s s₁ s₂ : KState} (h : smallRun b = some (s, s₁, s₂)) :
    initSpace smallKernelAlloc.kmalloc smallStatics smallLayout smallPagesStart = .ok ((), s) ∧
      Finishes smallLayout (fun fuel => Vm.kmap fuel smallKernelAlloc.kmalloc smallStatics twoPages)
      s () s₁ ∧
      Vm.kunmap 4 smallKernelAlloc.checkedKfree smallStatics b smallLayout s₁ = .ok ((), s₂) ∧
      Finishes smallLayout (fun fuel => Vm.kunmap fuel smallKernelAlloc.kfree smallStatics b)
      s₁ () s₂ := by
  obtain ⟨s', h₁, h⟩ := Option.bind_eq_some_iff.mp h
  obtain ⟨s₁', h₂, h⟩ := Option.bind_eq_some_iff.mp h
  obtain ⟨s₂', h₃, h⟩ := Option.map_eq_some_iff.mp h
  simp only [Prod.mk.injEq] at h
  obtain ⟨rfl, rfl, rfl⟩ := h
  have hchecked := outcome_eq_some h₃
  have hguards : Guards clashAlarm (Vm.kunmap 4 smallKernelAlloc.checkedKfree smallStatics b)
      (Vm.kunmap 4 smallKernelAlloc.kfree smallStatics b) := inferInstance
  exact ⟨outcome_eq_some h₁, ⟨4, outcome_eq_some h₂⟩, hchecked, 4, hguards.ok hchecked⟩

/-- The empty address space and the one with two pages. -/
theorem smallRun_agrees {b : Args} {s s₁ s₂ : KState} (h : smallRun b = some (s, s₁, s₂)) :
    ∃ pml4, KmapArgs smallLayout smallStatics s.mem twoPages ∧
      Agrees smallKernelAlloc smallStatics pml4 s₁ (PageMap.map (fun _ => none) twoPages)
        [(0x1000, 0x3000)] := by
  obtain ⟨hinit, hmap, -⟩ := smallRun_calls h
  obtain ⟨pml4, h₀⟩ := Agrees.start smallPages_ready hinit
  obtain ⟨areas, h₁, henters⟩ := h₀.kmap (twoPages_args h₀) (by decide) hmap
  obtain rfl : areas = [(0x1000, 0x3000)] := by
    rcases henters with ⟨⟨q, hq, -⟩, -⟩ | ⟨-, l₁, l₂, hl, hl'⟩
    · exact absurd hq List.not_mem_nil
    · obtain ⟨rfl, rfl⟩ := List.append_eq_nil_iff.mp hl.symm
      exact hl'
  exact ⟨pml4, twoPages_args h₀, h₁⟩

theorem smallRun_result : (smallRun twoPages).isSome ∧
    ((smallRun onePage).map fun x => (x.2.2.mem smallStatics.kernelRbRoot .ptr,
      walk x.2.2.mem (x.2.2.mem smallStatics.kernelPml4t .ptr) 0x2000))
      = some (0, some ⟨0x6000, 3, pageSize⟩) := by
  decide +kernel

theorem agree_of_run_pair : ∃ s s', initSpace smallKernelAlloc.kmalloc smallStatics smallLayout
      smallPagesStart = .ok ((), s) ∧
    Reaches (Step smallKernelAlloc smallStatics (Whole smallKernelAlloc smallStatics)) s s' ∧
    (Translated smallStatics s'.mem 0x2000 ↔ Covered smallLayout smallStatics s'.mem 0x2000) := by
  obtain ⟨⟨s, s₁, s₂⟩, hrun⟩ := Option.isSome_iff_exists.mp smallRun_result.1
  obtain ⟨hinit, hmap, hchecked, hunmap⟩ := smallRun_calls hrun
  obtain ⟨pml4, hargs, h₁⟩ := smallRun_agrees hrun
  have hkunmap : KunmapArgs smallStatics s₁.mem twoPages :=
    KunmapArgs.of_map h₁.shows_ hargs.proper twoPages_canonical rfl rfl rfl (by decide) (by decide)
  have hwhole : Whole smallKernelAlloc smallStatics s₁ (.kunmap twoPages) := by
    rw [h₁.shows_.whole_iff]
    exact ⟨fun r hr _ => List.mem_singleton.mp hr, soundKunmap_of_ok hchecked⟩
  have hreach :
      Reaches (Step smallKernelAlloc smallStatics (Whole smallKernelAlloc smallStatics)) s s₂ :=
    .tail (.single (.kmap hargs (show twoPages.last < 2 ^ 64 by decide) hmap))
      (.kunmap hkunmap hwhole hunmap)
  exact ⟨s, s₂, hinit, hreach, agree_of_run smallPages_ready hinit hreach 0x2000 (by decide)⟩

/-- **A part is unmapped**: the first of two pages goes, the VMA of both goes with it, and the
second page stays mapped. -/
theorem agree_partial : ∃ s s', Ready smallKernelAlloc smallStatics smallPagesStart ∧
    initSpace smallKernelAlloc.kmalloc smallStatics smallLayout smallPagesStart = .ok ((), s) ∧
    Reaches (Step smallKernelAlloc smallStatics (fun _ _ => True)) s s' ∧ Canonical 0x2000 ∧
    Translated smallStatics s'.mem 0x2000 ∧ ¬ Covered smallLayout smallStatics s'.mem 0x2000 := by
  obtain ⟨⟨s, s₁, s₂⟩, hrun, hres⟩ := Option.map_eq_some_iff.mp smallRun_result.2
  obtain ⟨hroot, hwalk⟩ := Prod.mk.inj hres
  obtain ⟨hinit, hmap, -, hunmap⟩ := smallRun_calls hrun
  obtain ⟨pml4, hargs, h₁⟩ := smallRun_agrees hrun
  have hkunmap : KunmapArgs smallStatics s₁.mem onePage :=
    KunmapArgs.of_map h₁.shows_ hargs.proper twoPages_canonical rfl rfl rfl (by decide) (by decide)
  refine ⟨s, s₂, smallPages_ready, hinit,
    .tail (.single (.kmap hargs trivial hmap)) (.kunmap hkunmap trivial hunmap), by decide, ?_, ?_⟩
  · unfold Translated
    rw [hwalk]
    simp
  · rintro ⟨t, ht, x, hx, -⟩
    -- the root is NULL
    obtain rfl := (Rb.addr_ne_zero ht.tree).mp (ht.above.symm.trans hroot)
    exact absurd hx List.not_mem_nil

end Vm
end MikroKernel
