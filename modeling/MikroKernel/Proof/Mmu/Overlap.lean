import MikroKernel.Proof.Mmu.Rights
import MikroKernel.Proof.Mmu.Single

/-!
# Calls over what is mapped already

`map_pages` does not ask what a present entry of a PD is. Over pages of its own size it is right:
the entries are written anew, no table is lost and no other memory touched (`sound_of_overlays`).
Over a page of the other size it takes a 2MB frame for a PT, or drops a PT.

What a page then allows is what its flags say but for `PTE_USER`, which the entries above never have
(`rights_exact_iff`).
-/

set_option autoImplicit false

namespace MikroKernel
namespace Mmu

open Run

variable {L : Layout} {A : PhysAlloc L} {s s₀ s₁ s' : KState} {root : Nat}
    {T T' : Tables} {a : Args}
  {P v : Nat}

/-! ## The pages of a call -/

/-- The entry that a call writes for the 4KB page `P`. -/
def Args.entry (a : Args) (P : Nat) : Nat :=
  (a.base + (a.slot P - a.first) * a.size) % 2 ^ 64 ||| a.flags

/-- **The leaves after a call** over pages of its own size. -/
theorem lookup_over (hpres : a.flags &&& ptePresent ≠ 0) (hnw : a.NoWrap) (hfit : Fits T a)
    (hsmall : T'.small = if a.flags &&& pteHugePage ≠ 0 then T.small
      else spread a.first a.numPages a.size a.base a.flags T.small)
    (hhuge : T'.huge = if a.flags &&& pteHugePage ≠ 0 then
      spread a.first a.numPages a.size a.base a.flags T.huge else T.huge) (P : Nat) :
    T'.lookup P = if a.Covers P then some (leafOf (a.entry P) a.size) else T.lookup P := by
  have hne : a.entry P ≠ 0 := ne_zero_of_and (leaf_mark hpres)
  by_cases hmark : a.flags &&& pteHugePage = 0
  · rw [if_neg (not_not.mpr hmark)] at hsmall hhuge
    by_cases hc : a.Covers P
    · have hin := hnw.covers_iff.mp hc
      have h0 := hfit P hc
      rw [if_neg (not_not.mpr hmark), ← hhuge] at h0
      have hs : T'.small P = a.entry P := by
        rw [hsmall]
        unfold spread Args.entry
        rw [a.slot_small hmark] at hin ⊢
        rw [if_pos hin]
      rw [if_pos hc, Tables.lookup_of_small h0 (by rwa [hs]), hs, a.size_small hmark]
    · have hs : T'.small P = T.small P := by
        rw [hnw.covers_iff, a.slot_small hmark] at hc
        rw [hsmall]
        exact if_neg hc
      rw [if_neg hc]
      unfold Tables.lookup
      rw [hs, hhuge]
  · rw [if_pos hmark] at hsmall hhuge
    by_cases hc : a.Covers P
    · have hin := hnw.covers_iff.mp hc
      have hh : T'.huge (P / 512) = a.entry P := by
        rw [hhuge]
        unfold spread Args.entry
        rw [a.slot_huge hmark] at hin ⊢
        rw [if_pos hin]
      rw [if_pos hc, Tables.lookup_of_huge (by rwa [hh]), hh, a.size_huge hmark]
    · have hh : T'.huge (P / 512) = T.huge (P / 512) := by
        rw [hnw.covers_iff, a.slot_huge hmark] at hc
        rw [hhuge]
        exact if_neg hc
      rw [if_neg hc]
      unfold Tables.lookup
      rw [hh, hsmall]

/-- What is mapped in the range is mapped in pages of the size of the call. -/
def SameSize (m : Mem) (root : Nat) (a : Args) : Prop :=
  ∀ v, a.Covers (pageNo v) → ∀ x, walk m root v = some x → x.size = a.size

theorem SameSize.lookup (h : SameSize s.mem root a) (hinv : Inv A root s T)
    (hc : a.Covers P) {x : Leaf} (hx : T.lookup P = some x) : x.size = a.size := by
  have hno := pageNo_base hc.lt
  refine h (P * pageSize) (by rwa [hno]) x ?_
  rw [hinv.walk_eq, hno, hx]

theorem SameSize.of_lookup (hinv : Inv A root s T)
    (h : ∀ P x, a.Covers P → T.lookup P = some x → x.size = a.size) : SameSize s.mem root a := by
  intro v hc x hx
  rw [hinv.walk_eq] at hx
  exact h _ x hc hx

/-- The pages of the range are whole. -/
theorem Args.Covers.of_slot {P' : Nat} (h : a.Covers P) (hs : a.slot P' = a.slot P) :
    a.Covers P' := by
  obtain ⟨i, hi, hat⟩ := h
  exact ⟨i, hi, hs.trans hat⟩

/-- Then no page of the other size is in the way. -/
theorem SameSize.fits (h : SameSize s.mem root a) (hinv : Inv A root s T) (hfull : Full T) :
    Fits T a := by
  have hne : hugePageSize ≠ pageSize := by decide
  intro P hc
  by_cases hmark : a.flags &&& pteHugePage = 0
  · rw [if_neg (not_not.mpr hmark)]
    by_contra h0
    have := h.lookup hinv hc (Tables.lookup_of_huge h0)
    rw [a.size_small hmark] at this
    exact hne this
  · rw [if_pos hmark]
    cases hd : T.dir 1 (P / 512) with
    | none => rfl
    | some t =>
      -- the PT has a page
      obtain ⟨i, hi, hsmall⟩ := hfull (by omega) hd
      have hslot : (P / 512 * 512 + i) / 512 = P / 512 := by omega
      have hcov : a.Covers (P / 512 * 512 + i) := by
        refine hc.of_slot ?_
        rw [a.slot_huge hmark, a.slot_huge hmark, hslot]
      have hlook := Tables.lookup_of_small (by rw [hslot]; exact hinv.shape.no_leaf hd) hsmall
      have := h.lookup hinv hcov hlook
      rw [a.size_huge hmark] at this
      exact absurd this.symm hne

/-- **A call of `map_pages` over pages of its own size** that returns. -/
theorem map_over (h : Inv A root s T) (hfull : Full T) (hpres : a.flags &&& ptePresent ≠ 0)
    (hp : a.paddr < 2 ^ 64) (hnw : a.NoWrap) (hfit : Fits T a) :
    Tied L nullAlarm (· ∈ allocFailures) (a.map (orHalt A.kmalloc) root) (a.map A.kmalloc root) s
      (fun _ s' => ∃ T', Inv A root s' T' ∧ Full T' ∧ Frame A T T' s s' ∧
        ∀ P, T'.lookup P =
          if a.Covers P then some (leafOf (a.entry P) a.size) else T.lookup P) := by
  refine (map_over_yields h hfull hpres hp hnw hfit).mono (fun _ hm => hm) ?_
  rintro - s' ⟨T', hinv, hfull', hframe, hsmall, hhuge⟩
  exact ⟨T', hinv, hfull', hframe, lookup_over hpres hnw hfit hsmall hhuge⟩

/-! ## Ranges that wrap

Past the last address the range goes on at the first, and a range longer than the address space
comes to its pages again. One page does not wrap, and a call is a call for each page. -/

/-- The call for page `i` of a range. -/
def Args.page (a : Args) (i : Nat) : Args :=
  ⟨(a.paddr + i * a.size) % 2 ^ 64, (a.vaddr + i * a.size) % 2 ^ 64, a.flags, 1⟩

theorem Args.page_size (a : Args) (i : Nat) : (a.page i).size = a.size := rfl

theorem Args.page_covers {i : Nat} : (a.page i).Covers P ↔ a.At i P := by
  have hv : ((a.page i).vaddr + 0 * (a.page i).size) % 2 ^ 64
      = (a.vaddr + i * a.size) % 2 ^ 64 := by
    rw [Nat.zero_mul, Nat.add_zero]
    exact Nat.mod_mod _ _
  constructor
  · rintro ⟨j, hj, hat⟩
    obtain rfl : j = 0 := Nat.lt_one_iff.mp hj
    unfold Args.At at hat
    rwa [hv] at hat
  · intro hat
    refine ⟨0, Nat.one_pos, ?_⟩
    unfold Args.At
    rw [hv]
    exact hat

theorem Args.page_noWrap (a : Args) (i : Nat) : (a.page i).NoWrap := by
  have hlt := pageNo_lt (a.page i).vaddr
  unfold Args.NoWrap Args.first
  by_cases hmark : a.flags &&& pteHugePage = 0
  · rw [(a.page i).slot_small hmark, (a.page i).slot_small hmark]
    exact hlt
  · rw [(a.page i).slot_huge hmark, (a.page i).slot_huge hmark]
    show _ + 1 ≤ _
    omega

/-- The entry for page `i` of a range, if its frames are aligned to 4KB. -/
def Args.pte (a : Args) (i : Nat) : Nat := (a.paddr + i * a.size) % 2 ^ 64 ||| a.flags

theorem Args.page_entry {i : Nat} (hdvd : pageSize ∣ a.paddr) (hat : a.At i P) :
    (a.page i).entry P = a.pte i := by
  have hin := (a.page_noWrap i).covers_iff.mp (Args.page_covers.mpr hat)
  have hslot : (a.page i).slot P - (a.page i).first = 0 := by
    have hone : (a.page i).numPages = 1 := rfl
    omega
  have hpage : pageSize ∣ (a.paddr + i * a.size) % 2 ^ 64 :=
    (Nat.dvd_mod_iff (by decide)).mpr
      (Nat.dvd_add hdvd (Nat.dvd_trans a.pageSize_dvd_size (Nat.dvd_mul_left _ _)))
  have hbase : (a.page i).base = (a.paddr + i * a.size) % 2 ^ 64 := by
    unfold Args.base
    split
    · rfl
    · exact alignDown_of_dvd hpage
  unfold Args.entry Args.pte
  rw [hslot, hbase, Nat.zero_mul, Nat.add_zero, Nat.mod_mod]
  rfl

/-- The pages from `lo` up to `hi` of a range were written, in this order. -/
structure Written (a : Args) (M M' : PageMap) (lo hi : Nat) : Prop where
  last : ∀ j P, lo ≤ j → j < hi → a.At j P → (∀ k, j < k → k < hi → ¬ a.At k P) →
    M' P = some (leafOf (a.pte j) a.size)
  other : ∀ P, (∀ j, lo ≤ j → j < hi → ¬ a.At j P) → M' P = M P

theorem Written.none (a : Args) (M : PageMap) (i : Nat) : Written a M M i i :=
  ⟨fun _ _ h1 h2 => absurd h2 (by omega), fun _ _ => rfl⟩

theorem Written.step {M M₁ M' : PageMap} {i hi : Nat} (hlt : i < hi)
    (h₁ : ∀ P, M₁ P = if a.At i P then some (leafOf (a.pte i) a.size) else M P)
    (h : Written a M₁ M' (i + 1) hi) : Written a M M' i hi := by
  constructor
  · intro j P h1 h2 hat hlast
    rcases Nat.eq_or_lt_of_le h1 with rfl | h3
    · rw [h.other P (fun k hk1 hk2 => hlast k hk1 hk2), h₁, if_pos hat]
    · exact h.last j P h3 h2 hat hlast
  · intro P hno
    rw [h.other P (fun j h1 h2 => hno j (by omega) h2), h₁, if_neg (hno i (Nat.le_refl i) hlt)]

instance {alarm : Stop} {x y : Nat → MikroKernel.K Nat} [∀ n, Guards alarm (x n) (y n)]
    (pml4t left i : Nat) : Guards alarm (mapEach x pml4t a left i) (mapEach y pml4t a left i) := by
  induction left generalizing i with
  | zero => exact Guards.refl _
  | succ left ih =>
    unfold mapEach
    infer_instance

theorem mapEach_over (left : Nat) (i : Nat) (h : Inv A root s T) (hfull : Full T)
    (hpres : a.flags &&& ptePresent ≠ 0) (hdvd : pageSize ∣ a.paddr) (hsame : SameSize s.mem root a)
    (hi : i + left ≤ a.numPages) :
    Tied L nullAlarm (· ∈ allocFailures) (mapEach (orHalt A.kmalloc) root a left i)
      (mapEach A.kmalloc root a left i) s (fun _ s' =>
      ∃ T', Inv A root s' T' ∧ Full T' ∧ Frame A T T' s s' ∧
        Written a T.lookup T'.lookup i (i + left)) := by
  induction left generalizing i s T with
  | zero => exact Tied.pure ⟨T, h, hfull, Frame.refl _ _, Written.none a _ i⟩
  | succ left ih =>
    have hcov : ∀ {P}, (a.page i).Covers P → a.Covers P :=
      fun hc => ⟨i, by omega, Args.page_covers.mp hc⟩
    have hfit : Fits T (a.page i) := fun P hc => hsame.fits h hfull P (hcov hc)
    have hone := map_over (a := a.page i) h hfull hpres (Nat.mod_lt _ (by omega))
      (a.page_noWrap i) hfit
    refine Tied.bind hone ?_
    rintro - s₁ ⟨T₁, h₁, hfull₁, hframe₁, hlook₁⟩
    have hlook : ∀ P, T₁.lookup P = if a.At i P then some (leafOf (a.pte i) a.size)
        else T.lookup P := by
      intro P
      rw [hlook₁]
      by_cases hat : a.At i P
      · rw [if_pos hat, if_pos (Args.page_covers.mpr hat), Args.page_entry hdvd hat, a.page_size]
      · rw [if_neg hat, if_neg (fun hc => hat (Args.page_covers.mp hc))]
    have hsame₁ : SameSize s₁.mem root a := by
      refine SameSize.of_lookup h₁ (fun P x hc hx => ?_)
      rw [hlook] at hx
      split at hx
      · rw [← Option.some.inj hx]
        rfl
      · exact hsame.lookup h hc hx
    refine (ih (i + 1) h₁ hfull₁ hsame₁ (by omega)).mono (fun _ hm => hm) ?_
    rintro - s' ⟨T', h', hfull', hframe', hw⟩
    rw [show i + 1 + left = i + (left + 1) by omega] at hw
    exact ⟨T', h', hfull', hframe₁.trans hframe', hw.step (by omega) hlook⟩

/-- **A call of `map_pages` over pages of its own size**, on a range that may wrap. -/
theorem map_around (h : Inv A root s T) (hfull : Full T) (hpres : a.flags &&& ptePresent ≠ 0)
    (hdvd : pageSize ∣ a.paddr) (hp : a.paddr < 2 ^ 64) (hv : a.vaddr < 2 ^ 64)
    (hsame : SameSize s.mem root a) :
    Tied L nullAlarm (· ∈ allocFailures) (a.map (orHalt A.kmalloc) root) (a.map A.kmalloc root) s
      (fun _ s' => ∃ T', Inv A root s' T' ∧ Full T' ∧ Frame A T T' s s' ∧
        Written a T.lookup T'.lookup 0 a.numPages) := by
  have hclear : NoConflict s.mem T.dir a := by
    intro P hc
    have hfit := hsame.fits h hfull P hc
    by_cases hmark : a.flags &&& pteHugePage = 0
    · rw [if_neg (not_not.mpr hmark)] at hfit ⊢
      exact h.clear hfit
    · rw [if_pos hmark] at hfit ⊢
      exact hfit
  have heach := mapEach_over a.numPages 0 h hfull hpres hdvd hsame (by omega)
  rw [Nat.zero_add] at heach
  unfold Tied Yields at heach ⊢
  unfold Args.map
  rwa [mapPages_each A.kmalloc h.wellFormed hclear hdvd hp hv,
    mapPages_each (orHalt A.kmalloc) h.wellFormed hclear hdvd hp hv]

/-! ## Runs -/

/-- A request: the flags have `PTE_PRESENT` and no bit of the address, the frames are aligned and
can be named, and no page of the range comes twice. -/
structure Request (a : Args) : Prop where
  present : a.flags &&& ptePresent ≠ 0
  clear : a.flags &&& pteAddrMask = 0
  flags_lt : a.flags < 2 ^ 64
  vaddr_lt : a.vaddr < 2 ^ 64
  aligned : a.size ∣ a.paddr
  phys : a.paddr + a.numPages * a.size ≤ 2 ^ 52
  once : a.numPages ≤ a.slot (2 ^ 36)

/-- A call that returns. The requests may be for what is mapped already, if `allowed` has them; the
tables given back merge with free blocks only. -/
inductive Overlay (A : PhysAlloc L) (root : Nat) (allowed : Mem → Args → Prop) :
    KState → KState → Prop
  | map {s s' : KState} {a : Args} : Request a → allowed s.mem a →
    a.map A.kmalloc root L s = .ok ((), s') →
      Overlay A root allowed s s'
  | mapHuge {s s' : KState} {p v flags : Nat} : Request ⟨p, v, flags, 1⟩ →
      allowed s.mem ⟨p, v, flags, 1⟩ → mapHugePage A.kmalloc root p v flags L s = .ok ((), s') →
      Overlay A root allowed s s'
  | unmap {s s' : KState} {a : Args} : a.Sound A root s → a.unmap A.kfree root L s = .ok ((), s') →
      Overlay A root allowed s s'

theorem Request.paddr_lt (h : Request a) : a.paddr < 2 ^ 64 := by
  have := h.phys
  omega

/-- The entries of a request are its frames with its flags. -/
theorem Request.leaf (h : Request a) {i : Nat} (hi : i < a.numPages) :
    leafOf (a.pte i) a.size = ⟨a.paddr + i * a.size, a.flags, a.size⟩ := by
  have hlt : a.paddr + i * a.size < 2 ^ 52 := by
    have hmul : (i + 1) * a.size ≤ a.numPages * a.size := Nat.mul_le_mul_right _ hi
    have := h.phys
    have hpos := a.size_pos
    rw [Nat.succ_mul] at hmul
    omega
  unfold Args.pte
  rw [Nat.mod_eq_of_lt (by omega)]
  refine leafOf_or a.size ?_ hlt h.clear h.flags_lt
  exact Nat.dvd_trans a.pageSize_dvd_size (Nat.dvd_add h.aligned (Nat.dvd_mul_left _ _))

theorem Request.pageSize_dvd (h : Request a) : pageSize ∣ a.paddr :=
  Nat.dvd_trans a.pageSize_dvd_size h.aligned

/-- A range no longer than the address space has its pages once. -/
theorem Request.at_inj (h : Request a) {i k : Nat} (hi : i < a.numPages) (hk : k < a.numPages)
    (hati : a.At i P) (hatk : a.At k P) : i = k := by
  have honce := h.once
  unfold Args.At at hati hatk
  rw [hati] at hatk
  by_cases hmark : a.flags &&& pteHugePage = 0
  · simp only [Args.slot_small hmark, Args.size_small hmark] at honce hatk
    unfold pageNo pageSize at hatk
    omega
  · simp only [Args.slot_huge hmark, Args.size_huge hmark] at honce hatk
    unfold pageNo hugePageSize at hatk
    omega

/-- A 2MB request for one page, by either function. -/
theorem mapHuge_call {p flags : Nat}
    (hrun : mapHugePage A.kmalloc root p v flags L s = .ok ((), s')) :
    (Args.mk p v flags 1).map A.kmalloc root L s = .ok ((), s') := by
  have hmark : flags &&& pteHugePage ≠ 0 := by
    intro h0
    unfold mapHugePage at hrun
    rw [if_pos h0] at hrun
    exact absurd hrun (by simp [kpanic, K.bind_apply])
  rwa [mapHugePage_eq A.kmalloc hmark] at hrun

theorem Kept.map (h : Kept A root s₀ s) (ha : Request a) (hsame : SameSize s.mem root a)
    (hrun : a.map A.kmalloc root L s = .ok ((), s')) : Kept A root s₀ s' := by
  obtain ⟨T, hinv, hfull, hframe⟩ := h
  obtain ⟨T', hinv', hfull', hframe', -⟩ :=
    (map_around hinv hfull ha.present ha.pageSize_dvd ha.paddr_lt
    ha.vaddr_lt hsame).of_ok hrun
  exact ⟨T', hinv', hfull', hframe.trans hframe'⟩

theorem Kept.overlay (h : Kept A root s₀ s)
    (hcall : Overlay A root (fun m a => SameSize m root a) s s') : Kept A root s₀ s' := by
  cases hcall with
  | map ha hsame hrun => exact h.map ha hsame hrun
  | mapHuge ha hsame hrun => exact h.map ha hsame (mapHuge_call hrun)
  | unmap hsound hrun =>
    obtain ⟨T, hinv, hfull, hframe⟩ := h
    obtain ⟨T', hinv', hfull', hframe', -, -⟩ := (unmap_yields _ hinv hfull hsound).of_ok hrun
    exact ⟨T', hinv', hfull', hframe.trans hframe'⟩

/-- What changes from `s` to `s'` is the memory of the page allocator, and of the blocks in use only
tables that a walk comes to. -/
def OnlyTables (A : PhysAlloc L) (root : Nat) (s s' : KState) : Prop :=
  ∀ x f, s'.mem x f ≠ s.mem x f → A.managed x ∧
    ∀ b ∈ s'.blocks, b.addr ≤ x → x < b.addr + b.len → ∃ l, Linked s'.mem root l b.addr

theorem Frame.onlyTables (hf : Frame A T T' s s') (hinv : Inv A root s' T') :
    OnlyTables A root s s' := by
  intro x f hne
  obtain ⟨hman, hout⟩ := hf.mem x f hne
  refine ⟨hman, fun b hb h1 h2 => ?_⟩
  by_cases ho : Owns T' b
  · obtain ⟨l, K, hd, -⟩ := ho
    exact ⟨l, hinv.linked_iff.mpr ⟨K, hd⟩⟩
  · obtain ⟨hb', ho'⟩ := (hf.foreign b).mp ⟨hb, ho⟩
    exact absurd ⟨h1, h2⟩ (hout b hb' ho')

/-- What is said of a request that returned. -/
structure Served (A : PhysAlloc L) (root : Nat) (s₀ s : KState) (a : Args) (s' : KState) :
    Prop where
  onlyTables : OnlyTables A root s s'
  translated : ∀ i v, i < a.numPages → a.At i (pageNo v) →
    walk s'.mem root v = some ⟨a.paddr + i * a.size, a.flags, a.size⟩
  tidy : Tidy root s₀ s'

theorem Kept.served (h₀ : Start A root s₀) (h : Kept A root s₀ s) (ha : Request a)
    (hsame : SameSize s.mem root a) :
    Tied L nullAlarm (· ∈ allocFailures) (a.map (orHalt A.kmalloc) root) (a.map A.kmalloc root) s
      (fun _ s' => Served A root s₀ s a s') := by
  obtain ⟨T, hinv, hfull, hframe⟩ := h
  refine (map_around hinv hfull ha.present ha.pageSize_dvd ha.paddr_lt ha.vaddr_lt hsame).mono
    (fun _ hm => hm) ?_
  rintro - s' ⟨T', hinv', hfull', hframe', hw⟩
  refine ⟨hframe'.onlyTables hinv', fun i v hi hat => ?_,
    Kept.tidy h₀ ⟨T', hinv', hfull', hframe.trans hframe'⟩⟩
  rw [hinv'.walk_eq, ← ha.leaf hi]
  refine hw.last i _ (Nat.zero_le i) hi hat (fun k h1 h2 hk => ?_)
  have := ha.at_inj hi h2 hat hk
  omega

/-- **Over pages of its own size a request is served**, along every run of such requests: only
tables are written, the addresses translate as asked for, and no table is lost. A call that does not
return was given no memory for a table. -/
theorem sound_of_overlays (h : Start A root s₀)
    (hrun : Reaches (Overlay A root (fun m a => SameSize m root a)) s₀ s) :
    (∀ a, Request a → SameSize s.mem root a →
      Yields L (a.map A.kmalloc root) s
        (fun msg => msg ∈ allocFailures ∧
          ReturnedNull L A.kmalloc (fun kmalloc => a.map kmalloc root) s)
        (fun _ s' => Served A root s₀ s a s')) ∧
    (∀ p v flags, flags &&& pteHugePage ≠ 0 → Request ⟨p, v, flags, 1⟩ →
      SameSize s.mem root ⟨p, v, flags, 1⟩ →
      Yields L (mapHugePage A.kmalloc root p v flags) s
        (fun msg => msg ∈ allocFailures ∧
          ReturnedNull L A.kmalloc (fun kmalloc => mapHugePage kmalloc root p v flags) s)
        (fun _ s' => Served A root s₀ s ⟨p, v, flags, 1⟩ s')) := by
  have h0 : Kept A root s₀ s₀ := ⟨_, h.inv.1, h.inv.2, Frame.refl _ _⟩
  have hk := hrun.invariant (Kept A root s₀) h0 (fun _ _ _ hk hcall => hk.overlay hcall)
  refine ⟨fun a ha hsame => hk.served h ha hsame, fun p v flags hmark ha hsame => ?_⟩
  show Tied L nullAlarm (· ∈ allocFailures) (mapHugePage (orHalt A.kmalloc) root p v flags)
    (mapHugePage A.kmalloc root p v flags) s _
  rw [mapHugePage_eq A.kmalloc hmark, mapHugePage_eq (orHalt A.kmalloc) hmark]
  exact hk.served h ha hsame

/-! ### On the small machine -/

theorem pairArgs_request : Request pairArgs :=
  ⟨by decide, by decide, by decide, by decide, by decide, by decide, by decide⟩

/-- The pages of `pairArgs`, for other frames. -/
def overArgs : Args := ⟨0x8000, 0x1FF000, 3, 2⟩

theorem overArgs_request : Request overArgs :=
  ⟨by decide, by decide, by decide, by decide, by decide, by decide, by decide⟩

theorem smallStart_sameSize (a : Args) : SameSize smallStart.mem 0x400000 a := by
  intro v _ x hx
  rw [smallStart_start.inv.1.walk_eq, bare_lookup] at hx
  exact absurd hx (by simp)

theorem sound_of_overlays_pair : ∃ s, Reaches (Overlay smallAlloc 0x400000
      (fun m a => SameSize m 0x400000 a)) smallStart s ∧ SameSize s.mem 0x400000 overArgs ∧
    Yields smallLayout (overArgs.map smallAlloc.kmalloc 0x400000) s
      (fun msg => msg ∈ allocFailures ∧
        ReturnedNull smallLayout smallAlloc.kmalloc (fun kmalloc => overArgs.map kmalloc 0x400000)
        s)
      (fun _ s' => Served smallAlloc 0x400000 smallStart s overArgs s') := by
  obtain ⟨⟨s₁, s₂⟩, hrun, -⟩ := Option.map_eq_some_iff.mp smallRun_result
  obtain ⟨h₁, -, -⟩ := smallRun_calls hrun
  have hreach :
      Reaches (Overlay smallAlloc 0x400000 (fun m a => SameSize m 0x400000 a)) smallStart s₁ :=
    .single (.map pairArgs_request (smallStart_sameSize _) h₁)
  have h0 : Kept smallAlloc 0x400000 smallStart smallStart :=
    ⟨_, smallStart_start.inv.1, smallStart_start.inv.2, Frame.refl _ _⟩
  have hserved := (h0.served smallStart_start pairArgs_request (smallStart_sameSize _)).of_ok h₁
  have hsame : SameSize s₁.mem 0x400000 overArgs := by
    rintro v ⟨i, hi, hat⟩ x hx
    rw [hserved.translated i v hi hat, Option.some.injEq] at hx
    rw [← hx]
    rfl
  exact ⟨s₁, hreach, hsame,
    (sound_of_overlays smallStart_start hreach).1 overArgs overArgs_request hsame⟩

/-- A 2MB page, and a 4KB page in it. -/
def hugeArgs : Args := ⟨0x600000, 0x200000, 0x83, 1⟩
def insideArgs : Args := ⟨0x5000, 0x200000, 3, 1⟩

theorem hugeArgs_request : Request hugeArgs :=
  ⟨by decide, by decide, by decide, by decide, by decide, by decide, by decide⟩

theorem insideArgs_request : Request insideArgs :=
  ⟨by decide, by decide, by decide, by decide, by decide, by decide, by decide⟩

/-- **A 2MB frame is taken for a PT**: the entry of the 4KB page is written into the frame at
`0x600000`, which is in no block of the page allocator, and the address still translates to the 2MB
page. -/
theorem request_writes_data : ∃ s₁ s₂,
    Reaches (Overlay smallAlloc 0x400000 (fun _ _ => True)) smallStart s₁ ∧ Request insideArgs ∧
    insideArgs.map smallAlloc.kmalloc 0x400000 smallLayout s₁ = .ok ((), s₂) ∧
    walk s₂.mem 0x400000 0x200000 = some ⟨0x600000, 0x83, hugePageSize⟩ ∧
    s₁.mem 0x600000 .pte = 0 ∧ s₂.mem 0x600000 .pte = 0x5003 ∧
    ∀ b ∈ s₂.blocks, ¬ (b.addr ≤ 0x600000 ∧ 0x600000 < b.addr + b.len) := by
  have hres : ((outcome (hugeArgs.map smallAlloc.kmalloc 0x400000) smallStart).bind fun s₁ =>
      (outcome (insideArgs.map smallAlloc.kmalloc 0x400000) s₁).map fun s₂ =>
        (walk s₂.mem 0x400000 0x200000, s₁.mem 0x600000 .pte, s₂.mem 0x600000 .pte,
          decide (∀ b ∈ s₂.blocks, ¬ (b.addr ≤ 0x600000 ∧ 0x600000 < b.addr + b.len))))
      = some (some ⟨0x600000, 0x83, hugePageSize⟩, 0, 0x5003, true) := by
    decide +kernel
  obtain ⟨s₁, h₁, hrest⟩ := Option.bind_eq_some_iff.mp hres
  obtain ⟨s₂, h₂, hres⟩ := Option.map_eq_some_iff.mp hrest
  simp only [Prod.mk.injEq, decide_eq_true_eq] at hres
  obtain ⟨hwalk, hbefore, hafter, hblocks⟩ := hres
  exact ⟨s₁, s₂, .single (.map hugeArgs_request trivial (outcome_eq_some h₁)), insideArgs_request,
    outcome_eq_some h₂, hwalk, hbefore, hafter, hblocks⟩

/-! ## What the pages allow -/

/-- A page of the range that no later page of it falls on. -/
def Args.Stays (a : Args) (j : Nat) : Prop :=
  j < a.numPages ∧ ∀ k, j < k → k < a.numPages → ¬ a.At k (pageNo ((a.vaddr + j * a.size) % 2 ^ 64))

/-- The page of the range that has the last word on `P`. -/
theorem Args.Covers.stays (h : a.Covers P) : ∃ j, a.Stays j ∧ a.At j P := by
  obtain ⟨i, hi, hat⟩ := h
  have hpos : i ≤ a.numPages - 1 := by omega
  refine ⟨Nat.findGreatest (a.At · P) (a.numPages - 1), ⟨?_, fun k h1 h2 hk => ?_⟩,
    Nat.findGreatest_spec (P := (a.At · P)) hpos hat⟩
  · have := Nat.findGreatest_le (P := (a.At · P)) (a.numPages - 1)
    omega
  · have hlast := Nat.findGreatest_spec (P := (a.At · P)) hpos hat
    exact Nat.findGreatest_is_greatest h1 (by omega) (hlast.trans hk)

theorem Written.stays {M M' : PageMap} (h : Written a M M' 0 a.numPages) {j : Nat} (hj : a.Stays j)
    (hat : a.At j P) : M' P = some (leafOf (a.pte j) a.size) := by
  refine h.last j P (Nat.zero_le j) hj.1 hat (fun k h1 h2 hk => hj.2 k h1 h2 ?_)
  unfold Args.At at *
  rw [← hat, hk]

theorem Args.at_self (a : Args) (j : Nat) : a.At j (pageNo ((a.vaddr + j * a.size) % 2 ^ 64)) := rfl

/-- `PTE_NX` of a word. -/
theorem and_nx_eq_zero_iff {x : Nat} (h : x < 2 ^ 64) : x &&& pteNx = 0 ↔ x < 2 ^ 63 := by
  have hdiv : (x &&& pteNx) / 2 ^ 63 = x / 2 ^ 63 := by
    rw [Nat.and_div_two_pow,
      show pteNx / 2 ^ 63 = 2 ^ 1 - 1 by decide, Nat.and_two_pow_sub_one_eq_mod]
    omega
  have hmod : (x &&& pteNx) % 2 ^ 63 = 0 := by
    rw [Nat.and_mod_two_pow, show pteNx % 2 ^ 63 = 0 by decide, Nat.and_zero]
  omega

/-- The flags of a leaf are those of the call, but for bit 63 of a frame that cannot be named. -/
theorem Args.pte_allows (hdvd : pageSize ∣ a.paddr) (j : Nat) :
    ((leafOf (a.pte j) a.size).flags &&& pteWritable ≠ 0 ↔ a.flags &&& pteWritable ≠ 0) ∧
    ((leafOf (a.pte j) a.size).flags &&& pteNx = 0 ↔
      (a.paddr + j * a.size) % 2 ^ 64 < 2 ^ 63 ∧ a.flags &&& pteNx = 0) := by
  have hpage : pageSize ∣ (a.paddr + j * a.size) % 2 ^ 64 :=
    (Nat.dvd_mod_iff (by decide)).mpr
      (Nat.dvd_add hdvd (Nat.dvd_trans a.pageSize_dvd_size (Nat.dvd_mul_left _ _)))
  rw [leafOf_flags (by decide), leafOf_flags (by decide)]
  unfold Args.pte
  constructor
  · rw [or_and_low hpage (by decide)]
  · rw [Nat.and_or_distrib_right, Nat.or_eq_zero_iff, and_nx_eq_zero_iff (Nat.mod_lt _ (by omega))]

/-- **Rights asked for are rights given just if they are not the user's**: a call of `map_pages`
that returns gives its pages the rights of its flags if these do not have `PTE_USER`, and else
never. Bit 63 of a frame that no entry can name counts as `PTE_NX`. -/
theorem rights_exact_iff (h : Inv A root s T) (hfull : Full T) (hpres : a.flags &&& ptePresent ≠ 0)
    (hdvd : pageSize ∣ a.paddr) (hp : a.paddr < 2 ^ 64) (hv : a.vaddr < 2 ^ 64)
    (hsame : SameSize s.mem root a) :
    Yields L (a.map A.kmalloc root) s
      (fun msg => msg ∈ allocFailures ∧
        ReturnedNull L A.kmalloc (fun kmalloc => a.map kmalloc root) s)
      (fun _ s' => (∀ v, a.Covers (pageNo v) → Allows s'.mem root v a.flags) ↔
        a.numPages = 0 ∨ (a.flags &&& pteUser = 0 ∧ (a.flags &&& pteNx ≠ 0 ∨
          ∀ j, a.Stays j → (a.paddr + j * a.size) % 2 ^ 64 < 2 ^ 63))) := by
  refine (map_around h hfull hpres hdvd hp hv hsame).mono (fun _ hm => hm) ?_
  rintro - s' ⟨T', h', -, -, hw⟩
  -- what is said of one page
  have hone : ∀ {v j}, a.Stays j → a.At j (pageNo v) → (Allows s'.mem root v a.flags ↔
      a.flags &&& pteUser = 0 ∧
        (a.flags &&& pteNx ≠ 0 ∨ (a.paddr + j * a.size) % 2 ^ 64 < 2 ^ 63)) := by
    intro v j hj hat
    obtain ⟨hwrite, hexec⟩ := Args.pte_allows hdvd j
    rw [h'.allows_iff (hw.stays hj hat), hwrite, hexec]
    tauto
  constructor
  · intro hall
    by_cases hn : a.numPages = 0
    · exact Or.inl hn
    have hstays : ∀ {j}, a.Stays j → a.flags &&& pteUser = 0 ∧
        (a.flags &&& pteNx ≠ 0 ∨ (a.paddr + j * a.size) % 2 ^ 64 < 2 ^ 63) :=
      fun {j} hj => (hone hj (a.at_self j)).mp (hall _ ⟨j, hj.1, a.at_self j⟩)
    obtain ⟨j, hj, -⟩ := Args.Covers.stays (a := a) ⟨0, by omega, rfl⟩
    refine Or.inr ⟨(hstays hj).1, ?_⟩
    by_cases hnx : a.flags &&& pteNx = 0
    · exact Or.inr (fun k hk => (hstays hk).2.resolve_left (not_not.mpr hnx))
    · exact Or.inl hnx
  · rintro hcond v hc
    obtain ⟨j, hj, hat⟩ := hc.stays
    obtain ⟨huser, hrest⟩ := hcond.resolve_left (fun hn => by
      have := hj.1
      omega)
    exact (hone hj hat).mpr ⟨huser, hrest.imp id (fun hall => hall j hj)⟩

theorem rights_exact_iff_pair :
    ∃ s', pairArgs.map smallAlloc.kmalloc 0x400000 smallLayout smallStart = .ok ((), s') ∧
    ∀ v, pairArgs.Covers (pageNo v) → Allows s'.mem 0x400000 v 3 := by
  obtain ⟨⟨s₁, s₂⟩, hrun, -⟩ := Option.map_eq_some_iff.mp smallRun_result
  obtain ⟨h₁, -, -⟩ := smallRun_calls hrun
  have hiff :=
    (rights_exact_iff smallStart_start.inv.1 smallStart_start.inv.2 (by decide) (by decide)
    (by decide) (by decide) (smallStart_sameSize pairArgs)).of_ok h₁
  refine ⟨s₁, h₁, hiff.mpr (Or.inr ⟨by decide, Or.inr (fun j hj => ?_)⟩)⟩
  have hlt : j < 2 := hj.1
  have hframe : pairArgs.paddr + j * pairArgs.size = 0x5000 + j * 4096 := rfl
  omega

/-- A page for the user. -/
def userArgs : Args := ⟨0x5000, 0x1000, pteFlagsUserData, 1⟩

/-- **The user cannot use it**: `PTE_USER` is in the leaf and in no entry above. -/
theorem rights_lost : Start smallAlloc 0x400000 smallStart ∧
    SameSize smallStart.mem 0x400000 userArgs ∧
    userArgs.flags &&& ptePresent ≠ 0 ∧ userArgs.flags &&& pteAddrMask = 0 ∧
    userArgs.flags &&& pteUser ≠ 0 ∧
    ∃ s', userArgs.map smallAlloc.kmalloc 0x400000 smallLayout smallStart = .ok ((), s') ∧
      path s'.mem 0x400000 0x1000 = [0x401003, 0x402003, 0x403003, 0x8000000000005007] ∧
      ¬ UserAccessible s'.mem 0x400000 0x1000 := by
  have hres : ((outcome (userArgs.map smallAlloc.kmalloc 0x400000) smallStart).map fun s' =>
      path s'.mem 0x400000 0x1000) = some [0x401003, 0x402003, 0x403003, 0x8000000000005007] := by
    decide +kernel
  obtain ⟨s', hrun, hpath⟩ := Option.map_eq_some_iff.mp hres
  refine ⟨smallStart_start, smallStart_sameSize _, by decide, by decide, by decide, s',
    outcome_eq_some hrun, hpath, fun hyes => ?_⟩
  have := hyes.2 0x401003 (by rw [hpath]; exact List.mem_cons_self)
  exact this (by decide)

end Mmu
end MikroKernel
