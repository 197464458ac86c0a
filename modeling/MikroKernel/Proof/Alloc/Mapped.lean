import MikroKernel.Proof.Alloc.Locks
import MikroKernel.Proof.Buddy.Runs

/-!
# Round trips through the mapped layer

An allocation of the mapped layer is an allocation of the physical one with the offset added, and
the matching free takes the offset off again. That holds for four of the five allocating functions
(`roundTrips_of_ne`). `get_zeroed_page` adds the offset to what `get_page` has already added it to,
so the address it returns is no address of the direct map.
-/

set_option autoImplicit false

namespace MikroKernel
namespace Mapped

open Buddy

/-! ## The functions in pairs -/

/-- A call of an allocating function of the mapped layer. -/
inductive Alloc
  | physKmalloc (size : Nat) (flg : AllocFlag)
  | kmemCacheKalloc (cache : Nat)
  | buddyKalloc (size : Nat)
  | getPage
  | getZeroedPage
deriving DecidableEq, Repr

namespace Alloc

def mapped (slabCaches : Nat) : Alloc → K Nat
  | .physKmalloc size flg => mappedPhysKmalloc slabCaches size flg
  | .kmemCacheKalloc cache => mappedKmemCacheKalloc cache
  | .buddyKalloc size => mappedBuddyKalloc size
  | .getPage => MikroKernel.getPage
  | .getZeroedPage => MikroKernel.getZeroedPage

/-- The allocation it makes below. -/
def physical (slabCaches : Nat) : Alloc → K Nat
  | .physKmalloc size flg => MikroKernel.physKmalloc slabCaches size flg
  | .kmemCacheKalloc cache => MikroKernel.kmemCacheKalloc MikroKernel.buddyKalloc cache
  | .buddyKalloc size => MikroKernel.buddyKalloc size
  | .getPage | .getZeroedPage => MikroKernel.buddyKalloc pageSize

/-- The matching free. -/
def mappedFree (slabCaches : Nat) : Alloc → Nat → K Bool
  | .physKmalloc size flg, v => mappedPhysKfree slabCaches v size flg
  | .kmemCacheKalloc cache, v => mappedKmemCacheKfree cache v
  | .buddyKalloc size, v => mappedBuddyKfree v size
  | .getPage, v | .getZeroedPage, v => freePage v

/-- The free it makes below. -/
def physicalFree (slabCaches : Nat) : Alloc → Nat → K Unit
  | .physKmalloc size flg, p => physKfree slabCaches p size flg
  | .kmemCacheKalloc cache, p => kmemCacheKfree cache p
  | .buddyKalloc size, p => buddyKfree p size
  | .getPage, p | .getZeroedPage, p => freePhysPage p

end Alloc

/-- **The call round-trips**: a pointer it returns is the direct-map address of the block that was
just allocated, and the matching free of it, at any later time, frees that block and returns `true`.
The page of `get_zeroed_page` is zero. -/
def RoundTrips (L : Layout) (slabCaches : Nat) (a : Alloc) (s : KState) : Prop :=
  ∀ v s', a.mapped slabCaches L s = .ok (v, s') → v ≠ 0 →
    ∃ p s₁, a.physical slabCaches L s = .ok (p, s₁) ∧ v = directMapStart + p ∧
      (∀ s₂ : KState, s₂.physMapOffset = directMapStart →
        a.mappedFree slabCaches v L s₂
        = (do a.physicalFree slabCaches p; pure true : K Bool) L s₂) ∧
      (a = .getZeroedPage → ∀ i, i < pageSize → ∀ f, s'.mem (p + i) f = 0)

/-- The state of a call: the direct map is in use, the buddy allocator is initialised, and the
allocation below returns, with a block of installed memory that the direct map has room for. -/
structure Backed (L : Layout) (slabCaches : Nat) (a : Alloc) (s : KState) : Prop where
  offset : s.physMapOffset = directMapStart
  freeListsPtr : s.mem L.kernelEnd .freeListsPtr = L.kernelEnd + metadataSize
  maxOrder : s.mem L.kernelEnd .maxOrder = 10
  returns : ∃ p s', a.physical slabCaches L s = .ok (p, s')
  window : ∀ p s', a.physical slabCaches L s = .ok (p, s') → p ≠ 0 →
    L.phys p = true ∧ p < directMapEnd - directMapStart

/-- No free list has a block. -/
def OutOfPages (L : Layout) (m : Mem) : Prop := ∀ k, k ≤ 10 → m (listHead L k) .ptr = 0

variable {L : Layout} {slabCaches : Nat} {a : Alloc} {s s' : KState} {v p : Nat}

/-! ## Adding and taking off the offset -/

theorem mapPtr_apply (p : Nat) : mapPtr p L s =
    .ok (if p = 0 then 0 else (p + s.physMapOffset) % 2 ^ 64, s) := by
  unfold mapPtr
  split <;> rfl

/-- What is behind a mapped allocation. -/
theorem mapPtr_bind {x : K Nat} (hrun : (x >>= mapPtr) L s = .ok (v, s')) (hv : v ≠ 0) :
    ∃ p, x L s = .ok (p, s') ∧ p ≠ 0 ∧ v = (p + s'.physMapOffset) % 2 ^ 64 := by
  obtain ⟨p, s₁, hx, hmap⟩ := K.bind_eq_ok.mp hrun
  rw [mapPtr_apply] at hmap
  obtain ⟨hval, rfl⟩ := Prod.mk.inj (Except.ok.inj hmap)
  by_cases h0 : p = 0
  · rw [if_pos h0] at hval
    exact absurd hval.symm hv
  · rw [if_neg h0] at hval
    exact ⟨p, hx, h0, hval.symm⟩

theorem add_offset (h : p < directMapEnd - directMapStart) :
    (p + directMapStart) % 2 ^ 64 = directMapStart + p := by
  unfold directMapEnd directMapStart at *
  omega

theorem unmapPtr_apply (free : Nat → K Unit) (hp : p < directMapEnd - directMapStart)
    (hs : s.physMapOffset = directMapStart) :
    unmapPtr free (directMapStart + p) L s = (do free p; pure true : K Bool) L s := by
  have hmapped : isDirectMappedPtr (directMapStart + p) = true := by
    unfold isDirectMappedPtr
    exact decide_eq_true ⟨by omega, by omega⟩
  have hsub : sub64 (directMapStart + p) directMapStart = p := by
    unfold sub64
    unfold directMapEnd directMapStart at *
    omega
  unfold unmapPtr
  rw [if_pos hmapped, K.bind_ok (show physMapOffset L s = .ok (s.physMapOffset, s) from rfl), hs,
    hsub]

theorem mappedFree_apply (hp : p < directMapEnd - directMapStart)
    (hs : s.physMapOffset = directMapStart) :
    a.mappedFree slabCaches (directMapStart + p) L s =
      (do a.physicalFree slabCaches p; pure true : K Bool) L s := by
  cases a with
  | physKmalloc size flg => exact unmapPtr_apply (fun p => physKfree slabCaches p size flg) hp hs
  | kmemCacheKalloc cache => exact unmapPtr_apply (kmemCacheKfree cache) hp hs
  | buddyKalloc size => exact unmapPtr_apply (fun p => buddyKfree p size) hp hs
  | getPage => exact unmapPtr_apply freePhysPage hp hs
  | getZeroedPage => exact unmapPtr_apply freePhysPage hp hs

/-! ## The functions that add it once -/

instance (a : Alloc) : Calm (a.physical slabCaches) := by
  cases a <;> unfold Alloc.physical <;> infer_instance

/-- `get_zeroed_phys_page` returns what the buddy allocator returned. -/
theorem getZeroedPhysPage_ok (hrun : getZeroedPhysPage L s = .ok (p, s')) (hp : p ≠ 0) :
    ∃ s₁, buddyKalloc pageSize L s = .ok (p, s₁) ∧ s'.physMapOffset = s₁.physMapOffset := by
  obtain ⟨q, s₁, hcall, hrest⟩ := K.bind_eq_ok.mp hrun
  by_cases h0 : q = 0
  · rw [if_pos h0] at hrest
    exact absurd (Prod.mk.inj (Except.ok.inj hrest)).1.symm hp
  · rw [if_neg h0] at hrest
    obtain ⟨w, s₂, hmem, hpure⟩ := K.bind_eq_ok.mp hrest
    obtain ⟨⟨⟩, s₃, hset, hpure⟩ := K.bind_eq_ok.mp hpure
    obtain ⟨rfl, rfl⟩ := Prod.mk.inj (Except.ok.inj hpure)
    refine ⟨s₁, hcall, ?_⟩
    rw [Plain.result hset, Plain.result hmem]

/-- What is behind a pointer of a function other than `get_zeroed_page`. -/
theorem mapped_ok (hne : a ≠ .getZeroedPage) (hrun : a.mapped slabCaches L s = .ok (v, s'))
    (hv : v ≠ 0) : ∃ p s₁, a.physical slabCaches L s = .ok (p, s₁) ∧ p ≠ 0 ∧
      v = (p + s.physMapOffset) % 2 ^ 64 := by
  have hoff : ∀ {p s₁}, a.physical slabCaches L s = .ok (p, s₁) →
      s₁.physMapOffset = s.physMapOffset := fun hp => (Calm.result hp).offset
  cases a with
  | getPage =>
    obtain ⟨p, hx, hp, rfl⟩ := mapPtr_bind hrun hv
    obtain ⟨s₁, hcall, hsame⟩ := getZeroedPhysPage_ok hx hp
    exact ⟨p, s₁, hcall, hp, by rw [hsame, hoff hcall]⟩
  | getZeroedPage => exact absurd rfl hne
  | _ =>
    obtain ⟨p, hx, hp, rfl⟩ := mapPtr_bind hrun hv
    exact ⟨p, s', hx, hp, by rw [hoff hx]⟩

theorem roundTrips_of_ne (hb : Backed L slabCaches a s) (hne : a ≠ .getZeroedPage) :
    RoundTrips L slabCaches a s := by
  intro v s' hrun hv
  obtain ⟨p, s₁, hcall, hp, hval⟩ := mapped_ok hne hrun hv
  have hwin := (hb.window p s₁ hcall hp).2
  rw [hb.offset, add_offset hwin] at hval
  refine ⟨p, s₁, hcall, hval, fun s₂ hs₂ => ?_, fun h => absurd h hne⟩
  rw [hval]
  exact mappedFree_apply hwin hs₂

/-! ## The page that gets the offset twice -/

/-- `x` returns `c` if it returns. -/
def Gives {α : Type} (x : K α) (c : α) : Prop := ∀ L s a s', x L s = .ok (a, s') → a = c

theorem Gives.pure {α : Type} (c : α) : Gives (Pure.pure c : K α) c := by
  intro L s a s' h
  exact (Prod.mk.inj (Except.ok.inj h)).1.symm

theorem Gives.bind {α β : Type} {x : K α} {f : α → K β} {c : β} (h : ∀ a, Gives (f a) c) :
    Gives (x >>= f) c := by
  intro L s b s' hrun
  obtain ⟨a, s₁, -, hf⟩ := K.bind_eq_ok.mp hrun
  exact h a L s₁ b s' hf

/-- One round of `buddy_kalloc` ends with the head of the list. -/
theorem popSection_ok {idx order c : Nat} (hk : idx ≤ 10)
    (hptr : s.mem L.kernelEnd .freeListsPtr = L.kernelEnd + metadataSize)
    (hrun : popSection idx order L s = .ok (c, s')) :
    c = s.mem (listHead L idx) .ptr ∧ (c = 0 → s' = s) := by
  have himg : L.image (freeListAddr (L.kernelEnd + metadataSize) idx) = true := image_listHead L hk
  unfold popSection at hrun
  rw [K.bind_ok (kernelEnd_apply L s), K.bind_ok (load_image (image_metadata L)), hptr,
    K.bind_ok (load_image himg)] at hrun
  by_cases h0 : s.mem (listHead L idx) .ptr = 0
  · rw [if_pos (show s.mem (freeListAddr _ idx) .ptr = 0 from h0)] at hrun
    obtain ⟨rfl, rfl⟩ := Prod.mk.inj (Except.ok.inj hrun)
    exact ⟨h0.symm, fun _ => rfl⟩
  · rw [if_neg (show ¬ s.mem (freeListAddr _ idx) .ptr = 0 from h0),
      K.bind_ok (load_image himg)] at hrun
    -- whatever comes in between, the head is returned
    have hc : c = s.mem (listHead L idx) .ptr := by
      refine (Gives.bind (fun _ => Gives.bind (fun _ => Gives.bind (fun b => ?_)))) _ _ _ _ hrun
      have hrest : Gives (do
          p2vStore (s.mem (listHead L idx) .ptr) .chunkNext 0
          splitLoop (L.kernelEnd + metadataSize) (s.mem (listHead L idx) .ptr) order idx
          pure (s.mem (listHead L idx) .ptr)) (s.mem (listHead L idx) .ptr) :=
        Gives.bind (fun _ => Gives.bind (fun _ => Gives.pure _))
      by_cases hb : b ≠ 0
      · rw [if_pos hb]
        exact Gives.bind (fun _ => Gives.bind (fun _ => hrest))
      · rw [if_neg hb]
        exact hrest
    exact ⟨hc, fun hz => absurd (hc.symm.trans hz) h0⟩

/-- The same under the lock. -/
theorem locked_popSection_ok {idx order c : Nat} (hk : idx ≤ 10)
    (hptr : s.mem L.kernelEnd .freeListsPtr = L.kernelEnd + metadataSize)
    (hrun : locked .buddyLock (popSection idx order) L s = .ok (c, s')) :
    c = s.mem (listHead L idx) .ptr ∧ (c = 0 → s'.mem = s.mem) := by
  obtain ⟨s₁, -, hpop, rfl⟩ := locked_ok hrun
  have hptr' : (s.acquired .buddyLock).mem L.kernelEnd .freeListsPtr = L.kernelEnd + metadataSize :=
    hptr
  obtain ⟨hval, hsame⟩ := popSection_ok hk hptr' hpop
  refine ⟨hval, fun hz => ?_⟩
  rw [hsame hz]
  rfl

/-- The loop of `buddy_kalloc` finds nothing if and only if the lists are empty. -/
theorem kallocLoop_eq_zero {order n idx : Nat} (hn : idx + n ≤ 11)
    (hptr : s.mem L.kernelEnd .freeListsPtr = L.kernelEnd + metadataSize)
    (hrun : kallocLoop order n idx L s = .ok (p, s')) :
    p = 0 ↔ ∀ k, idx ≤ k → k < idx + n → s.mem (listHead L k) .ptr = 0 := by
  induction n generalizing idx s with
  | zero =>
    have : p = 0 := (Prod.mk.inj (Except.ok.inj hrun)).1.symm
    exact ⟨fun _ k h1 h2 => absurd h2 (by omega), fun _ => this⟩
  | succ n ih =>
    obtain ⟨c, s₁, hpop, hrest⟩ := K.bind_eq_ok.mp hrun
    obtain ⟨hval, hsame⟩ := locked_popSection_ok (show idx ≤ 10 by omega) hptr hpop
    by_cases hc : c = 0
    · rw [if_pos hc] at hrest
      have hmem := hsame hc
      rw [ih (by omega) (hmem ▸ hptr) hrest, hmem]
      constructor
      · intro h k h1 h2
        rcases Nat.eq_or_lt_of_le h1 with rfl | h1
        · exact hval.symm.trans hc
        · exact h k h1 (by omega)
      · exact fun h k h1 h2 => h k (by omega) (by omega)
    · rw [if_neg hc] at hrest
      have hp : p = c := (Gives.bind (fun _ => Gives.pure c)) _ _ _ _ hrest
      constructor
      · exact fun h0 => absurd (hp.symm.trans h0) hc
      · exact fun h => absurd (hval.trans (h idx (Nat.le_refl _) (by omega))) hc

/-- **A page is found unless every list is empty.** -/
theorem buddyKalloc_page_eq_zero
    (hptr : s.mem L.kernelEnd .freeListsPtr = L.kernelEnd + metadataSize)
    (hmax : s.mem L.kernelEnd .maxOrder = 10) (hrun : buddyKalloc pageSize L s = .ok (p, s')) :
    p = 0 ↔ OutOfPages L s.mem := by
  have horder : selectOrder pageSize L s = .ok (0, s) := rfl
  unfold buddyKalloc at hrun
  rw [K.bind_ok (kernelEnd_apply L s), K.bind_ok horder, K.bind_ok (load_image (image_metadata L)),
    hmax, if_neg (by omega)] at hrun
  rw [kallocLoop_eq_zero (by omega) hptr hrun]
  exact ⟨fun h k hk => h k (Nat.zero_le _) (by omega), fun h k _ hk => h k (by omega)⟩

/-- **What `get_zeroed_page` returns** where there is a page. -/
theorem getZeroedPage_ok {s₁ : KState} (hoff : s.physMapOffset = directMapStart)
    (hcall : buddyKalloc pageSize L s = .ok (p, s₁)) (hp : p ≠ 0) (hphys : L.phys p = true)
    (hwin : p < directMapEnd - directMapStart) :
    ∃ s', getZeroedPage L s = .ok ((directMapStart + p + directMapStart) % 2 ^ 64, s') := by
  have hoff₁ : s₁.physMapOffset = directMapStart := (Calm.result hcall).offset.trans hoff
  have hview : View s₁.physMapOffset := Or.inr hoff₁
  obtain ⟨s₂, hs₂⟩ : ∃ s₂, s₂ = { s₁ with mem := s₁.mem.zero p pageSize } := ⟨_, rfl⟩
  have hoff₂ : s₂.physMapOffset = directMapStart := by rw [hs₂]; exact hoff₁
  have hphysPage : getZeroedPhysPage L s = .ok (p, s₂) := by
    have hset := memsetZero_p2v (n := pageSize) hview (Or.inl hphys)
    obtain ⟨w, s₃, hw, hz⟩ := K.bind_eq_ok.mp hset
    unfold getZeroedPhysPage
    rw [K.bind_ok hcall, if_neg hp, K.bind_ok hw, K.bind_ok hz, hs₂]
    rfl
  have hpage : getPage L s = .ok (directMapStart + p, s₂) := by
    unfold getPage
    rw [K.bind_ok hphysPage, mapPtr_apply, if_neg hp, hoff₂, add_offset hwin]
  have hlt : p < pml4KernelHalfBase := by
    have := L.phys_lt p hphys
    unfold physTop at this
    unfold pml4KernelHalfBase
    omega
  have hzero : memsetZero (directMapStart + p) pageSize L s₂ =
      .ok ((), { s₂ with mem := s₂.mem.zero p pageSize }) := by
    have hresolve := resolve_p2v (Or.inr hoff₂) (Or.inl hphys : L.Stored p)
    rw [if_pos hlt, hoff₂, add_offset hwin] at hresolve
    unfold memsetZero
    rw [hoff₂, hresolve]
  have hne : directMapStart + p ≠ 0 := by unfold directMapStart; omega
  refine ⟨{ s₂ with mem := s₂.mem.zero p pageSize }, ?_⟩
  unfold getZeroedPage zeroPage
  rw [K.bind_ok hpage, if_neg hne, K.bind_ok hzero]
  show Except.ok ((directMapStart + p + s₂.physMapOffset) % 2 ^ 64, _) = _
  rw [hoff₂]

theorem not_roundTrips (hb : Backed L slabCaches .getZeroedPage s) (hpages : ¬ OutOfPages L s.mem) :
    ¬ RoundTrips L slabCaches .getZeroedPage s := by
  obtain ⟨p, s₁, hcall⟩ := hb.returns
  have hp : p ≠ 0 := fun h0 =>
    hpages ((buddyKalloc_page_eq_zero hb.freeListsPtr hb.maxOrder hcall).mp h0)
  obtain ⟨hphys, hwin⟩ := hb.window p s₁ hcall hp
  obtain ⟨s', hrun⟩ := getZeroedPage_ok hb.offset hcall hp hphys hwin
  have hne : (directMapStart + p + directMapStart) % 2 ^ 64 ≠ 0 := by
    unfold directMapEnd directMapStart at *
    omega
  intro hround
  obtain ⟨p', s₁', hcall', hval, -⟩ := hround _ s' hrun hne
  have hpp : p' = p := (Prod.mk.inj (Except.ok.inj (hcall'.symm.trans hcall))).1
  rw [hpp] at hval
  unfold directMapEnd directMapStart at *
  omega

/-- **When the mapped layer round-trips**: any of the calls but `get_zeroed_page` does, and that one
only where it has no page to return. -/
theorem roundTrips_iff (hb : Backed L slabCaches a s) :
    RoundTrips L slabCaches a s ↔ a ≠ .getZeroedPage ∨ OutOfPages L s.mem := by
  constructor
  · intro h
    by_contra hc
    obtain ⟨ha, hpages⟩ := not_or.mp hc
    obtain rfl := not_not.mp ha
    exact not_roundTrips hb hpages h
  · rintro (hne | hout)
    · exact roundTrips_of_ne hb hne
    · by_cases hne : a = .getZeroedPage
      · subst hne
        intro v s' hrun hv
        -- a page that is returned was allocated
        obtain ⟨page, s₁, hpage, hrest⟩ := K.bind_eq_ok.mp hrun
        by_cases h0 : page = 0
        · rw [if_pos h0] at hrest
          exact absurd (Prod.mk.inj (Except.ok.inj hrest)).1.symm hv
        · have hpage' : Alloc.mapped slabCaches .getPage L s = .ok (page, s₁) := hpage
          obtain ⟨p, s₂, hcall, hp, -⟩ := mapped_ok (by simp) hpage' h0
          exact absurd ((buddyKalloc_page_eq_zero hb.freeListsPtr hb.maxOrder hcall).mpr hout) hp
      · exact roundTrips_of_ne hb hne

/-! The small machine after `__init_buddy`, with the direct map in use. -/

def mappedStart : Option KState := booted.map fun c => { c.s with physMapOffset := directMapStart }

/-- What `buddy_kalloc(PAGE_SIZE)` returns there. -/
def firstPage (s : KState) : Option Nat :=
  match buddyKalloc pageSize smallLayout s with
  | .ok (p, _) => some p
  | .error _ => none

theorem mappedStart_result : (mappedStart.map fun s => (s.physMapOffset,
      s.mem smallLayout.kernelEnd .freeListsPtr, s.mem smallLayout.kernelEnd .maxOrder,
      s.mem (listHead smallLayout 10) .ptr, firstPage s)) =
    some (directMapStart, smallLayout.kernelEnd + metadataSize, 10, 0x400000, some 0x400000) := by
  decide +kernel

theorem mappedStart_backed {s : KState} (h : mappedStart = some s) :
    Backed smallLayout 0 .getPage s ∧ Backed smallLayout 0 .getZeroedPage s ∧
      ¬ OutOfPages smallLayout s.mem := by
  have hres := mappedStart_result
  rw [h] at hres
  simp only [Option.map_some, Option.some.injEq, Prod.mk.injEq] at hres
  obtain ⟨hoff, hptr, hmax, hhead, hpage⟩ := hres
  unfold firstPage at hpage
  cases hrun : buddyKalloc pageSize smallLayout s with
  | error e =>
    rw [hrun] at hpage
    exact absurd hpage (by simp)
  | ok r =>
    obtain ⟨p, s₁⟩ := r
    rw [hrun] at hpage
    obtain rfl : p = 0x400000 := Option.some.inj hpage
    have hwin : ∀ q s', buddyKalloc pageSize smallLayout s = .ok (q, s') → q ≠ 0 →
        smallLayout.phys q = true ∧ q < directMapEnd - directMapStart := by
      intro q s' hq _
      obtain rfl : q = 0x400000 := (Prod.mk.inj (Except.ok.inj (hq.symm.trans hrun))).1
      decide
    refine ⟨⟨hoff, hptr, hmax, ⟨_, _, hrun⟩, hwin⟩, ⟨hoff, hptr, hmax, ⟨_, _, hrun⟩, hwin⟩,
      fun hout => ?_⟩
    have := hout 10 (Nat.le_refl _)
    rw [hhead] at this
    exact absurd this (by decide)

theorem roundTrips_iff_page : ∃ s, mappedStart = some s ∧ RoundTrips smallLayout 0 .getPage s := by
  obtain ⟨s, hs, -⟩ := Option.map_eq_some_iff.mp mappedStart_result
  exact ⟨s, hs, (roundTrips_iff (mappedStart_backed hs).1).mpr (Or.inl (by simp))⟩

/-- **The first page of the small machine does not come back**: `get_zeroed_page` returns it with
the offset added twice. -/
theorem zeroed_page_offset_twice : ∃ s, mappedStart = some s ∧
    ¬ RoundTrips smallLayout 0 .getZeroedPage s := by
  obtain ⟨s, hs, -⟩ := Option.map_eq_some_iff.mp mappedStart_result
  obtain ⟨-, hb, hpages⟩ := mappedStart_backed hs
  exact ⟨s, hs, not_roundTrips hb hpages⟩

end Mapped
end MikroKernel
