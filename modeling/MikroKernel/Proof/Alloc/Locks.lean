import MikroKernel.Alloc.Mapped
import MikroKernel.Machine.Calm
import MikroKernel.Proof.Slab.Accepted

/-!
# The locks of the allocators

Every function of the allocators takes and releases its locks in pairs, so it is `Calm`, but for
`kmem_cache_create_sl`: its two early returns are inside the critical section and keep `slab_lock`.
`locks_free_iff` is what that means for a sequence of calls.
-/

set_option autoImplicit false
-- the instance for a section has one part for each of its statements
set_option synthInstance.maxSize 1000

namespace MikroKernel
namespace Locks

/-! ## The buddy allocator -/

instance : Plain kernelEnd := ⟨fun _ _ => rfl⟩

instance (size : Nat) : Plain (selectOrder size) := by
  unfold selectOrder
  cases orderLoop size 64 0 with
  | some order => infer_instance
  | none => exact ⟨fun _ _ => by simp [PlainAt]⟩

instance (bitmap byteIdx bitOffset : Nat) : Plain (toggleSection bitmap byteIdx bitOffset) := by
  unfold toggleSection
  infer_instance

instance (addr order : Nat) : Calm (toggleBitmap addr order) := by
  unfold toggleBitmap
  infer_instance

instance (freeLists chunk level : Nat) : Plain (splitStep freeLists chunk level) := by
  unfold splitStep
  dsimp only
  infer_instance

instance (freeLists chunk order level : Nat) : Plain (splitLoop freeLists chunk order level) := by
  induction level with
  | zero => exact Plain.pure ()
  | succ level ih =>
    unfold splitLoop
    infer_instance

instance (idx order : Nat) : Plain (popSection idx order) := by
  unfold popSection
  dsimp only
  infer_instance

instance (order n idx : Nat) : Calm (kallocLoop order n idx) := by
  induction n generalizing idx with
  | zero => exact Calm.ofPlain (pure 0)
  | succ n ih =>
    unfold kallocLoop
    infer_instance

instance (size : Nat) : Calm (buddyKalloc size) := by
  unfold buddyKalloc
  infer_instance

instance (buddy chunk order : Nat) : Plain (unlinkSection buddy chunk order) := by
  unfold unlinkSection
  dsimp only
  infer_instance

instance (n chunk order : Nat) : Calm (mergeLoop n chunk order) := by
  induction n generalizing chunk order with
  | zero => exact Calm.ofPlain (pure (chunk, order))
  | succ n ih =>
    unfold mergeLoop
    infer_instance

instance (block order : Nat) : Plain (insertSection block order) := by
  unfold insertSection
  dsimp only
  infer_instance

instance (chunk size : Nat) : Calm (buddyKfree chunk size) := by
  unfold buddyKfree
  dsimp only
  infer_instance

/-! ## The slab allocator -/

instance (cache : Nat) : Plain (emptyLists cache) := by
  unfold emptyLists emptyList
  infer_instance

instance (cache size : Nat) : Plain (kmemCacheCreate cache size) := by
  unfold kmemCacheCreate
  cases calcObjectAlign size with
  | none => infer_instance
  | some align =>
    cases hn : calcObjectsPerSlab size align (calcSlabOrder size % 2 ^ 8) with
    | none =>
      simp only [hn]
      infer_instance
    | some n =>
      simp only [hn]
      infer_instance

instance (node : Nat) : Plain (unlinkNode node) := by
  unfold unlinkNode
  infer_instance

instance (sentinel node : Nat) : Plain (insertFront sentinel node) := by
  unfold insertFront
  infer_instance

instance (sentinel node : Nat) : Plain (moveNode sentinel node) := by
  unfold moveNode
  infer_instance

instance (first objectSize perSlab left idx : Nat) :
    Plain (threadLoop first objectSize perSlab left idx) := by
  induction left generalizing idx with
  | zero => exact Plain.pure ()
  | succ left ih =>
    unfold threadLoop
    dsimp only
    infer_instance

instance (cache : Nat) : Calm (kmemCacheGrow buddyKalloc cache) := by
  unfold kmemCacheGrow
  dsimp only
  infer_instance

instance (cache : Nat) : Plain (pickSlab cache) := by
  unfold pickSlab
  infer_instance

instance (cache desc : Nat) : Plain (popObject cache desc) := by
  unfold popObject
  dsimp only
  infer_instance

instance (cache : Nat) : Plain (firstSection cache) := by
  unfold firstSection
  refine @Plain.bind _ _ _ _ inferInstance (fun r => ?_)
  cases r <;> infer_instance

instance (cache : Nat) (status : Status) : Plain (secondSection cache status) := by
  unfold secondSection grownSlab
  infer_instance

instance (cache : Nat) : Calm (kmemCacheKalloc buddyKalloc cache) := by
  unfold kmemCacheKalloc
  refine @Calm.bind _ _ _ _ inferInstance (fun r => ?_)
  cases r <;> infer_instance

instance (cache object : Nat) : Plain (freeSection cache object) := by
  unfold freeSection
  dsimp only
  infer_instance

instance (cache object : Nat) : Calm (kmemCacheKfree cache object) := by
  unfold kmemCacheKfree
  infer_instance

instance (slabCaches size : Nat) : Calm (slabKalloc buddyKalloc slabCaches size) := by
  unfold slabKalloc
  infer_instance

instance (slabCaches object size : Nat) : Calm (slabKfree slabCaches object size) := by
  unfold slabKfree
  infer_instance

instance (slabCaches size : Nat) (flg : AllocFlag) : Calm (physKmalloc slabCaches size flg) := by
  unfold physKmalloc
  cases flg <;> infer_instance

instance (slabCaches ptr size : Nat) (flg : AllocFlag) :
    Calm (physKfree slabCaches ptr size flg) := by
  unfold physKfree
  cases flg <;> infer_instance

/-! ## `kmem_cache_create_sl` -/

/-- The size is one a cache can be made for: `calc_object_align` and `calc_objects_per_slab` both
find an answer. -/
def Fits (size : Nat) : Prop :=
  (calcObjectAlign size).any fun align =>
    (calcObjectsPerSlab size align (calcSlabOrder size % 2 ^ 8)).isSome

instance (size : Nat) : Decidable (Fits size) := inferInstanceAs (Decidable (_ = true))

/-- **Which sizes these are.** Eight objects and 56 bytes have to come to less than 4GB where the 32
bits the order is computed in say that they come to 1GB at most; where they say more, any size below
`2 ^ 61` will do. -/
theorem fits_iff {size : Nat} (hlt : size < 2 ^ 64) : Fits size ↔ size ≠ 0 ∧ size < 2 ^ 61 ∧
    ((8 * size + 4151) % 2 ^ 32 < 2 ^ 30 + 4096 → 8 * size + 4151 < 2 ^ 32) := by
  refine Iff.trans ?_ (Slab.accepted_iff hlt)
  unfold Fits
  rw [Slab.calcSlabOrder_mod, Option.any_eq_true]
  simp only [Option.isSome_iff_exists, exists_and_left]

/-- For such a size the function is a critical section. -/
theorem createSl_of_fits {cache size : Nat} (h : Fits size) :
    kmemCacheCreateSl cache size = locked .slabLock (kmemCacheCreate cache size) := by
  obtain ⟨align, ha, hsome⟩ := (Option.any_eq_true _ _).mp h
  obtain ⟨n, hn⟩ := Option.isSome_iff_exists.mp hsome
  unfold kmemCacheCreateSl locked kmemCacheCreate
  simp only [ha, hn, K.bind_assoc', K.pure_bind']

/-- **For any other size the section is never left.** -/
theorem createSl_of_not_fits {cache size : Nat} (h : ¬ Fits size) :
    kmemCacheCreateSl cache size = (do
      spinlockAcquire .slabLock
      kmemCacheCreate cache size) := by
  unfold kmemCacheCreateSl kmemCacheCreate
  cases ha : calcObjectAlign size with
  | none => rfl
  | some align =>
    cases hn : calcObjectsPerSlab size align (calcSlabOrder size % 2 ^ 8) with
    | none => simp only [hn]
    | some n =>
      have hsome := Option.isSome_iff_exists.mpr ⟨n, hn⟩
      exact absurd ((Option.any_eq_true _ _).mpr ⟨align, ha, hsome⟩) h

theorem calm_createSl (cache : Nat) {size : Nat} (h : Fits size) :
    Calm (kmemCacheCreateSl cache size) := by
  rw [createSl_of_fits h]
  infer_instance

/-! ## Sequences of calls -/

/-- A call of an exported function of the allocators. -/
inductive Call
  | buddyKalloc (size : Nat)
  | buddyKfree (chunk size : Nat)
  | kmemCacheCreateSl (cache size : Nat)
  | kmemCacheKalloc (cache : Nat)
  | kmemCacheKfree (cache object : Nat)
  | slabKalloc (size : Nat)
  | slabKfree (object size : Nat)
  | physKmalloc (size : Nat) (flg : AllocFlag)
  | physKfree (ptr size : Nat) (flg : AllocFlag)
deriving DecidableEq, Repr

/-- The call, without its result. -/
def Call.run (slabCaches : Nat) : Call → K Unit
  | .buddyKalloc size => do let _ ← MikroKernel.buddyKalloc size
  | .buddyKfree chunk size => MikroKernel.buddyKfree chunk size
  | .kmemCacheCreateSl cache size => do let _ ← MikroKernel.kmemCacheCreateSl cache size
  | .kmemCacheKalloc cache => do let _ ← MikroKernel.kmemCacheKalloc MikroKernel.buddyKalloc cache
  | .kmemCacheKfree cache object => MikroKernel.kmemCacheKfree cache object
  | .slabKalloc size => do
      let _ ← MikroKernel.slabKalloc MikroKernel.buddyKalloc slabCaches size
  | .slabKfree object size => MikroKernel.slabKfree slabCaches object size
  | .physKmalloc size flg => do let _ ← MikroKernel.physKmalloc slabCaches size flg
  | .physKfree ptr size flg => MikroKernel.physKfree slabCaches ptr size flg

/-- One call after another. -/
def runCalls (slabCaches : Nat) : List Call → K Unit
  | [] => pure ()
  | c :: calls => do
      c.run slabCaches
      runCalls slabCaches calls

/-- The condition on a call: if it makes a cache, it is for a size that fits. -/
def Call.Fits : Call → Prop
  | .kmemCacheCreateSl _ size => Locks.Fits size
  | _ => True

variable {L : Layout} {slabCaches : Nat} {s s' : KState} {c : Call} {calls : List Call}

theorem Call.calm (slabCaches : Nat) (h : c.Fits) : Calm (c.run slabCaches) := by
  cases c with
  | kmemCacheCreateSl cache size =>
    have := calm_createSl cache h
    unfold Call.run
    infer_instance
  | _ =>
    unfold Call.run
    infer_instance

/-- A call for another size takes `slab_lock` and keeps it. -/
theorem Call.acquires (h : ¬ c.Fits) (hrun : c.run slabCaches L s = .ok ((), s')) :
    (s.lock .slabLock).Free ∧ (s'.lock .slabLock).Held := by
  cases c with
  | kmemCacheCreateSl cache size =>
    obtain ⟨r, s₁, hcall, hret⟩ := K.bind_eq_ok.mp hrun
    obtain rfl : s₁ = s' := (Prod.mk.inj (Except.ok.inj hret)).2
    rw [createSl_of_not_fits h] at hcall
    obtain ⟨⟨⟩, s₂, hacq, hcreate⟩ := K.bind_eq_ok.mp hcall
    by_cases hfree : (s.lock .slabLock).Free
    · rw [spinlockAcquire_free hfree] at hacq
      obtain rfl : s.acquired .slabLock = s₂ := (Prod.mk.inj (Except.ok.inj hacq)).2
      refine ⟨hfree, ?_⟩
      rw [Plain.result hcreate]
      unfold Spinlock.Free at hfree
      simp [Spinlock.Held, KState.acquired, Spinlock.enter, Spinlock.xadd, hfree]
    · rw [spinlockAcquire_not_free hfree] at hacq
      exact absurd hacq (by simp)
  | _ => exact absurd trivial h

/-- **`slab_lock` stays held**: a call that needs it does not return. -/
theorem Call.held (hs : (s.lock .slabLock).Held) (hrun : c.run slabCaches L s = .ok ((), s')) :
    (s'.lock .slabLock).Held := by
  by_cases h : c.Fits
  · have := Call.calm slabCaches h
    exact (Calm.result hrun).held _ hs
  · exact (Call.acquires h hrun).2

theorem runCalls_held (hs : (s.lock .slabLock).Held)
    (hrun : runCalls slabCaches calls L s = .ok ((), s')) : (s'.lock .slabLock).Held := by
  induction calls generalizing s with
  | nil =>
    obtain rfl : s = s' := (Prod.mk.inj (Except.ok.inj hrun)).2
    exact hs
  | cons c calls ih =>
    obtain ⟨⟨⟩, s₁, hc, hrest⟩ := K.bind_eq_ok.mp hrun
    exact ih (c.held hs hc) hrest

theorem runCalls_calm (slabCaches : Nat) (h : ∀ c ∈ calls, c.Fits) :
    Calm (runCalls slabCaches calls) := by
  induction calls with
  | nil => exact Calm.ofPlain (pure ())
  | cons c calls ih =>
    have := Call.calm slabCaches (h c List.mem_cons_self)
    have := ih (fun c hc => h c (List.mem_cons_of_mem _ hc))
    unfold runCalls
    infer_instance

/-- **When the locks are balanced.** From a state with both locks free, a sequence of calls that has
returned has left both free if and only if each cache it made was for a size that fits; and then
none of its calls waits for a lock for ever. Each beginning of a sequence is a sequence, so this is
about the state after every call. -/
theorem locks_free_iff (hs : Unlocked s) :
    (∀ s', runCalls slabCaches calls L s = .ok ((), s') →
      (Unlocked s' ↔ ∀ c ∈ calls, c.Fits)) ∧
    ((∀ c ∈ calls, c.Fits) → runCalls slabCaches calls L s ≠ .error .spin) := by
  constructor
  · intro s' hrun
    constructor
    · intro hu
      by_contra hall
      -- the first call that does not fit keeps the lock
      induction calls generalizing s with
      | nil => exact hall (fun c hc => absurd hc List.not_mem_nil)
      | cons c calls ih =>
        obtain ⟨⟨⟩, s₁, hc, hrest⟩ := K.bind_eq_ok.mp hrun
        by_cases hfit : c.Fits
        · have := Call.calm slabCaches hfit
          refine ih ((Calm.result hc).unlocked hs) hrest (fun hall' => hall ?_)
          exact List.forall_mem_cons.mpr ⟨hfit, hall'⟩
        · exact (runCalls_held (Call.acquires hfit hc).2 hrest).not_free hu.slab
    · intro hall
      have := runCalls_calm slabCaches hall
      exact (Calm.result hrun).unlocked hs
  · intro hall
    have := runCalls_calm slabCaches hall
    exact Calm.ne_spin hs

/-! ### On the small machine -/

/-- The state `__init_buddy` leaves there. -/
def smallReady : KState :=
  match initBuddy [⟨0x400000, 0x400000, 1⟩] smallLayout bootState with
  | .ok ((), s) => s
  | .error _ => bootState

/-- A page, a cache, an object of it and back, a request that is too large, and the page back. -/
def mixedCalls : List Call :=
  [.buddyKalloc 4096, .kmemCacheCreateSl 0xFFFFFFFF80100000 512,
    .kmemCacheKalloc 0xFFFFFFFF80100000, .kmemCacheKfree 0xFFFFFFFF80100000 0x402030,
    .buddyKalloc 0x800000, .buddyKfree 0x400000 4096]

/-- The same, and then a cache for objects of no size. -/
def failingCalls : List Call := mixedCalls ++ [.kmemCacheCreateSl 0xFFFFFFFF80100048 0]

theorem smallReady_unlocked : Unlocked smallReady := by
  constructor
  · show ((smallReady.lock .buddyLock).ticket = (smallReady.lock .buddyLock).serving)
    decide +kernel
  · show ((smallReady.lock .slabLock).ticket = (smallReady.lock .slabLock).serving)
    decide +kernel

theorem mixedCalls_return :
    (runCalls kernelImageStart mixedCalls smallLayout smallReady).toOption.isSome ∧
    (runCalls kernelImageStart failingCalls smallLayout smallReady).toOption.isSome := by
  decide +kernel

theorem locks_free_iff_mixed : ∃ s₁ s₂,
    runCalls kernelImageStart mixedCalls smallLayout smallReady = .ok ((), s₁) ∧ Unlocked s₁ ∧
    runCalls kernelImageStart failingCalls smallLayout smallReady = .ok ((), s₂) ∧
    ¬ Unlocked s₂ := by
  obtain ⟨⟨⟨⟩, s₁⟩, h₁⟩ := Option.isSome_iff_exists.mp mixedCalls_return.1
  obtain ⟨⟨⟨⟩, s₂⟩, h₂⟩ := Option.isSome_iff_exists.mp mixedCalls_return.2
  have hrun₁ := toOption_ok h₁
  have hrun₂ := toOption_ok h₂
  refine ⟨s₁, s₂, hrun₁, ((locks_free_iff smallReady_unlocked).1 s₁ hrun₁).mpr (fun c hc => ?_),
    hrun₂, fun hu => ?_⟩
  · unfold mixedCalls at hc
    simp only [List.mem_cons, List.not_mem_nil, or_false] at hc
    rcases hc with rfl | rfl | rfl | rfl | rfl | rfl
    case inr.inl => exact show Locks.Fits 512 by decide
    all_goals trivial
  · have hall := ((locks_free_iff smallReady_unlocked).1 s₂ hrun₂).mp hu
    have h0 : Locks.Fits 0 :=
      hall (.kmemCacheCreateSl 0xFFFFFFFF80100048 0) (by unfold failingCalls; simp)
    exact absurd h0 (by decide)

/-- **The call fails and keeps the lock**, and the next one waits for ever. -/
theorem slab_lock_kept : ∃ s',
    runCalls kernelImageStart [.kmemCacheCreateSl kernelImageStart 0] smallLayout bootState
      = .ok ((), s') ∧ ¬ (s'.lock .slabLock).Free ∧
    runCalls kernelImageStart [.kmemCacheCreateSl kernelImageStart 0, .slabKalloc 16] smallLayout
      bootState = .error .spin := by
  exact ⟨_, rfl, fun h => absurd (show (1 : Nat) = 0 from h) (by decide), rfl⟩

end Locks
end MikroKernel
