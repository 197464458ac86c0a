import MikroKernel.Proof.Slab.Cache

/-!
# New caches

`kmem_cache_create` and `kmem_cache_create_sl` compute the numbers of a cache and make its three
lists empty. A cache they return has the numbers a `Geometry` asks for, provided its objects are at
least as large as the pointer a free one holds and its slabs at most as large as the largest buddy
block; `__init_slab` makes eight that meet both.
-/

set_option autoImplicit false

namespace MikroKernel
namespace Slab

open Circular

variable {L : Layout} {m : Mem} {cache off size align n : Nat}

/-! ## The numbers -/

/-- The alignment is the lowest set bit of the size, or 16. -/
theorem calcObjectAlign_cases (h0 : size ≠ 0) (hlt : size < 2 ^ 64)
    (h : calcObjectAlign size = some align) :
    align ∣ size ∧ (align = 1 ∨ align = 2 ∨ align = 4 ∨ align = 8 ∨ align = 16) := by
  unfold calcObjectAlign at h
  rw [if_neg h0] at h
  simp only [Option.some.injEq] at h
  by_cases hd : size % 2 ^ 4 = 0
  · -- a multiple of 16: the lowest bit is 16 or more
    have hz : (size &&& (2 ^ 64 - size)) % 2 ^ 4 = 0 := by
      rw [Nat.and_mod_two_pow, hd, Nat.zero_and]
    have hne := Bits.lowest_ne_zero h0 hlt
    rw [if_neg (by omega)] at h
    subst h
    exact ⟨Nat.dvd_of_mod_eq_zero hd, by omega⟩
  · rw [Bits.lowest_of_not_dvd hlt (by omega) hd] at h
    have hr : size % 2 ^ 4 < 16 := Nat.mod_lt _ (by omega)
    have hdvd : ∀ {k}, k ∣ 16 → size % 2 ^ 4 % k = 0 → k ∣ size := by
      intro k hk hz
      rw [show (2 : Nat) ^ 4 = 16 from rfl, Nat.mod_mod_of_dvd _ hk] at hz
      exact Nat.dvd_of_mod_eq_zero hz
    generalize size % 2 ^ 4 = r at h hd hr hdvd
    interval_cases r <;> simp at h hd <;> subst h <;>
      exact ⟨hdvd (by decide) (by decide), by decide⟩

/-- Where the first slot starts, for the alignments there are. -/
theorem firstObjectOffset_spec
    (h : align = 1 ∨ align = 2 ∨ align = 4 ∨ align = 8 ∨ align = 16) :
    descriptorSize ≤ firstObjectOffset align ∧ firstObjectOffset align ≤ 48 ∧
      align ∣ firstObjectOffset align ∧ align ∣ pageSize := by
  rcases h with rfl | rfl | rfl | rfl | rfl <;> decide

/-- **The numbers of a new cache fit together.** -/
theorem exists_geometry {order : Nat} (h8 : 8 ≤ size) (hlt : size < 2 ^ 64) (hord : order ≤ 10)
    (hal : calcObjectAlign size = some align)
    (hn : calcObjectsPerSlab size align order = some n) :
    ∃ g : Geometry, g.size = size ∧ g.align = align ∧ g.order = order ∧ g.per = n % 2 ^ 32 := by
  obtain ⟨hdvd, hcases⟩ := calcObjectAlign_cases (by omega) hlt hal
  obtain ⟨h40, h48, hoff, hpage⟩ := firstObjectOffset_spec hcases
  have hle : 2 ^ order ≤ 2 ^ 10 := Nat.pow_le_pow_right (by omega) hord
  have hpos : 0 < 2 ^ order := Nat.two_pow_pos order
  obtain ⟨total, htotal⟩ : ∃ total, total = pageSize * 2 ^ order := ⟨_, rfl⟩
  have hbound : 4096 ≤ total ∧ total ≤ 2 ^ 22 := by
    rw [htotal]
    unfold pageSize
    omega
  have hrem : sub64 (sub64 (throughInt total) descriptorSize) (calcAlignment align)
      = total - firstObjectOffset align := by
    unfold throughInt sub64 calcAlignment
    unfold descriptorSize at *
    rw [if_pos (by omega)]
    omega
  unfold calcObjectsPerSlab at hn
  rw [← htotal] at hn
  simp only [hrem] at hn
  split at hn
  · exact absurd hn (by simp)
  · rename_i hge
    rw [Option.some.injEq] at hn
    subst hn
    have hmul := Nat.div_mul_le_self (total - firstObjectOffset align) size
    have hsmall : (total - firstObjectOffset align) / size < 2 ^ 32 := by
      refine Nat.lt_of_le_of_lt (Nat.div_le_self _ _) ?_
      omega
    have hmod := Nat.mod_eq_of_lt hsmall
    refine ⟨{
      size := size
      align := align
      order := order
      per := (total - firstObjectOffset align) / size % 2 ^ 32
      offset := firstObjectOffset align
      offset_eq := rfl
      order_le := hord
      per_ge := by rw [hmod]; omega
      per_lt := Nat.mod_lt _ (by omega)
      size_ge := h8
      offset_ge := h40
      fits := ?_
      align_size := hdvd
      align_offset := hoff
      align_page := hpage }, rfl, rfl, rfl, rfl⟩
    rw [hmod]
    unfold slabBytes
    rw [← htotal]
    omega

/-! ## The stores -/

/-- The memory after a successful creation. -/
def created (m : Mem) (cache size align n : Nat) : Mem :=
  let m := ((m.set cache .objectSize size).set cache .objectAlign align).set cache .slabOrder
    (calcSlabOrder size % 2 ^ 8)
  let m := m.set cache .objectsPerSlab (n % 2 ^ 32)
  let m := (m.set (freeSlabs cache) .listNext (freeSlabs cache)).set (freeSlabs cache) .listPrev
    (freeSlabs cache)
  let m := (m.set (partialSlabs cache) .listNext (partialSlabs cache)).set (partialSlabs cache)
    .listPrev (partialSlabs cache)
  (m.set (fullSlabs cache) .listNext (fullSlabs cache)).set (fullSlabs cache) .listPrev
    (fullSlabs cache)

/-- `kmem_cache_create` with numbers to be had. -/
theorem kmemCacheCreate_edits (himg : ∀ i, i < cacheSize → L.image (cache + i) = true)
    (hal : calcObjectAlign size = some align)
    (hn : calcObjectsPerSlab size align (calcSlabOrder size % 2 ^ 8) = some n) :
    Edits L off (kmemCacheCreate cache size) m cache (created m cache size align n) := by
  have h0 : L.image cache = true := himg 0 (by decide)
  have hf : L.image (freeSlabs cache) = true := himg 24 (by decide)
  have hp : L.image (partialSlabs cache) = true := himg 40 (by decide)
  have hu : L.image (fullSlabs cache) = true := himg 56 (by decide)
  unfold kmemCacheCreate created
  rw [hal]
  refine Edits.bind (Edits.store h0) (Edits.bind (Edits.store h0) (Edits.bind (Edits.store h0) ?_))
  simp only [hn]
  refine Edits.bind (Edits.store h0) ?_
  have hlists : ∀ m₁, Edits L off (emptyLists cache) m₁ () _ := fun m₁ =>
    Edits.bind (Edits.bind (Edits.store hf) (Edits.store hf))
      (Edits.bind (Edits.bind (Edits.store hp) (Edits.store hp))
        (Edits.bind (Edits.store hu) (Edits.store hu)))
  exact Edits.bind (hlists _) (Edits.pure _)

theorem created_frame {a : Nat} {f : Field} (h : a < cache ∨ cache + cacheSize ≤ a) :
    created m cache size align n a f = m a f := by
  unfold cacheSize at h
  unfold created freeSlabs partialSlabs fullSlabs
  repeat rw [Mem.set_ne (Or.inl (by omega))]

theorem created_spares {a : Nat} {f : Field} (h : slabField f = false) :
    created m cache size align n a f = m a f := by
  have hne : ∀ g, slabField g = true → f ≠ g := by
    rintro g hg rfl
    exact absurd (h.symm.trans hg) (by decide)
  unfold created
  rw [Mem.set_ne (Or.inr (hne _ rfl)), Mem.set_ne (Or.inr (hne _ rfl)),
    Mem.set_ne (Or.inr (hne _ rfl)), Mem.set_ne (Or.inr (hne _ rfl)),
    Mem.set_ne (Or.inr (hne _ rfl)), Mem.set_ne (Or.inr (hne _ rfl)),
    Mem.set_ne (Or.inr (hne _ rfl)), Mem.set_ne (Or.inr (hne _ rfl)),
    Mem.set_ne (Or.inr (hne _ rfl)), Mem.set_ne (Or.inr (hne _ rfl))]

/-- **A new cache is an empty one.** -/
theorem CacheMem.created {g : Geometry} (himg : ∀ i, i < cacheSize → L.image (cache + i) = true)
    (hsize : g.size = size) (halign : g.align = align)
    (horder : g.order = calcSlabOrder size % 2 ^ 8) (hper : g.per = n % 2 ^ 32) :
    CacheMem L (created m cache size align n) g cache (fun _ => []) (fun _ => []) [] := by
  refine ⟨himg, ?_, ?_, ?_, ?_, ⟨?_, by simp, ?_, by simp⟩, by simp, by simp, by simp, by simp,
    by simp, List.nodup_nil⟩
  · simp [Slab.created, Mem.set_apply, hsize]
  · simp [Slab.created, Mem.set_apply, halign]
  · simp [Slab.created, Mem.set_apply, horder]
  · simp [Slab.created, Mem.set_apply, hper]
  · intro i
    cases i <;> refine Ring.empty ?_ ?_ <;>
      simp [Slab.created, Mem.set_apply, SlabList.sentinel, freeSlabs, partialSlabs, fullSlabs]
  · intro i
    cases i
    · exact himg 24 (by decide)
    · exact himg 40 (by decide)
    · exact himg 56 (by decide)

/-! ## `kmem_cache_create_sl` -/

/-- A lock that could be acquired was free. -/
theorem free_of_acquired {s s' : KState} {id : LockId}
    (h : spinlockAcquire id L s = .ok ((), s')) : (s.lock id).Free ∧ s' = s.acquired id := by
  by_cases hfree : (s.lock id).Free
  · rw [spinlockAcquire_free hfree, Except.ok.injEq, Prod.mk.injEq] at h
    exact ⟨hfree, h.2.symm⟩
  · have : spinlockAcquire id L s = .error .spin := if_neg (fun he => hfree he.symm)
    rw [this] at h
    exact absurd h (by simp)

/-- With numbers to be had, `kmem_cache_create_sl` is `kmem_cache_create` under the lock. -/
theorem kmemCacheCreateSl_eq (hal : calcObjectAlign size = some align)
    (hn : calcObjectsPerSlab size align (calcSlabOrder size % 2 ^ 8) = some n) :
    kmemCacheCreateSl cache size = locked .slabLock (kmemCacheCreate cache size) := by
  simp only [kmemCacheCreateSl, locked, kmemCacheCreate, hal, hn, K.bind_assoc', K.pure_bind']

/-- **A cache that `kmem_cache_create_sl` returned** was created under the lock, with numbers that
the two computations gave. -/
theorem kmemCacheCreateSl_returned {s s' : KState} {p : Nat}
    (himg : ∀ i, i < cacheSize → L.image (cache + i) = true)
    (h : kmemCacheCreateSl cache size L s = .ok (p, s')) (hp : p ≠ 0) :
    ∃ align n, calcObjectAlign size = some align ∧
      calcObjectsPerSlab size align (calcSlabOrder size % 2 ^ 8) = some n ∧
      s'.mem = created s.mem cache size align n ∧ (s.lock .slabLock).Free ∧ Quiet s s' := by
  have h0 : L.image cache = true := himg 0 (by decide)
  obtain ⟨⟨⟩, s₁, hacq, hrest⟩ := K.bind_eq_ok.mp h
  obtain ⟨hfree, -⟩ := free_of_acquired hacq
  rw [K.bind_ok (store_image h0)] at hrest
  cases hal : calcObjectAlign size with
  | none =>
    rw [hal] at hrest
    simp only [K.bind_ok (store_image h0), K.pure_apply, Except.ok.injEq, Prod.mk.injEq] at hrest
    exact absurd hrest.1.symm hp
  | some align =>
    simp only [hal] at hrest
    rw [K.bind_ok (store_image h0), K.bind_ok (store_image h0)] at hrest
    cases hn : calcObjectsPerSlab size align (calcSlabOrder size % 2 ^ 8) with
    | none =>
      simp only [hn, K.pure_apply, Except.ok.injEq, Prod.mk.injEq] at hrest
      exact absurd hrest.1.symm hp
    | some n =>
      rw [kmemCacheCreateSl_eq hal hn] at h
      obtain ⟨s₂, hrun, hm, hq⟩ := Edits.locked hfree (kmemCacheCreate_edits himg hal hn)
      rw [hrun, Except.ok.injEq, Prod.mk.injEq] at h
      obtain ⟨-, rfl⟩ := h
      exact ⟨align, n, rfl, hn, hm, hfree, hq⟩

/-! ## `__init_slab` -/

/-- The sizes `__init_slab` asks for have numbers, and their caches come one after the other. -/
theorem initSlab_sizes {pow : Nat} (h4 : 4 ≤ pow) (h12 : pow < 12) :
    sizeToIndex (2 ^ pow) = pow - 4 ∧ calcSlabOrder (2 ^ pow) % 2 ^ 8 ≤ 10 ∧
      ∃ align n, calcObjectAlign (2 ^ pow) = some align ∧
        calcObjectsPerSlab (2 ^ pow) align (calcSlabOrder (2 ^ pow) % 2 ^ 8) = some n := by
  interval_cases pow <;> exact ⟨by decide, by decide, _, _, rfl, rfl⟩

/-- The loop: the caches from index `pow - 4` on are created, the others are not touched. -/
theorem initSlabLoop_edits {slabCaches : Nat} (off : Nat)
    (himg : ∀ i, i < cacheSize * 8 → L.image (slabCaches + i) = true) :
    ∀ {k pow : Nat} {m : Mem}, 4 ≤ pow → pow + k = 12 →
      ∃ m', Edits L off (initSlabLoop slabCaches k pow) m .ok m' ∧
        (∀ a f, a < slabCache slabCaches (pow - 4) ∨ slabCache slabCaches 8 ≤ a → m' a f = m a f) ∧
        (∀ a f, slabField f = false → m' a f = m a f) ∧
        ∀ i, pow - 4 ≤ i → i < 8 → ∃ g : Geometry, g.size = 2 ^ (i + 4) ∧
          CacheMem L m' g (slabCache slabCaches i) (fun _ => []) (fun _ => []) [] := by
  intro k
  induction k with
  | zero =>
    intro pow m _ hk
    exact ⟨m, Edits.pure _, fun _ _ _ => rfl, fun _ _ _ => rfl, fun i h1 h2 => by omega⟩
  | succ k ih =>
    intro pow m h4 hk
    obtain ⟨hidx, hord, align, n, hal, hn⟩ := initSlab_sizes h4 (show pow < 12 by omega)
    obtain ⟨cache, hcache⟩ : ∃ cache, cache = slabCache slabCaches (pow - 4) := ⟨_, rfl⟩
    have hnext : cache + cacheSize = slabCache slabCaches (pow + 1 - 4) := by
      rw [hcache]
      unfold slabCache cacheSize
      omega
    have himg' : ∀ i, i < cacheSize → L.image (cache + i) = true := by
      intro i hi
      have := himg (cacheSize * (pow - 4) + i) (by unfold cacheSize at *; omega)
      rw [hcache]
      unfold slabCache
      rwa [Nat.add_assoc]
    have hpow : 2 ^ 4 ≤ 2 ^ pow ∧ 2 ^ pow < 2 ^ 64 :=
      ⟨Nat.pow_le_pow_right (by omega) h4, Nat.pow_lt_pow_right (by omega) (by omega)⟩
    obtain ⟨g, hsize, halign, horder, hper⟩ := exists_geometry (by omega) hpow.2 hord hal hn
    have hnew : CacheMem L (created m cache (2 ^ pow) align n) g cache (fun _ => []) (fun _ => [])
        [] := CacheMem.created himg' hsize halign horder hper
    obtain ⟨m', hedit, hframe, hspare, hrest⟩ := ih (m := created m cache (2 ^ pow) align n)
      (show 4 ≤ pow + 1 by omega) (by omega)
    rw [← hnext] at hframe
    refine ⟨m', ?_, fun a f ha => ?_, fun a f hf => (hspare a f hf).trans (created_spares hf),
      fun i h1 h2 => ?_⟩
    · unfold initSlabLoop
      rw [hidx, ← hcache]
      refine Edits.bind (kmemCacheCreate_edits himg' hal hn) (Edits.ite_neg ?_ hedit)
      have := L.image_ge _ (himg' 0 (by decide))
      unfold pml4KernelHalfBase at this
      omega
    · rw [← hcache] at ha
      have hend : cache + cacheSize ≤ slabCache slabCaches 8 := by
        rw [hnext]
        unfold slabCache cacheSize
        omega
      rw [hframe a f (by omega), created_frame (by omega)]
    · rcases Nat.eq_or_lt_of_le h1 with rfl | hlt
      · refine ⟨g, by rw [hsize, Nat.sub_add_cancel h4], ?_⟩
        rw [← hcache]
        exact hnew.frame (fun a f _ ha => hframe a f (Or.inl ha))
          (fun i d hd => absurd hd (by simp))
      · exact hrest i (by omega) h2

theorem initSlab_eq (slabCaches : Nat) (s : KState) :
    initSlab slabCaches L s = initSlabLoop slabCaches 8 4 L
    { s with lock := Function.update s.lock .slabLock Spinlock.init } := rfl

/-- **`__init_slab` returns**, if its caches are in the image. -/
theorem initSlab_returns {slabCaches : Nat}
    (himg : ∀ i, i < cacheSize * 8 → L.image (slabCaches + i) = true) (s : KState) :
    ∃ s', initSlab slabCaches L s = .ok (.ok, s') := by
  obtain ⟨m', hedit, -⟩ := initSlabLoop_edits s.physMapOffset (m := s.mem) himg
    (show 4 ≤ 4 by omega)
    (show 4 + 8 = 12 by omega)
  rw [initSlab_eq]
  exact ⟨_, hedit _ rfl rfl⟩

/-- **The caches of `__init_slab`** are empty ones. -/
theorem initSlab_returned {slabCaches i : Nat} {s s' : KState} {st : Status}
    (himg : ∀ i, i < cacheSize * 8 → L.image (slabCaches + i) = true)
    (h : initSlab slabCaches L s = .ok (st, s')) (hi : i < 8) :
    ∃ g : Geometry, g.size = 2 ^ (i + 4) ∧
      CacheMem L s'.mem g (slabCache slabCaches i) (fun _ => []) (fun _ => []) [] ∧
      (s'.lock .slabLock).Free ∧ s'.physMapOffset = s.physMapOffset := by
  obtain ⟨m', hedit, -, -, hcaches⟩ := initSlabLoop_edits s.physMapOffset (m := s.mem)
    himg (show 4 ≤ 4 by omega) (show 4 + 8 = 12 by omega)
  have hrun := hedit { s with lock := Function.update s.lock .slabLock Spinlock.init } rfl rfl
  rw [initSlab_eq, hrun, Except.ok.injEq, Prod.mk.injEq] at h
  obtain ⟨-, rfl⟩ := h
  obtain ⟨g, hsize, hmem⟩ := hcaches i (by omega) hi
  refine ⟨g, hsize, hmem, ?_, rfl⟩
  simp [Spinlock.Free, Spinlock.init]

/-- The first addresses of the small image, as the static caches. -/
theorem smallLayout_caches : ∀ i, i < cacheSize * 8 → smallLayout.image (kernelImageStart + i)
    = true := by
  intro i hi
  apply decide_eq_true
  refine ⟨Nat.le_add_right _ _, ?_⟩
  unfold cacheSize at hi
  unfold kernelImageStart metadataSpan
  omega

end Slab
end MikroKernel
