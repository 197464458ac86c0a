import MikroKernel.Proof.Alloc.GiveBack
import MikroKernel.Proof.Buddy.Runs

/-!
# The sizes a cache can have

Of the sizes that `kmem_cache_create_sl` accepts (`accepted_iff`), those with a slab of order 18 or
less get the right numbers. At the orders 19 and 20 the `int` wraps, and the number of slots comes
out of a division of almost `2 ^ 64`; it is right for two sizes, the ones that divide `2 ^ 32 - 1`
(`wrapped_lucky`). At the other end, objects of less than 8 bytes do not hold the link of a free
slot. `sizeOk_iff` puts the three together.
-/

set_option autoImplicit false

namespace MikroKernel
namespace Slab

open Chain

variable {L : Layout} {m : Mem} {cache size align n order off : Nat}

/-! ## The number of slots -/

/-- At the orders 19 and 20 the `int` has wrapped. -/
theorem throughInt_wrapped (h19 : 19 ≤ order) (h20 : order ≤ 20) :
    throughInt (pageSize * 2 ^ order) + 2 ^ 32 = 2 ^ 64 + pageSize * 2 ^ order ∨
      throughInt (pageSize * 2 ^ order) = 0 ∧ pageSize * 2 ^ order = 2 ^ 32 := by
  interval_cases order
  · exact Or.inl (by decide)
  · exact Or.inr (by decide)

/-- **At the orders 19 and 20** slots that fit are as many as make the size divide `2 ^ 32 - 1`. -/
theorem wrapped_divides (h19 : 19 ≤ order) (h20 : order ≤ 20)
    (hoff : descriptorSize ≤ firstObjectOffset align) (hoff' : firstObjectOffset align ≤ 48)
    (h : calcObjectsPerSlab size align order = some n) (h8 : 8 ≤ n % 2 ^ 32)
    (hfits : firstObjectOffset align + n % 2 ^ 32 * size ≤ pageSize * 2 ^ order) :
    n / 2 ^ 32 * size = 2 ^ 32 - 1 := by
  obtain ⟨hn, -⟩ := calcObjectsPerSlab_some hoff hoff' h
  obtain ⟨foo, hfoo⟩ : ∃ foo, foo = firstObjectOffset align := ⟨_, rfl⟩
  obtain ⟨rem, hrem⟩ :
    ∃ rem, rem = sub64 (throughInt (pageSize * 2 ^ order)) (firstObjectOffset align) := ⟨_, rfl⟩
  have hpos : 0 < size := by
    by_contra hc
    obtain rfl : size = 0 := by omega
    rw [Nat.div_zero] at hn
    omega
  rw [← hrem] at hn
  have hdiv := Nat.div_add_mod rem size
  have hlt := Nat.mod_lt rem hpos
  have hsplit := Nat.div_add_mod n (2 ^ 32)
  -- the slots are those of the quotient and those that are kept
  have hmul : size * n = 2 ^ 32 * (n / 2 ^ 32 * size) + n % 2 ^ 32 * size := by
    conv => lhs; rw [← hsplit]
    ring
  have hbig : 8 * size ≤ n % 2 ^ 32 * size := Nat.mul_le_mul_right size h8
  rw [← hn, hmul] at hdiv
  have htotal : pageSize * 2 ^ order ≤ 2 ^ 32 := by
    have := Nat.pow_le_pow_right (show 0 < 2 by omega) h20
    unfold pageSize
    omega
  have htotal' : rem + foo + 2 ^ 32 = 2 ^ 64 + pageSize * 2 ^ order := by
    unfold descriptorSize at hoff
    rcases throughInt_wrapped h19 h20 with hw | ⟨hw, hp⟩
    · unfold sub64 at hrem
      omega
    · unfold sub64 at hrem
      rw [hw] at hrem
      omega
  unfold descriptorSize at hoff
  generalize n / 2 ^ 32 * size = q at *
  generalize n % 2 ^ 32 * size = kept at *
  generalize rem % size = left at *
  generalize pageSize * 2 ^ order = total at *
  omega

/-- **Two sizes** come out right by luck. -/
theorem wrapped_lucky (hwrap : ¬ SmallSlab size) (hdvd : ∃ q, q * size = 2 ^ 32 - 1)
    (hle : size ≤ 2 ^ 29) :
    size = 252645135 ∨ size = 286331153 := by
  obtain ⟨q, hq⟩ := hdvd
  have hge : 134217722 ≤ size := by
    unfold SmallSlab at hwrap
    omega
  have hq8 : 8 ≤ q := by
    by_contra hc
    have := Nat.mul_le_mul (show q ≤ 7 by omega) hle
    omega
  have hq32 : q ≤ 32 := by
    by_contra hc
    have := Nat.mul_le_mul (show 33 ≤ q by omega) hge
    omega
  interval_cases q <;> omega

/-! ## The numbers of a cache -/

/-- What `kmem_cache_create_sl` computes, where it stores it. -/
structure Numbers where
  size : Nat
  align : Nat
  order : Nat
  per : Nat

def numbersOf (m : Mem) (cache : Nat) : Numbers where
  size := m cache .objectSize
  align := m cache .objectAlign
  order := m cache .slabOrder
  per := m cache .objectsPerSlab

/-- The slab is large enough for its slots. -/
structure Numbers.Fit (c : Numbers) : Prop where
  pow2 : ∃ k, c.align = 2 ^ k
  dvd : c.align ∣ c.size
  per_ge : 8 ≤ c.per
  fits : firstObjectOffset c.align + c.per * c.size ≤ pageSize * 2 ^ c.order

/-- Slot `i` of the slab at `p`. -/
def Numbers.slot (c : Numbers) (p i : Nat) : Nat := p + firstObjectOffset c.align + i * c.size

/-- `sizeof(void*)`. -/
def linkSize : Nat := 8

/-- The free list of the slab at `p` visits `per` distinct slots, and the link of each lies in its
slot and in the slab. -/
def Threads (m : Mem) (c : Numbers) (p : Nat) : Prop :=
  ∃ l, m p .freeList = first l ∧ Threaded (m · .link) l ∧ l.length = c.per ∧ l.Nodup ∧
    ∀ o ∈ l, ∃ i, i < c.per ∧ o = c.slot p i ∧ o + linkSize ≤ c.slot p i + c.size ∧
      o + linkSize ≤ p + pageSize * 2 ^ c.order

/-- The cache that `kmem_cache_create_sl` returns for the size has numbers that fit, and every
growth of it threads the slab as it should. A growth starts in any state in which the cache has
these numbers, and gets a block of installed memory. -/
def SizeOk (size : Nat) : Prop :=
  ∀ (L : Layout) (cache q : Nat) (s s' : KState),
    (∀ i, i < cacheSize → L.image (cache + i) = true) →
    kmemCacheCreateSl cache size L s = .ok (q, s') → q ≠ 0 →
    (numbersOf s'.mem cache).Fit ∧
    ∀ (s₁ s₂ s₃ : KState) (p : Nat), numbersOf s₁.mem cache = numbersOf s'.mem cache →
      View s₁.physMapOffset →
      buddyKalloc (2 ^ (numbersOf s'.mem cache).order * pageSize) L s₁ = .ok (p, s₂) → p ≠ 0 →
      (∀ a, p ≤ a → a < p + pageSize * 2 ^ (numbersOf s'.mem cache).order → L.phys a = true) →
      kmemCacheGrow buddyKalloc cache L s₁ = .ok (.ok, s₃) →
      Threads s₃.mem (numbersOf s'.mem cache) p

theorem created_numbers : numbersOf (created m cache size align n) cache
    = ⟨size, align, calcSlabOrder size, n % 2 ^ 32⟩ := by
  rw [← calcSlabOrder_mod size]
  simp [numbersOf, created, Mem.set_apply, freeSlabs, partialSlabs, fullSlabs]

theorem pow2_of_cases (h : align = 1 ∨ align = 2 ∨ align = 4 ∨ align = 8 ∨ align = 16) :
    ∃ k, align = 2 ^ k := by
  rcases h with rfl | rfl | rfl | rfl | rfl
  · exact ⟨0, rfl⟩
  · exact ⟨1, rfl⟩
  · exact ⟨2, rfl⟩
  · exact ⟨3, rfl⟩
  · exact ⟨4, rfl⟩

/-- The two lucky sizes fit. -/
theorem lucky_fits (h : size = 252645135 ∨ size = 286331153)
    (hal : calcObjectAlign size = some align)
    (hn : calcObjectsPerSlab size align (calcSlabOrder size) = some n) :
    8 ≤ n % 2 ^ 32 ∧ firstObjectOffset align + n % 2 ^ 32 * size
        ≤ pageSize * 2 ^ calcSlabOrder size := by
  rcases h with rfl | rfl
  · obtain rfl : 1 = align :=
      Option.some.inj ((show calcObjectAlign 252645135 = some 1 by decide).symm.trans hal)
    have hper : (calcObjectsPerSlab 252645135 1 (calcSlabOrder 252645135)).map (· % 2 ^ 32)
      = some 8 := by decide
    rw [hn] at hper
    rw [show n % 2 ^ 32 = _ from Option.some.inj hper]
    decide
  · obtain rfl : 1 = align :=
      Option.some.inj ((show calcObjectAlign 286331153 = some 1 by decide).symm.trans hal)
    have hper : (calcObjectsPerSlab 286331153 1 (calcSlabOrder 286331153)).map (· % 2 ^ 32)
      = some 14 := by decide
    rw [hn] at hper
    rw [show n % 2 ^ 32 = _ from Option.some.inj hper]
    decide

/-- **The numbers fit**, below 1GB and at the lucky sizes. -/
theorem numbers_fit (h0 : size ≠ 0) (hlt : size < 2 ^ 64)
    (h : SmallSlab size ∨ size = 252645135 ∨ size = 286331153)
    (hal : calcObjectAlign size = some align)
    (hn : calcObjectsPerSlab size align (calcSlabOrder size) = some n) :
    Numbers.Fit ⟨size, align, calcSlabOrder size, n % 2 ^ 32⟩ := by
  obtain ⟨hdvd, hcases⟩ := calcObjectAlign_cases h0 hlt hal
  obtain ⟨hoff, hoff', -⟩ := firstObjectOffset_spec hcases
  suffices hfit : 8 ≤ n % 2 ^ 32 ∧
      firstObjectOffset align + n % 2 ^ 32 * size ≤ pageSize * 2 ^ calcSlabOrder size from
    ⟨pow2_of_cases hcases, hdvd, hfit.1, hfit.2⟩
  rcases h with hsmall | hlucky
  · obtain ⟨h1, h2, h3⟩ := calcObjectsPerSlab_small (smallSlab_iff.mp hsmall) hoff hoff' hn
    rw [Nat.mod_eq_of_lt h2]
    exact ⟨h1, h3⟩
  · exact lucky_fits hlucky hal hn

/-! ## Growing -/

/-- Fields that are not links of a list. -/
def notListField : Field → Bool
  | .listNext | .listPrev => false
  | _ => true

instance (sentinel node : Nat) : Spares notListField (insertFront sentinel node) := by
  have hnext : ∀ p x, Spares notListField (p2vStore p .listNext x) := fun p x => Spares.p2vStore rfl
  have hprev : ∀ p x, Spares notListField (p2vStore p .listPrev x) := fun p x => Spares.p2vStore rfl
  have hstore : ∀ p x, Spares notListField (store p .listNext x) := fun p x => Spares.store rfl
  unfold insertFront
  infer_instance

/-- The statements of `growTail` that write in the block. -/
def threadSlab (cache p : Nat) : K Unit := do
  p2vStore p .slabCache cache
  p2vStore p .inuseNum 0
  let align ← load cache .objectAlign
  let first := (p + firstObjectOffset align) % 2 ^ 64
  let perSlab ← load cache .objectsPerSlab
  let objectSize ← load cache .objectSize
  threadLoop first objectSize perSlab perSlab 0
  p2vStore p .freeList first

theorem growTail_eq (cache p : Nat) : growTail cache p = (do
    threadSlab cache p
    insertFront (freeSlabs cache) (slabNode p)
    pure .ok) := by
  unfold threadSlab
  simp only [K.bind_assoc']
  rfl

/-- The list of all slots. -/
def Numbers.slots (c : Numbers) (p : Nat) : List Nat := (List.range' 0 c.per).map (c.slot p)

theorem Numbers.slots_nodup (c : Numbers) (hsize : 0 < c.size) (p : Nat) : (c.slots p).Nodup := by
  refine List.Nodup.map (fun i j hij => ?_) List.nodup_range'
  unfold Numbers.slot at hij
  exact Nat.eq_of_mul_eq_mul_right hsize (by omega)

/-- A slot ends in the slab. -/
theorem Numbers.Fit.slot_le {c : Numbers} (h : c.Fit) {p i : Nat} (hi : i < c.per) :
    c.slot p i + c.size ≤ p + pageSize * 2 ^ c.order := by
  have hfits := h.fits
  have := Nat.mul_le_mul_right c.size hi
  rw [Nat.succ_mul] at this
  unfold Numbers.slot
  omega

/-- **The slots are threaded** in a block of installed memory, if they fit in it. -/
theorem threadSlab_edits {p : Nat} {c : Numbers} (hfit : c.Fit) (hsize : 0 < c.size)
    (h0 : L.image cache = true) (hnum : numbersOf m cache = c) (hv : View off) (hp : p ≠ 0)
    (hphys : ∀ a, p ≤ a → a < p + pageSize * 2 ^ c.order → L.phys a = true) :
    ∃ m', Edits L off (threadSlab cache p) m () m' ∧ m' p .freeList = first (c.slots p) ∧
      Threaded (m' · .link) (c.slots p) ∧ ∀ a f, slabField f = true → notListField f = false →
      m' a f = m a f := by
  have hblock : 0 < pageSize * 2 ^ c.order := Nat.mul_pos (by decide) (Nat.two_pow_pos _)
  have hps : L.Stored p := Or.inl (hphys p (Nat.le_refl _) (by omega))
  have hslot : ∀ i, i < c.per → L.phys (p + firstObjectOffset c.align + i * c.size) = true := by
    intro i hi
    have hle := hfit.slot_le (p := p) hi
    unfold Numbers.slot at hle
    exact hphys _ (by omega) (by omega)
  have hfirst : (p + firstObjectOffset c.align) % 2 ^ 64 = p + firstObjectOffset c.align := by
    have hlt := L.phys_lt _ (hslot 0 (by have := hfit.per_ge; omega))
    unfold physTop at hlt
    exact Nat.mod_eq_of_lt (by omega)
  obtain ⟨m₁, hm₁⟩ : ∃ m₁, m₁ = (m.set p .slabCache cache).set p .inuseNum 0 := ⟨_, rfl⟩
  have hload : ∀ {f v}, f ≠ .inuseNum → f ≠ .slabCache → m cache f = v →
      Edits L off (load cache f) m₁ v m₁ := fun h1 h2 hval => Edits.load h0 (by
    rw [hm₁, Mem.set_ne (Or.inr h1), Mem.set_ne (Or.inr h2), hval])
  obtain ⟨m₂, hthread, hlinks, hframe⟩ := threadLoop_run (m := m₁) hv hsize
    (show p + firstObjectOffset c.align ≠ 0 by omega) hslot (show 0 + c.per = c.per by omega)
  refine ⟨m₂.set p .freeList (p + firstObjectOffset c.align), ?_, ?_, ?_, fun a f _ hf => ?_⟩
  · refine Edits.bind (Edits.p2vStore hv hps) (Edits.bind (Edits.p2vStore hv hps) ?_)
    rw [← hm₁]
    refine Edits.bind (hload (by decide) (by decide) (congrArg Numbers.align hnum)) ?_
    simp only [hfirst]
    refine Edits.bind (hload (by decide) (by decide) (congrArg Numbers.per hnum)) ?_
    refine Edits.bind (hload (by decide) (by decide) (congrArg Numbers.size hnum)) ?_
    exact Edits.bind hthread (Edits.p2vStore hv hps)
  · obtain ⟨k, hk⟩ : ∃ k, c.per = k + 1 := ⟨c.per - 1, by have := hfit.per_ge; omega⟩
    rw [Mem.set_self, Numbers.slots, hk, List.range'_succ, List.map_cons]
    show _ = c.slot p 0
    unfold Numbers.slot
    omega
  · refine Threaded.congr hlinks (fun o _ => ?_)
    show m₂.set p .freeList _ o .link = m₂ o .link
    rw [Mem.set_ne (Or.inr (by decide))]
  · have hne : ∀ g, notListField g = true → f ≠ g := by
      rintro g hg rfl
      rw [hg] at hf
      exact absurd hf (by decide)
    rw [Mem.set_ne (Or.inr (hne _ rfl))]
    by_contra hdiff
    by_cases hsame : m₂ a f = m₁ a f
    · rw [hsame, hm₁, Mem.set_ne (Or.inr (hne _ rfl)), Mem.set_ne (Or.inr (hne _ rfl))] at hdiff
      exact hdiff rfl
    · exact hne .link rfl (hframe a f hsame).1

/-- What `kmem_cache_grow` does with a block it got. -/
theorem kmemCacheGrow_on {s₁ s₂ : KState} {p : Nat} {c : Numbers} (h0 : L.image cache = true)
    (hnum : numbersOf s₁.mem cache = c)
    (hcall : buddyKalloc (2 ^ c.order * pageSize) L s₁ = .ok (p, s₂)) (hp : p ≠ 0) :
    kmemCacheGrow buddyKalloc cache L s₁ = growTail cache p L s₂ := by
  unfold kmemCacheGrow
  rw [K.bind_ok (load_image h0),
    show s₁.mem cache .slabOrder = c.order from congrArg Numbers.order hnum,
    K.bind_ok hcall, if_neg hp]
  rfl

/-- The allocator leaves the cache and the offset alone. -/
theorem buddyKalloc_spares (cache : Nat) {s₁ s₂ : KState} {p bytes : Nat}
    (hcall : buddyKalloc bytes L s₁ = .ok (p, s₂)) :
    (∀ a f, slabField f = true → s₂.mem a f = s₁.mem a f) ∧ s₂.physMapOffset = s₁.physMapOffset ∧
      numbersOf s₂.mem cache = numbersOf s₁.mem cache := by
  have hspares : Spares slabField (buddyKalloc bytes) := inferInstance
  have hkept : ∀ a f, slabField f = true → s₂.mem a f = s₁.mem a f :=
    fun a f hf => hspares.spares hcall a f hf
  have hcalm := Calm.result hcall
  refine ⟨hkept, hcalm.offset, ?_⟩
  unfold numbersOf
  rw [hkept _ _ rfl, hkept _ _ rfl, hkept _ _ rfl, hkept _ _ rfl]

/-- **A growth threads the slab**, if the numbers fit and a link fits in a slot. -/
theorem kmemCacheGrow_threads {s₁ s₂ s₃ : KState} {p : Nat} {c : Numbers} (hfit : c.Fit)
    (hsize : linkSize ≤ c.size) (h0 : L.image cache = true) (hnum : numbersOf s₁.mem cache = c)
    (hv : View s₁.physMapOffset) (hcall : buddyKalloc (2 ^ c.order * pageSize) L s₁ = .ok (p, s₂))
    (hp : p ≠ 0) (hphys : ∀ a, p ≤ a → a < p + pageSize * 2 ^ c.order → L.phys a = true)
    (hrun : kmemCacheGrow buddyKalloc cache L s₁ = .ok (.ok, s₃)) : Threads s₃.mem c p := by
  have hsize' : 0 < c.size := by
    unfold linkSize at hsize
    omega
  obtain ⟨-, hoff, hnum₂⟩ := buddyKalloc_spares cache hcall
  obtain ⟨m', hedit, hhead, hlinks, -⟩ := threadSlab_edits (m := s₂.mem) hfit hsize' h0
    (hnum₂.trans hnum)
    (hoff ▸ hv : View s₂.physMapOffset) hp hphys
  rw [kmemCacheGrow_on h0 hnum hcall hp, growTail_eq, K.bind_ok (hedit s₂ rfl rfl)] at hrun
  -- what comes after writes only links of lists
  have hlist : Spares notListField (do
      insertFront (freeSlabs cache) (slabNode p)
      pure Status.ok) := inferInstance
  have hafter : ∀ v f, notListField f = true → s₃.mem v f = m' v f :=
    fun v f hf => hlist.spares hrun v f hf
  refine ⟨c.slots p, (hafter _ _ rfl).trans hhead, hlinks.congr (fun o _ => hafter _ _ rfl), ?_,
    c.slots_nodup hsize' p, ?_⟩
  · rw [Numbers.slots, List.length_map, List.length_range']
  · intro o ho
    obtain ⟨i, hi, rfl⟩ := List.mem_map.mp ho
    have hi : i < c.per := by
      rw [List.mem_range'_1] at hi
      omega
    have hle := hfit.slot_le (p := p) hi
    exact ⟨i, hi, rfl, by omega, by omega⟩

/-- **A growth succeeds** once it has its block, if the list of free slabs has a readable first
node. -/
theorem kmemCacheGrow_succeeds {s₁ s₂ : KState} {p : Nat} {c : Numbers} (hfit : c.Fit)
    (hsize : 0 < c.size) (himg : ∀ i, i < cacheSize → L.image (cache + i) = true)
    (hnum : numbersOf s₁.mem cache = c) (hv : View s₁.physMapOffset)
    (hcall : buddyKalloc (2 ^ c.order * pageSize) L s₁ = .ok (p, s₂)) (hp : p ≠ 0)
    (hphys : ∀ a, p ≤ a → a < p + pageSize * 2 ^ c.order → L.phys a = true)
    (hnext : L.Stored (s₁.mem (freeSlabs cache) .listNext)) :
    ∃ s₃, kmemCacheGrow buddyKalloc cache L s₁ = .ok (.ok, s₃) := by
  have h0 : L.image cache = true := himg 0 (by decide)
  have hfree : L.image (freeSlabs cache) = true := himg 24 (by decide)
  obtain ⟨hkept, hoff, hnum₂⟩ := buddyKalloc_spares cache hcall
  have hv₂ : View s₂.physMapOffset := hoff ▸ hv
  obtain ⟨m', hedit, -, -, hlists⟩ := threadSlab_edits (m := s₂.mem) hfit hsize h0
    (hnum₂.trans hnum) hv₂ hp hphys
  have hpage : pageSize ≤ pageSize * 2 ^ c.order := Nat.le_mul_of_pos_right _ (Nat.two_pow_pos _)
  have hnode : L.Stored (slabNode p) := Or.inl (hphys _ (by unfold slabNode; omega)
    (by unfold slabNode; unfold pageSize at *; omega))
  obtain ⟨x, hx⟩ : ∃ x, x = s₁.mem (freeSlabs cache) .listNext := ⟨_, rfl⟩
  have hx' : m' (freeSlabs cache) .listNext = x := by
    rw [hlists _ _ rfl rfl, hkept _ _ rfl, hx]
  have hsecond : ((m'.set (slabNode p) .listNext x).set (slabNode p) .listPrev (freeSlabs cache))
      (freeSlabs cache) .listNext = x := by
    rw [Mem.set_ne (Or.inr (by decide)), Mem.set_apply]
    split
    · rfl
    · exact hx'
  have hinsert : Edits L s₂.physMapOffset (insertFront (freeSlabs cache) (slabNode p)) m' ()
      ((((m'.set (slabNode p) .listNext x).set (slabNode p) .listPrev (freeSlabs cache)).set x
        .listPrev
        (slabNode p)).set (freeSlabs cache) .listNext (slabNode p)) :=
    Edits.bind (Edits.load hfree hx') (Edits.bind (Edits.p2vStore hv₂ hnode)
      (Edits.bind (Edits.p2vStore hv₂ hnode) (Edits.bind (Edits.load hfree hsecond)
        (Edits.bind (Edits.p2vStore hv₂ (hx ▸ hnext)) (Edits.store hfree)))))
  rw [kmemCacheGrow_on h0 hnum hcall hp, growTail_eq, K.bind_ok (hedit s₂ rfl rfl),
    K.bind_ok (hinsert { s₂ with mem := m' } rfl rfl)]
  exact ⟨_, rfl⟩

/-! ## When the geometry is right -/

/-- A size that is not accepted is none that a cache has. -/
theorem SizeOk.of_rejected (h : ∀ align, calcObjectAlign size = some align →
    calcObjectsPerSlab size align (calcSlabOrder size % 2 ^ 8) = none) : SizeOk size := by
  intro L cache q s s' himg hrun hq
  obtain ⟨align, n, hal, hn, -⟩ := kmemCacheCreateSl_returned himg hrun hq
  rw [h align hal] at hn
  exact absurd hn (by simp)

/-- **Numbers that fit, and room for a link**, are all it takes. -/
theorem SizeOk.of_fit (h8 : linkSize ≤ size)
    (hfit : ∀ align n, calcObjectAlign size = some align →
      calcObjectsPerSlab size align (calcSlabOrder size) = some n →
      Numbers.Fit ⟨size, align, calcSlabOrder size, n % 2 ^ 32⟩) : SizeOk size := by
  intro L cache q s s' himg hrun hq
  obtain ⟨align, n, hal, hn, hmem, -⟩ := kmemCacheCreateSl_returned himg hrun hq
  rw [calcSlabOrder_mod] at hn
  have hnum : numbersOf s'.mem cache = ⟨size, align, calcSlabOrder size, n % 2 ^ 32⟩ := by
    rw [hmem, created_numbers]
  have hfit := hfit align n hal hn
  rw [hnum]
  refine ⟨hfit, fun s₁ s₂ s₃ p hnum₁ hv hcall hp hphys hgrow => ?_⟩
  exact kmemCacheGrow_threads hfit h8 (himg 0 (by decide)) hnum₁ hv hcall hp hphys hgrow

theorem small_cache_image (i : Nat) (hi : i < cacheSize) :
    smallLayout.image (kernelImageStart + i) = true := by
  unfold cacheSize at hi
  refine decide_eq_true ⟨by omega, ?_⟩
  unfold kernelImageStart metadataSpan
  omega

/-- A cache of an accepted size can be created on the small machine. -/
theorem small_create (hal : calcObjectAlign size = some align)
    (hn : calcObjectsPerSlab size align (calcSlabOrder size) = some n) :
    ∃ s', kmemCacheCreateSl kernelImageStart size smallLayout bootState
      = .ok (kernelImageStart, s') ∧
      numbersOf s'.mem kernelImageStart = ⟨size, align, calcSlabOrder size, n % 2 ^ 32⟩ := by
  have hn' := hn
  rw [← calcSlabOrder_mod] at hn'
  obtain ⟨s', hrun, hmem, -⟩ := Edits.locked (s := bootState)
    (show (bootState.lock .slabLock).Free from rfl)
    (kmemCacheCreate_edits (m := bootState.mem) small_cache_image hal hn')
  rw [← kmemCacheCreateSl_eq hal hn'] at hrun
  exact ⟨s', hrun, by rw [hmem, created_numbers]⟩

/-- A cache for the size, created after `__init_buddy` on the small machine, and a page for its
first slab. -/
structure SmallPage (size : Nat) (s s₁ s₂ : KState) (p : Nat) : Prop where
  create : kmemCacheCreateSl kernelImageStart size smallLayout s = .ok (kernelImageStart, s₁)
  call : buddyKalloc (2 ^ 0 * pageSize) smallLayout s₁ = .ok (p, s₂)
  offset : s₁.physMapOffset = 0
  order : calcSlabOrder size = 0
  next : s₁.mem (freeSlabs kernelImageStart) .listNext = freeSlabs kernelImageStart
  page : 0x400000 ≤ p ∧ p + pageSize ≤ 0x800000

/-- The states before and after the creation, and the page. -/
def smallPage (size : Nat) : Option (KState × KState × KState × Nat) := do
  let (_, s) ← (initBuddy Buddy.smallTable smallLayout bootState).toOption
  let (q, s₁) ← (kmemCacheCreateSl kernelImageStart size smallLayout s).toOption
  let (p, s₂) ← (buddyKalloc (2 ^ 0 * pageSize) smallLayout s₁).toOption
  if q = kernelImageStart ∧ s₁.physMapOffset = 0 ∧ calcSlabOrder size = 0 ∧
    s₁.mem (freeSlabs kernelImageStart) .listNext = freeSlabs kernelImageStart ∧
    0x400000 ≤ p ∧ p + pageSize ≤ 0x800000 then some (s, s₁, s₂, p) else none

theorem smallPage_runs : ∀ size ∈ List.range' 1 7, (smallPage size).isSome := by
  decide +kernel

theorem smallPage_some {s s₁ s₂ : KState} {p : Nat} (h : smallPage size = some (s, s₁, s₂, p)) :
    SmallPage size s s₁ s₂ p := by
  unfold smallPage at h
  obtain ⟨⟨⟨⟩, s₀⟩, -, h₀⟩ := Option.bind_eq_some_iff.mp h
  obtain ⟨⟨q, s₁'⟩, hcreate, h₁⟩ := Option.bind_eq_some_iff.mp h₀
  obtain ⟨⟨p', s₂'⟩, hcall, h₂⟩ := Option.bind_eq_some_iff.mp h₁
  simp only [Option.ite_none_right_eq_some, Option.some.injEq, Prod.mk.injEq] at h₂
  obtain ⟨⟨hq, hoff, horder, hnext, hpage⟩, rfl, rfl, rfl, rfl⟩ := h₂
  rw [hq] at hcreate
  exact ⟨toOption_ok hcreate, toOption_ok hcall, hoff, horder, hnext, hpage⟩

/-- The page is memory, and the first growth succeeds. -/
theorem SmallPage.grows {s s₁ s₂ : KState} {p : Nat} (h : SmallPage size s s₁ s₂ p) (h0 : size ≠ 0)
    (hfit : (numbersOf s₁.mem kernelImageStart).Fit) :
    ∃ s₃, kmemCacheGrow buddyKalloc kernelImageStart smallLayout s₁ = .ok (.ok, s₃) ∧
      ∀ m : Mem, numbersOf s₁.mem kernelImageStart = numbersOf m kernelImageStart →
        (∀ a, p ≤ a → a < p + pageSize * 2 ^ (numbersOf m kernelImageStart).order →
          smallLayout.phys a = true) ∧
        buddyKalloc (2 ^ (numbersOf m kernelImageStart).order * pageSize) smallLayout s₁
        = .ok (p, s₂) ∧
        (numbersOf m kernelImageStart).size = size := by
  obtain ⟨hcreate, hcall, hoff, horder, hnext, hlow, hhigh⟩ := h
  obtain ⟨align, n, -, -, hmem, -⟩ :=
    kmemCacheCreateSl_returned small_cache_image hcreate (by decide)
  have hnum : numbersOf s₁.mem kernelImageStart = ⟨size, align, 0, n % 2 ^ 32⟩ := by
    rw [hmem, created_numbers, horder]
  rw [hnum] at hfit
  have hphys : ∀ a, p ≤ a → a < p + pageSize * 2 ^ 0 → smallLayout.phys a = true := by
    intro a h1 h2
    exact decide_eq_true ⟨by omega, by omega⟩
  have hstored : smallLayout.Stored (s₁.mem (freeSlabs kernelImageStart) .listNext) := by
    rw [hnext]
    exact Or.inr (small_cache_image 24 (by decide))
  obtain ⟨s₃, hrun⟩ := kmemCacheGrow_succeeds hfit (Nat.pos_of_ne_zero h0) small_cache_image hnum
    (Or.inl hoff) hcall (by omega) hphys hstored
  refine ⟨s₃, hrun, fun m hm => ?_⟩
  rw [← hm, hnum]
  exact ⟨hphys, hcall, rfl⟩

/-- A link of 8 bytes does not lie in a smaller slot. -/
theorem not_threads {c : Numbers} (h8 : 8 ≤ c.per) (hsize : c.size < linkSize) (m : Mem) (p : Nat) :
    ¬ Threads m c p := by
  rintro ⟨l, -, -, hlen, -, hslots⟩
  obtain ⟨o, ho⟩ : ∃ o, o ∈ l := List.exists_mem_of_length_pos (by omega)
  obtain ⟨i, -, rfl, hin, -⟩ := hslots o ho
  omega

/-- **Objects of one to seven bytes** are accepted, and their links do not fit. -/
theorem SizeOk.link_fits (h0 : size ≠ 0) (h : SizeOk size) : linkSize ≤ size := by
  by_contra hc
  have hmem : size ∈ List.range' 1 7 := by
    rw [List.mem_range'_1]
    unfold linkSize at hc
    omega
  obtain ⟨⟨s, s₁, s₂, p⟩, hsome⟩ := Option.isSome_iff_exists.mp (smallPage_runs size hmem)
  have hpage := smallPage_some hsome
  obtain ⟨hfit, hgrow⟩ :=
    h smallLayout kernelImageStart kernelImageStart s s₁ small_cache_image hpage.create
    (by decide)
  obtain ⟨s₃, hrun, hrest⟩ := hpage.grows h0 hfit
  obtain ⟨hphys, hcall, hsize⟩ := hrest s₁.mem rfl
  have hp : p ≠ 0 := by
    have := hpage.page
    omega
  exact not_threads hfit.per_ge (by omega) _ _
    (hgrow s₁ s₂ s₃ p rfl (Or.inl hpage.offset) hcall hp hphys hrun)

/-- Above 1GB only the lucky sizes fit. -/
theorem SizeOk.wrapped (h : SizeOk size) (h0 : size ≠ 0) (hlt : size < 2 ^ 61)
    (hwrap : ¬ SmallSlab size) :
    size = 252645135 ∨ size = 286331153 := by
  obtain ⟨align, hal⟩ : ∃ align, calcObjectAlign size = some align := ⟨_, if_neg h0⟩
  obtain ⟨hoff, hoff', -⟩ := firstObjectOffset_spec (calcObjectAlign_cases h0 (by omega) hal).2
  obtain ⟨n, hn⟩ := wrapped_accepted h0 hlt hwrap hoff hoff'
  obtain ⟨s', hcreate, hnum⟩ := small_create hal hn
  obtain ⟨hfit, -⟩ :=
    h smallLayout kernelImageStart kernelImageStart bootState s' small_cache_image hcreate
    (by decide)
  rw [hnum] at hfit
  have h8 : 8 ≤ n % 2 ^ 32 := hfit.per_ge
  have hfits : firstObjectOffset align + n % 2 ^ 32 * size ≤ pageSize * 2 ^ calcSlabOrder size :=
    hfit.fits
  have h19 : ¬ calcSlabOrder size ≤ 18 := fun h => hwrap (smallSlab_iff.mpr h)
  have h20 := calcSlabOrder_le size
  have hle : size ≤ 2 ^ 29 := by
    have := Nat.mul_le_mul_right size h8
    have := Nat.pow_le_pow_right (show 0 < 2 by omega) h20
    unfold pageSize at hfits
    omega
  exact wrapped_lucky hwrap ⟨_, wrapped_divides (by omega) h20 hoff hoff' hn h8 hfits⟩ hle

/-- **The geometry is right** for the sizes that hold a link and stay below 1GB, for the two lucky
ones, and for those that are not accepted. -/
theorem sizeOk_iff (size : Nat) (hlt : size < 2 ^ 64) :
    SizeOk size ↔ size = 0 ∨ 2 ^ 61 ≤ size ∨ (linkSize ≤ size ∧ SmallSlab size) ∨ size = 252645135 ∨
      size = 286331153 := by
  constructor
  · intro h
    by_cases h0 : size = 0
    · exact Or.inl h0
    · by_cases hhuge : 2 ^ 61 ≤ size
      · exact Or.inr (Or.inl hhuge)
      · by_cases hsmall : SmallSlab size
        · exact Or.inr (Or.inr (Or.inl ⟨h.link_fits h0, hsmall⟩))
        · exact Or.inr (Or.inr (Or.inr (h.wrapped h0 (by omega) hsmall)))
  · rintro (rfl | hhuge | h)
    · exact SizeOk.of_rejected (fun align hal => absurd hal (by simp [calcObjectAlign]))
    · exact SizeOk.of_rejected (fun align _ => calcObjectsPerSlab_huge hhuge)
    · have h8 : linkSize ≤ size := by
        unfold linkSize at *
        omega
      have hfit : SmallSlab size ∨ size = 252645135 ∨ size = 286331153 := h.imp_left And.right
      exact SizeOk.of_fit h8 (fun align n hal hn =>
        numbers_fit (by unfold linkSize at h8; omega) hlt hfit hal hn)

/-- Objects of eight bytes, the width of a link. -/
theorem sizeOk_iff_word : 8 < 2 ^ 64 ∧ SizeOk 8 := by
  have hsmall : SmallSlab 8 := by
    unfold SmallSlab
    omega
  exact ⟨by omega, (sizeOk_iff 8 (by omega)).mpr (Or.inr (Or.inr (Or.inl ⟨Nat.le_refl 8, hsmall⟩)))⟩

/-- **Objects of four bytes**: the cache is created and grows, and the link of a free slot runs into
the next slot. -/
theorem four_bytes : ∃ s s₁ s₂ s₃ p, SmallPage 4 s s₁ s₂ p ∧
    kmemCacheGrow buddyKalloc kernelImageStart smallLayout s₁ = .ok (.ok, s₃) ∧
    ¬ Threads s₃.mem (numbersOf s₁.mem kernelImageStart) p ∧ ¬ SizeOk 4 := by
  have hsmall : SmallSlab 4 := by
    unfold SmallSlab
    omega
  obtain ⟨⟨s, s₁, s₂, p⟩, hsome⟩ := Option.isSome_iff_exists.mp (smallPage_runs 4 (by decide))
  have hpage := smallPage_some hsome
  obtain ⟨align, n, hal, hn, hmem, -⟩ :=
    kmemCacheCreateSl_returned small_cache_image hpage.create (by decide)
  rw [calcSlabOrder_mod] at hn
  have hfit : (numbersOf s₁.mem kernelImageStart).Fit := by
    rw [hmem, created_numbers]
    exact numbers_fit (by omega) (by omega) (Or.inl hsmall) hal hn
  obtain ⟨s₃, hrun, hrest⟩ := hpage.grows (by decide) hfit
  obtain ⟨-, -, hsize⟩ := hrest s₁.mem rfl
  refine ⟨s, s₁, s₂, s₃, p, hpage, hrun, not_threads hfit.per_ge (by rw [hsize]; decide) _ _,
    fun h => ?_⟩
  exact absurd (h.link_fits (by decide)) (by decide)

end Slab
end MikroKernel
