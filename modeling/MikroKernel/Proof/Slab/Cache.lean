import MikroKernel.Lib.Bits
import MikroKernel.Lib.Chain
import MikroKernel.Proof.Slab.Lists

/-!
# What memory holds of a slab cache

`CacheMem` is the invariant of a cache at rest: the cache's fields, its three lists, and for each
slab the use count and the chain of free slots. It is stated against an abstract cache: which
descriptors are on which list (`lists`), the free slots of each slab in chain order (`chain`), and
the live objects (`live`). **The free slots and the live objects of a slab share out its slots**:
`live_iff` and the two facts about chains in `SlabOk`.

Popping a slot and pushing one back both change one slab and possibly move it to another list.
`CacheMem.edit` is the step they share.
-/

set_option autoImplicit false

namespace MikroKernel
namespace Slab

open Chain

/-! ## Geometry -/

def slabBytes (order : Nat) : Nat := pageSize * 2 ^ order

/-- The numbers of a cache: object size and alignment, slab order, slots in a slab, and where the
first slot starts; with what makes the slots fit. -/
structure Geometry where
  size : Nat
  align : Nat
  order : Nat
  per : Nat
  offset : Nat
  offset_eq : offset = firstObjectOffset align
  order_le : order ≤ 10
  per_ge : 8 ≤ per
  per_lt : per < 2 ^ 32
  size_ge : 8 ≤ size
  offset_ge : descriptorSize ≤ offset
  fits : offset + per * size ≤ slabBytes order
  align_size : align ∣ size
  align_offset : align ∣ offset
  align_page : align ∣ pageSize

def Geometry.bytes (g : Geometry) : Nat := slabBytes g.order

/-- Slot `i` of the slab at `d`. -/
def Geometry.slot (g : Geometry) (d i : Nat) : Nat := d + g.offset + i * g.size

def Geometry.slots (g : Geometry) (d : Nat) : List Nat := (List.range g.per).map (g.slot d)

variable {g : Geometry} {d e o : Nat}

theorem Geometry.bytes_pos (g : Geometry) : 0 < g.bytes :=
  Nat.mul_pos (by unfold pageSize; omega) (Nat.two_pow_pos _)

theorem Geometry.mem_slots : o ∈ g.slots d ↔ ∃ i, i < g.per ∧ o = g.slot d i := by
  unfold Geometry.slots
  rw [List.mem_map]
  constructor
  · rintro ⟨i, hi, rfl⟩
    exact ⟨i, List.mem_range.mp hi, rfl⟩
  · rintro ⟨i, hi, rfl⟩
    exact ⟨i, List.mem_range.mpr hi, rfl⟩

/-- A slot lies behind the descriptor and inside the slab. -/
theorem Geometry.slot_bounds (h : o ∈ g.slots d) :
    d + descriptorSize ≤ o ∧ o + g.size ≤ d + g.bytes := by
  obtain ⟨i, hi, rfl⟩ := Geometry.mem_slots.mp h
  have h1 := g.offset_ge
  have h2 := g.fits
  have h3 : (i + 1) * g.size ≤ g.per * g.size := Nat.mul_le_mul_right _ hi
  rw [Nat.succ_mul] at h3
  unfold Geometry.slot Geometry.bytes
  omega

/-- Two slots of a slab are one or apart. -/
theorem Geometry.slot_apart {o' : Nat} (h : o ∈ g.slots d) (h' : o' ∈ g.slots d) :
    o = o' ∨ o + g.size ≤ o' ∨ o' + g.size ≤ o := by
  obtain ⟨i, -, rfl⟩ := Geometry.mem_slots.mp h
  obtain ⟨j, -, rfl⟩ := Geometry.mem_slots.mp h'
  unfold Geometry.slot
  rcases Nat.lt_trichotomy i j with hij | rfl | hij
  · have := Nat.mul_le_mul_right g.size hij
    rw [Nat.succ_mul] at this
    omega
  · exact Or.inl rfl
  · have := Nat.mul_le_mul_right g.size hij
    rw [Nat.succ_mul] at this
    omega

theorem Geometry.slots_nodup (g : Geometry) (d : Nat) : (g.slots d).Nodup := by
  refine List.Nodup.map ?_ List.nodup_range
  intro i j hij
  have hpos := g.size_ge
  unfold Geometry.slot at hij
  exact Nat.eq_of_mul_eq_mul_right (by omega) (show i * g.size = j * g.size by omega)

theorem Geometry.slots_length (g : Geometry) (d : Nat) : (g.slots d).length = g.per := by
  unfold Geometry.slots
  rw [List.length_map, List.length_range]

/-- Slabs are aligned, so an address is in one of them only. -/
theorem Geometry.slab_inj {a : Nat} (hd : g.bytes ∣ d) (he : g.bytes ∣ e) (h1 : d ≤ a)
    (h2 : a < d + g.bytes) (h3 : e ≤ a) (h4 : a < e + g.bytes) : d = e :=
  Bits.eq_of_dvd_near hd he (by omega) (by omega)

theorem Geometry.slots_inj (hd : g.bytes ∣ d) (he : g.bytes ∣ e) (h1 : o ∈ g.slots d)
    (h2 : o ∈ g.slots e) : d = e := by
  have b1 := Geometry.slot_bounds h1
  have b2 := Geometry.slot_bounds h2
  have := g.size_ge
  exact Geometry.slab_inj hd he (show d ≤ o by omega) (by omega) (by omega) (by omega)

/-! ## The invariant -/

/-- The fields of the slab allocator's structures. -/
def slabField : Field → Bool
  | .listNext | .listPrev | .inuseNum | .freeList | .slabCache => true
  | .objectSize | .objectAlign | .slabOrder | .objectsPerSlab | .link => true
  | _ => false


/-- One slab: its use count and its chain of free slots. -/
structure SlabOk (m : Mem) (g : Geometry) (d : Nat) (l : List Nat) : Prop where
  head : m d .freeList = first l
  thread : Threaded (m · .link) l
  inuse : m d .inuseNum = g.per - l.length
  nodup : l.Nodup
  slots : ∀ o ∈ l, o ∈ g.slots d

/-- How many free slots a slab on a list has. -/
def SlabList.Fits (per : Nat) : SlabList → List Nat → Prop
  | .freeSlabs, l => l.length = per
  | .partialSlabs, l => 0 < l.length ∧ l.length < per
  | .fullSlabs, l => l = []

structure CacheMem (L : Layout) (m : Mem) (g : Geometry) (cache : Nat)
    (lists : SlabList → List Nat) (chain : Nat → List Nat) (live : List Nat) : Prop where
  image : ∀ i, i < cacheSize → L.image (cache + i) = true
  objectSize : m cache .objectSize = g.size
  objectAlign : m cache .objectAlign = g.align
  slabOrder : m cache .slabOrder = g.order
  objectsPerSlab : m cache .objectsPerSlab = g.per
  lists_ok : Lists L m cache lists
  phys : ∀ i, ∀ d ∈ lists i, ∀ a, d ≤ a → a < d + g.bytes → L.phys a = true
  aligned : ∀ i, ∀ d ∈ lists i, g.bytes ∣ d
  slab : ∀ i, ∀ d ∈ lists i, SlabOk m g d (chain d)
  fits : ∀ i, ∀ d ∈ lists i, i.Fits g.per (chain d)
  live_iff : ∀ o, o ∈ live ↔ ∃ i, ∃ d ∈ lists i, o ∈ g.slots d ∧ o ∉ chain d
  live_nodup : live.Nodup

variable {L : Layout} {m : Mem} {cache : Nat} {lists : SlabList → List Nat}
  {chain : Nat → List Nat} {live : List Nat}

theorem CacheMem.image_self (h : CacheMem L m g cache lists chain live) :
    L.image cache = true := h.image 0 (by unfold cacheSize; omega)

/-- The descriptor of a slab is physical. -/
theorem CacheMem.desc_phys (h : CacheMem L m g cache lists chain live) {i : SlabList}
    (hd : d ∈ lists i) : L.phys d = true :=
  h.phys i d hd d (Nat.le_refl _) (Nat.lt_add_of_pos_right g.bytes_pos)

theorem CacheMem.slot_phys (h : CacheMem L m g cache lists chain live) {i : SlabList}
    (hd : d ∈ lists i) (ho : o ∈ g.slots d) : L.phys o = true := by
  have hb := Geometry.slot_bounds ho
  have := g.size_ge
  exact h.phys i d hd o (by omega) (by omega)

/-- A ring node is in the cache or in the header of a slab. -/
theorem CacheMem.ringNode_cases (h : CacheMem L m g cache lists chain live) {k : SlabList}
    {a : Nat} (ha : a ∈ ringNodes cache lists k) :
    (cache + 24 ≤ a ∧ a < cache + cacheSize ∧ L.image a = true) ∨
      ∃ d ∈ lists k, a = d + 24 := by
  rcases List.mem_cons.mp ha with rfl | ha
  · refine Or.inl ⟨?_, ?_, h.lists_ok.sentinel k⟩ <;>
      cases k <;> simp [SlabList.sentinel, freeSlabs, partialSlabs, fullSlabs, cacheSize]
  · obtain ⟨d, hd, rfl⟩ := List.mem_map.mp ha
    exact Or.inr ⟨d, hd, rfl⟩

/-- Memory outside the cache and its slabs does not matter. -/
theorem CacheMem.frame {m' : Mem} (h : CacheMem L m g cache lists chain live)
    (hcache : ∀ a f, cache ≤ a → a < cache + cacheSize → m' a f = m a f)
    (hslab : ∀ i, ∀ d ∈ lists i, ∀ a f, (d ≤ a ∧ a < d + descriptorSize) ∨
      (f = .link ∧ a ∈ chain d) → m' a f = m a f) :
    CacheMem L m' g cache lists chain live := by
  have hself : ∀ f, m' cache f = m cache f := fun f =>
    hcache cache f (Nat.le_refl _) (by unfold cacheSize; omega)
  refine ⟨h.image, ?_, ?_, ?_, ?_, ?_, h.phys, h.aligned, ?_, h.fits, h.live_iff, h.live_nodup⟩
  · rw [hself]; exact h.objectSize
  · rw [hself]; exact h.objectAlign
  · rw [hself]; exact h.slabOrder
  · rw [hself]; exact h.objectsPerSlab
  · refine h.lists_ok.congr (fun k a ha f _ => ?_)
    rcases h.ringNode_cases ha with ⟨h1, h2, -⟩ | ⟨d, hd, rfl⟩
    · exact hcache a f (by omega) h2
    · exact hslab k d hd _ f (Or.inl ⟨by omega, by unfold descriptorSize; omega⟩)
  · intro i d hd
    have hs := h.slab i d hd
    have hword : ∀ f, m' d f = m d f := fun f =>
      hslab i d hd d f (Or.inl ⟨Nat.le_refl _, by unfold descriptorSize; omega⟩)
    refine ⟨?_, hs.thread.congr (fun o ho => hslab i d hd o _ (Or.inr ⟨rfl, ho⟩)), ?_, hs.nodup,
      hs.slots⟩
    · rw [hword]; exact hs.head
    · rw [hword]; exact hs.inuse

/-- What an operation on slab `d` may store: the words of its descriptor, list links, and the links
of the slots `ls`. -/
def Stores (cache : Nat) (lists : SlabList → List Nat) (d : Nat) (ls : List Nat) (m m' : Mem) :
    Prop :=
  ∀ a f, m' a f ≠ m a f → (a = d ∧ (f = .freeList ∨ f = .inuseNum ∨ f = .slabCache)) ∨
    ((f = .listNext ∨ f = .listPrev) ∧ (a = slabNode d ∨ ∃ k, a ∈ ringNodes cache lists k)) ∨
    (f = .link ∧ a ∈ ls)

/-- **One slab changes.** `lists'` has `d` on list `j` and everything else where it was; the slab
is right by itself; the live objects are accounted for. -/
theorem CacheMem.edit {m' : Mem} {lists' : SlabList → List Nat} {j : SlabList} {l ls : List Nat}
    {live' : List Nat} (h : CacheMem L m g cache lists chain live)
    (hphys : ∀ a, d ≤ a → a < d + g.bytes → L.phys a = true) (halign : g.bytes ∣ d)
    (hlists : Lists L m' cache lists')
    (hmem : ∀ k e, e ∈ lists' k ↔ (e = d ∧ k = j) ∨ (e ≠ d ∧ e ∈ lists k))
    (hslab : SlabOk m' g d l) (hfits : j.Fits g.per l) (hstores : Stores cache lists d ls m m')
    (hls : ∀ o ∈ ls, o ∈ g.slots d)
    (hlive : ∀ o, o ∈ live' ↔ (o ∈ g.slots d ∧ o ∉ l) ∨
      ∃ k, ∃ e ∈ lists k, e ≠ d ∧ o ∈ g.slots e ∧ o ∉ chain e)
    (hnd : live'.Nodup) :
    CacheMem L m' g cache lists' (Function.update chain d l) live' := by
  -- fields that no operation stores
  have hsame : ∀ a f, f ≠ .freeList → f ≠ .inuseNum → f ≠ .slabCache → f ≠ .listNext →
      f ≠ .listPrev → f ≠ .link → m' a f = m a f := by
    intro a f h1 h2 h3 h4 h5 h6
    by_contra hne
    rcases hstores a f hne with ⟨-, hf | hf | hf⟩ | ⟨hf | hf, -⟩ | ⟨hf, -⟩ <;> contradiction
  -- another slab is not touched
  have hother : ∀ {k e}, e ∈ lists k → e ≠ d → SlabOk m' g e (chain e) := by
    intro k e he hed
    have hs := h.slab k e he
    have hkeep : ∀ f, f = .freeList ∨ f = .inuseNum → m' e f = m e f := by
      intro f hf
      by_contra hne
      rcases hstores e f hne with ⟨hed', -⟩ | ⟨hf', -⟩ | ⟨hf', -⟩
      · exact hed hed'
      · rcases hf with rfl | rfl <;> rcases hf' with hf' | hf' <;> exact absurd hf' (by decide)
      · rcases hf with rfl | rfl <;> exact absurd hf' (by decide)
    refine ⟨by rw [hkeep _ (Or.inl rfl)]; exact hs.head, hs.thread.congr (fun o ho => ?_),
      by rw [hkeep _ (Or.inr rfl)]; exact hs.inuse, hs.nodup, hs.slots⟩
    by_contra hne
    rcases hstores o _ hne with ⟨-, hf | hf | hf⟩ | ⟨hf | hf, -⟩ | ⟨-, hod⟩
    · exact absurd hf (by decide)
    · exact absurd hf (by decide)
    · exact absurd hf (by decide)
    · exact absurd hf (by decide)
    · exact absurd hf (by decide)
    · exact hed (Geometry.slots_inj (h.aligned k e he) halign (hs.slots o ho) (hls o hod))
  refine ⟨h.image, ?_, ?_, ?_, ?_, hlists, ?_, ?_, ?_, ?_, ?_, hnd⟩
  · rw [hsame _ _ (by decide) (by decide) (by decide) (by decide) (by decide) (by decide)]
    exact h.objectSize
  · rw [hsame _ _ (by decide) (by decide) (by decide) (by decide) (by decide) (by decide)]
    exact h.objectAlign
  · rw [hsame _ _ (by decide) (by decide) (by decide) (by decide) (by decide) (by decide)]
    exact h.slabOrder
  · rw [hsame _ _ (by decide) (by decide) (by decide) (by decide) (by decide) (by decide)]
    exact h.objectsPerSlab
  · intro k e he
    rcases (hmem k e).mp he with ⟨rfl, -⟩ | ⟨-, he⟩
    · exact hphys
    · exact h.phys k e he
  · intro k e he
    rcases (hmem k e).mp he with ⟨rfl, -⟩ | ⟨-, he⟩
    · exact halign
    · exact h.aligned k e he
  · intro k e he
    rcases (hmem k e).mp he with ⟨rfl, -⟩ | ⟨hed, he⟩
    · rw [Function.update_self]
      exact hslab
    · rw [Function.update_of_ne hed]
      exact hother he hed
  · intro k e he
    rcases (hmem k e).mp he with ⟨rfl, rfl⟩ | ⟨hed, he⟩
    · rw [Function.update_self]
      exact hfits
    · rw [Function.update_of_ne hed]
      exact h.fits k e he
  · intro o
    rw [hlive]
    constructor
    · rintro (⟨h1, h2⟩ | ⟨k, e, he, hed, h1, h2⟩)
      · exact ⟨j, d, (hmem j d).mpr (Or.inl ⟨rfl, rfl⟩), h1, by rwa [Function.update_self]⟩
      · exact ⟨k, e, (hmem k e).mpr (Or.inr ⟨hed, he⟩), h1, by rwa [Function.update_of_ne hed]⟩
    · rintro ⟨k, e, he, h1, h2⟩
      rcases (hmem k e).mp he with ⟨rfl, -⟩ | ⟨hed, he⟩
      · rw [Function.update_self] at h2
        exact Or.inl ⟨h1, h2⟩
      · rw [Function.update_of_ne hed] at h2
        exact Or.inr ⟨k, e, he, hed, h1, h2⟩

end Slab
end MikroKernel
