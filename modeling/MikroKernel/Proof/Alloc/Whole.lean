import MikroKernel.Proof.Boot.StartKernel
import MikroKernel.Proof.Slab.Runs

/-!
# The physical allocator, all of it

`phys_kmalloc` and `phys_kfree` over the eight static caches and the buddy allocator, from
`__init_phys_kmalloc` on. Every cache takes its slabs from the lists that the clients take their
pages from, and what one of them writes into must be nobody else's.

The books (`Booked`) say which blocks are off the lists; here each of them is a client's or one
cache's (`Inv`). A call changes the part that it is about, and the others are where its frame says
nothing was written: the caches by `Slab.Inv.others`, the books by `Booked.frame`. So **no two
allocations overlap**, whichever way they were asked for, no call touches what is in somebody's
hands, and every call returns (`shared_out_of_run`).
-/

set_option autoImplicit false

namespace MikroKernel
namespace Whole

open Run Buddy Ghost Vm Boot

/-! ## Clients -/

/-- The machine, the blocks of pages handed out, and the objects handed out of each cache. -/
structure Client where
  s : KState
  pages : List Request
  objects : Nat → List Nat

/-- The switch of `phys_kmalloc` and `phys_kfree`: is the request one for a cache? -/
def cached (size : Nat) : AllocFlag → Bool
  | .buddyAlloc => false
  | .slabAlloc => true
  | .chooseAlloc => decide (size ≤ 2048)

/-- The client after a request that got `p`. -/
def Client.give (c : Client) (s' : KState) (size : Nat) (flg : AllocFlag) (p : Nat) : Client :=
  if p = 0 then ⟨s', c.pages, c.objects⟩
  else if cached size flg then
    ⟨s', c.pages, Function.update c.objects (sizeToIndex size) (p :: c.objects (sizeToIndex size))⟩
  else ⟨s', ⟨p, size⟩ :: c.pages, c.objects⟩

theorem Client.give_s (c : Client) (s' : KState) (size : Nat) (flg : AllocFlag) (p : Nat) :
    (c.give s' size flg p).s = s' := by
  unfold Client.give
  split
  · rfl
  · split <;> rfl

/-- A call of `phys_kmalloc`. -/
def Client.kmalloc (L : Layout) (slabCaches size : Nat) (flg : AllocFlag) (c : Client) :
    Option Client :=
  match physKmalloc slabCaches size flg L c.s with
  | .ok (p, s') => some (c.give s' size flg p)
  | .error _ => none

/-- A client may give back a block with the size it asked for, and an object with any size of its
cache. -/
def Client.Owns (c : Client) (ptr size : Nat) (flg : AllocFlag) : Prop :=
  if cached size flg then ptr ∈ c.objects (sizeToIndex size) else (⟨ptr, size⟩ : Request) ∈ c.pages

instance (c : Client) (ptr size : Nat) (flg : AllocFlag) : Decidable (c.Owns ptr size flg) :=
  inferInstanceAs (Decidable (if cached size flg then ptr ∈ c.objects (sizeToIndex size)
    else (⟨ptr, size⟩ : Request) ∈ c.pages))

/-- The client without what it gives back. -/
def Client.drop (c : Client) (s' : KState) (ptr size : Nat) (flg : AllocFlag) : Client :=
  if cached size flg then
    ⟨s', c.pages,
      Function.update c.objects (sizeToIndex size) ((c.objects (sizeToIndex size)).erase ptr)⟩
  else ⟨s', c.pages.erase ⟨ptr, size⟩, c.objects⟩

/-- A call of `phys_kfree`. -/
def Client.kfree (L : Layout) (slabCaches ptr size : Nat) (flg : AllocFlag) (c : Client) :
    Option Client :=
  if c.Owns ptr size flg then
    match physKfree slabCaches ptr size flg L c.s with
    | .ok ((), s') => some (c.drop s' ptr size flg)
    | .error _ => none
  else none

/-- A block of pages is as long as its order says. -/
def pageBlock (r : Request) : Block := ⟨r.addr, chunkBytes (Buddy.orderOf r.size)⟩

/-- An object of cache `i`. -/
def object (i o : Nat) : Block := ⟨o, 2 ^ (i + 4)⟩

/-- All that is handed out. -/
def Client.allocations (c : Client) : List Block :=
  c.pages.map pageBlock ++ (List.range 8).flatMap fun i => (c.objects i).map (object i)

/-- What may be written between calls: what is handed out, and what is no part of the allocator. -/
def Client.Writable (L : Layout) (slabCaches base size : Nat) (c : Client) (a : Nat) : Prop :=
  InBlocks c.allocations a ∨
  (¬ Realm L base size a ∧ ¬ (slabCaches ≤ a ∧ a < slabCaches + cacheSize * 8))

/-- One step: a call, or what is written between calls. A free into the lists merges only with
blocks that are on them. -/
inductive Step (L : Layout) (slabCaches base size : Nat) : Client → Client → Prop
  | kmalloc {c c' : Client} {sz : Nat} {flg : AllocFlag} : c.kmalloc L slabCaches sz flg = some c' →
      Step L slabCaches base size c c'
  | kfree {c c' : Client} {ptr sz : Nat} {flg : AllocFlag} :
      (cached sz flg = false → sz ≠ 0 → SoundFree L base size c.s.mem ⟨ptr, sz⟩) →
      c.kfree L slabCaches ptr sz flg = some c' → Step L slabCaches base size c c'
  | others {c : Client} {s' : KState} : View s'.physMapOffset → (s'.lock .buddyLock).Free →
      (s'.lock .slabLock).Free →
      (∀ a f, s'.mem a f ≠ c.s.mem a f → c.Writable L slabCaches base size a) →
      Step L slabCaches base size c ⟨s', c.pages, c.objects⟩

/-- `__init_phys_kmalloc` ran, with this range of installed memory, and nothing is allocated. -/
structure Start (L : Layout) (B : BootStatics) (I : BootInput) (base size : Nat) (c : Client) :
    Prop where
  statics : InBss L B
  range : managedRange L.kernelEnd I.entries = (base, size)
  phys : ∀ p, base ≤ p → p < base + size % 2 ^ 54 → L.phys p = true
  init : ∃ s₀ shown, View s₀.physMapOffset ∧ initPhysKmalloc B I L s₀ = .ok (shown, c.s)
  pages : c.pages = []
  objects : c.objects = fun _ => []

/-! ## The books beside a run -/

section Books

variable {α : Type} {L : Layout} {s s' t : KState}

/-- The state with books. -/
def withBooks (s : KState) (bs : List Block) : KState := { s with blocks := bs }

/-- States that agree but for the books are the same with books. -/
theorem eq_withBooks (h : Masked erased s t) : t = withBooks s t.blocks := by
  have hlock : t.lock = s.lock := funext fun id => h.lock id (fun hl => hl)
  show t = ⟨s.mem, s.physMapOffset, s.lock, s.rflags, s.apicId, t.blocks⟩
  rw [← mem_eq h, ← hlock, ← h.offset, ← h.rflags, ← h.apicId]

/-- What a run with books returns, the run without them returns. -/
theorem run_of_books {x y : K α} [h : Unaware erased L x y] {bs : List Block} {a : α}
    (hy : y L (withBooks s bs) = .ok (a, t)) :
    ∃ s', x L s = .ok (a, s') ∧ t = withBooks s' t.blocks := by
  have hmasked : Masked erased s (withBooks s bs) :=
    ⟨fun _ _ _ => rfl, trivial, fun _ _ => rfl, rfl, rfl, rfl, trivial⟩
  have hout := h.alike hmasked
  rw [hy] at hout
  cases hx : x L s with
  | error e => simp [hx, SameOutcome] at hout
  | ok q =>
    rw [hx] at hout
    obtain ⟨b, s'⟩ := q
    obtain ⟨rfl, hst⟩ := hout
    exact ⟨s', rfl, eq_withBooks hst⟩

end Books

/-! ## Everybody has something of their own -/

variable {L : Layout} {B : BootStatics} {I : BootInput} {base size slabCaches : Nat}

/-- A slab of a cache, as a block. -/
def slabBlock (g : Slab.Geometry) (d : Nat) : Block := ⟨d, g.bytes⟩

/-- The books are right, the caches are sound, and each block on the books that is a client's or a
cache's is only that one's. -/
structure Inv (hm : Linkable L base size) (slabCaches : Nat) (g : Nat → Slab.Geometry) (c : Client)
    (bs : List Block) (slabs : Nat → List Nat) : Prop where
  image : ∀ i, i < cacheSize * 8 → L.image (slabCaches + i) = true
  booked : Booked L base size (withBooks c.s bs)
  cache : ∀ i, i < 8 →
    ∃ lists chain, Slab.Inv (buddyAlloc L base size hm).toPageSource (slabCache slabCaches i)
    (g i) ⟨withBooks c.s bs, c.objects i, slabs i⟩ lists chain
  slot : ∀ i, i < 8 → (g i).size = 2 ^ (i + 4)
  beyond : ∀ i, 8 ≤ i → c.objects i = []
  small : ∀ r ∈ c.pages, r.size ≤ chunkBytes 10
  page : ∀ r ∈ c.pages, pageBlock r ∈ bs
  pages : (c.pages.map pageBlock).Nodup
  page_slab : ∀ r ∈ c.pages, ∀ i, i < 8 → ∀ d ∈ slabs i, pageBlock r ≠ slabBlock (g i) d
  slab_slab : ∀ i, i < 8 → ∀ j, j < 8 → i ≠ j → ∀ d ∈ slabs i, ∀ e ∈ slabs j,
    slabBlock (g i) d ≠ slabBlock (g j) e

namespace Inv

variable {hm : Linkable L base size} {g : Nat → Slab.Geometry} {c : Client} {bs : List Block}
    {slabs : Nat → List Nat}
  {i j : Nat}

/-- A slab is on the books. -/
theorem slab (h : Inv hm slabCaches g c bs slabs) (hi : i < 8) {d : Nat} (hd : d ∈ slabs i) :
    slabBlock (g i) d ∈ bs := by
  obtain ⟨lists, chain, hc⟩ := h.cache i hi
  obtain ⟨k, hk⟩ := (hc.slabs d).mp hd
  exact hc.cache.block k d hk

theorem apart (h : Inv hm slabCaches g c bs slabs) {b b' : Block} (hb : b ∈ bs) (hb' : b' ∈ bs)
    (hne : b ≠ b') :
    b.Apart b' :=
  h.booked.apart.forall hb hb' hne

/-- An object is in a slab of its cache. -/
theorem object_slab (h : Inv hm slabCaches g c bs slabs) (hi : i < 8) {o : Nat}
    (ho : o ∈ c.objects i) :
    ∃ d ∈ slabs i, d ≤ o ∧ o + 2 ^ (i + 4) ≤ d + (g i).bytes := by
  obtain ⟨lists, chain, hc⟩ := h.cache i hi
  obtain ⟨k, d, hd, hod, -⟩ := (hc.cache.mem.live_iff o).mp ho
  have hb := Slab.Geometry.slot_bounds hod
  have hsize := h.slot i hi
  exact ⟨d, (hc.slabs d).mpr ⟨k, hd⟩, by omega, by omega⟩

/-- No two allocations overlap. -/
theorem allocations_apart (h : Inv hm slabCaches g c bs slabs) :
    c.allocations.Pairwise Block.Apart := by
  have hobject : ∀ {i o b}, i < 8 → o ∈ c.objects i →
    (∀ d ∈ slabs i, Block.Apart b (slabBlock (g i) d)) →
      Block.Apart b (object i o) := by
    intro i o b hi ho hap
    obtain ⟨d, hd, h1, h2⟩ := h.object_slab hi ho
    have := hap d hd
    simp only [Block.Apart, slabBlock, object] at this ⊢
    omega
  refine List.pairwise_append.mpr ⟨?_, List.pairwise_flatMap.mpr ⟨?_, ?_⟩, ?_⟩
  · refine h.pages.imp_of_mem (fun {b b'} hb hb' hne => ?_)
    obtain ⟨r, hr, rfl⟩ := List.mem_map.mp hb
    obtain ⟨r', hr', rfl⟩ := List.mem_map.mp hb'
    exact h.apart (h.page r hr) (h.page r' hr') hne
  · -- two objects of one cache
    intro i hi
    have hi := List.mem_range.mp hi
    obtain ⟨lists, chain, hc⟩ := h.cache i hi
    rw [List.pairwise_map]
    refine hc.cache.mem.live_nodup.imp_of_mem (fun {o o'} ho ho' hne => ?_)
    have := hc.cache.mem.live_disjoint ho ho' hne
    rw [h.slot i hi] at this
    exact this
  · -- objects of two caches
    refine (List.nodup_range).imp_of_mem (fun {i j} hi hj hne => ?_)
    have hi := List.mem_range.mp hi
    have hj := List.mem_range.mp hj
    intro b hb b' hb'
    obtain ⟨o, ho, rfl⟩ := List.mem_map.mp hb
    obtain ⟨o', ho', rfl⟩ := List.mem_map.mp hb'
    obtain ⟨d, hd, h1, h2⟩ := h.object_slab hi ho
    refine hobject hj ho' (fun e he => ?_)
    have := h.apart (h.slab hi hd) (h.slab hj he) (h.slab_slab i hi j hj hne d hd e he)
    simp only [Block.Apart, slabBlock, object] at this ⊢
    omega
  · intro b hb b' hb'
    obtain ⟨r, hr, rfl⟩ := List.mem_map.mp hb
    obtain ⟨i, hi, hb'⟩ := List.mem_flatMap.mp hb'
    have hi := List.mem_range.mp hi
    obtain ⟨o, ho, rfl⟩ := List.mem_map.mp hb'
    exact hobject hi ho
      (fun d hd => h.apart (h.page r hr) (h.slab hi hd) (h.page_slab r hr i hi d hd))

/-- Each allocation is in a block on the books. -/
theorem allocation_block (h : Inv hm slabCaches g c bs slabs) {b : Block} (hb : b ∈ c.allocations) :
    ∃ b' ∈ bs, b'.addr ≤ b.addr ∧ b.addr + b.len ≤ b'.addr + b'.len := by
  rcases List.mem_append.mp hb with hb | hb
  · obtain ⟨r, hr, rfl⟩ := List.mem_map.mp hb
    exact ⟨_, h.page r hr, Nat.le_refl _, Nat.le_refl _⟩
  · obtain ⟨i, hi, hb⟩ := List.mem_flatMap.mp hb
    obtain ⟨o, ho, rfl⟩ := List.mem_map.mp hb
    obtain ⟨d, hd, h1, h2⟩ := h.object_slab (List.mem_range.mp hi) ho
    exact ⟨_, h.slab (List.mem_range.mp hi) hd, h1, h2⟩

/-! ## What others do -/

/-- A cache stays as it is if nothing of it is written but its objects. -/
theorem cache_kept (h : Inv hm slabCaches g c bs slabs) {t : KState} (hi : i < 8)
    (hok : Booked L base size t) (hv : View t.physMapOffset) (hlock : (t.lock .slabLock).Free)
    (hblocks : ∀ d ∈ slabs i, slabBlock (g i) d ∈ t.blocks) (hout : ∀ a f, t.mem a f ≠ c.s.mem a f →
      ¬ (slabCache slabCaches i ≤ a ∧ a < slabCache slabCaches i + cacheSize))
    (hin : ∀ a f, t.mem a f ≠ c.s.mem a f → ∀ d ∈ slabs i, d ≤ a → a < d + (g i).bytes →
      ∃ o ∈ c.objects i, o ≤ a ∧ a < o + 2 ^ (i + 4)) :
    ∃ lists chain, Slab.Inv (buddyAlloc L base size hm).toPageSource (slabCache slabCaches i) (g i)
      ⟨t, c.objects i, slabs i⟩ lists chain := by
  obtain ⟨lists, chain, hc⟩ := h.cache i hi
  refine ⟨lists, chain,
    hc.others hok hv hlock ?_ (fun a f hne => ⟨hout a f hne, fun d hd h1 h2 => ?_⟩)⟩
  · rw [hc.cache.mem.slabSize_eq]
    exact hblocks
  · rw [hc.cache.mem.slabSize_eq] at h2
    rw [hc.cache.mem.objectSize, h.slot i hi]
    exact hin a f hne d hd h1 h2

/-- A cache is in the image. -/
theorem cache_image (h : Inv hm slabCaches g c bs slabs) (hi : i < 8) {a : Nat}
    (h1 : slabCache slabCaches i ≤ a) (h2 : a < slabCache slabCaches i + cacheSize) :
    L.image a = true := by
  unfold slabCache at h1 h2
  have := h.image (a - slabCaches) (by unfold cacheSize at *; omega)
  rwa [Nat.add_sub_cancel' (by omega)] at this

theorem slabCache_apart {i j a : Nat} (hij : i ≠ j) (h1 : slabCache slabCaches i ≤ a)
    (h2 : a < slabCache slabCaches i + cacheSize) :
    ¬ (slabCache slabCaches j ≤ a ∧ a < slabCache slabCaches j + cacheSize) := by
  unfold slabCache cacheSize at *
  omega

/-- An address of a slab is installed memory, and managed. -/
theorem slab_realm (h : Inv hm slabCaches g c bs slabs) (hi : i < 8) {d a : Nat} (hd : d ∈ slabs i)
    (h1 : d ≤ a) (h2 : a < d + (g i).bytes) : L.phys a = true ∧ Realm L base size a :=
  (h.booked.block hm (h.slab hi hd)).2 a h1 h2

/-- Nobody's cache is in the allocator's realm. -/
theorem cache_unmanaged (h : Inv hm slabCaches g c bs slabs) (hi : i < 8) {a : Nat}
    (h1 : slabCache slabCaches i ≤ a) (h2 : a < slabCache slabCaches i + cacheSize) :
    ¬ Realm L base size a := by
  obtain ⟨lists, chain, hc⟩ := h.cache i hi
  exact hc.cache.unmanaged a h1 h2

/-! ## A call of a cache -/

section SlabCall

variable {t s' : KState} {lists lists' : Slab.SlabList → List Nat} {chain chain' : Nat → List Nat}
  {fresh kept live' : List Nat}

/-- What a call of cache `j` writes is in no other cache, and in no slab of one. -/
theorem slab_call_out (h : Inv hm slabCaches g c bs slabs) (hj : j < 8)
    (hc : Slab.Inv (buddyAlloc L base size hm).toPageSource (slabCache slabCaches j) (g j)
      ⟨withBooks c.s bs, c.objects j, slabs j⟩ lists chain)
    (hframe : Slab.CallFrame (buddyAlloc L base size hm).toPageSource (g j)
      (slabCache slabCaches j) lists kept
      (withBooks c.s bs) t)
    (hi : i < 8) (hij : i ≠ j) {a : Nat} {f : Field} (hne : t.mem a f ≠ c.s.mem a f) :
    ¬ (slabCache slabCaches i ≤ a ∧ a < slabCache slabCaches i + cacheSize) ∧
      ∀ d ∈ slabs i, ¬ (d ≤ a ∧ a < d + (g i).bytes) := by
  rcases hframe.mem a f hne with ⟨h1, h2⟩ | ⟨hman, hout⟩ | ⟨⟨k, e, he, h1, h2⟩, -⟩
  · refine ⟨slabCache_apart (Ne.symm hij) h1 h2, fun d hd hin => ?_⟩
    exact phys_ne_image (h.slab_realm hi hd hin.1 hin.2).1 (h.cache_image hj h1 h2) rfl
  · exact ⟨fun hin => h.cache_unmanaged hi hin.1 hin.2 hman,
      fun d hd hin => hout ⟨_, h.slab hi hd, hin⟩⟩
  · have he : e ∈ slabs j := (hc.slabs e).mpr ⟨k, he⟩
    refine ⟨fun hin => phys_ne_image (h.slab_realm hj he h1 h2).1 (h.cache_image hi hin.1 hin.2)
      rfl, fun d hd hin => ?_⟩
    have := h.apart (h.slab hi hd) (h.slab hj he) (h.slab_slab i hi j hj hij d hd e he)
    simp only [Block.Apart, slabBlock] at this
    omega

/-- It is in no allocation that the call is not about. -/
theorem slab_call_kept (h : Inv hm slabCaches g c bs slabs) (hj : j < 8)
    (hc : Slab.Inv (buddyAlloc L base size hm).toPageSource (slabCache slabCaches j) (g j)
      ⟨withBooks c.s bs, c.objects j, slabs j⟩ lists chain)
    (hframe : Slab.CallFrame (buddyAlloc L base size hm).toPageSource (g j)
      (slabCache slabCaches j) lists kept
      (withBooks c.s bs) t) (hkept : ∀ o ∈ kept, o ∈ c.objects j) {b : Block}
    (hb : b ∈ Client.allocations ⟨s', c.pages, Function.update c.objects j kept⟩)
    {a : Nat} {f : Field} (h1 : b.addr ≤ a) (h2 : a < b.addr + b.len) :
    t.mem a f = c.s.mem a f := by
  by_contra hne
  rcases List.mem_append.mp hb with hb | hb
  · obtain ⟨r, hr, rfl⟩ := List.mem_map.mp hb
    have hbs := h.page r hr
    have hphys := ((h.booked.block hm hbs).2 a h1 h2).1
    rcases hframe.mem a f hne with ⟨h3, h4⟩ | ⟨-, hout⟩ | ⟨⟨k, e, he, h3, h4⟩, -⟩
    · exact phys_ne_image hphys (h.cache_image hj h3 h4) rfl
    · exact hout ⟨_, hbs, h1, h2⟩
    · have he : e ∈ slabs j := (hc.slabs e).mpr ⟨k, he⟩
      have := h.apart hbs (h.slab hj he) (h.page_slab r hr j hj e he)
      simp only [Block.Apart, slabBlock] at this
      omega
  · obtain ⟨i, hi, hb⟩ := List.mem_flatMap.mp hb
    have hi := List.mem_range.mp hi
    obtain ⟨o, ho, rfl⟩ := List.mem_map.mp hb
    change o ∈ Function.update c.objects j kept i at ho
    by_cases hij : i = j
    · subst hij
      rw [Function.update_self] at ho
      obtain ⟨d, hd, h3, h4⟩ := h.object_slab hi (hkept o ho)
      have hsize := h.slot i hi
      simp only [object] at h1 h2
      rcases hframe.mem a f hne with ⟨h5, h6⟩ | ⟨-, hout⟩ | ⟨-, hout⟩
      · exact phys_ne_image (h.slab_realm hi hd (by omega) (by omega)).1
          (h.cache_image hi h5 h6) rfl
      · exact hout ⟨_, h.slab hi hd, by simp only [slabBlock]; omega,
          by simp only [slabBlock]; omega⟩
      · exact hout o ho ⟨h1, by omega⟩
    · rw [Function.update_of_ne hij] at ho
      obtain ⟨d, hd, h3, h4⟩ := h.object_slab hi ho
      simp only [object] at h1 h2
      exact (h.slab_call_out hj hc hframe hi hij hne).2 d hd ⟨by omega, by omega⟩

/-- **A call of a cache keeps the invariant**: its new slabs were nobody's. -/
theorem slab_call (h : Inv hm slabCaches g c bs slabs) (hj : j < 8)
    (hc : Slab.Inv (buddyAlloc L base size hm).toPageSource (slabCache slabCaches j) (g j)
      ⟨withBooks c.s bs, c.objects j, slabs j⟩ lists chain)
    (hcache : Slab.CacheInv (buddyAlloc L base size hm).toPageSource (g j) (slabCache slabCaches j)
      t lists' chain' live')
    (hframe : Slab.CallFrame (buddyAlloc L base size hm).toPageSource (g j)
      (slabCache slabCaches j) lists kept
      (withBooks c.s bs) t)
    (ht : t = withBooks s' t.blocks) (hblocks : t.blocks = fresh.map (slabBlock (g j)) ++ bs)
    (hnd : fresh.Nodup) (hfresh : ∀ e ∈ fresh, ∀ k, e ∉ lists k)
    (hslabs : ∀ e, (∃ k, e ∈ lists' k) ↔ e ∈ fresh ∨ ∃ k, e ∈ lists k) :
    Inv hm slabCaches g ⟨s', c.pages, Function.update c.objects j live'⟩ t.blocks
      (Function.update slabs j (fresh ++ slabs j)) := by
  have hbooked : Booked L base size t := hcache.ok
  have hsub : ∀ {b}, b ∈ bs → b ∈ t.blocks := fun hb => by
    rw [hblocks]
    exact List.mem_append_right _ hb
  -- a new slab is no block that was on the books
  have hnew : ∀ d ∈ fresh, ∀ b ∈ bs, b ≠ slabBlock (g j) d := by
    rintro d hd b hb rfl
    have hpair := hbooked.apart
    rw [hblocks] at hpair
    have := (List.pairwise_append.mp hpair).2.2 _ (List.mem_map_of_mem hd) _ hb
    have hpos := (g j).bytes_pos
    simp only [Block.Apart, slabBlock] at this
    omega
  have hmem : ∀ {i d}, i < 8 → d ∈ Function.update slabs j (fresh ++ slabs j) i →
      (i = j ∧ d ∈ fresh) ∨ d ∈ slabs i := by
    intro i d hi hd
    by_cases hij : i = j
    · subst hij
      rw [Function.update_self] at hd
      exact (List.mem_append.mp hd).imp (fun hd => ⟨rfl, hd⟩) id
    · rw [Function.update_of_ne hij] at hd
      exact Or.inr hd
  refine ⟨h.image, ht ▸ hbooked, fun i hi => ?_, h.slot, fun i hi => ?_, h.small,
    fun r hr => hsub (h.page r hr), h.pages, fun r hr i hi d hd => ?_,
    fun i hi k hk hik d hd e he => ?_⟩
  · rw [← ht]
    by_cases hij : i = j
    · subst hij
      simp only [Function.update_self]
      refine ⟨lists', chain', hcache, List.Nodup.append hnd hc.nodup (fun e he hc' => ?_),
        fun e => ?_⟩
      · obtain ⟨k, hk⟩ := (hc.slabs e).mp hc'
        exact hfresh e he k hk
      · rw [List.mem_append, hslabs, ← hc.slabs e]
    · simp only [Function.update_of_ne hij]
      refine h.cache_kept hi hbooked hcache.view hcache.lock (fun d hd => hsub (h.slab hi hd))
        (fun a f hne => (h.slab_call_out hj hc hframe hi hij hne).1) (fun a f hne d hd h1 h2 => ?_)
      exact absurd ⟨h1, h2⟩ ((h.slab_call_out hj hc hframe hi hij hne).2 d hd)
  · show Function.update c.objects j live' i = []
    rw [Function.update_of_ne (by omega)]
    exact h.beyond i hi
  · rcases hmem hi hd with ⟨rfl, hd'⟩ | hd'
    · exact hnew d hd' _ (h.page r hr)
    · exact h.page_slab r hr i hi d hd'
  · rcases hmem hi hd with ⟨rfl, hd'⟩ | hd'
    · have he' := (hmem hk he).resolve_left (fun hke => hik hke.1.symm)
      exact (hnew d hd' _ (h.slab hk he')).symm
    · rcases hmem hk he with ⟨rfl, he'⟩ | he'
      · exact hnew e he' _ (h.slab hi hd')
      · exact h.slab_slab i hi k hk hik d hd' e he'

/-- `slab_kalloc` returns. -/
theorem slabKalloc (h : Inv hm slabCaches g c bs slabs) {sz : Nat} (hsz : sz ≤ 2048)
    (hj : sizeToIndex sz < 8) :
    ∃ p s' bs' slabs', MikroKernel.slabKalloc buddyKalloc slabCaches sz L c.s = .ok (p, s') ∧
      Inv hm slabCaches g ⟨s', c.pages, Function.update c.objects (sizeToIndex sz)
        (if p = 0 then c.objects (sizeToIndex sz) else p :: c.objects (sizeToIndex sz))⟩
          bs' slabs' ∧
      ∀ b ∈ c.allocations, ∀ a f, b.addr ≤ a → a < b.addr + b.len → s'.mem a f = c.s.mem a f := by
  obtain ⟨lists, chain, hc⟩ := h.cache _ hj
  obtain ⟨p, t, lists', chain', fresh, hrun, hcache, hframe, hblocks, hnd, hfresh, hslabs, -⟩ :=
    Slab.kmemCacheKalloc_returns hc.cache
  obtain ⟨s', hrun', ht⟩ := run_of_books
    (x := kmemCacheKalloc buddyKalloc (slabCache slabCaches (sizeToIndex sz))) hrun
  have hmem : s'.mem = t.mem := by rw [ht]; rfl
  refine ⟨p, s', t.blocks, _, ?_, h.slab_call hj hc hcache hframe ht hblocks hnd hfresh hslabs,
    fun b hb a f h1 h2 => ?_⟩
  · unfold MikroKernel.slabKalloc
    rw [if_neg (by omega), if_neg (by omega)]
    exact hrun'
  · rw [hmem]
    have hb' : b ∈ Client.allocations ⟨c.s, c.pages,
        Function.update c.objects (sizeToIndex sz) (c.objects (sizeToIndex sz))⟩ := by
      rw [Function.update_eq_self]
      exact hb
    exact h.slab_call_kept hj hc hframe (fun _ ho => ho) hb' h1 h2

/-- `slab_kfree` of an object returns. -/
theorem slabKfree (h : Inv hm slabCaches g c bs slabs) {ptr sz : Nat}
    (ho : ptr ∈ c.objects (sizeToIndex sz)) :
    ∃ s' bs' slabs', MikroKernel.slabKfree slabCaches ptr sz L c.s = .ok ((), s') ∧
      Inv hm slabCaches g ⟨s', c.pages, Function.update c.objects (sizeToIndex sz)
        ((c.objects (sizeToIndex sz)).erase ptr)⟩ bs' slabs' ∧
      ∀ b ∈ Client.allocations ⟨s', c.pages, Function.update c.objects (sizeToIndex sz)
        ((c.objects (sizeToIndex sz)).erase ptr)⟩,
        ∀ a f, b.addr ≤ a → a < b.addr + b.len → s'.mem a f = c.s.mem a f := by
  have hj : sizeToIndex sz < 8 := by
    by_contra hge
    rw [h.beyond _ (by omega)] at ho
    exact absurd ho List.not_mem_nil
  obtain ⟨lists, chain, hc⟩ := h.cache _ hj
  obtain ⟨t, lists', chain', hrun, hcache, hframe, hblocks, hslabs⟩ :=
    Slab.kmemCacheKfree_returns hc.cache ho
  obtain ⟨s', hrun', ht⟩ := run_of_books
    (x := kmemCacheKfree (slabCache slabCaches (sizeToIndex sz)) ptr) hrun
  have hmem : s'.mem = t.mem := by rw [ht]; rfl
  refine ⟨s', t.blocks, _, ?_, h.slab_call hj hc hcache hframe ht
    (show t.blocks = [].map (slabBlock (g (sizeToIndex sz))) ++ bs from hblocks) List.nodup_nil
      (by simp)
    (by simpa using hslabs), fun b hb a f h1 h2 => ?_⟩
  · unfold MikroKernel.slabKfree
    rw [if_neg (by omega)]
    exact hrun'
  · rw [hmem]
    exact h.slab_call_kept hj hc hframe (fun _ ho => List.mem_of_mem_erase ho) hb h1 h2

end SlabCall

/-! ## A call of the buddy allocator -/

section PageCall

variable {t s' : KState} {keep : List Block}

/-- What a call of the buddy allocator writes is in no allocation that it keeps. -/
theorem page_call_kept
    (hframe : AllocFrame (Realm L base size) keep (withBooks c.s bs) t) {b : Block}
    (hb : ∃ b' ∈ keep, b'.addr ≤ b.addr ∧ b.addr + b.len ≤ b'.addr + b'.len) {a : Nat} {f : Field}
    (h1 : b.addr ≤ a) (h2 : a < b.addr + b.len) : t.mem a f = c.s.mem a f := by
  by_contra hne
  obtain ⟨b', hb', h3, h4⟩ := hb
  exact (hframe.mem a f hne).2 ⟨b', hb', by omega, by omega⟩

/-- It keeps the caches. -/
theorem page_call_caches (h : Inv hm slabCaches g c bs slabs)
    (hframe : AllocFrame (Realm L base size) keep (withBooks c.s bs) t)
    (hkeep : ∀ i, i < 8 → ∀ d ∈ slabs i, slabBlock (g i) d ∈ keep) (bs' : List Block)
    (hbooked : Booked L base size { t with blocks := bs' }) (hsub : ∀ b ∈ keep, b ∈ bs')
    (hi : i < 8) :
    ∃ lists chain, Slab.Inv (buddyAlloc L base size hm).toPageSource (slabCache slabCaches i) (g i)
      ⟨{ t with blocks := bs' }, c.objects i, slabs i⟩ lists chain := by
  obtain ⟨lists, chain, hc⟩ := h.cache i hi
  refine h.cache_kept hi hbooked ?_ (hframe.free _ hc.cache.lock)
    (fun d hd => hsub _ (hkeep i hi d hd)) ?_ ?_
  · show View t.physMapOffset
    rw [hframe.offset]
    exact hc.cache.view
  · exact fun a f hne hin => h.cache_unmanaged hi hin.1 hin.2 (hframe.mem a f hne).1
  · exact fun a f hne d hd h1 h2 => absurd ⟨_, hkeep i hi d hd, h1, h2⟩ (hframe.mem a f hne).2

theorem selectOrder_eq {sz : Nat} (hsz : sz ≤ chunkBytes 10) :
    selectOrder sz = pure (Buddy.orderOf sz) := by
  unfold selectOrder
  rw [(orderOf_spec hsz).1]

/-- What counts of a request is its order. -/
theorem buddyKalloc_order {sz : Nat} (hsz : sz ≤ chunkBytes 10) :
    buddyKalloc sz = buddyKalloc (pageSize * 2 ^ Buddy.orderOf sz) := by
  have h10 := (orderOf_spec hsz).2.1
  rw [show pageSize * 2 ^ Buddy.orderOf sz = chunkBytes (Buddy.orderOf sz) from Nat.mul_comm _ _]
  unfold buddyKalloc
  rw [selectOrder_eq hsz, selectOrder_eq (chunkBytes_le h10), orderOf_chunkBytes h10]

/-- `buddy_kalloc` returns. -/
theorem buddyKalloc (h : Inv hm slabCaches g c bs slabs) {sz : Nat} (hsz : sz ≤ chunkBytes 10) :
    ∃ p s' bs', MikroKernel.buddyKalloc sz L c.s = .ok (p, s') ∧
      Inv hm slabCaches g ⟨s', if p = 0 then c.pages else ⟨p, sz⟩ :: c.pages, c.objects⟩ bs' slabs ∧
      ∀ b ∈ c.allocations, ∀ a f, b.addr ≤ a → a < b.addr + b.len → s'.mem a f = c.s.mem a f := by
  obtain ⟨p, t, hrun, hbooked, hframe, hcase⟩ := h.booked.kalloc hm (orderOf_spec hsz).2.1
  obtain ⟨s', hrun', ht⟩ := run_of_books
    (x := MikroKernel.buddyKalloc (pageSize * 2 ^ Buddy.orderOf sz)) hrun
  have hmem : s'.mem = t.mem := by rw [ht]; rfl
  have hlen : pageSize * 2 ^ Buddy.orderOf sz = chunkBytes (Buddy.orderOf sz) := Nat.mul_comm _ _
  have hsub : ∀ b ∈ bs, b ∈ t.blocks := by
    rcases hcase with ⟨-, hb⟩ | ⟨-, -, hb⟩
    · exact fun b hb' => hb ▸ hb'
    · exact fun b hb' => hb ▸ List.mem_cons_of_mem _ hb'
  have hcaches := fun i (hi : i < 8) =>
    h.page_call_caches hframe (fun i hi d hd => h.slab hi hd) t.blocks hbooked hsub hi
  have hself : ({ t with blocks := t.blocks } : KState) = withBooks s' t.blocks := ht
  rw [hself] at hcaches
  refine ⟨p, s', t.blocks, buddyKalloc_order hsz ▸ hrun', ?_, fun b hb a f h1 h2 => ?_⟩
  · rcases hcase with ⟨rfl, hb⟩ | ⟨hp, -, hb⟩
    · rw [if_pos rfl]
      exact ⟨h.image, ht ▸ hbooked, hcaches, h.slot, h.beyond, h.small,
        fun r hr => hsub _ (h.page r hr), h.pages, h.page_slab, h.slab_slab⟩
    · rw [if_neg hp]
      -- the block is none of those that were on the books
      have hnew : ∀ b ∈ bs, b ≠ pageBlock ⟨p, sz⟩ := by
        rintro b hb' rfl
        have hpair := hbooked.apart
        rw [hb] at hpair
        have := (List.pairwise_cons.mp hpair).1 _ hb'
        have hpos := chunkBytes_pos (Buddy.orderOf sz)
        simp only [Block.Apart, pageBlock, hlen] at this
        omega
      refine ⟨h.image, ht ▸ hbooked, hcaches, h.slot, h.beyond,
        List.forall_mem_cons.mpr ⟨hsz, h.small⟩, List.forall_mem_cons.mpr ⟨?_,
          fun r hr => hsub _ (h.page r hr)⟩, ?_,
        List.forall_mem_cons.mpr ⟨fun i hi d hd => (hnew _ (h.slab hi hd)).symm, h.page_slab⟩,
        h.slab_slab⟩
      · rw [hb, hlen]
        exact List.mem_cons_self
      · refine List.nodup_cons.mpr ⟨fun hin => ?_, h.pages⟩
        obtain ⟨r, hr, heq⟩ := List.mem_map.mp hin
        exact hnew _ (h.page r hr) heq
  · rw [hmem]
    exact page_call_kept hframe (h.allocation_block hb) h1 h2

/-- `buddy_kfree` of a block returns, if it merges only with blocks on the lists. -/
theorem buddyKfree (h : Inv hm slabCaches g c bs slabs) {ptr sz : Nat}
    (hr : (⟨ptr, sz⟩ : Request) ∈ c.pages)
    (hsound : sz ≠ 0 → SoundFree L base size c.s.mem ⟨ptr, sz⟩) :
    ∃ s' bs', MikroKernel.buddyKfree ptr sz L c.s = .ok ((), s') ∧
      Inv hm slabCaches g ⟨s', c.pages.erase ⟨ptr, sz⟩, c.objects⟩ bs' slabs ∧
      ∀ b ∈ Client.allocations ⟨s', c.pages.erase ⟨ptr, sz⟩, c.objects⟩,
        ∀ a f, b.addr ≤ a → a < b.addr + b.len → s'.mem a f = c.s.mem a f := by
  have hperm : (c.pages.map pageBlock).Perm
      (pageBlock ⟨ptr, sz⟩ :: (c.pages.erase ⟨ptr, sz⟩).map pageBlock) :=
    (List.perm_cons_erase hr).map pageBlock
  obtain ⟨hnot, hnd⟩ := List.nodup_cons.mp (hperm.nodup_iff.mp h.pages)
  have hold : ∀ r ∈ c.pages.erase ⟨ptr, sz⟩, r ∈ c.pages := fun r hr => List.mem_of_mem_erase hr
  by_cases h0 : sz = 0
  · -- nothing is given back, and the block is nobody's
    refine ⟨c.s, bs, by rw [h0]; exact buddyKfree_zero ptr L c.s, ?_, fun b _ a f _ _ => rfl⟩
    exact ⟨h.image, h.booked, h.cache, h.slot, h.beyond, fun r hr => h.small r (hold r hr),
      fun r hr => h.page r (hold r hr), hnd, fun r hr => h.page_slab r (hold r hr), h.slab_slab⟩
  · obtain ⟨t, hrun, hbooked, hframe, -⟩ :=
      h.booked.kfree hm (h.page _ hr) h0 (h.small _ hr) (hsound h0)
    obtain ⟨s', hrun', ht⟩ := run_of_books (x := MikroKernel.buddyKfree ptr sz) hrun
    have hmem : s'.mem = t.mem := by rw [ht]; rfl
    obtain ⟨keep, hkeep⟩ : ∃ keep, keep = bs.erase ⟨ptr, chunkBytes (Buddy.orderOf sz)⟩ := ⟨_, rfl⟩
    have hslab : ∀ i, i < 8 → ∀ d ∈ slabs i, slabBlock (g i) d ∈ keep := fun i hi d hd => by
      rw [hkeep]
      exact (List.mem_erase_of_ne (h.page_slab _ hr i hi d hd).symm).mpr (h.slab hi hd)
    have hpage : ∀ r ∈ c.pages.erase ⟨ptr, sz⟩, pageBlock r ∈ keep := fun r hr' => by
      rw [hkeep]
      refine (List.mem_erase_of_ne (fun heq => hnot ?_)).mpr (h.page r (hold r hr'))
      exact List.mem_map.mpr ⟨r, hr', heq⟩
    rw [show (withBooks c.s bs).blocks.erase ⟨ptr, chunkBytes (Buddy.orderOf sz)⟩ = keep
      from hkeep.symm] at hbooked hframe
    have hcaches :=
      fun i (hi : i < 8) => h.page_call_caches hframe hslab keep hbooked (fun _ hb => hb) hi
    rw [show ({ t with blocks := keep } : KState) = withBooks s' keep by rw [ht]; rfl]
      at hbooked hcaches
    have hinv : Inv hm slabCaches g ⟨s', c.pages.erase ⟨ptr, sz⟩, c.objects⟩ keep slabs :=
      ⟨h.image, hbooked, hcaches, h.slot, h.beyond, fun r hr => h.small r (hold r hr), hpage, hnd,
        fun r hr => h.page_slab r (hold r hr), h.slab_slab⟩
    refine ⟨s', keep, hrun', hinv, fun b hb a f h1 h2 => ?_⟩
    rw [hmem]
    exact page_call_kept hframe (hinv.allocation_block hb) h1 h2

end PageCall

/-! ## The dispatchers -/

/-- A request for a cache that takes no such size. -/
theorem slabKalloc_refuses {sz : Nat} (h : ¬ (sz ≤ 2048 ∧ sizeToIndex sz < 8)) (s : KState) :
    MikroKernel.slabKalloc MikroKernel.buddyKalloc slabCaches sz L s = .ok (0, s) := by
  unfold MikroKernel.slabKalloc
  by_cases hsz : sz > 2048
  · rw [if_pos hsz]
    rfl
  · rw [if_neg hsz, if_pos (by omega)]
    rfl

theorem physKmalloc_eq (sz : Nat) (flg : AllocFlag) : physKmalloc slabCaches sz flg
    = if cached sz flg then MikroKernel.slabKalloc MikroKernel.buddyKalloc slabCaches sz
      else MikroKernel.buddyKalloc sz := by
  cases flg with
  | buddyAlloc | slabAlloc => rfl
  | chooseAlloc =>
    unfold physKmalloc cached
    simp only [decide_eq_true_eq]

theorem physKfree_eq (ptr sz : Nat) (flg : AllocFlag) : physKfree slabCaches ptr sz flg
    = if cached sz flg then MikroKernel.slabKfree slabCaches ptr sz
        else MikroKernel.buddyKfree ptr sz := by
  cases flg with
  | buddyAlloc | slabAlloc => rfl
  | chooseAlloc =>
    unfold physKfree cached
    simp only [decide_eq_true_eq]

/-- A state with the same client's things is as good. -/
theorem give_zero (h : Inv hm slabCaches g c bs slabs) (sz : Nat) (flg : AllocFlag) :
    Inv hm slabCaches g (c.give c.s sz flg 0) bs slabs := by
  unfold Client.give
  rw [if_pos rfl]
  exact h

/-- **`phys_kmalloc` returns** for every size that does not make the order loop shift by 64, and
writes to nothing that is handed out. -/
theorem kmalloc (h : Inv hm slabCaches g c bs slabs) {sz : Nat} {flg : AllocFlag}
    (h63 : cached sz flg = true ∨ sz ≤ 2 ^ 63) :
    ∃ c' bs' slabs', c.kmalloc L slabCaches sz flg = some c' ∧ Inv hm slabCaches g c' bs' slabs' ∧
      ∀ b ∈ c.allocations, ∀ a f, b.addr ≤ a → a < b.addr + b.len → c'.s.mem a f = c.s.mem a f := by
  unfold Client.kmalloc
  rw [physKmalloc_eq]
  by_cases hcached : cached sz flg = true
  · rw [if_pos hcached]
    by_cases hfits : sz ≤ 2048 ∧ sizeToIndex sz < 8
    · obtain ⟨p, s', bs', slabs', hrun, hinv, hkept⟩ := h.slabKalloc hfits.1 hfits.2
      rw [hrun]
      refine ⟨_, bs', slabs', rfl, ?_, ?_⟩
      · unfold Client.give
        by_cases hp : p = 0
        · rw [if_pos hp, Function.update_eq_self] at hinv
          rw [if_pos hp]
          exact hinv
        · rw [if_neg hp] at hinv
          rw [if_neg hp, if_pos hcached]
          exact hinv
      · rw [Client.give_s]
        exact hkept
    · rw [slabKalloc_refuses hfits]
      exact ⟨_, bs, slabs, rfl, h.give_zero sz flg, fun b _ a f _ _ => by rw [Client.give_s]⟩
  · rw [if_neg hcached]
    by_cases hsz : sz ≤ chunkBytes 10
    · obtain ⟨p, s', bs', hrun, hinv, hkept⟩ := h.buddyKalloc hsz
      rw [hrun]
      refine ⟨_, bs', slabs, rfl, ?_, ?_⟩
      · unfold Client.give
        by_cases hp : p = 0
        · rw [if_pos hp] at hinv ⊢
          exact hinv
        · rw [if_neg hp] at hinv
          rw [if_neg hp, if_neg hcached]
          exact hinv
      · rw [Client.give_s]
        exact hkept
    · obtain ⟨free, howned⟩ := h.booked.owned
      have hrep : Rep L c.s.mem base (size / pageSize) ⟨free, bitOf L c.s.mem⟩ := howned.rep
      rw [buddyKalloc_larger hrep (by omega) (h63.resolve_left hcached)]
      exact ⟨_, bs, slabs, rfl, h.give_zero sz flg, fun b _ a f _ _ => by rw [Client.give_s]⟩

/-- **`phys_kfree` returns**, and writes to nothing that is handed out still. -/
theorem kfree (h : Inv hm slabCaches g c bs slabs) {ptr sz : Nat} {flg : AllocFlag}
    (howns : c.Owns ptr sz flg)
    (hsound : cached sz flg = false → sz ≠ 0 → SoundFree L base size c.s.mem ⟨ptr, sz⟩) :
    ∃ c' bs' slabs', c.kfree L slabCaches ptr sz flg = some c' ∧ Inv hm slabCaches g c' bs' slabs' ∧
      ∀ b ∈ c'.allocations, ∀ a f, b.addr ≤ a → a < b.addr + b.len →
      c'.s.mem a f = c.s.mem a f := by
  unfold Client.kfree
  rw [if_pos howns, physKfree_eq]
  unfold Client.Owns at howns
  by_cases hcached : cached sz flg = true
  · rw [if_pos hcached] at howns ⊢
    obtain ⟨s', bs', slabs', hrun, hinv, hkept⟩ := h.slabKfree howns
    rw [hrun]
    have hdrop : c.drop s' ptr sz flg = _ := if_pos hcached
    exact ⟨_, bs', slabs', rfl, hdrop ▸ hinv, hdrop ▸ hkept⟩
  · rw [if_neg hcached] at howns ⊢
    obtain ⟨s', bs', hrun, hinv, hkept⟩ := h.buddyKfree howns (hsound (by simpa using hcached))
    rw [hrun]
    have hdrop : c.drop s' ptr sz flg = _ := if_neg hcached
    exact ⟨_, bs', slabs, rfl, hdrop ▸ hinv, hdrop ▸ hkept⟩

/-! ## Runs -/

theorem others (h : Inv hm slabCaches g c bs slabs) {s' : KState} (hv : View s'.physMapOffset)
    (hbuddy : (s'.lock .buddyLock).Free) (hslab : (s'.lock .slabLock).Free)
    (hw : ∀ a f, s'.mem a f ≠ c.s.mem a f → c.Writable L slabCaches base size a) :
    Inv hm slabCaches g ⟨s', c.pages, c.objects⟩ bs slabs := by
  have hbooked : Booked L base size (withBooks s' bs) := by
    refine h.booked.frame hm hv (fun _ => hbuddy) rfl (fun a f hne hrealm => ?_)
    rcases hw a f hne with ⟨b, hb, h1, h2⟩ | ⟨hout, -⟩
    · obtain ⟨b', hb', h3, h4⟩ := h.allocation_block hb
      exact ⟨b', hb', by omega, by omega⟩
    · exact absurd hrealm hout
  refine ⟨h.image, hbooked, fun i hi => ?_, h.slot, h.beyond, h.small, h.page, h.pages, h.page_slab,
    h.slab_slab⟩
  refine h.cache_kept hi hbooked hv hslab (fun d hd => h.slab hi hd) (fun a f hne hin => ?_)
    (fun a f hne d hd h1 h2 => ?_)
  · rcases hw a f hne with ⟨b, hb, h1, h2⟩ | ⟨-, hout⟩
    · obtain ⟨b', hb', h3, h4⟩ := h.allocation_block hb
      exact phys_ne_image ((h.booked.block hm hb').2 a (by omega) (by omega)).1
        (h.cache_image hi hin.1 hin.2) rfl
    · unfold slabCache cacheSize at *
      omega
  · rcases hw a f hne with ⟨b, hb, h3, h4⟩ | ⟨hout, -⟩
    · -- what is written there is an object of this cache
      rcases List.mem_append.mp hb with hb | hb
      · obtain ⟨r, hr, rfl⟩ := List.mem_map.mp hb
        have := h.apart (h.page r hr) (h.slab hi hd) (h.page_slab r hr i hi d hd)
        simp only [Block.Apart, slabBlock] at this
        omega
      · obtain ⟨j, hj, hb⟩ := List.mem_flatMap.mp hb
        have hj := List.mem_range.mp hj
        obtain ⟨o, ho, rfl⟩ := List.mem_map.mp hb
        simp only [object] at h3 h4
        by_cases hij : i = j
        · subst hij
          exact ⟨o, ho, h3, h4⟩
        · obtain ⟨e, he, h5, h6⟩ := h.object_slab hj ho
          have := h.apart (h.slab hi hd) (h.slab hj he) (h.slab_slab i hi j hj hij d hd e he)
          simp only [Block.Apart, slabBlock] at this
          omega
    · exact absurd (h.slab_realm hi hd h1 h2).2 hout

theorem step {c' : Client} (h : Inv hm slabCaches g c bs slabs)
    (hstep : Step L slabCaches base size c c') :
    ∃ bs' slabs', Inv hm slabCaches g c' bs' slabs' := by
  cases hstep with
  | @kmalloc _ sz flg hcall =>
    have h63 : cached sz flg = true ∨ sz ≤ 2 ^ 63 := by
      by_contra hno
      push Not at hno
      unfold Client.kmalloc at hcall
      rw [physKmalloc_eq, if_neg hno.1, buddyKalloc_stop hno.2] at hcall
      exact absurd hcall (by simp)
    obtain ⟨c'', bs', slabs', hcall', hinv, -⟩ := h.kmalloc h63
    obtain rfl := Option.some.inj (hcall.symm.trans hcall')
    exact ⟨bs', slabs', hinv⟩
  | @kfree _ ptr sz flg hsound hcall =>
    have howns : c.Owns ptr sz flg := by
      unfold Client.kfree at hcall
      split at hcall
      · assumption
      · exact absurd hcall (by simp)
    obtain ⟨c'', bs', slabs', hcall', hinv, -⟩ := h.kfree howns hsound
    obtain rfl := Option.some.inj (hcall.symm.trans hcall')
    exact ⟨bs', slabs', hinv⟩
  | others hv hbuddy hslab hw => exact ⟨bs, slabs, h.others hv hbuddy hslab hw⟩

end Inv

/-- `__init_phys_kmalloc` leaves eight empty caches and all blocks on the lists. -/
theorem Inv.start {c : Client} (h : Start L B I base size c) :
    ∃ g, Inv (linkable_of_range h.range h.phys) B.slabCaches g c [] (fun _ => []) := by
  obtain ⟨s₀, shown, hv, hinit⟩ := h.init
  have hB := h.statics
  have hm := linkable_of_range h.range h.phys
  obtain ⟨s₁, hbuddy, hbooked⟩ := initBuddy_booked h.range h.phys hv
  obtain ⟨m, hslab, hframe, -⟩ := initSlab_ready hB s₁
  obtain ⟨shown', hinit'⟩ := initPhysKmalloc_returns hB hbuddy hslab
  have hs : c.s = { s₁ with lock := Function.update s₁.lock .slabLock Spinlock.init, mem := m } :=
    (Prod.mk.inj (Except.ok.inj (hinit.symm.trans hinit'))).2
  have hout : ∀ a, B.slabCaches ≤ a → a < B.slabCaches + cacheSize * 8 → ¬ Realm L base size a := by
    intro a h1 h2
    have himg := hB.caches (a - B.slabCaches) (by omega)
    rw [Nat.add_sub_cancel' h1] at himg
    have hle := hB.caches_le
    rintro (⟨hge, -⟩ | hlaid)
    · omega
    · exact phys_ne_image (hm.laid hlaid).2 himg rfl
  have hview : View s₁.physMapOffset := by
    obtain ⟨free, howned⟩ := hbooked.owned
    exact howned.ready.view
  have hbooked' : Booked L base size (withBooks c.s []) := by
    rw [hs]
    refine hbooked.frame hm hview (fun hfree => ?_) rfl (fun a f hne hrealm => ?_)
    · show (Function.update s₁.lock .slabLock Spinlock.init .buddyLock).Free
      rw [Function.update_of_ne (by decide)]
      exact hfree
    · obtain ⟨h1, h2⟩ := hframe a f hne
      exact absurd hrealm (hout a h1 h2)
  -- the caches
  have hcaches : ∀ i, ∃ g : Slab.Geometry, i < 8 → g.size = 2 ^ (i + 4) ∧
      Slab.CacheMem L c.s.mem g (slabCache B.slabCaches i) (fun _ => []) (fun _ => []) [] := by
    intro i
    by_cases hi : i < 8
    · obtain ⟨g, hsize, hmem, -⟩ := Slab.initSlab_returned hB.caches hslab hi
      exact ⟨g, fun _ => ⟨hsize, by rw [hs]; exact hmem⟩⟩
    · obtain ⟨g, -⟩ := Slab.initSlab_returned hB.caches hslab (show 0 < 8 by omega)
      exact ⟨g, fun h => absurd h hi⟩
  choose g hg using hcaches
  refine ⟨g, hB.caches, hbooked',
    fun i hi => ⟨fun _ => [], fun _ => [], ⟨?_, hbooked', ?_, ?_, by simp, ?_⟩,
      List.nodup_nil, by simp⟩, fun i hi => (hg i hi).1, ?_, ?_, ?_, ?_, ?_, by simp⟩
  · rw [h.objects]
    exact (hg i hi).2
  · rw [hs]
    exact hview
  · rw [hs]
    show (Function.update s₁.lock .slabLock Spinlock.init .slabLock).Free
    rw [Function.update_self]
    rfl
  · intro a h1 h2
    refine hout a ?_ ?_ <;> unfold slabCache cacheSize at * <;> omega
  · exact fun i _ => by rw [h.objects]
  all_goals
    rw [h.pages]
    simp

theorem Inv.run {c c' : Client} (h : Start L B I base size c)
    (hrun : Reaches (Step L B.slabCaches base size) c c') :
    ∃ g bs slabs, Inv (linkable_of_range h.range h.phys) B.slabCaches g c' bs slabs := by
  obtain ⟨g, h0⟩ := Inv.start h
  obtain ⟨bs, slabs, hinv⟩ := hrun.invariant
    (fun c => ∃ bs slabs, Inv (linkable_of_range h.range h.phys) B.slabCaches g c bs slabs)
      ⟨_, _, h0⟩
    (fun a b _ ha hstep => by
      obtain ⟨bs, slabs, ha⟩ := ha
      exact ha.step hstep)
  exact ⟨g, bs, slabs, hinv⟩

/-- No two allocations overlap, all are in the range, and none has a page that is on a list. -/
structure Sound (L : Layout) (base size : Nat) (c : Client) : Prop where
  apart : c.allocations.Pairwise Block.Apart
  inside : ∀ b ∈ c.allocations, base ≤ b.addr ∧ b.addr + b.len ≤ base + size
  free : ∃ free : Nat → List Nat, ∀ k, k ≤ 10 → FreeList L c.s.mem k (free k) ∧
    ∀ x ∈ free k, ∀ b ∈ c.allocations, Block.Apart ⟨x, chunkBytes k⟩ b

theorem Inv.sound {hm : Linkable L base size} {g : Nat → Slab.Geometry} {c : Client}
    {bs : List Block} {slabs : Nat → List Nat} (h : Inv hm slabCaches g c bs slabs) :
    Sound L base size c := by
  refine ⟨h.allocations_apart, fun b hb => ?_, ?_⟩
  · obtain ⟨b', hb', h1, h2⟩ := h.allocation_block hb
    obtain ⟨k, -, hlen⟩ := h.booked.len b' hb'
    have hpos := chunkBytes_pos k
    have hmod := Nat.mod_le size (2 ^ 54)
    have hfirst := h.booked.laid hb' (a := b'.addr) (Nat.le_refl _) (by omega)
    have hlast := h.booked.laid hb' (a := b'.addr + b'.len - 1) (by omega) (by omega)
    exact ⟨Nat.le_trans hfirst.2.1 h1, by have := hlast.2.2; omega⟩
  · obtain ⟨free, howned⟩ := h.booked.owned
    refine ⟨free, fun k hk => ⟨howned.rep.lists k hk, fun x hx b hb => ?_⟩⟩
    obtain ⟨b', hb', h1, h2⟩ := h.allocation_block hb
    have hap := howned.packed.own_apart (c := Request.chunk ⟨b'.addr, b'.len⟩)
      (by show _ ∈ liveChunks (requests bs); rw [liveChunks_erase (mem_requests hb')]; simp) hk hx
    have hlen := requests_chunk (h.booked.len b' hb')
    unfold Chunk.len at hlen
    rw [hlen] at hap
    simp only [Block.Apart, Request.chunk] at hap ⊢
    omega

/-- What is handed out in both is untouched. -/
def Untouched (c c' : Client) (bs : List Block) : Prop :=
  ∀ b ∈ bs, ∀ a f, b.addr ≤ a → a < b.addr + b.len → c'.s.mem a f = c.s.mem a f

/-- **The physical allocator is sound along every run** of requests and frees, of any size and with
any flag: what is handed out is apart and off the lists, every request returns and touches nothing
that is handed out, and so does every free that merges with free blocks only. -/
theorem shared_out_of_run {c c' : Client} (h : Start L B I base size c)
    (hrun : Reaches (Step L B.slabCaches base size) c c') :
    Sound L base size c' ∧
    (∀ sz flg, cached sz flg = true ∨ sz ≤ 2 ^ 63 →
      ∃ c'', c'.kmalloc L B.slabCaches sz flg = some c'' ∧ Untouched c' c'' c'.allocations) ∧
    (∀ ptr sz flg, c'.Owns ptr sz flg →
      (cached sz flg = false → sz ≠ 0 → SoundFree L base size c'.s.mem ⟨ptr, sz⟩) →
      ∃ c'', c'.kfree L B.slabCaches ptr sz flg = some c'' ∧ Untouched c' c'' c''.allocations) := by
  obtain ⟨g, bs, slabs, hinv⟩ := Inv.run h hrun
  refine ⟨hinv.sound, fun sz flg h63 => ?_, fun ptr sz flg howns hsound => ?_⟩
  · obtain ⟨c'', -, -, hcall, -, hkept⟩ := hinv.kmalloc h63
    exact ⟨c'', hcall, hkept⟩
  · obtain ⟨c'', -, -, hcall, -, hkept⟩ := hinv.kfree howns hsound
    exact ⟨c'', hcall, hkept⟩

/-! ## A run on the small machine -/

/-- What `__init_phys_kmalloc` leaves there. -/
def booted : Option Client :=
  match initPhysKmalloc smallBss smallInput smallLayout bootState with
  | .ok (_, s) => some ⟨s, [], fun _ => []⟩
  | .error _ => none

theorem booted_start {c : Client} (h : booted = some c) :
    Start smallLayout smallBss smallInput 0x400000 0x400000 c := by
  unfold booted at h
  cases hrun : initPhysKmalloc smallBss smallInput smallLayout bootState with
  | error e => rw [hrun] at h; exact absurd h (by simp)
  | ok r =>
    rw [hrun] at h
    obtain rfl := Option.some.inj h
    exact ⟨smallBss_placed, smallInput_range, fun p h1 h2 => decide_eq_true ⟨h1, h2⟩,
      ⟨bootState, r.1, Or.inl rfl, hrun⟩, rfl, rfl⟩

/-- An object of 100 bytes, whose cache has to grow, a block of 5000, and a second object; the first
is freed. -/
def mixedRun : Option Client :=
  booted.bind fun c => (c.kmalloc smallLayout smallBss.slabCaches 100 .chooseAlloc).bind fun c =>
    (c.kmalloc smallLayout smallBss.slabCaches 5000 .chooseAlloc).bind fun c =>
      (c.kmalloc smallLayout smallBss.slabCaches 120 .slabAlloc).bind fun c =>
        c.kfree smallLayout smallBss.slabCaches 0x400030 100 .chooseAlloc

theorem mixedRun_result :
    (mixedRun.map fun c => (c.allocations.map Block.addr, c.allocations.map Block.len))
    = some ([0x402000, 0x4000b0], [8192, 128]) := by
  decide +kernel

theorem shared_out_of_run_mixed : ∃ c c' :
    Client, Start smallLayout smallBss smallInput 0x400000 0x400000 c ∧
    c'.allocations.map Block.addr = [0x402000, 0x4000b0] ∧
    Sound smallLayout 0x400000 0x400000 c' := by
  obtain ⟨c₄, hrun, hres⟩ := Option.map_eq_some_iff.mp mixedRun_result
  obtain ⟨c, hc, hrun⟩ := Option.bind_eq_some_iff.mp hrun
  obtain ⟨c₁, h₁, hrun⟩ := Option.bind_eq_some_iff.mp hrun
  obtain ⟨c₂, h₂, hrun⟩ := Option.bind_eq_some_iff.mp hrun
  obtain ⟨c₃, h₃, h₄⟩ := Option.bind_eq_some_iff.mp hrun
  refine ⟨c, c₄, booted_start hc, (Prod.mk.inj hres).1, (shared_out_of_run (booted_start hc) ?_).1⟩
  refine Relation.ReflTransGen.head (.kmalloc h₁) (Relation.ReflTransGen.head (.kmalloc h₂) ?_)
  refine Relation.ReflTransGen.head (.kmalloc h₃) (Relation.ReflTransGen.single (.kfree ?_ h₄))
  exact fun hno => absurd hno (by decide)

end Whole
end MikroKernel
