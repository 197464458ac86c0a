import MikroKernel.Proof.Buddy.Owners

/-!
# The allocator before the kernel has page tables of its own

Until `__init_mmu` loads them, physical memory is read at its own addresses through the identity map
that the bootloader made, of the first 4GB. `__init_buddy` writes a node into every free block,
wherever the selected run lies, so the nodes have to be below 4GB, and that is all that is needed
(`early_below_iff`): the frames handed out come from the same blocks.

`initNodes` are the nodes, in the order the linking loops write them; `__init_buddy` returns if and
only if they can be written (`initBuddy_returns_iff`).
-/

set_option autoImplicit false

namespace MikroKernel
namespace Buddy

open Run Tiling

variable {L : Layout} {s : KState} {base size : Nat} {counts : Nat → Nat} {entries : List MmapEntry}

/-! ## The nodes -/

/-- The nodes `linkLoop` writes. -/
def rowNodes (order : Nat) : Nat → Nat → List Nat
  | 0, _ => []
  | left + 1, cur => cur :: rowNodes order left ((cur + chunkBytes order) % 2 ^ 64)

/-- The nodes `linkOrders` writes. -/
def linkNodes (counts : Nat → Nat) : Nat → Nat → List Nat
  | 0, cur => rowNodes 0 (counts 0) cur
  | order + 1, cur =>
      rowNodes (order + 1) (counts (order + 1)) cur ++
        linkNodes counts order ((cur + counts (order + 1) * chunkBytes (order + 1)) % 2 ^ 64)

/-- The nodes `__init_buddy` writes. -/
def initNodes (kernelEnd : Nat) (entries : List MmapEntry) : List Nat :=
  let range := managedRange kernelEnd entries
  linkNodes (countLoop (range.2 / pageSize) range.1 range.2 (fun _ => 0)) 10 range.1

theorem rowNodes_eq {k : Nat} : ∀ {n cur : Nat}, cur + n * chunkBytes k < 2 ^ 64 →
    rowNodes k n cur = blockRow k cur n
  | 0, _, _ => rfl
  | n + 1, cur, h => by
    rw [Nat.succ_mul] at h
    unfold rowNodes blockRow
    rw [Nat.mod_eq_of_lt (by omega), rowNodes_eq (by omega)]

/-- As long as nothing wraps, the nodes are the blocks of the rows. -/
theorem mem_linkNodes {a : Nat} : ∀ {order cur : Nat}, cur + rowBytes counts order < 2 ^ 64 →
    (a ∈ linkNodes counts order cur ↔ ∃ k, k ≤ order ∧ a ∈ rows counts order cur k) := by
  intro order
  induction order with
  | zero =>
    intro cur h
    unfold linkNodes rows
    rw [rowNodes_eq h]
    constructor
    · intro ha
      exact ⟨0, Nat.le_refl 0, by rwa [Function.update_self]⟩
    · rintro ⟨k, hk, ha⟩
      obtain rfl : k = 0 := by omega
      rwa [Function.update_self] at ha
  | succ order ih =>
    intro cur h
    unfold rowBytes at h
    unfold linkNodes rows
    rw [List.mem_append, rowNodes_eq (by omega), Nat.mod_eq_of_lt (by omega), ih (by omega)]
    constructor
    · rintro (ha | ⟨k, hk, ha⟩)
      · exact ⟨order + 1, Nat.le_refl _, by rwa [Function.update_self]⟩
      · exact ⟨k, by omega, by rwa [Function.update_of_ne (by omega)]⟩
    · rintro ⟨k, hk, ha⟩
      rcases Nat.eq_or_lt_of_le hk with rfl | hlt
      · rw [Function.update_self] at ha
        exact Or.inl ha
      · rw [Function.update_of_ne (by omega)] at ha
        exact Or.inr ⟨k, by omega, ha⟩

/-- If there is a block at all, the first node is at the start of the range. -/
theorem start_mem_linkNodes : ∀ {order cur : Nat}, cur < 2 ^ 64 → rowBytes counts order ≠ 0 →
    cur ∈ linkNodes counts order cur := by
  have hrow : ∀ {k n cur : Nat}, n ≠ 0 → cur ∈ rowNodes k n cur := by
    intro k n cur hn
    cases n with
    | zero => exact absurd rfl hn
    | succ n => exact List.mem_cons_self
  intro order
  induction order with
  | zero =>
    intro cur _ hne
    refine hrow (fun h0 => hne ?_)
    unfold rowBytes
    rw [h0, Nat.zero_mul]
  | succ order ih =>
    intro cur hcur hne
    unfold linkNodes
    by_cases h0 : counts (order + 1) = 0
    · unfold rowBytes at hne
      rw [h0, Nat.zero_mul, Nat.zero_add] at hne
      have hnext : (cur + counts (order + 1) * chunkBytes (order + 1)) % 2 ^ 64 = cur := by
        rw [h0, Nat.zero_mul]
        exact Nat.mod_eq_of_lt hcur
      rw [hnext]
      exact List.mem_append_right _ (ih hcur hne)
    · exact List.mem_append_left _ (hrow h0)

/-- **The nodes are below 4GB if and only if what is laid out is.** -/
theorem linkNodes_below (hb : chunkBytes 10 ∣ base) (hlt : base < 2 ^ 64) (hd : pageSize ∣ size) :
    (∀ a ∈ linkNodes (digit (size / pageSize % 2 ^ 42)) 10 base, a < 2 ^ 32) ↔
      size % 2 ^ 54 = 0 ∨ base + size % 2 ^ 54 ≤ 2 ^ 32 := by
  have hbytes : rowBytes (digit (size / pageSize % 2 ^ 42)) 10 = size % 2 ^ 54 := by
    rw [rowBytes_digit, laid_pages hd]
  have htiles : Tiles Chunk.addr Chunk.len base (size % 2 ^ 54) _ := tiles_laid hd
  constructor
  · intro hall
    by_contra hno
    have hlow : base < 2 ^ 32 := hall _ (start_mem_linkNodes hlt (by omega))
    -- the block at 4GB
    obtain ⟨b, hmem, h1, h2⟩ := htiles.exists_covers (p := 2 ^ 32) (by omega) (by omega)
    obtain ⟨hk, ha⟩ := mem_freeChunks.mp hmem
    have hbelow : b.addr < 2 ^ 32 :=
      hall _ ((mem_linkNodes (by rw [hbytes]; omega)).mpr ⟨b.order, hk, ha⟩)
    have hdvd : chunkBytes b.order ∣ 2 ^ 32 := by
      rw [chunkBytes_eq]
      exact Nat.pow_dvd_pow 2 (by omega)
    have hend := Bits.add_le_of_dvd (rows_aligned (Nat.le_refl 10) hb hmem).2 hdvd hbelow
    have hcov : 2 ^ 32 < b.addr + chunkBytes b.order := h2
    omega
  · intro hle a ha
    obtain ⟨k, hk, hrow⟩ := (mem_linkNodes (by rw [hbytes]; omega)).mp ha
    have hin := htiles.inside ⟨a, k⟩ (mem_freeChunks.mpr ⟨hk, hrow⟩)
    have hpos := chunkBytes_pos k
    have hend : a + chunkBytes k ≤ base + size % 2 ^ 54 := hin.2
    have hge : base ≤ a := hin.1
    omega

/-! ## The code writes them -/

/-- A pointer to nothing. -/
theorem p2vStore_fault {p x : Nat} {f : Field} (h0 : s.physMapOffset = 0) (hp : ¬ L.Stored p) :
    ∃ v, p2vStore p f x L s = .error (.fault v) := by
  have hno : L.resolve 0 p = none := by
    unfold Layout.Stored at hp
    push Not at hp
    unfold Layout.resolve
    rw [if_neg hp.2, if_neg (fun hh => hp.1 hh.2)]
  have hv : (if p < pml4KernelHalfBase then (p + s.physMapOffset) % 2 ^ 64 else p) = p := by
    rw [h0, Nat.add_zero]
    split
    · rename_i hlt
      unfold pml4KernelHalfBase at hlt
      exact Nat.mod_eq_of_lt (by omega)
    · rfl
  refine ⟨p, ?_⟩
  show store (if p < pml4KernelHalfBase then (p + s.physMapOffset) % 2 ^ 64 else p) f x L s = _
  rw [hv]
  unfold store
  rw [h0, hno]

/-- A round of the inner loop whose node can be written. -/
theorem linkLoop_step {order cur : Nat} (count left : Nat) (h0 : s.physMapOffset = 0)
    (hs : L.Stored cur) :
    ∃ s₁, s₁.physMapOffset = 0 ∧ linkLoop order count (left + 1) cur L s
      = linkLoop order count left ((cur + chunkBytes order) % 2 ^ 64) L s₁ := by
  refine ⟨_, ?_, (K.bind_ok (p2vStore_apply ?_ hs)).trans (K.bind_ok (p2vStore_apply ?_ hs))⟩
  · exact h0
  · exact Or.inl h0
  · exact Or.inl h0

/-- **The inner loop** gets to its end if it can write its nodes. -/
theorem linkLoop_returns {order : Nat} (count : Nat) :
    ∀ {left cur : Nat} {s : KState}, s.physMapOffset = 0 →
    cur < 2 ^ 64 → (∀ a ∈ rowNodes order left cur, L.Stored a) →
    ∃ s', linkLoop order count left cur L s = .ok ((cur + left * chunkBytes order) % 2 ^ 64, s') ∧
      s'.physMapOffset = 0 := by
  intro left
  induction left with
  | zero =>
    intro cur s h0 hcur _
    rw [Nat.zero_mul, Nat.add_zero, Nat.mod_eq_of_lt hcur]
    exact ⟨s, rfl, h0⟩
  | succ left ih =>
    intro cur s h0 hcur hall
    unfold rowNodes at hall
    obtain ⟨s₁, h1, hstep⟩ := linkLoop_step count left h0 (hall cur List.mem_cons_self)
    obtain ⟨s', hrun, hoff⟩ := ih h1 (Nat.mod_lt (cur + chunkBytes order) (by omega))
      (fun a ha => hall a (List.mem_cons_of_mem _ ha))
    refine ⟨s', ?_, hoff⟩
    rw [hstep, hrun, Nat.mod_add_mod, Nat.succ_mul, Nat.add_comm (left * chunkBytes order),
      Nat.add_assoc]

/-- Else it faults. -/
theorem linkLoop_faults {order : Nat} (count : Nat) :
    ∀ {left cur : Nat} {s : KState}, s.physMapOffset = 0 →
    (∃ a ∈ rowNodes order left cur, ¬ L.Stored a) →
    ∃ v, linkLoop order count left cur L s = .error (.fault v) := by
  intro left
  induction left with
  | zero =>
    rintro cur s - ⟨a, ha, -⟩
    exact absurd ha (by simp [rowNodes])
  | succ left ih =>
    rintro cur s h0 ⟨a, ha, hno⟩
    by_cases hs : L.Stored cur
    · have hrest : ∃ a ∈ rowNodes order left ((cur + chunkBytes order) % 2 ^ 64), ¬ L.Stored a := by
        rcases List.mem_cons.mp ha with rfl | ha
        · exact absurd hs hno
        · exact ⟨a, ha, hno⟩
      obtain ⟨s₁, h1, hstep⟩ := linkLoop_step count left h0 hs
      rw [hstep]
      exact ih h1 hrest
    · obtain ⟨v, hfault⟩ := p2vStore_fault (f := .chunkNext) (x := if left = 0 then 0 else
        (cur + chunkBytes order) % 2 ^ 64) h0 hs
      unfold linkLoop
      simp only
      rw [K.bind_apply, hfault]
      exact ⟨v, rfl⟩

/-- A round of the outer loop, and its rest. -/
theorem linkRow_returns_iff {order cur : Nat} (count : Nat) (rest : Nat → K Unit)
    (horder : order ≤ 10) (h0 : s.physMapOffset = 0) (hcur : cur < 2 ^ 64) {P : Prop}
    (hrest : ∀ s', s'.physMapOffset = 0 →
      ((∃ s'', rest ((cur + count * chunkBytes order) % 2 ^ 64) L s' = .ok ((), s'')) ↔ P)) :
    (∃ s'', (if count = 0 then rest cur else do
        let next ← linkLoop order count count cur
        store (freeListAddr (L.kernelEnd + metadataSize) order) .ptr cur
        rest next) L s = .ok ((), s'')) ↔
      (∀ a ∈ rowNodes order count cur, L.Stored a) ∧ P := by
  by_cases hcount : count = 0
  · subst hcount
    have hnext : (cur + 0 * chunkBytes order) % 2 ^ 64 = cur := by
      rw [Nat.zero_mul]
      exact Nat.mod_eq_of_lt hcur
    have := hrest s h0
    rw [hnext] at this
    rw [if_pos rfl, this]
    simp [rowNodes]
  · rw [if_neg hcount]
    by_cases hall : ∀ a ∈ rowNodes order count cur, L.Stored a
    · obtain ⟨s₁, hrun, hoff⟩ := linkLoop_returns count h0 hcur hall
      rw [K.bind_ok hrun, and_iff_right hall,
        show freeListAddr (L.kernelEnd + metadataSize) order = listHead L order from rfl,
        K.bind_ok (store_image (image_listHead L horder))]
      exact hrest _ hoff
    · obtain ⟨v, hfault⟩ := linkLoop_faults count h0
        (show ∃ a ∈ rowNodes order count cur, ¬ L.Stored a by push Not at hall; exact hall)
      rw [K.bind_apply, hfault]
      refine iff_of_false ?_ (fun hh => hall hh.1)
      rintro ⟨s'', hrun⟩
      exact absurd hrun (by simp)

theorem linkOrders_returns_iff : ∀ {order cur : Nat} {s : KState}, order ≤ 10 →
    s.physMapOffset = 0 →
    cur < 2 ^ 64 →
    ((∃ s', linkOrders (L.kernelEnd + metadataSize) counts order cur L s = .ok ((), s')) ↔
      ∀ a ∈ linkNodes counts order cur, L.Stored a) := by
  intro order
  induction order with
  | zero =>
    intro cur s horder h0 hcur
    have hrow := linkRow_returns_iff (L := L) (s := s) (counts 0) (fun _ => pure ()) horder h0
      hcur (P := True)
      (fun s' _ => iff_of_true ⟨s', rfl⟩ trivial)
    rw [and_true] at hrow
    unfold linkOrders
    exact hrow
  | succ order ih =>
    intro cur s horder h0 hcur
    have hrow := linkRow_returns_iff (L := L) (s := s) (counts (order + 1))
      (linkOrders (L.kernelEnd + metadataSize) counts order) horder h0 hcur
      (fun s' h0' => ih (by omega) h0' (Nat.mod_lt _ (by omega)))
    unfold linkOrders linkNodes
    rw [List.forall_mem_append]
    exact hrow

/-- What `carve` does after the linking. -/
theorem carve_rest_edits (size off : Nat) (m : Mem) : ∃ m', Edits L off (do
    store L.kernelEnd .bitmapPtr (L.kernelEnd + metadataSize + 11 * 8)
    memsetZero (L.kernelEnd + metadataSize + 11 * 8) (size / pageSize / 8)
    storeOffsets L.kernelEnd (size / pageSize) 10) m () m' := by
  have hbitmap : L.image (L.kernelEnd + metadataSize + 11 * 8) = true := by
    have := L.metadata_image (78 + 88) (by unfold metadataSpan; omega)
    simpa [metadataSize, Nat.add_assoc] using this
  obtain ⟨m', hedit, -⟩ := storeOffsets_edits (L := L)
    (m := (m.set L.kernelEnd .bitmapPtr (L.kernelEnd + metadataSize + 11 * 8)).zero
      (L.kernelEnd + metadataSize + 11 * 8) (size / pageSize / 8)) (size / pageSize)
        (Nat.le_refl 10)
  exact ⟨m',
    Edits.bind (Edits.store (image_metadata L)) (Edits.bind (Edits.memsetZero hbitmap) hedit)⟩

theorem carve_returns_iff (h0 : s.physMapOffset = 0) (hbase : base < 2 ^ 64)
    (hptr : s.mem L.kernelEnd .freeListsPtr = L.kernelEnd + metadataSize) :
    (∃ s', carve base size L s = .ok ((), s')) ↔
      ∀ a ∈ linkNodes (countLoop (size / pageSize) base size (fun _ => 0)) 10 base, L.Stored a := by
  have himg := image_metadata L
  unfold carve
  simp only
  rw [K.bind_ok (kernelEnd_apply L s), K.bind_ok (load_image himg), hptr,
    K.bind_ok (store_image himg),
    K.bind_ok (store_image himg),
    ← linkOrders_returns_iff (Nat.le_refl 10) (s := { s with
      mem := (s.mem.set L.kernelEnd .baseAddress base).set L.kernelEnd .managedSize size })
      h0 hbase]
  constructor
  · rintro ⟨s', hrun⟩
    obtain ⟨_, s₁, hlink, -⟩ := K.bind_eq_ok.mp hrun
    exact ⟨s₁, hlink⟩
  · rintro ⟨s₁, hlink⟩
    obtain ⟨m', hrest⟩ := carve_rest_edits (L := L) size s₁.physMapOffset s₁.mem
    rw [K.bind_ok hlink]
    exact ⟨_, hrest s₁ rfl rfl⟩

/-- **`__init_buddy` returns if and only if its nodes can be written.** -/
theorem initBuddy_returns_iff (h0 : s.physMapOffset = 0) :
    (∃ s', initBuddy entries L s = .ok ((), s')) ↔ ∀ a ∈ initNodes L.kernelEnd entries,
        L.Stored a := by
  have himg := image_metadata L
  have hstart : L.image (L.kernelEnd + metadataSize) = true := by
    have := L.metadata_image 78 (by unfold metadataSpan; omega)
    simpa [metadataSize] using this
  obtain ⟨-, hlt, -⟩ := managedRange_whole L.kernelEnd entries
  rw [initBuddy_eq]
  unfold initNodes initBuddyAt
  simp only
  rw [K.bind_ok (show spinlockInit .buddyLock L s = .ok ((), _) from rfl),
    K.bind_ok (kernelEnd_apply L _), K.bind_ok (store_image himg), K.bind_ok (store_image himg),
    K.bind_ok (store_image himg), K.bind_ok (memsetZero_image hstart)]
  refine carve_returns_iff ?_ hlt ?_
  · exact h0
  · exact (Mem.zero_of_not_mem (Or.inl (by unfold metadataSize; omega))).trans
      (Mem.set_self _ _ _ _)

/-! ## The frames -/

/-- What is handed out is in the range. -/
theorem Owned.frame {c : Client} {free : Nat → List Nat} {sz p : Nat} {s' : KState}
    (hm : Linkable L base size) (h : Owned L base size c free)
    (hcall : buddyKalloc sz L c.s = .ok (p, s')) (hp : p ≠ 0) :
    base ≤ p ∧ p + chunkBytes (orderOf sz) ≤ base + size % 2 ^ 54 := by
  have hstep : c.kalloc L sz = some ⟨s', ⟨p, sz⟩ :: c.live⟩ := by
    unfold Client.kalloc
    rw [hcall]
    simp only [if_neg hp]
  obtain ⟨free', h'⟩ := h.kalloc hm hstep
  have hpos := chunkBytes_pos (orderOf sz)
  have hlaid : ∀ q, p ≤ q → q < p + chunkBytes (orderOf sz) → Laid base size q := fun q h1 h2 =>
    h'.packed.packs.inside (Request.chunk ⟨p, sz⟩) (by rw [liveChunks_cons]; simp) q ⟨h1, h2⟩
  have hfirst := hlaid p (Nat.le_refl p) (by omega)
  have hlast := hlaid (p + chunkBytes (orderOf sz) - 1) (by omega) (by omega)
  obtain ⟨-, h1, -⟩ := hfirst
  obtain ⟨-, -, h2⟩ := hlast
  omega

/-- What lies below 4GB before the kernel has its own page tables: each node that `__init_buddy`
writes, and each block handed out in a run that it starts. -/
structure EarlyBelow (L : Layout) (entries : List MmapEntry) : Prop where
  nodes : ∀ a ∈ initNodes L.kernelEnd entries, a < 2 ^ 32
  frames : ∀ (s₀ s : KState) (c : Client) (sz p : Nat) (s' : KState), s₀.physMapOffset = 0 →
    initBuddy entries L s₀ = .ok ((), s) →
    Reaches (Call L (managedRange L.kernelEnd entries).1 (managedRange L.kernelEnd entries).2)
    ⟨s, []⟩ c →
    buddyKalloc sz L c.s = .ok (p, s') → p ≠ 0 → p + chunkBytes (orderOf sz) ≤ 2 ^ 32

/-- The nodes, in terms of the range. -/
theorem initNodes_below (kernelEnd : Nat) (entries : List MmapEntry) :
    (∀ a ∈ initNodes kernelEnd entries, a < 2 ^ 32) ↔
      (managedRange kernelEnd entries).2 % 2 ^ 54 = 0 ∨
      (managedRange kernelEnd entries).1 + (managedRange kernelEnd entries).2 % 2 ^ 54
      ≤ 2 ^ 32 := by
  obtain ⟨hb, hlt, hd⟩ := managedRange_whole kernelEnd entries
  unfold initNodes
  simp only
  rw [countLoop_init hb hd]
  exact linkNodes_below hb hlt hd

/-- The range in terms of the selected run. A run that ends before the first multiple of 4MB wraps
around, and nearly 16TB are laid out. -/
theorem range_below_iff (hw : NonWrapping entries) (kernelEnd : Nat) :
    let run := selectedRun entries
    let first := roundUp (runStart kernelEnd run)
    let pages := (run.1 + run.2 - first) / pageSize
    ((managedRange kernelEnd entries).2 % 2 ^ 54 = 0 ∨
      (managedRange kernelEnd entries).1 + (managedRange kernelEnd entries).2 % 2 ^ 54 ≤ 2 ^ 32) ↔
      first ≤ run.1 + run.2 ∧
      (pages % 2 ^ 42 = 0 ∨ first + pages % 2 ^ 42 * pageSize ≤ 2 ^ 32) := by
  intro run first pages
  obtain ⟨hfits, hwraps⟩ := managedRange_cases hw kernelEnd
  obtain ⟨hfirst, hnext, -⟩ := roundUp_spec (runStart kernelEnd run)
  obtain ⟨-, hleft⟩ := raised_left (lowerBound kernelEnd run.2) (selectedRun_lt hw)
  change first ≤ run.1 + run.2 → managedRange kernelEnd entries = (first, pages * pageSize) at hfits
  change run.1 + run.2 < first → managedRange kernelEnd entries
    = (first % 2 ^ 64, (2 ^ 64 - (first - (run.1 + run.2))) / pageSize * pageSize) at hwraps
  change runStart kernelEnd run + _ = run.1 + run.2 at hleft
  change first < runStart kernelEnd run + chunkBytes 10 at hnext
  rw [chunkBytes_ten] at hnext
  rcases Nat.lt_or_ge (run.1 + run.2) first with hshort | hle
  · refine iff_of_false ?_ (fun hh => absurd hh.1 (by omega))
    rw [hwraps hshort]
    unfold pageSize
    simp only
    omega
  · rw [hfits hle, and_iff_right hle]
    simp only
    unfold pageSize
    omega

/-- **They do if and only if the blocks that are counted are below 4GB**: all that is laid out of
the selected run from the first multiple of 4MB on. -/
theorem early_below_iff (hw : NonWrapping entries) (hphys : ∀ p, L.phys p = true ↔ p < 2 ^ 32) :
    EarlyBelow L entries ↔
      let run := selectedRun entries
      let first := roundUp (runStart L.kernelEnd run)
      let pages := (run.1 + run.2 - first) / pageSize
      first ≤ run.1 + run.2 ∧
          (pages % 2 ^ 42 = 0 ∨ first + pages % 2 ^ 42 * pageSize ≤ 2 ^ 32) := by
  refine Iff.trans ?_ (range_below_iff hw L.kernelEnd)
  rw [← initNodes_below]
  constructor
  · exact EarlyBelow.nodes
  · intro hnodes
    refine ⟨hnodes, ?_⟩
    intro s₀ s c sz p s' h0 hinit hrun hcall hp
    have hbelow := (initNodes_below L.kernelEnd entries).mp hnodes
    have hbegan :
      Began L entries (managedRange L.kernelEnd entries).1 (managedRange L.kernelEnd entries).2
        ⟨s, []⟩ :=
      ⟨rfl, fun q h1 h2 => (hphys q).mpr (by omega), ⟨s₀, Or.inl h0, hinit⟩, rfl⟩
    obtain ⟨free, howned⟩ := Owned.run hbegan hrun
    obtain ⟨hge, hend⟩ := howned.frame hbegan.linkable hcall hp
    have hpos := chunkBytes_pos (orderOf sz)
    omega

/-! ## RAM below 4GB and above -/

/-- What the bootloader maps. -/
def bootLayout : Layout where
  phys p := decide (p < 2 ^ 32)
  image := smallLayout.image
  kernelEnd := smallLayout.kernelEnd
  phys_lt p h := by
    have := of_decide_eq_true h
    unfold physTop
    omega
  image_ge := smallLayout.image_ge
  image_lt := smallLayout.image_lt
  image_alias p h := by
    have := of_decide_eq_true h
    refine decide_eq_false ?_
    unfold kernelImageStart directMapStart
    omega
  metadata_image := smallLayout.metadata_image

theorem bootLayout_phys (p : Nat) : bootLayout.phys p = true ↔ p < 2 ^ 32 := decide_eq_true_iff

/-- 512MB. -/
theorem early_below_iff_low : EarlyBelow bootLayout [⟨0, 0x9fc00, 1⟩, ⟨0x100000, 0x1ff00000, 1⟩] :=
  (early_below_iff
    (show NonWrapping [⟨0, 0x9fc00, 1⟩, ⟨0x100000, 0x1ff00000, 1⟩] by unfold NonWrapping; decide)
    bootLayout_phys).mpr (by decide)

/-- 3GB below 4GB and 5GB above. -/
def highTable : List MmapEntry := [⟨0x100000, 0xbff00000, 1⟩, ⟨0x100000000, 0x140000000, 1⟩]

/-- **The larger run is above 4GB**: the first node is not mapped, and `__init_buddy` does not
return. -/
theorem high_run_faults : NonWrapping highTable ∧ 0x800000 ≤ (selectedRun highTable).2 ∧
    ¬ EarlyBelow bootLayout highTable ∧
    ∀ s : KState, s.physMapOffset = 0 → ¬ ∃ s', initBuddy highTable bootLayout s
    = .ok ((), s') := by
  have hrange : managedRange bootLayout.kernelEnd highTable = (0x100000000, 0x140000000) := by
    decide
  have hnode : 0x100000000 ∈ initNodes bootLayout.kernelEnd highTable := by
    obtain ⟨hb, -, hd⟩ := managedRange_whole bootLayout.kernelEnd highTable
    rw [hrange] at hb hd
    unfold initNodes
    rw [hrange]
    simp only
    rw [countLoop_init hb hd]
    exact start_mem_linkNodes (by omega) (by rw [rowBytes_digit]; decide)
  refine ⟨by unfold NonWrapping; decide, by decide, fun h => ?_, fun s h0 hreturns => ?_⟩
  · exact absurd (h.nodes _ hnode) (by omega)
  · have hstored := (initBuddy_returns_iff h0).mp hreturns _ hnode
    exact absurd hstored (by unfold Layout.Stored; decide)

end Buddy
end MikroKernel
