import MikroKernel.Proof.Slab.Sections

/-!
# A fresh block, and the sections of `kmem_cache_kalloc`

`kmem_cache_grow` threads a block the page allocator gave it and puts it first on `free_slabs`:
`growTail_edits`, for the statements behind the call of the allocator. The two sections of
`kmem_cache_kalloc` pop from a slab with a free slot; which slab that is they read off the lists.
-/

set_option autoImplicit false

namespace MikroKernel
namespace Slab

open Chain

variable {L : Layout} {m : Mem} {g : Geometry} {cache off d o : Nat}
  {lists : SlabList → List Nat} {chain : Nat → List Nat} {live : List Nat}

/-! ## Threading a fresh block -/

/-- The loop threads the slots from `idx` on, whatever the numbers, if they are in memory. -/
theorem threadLoop_run {first size per : Nat} (hv : View off) (hsize : 0 < size) (h0 : first ≠ 0)
    (hphys : ∀ i, i < per → L.phys (first + i * size) = true) :
    ∀ {left idx : Nat} {m : Mem}, idx + left = per →
      ∃ m', Edits L off (threadLoop first size per left idx) m () m' ∧
        Threaded (m' · .link) ((List.range' idx left).map fun i => first + i * size) ∧
        ∀ a f, m' a f ≠ m a f → f = .link ∧ ∃ j, idx ≤ j ∧ j < per ∧ a = first + j * size := by
  intro left
  induction left with
  | zero =>
    intro idx m _
    exact ⟨m, Edits.pure (), trivial, fun a f hne => absurd rfl hne⟩
  | succ left ih =>
    intro idx m hn
    have hphys' := hphys idx (by omega)
    have hstored : L.Stored (first + idx * size) := Or.inl hphys'
    have haddr : (first + idx * size) % 2 ^ 64 = first + idx * size := by
      have := L.phys_lt _ hphys'
      unfold physTop at this
      exact Nat.mod_eq_of_lt (by omega)
    have hnextAddr : idx < per - 1 →
        (first + idx * size + size) % 2 ^ 64 = first + (idx + 1) * size := by
      intro hlt
      have := L.phys_lt _ (hphys (idx + 1) (by omega))
      unfold physTop at this
      rw [Nat.succ_mul] at this ⊢
      rw [Nat.add_assoc]
      exact Nat.mod_eq_of_lt (by omega)
    -- the link of this slot: the next slot, or the end
    obtain ⟨v, hv'⟩ : ∃ v, v = if idx < per - 1 then first + (idx + 1) * size else 0 := ⟨_, rfl⟩
    obtain ⟨m', hedit, hthread, hframe⟩ := ih (m := m.set (first + idx * size) .link v)
      (show idx + 1 + left = per by omega)
    have hkeep : m' (first + idx * size) .link = v := by
      rw [← Mem.set_self m (first + idx * size) .link v]
      by_contra hne
      obtain ⟨-, j, h1, -, h3⟩ := hframe _ _ hne
      have := Nat.mul_le_mul_right size h1
      rw [Nat.succ_mul] at this
      omega
    refine ⟨m', ?_, ?_, ?_⟩
    · unfold threadLoop
      simp only [haddr]
      by_cases hlt : idx < per - 1
      · rw [if_pos hlt] at hv'
        rw [hnextAddr hlt]
        subst hv'
        exact Edits.ite_pos hlt (Edits.bind (Edits.p2vStore hv hstored) hedit)
      · rw [if_neg hlt] at hv'
        subst hv'
        exact Edits.ite_neg hlt (Edits.bind (Edits.p2vStore hv hstored) hedit)
    · rw [List.range'_succ, List.map_cons]
      refine ⟨by omega, ?_, hthread⟩
      show m' (first + idx * size) .link = _
      rw [hkeep, hv']
      cases left with
      | zero => rw [if_neg (by omega)]; rfl
      | succ left => rw [if_pos (by omega), List.range'_succ, List.map_cons]; rfl
    · intro a f hne
      by_cases hsame : m' a f = (m.set (first + idx * size) .link v) a f
      · rw [hsame, Mem.set_apply] at hne
        split at hne
        · rename_i hc
          exact ⟨hc.2, idx, Nat.le_refl _, by omega, hc.1⟩
        · exact absurd rfl hne
      · obtain ⟨hf, j, h1, h2, h3⟩ := hframe a f hsame
        exact ⟨hf, j, by omega, h2, h3⟩

theorem threadLoop_edits {p : Nat} (hv : View off)
    (hphys : ∀ a, p ≤ a → a < p + g.bytes → L.phys a = true)
    {left idx : Nat} {m : Mem} (hn : idx + left = g.per) :
    ∃ m', Edits L off (threadLoop (g.slot p 0) g.size g.per left idx) m () m' ∧
      Threaded (m' · .link) ((List.range' idx left).map (g.slot p)) ∧
      ∀ a f, m' a f ≠ m a f → f = .link ∧ ∃ j, idx ≤ j ∧ j < g.per ∧ a = g.slot p j := by
  have hslot : ∀ i, g.slot p 0 + i * g.size = g.slot p i := by
    intro i
    unfold Geometry.slot
    omega
  have hsz := g.size_ge
  have hoff := g.offset_ge
  have h0 : g.slot p 0 ≠ 0 := by
    unfold Geometry.slot
    unfold descriptorSize at hoff
    omega
  have hmem : ∀ i, i < g.per → L.phys (g.slot p 0 + i * g.size) = true := by
    intro i hi
    have hb := Geometry.slot_bounds (Geometry.mem_slots.mpr ⟨i, hi, hslot i⟩)
    exact hphys _ (by omega) (by omega)
  have hrun := threadLoop_run (m := m) hv (by omega) h0 hmem hn
  simpa only [hslot] using hrun

/-- The statements of `kmem_cache_grow` behind the call of the page allocator. -/
def growTail (cache p : Nat) : K Status := do
  p2vStore p .slabCache cache
  p2vStore p .inuseNum 0
  let align ← load cache .objectAlign
  let first := (p + firstObjectOffset align) % 2 ^ 64
  let perSlab ← load cache .objectsPerSlab
  let objectSize ← load cache .objectSize
  threadLoop first objectSize perSlab perSlab 0
  p2vStore p .freeList first
  insertFront (freeSlabs cache) (slabNode p)
  pure .ok

/-- Where the descriptors are after a new one came to the front of a list. -/
theorem mem_added {j : SlabList} (hd : ∀ i, d ∉ lists i) (k : SlabList) (e : Nat) :
    e ∈ Function.update lists j (d :: lists j) k ↔
      (e = d ∧ k = j) ∨ (e ≠ d ∧ e ∈ lists k) := by
  by_cases hkj : k = j
  · subst hkj
    rw [Function.update_self, List.mem_cons]
    constructor
    · rintro (rfl | he)
      · exact Or.inl ⟨rfl, rfl⟩
      · exact Or.inr ⟨fun h => hd k (h ▸ he), he⟩
    · rintro (⟨rfl, -⟩ | ⟨-, he⟩)
      · exact Or.inl rfl
      · exact Or.inr he
  · rw [Function.update_of_ne hkj]
    constructor
    · exact fun he => Or.inr ⟨fun h => hd k (h ▸ he), he⟩
    · rintro (⟨-, hk⟩ | ⟨-, he⟩)
      · exact absurd hk hkj
      · exact he

/-- **A fresh block becomes a slab with all slots free**, first on `free_slabs`. -/
theorem growTail_edits {p : Nat} (hv : View off) (h : CacheMem L m g cache lists chain live)
    (hphys : ∀ a, p ≤ a → a < p + g.bytes → L.phys a = true) (halign : g.bytes ∣ p)
    (hfresh : ∀ i, p ∉ lists i) :
    ∃ m', Edits L off (growTail cache p) m .ok m' ∧
      CacheMem L m' g cache (Function.update lists .freeSlabs (p :: lists .freeSlabs))
        (Function.update chain p (g.slots p)) live ∧
      Stores cache lists p (g.slots p) m m' := by
  have hslot0 :
    g.slot p 0 ∈ g.slots p := Geometry.mem_slots.mpr ⟨0, by have := g.per_ge; omega, rfl⟩
  have hb0 := Geometry.slot_bounds hslot0
  have hsz := g.size_ge
  have hdesc : descriptorSize ≤ g.bytes := by omega
  have hps : L.Stored p := Or.inl (hphys p (Nat.le_refl _) (by unfold descriptorSize at *; omega))
  have hnode : L.phys (slabNode p) = true :=
    hphys _ (by unfold slabNode; omega) (by unfold slabNode descriptorSize at *; omega)
  have hlt := L.phys_lt _ (hphys (g.slot p 0) (by omega) (by omega))
  have hfirst : (p + firstObjectOffset g.align) % 2 ^ 64 = g.slot p 0 := by
    have : p + firstObjectOffset g.align = g.slot p 0 := by
      unfold Geometry.slot
      rw [g.offset_eq]
      omega
    rw [this]
    unfold physTop at hlt
    exact Nat.mod_eq_of_lt (by omega)
  -- the descriptor's words, the links, the list
  obtain ⟨m₁, hm₁⟩ : ∃ m₁, m₁ = (m.set p .slabCache cache).set p .inuseNum 0 := ⟨_, rfl⟩
  obtain ⟨m₂, hedit₂, hthread, hframe₂⟩ := threadLoop_edits (g := g) (m := m₁) hv hphys
    (show 0 + g.per = g.per by omega)
  obtain ⟨m₃, hm₃⟩ : ∃ m₃, m₃ = m₂.set p .freeList (g.slot p 0) := ⟨_, rfl⟩
  have hstores₃ : ∀ a f, m₃ a f ≠ m a f → (a = p ∧ (f = .freeList ∨ f = .inuseNum ∨
      f = .slabCache)) ∨ (f = .link ∧ a ∈ g.slots p) := by
    intro a f hne
    rw [hm₃, Mem.set_apply] at hne
    split at hne
    · exact Or.inl ⟨‹_ ∧ _›.1, Or.inl ‹_ ∧ _›.2⟩
    · by_cases hsame : m₂ a f = m₁ a f
      · rw [hsame, hm₁, Mem.set_apply, Mem.set_apply] at hne
        split at hne
        · exact Or.inl ⟨‹a = p ∧ f = .inuseNum›.1, Or.inr (Or.inl ‹a = p ∧ f = .inuseNum›.2)⟩
        · split at hne
          · exact Or.inl ⟨‹a = p ∧ f = .slabCache›.1,
              Or.inr (Or.inr ‹a = p ∧ f = .slabCache›.2)⟩
          · exact absurd rfl hne
      · obtain ⟨hf, j, -, hj, rfl⟩ := hframe₂ a f hsame
        exact Or.inr ⟨hf, Geometry.mem_slots.mpr ⟨j, hj, rfl⟩⟩
  have hkeep₃ : ∀ a f, f ≠ .freeList → f ≠ .inuseNum → f ≠ .slabCache → f ≠ .link →
      m₃ a f = m a f := by
    intro a f h1 h2 h3 h4
    by_contra hne
    rcases hstores₃ a f hne with ⟨-, hf | hf | hf⟩ | ⟨hf, -⟩ <;> contradiction
  have hlists₃ : Lists L m₃ cache lists := h.lists_ok.congr (fun k a _ f hf => by
    rcases hf with rfl | rfl <;>
      exact hkeep₃ a _ (by decide) (by decide) (by decide) (by decide))
  obtain ⟨m₄, hedit₄, hlists₄, hframe₄⟩ := insertFront_edits (j := .freeSlabs) hv hlists₃ hfresh
    hnode
  have hstores : Stores cache lists p (g.slots p) m m₄ := by
    intro a f hne
    by_cases hsame : m₄ a f = m₃ a f
    · rw [hsame] at hne
      rcases hstores₃ a f hne with h1 | h1
      · exact Or.inl h1
      · exact Or.inr (Or.inr h1)
    · obtain ⟨hf, ha⟩ := hframe₄ a f hsame
      exact Or.inr (Or.inl ⟨hf, ha.imp_right (fun ha => ⟨_, ha⟩)⟩)
  have hslab₃ : SlabOk m₃ g p (g.slots p) := by
    have hrange : (List.range' 0 g.per).map (g.slot p) = g.slots p := by
      unfold Geometry.slots
      rw [List.range_eq_range']
    rw [hrange] at hthread
    refine ⟨?_, hthread.congr (fun a _ => ?_), ?_, g.slots_nodup p, fun o ho => ho⟩
    · obtain ⟨n, hn⟩ : ∃ n, g.per = n + 1 := ⟨g.per - 1, by have := g.per_ge; omega⟩
      rw [hm₃, Mem.set_self, ← hrange, hn, List.range'_succ]
      rfl
    · show m₃ a .link = m₂ a .link
      rw [hm₃, Mem.set_ne (Or.inr (by decide))]
    · have hsame : m₂ p .inuseNum = m₁ p .inuseNum := by
        by_contra hne
        exact absurd (hframe₂ p _ hne).1 (by decide)
      rw [hm₃, Mem.set_ne (Or.inr (by decide)), hsame, hm₁, Mem.set_self, g.slots_length]
      omega
  have hload : ∀ {f v}, f ≠ .inuseNum → f ≠ .slabCache → m cache f = v →
      Edits L off (load cache f) m₁ v m₁ := fun h1 h2 hval => Edits.load h.image_self (by
    rw [hm₁, Mem.set_ne (Or.inr h1), Mem.set_ne (Or.inr h2), hval])
  refine ⟨m₄, ?_, ?_, hstores⟩
  · unfold growTail
    refine Edits.bind (Edits.p2vStore hv hps) (Edits.bind (Edits.p2vStore hv hps) ?_)
    rw [← hm₁]
    refine Edits.bind (hload (by decide) (by decide) h.objectAlign) ?_
    simp only [hfirst]
    refine Edits.bind (hload (by decide) (by decide) h.objectsPerSlab) ?_
    refine Edits.bind (hload (by decide) (by decide) h.objectSize) ?_
    refine Edits.bind hedit₂ (Edits.bind (Edits.p2vStore hv hps) ?_)
    rw [← hm₃]
    exact Edits.bind hedit₄ (Edits.pure _)
  · refine h.edit hphys halign hlists₄ (mem_added hfresh)
      (hslab₃.links (fun a f hne => (hframe₄ a f hne).1)) (g.slots_length p) hstores
      (fun _ ho => ho) ?_ h.live_nodup
    intro o
    rw [h.live_iff]
    constructor
    · rintro ⟨k, e, he, h1, h2⟩
      exact Or.inr ⟨k, e, he, fun hep => hfresh k (hep ▸ he), h1, h2⟩
    · rintro (⟨h1, h2⟩ | ⟨k, e, he, -, h1, h2⟩)
      · exact absurd h1 h2
      · exact ⟨k, e, he, h1, h2⟩

/-! ## The sections of `kmem_cache_kalloc` -/

/-- Going from a node back to its descriptor. -/
theorem nodeSlab_slabNode (h : L.phys d = true) : nodeSlab (slabNode d) = d := by
  have := L.phys_lt d h
  unfold physTop at this
  unfold nodeSlab slabNode sub64
  omega

/-- A list with a descriptor on it, as the code reads it. -/
theorem CacheMem.next_of_cons (h : CacheMem L m g cache lists chain live) {i : SlabList}
    {ds : List Nat} (hl : lists i = d :: ds) : m (i.sentinel cache) .listNext = slabNode d := by
  have := (h.lists_ok.ring i).next_eq
  rwa [hl] at this

theorem CacheMem.next_of_nil (h : CacheMem L m g cache lists chain live) {i : SlabList}
    (hl : lists i = []) : m (i.sentinel cache) .listNext = i.sentinel cache :=
  (h.lists_ok.ring i).next_eq_self.mpr (by rw [hl]; rfl)

theorem CacheMem.next_ne_self (h : CacheMem L m g cache lists chain live) {i : SlabList}
    {ds : List Nat} (hl : lists i = d :: ds) :
    m (i.sentinel cache) .listNext ≠ i.sentinel cache := by
  rw [Ne, (h.lists_ok.ring i).next_eq_self, hl]
  simp

/-- The descriptors the first section chooses from: the partial slabs, then the free ones. -/
def candidates (lists : SlabList → List Nat) : List Nat :=
  lists .partialSlabs ++ lists .freeSlabs

theorem pickSlab_edits (off : Nat) (h : CacheMem L m g cache lists chain live) :
    Edits L off (pickSlab cache) m (candidates lists).head? m := by
  have hpart : L.image (partialSlabs cache) = true := h.lists_ok.sentinel .partialSlabs
  have hfree : L.image (freeSlabs cache) = true := h.lists_ok.sentinel .freeSlabs
  unfold pickSlab candidates
  cases hp : lists .partialSlabs with
  | cons d ds =>
    have hd := h.desc_phys (show d ∈ lists .partialSlabs by rw [hp]; simp)
    refine Edits.bind (Edits.load hpart (h.next_of_cons hp)) (Edits.ite_pos ?_ ?_)
    · rw [← h.next_of_cons hp]
      exact h.next_ne_self hp
    · refine Edits.bind (Edits.load hpart (h.next_of_cons hp)) ?_
      rw [nodeSlab_slabNode hd]
      exact Edits.pure _
  | nil =>
    refine Edits.bind (Edits.load hpart (h.next_of_nil hp)) (Edits.ite_neg (fun hn => hn rfl) ?_)
    cases hf : lists .freeSlabs with
    | cons d ds =>
      have hd := h.desc_phys (show d ∈ lists .freeSlabs by rw [hf]; simp)
      refine Edits.bind (Edits.load hfree (h.next_of_cons hf)) (Edits.ite_pos ?_ ?_)
      · rw [← h.next_of_cons hf]
        exact h.next_ne_self hf
      · refine Edits.bind (Edits.load hfree (h.next_of_cons hf)) ?_
        rw [nodeSlab_slabNode hd]
        exact Edits.pure _
    | nil =>
      refine Edits.bind (Edits.load hfree (h.next_of_nil hf)) ?_
      exact Edits.ite_neg (fun hn => hn rfl) (Edits.pure _)

/-- A candidate has a free slot. -/
theorem CacheMem.candidate (h : CacheMem L m g cache lists chain live)
    (hd : d ∈ candidates lists) : ∃ i, d ∈ lists i ∧ ∃ o rest, chain d = o :: rest := by
  have hcons : ∀ {l : List Nat}, 0 < l.length → ∃ o rest, l = o :: rest := by
    intro l hl
    cases l with
    | nil => exact absurd hl (by simp)
    | cons o rest => exact ⟨o, rest, rfl⟩
  rcases List.mem_append.mp hd with hd | hd
  · exact ⟨_, hd, hcons (h.fits .partialSlabs d hd).1⟩
  · have hf : (chain d).length = g.per := h.fits .freeSlabs d hd
    have := g.per_ge
    exact ⟨_, hd, hcons (by omega)⟩

/-- What a pop leaves: slot `o` of slab `d` is live, the rest of the cache as it was. -/
structure Popped (L : Layout) (g : Geometry) (cache : Nat) (lists : SlabList → List Nat)
    (chain : Nat → List Nat) (live : List Nat) (m : Mem) (d o : Nat) (m' : Mem)
    (lists' : SlabList → List Nat) (chain' : Nat → List Nat) : Prop where
  slot : o ∈ chain d
  ne_zero : o ≠ 0
  mem : CacheMem L m' g cache lists' chain' (o :: live)
  stores : Stores cache lists d [] m m'
  listed : ∃ i, d ∈ lists i
  home : ∃ j, j ≠ .freeSlabs ∧ ∀ k e, e ∈ lists' k ↔ (e = d ∧ k = j) ∨ (e ≠ d ∧ e ∈ lists k)

/-- The cache has the slabs it had. -/
theorem Popped.slabs {m' : Mem} {lists' : SlabList → List Nat} {chain' : Nat → List Nat}
    (h : Popped L g cache lists chain live m d o m' lists' chain') (e : Nat) :
    (∃ k, e ∈ lists' k) ↔ ∃ k, e ∈ lists k := by
  obtain ⟨j, -, hiff⟩ := h.home
  obtain ⟨i, hd⟩ := h.listed
  constructor
  · rintro ⟨k, he⟩
    rcases (hiff k e).mp he with ⟨rfl, -⟩ | ⟨-, he⟩
    · exact ⟨i, hd⟩
    · exact ⟨k, he⟩
  · rintro ⟨k, he⟩
    by_cases hed : e = d
    · exact ⟨j, (hiff j e).mpr (Or.inl ⟨hed, rfl⟩)⟩
    · exact ⟨k, (hiff k e).mpr (Or.inr ⟨hed, he⟩)⟩

theorem popObject_popped (hv : View off) (h : CacheMem L m g cache lists chain live)
    {i : SlabList} (hd : d ∈ lists i) {rest : List Nat} (hc : chain d = o :: rest) :
    ∃ m' lists' chain', Edits L off (popObject cache d) m o m' ∧
      Popped L g cache lists chain live m d o m' lists' chain' := by
  obtain ⟨m', lists', hedit, hmem, hstores, hiff⟩ := popObject_edits hv h hd hc
  have hs := h.slab i d hd
  rw [hc] at hs
  refine ⟨m', lists', _, hedit, by rw [hc]; simp, hs.thread.1, hmem, hstores, ⟨i, hd⟩,
    homeAfterPop rest, ?_, hiff⟩
  cases rest <;> exact SlabList.noConfusion

/-- **The first section** pops from the first candidate. -/
theorem firstSection_some {ds : List Nat} (hv : View off)
    (h : CacheMem L m g cache lists chain live) (hc : candidates lists = d :: ds) :
    ∃ o m' lists' chain', Edits L off (firstSection cache) m (some o) m' ∧
      Popped L g cache lists chain live m d o m' lists' chain' := by
  have hpick := pickSlab_edits off h
  rw [hc] at hpick
  obtain ⟨i, hd, o, rest, ho⟩ := h.candidate (show d ∈ candidates lists by rw [hc]; simp)
  obtain ⟨m', lists', chain', hedit, hpop⟩ := popObject_popped hv h hd ho
  refine ⟨o, m', lists', chain', ?_, hpop⟩
  exact Edits.bind hpick (Edits.bind hedit (Edits.pure _))

/-- Without a candidate it asks for growth. -/
theorem firstSection_none (h : CacheMem L m g cache lists chain live)
    (hc : candidates lists = []) : Edits L off (firstSection cache) m none m := by
  have hpick := pickSlab_edits off h
  rw [hc] at hpick
  exact Edits.bind hpick (Edits.pure _)

/-- After a growth that failed, the second section does nothing. -/
theorem secondSection_error (cache : Nat) : Edits L off (secondSection cache .error) m 0 m :=
  Edits.ite_pos (by decide) (Edits.pure 0)

/-- **The second section** pops from the first free slab, if there is one. -/
theorem secondSection_ok {ds : List Nat} (hv : View off)
    (h : CacheMem L m g cache lists chain live) (hc : lists .freeSlabs = d :: ds) :
    ∃ o m' lists' chain', Edits L off (secondSection cache .ok) m o m' ∧
      Popped L g cache lists chain live m d o m' lists' chain' := by
  have hd : d ∈ lists .freeSlabs := by rw [hc]; simp
  have hfree : L.image (freeSlabs cache) = true := h.lists_ok.sentinel .freeSlabs
  obtain ⟨i, hdi, o, rest, ho⟩ := h.candidate (List.mem_append.mpr (Or.inr hd))
  obtain ⟨m', lists', chain', hedit, hpop⟩ := popObject_popped hv h hdi ho
  refine ⟨o, m', lists', chain', ?_, hpop⟩
  have hgrown : Edits L off (grownSlab cache) m d m := by
    refine Edits.bind (Edits.load hfree (h.next_of_cons hc)) ?_
    rw [nodeSlab_slabNode (h.desc_phys hd)]
    exact Edits.pure _
  exact Edits.ite_neg (by decide) (Edits.bind hgrown hedit)

end Slab
end MikroKernel
