import MikroKernel.Proof.Slab.Cache

/-!
# The critical sections of the slab allocator

`popObject` on a slab with a free slot hands out the first slot of the chain; `freeSection` puts a
live object back at the front of its slab's chain. Both leave a cache again (`CacheMem`), with the
slab on the list its new use count belongs to. `threadLoop` and `insertFront` make a block of
fresh memory a slab with all slots free.
-/

set_option autoImplicit false

namespace MikroKernel
namespace Slab

open Chain

variable {L : Layout} {m : Mem} {g : Geometry} {cache off d o : Nat}
  {lists : SlabList → List Nat} {chain : Nat → List Nat} {live : List Nat}

/-- Where the descriptors are after a move. -/
theorem mem_moved (h : Lists L m cache lists) {i j : SlabList} (hij : i ≠ j) (hd : d ∈ lists i)
    (k : SlabList) (e : Nat) :
    e ∈ moved lists i j d k ↔ (e = d ∧ k = j) ∨ (e ≠ d ∧ e ∈ lists k) := by
  have herase : ∀ e, e ∈ (lists i).erase d ↔ e ≠ d ∧ e ∈ lists i := fun e =>
    (h.nodup i).mem_erase_iff
  unfold moved
  by_cases hkj : k = j
  · subst hkj
    rw [Function.update_self, List.mem_cons, Function.update_of_ne (Ne.symm hij)]
    constructor
    · rintro (rfl | he)
      · exact Or.inl ⟨rfl, rfl⟩
      · refine Or.inr ⟨?_, he⟩
        rintro rfl
        exact hij (h.once i k e hd he)
    · rintro (⟨rfl, -⟩ | ⟨-, he⟩)
      · exact Or.inl rfl
      · exact Or.inr he
  · rw [Function.update_of_ne hkj]
    by_cases hki : k = i
    · subst hki
      rw [Function.update_self, herase]
      simp [hkj]
    · rw [Function.update_of_ne hki]
      constructor
      · intro he
        refine Or.inr ⟨?_, he⟩
        rintro rfl
        exact hki (h.once k i e he hd)
      · rintro (⟨-, hk⟩ | ⟨-, he⟩)
        · exact absurd hk hkj
        · exact he

theorem CacheMem.length_le (h : CacheMem L m g cache lists chain live) {i : SlabList}
    (hd : d ∈ lists i) : (chain d).length ≤ g.per := by
  have hf := h.fits i d hd
  cases i with
  | freeSlabs => exact Nat.le_of_eq hf
  | partialSlabs => exact Nat.le_of_lt hf.2
  | fullSlabs => rw [show chain d = [] from hf]; simp

/-- The live objects after a slot of `d` is popped. -/
theorem CacheMem.live_pop (h : CacheMem L m g cache lists chain live) {i : SlabList}
    (hd : d ∈ lists i) {rest : List Nat} (hc : chain d = o :: rest) :
    (∀ x, x ∈ o :: live ↔ (x ∈ g.slots d ∧ x ∉ rest) ∨
      ∃ k, ∃ e ∈ lists k, e ≠ d ∧ x ∈ g.slots e ∧ x ∉ chain e) ∧ (o :: live).Nodup := by
  have hs := h.slab i d hd
  have hod : o ∈ g.slots d := hs.slots o (by rw [hc]; simp)
  have hnd := hs.nodup
  rw [hc] at hnd
  have hor : o ∉ rest := (List.nodup_cons.mp hnd).1
  -- `o` was free, so it is not live yet
  have hnew : o ∉ live := by
    intro ho
    obtain ⟨k, e, he, hoe, hne⟩ := (h.live_iff o).mp ho
    have := Geometry.slots_inj (h.aligned k e he) (h.aligned i d hd) hoe hod
    subst this
    exact hne (by rw [hc]; simp)
  refine ⟨fun x => ?_, List.nodup_cons.mpr ⟨hnew, h.live_nodup⟩⟩
  rw [List.mem_cons, h.live_iff]
  constructor
  · rintro (rfl | ⟨k, e, he, h1, h2⟩)
    · exact Or.inl ⟨hod, hor⟩
    · by_cases hed : e = d
      · subst hed
        rw [hc] at h2
        exact Or.inl ⟨h1, fun hx => h2 (List.mem_cons_of_mem _ hx)⟩
      · exact Or.inr ⟨k, e, he, hed, h1, h2⟩
  · rintro (⟨h1, h2⟩ | ⟨k, e, he, hed, h1, h2⟩)
    · by_cases hxo : x = o
      · exact Or.inl hxo
      · refine Or.inr ⟨i, d, hd, h1, ?_⟩
        rw [hc]
        simp [hxo, h2]
    · exact Or.inr ⟨k, e, he, h1, h2⟩

/-- The slab after the pop, before any move. -/
theorem SlabOk.pop {rest : List Nat} (hs : SlabOk m g d (o :: rest)) :
    SlabOk ((m.set d .freeList (first rest)).set d .inuseNum (g.per - rest.length)) g d rest := by
  refine ⟨by simp [Mem.set_apply], ?_, by simp, (List.nodup_cons.mp hs.nodup).2,
    fun x hx => hs.slots x (by simp [hx])⟩
  refine hs.thread.2.2.congr (fun a _ => ?_)
  rw [Mem.set_ne (Or.inr (by decide)), Mem.set_ne (Or.inr (by decide))]

/-- A slab whose own words were just stored keeps them through list edits. -/
theorem SlabOk.links {m' : Mem} {l : List Nat} (hs : SlabOk m g d l)
    (hm : ∀ a f, m' a f ≠ m a f → f = .listNext ∨ f = .listPrev) : SlabOk m' g d l := by
  have hkeep : ∀ a f, f ≠ .listNext → f ≠ .listPrev → m' a f = m a f := by
    intro a f h1 h2
    by_contra hne
    rcases hm a f hne with h3 | h3 <;> contradiction
  refine ⟨?_, hs.thread.congr (fun a _ => hkeep a _ (by decide) (by decide)), ?_, hs.nodup,
    hs.slots⟩
  · rw [hkeep _ _ (by decide) (by decide)]; exact hs.head
  · rw [hkeep _ _ (by decide) (by decide)]; exact hs.inuse

/-- The list a slab belongs on once `rest` of its slots are free and some are not. -/
def homeAfterPop : List Nat → SlabList
  | [] => .fullSlabs
  | _ :: _ => .partialSlabs

/-- The end of `popObject`: the slab goes to the list its use count asks for. -/
theorem rehome_pop {i : SlabList} (g : Geometry) (rest : List Nat) (hv : View off)
    (himg : L.image cache = true) (hl : Lists L m cache lists) (hd : d ∈ lists i)
    (hds : L.Stored d) (hinuse : m d .inuseNum = g.per - rest.length)
    (hper : m cache .objectsPerSlab = g.per) (hfits : i.Fits g.per (o :: rest)) :
    ∃ m' lists', Edits L off (do
        if (← p2vLoad d .inuseNum) = (← load cache .objectsPerSlab) then
          moveNode (fullSlabs cache) (slabNode d)
        else if (← p2vLoad d .inuseNum) = 1 then
          moveNode (partialSlabs cache) (slabNode d)
        pure o) m o m' ∧ Lists L m' cache lists' ∧
      (∀ a f, m' a f ≠ m a f → (f = .listNext ∨ f = .listPrev) ∧
        ∃ k, a ∈ ringNodes cache lists k) ∧
      (∀ k e, e ∈ lists' k ↔ (e = d ∧ k = homeAfterPop rest) ∨ (e ≠ d ∧ e ∈ lists k)) ∧
      (homeAfterPop rest).Fits g.per rest := by
  have hper8 := g.per_ge
  cases rest with
  | nil =>
    -- the last slot: full
    have hi : i ≠ .fullSlabs := by
      rintro rfl
      exact absurd hfits (by simp [SlabList.Fits])
    obtain ⟨m', hedit, hlists, hframe⟩ := moveNode_edits (j := .fullSlabs) hv hl hd
    refine ⟨m', _, ?_, hlists, hframe, mem_moved hl hi hd, rfl⟩
    refine Edits.bind (Edits.p2vLoad hv hds hinuse) (Edits.bind (Edits.load himg hper) ?_)
    exact Edits.ite_pos (by simp) (Edits.bind hedit (Edits.pure o))
  | cons x rest =>
    have hne : g.per - (x :: rest).length ≠ g.per := by
      simp only [List.length_cons]
      omega
    cases i with
    | freeSlabs =>
      -- the first slot taken: partial
      have hlen : (x :: rest).length + 1 = g.per := by simpa [SlabList.Fits] using hfits
      obtain ⟨m', hedit, hlists, hframe⟩ := moveNode_edits (j := .partialSlabs) hv hl hd
      refine ⟨m', _, ?_, hlists, hframe, mem_moved hl (by decide) hd, ?_⟩
      · refine Edits.bind (Edits.p2vLoad hv hds hinuse) (Edits.bind (Edits.load himg hper) ?_)
        refine Edits.ite_neg hne (Edits.bind (Edits.p2vLoad hv hds hinuse) ?_)
        exact Edits.ite_pos (by omega) (Edits.bind hedit (Edits.pure o))
      · exact ⟨by simp, by omega⟩
    | partialSlabs =>
      have hlen : (x :: rest).length + 1 < g.per := by simpa [SlabList.Fits] using hfits
      refine ⟨m, lists, ?_, hl, fun a f hne => absurd rfl hne, fun k e => ?_, ?_⟩
      · refine Edits.bind (Edits.p2vLoad hv hds hinuse) (Edits.bind (Edits.load himg hper) ?_)
        refine Edits.ite_neg hne (Edits.bind (Edits.p2vLoad hv hds hinuse) ?_)
        exact Edits.ite_neg (by omega) (Edits.pure o)
      · by_cases hed : e = d
        · subst hed
          constructor
          · exact fun he => Or.inl ⟨rfl, hl.once k _ e he hd⟩
          · rintro (⟨-, rfl⟩ | ⟨hne, -⟩)
            · exact hd
            · exact absurd rfl hne
        · simp [hed]
      · exact ⟨by simp, by omega⟩
    | fullSlabs => exact absurd hfits (by simp [SlabList.Fits])

/-- **Popping a slot** from a slab that has one. -/
theorem popObject_edits {i : SlabList} {rest : List Nat} (hv : View off)
    (h : CacheMem L m g cache lists chain live) (hd : d ∈ lists i) (hc : chain d = o :: rest) :
    ∃ m' lists', Edits L off (popObject cache d) m o m' ∧
      CacheMem L m' g cache lists' (Function.update chain d rest) (o :: live) ∧
      Stores cache lists d [] m m' ∧
      ∀ k e, e ∈ lists' k ↔ (e = d ∧ k = homeAfterPop rest) ∨ (e ≠ d ∧ e ∈ lists k) := by
  have hs := h.slab i d hd
  have hle := h.length_le hd
  have hfits := h.fits i d hd
  rw [hc] at hs hle hfits
  have hlt := g.per_lt
  have hds : L.Stored d := Or.inl (h.desc_phys hd)
  have hos : L.Stored o := Or.inl (h.slot_phys hd (hs.slots o (by simp)))
  obtain ⟨hlive, hnd⟩ := h.live_pop hd hc
  -- the descriptor after the pop
  obtain ⟨m₂, hm₂⟩ : ∃ m₂, m₂ = (m.set d .freeList (first rest)).set d .inuseNum
    (g.per - rest.length) := ⟨_, rfl⟩
  have hkeep : ∀ a f, f ≠ .freeList → f ≠ .inuseNum → m₂ a f = m a f := by
    intro a f h1 h2
    rw [hm₂, Mem.set_ne (Or.inr h2), Mem.set_ne (Or.inr h1)]
  have hlists₂ : Lists L m₂ cache lists := h.lists_ok.congr (fun k a _ f hf =>
    hkeep a f (by rcases hf with rfl | rfl <;> decide) (by rcases hf with rfl | rfl <;> decide))
  obtain ⟨m₃, lists', hedit, hlists, hframe, hmem, hfits'⟩ := rehome_pop g rest
    hv h.image_self hlists₂ hd hds (by rw [hm₂, Mem.set_self])
    (by rw [hkeep _ _ (by decide) (by decide)]; exact h.objectsPerSlab) hfits
  have hstores : Stores cache lists d [] m m₃ := by
    intro a f hne
    by_cases hsame : m₃ a f = m₂ a f
    · left
      rw [hsame, hm₂, Mem.set_apply, Mem.set_apply] at hne
      split at hne
      · exact ⟨‹_ ∧ _›.1, Or.inr (Or.inl ‹_ ∧ _›.2)⟩
      · split at hne
        · exact ⟨‹_ ∧ _›.1, Or.inl ‹_ ∧ _›.2⟩
        · exact absurd rfl hne
    · exact Or.inr (Or.inl ((hframe a f hsame).imp_right Or.inr))
  refine ⟨m₃, lists', ?_, ?_, hstores, hmem⟩
  · have hcount : (m.set d .freeList (first rest)) d .inuseNum = g.per - (rest.length + 1) := by
      rw [Mem.set_ne (Or.inr (by decide))]
      exact hs.inuse
    have hval : (g.per - (rest.length + 1) + 1) % 2 ^ 32 = g.per - rest.length := by
      simp only [List.length_cons] at hle
      rw [Nat.mod_eq_of_lt (by omega)]
      omega
    refine Edits.bind (Edits.p2vLoad hv hds hs.head) (Edits.ite_neg hs.thread.1 ?_)
    refine Edits.bind (Edits.p2vLoad hv hos hs.thread.2.1) ?_
    refine Edits.bind (Edits.p2vStore hv hds) (Edits.bind (Edits.p2vLoad hv hds hcount) ?_)
    rw [hval]
    refine Edits.bind (Edits.p2vStore hv hds) ?_
    rw [← hm₂]
    exact hedit
  · refine h.edit (h.phys i d hd) (h.aligned i d hd) hlists hmem ?_ hfits' hstores (by simp) hlive
      hnd
    have hslab₂ : SlabOk m₂ g d rest := hm₂ ▸ hs.pop
    exact hslab₂.links (fun a f hne => (hframe a f hne).1)

/-! ## Freeing -/

/-- The slab of a live object, and room in its chain. -/
theorem CacheMem.live_slab (h : CacheMem L m g cache lists chain live) (ho : o ∈ live) :
    ∃ i, ∃ d ∈ lists i, o ∈ g.slots d ∧ o ∉ chain d ∧ (chain d).length < g.per := by
  obtain ⟨i, d, hd, hod, hoc⟩ := (h.live_iff o).mp ho
  refine ⟨i, d, hd, hod, hoc, ?_⟩
  have hs := h.slab i d hd
  -- `o` and the chain are different slots
  have hsub : (o :: chain d).Subperm (g.slots d) := by
    refine (List.nodup_cons.mpr ⟨hoc, hs.nodup⟩).subperm (fun x hx => ?_)
    rcases List.mem_cons.mp hx with rfl | hx
    · exact hod
    · exact hs.slots x hx
  have := hsub.length_le
  rw [Geometry.slots_length] at this
  simpa using this

/-- Masking the address of an object gives its slab. -/
theorem slabBase_eq (hd : g.bytes ∣ d) (ho : o ∈ g.slots d) (hlt : o < 2 ^ 64) :
    o &&& (2 ^ 64 - 1 - sub64 (pageSize * 2 ^ g.order % 2 ^ 32) 1) = d := by
  have hb : pageSize * 2 ^ g.order = 2 ^ (12 + g.order) := by
    unfold pageSize
    rw [show (0x1000 : Nat) = 2 ^ 12 from rfl, ← Nat.pow_add]
  have hk : 12 + g.order ≤ 22 := by have := g.order_le; omega
  have hle : 2 ^ (12 + g.order) ≤ 2 ^ 22 := Nat.pow_le_pow_right (by omega) hk
  have hpos : 0 < 2 ^ (12 + g.order) := Nat.two_pow_pos _
  have hmask : 2 ^ 64 - 1 - sub64 (pageSize * 2 ^ g.order % 2 ^ 32) 1
      = 2 ^ 64 - 2 ^ (12 + g.order) := by
    rw [hb, Nat.mod_eq_of_lt (by omega)]
    unfold sub64
    omega
  have hbytes : g.bytes = 2 ^ (12 + g.order) := hb
  have hbd := Geometry.slot_bounds ho
  have hsz := g.size_ge
  rw [hbytes] at hd hbd
  rw [hmask, Bits.and_high_mask hlt (by omega)]
  obtain ⟨q, rfl⟩ := hd
  rw [show o / 2 ^ (12 + g.order) = q by
    rw [Nat.div_eq_iff hpos]
    constructor
    · rw [Nat.mul_comm]; omega
    · rw [Nat.mul_comm]; omega, Nat.mul_comm]

/-- The live objects after `o` goes back to the chain of `d`. -/
theorem CacheMem.live_push (h : CacheMem L m g cache lists chain live) {i : SlabList}
    (hd : d ∈ lists i) (hod : o ∈ g.slots d) :
    (∀ x, x ∈ live.erase o ↔ (x ∈ g.slots d ∧ x ∉ o :: chain d) ∨
      ∃ k, ∃ e ∈ lists k, e ≠ d ∧ x ∈ g.slots e ∧ x ∉ chain e) ∧ (live.erase o).Nodup := by
  refine ⟨fun x => ?_, h.live_nodup.erase o⟩
  rw [h.live_nodup.mem_erase_iff, h.live_iff]
  constructor
  · rintro ⟨hxo, k, e, he, h1, h2⟩
    by_cases hed : e = d
    · subst hed
      exact Or.inl ⟨h1, by simp [hxo, h2]⟩
    · exact Or.inr ⟨k, e, he, hed, h1, h2⟩
  · rintro (⟨h1, h2⟩ | ⟨k, e, he, hed, h1, h2⟩)
    · simp only [List.mem_cons, not_or] at h2
      exact ⟨h2.1, i, d, hd, h1, h2.2⟩
    · refine ⟨?_, k, e, he, h1, h2⟩
      rintro rfl
      exact hed (Geometry.slots_inj (h.aligned k e he) (h.aligned i d hd) h1 hod)

/-- The list a slab belongs on once it has a chain of `n` free slots, `n` not zero. -/
def homeAfterFree (per n : Nat) : SlabList := if n = per then .freeSlabs else .partialSlabs

/-- The middle of `freeSection`: the slab goes to the list its use count asks for. -/
theorem rehome_free {i : SlabList} {β : Type} {r : β} {k : K β} (g : Geometry) (l : List Nat)
    (hv : View off) (himg : L.image cache = true) (hl : Lists L m cache lists) (hd : d ∈ lists i)
    (hds : L.Stored d) (hlen : l.length < g.per)
    (hinuse : m d .inuseNum = g.per - (l.length + 1))
    (hper : m cache .objectsPerSlab = g.per) (hfits : i.Fits g.per l) :
    ∃ m' lists', (∀ m₂, Edits L off k m' r m₂ → Edits L off (do
        if (← p2vLoad d .inuseNum) = 0 then
          moveNode (freeSlabs cache) (slabNode d)
        else if (← p2vLoad d .inuseNum)
            = ((← load cache .objectsPerSlab) + 2 ^ 32 - 1) % 2 ^ 32 then
          moveNode (partialSlabs cache) (slabNode d)
        k) m r m₂) ∧ Lists L m' cache lists' ∧
      (∀ a f, m' a f ≠ m a f → (f = .listNext ∨ f = .listPrev) ∧
        ∃ k, a ∈ ringNodes cache lists k) ∧
      (∀ k e, e ∈ lists' k ↔ (e = d ∧ k = homeAfterFree g.per (l.length + 1)) ∨
        (e ≠ d ∧ e ∈ lists k)) := by
  have hper8 := g.per_ge
  have hlt := g.per_lt
  have hsub : (g.per + 2 ^ 32 - 1) % 2 ^ 32 = g.per - 1 := by omega
  unfold homeAfterFree
  by_cases hall : l.length + 1 = g.per
  · -- nothing in use any more
    rw [if_pos hall]
    have hi : i ≠ .freeSlabs := by
      rintro rfl
      simp only [SlabList.Fits] at hfits
      omega
    obtain ⟨m', hedit, hlists, hframe⟩ := moveNode_edits (j := .freeSlabs) hv hl hd
    refine ⟨m', _, fun m₂ hk => ?_, hlists, hframe, mem_moved hl hi hd⟩
    refine Edits.bind (Edits.p2vLoad hv hds hinuse) ?_
    exact Edits.ite_pos (by omega) (Edits.bind hedit hk)
  · rw [if_neg hall]
    by_cases hnone : l = []
    · -- the slab was full
      subst hnone
      have hi : i ≠ .partialSlabs := by
        rintro rfl
        exact absurd hfits.1 (by simp)
      obtain ⟨m', hedit, hlists, hframe⟩ := moveNode_edits (j := .partialSlabs) hv hl hd
      refine ⟨m', _, fun m₂ hk => ?_, hlists, hframe, mem_moved hl hi hd⟩
      simp only [List.length_nil] at hinuse
      refine Edits.bind (Edits.p2vLoad hv hds hinuse) (Edits.ite_neg (by omega) ?_)
      refine Edits.bind (Edits.p2vLoad hv hds hinuse) (Edits.bind (Edits.load himg hper) ?_)
      exact Edits.ite_pos (by omega) (Edits.bind hedit hk)
    · have hpos : 0 < l.length := List.length_pos_iff.mpr hnone
      have hi : i = .partialSlabs := by
        cases i with
        | freeSlabs => simp only [SlabList.Fits] at hfits; omega
        | partialSlabs => rfl
        | fullSlabs => exact absurd hfits hnone
      subst hi
      refine ⟨m, lists, fun m₂ hk => ?_, hl, fun a f hne => absurd rfl hne, fun k e => ?_⟩
      · refine Edits.bind (Edits.p2vLoad hv hds hinuse) (Edits.ite_neg (by omega) ?_)
        refine Edits.bind (Edits.p2vLoad hv hds hinuse) (Edits.bind (Edits.load himg hper) ?_)
        exact Edits.ite_neg (by omega) hk
      · by_cases hed : e = d
        · subst hed
          constructor
          · exact fun he => Or.inl ⟨rfl, hl.once k _ e he hd⟩
          · rintro (⟨-, rfl⟩ | ⟨hne, -⟩)
            · exact hd
            · exact absurd rfl hne
        · simp [hed]

/-- **Freeing a live object** puts its slot at the front of its slab's chain. -/
theorem freeSection_edits (hv : View off) (h : CacheMem L m g cache lists chain live)
    (ho : o ∈ live) :
    ∃ m' lists' i d, d ∈ lists i ∧ o ∈ g.slots d ∧
      Edits L off (freeSection cache o) m () m' ∧
      CacheMem L m' g cache lists' (Function.update chain d (o :: chain d)) (live.erase o) ∧
      Stores cache lists d [o] m m' ∧
      ∀ k e, e ∈ lists' k ↔ (e = d ∧ k = homeAfterFree g.per ((chain d).length + 1)) ∨
        (e ≠ d ∧ e ∈ lists k) := by
  obtain ⟨i, d, hd, hod, hoc, hlen⟩ := h.live_slab ho
  have hs := h.slab i d hd
  have hlt := g.per_lt
  have hophys := h.slot_phys hd hod
  have hds : L.Stored d := Or.inl (h.desc_phys hd)
  have hos : L.Stored o := Or.inl hophys
  have ho64 : o < 2 ^ 64 := by
    have := L.phys_lt o hophys
    unfold physTop at this
    omega
  have hod' : o ≠ d := by
    have := (Geometry.slot_bounds hod).1
    unfold descriptorSize at this
    omega
  have ho0 : o ≠ 0 := by
    have := (Geometry.slot_bounds hod).1
    unfold descriptorSize at this
    omega
  obtain ⟨hlive, hnd⟩ := h.live_push hd hod
  -- the descriptor with its count lowered
  obtain ⟨m₁, hm₁⟩ : ∃ m₁, m₁ = m.set d .inuseNum (g.per - ((chain d).length + 1)) := ⟨_, rfl⟩
  have hkeep : ∀ a f, f ≠ .inuseNum → m₁ a f = m a f := by
    intro a f h1
    rw [hm₁, Mem.set_ne (Or.inr h1)]
  have hlists₁ : Lists L m₁ cache lists := h.lists_ok.congr (fun k a _ f hf =>
    hkeep a f (by rcases hf with rfl | rfl <;> decide))
  obtain ⟨m₂, lists', hedit, hlists, hframe, hmem⟩ := rehome_free (r := ()) (k := do
      p2vStore o .link (← p2vLoad d .freeList)
      p2vStore d .freeList o) g (chain d) hv h.image_self hlists₁ hd hds hlen
    (by rw [hm₁, Mem.set_self]) (by rw [hkeep _ _ (by decide)]; exact h.objectsPerSlab)
    (h.fits i d hd)
  have hkeep₂ : ∀ a f, f ≠ .inuseNum → f ≠ .listNext → f ≠ .listPrev → m₂ a f = m a f := by
    intro a f h1 h2 h3
    rw [← hkeep a f h1]
    by_contra hne
    rcases (hframe a f hne).1 with h4 | h4 <;> contradiction
  have hhead : m₂ d .freeList = first (chain d) := by
    rw [hkeep₂ _ _ (by decide) (by decide) (by decide)]
    exact hs.head
  obtain ⟨m₄, hm₄⟩ : ∃ m₄, m₄ = (m₂.set o .link (first (chain d))).set d .freeList o := ⟨_, rfl⟩
  have hstores : Stores cache lists d [o] m m₄ := by
    intro a f hne
    rw [hm₄, Mem.set_apply] at hne
    split at hne
    · exact Or.inl ⟨‹_ ∧ _›.1, Or.inl ‹_ ∧ _›.2⟩
    · rw [Mem.set_apply] at hne
      split at hne
      · exact Or.inr (Or.inr ⟨‹_ ∧ _›.2, by simp [‹a = o ∧ _›.1]⟩)
      · by_cases hsame : m₂ a f = m₁ a f
        · rw [hsame, hm₁, Mem.set_apply] at hne
          split at hne
          · exact Or.inl ⟨‹_ ∧ _›.1, Or.inr (Or.inl ‹_ ∧ _›.2)⟩
          · exact absurd rfl hne
        · exact Or.inr (Or.inl ((hframe a f hsame).imp_right Or.inr))
  have hlists₄ : Lists L m₄ cache lists' := hlists.congr (fun k a _ f hf => by
    rw [hm₄, Mem.set_ne (Or.inr (by rcases hf with rfl | rfl <;> decide)),
      Mem.set_ne (Or.inr (by rcases hf with rfl | rfl <;> decide))])
  have hfits : (homeAfterFree g.per ((chain d).length + 1)).Fits g.per (o :: chain d) := by
    unfold homeAfterFree
    split
    · simpa [SlabList.Fits] using ‹(chain d).length + 1 = g.per›
    · simp only [SlabList.Fits, List.length_cons]
      omega
  have hslab : SlabOk m₄ g d (o :: chain d) := by
    refine ⟨by simp [hm₄, first], ⟨ho0, ?_, hs.thread.congr (fun a ha => ?_)⟩, ?_,
      List.nodup_cons.mpr ⟨hoc, hs.nodup⟩, fun x hx => ?_⟩
    · simp [hm₄, Mem.set_apply]
    · have hao : a ≠ o := fun he => hoc (he ▸ ha)
      rw [hm₄, Mem.set_ne (Or.inr (by decide)), Mem.set_ne (Or.inl hao),
        hkeep₂ _ _ (by decide) (by decide) (by decide)]
    · rw [hm₄, Mem.set_ne (Or.inr (by decide)), Mem.set_ne (Or.inr (by decide)),
        List.length_cons]
      by_contra hne
      rw [show g.per - ((chain d).length + 1) = m₁ d .inuseNum by rw [hm₁, Mem.set_self]] at hne
      rcases (hframe d _ hne).1 with h4 | h4 <;> exact absurd h4 (by decide)
    · rcases List.mem_cons.mp hx with rfl | hx
      · exact hod
      · exact hs.slots x hx
  refine ⟨m₄, lists', i, d, hd, hod, ?_, ?_, hstores, hmem⟩
  · have hval : (m d .inuseNum + 2 ^ 32 - 1) % 2 ^ 32 = g.per - ((chain d).length + 1) := by
      rw [hs.inuse]
      omega
    unfold freeSection
    refine Edits.bind (Edits.load h.image_self h.slabOrder) ?_
    simp only [slabBase_eq (h.aligned i d hd) hod ho64]
    refine Edits.bind (Edits.p2vLoad hv hds rfl) ?_
    rw [hval]
    refine Edits.bind (Edits.p2vStore hv hds) ?_
    rw [← hm₁]
    refine hedit m₄ (Edits.bind (Edits.p2vLoad hv hds hhead) ?_)
    rw [hm₄]
    exact Edits.bind (Edits.p2vStore hv hos) (Edits.p2vStore hv hds)
  · exact h.edit (h.phys i d hd) (h.aligned i d hd) hlists₄ hmem hslab hfits hstores
      (by simpa using hod) hlive hnd

end Slab
end MikroKernel
