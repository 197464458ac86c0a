import MikroKernel.Alloc.Slab
import MikroKernel.Lib.Ring
import MikroKernel.Machine.Effect

/-!
# The three slab lists of a cache

Memory holds the lists (`Lists`) when each is a ring around its sentinel in the cache and no
descriptor is on two of them. Taking a descriptor off its list and putting one at the front of a
list are the only edits the source makes, written out four times; here each is one lemma, for
any of the three lists, and a move is one after the other.
-/

set_option autoImplicit false

namespace MikroKernel
namespace Slab

open Circular

/-- The lists of a cache. -/
inductive SlabList
  | freeSlabs | partialSlabs | fullSlabs
deriving DecidableEq, Repr

/-- The sentinel of a list, inside the cache. -/
def SlabList.sentinel (cache : Nat) : SlabList → Nat
  | .freeSlabs => MikroKernel.freeSlabs cache
  | .partialSlabs => MikroKernel.partialSlabs cache
  | .fullSlabs => MikroKernel.fullSlabs cache

theorem SlabList.sentinel_inj {cache : Nat} {i j : SlabList}
    (h : i.sentinel cache = j.sentinel cache) : i = j := by
  cases i <;> cases j <;> simp only [SlabList.sentinel, MikroKernel.freeSlabs,
    MikroKernel.partialSlabs, MikroKernel.fullSlabs] at h <;> first | rfl | omega

/-- The nodes of one ring, sentinel first. -/
def ringNodes (cache : Nat) (lists : SlabList → List Nat) (i : SlabList) : List Nat :=
  i.sentinel cache :: (lists i).map slabNode

/-- Memory holds the descriptors of `lists` on the lists of `cache`. -/
structure Lists (L : Layout) (m : Mem) (cache : Nat) (lists : SlabList → List Nat) : Prop where
  ring : ∀ i, Ring (m · .listNext) (m · .listPrev) (i.sentinel cache) ((lists i).map slabNode)
  once : ∀ i j d, d ∈ lists i → d ∈ lists j → i = j
  sentinel : ∀ i : SlabList, L.image (i.sentinel cache) = true
  node : ∀ i, ∀ d ∈ lists i, L.phys (slabNode d) = true

variable {L : Layout} {m : Mem} {cache off : Nat} {lists : SlabList → List Nat}

theorem slabNode_inj {d e : Nat} (h : slabNode d = slabNode e) : d = e := by
  unfold slabNode at h
  omega

theorem image_ne_phys {a p : Nat} (ha : L.image a = true) (hp : L.phys p = true) : a ≠ p := by
  rintro rfl
  have h1 := L.phys_lt a hp
  have h2 := L.image_ge a ha
  unfold physTop at h1
  unfold pml4KernelHalfBase at h2
  omega

/-- A node is of one ring only. -/
theorem Lists.ringNodes_inj (h : Lists L m cache lists) {i j : SlabList} {a : Nat}
    (hi : a ∈ ringNodes cache lists i) (hj : a ∈ ringNodes cache lists j) : i = j := by
  rcases List.mem_cons.mp hi with hi | hi <;> rcases List.mem_cons.mp hj with hj | hj
  · exact SlabList.sentinel_inj (hi.symm.trans hj)
  · obtain ⟨e, he, rfl⟩ := List.mem_map.mp hj
    exact absurd hi.symm (image_ne_phys (h.sentinel i) (h.node j e he))
  · obtain ⟨d, hd, rfl⟩ := List.mem_map.mp hi
    exact absurd hj.symm (image_ne_phys (h.sentinel j) (h.node i d hd))
  · obtain ⟨d, hd, rfl⟩ := List.mem_map.mp hi
    obtain ⟨e, he, hde⟩ := List.mem_map.mp hj
    exact h.once i j d hd (slabNode_inj hde ▸ he)

theorem Lists.stored (h : Lists L m cache lists) {i : SlabList} {a : Nat}
    (ha : a ∈ ringNodes cache lists i) : L.Stored a := by
  rcases List.mem_cons.mp ha with rfl | ha
  · exact Or.inr (h.sentinel i)
  · obtain ⟨d, hd, rfl⟩ := List.mem_map.mp ha
    exact Or.inl (h.node i d hd)

theorem Lists.nodup (h : Lists L m cache lists) (i : SlabList) : (lists i).Nodup :=
  List.Nodup.of_map _ (List.nodup_cons.mp (h.ring i).nodup).2

/-- An edit that leaves the links of the nodes alone. -/
theorem Lists.congr {m' : Mem} (h : Lists L m cache lists)
    (hm : ∀ i, ∀ a ∈ ringNodes cache lists i, ∀ f, f = .listNext ∨ f = .listPrev →
      m' a f = m a f) : Lists L m' cache lists :=
  ⟨fun i => (h.ring i).congr (fun a ha => hm i a ha _ (Or.inl rfl))
    (fun a ha => hm i a ha _ (Or.inr rfl)), h.once, h.sentinel, h.node⟩

theorem erase_map_slabNode (l : List Nat) (d : Nat) :
    (l.erase d).map slabNode = (l.map slabNode).erase (slabNode d) :=
  List.map_erase (fun _ _ h => slabNode_inj h) l

/-- **Taking a descriptor off its list.** -/
theorem unlinkNode_edits {i : SlabList} {d : Nat} (hv : View off) (h : Lists L m cache lists)
    (hd : d ∈ lists i) :
    ∃ m', Edits L off (unlinkNode (slabNode d)) m () m' ∧
      Lists L m' cache (Function.update lists i ((lists i).erase d)) ∧
      ∀ a f, m' a f ≠ m a f → (f = .listNext ∨ f = .listPrev) ∧ a ∈ ringNodes cache lists i := by
  have hnode : slabNode d ∈ (lists i).map slabNode := List.mem_map.mpr ⟨d, hd, rfl⟩
  have hb : L.Stored (slabNode d) := Or.inl (h.node i d hd)
  obtain ⟨hpmem, hnmem⟩ := (h.ring i).neighbours hnode
  obtain ⟨p, hp⟩ : ∃ p, m (slabNode d) .listPrev = p := ⟨_, rfl⟩
  obtain ⟨n, hn⟩ : ∃ n, m (slabNode d) .listNext = n := ⟨_, rfl⟩
  rw [hp] at hpmem
  rw [hn] at hnmem
  -- the first store may hit the node itself only with the value it has
  have hn' : (m.set p .listNext n) (slabNode d) .listNext = n := by
    rw [Mem.set_apply]
    split
    · rfl
    · exact hn
  have hp' : (m.set p .listNext n) (slabNode d) .listPrev = p := by
    rw [Mem.set_ne (Or.inr (by decide))]
    exact hp
  have hframe : ∀ a f, ((m.set p .listNext n).set n .listPrev p) a f ≠ m a f →
      (f = .listNext ∨ f = .listPrev) ∧ a ∈ ringNodes cache lists i := by
    intro a f hne
    rw [Mem.set_apply, Mem.set_apply] at hne
    split at hne
    · rename_i hc
      exact ⟨Or.inr hc.2, hc.1 ▸ hnmem⟩
    · split at hne
      · rename_i hc
        exact ⟨Or.inl hc.2, hc.1 ▸ hpmem⟩
      · exact absurd rfl hne
  refine ⟨(m.set p .listNext n).set n .listPrev p, ?_, ⟨?_, ?_, h.sentinel, ?_⟩, hframe⟩
  · refine Edits.bind (Edits.p2vLoad hv hb hp) (Edits.bind (Edits.p2vLoad hv hb hn) ?_)
    refine Edits.bind (Edits.p2vStore hv (h.stored hpmem)) ?_
    refine Edits.bind (Edits.p2vLoad hv hb hn') (Edits.bind (Edits.p2vLoad hv hb hp') ?_)
    exact Edits.p2vStore hv (h.stored hnmem)
  · intro j
    by_cases hji : j = i
    · subst hji
      rw [Function.update_self, erase_map_slabNode]
      refine (h.ring j).unlink hnode (fun a ha hab => ?_) (fun a ha hab => ?_)
      · simp only [hp, hn, Mem.set_apply]
        simp
      · simp only [hp, hn, Mem.set_apply]
        simp
    · rw [Function.update_of_ne hji]
      have hkeep : ∀ a ∈ ringNodes cache lists j, ∀ f,
          ((m.set p .listNext n).set n .listPrev p) a f = m a f := by
        intro a ha f
        by_contra hne
        exact hji (h.ringNodes_inj ha (hframe a f hne).2)
      exact (h.ring j).congr (fun a ha => hkeep a ha _) (fun a ha => hkeep a ha _)
  · intro j k e hj hk
    have hsub : ∀ j, e ∈ Function.update lists i ((lists i).erase d) j → e ∈ lists j := by
      intro j hj
      by_cases hji : j = i
      · subst hji
        rw [Function.update_self] at hj
        exact List.mem_of_mem_erase hj
      · rwa [Function.update_of_ne hji] at hj
    exact h.once j k e (hsub j hj) (hsub k hk)
  · intro j e he
    by_cases hji : j = i
    · subst hji
      rw [Function.update_self] at he
      exact h.node j e (List.mem_of_mem_erase he)
    · rw [Function.update_of_ne hji] at he
      exact h.node j e he

/-- **Putting a descriptor at the front of a list**, from which it is then found first. -/
theorem insertFront_edits {j : SlabList} {d : Nat} (hv : View off) (h : Lists L m cache lists)
    (hd : ∀ i, d ∉ lists i) (hphys : L.phys (slabNode d) = true) :
    ∃ m', Edits L off (insertFront (j.sentinel cache) (slabNode d)) m () m' ∧
      Lists L m' cache (Function.update lists j (d :: lists j)) ∧
      ∀ a f, m' a f ≠ m a f → (f = .listNext ∨ f = .listPrev) ∧
        (a = slabNode d ∨ a ∈ ringNodes cache lists j) := by
  have hb : L.Stored (slabNode d) := Or.inl hphys
  have himg := h.sentinel j
  have hbh : slabNode d ≠ j.sentinel cache := (image_ne_phys himg hphys).symm
  have hnot : ∀ i, slabNode d ∉ ringNodes cache lists i := by
    intro i hmem
    rcases List.mem_cons.mp hmem with he | hmem
    · exact image_ne_phys (h.sentinel i) hphys he.symm
    · obtain ⟨e, he, hde⟩ := List.mem_map.mp hmem
      exact hd i (slabNode_inj hde ▸ he)
  obtain ⟨x, hx⟩ : ∃ x, m (j.sentinel cache) .listNext = x := ⟨_, rfl⟩
  have hxmem : x ∈ ringNodes cache lists j := by
    rw [← hx, (h.ring j).next_eq]
    unfold ringNodes
    cases (lists j).map slabNode with
    | nil => simp [first]
    | cons a l => simp [first]
  have hxb : slabNode d ≠ x := fun he => hnot j (he ▸ hxmem)
  let m' : Mem := (((m.set (slabNode d) .listNext x).set (slabNode d) .listPrev
    (j.sentinel cache)).set x .listPrev (slabNode d)).set (j.sentinel cache) .listNext (slabNode d)
  have hframe : ∀ a f, m' a f ≠ m a f → (f = .listNext ∨ f = .listPrev) ∧
      (a = slabNode d ∨ a ∈ ringNodes cache lists j) := by
    intro a f hne
    simp only [m', Mem.set_apply] at hne
    split at hne
    · rename_i hc
      exact ⟨Or.inl hc.2, Or.inr (hc.1 ▸ List.mem_cons_self)⟩
    · split at hne
      · rename_i hc
        exact ⟨Or.inr hc.2, Or.inr (hc.1 ▸ hxmem)⟩
      · split at hne
        · rename_i hc
          exact ⟨Or.inr hc.2, Or.inl hc.1⟩
        · split at hne
          · rename_i hc
            exact ⟨Or.inl hc.2, Or.inl hc.1⟩
          · exact absurd rfl hne
  refine ⟨m', ?_, ⟨?_, ?_, h.sentinel, ?_⟩, hframe⟩
  · have hx' : ((m.set (slabNode d) .listNext x).set (slabNode d) .listPrev (j.sentinel cache))
        (j.sentinel cache) .listNext = x := by
      rw [Mem.set_ne (Or.inl hbh.symm), Mem.set_ne (Or.inl hbh.symm), hx]
    refine Edits.bind (Edits.load himg hx) (Edits.bind (Edits.p2vStore hv hb) ?_)
    refine Edits.bind (Edits.p2vStore hv hb) (Edits.bind (Edits.load himg hx') ?_)
    exact Edits.bind (Edits.p2vStore hv (h.stored hxmem)) (Edits.store himg)
  · intro i
    by_cases hij : i = j
    · subst hij
      rw [Function.update_self, List.map_cons]
      refine (h.ring i).insert hbh (fun hm => hnot i (List.mem_cons_of_mem _ hm)) ?_ ?_ ?_ ?_
        (fun a ha => ?_) (fun a ha hax => ?_)
      · simp [m', Mem.set_apply, hbh, hx]
      · simp [m', Mem.set_apply, hxb]
      · simp [m']
      · simp [m', Mem.set_apply, hx]
      · have hah : a ≠ i.sentinel cache := fun he =>
          (List.nodup_cons.mp (h.ring i).nodup).1 (he ▸ ha)
        have hab : a ≠ slabNode d := fun he => hnot i (he ▸ List.mem_cons_of_mem _ ha)
        simp [m', Mem.set_apply, hah, hab]
      · have hab : a ≠ slabNode d := fun he => hnot i (he ▸ ha)
        rw [hx] at hax
        simp [m', Mem.set_apply, hax, hab]
    · rw [Function.update_of_ne hij]
      have hkeep : ∀ a ∈ ringNodes cache lists i, ∀ f, m' a f = m a f := by
        intro a ha f
        by_contra hne
        rcases (hframe a f hne).2 with he | he
        · exact hnot i (he ▸ ha)
        · exact hij (h.ringNodes_inj ha he)
      exact (h.ring i).congr (fun a ha => hkeep a ha _) (fun a ha => hkeep a ha _)
  · intro i k e hi hk
    have hcase : ∀ i, e ∈ Function.update lists j (d :: lists j) i →
        (i = j ∧ e = d) ∨ (e ≠ d ∧ e ∈ lists i) := by
      intro i hi
      by_cases hij : i = j
      · subst hij
        rw [Function.update_self] at hi
        rcases List.mem_cons.mp hi with rfl | hi
        · exact Or.inl ⟨rfl, rfl⟩
        · exact Or.inr ⟨fun he => hd i (he ▸ hi), hi⟩
      · rw [Function.update_of_ne hij] at hi
        exact Or.inr ⟨fun he => hd i (he ▸ hi), hi⟩
    rcases hcase i hi with ⟨h1, h2⟩ | ⟨h1, h2⟩ <;> rcases hcase k hk with ⟨h3, h4⟩ | ⟨h3, h4⟩
    · exact h1.trans h3.symm
    · exact absurd h2 h3
    · exact absurd h4 h1
    · exact h.once i k e h2 h4
  · intro i e he
    by_cases hij : i = j
    · subst hij
      rw [Function.update_self] at he
      rcases List.mem_cons.mp he with rfl | he
      · exact hphys
      · exact h.node i e he
    · rw [Function.update_of_ne hij] at he
      exact h.node i e he

/-- The lists after a move of `d` from `i` to the front of `j`. -/
def moved (lists : SlabList → List Nat) (i j : SlabList) (d : Nat) : SlabList → List Nat :=
  Function.update (Function.update lists i ((lists i).erase d)) j
    (d :: Function.update lists i ((lists i).erase d) j)

/-- **A move between lists**: off one, at the front of the other. -/
theorem moveNode_edits {i j : SlabList} {d : Nat} (hv : View off) (h : Lists L m cache lists)
    (hd : d ∈ lists i) :
    ∃ m', Edits L off (moveNode (j.sentinel cache) (slabNode d)) m () m' ∧
      Lists L m' cache (moved lists i j d) ∧
      ∀ a f, m' a f ≠ m a f → (f = .listNext ∨ f = .listPrev) ∧
        ∃ k, a ∈ ringNodes cache lists k := by
  obtain ⟨m₁, hedit₁, hlists₁, hframe₁⟩ := unlinkNode_edits hv h hd
  have hnot : ∀ k, d ∉ Function.update lists i ((lists i).erase d) k := by
    intro k hk
    by_cases hki : k = i
    · subst hki
      rw [Function.update_self] at hk
      exact (h.nodup k).not_mem_erase hk
    · rw [Function.update_of_ne hki] at hk
      exact hki (h.once k i d hk hd)
  obtain ⟨m₂, hedit₂, hlists₂, hframe₂⟩ := insertFront_edits (j := j) hv hlists₁ hnot
    (h.node i d hd)
  refine ⟨m₂, Edits.bind hedit₁ hedit₂, hlists₂, fun a f hne => ?_⟩
  by_cases hsame : m₂ a f = m₁ a f
  · rw [hsame] at hne
    exact ⟨(hframe₁ a f hne).1, i, (hframe₁ a f hne).2⟩
  · obtain ⟨hf, ha | ha⟩ := hframe₂ a f hsame
    · exact ⟨hf, i, ha ▸ List.mem_cons_of_mem _ (List.mem_map.mpr ⟨d, hd, rfl⟩)⟩
    · refine ⟨hf, j, ?_⟩
      rcases List.mem_cons.mp ha with rfl | ha
      · exact List.mem_cons_self
      · obtain ⟨e, he, rfl⟩ := List.mem_map.mp ha
        refine List.mem_cons_of_mem _ (List.mem_map.mpr ⟨e, ?_, rfl⟩)
        by_cases hji : j = i
        · subst hji
          rw [Function.update_self] at he
          exact List.mem_of_mem_erase he
        · rwa [Function.update_of_ne hji] at he

end Slab
end MikroKernel
