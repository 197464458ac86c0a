import MikroKernel.Proof.Vm.Space

/-!
# `kmap_pages` and `kunmap_pages` on an address space at rest

What the two calls do is said of two things a caller can see: the translations (`Mmu.PageMap`) and
the VMAs, as the list of their ranges in order. `Shows` ties both to the memory. `kmap_pages` maps
its range and enters it into the list, unless a VMA starts where the range does; `kunmap_pages`
takes the VMA that its address is in out of the list, and unmaps *its own* range.
-/

set_option autoImplicit false

namespace MikroKernel
namespace Vm

open Rb RedBlack RedBlack.RBTree

variable {L : Layout} {A : KernelAlloc L} {V : Statics} {pml4 : Nat} {s s' : KState}
  {t t' : RBTree Nat} {live : List Nat} {T T' : Mmu.Tables} {m m' : Mem} {a : Mmu.Args}
  {M : Mmu.PageMap} {areas : List (Nat × Nat)}

/-! ## Ranges -/

/-- Start and end of the VMA of a node. -/
def range (m : Mem) (x : Nat) : Nat × Nat := (m (vmaOf x) .vmaStart, m (vmaOf x) .vmaEnd)

/-- A new range is entered, unless one starts there. -/
def Enters (r : Nat × Nat) (l l' : List (Nat × Nat)) : Prop :=
  ((∃ q ∈ l, q.1 = r.1) ∧ l' = l) ∨
    ((∀ q ∈ l, q.1 ≠ r.1) ∧ ∃ l₁ l₂, l = l₁ ++ l₂ ∧ l' = l₁ ++ r :: l₂)

theorem Enters.length_le {r : Nat × Nat} {l l' : List (Nat × Nat)} (h : Enters r l l') :
    l'.length ≤ l.length + 1 := by
  rcases h with ⟨-, rfl⟩ | ⟨-, l₁, l₂, rfl, rfl⟩
  · omega
  · simp
    omega

theorem height_le_length (t : RBTree Nat) : t.height ≤ t.toList.length := by
  induction t with
  | nil => exact Nat.le_refl 0
  | node k l x r ihl ihr =>
    simp only [height, toList, List.length_append, List.length_cons]
    omega

theorem range_touches {root : Nat} {l : List Nat} (h : Touches root l m m') :
    range m' = range m := by
  funext x
  unfold range
  rw [touches_vma h vmaStart_not_link (by decide), touches_vma h vmaEnd_not_link (by decide)]

theorem startOrder_touches {root : Nat} {l : List Nat} (h : Touches root l m m') :
    startOrder m' = startOrder m := by
  funext x y
  exact startOrder_congr (touches_vma h vmaStart_not_link (by decide))
    (touches_vma h vmaStart_not_link (by decide))

/-! ## The tree -/

/-- The tree of VMAs changes links only. -/
theorem Space.links {l : List Nat} (h : Space A V pml4 s t live T)
    (hl : ∀ x ∈ l, ∃ o ∈ live, x = o + vmaNode) (ht : Touches V.kernelRbRoot l s.mem m')
    (htree : IsTree L V.kernelRbRoot (startOrder s.mem) m' t') (hsub : ∀ x ∈ t'.toList, x ∈ l) :
    Space A V pml4 { s with mem := m' } t' live T := by
  refine h.edit (Quiet.setMem s m') (fun a f hne => ?_) ?_ (fun x hx => hl x (hsub x hx))
  · rcases ht a f hne with hroot | ⟨ha, -⟩
    · exact Or.inl hroot
    · obtain ⟨o, ho, rfl⟩ := hl a ha
      exact Or.inr ⟨o, ho, by unfold vmaNode; omega, by unfold vmaNode vmaSize; omega⟩
  · show IsTree L V.kernelRbRoot (startOrder m') m' t'
    rwa [startOrder_touches ht]

/-- **`rb_insert_vma`** of an object that is not in the tree. -/
theorem Space.insert {o fuel : Nat} (h : Space A V pml4 s t live T) (ho : o ∈ live)
    (hot : o + vmaNode ∉ t.toList) (hfuel : t.height < fuel) :
    ∃ m' t', Edits L s.physMapOffset (rbInsertVma fuel V o) s.mem () m' ∧
      Space A V pml4 { s with mem := m' } t' live T ∧
      Enters (range s.mem (o + vmaNode)) (t.toList.map (range s.mem))
      (t'.toList.map (range m')) := by
  have hobj : ∀ x ∈ (o + vmaNode) :: t.toList, ∃ q ∈ live, x = q + vmaNode :=
    List.forall_mem_cons.mpr ⟨⟨o, ho, rfl⟩, h.nodes⟩
  have hphys : ∀ q ∈ live, ∀ i, i < vmaSize → L.Stored (q + i) := by
    intro q hq i hi
    exact Or.inl (h.object_phys ⟨q, hq, by omega, by omega⟩)
  have hvma : ∀ x ∈ (o + vmaNode) :: t.toList, L.Stored (vmaOf x) := by
    intro x hx
    obtain ⟨q, hq, rfl⟩ := hobj x hx
    rw [vmaOf_node]
    exact hphys q hq 0 (by decide)
  rcases insert_edits h.view (startOrder_total _) h.tree hot (by unfold vmaNode; omega)
    (hphys o ho vmaNode (by decide)) (vmaCmp_compares h.view hvma) hfuel with
    ⟨⟨y, hy, heq⟩, hedit⟩ | ⟨hne, m', t', l₁, l₂, hedit, htree, hl, hl', htouch⟩
  · have htouch : Touches V.kernelRbRoot ((o + vmaNode) :: t.toList) s.mem
      (unlinkedMem s.mem (o + vmaNode)) := unlinkedMem_touches List.mem_cons_self
    refine ⟨_, t, hedit.bind (Edits.pure ()), h.links hobj htouch (h.tree.unlinked hot)
      (fun x => List.mem_cons_of_mem _), Or.inl ⟨⟨_, List.mem_map_of_mem hy, ?_⟩, ?_⟩⟩
    · exact (startOrder_eq.mp heq).symm
    · rw [range_touches htouch]
  · refine ⟨m', t', hedit.bind (Edits.pure ()), h.links hobj htouch htree (fun x hx => ?_),
      Or.inr ⟨fun q hq => ?_, l₁.map (range s.mem), l₂.map (range s.mem), ?_, ?_⟩⟩
    · rw [hl'] at hx
      rw [hl]
      exact List.perm_middle.mem_iff.mp hx
    · obtain ⟨y, hy, rfl⟩ := List.mem_map.mp hq
      exact fun he => hne y hy (startOrder_eq.mpr he.symm)
    · rw [hl, List.map_append]
    · rw [hl', range_touches htouch, List.map_append, List.map_cons]

/-- **`rb_remove_vma`** of a VMA of the tree. -/
theorem Space.remove {x fuel : Nat} (h : Space A V pml4 s t live T) (hx : x ∈ t.toList)
    (hfuel : t.height < fuel) :
    ∃ m' t' l₁ l₂, Edits L s.physMapOffset (rbRemoveVma fuel V (vmaOf x)) s.mem () m' ∧
      Space A V pml4 { s with mem := m' } t' live T ∧ range m' = range s.mem ∧
      t.toList = l₁ ++ x :: l₂ ∧ t'.toList = l₁ ++ l₂ := by
  have hnode : vmaOf x + vmaNode = x := by
    obtain ⟨o, -, rfl⟩ := h.nodes x hx
    rw [vmaOf_node]
  have hcmp : ∀ b ∈ t.toList, Edits L s.physMapOffset (vmaCmp (vmaOf x + vmaNode) b) s.mem
      (startOrder s.mem (vmaOf x + vmaNode) b) s.mem := by
    intro b hb
    rw [hnode]
    exact vmaCmp_edits h.view (h.stored_vma hx) (h.stored_vma hb)
  rcases delete_edits h.view (startOrder_total _) h.tree hcmp hfuel with
    ⟨hne, -⟩ | ⟨y, l₁, l₂, m', t', heq, hl, hedit, htree, hl', htouch⟩
  · exact absurd (startOrder_eq.mpr (by rw [hnode])) (hne x hx)
  · -- different nodes of the tree do not compare equal
    have hy : y ∈ t.toList := by
      rw [hl]
      simp
    obtain rfl : x = y := by
      by_contra hxy
      rw [hnode] at heq
      exact h.tree.sorted.ne_of_ne (startOrder_total _) hx hy hxy heq
    refine ⟨m', t', l₁, l₂, hedit.bind (Edits.pure ()),
      h.links h.nodes htouch htree (fun z hz => ?_), range_touches htouch, hl, hl'⟩
    rw [hl'] at hz
    rw [hl]
    exact List.perm_middle.mem_iff.mpr (List.mem_cons_of_mem _ hz)

/-! ## A new VMA -/

/-- Memory with a filled VMA. -/
def filled (m : Mem) (v paddr vaddr flags numPages : Nat) : Mem :=
  ((m.set v .vmaStart vaddr).set v .vmaEnd ((vaddr + numPages * pageBytes flags) % 2 ^ 64)).set v
    .vmaPte (paddr ||| flags)

theorem fillVma_edits {off v paddr vaddr flags numPages : Nat} (hv : View off) (hs : L.Stored v) :
    Edits L off (fillVma v paddr vaddr flags numPages) m ()
      (filled m v paddr vaddr flags numPages) :=
  (Edits.p2vStore hv hs).bind ((Edits.p2vStore hv hs).bind (Edits.p2vStore hv hs))

theorem filled_changed {v paddr vaddr flags numPages x : Nat} {f : Field}
    (h : filled m v paddr vaddr flags numPages x f ≠ m x f) :
    x = v ∧ (f = .vmaStart ∨ f = .vmaEnd ∨ f = .vmaPte) := by
  by_contra hc
  refine h ?_
  unfold filled
  by_cases hx : x = v
  · have hf : f ≠ .vmaStart ∧ f ≠ .vmaEnd ∧ f ≠ .vmaPte := by
      refine ⟨?_, ?_, ?_⟩ <;> rintro rfl <;> exact hc ⟨hx, by simp⟩
    rw [Mem.set_ne (Or.inr hf.2.2), Mem.set_ne (Or.inr hf.2.1), Mem.set_ne (Or.inr hf.1)]
  · rw [Mem.set_ne (Or.inl hx), Mem.set_ne (Or.inl hx), Mem.set_ne (Or.inl hx)]

theorem filled_range {v paddr vaddr flags numPages : Nat} :
    range (filled m v paddr vaddr flags numPages) (v + vmaNode)
      = (vaddr, (vaddr + numPages * pageBytes flags) % 2 ^ 64) := by
  unfold range filled
  rw [vmaOf_node, Mem.set_ne (Or.inr (by decide)), Mem.set_ne (Or.inr (by decide)), Mem.set_self,
    Mem.set_ne (Or.inr (by decide)), Mem.set_self]

/-- A VMA that is not in the tree is filled. -/
theorem Space.fill {o : Nat} (h : Space A V pml4 s t live T) (ho : o ∈ live)
    (hot : o + vmaNode ∉ t.toList) (paddr vaddr flags numPages : Nat) :
    Space A V pml4 { s with mem := filled s.mem o paddr vaddr flags numPages } t live T ∧
      t.toList.map (range (filled s.mem o paddr vaddr flags numPages))
      = t.toList.map (range s.mem) := by
  have hsame : ∀ x ∈ t.toList, ∀ f, filled s.mem o paddr vaddr flags numPages (vmaOf x) f
      = s.mem (vmaOf x) f := by
    intro x hx f
    by_contra hne
    obtain ⟨q, -, rfl⟩ := h.nodes x hx
    obtain ⟨he, -⟩ := filled_changed hne
    rw [vmaOf_node] at he
    exact hot (he ▸ hx)
  refine ⟨h.edit (Quiet.setMem s _) (fun a f hne => ?_) ?_ h.nodes,
    List.map_congr_left (fun x hx => ?_)⟩
  · obtain ⟨rfl, -⟩ := filled_changed hne
    exact Or.inr ⟨a, ho, Nat.le_refl _, by unfold vmaSize; omega⟩
  · refine isTree_congr h.tree ?_ (fun x _ f hf => ?_) (fun x hx => hsame x hx _)
    · by_contra hne
      obtain ⟨-, hf⟩ := filled_changed hne
      simp at hf
    · by_contra hne
      obtain ⟨-, rfl | rfl | rfl⟩ := filled_changed hne <;> simp [IsLink] at hf
  · unfold range
    rw [hsame x hx, hsame x hx]

/-- The ranges, when the live objects are what they were. -/
theorem Space.ranges_kept (h : Space A V pml4 s t live T)
    (hobj : ∀ a f, InObject live a → m' a f = s.mem a f) :
    t.toList.map (range m') = t.toList.map (range s.mem) := by
  refine List.map_congr_left (fun x hx => ?_)
  unfold range
  rw [hobj _ _ (h.node_object hx).2, hobj _ _ (h.node_object hx).2]

/-! ## With assertions -/

section Guards

variable {alarm : Stop}

section

variable (x y : Nat → K Nat) [∀ n, Guards alarm (x n) (y n)]

instance (fuel : Nat) (V : Statics) (vma p v flags n : Nat) :
    Guards alarm (mapSection fuel x V vma p v flags n) (mapSection fuel y V vma p v flags n) := by
  unfold mapSection
  infer_instance

instance (fuel : Nat) (V : Statics) (p v flags n : Nat) :
    Guards alarm (kmapPages fuel x V p v flags n) (kmapPages fuel y V p v flags n) := by
  unfold kmapPages
  infer_instance

end

variable (x y : Nat → Nat → K Unit) [∀ p n, Guards alarm (x p n) (y p n)]

instance (fuel : Nat) (V : Statics) (vma p v flags n : Nat) :
    Guards alarm (unmapSection fuel x V vma p v flags n)
        (unmapSection fuel y V vma p v flags n) := by
  unfold unmapSection
  infer_instance

instance (fuel : Nat) (V : Statics) (p v flags n : Nat) :
    Guards alarm (kunmapPages fuel x V p v flags n) (kunmapPages fuel y V p v flags n) := by
  unfold kunmapPages
  infer_instance

end Guards

/-! ## Under the lock -/

theorem Space.acquired (h : Space A V pml4 s t live T) :
    Space A V pml4 (s.acquired .kernelPageLock) t live T :=
  h.relock rfl rfl rfl (KState.acquired_lock_ne (by decide)) (KState.acquired_lock_ne (by decide))

theorem Space.released (h : Space A V pml4 s t live T) :
    Space A V pml4 (s.released .kernelPageLock) t live T :=
  h.relock rfl rfl rfl (KState.released_lock_ne (by decide)) (KState.released_lock_ne (by decide))

/-- The section of `kmap_pages`. -/
theorem Space.mapSection {o fuel : Nat} (h : Space A V pml4 s t live T) (ho : o ∈ live)
    (hot : o + vmaNode ∉ t.toList) (hfuel : t.height < fuel)
    (ha : Mmu.MapArgs (T.lookup · ≠ none) a) (hphys : a.paddr + a.numPages * a.size ≤ 2 ^ 52) :
    Tied L nullAlarm (· ∈ Mmu.allocFailures)
      (mapSection fuel (orHalt A.kmalloc) V o a.paddr a.vaddr a.flags a.numPages)
      (mapSection fuel A.kmalloc V o a.paddr a.vaddr a.flags a.numPages) s
      (fun _ s' => s'.lock .kernelPageLock = s.lock .kernelPageLock ∧
        ∃ t' T', Space A V pml4 s' t' live T' ∧ T'.lookup = Mmu.PageMap.map T.lookup a ∧
          Enters (range s.mem (o + vmaNode)) (t.toList.map (range s.mem))
            (t'.toList.map (range s'.mem))) := by
  obtain ⟨m', t', hedit, h', henters⟩ := h.insert ho hot hfuel
  refine Tied.bind_edits hedit (Tied.bind_edits (Edits.load h.placed.pml4 h'.pml4_eq) ?_)
  refine (Mmu.map_yields h'.tables h'.full ha).mono (fun _ hm => hm) ?_
  rintro - s' ⟨T', hinv, hfull, hframe, hsmall, hhuge⟩
  refine ⟨hframe.lock _ (by decide), t', T', h'.retable hinv hfull hframe,
    Mmu.lookup_map ha hphys hsmall hhuge, ?_⟩
  rwa [h'.ranges_kept (fun a f ha => h'.objects_kept hframe f ha)]

/-- The first half of the section of `kunmap_pages`: the VMA leaves the tree and is freed. -/
def takeOut (fuel : Nat) (V : Statics) (vma : Nat) : K Unit := do
  rbRemoveVma fuel V vma
  kmemCacheKfree V.vmaCache vma

theorem Space.takeOut {x fuel : Nat} (h : Space A V pml4 s t live T) (hx : x ∈ t.toList)
    (hfuel : t.height < fuel) :
    ∃ s' t' l₁ l₂, takeOut fuel V (vmaOf x) L s = .ok ((), s') ∧
      Space A V pml4 s' t' (live.erase (vmaOf x)) T ∧
      (∀ id, id ≠ .slabLock → s'.lock id = s.lock id) ∧
      t.toList = l₁ ++ x :: l₂ ∧ t'.toList = l₁ ++ l₂ ∧
      t'.toList.map (range s'.mem) = (l₁ ++ l₂).map (range s.mem) := by
  obtain ⟨m', t', l₁, l₂, hedit, h₁, hrange, hl, hl'⟩ := h.remove hx hfuel
  obtain ⟨o, ho, rfl⟩ := h.nodes x hx
  rw [vmaOf_node] at hedit ⊢
  have hout : o + vmaNode ∉ t'.toList := by
    have hnd := h.tree.at_.nodup
    rw [hl] at hnd
    rw [hl']
    exact (List.nodup_cons.mp (List.nodup_middle.mp hnd)).1
  obtain ⟨s₂, hfree, hlock, hobj, h₂⟩ := h₁.kfree ho hout
  refine ⟨s₂, t', l₁, l₂, ?_, h₂, hlock, hl, hl', ?_⟩
  · unfold Vm.takeOut
    rw [K.bind_ok (hedit s rfl rfl)]
    exact hfree
  · rw [hl', ← hrange]
    refine List.map_congr_left (fun y hy => ?_)
    have hin := h₂.node_object (show y ∈ t'.toList by rw [hl']; exact hy)
    unfold range
    rw [hobj _ _ hin.2, hobj _ _ hin.2]

theorem unmapSection_eq (fuel : Nat) (kfree : Nat → Nat → K Unit) (V : Statics) (vma : Nat)
    (a : Mmu.Args) :
    unmapSection fuel kfree V vma a.paddr a.vaddr a.flags a.numPages = (do
      takeOut fuel V vma
      unmapPages kfree (← load V.kernelPml4t .ptr) a.paddr a.vaddr a.flags a.numPages) := by
  unfold takeOut unmapSection
  rw [K.bind_assoc']

/-- The section of `kunmap_pages` with a VMA of the tree. -/
theorem Space.unmapSection {x fuel : Nat} (a : Mmu.Args) (h : Space A V pml4 s t live T)
    (hx : x ∈ t.toList) (hfuel : t.height < fuel)
    (hsound : FreesSound A.toPhysAlloc (fun kfree =>
      unmapSection fuel kfree V (vmaOf x) a.paddr a.vaddr a.flags a.numPages) s) :
    Yields L (unmapSection fuel A.kfree V (vmaOf x) a.paddr a.vaddr a.flags a.numPages) s
      (fun _ => a.Wrong T) (fun _ s' => s'.lock .kernelPageLock = s.lock .kernelPageLock ∧
        ∃ t' T' l₁ l₂, Space A V pml4 s' t' (live.erase (vmaOf x)) T' ∧ t.toList = l₁ ++ x :: l₂ ∧
          t'.toList = l₁ ++ l₂ ∧ t'.toList.map (range s'.mem) = (l₁ ++ l₂).map (range s.mem) ∧
          T'.small = a.unmapSmall T ∧ T'.huge = a.unmapHuge T) := by
  obtain ⟨s₁, t', l₁, l₂, htake, h₁, hlock, hl, hl', hranges⟩ := h.takeOut hx hfuel
  have hload : Edits L s₁.physMapOffset (load V.kernelPml4t .ptr) s₁.mem pml4 s₁.mem :=
    Edits.load h.placed.pml4 h₁.pml4_eq
  dsimp only [FreesSound] at hsound
  rw [unmapSection_eq] at hsound ⊢
  replace hsound := K.calm_rest hsound htake
  have hsound : a.Sound A.toPhysAlloc pml4 s₁ := K.calm_rest hsound (hload s₁ rfl rfl)
  refine Yields.bind_ok htake (Yields.bind_edits hload ?_)
  refine (Mmu.unmap_yields a h₁.tables h₁.full hsound).mono (fun _ hm => hm) ?_
  rintro - s' ⟨T', hinv, hfull, hframe, hsmall, hhuge⟩
  refine ⟨(hframe.lock _ (by decide)).trans (hlock _ (by decide)), t', T', l₁, l₂,
    h₁.retable hinv hfull hframe, hl, hl', ?_, hsmall, hhuge⟩
  rw [h₁.ranges_kept (fun a f ha => h₁.objects_kept hframe f ha), hranges]

/-! ## The calls -/

/-- `kmap_pages(...)`. -/
def kmap (fuel : Nat) (kmalloc : Nat → K Nat) (V : Statics) (a : Mmu.Args) : K Unit :=
  kmapPages fuel kmalloc V a.paddr a.vaddr a.flags a.numPages

/-- `kunmap_pages(...)`. -/
def kunmap (fuel : Nat) (kfree : Nat → Nat → K Unit) (V : Statics) (a : Mmu.Args) : K Unit :=
  kunmapPages fuel kfree V a.paddr a.vaddr a.flags a.numPages

instance (alarm : Stop) (x y : Nat → K Nat) [∀ n, Guards alarm (x n) (y n)] (fuel : Nat)
    (V : Statics) (a : Mmu.Args) : Guards alarm (kmap fuel x V a) (kmap fuel y V a) := by
  unfold kmap
  infer_instance

instance (alarm : Stop) (x y : Nat → Nat → K Unit) [∀ p n, Guards alarm (x p n) (y p n)]
    (fuel : Nat) (V : Statics) (a : Mmu.Args) :
    Guards alarm (kunmap fuel x V a) (kunmap fuel y V a) := by
  unfold kunmap
  infer_instance

/-- The range of the VMA that `kmap_pages` makes. -/
def area (a : Mmu.Args) : Nat × Nat := (a.vaddr, (a.vaddr + a.numPages * a.size) % 2 ^ 64)

/-- An address space at rest, by its translations and its VMAs. -/
def Shows (A : KernelAlloc L) (V : Statics) (pml4 : Nat) (s : KState) (M : Mmu.PageMap)
    (areas : List (Nat × Nat)) : Prop :=
  (s.lock .kernelPageLock).Free ∧ ∃ t live T, Space A V pml4 s t live T ∧ T.lookup = M ∧
    t.toList.map (range s.mem) = areas

theorem Shows.walk_eq (h : Shows A V pml4 s M areas) (v : Nat) :
    Mmu.walk s.mem pml4 v = M (Mmu.pageNo v) := by
  obtain ⟨-, t, live, T, h, rfl, -⟩ := h
  exact h.tables.walk_eq v

/-- The panics for want of memory. -/
def outOfMemory : List String :=
  "FAILED TO ALLOCATE A VMA STRUCT IN KMAP_PAGES" :: Mmu.allocFailures

/-- **`kmap_pages`** in a range where nothing is mapped. -/
theorem Shows.kmap {fuel : Nat} (h : Shows A V pml4 s M areas) (ha : Mmu.MapArgs (M · ≠ none) a)
    (hphys : a.paddr + a.numPages * a.size ≤ 2 ^ 52) (hfuel : areas.length < fuel) :
    Tied L nullAlarm (· ∈ outOfMemory) (kmap fuel (orHalt A.kmalloc) V a)
      (kmap fuel A.kmalloc V a) s
      (fun _ s' => ∃ areas', Shows A V pml4 s' (M.map a) areas' ∧
          Enters (area a) areas areas') := by
  obtain ⟨hlock, t, live, T, h, rfl, rfl⟩ := h
  obtain ⟨p, s₁, hcall, hfree, hnew, hobj, hnull, h₁⟩ := h.kalloc
  by_cases h0 : p = 0
  · -- the cache has no VMA: it did not get a block to grow by
    subst h0
    have hnull : kmemCacheKalloc (orHalt A.kmalloc) V.vmaCache L s = .error nullAlarm := hnull rfl
    unfold kmap kmapPages
    refine Tied.of_alarm (by rw [K.bind_apply, hnull]) (Yields.bind_ok hcall ?_)
    exact Yields.panic_bind List.mem_cons_self
  · rw [if_neg h0] at h₁
    refine Tied.bind (Tied.ret hcall (Q := fun r s' => p = r ∧ s₁ = s') ⟨rfl, rfl⟩) ?_
    rintro _ _ ⟨rfl, rfl⟩
    refine Tied.ite_neg h0 ?_
    have hp : p ∈ p :: live := List.mem_cons_self
    have hpt : p + vmaNode ∉ t.toList := by
      intro hx
      obtain ⟨q, hq, he⟩ := h.nodes _ hx
      exact hnew h0 (Nat.add_right_cancel he ▸ hq)
    have hstored : L.Stored p :=
      Or.inl (h₁.object_phys ⟨p, hp, Nat.le_refl _, by unfold vmaSize; omega⟩)
    obtain ⟨h₂, hareas⟩ := h₁.fill hp hpt a.paddr a.vaddr a.flags a.numPages
    refine Tied.bind_edits (fillVma_edits h₁.view hstored) ?_
    rw [List.length_map] at hfuel
    have hsection := h₂.acquired.mapSection hp hpt (Nat.lt_of_le_of_lt (height_le_length t) hfuel)
      ha hphys
    have hlock₂ : (KState.lock { s₁ with mem := filled s₁.mem p a.paddr a.vaddr a.flags a.numPages }
        .kernelPageLock).Free := hfree _ hlock
    refine (Tied.locked hlock₂ hsection (fun _ _ hq => hq.1)).mono
      (fun _ hm => List.mem_cons_of_mem _ hm) ?_
    rintro - s' ⟨s₃, ⟨-, t', T', h₃, hlook, henters⟩, rfl, hfree'⟩
    refine ⟨_, ⟨hfree', t', _, T', h₃.released, hlook, rfl⟩, ?_⟩
    -- the ranges are those from before, and the new one is the one just filled in
    rw [KState.acquired_mem, hareas, h.ranges_kept hobj, filled_range] at henters
    exact henters

/-- An address is in a range. -/
def Within (v : Nat) (r : Nat × Nat) : Prop := r.1 ≤ v ∧ v < r.2

instance (v : Nat) (r : Nat × Nat) : Decidable (Within v r) := inferInstanceAs (Decidable (_ ∧ _))

/-- Each range ends before the next starts. -/
def InOrder (l : List (Nat × Nat)) : Prop := l.Pairwise fun p q => p.2 ≤ q.1

/-- **`kunmap_pages`** returns at once if no VMA has the address, and otherwise takes away that VMA
and its own pages, if the tables it gives back are merged with free blocks only. -/
theorem Shows.kunmap {fuel : Nat} (h : Shows A V pml4 s M areas) (hal : M.Aligned)
    (ha : Mmu.UnmapArgs M a) (hap : InOrder areas) (hfuel : areas.length < fuel)
    (hsound : FreesSound A.toPhysAlloc (fun kfree => kunmap fuel kfree V a) s) :
    ∃ s', kunmap fuel A.kfree V a L s = .ok ((), s') ∧
      (((∀ r ∈ areas, ¬ Within a.vaddr r) ∧ s' = s) ∨
        ∃ l₁ r l₂, areas = l₁ ++ r :: l₂ ∧ Within a.vaddr r ∧
          Shows A V pml4 s' (M.unmap a) (l₁ ++ l₂)) := by
  obtain ⟨hlock, t, live, T, h, rfl, rfl⟩ := h
  rw [List.length_map] at hfuel
  have hheight := Nat.lt_of_le_of_lt (height_le_length t) hfuel
  obtain ⟨r, hedit, hfound⟩ := findVma_spec a.vaddr h.view h.tree (fun x hx => h.stored_vma hx)
    (List.pairwise_map.mp hap) (Nat.le_of_lt hheight)
  unfold FreesSound kunmap kunmapPages at hsound
  replace hsound := K.calm_rest hsound (hedit s rfl rfl)
  unfold kunmap kunmapPages
  rw [K.bind_ok (hedit s rfl rfl)]
  rcases hfound with ⟨rfl, hnone⟩ | ⟨x, hx, rfl, hin⟩
  · refine ⟨s, rfl, Or.inl ⟨fun q hq => ?_, rfl⟩⟩
    obtain ⟨y, hy, rfl⟩ := List.mem_map.mp hq
    exact hnone y hy
  · have h0 : vmaOf x ≠ 0 := by
      obtain ⟨b, hb, -, hbin⟩ := h.object_block (h.node_object hx).2
      have := (A.ok_blocks h.tables.ok b hb).1
      omega
    rw [if_neg h0] at hsound ⊢
    have hsection := h.acquired.unmapSection a hx hheight (K.calm_locked hlock hsound)
    rcases Yields.locked hlock hsection (fun _ _ hq => hq.1) with
      ⟨⟨⟩, s', hrun, s₁, ⟨-, t', T', l₁, l₂, h₁, hl, -, hareas, hsmall, hhuge⟩, rfl,
        hfree⟩ | ⟨-, -, hw⟩
    · refine ⟨_, hrun, Or.inr ⟨l₁.map (range s.mem), range s.mem x, l₂.map (range s.mem),
        ?_, hin, hfree, t', _, T', h₁.released, Mmu.lookup_unmap ha h.tables.shape hsmall hhuge,
        ?_⟩⟩
      · rw [hl, List.map_append, List.map_cons]
      · rw [← List.map_append]
        exact hareas
    · exact absurd hw (ha.not_wrong h.tables.shape (fun P x _ => hal P x))

/-! ## More fuel -/

theorem kmap_le {n n' : Nat} (kmalloc : Nat → K Nat) (h : n ≤ n') :
    (kmap n kmalloc V a).Le (kmap n' kmalloc V a) := by
  refine K.Le.bind_right (fun vma => ?_)
  have hrest : (locked .kernelPageLock (mapSection n kmalloc V vma a.paddr a.vaddr a.flags
      a.numPages)).Le (locked .kernelPageLock (mapSection n' kmalloc V vma a.paddr a.vaddr a.flags
      a.numPages)) := by
    refine K.Le.bind_right
      (fun _ => K.Le.bind (K.Le.bind ?_ (fun _ => K.Le.refl _)) (fun _ => K.Le.refl _))
    exact K.Le.bind (insert_le h) (fun _ => K.Le.refl _)
  exact K.Le.ite (K.Le.refl _) (K.Le.bind_right (fun _ => hrest))

theorem kunmap_le {n n' : Nat} (kfree : Nat → Nat → K Unit) (h : n ≤ n') :
    (kunmap n kfree V a).Le (kunmap n' kfree V a) := by
  refine K.Le.bind (findVma_le h) (fun vma => K.Le.ite (K.Le.refl _) ?_)
  refine K.Le.bind_right
    (fun _ => K.Le.bind (K.Le.bind ?_ (fun _ => K.Le.refl _)) (fun _ => K.Le.refl _))
  exact K.Le.bind (delete_le h) (fun _ => K.Le.refl _)

/-- With enough fuel, the call merges the blocks it gives back with free blocks only. -/
def SoundKunmap (A : PhysAlloc L) (V : Statics) (a : Mmu.Args) (s : KState) : Prop :=
  ∃ n, ∀ fuel, n ≤ fuel → FreesSound A (fun kfree => kunmap fuel kfree V a) s

/-- It does so if it returns with the assertion in place. -/
theorem soundKunmap_of_ok {A : PhysAlloc L} {n : Nat} {r : Unit × KState}
    (hok : kunmap n A.checkedKfree V a L s = .ok r) : SoundKunmap A V a s := by
  exact ⟨n, fun fuel hle => freesSound_of_ok (kunmap_le A.checkedKfree hle L s r hok)⟩

end Vm
end MikroKernel
