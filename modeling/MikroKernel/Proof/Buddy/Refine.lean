import MikroKernel.Lib.Chain
import MikroKernel.Machine.Effect
import MikroKernel.Proof.Buddy.Heap

/-!
# The code computes the heap operations

`Rep L m base np h` says that memory `m` holds the heap `h`: the metadata fields, the eleven
heads with a doubly linked chain behind each, and the bitmap. For each critical section of the
allocator there is one lemma that runs it and names the heap it leaves; `buddyKalloc_returns`
and `buddyKfree_returns` put them together and say that the calls compute `Heap.alloc` and
`Heap.release`.

The stores of a section go to links of nodes, and a node is on one list only (`Packed`), so
the other lists are framed once, in `Rep.edit`.
-/

set_option autoImplicit false

namespace MikroKernel
namespace Buddy

open Chain

/-- The managed range is usable memory, in whole pages. -/
structure Paged (L : Layout) (base size : Nat) : Prop where
  base_ne : base ≠ 0
  base_dvd : chunkBytes 10 ∣ base
  size_dvd : pageSize ∣ size
  phys : ∀ p, base ≤ p → p < base + size → L.phys p = true

/-- The managed range is usable memory, in whole blocks of the largest order. -/
structure Managed (L : Layout) (base size : Nat) : Prop where
  base_ne : base ≠ 0
  base_dvd : chunkBytes 10 ∣ base
  size_dvd : chunkBytes 10 ∣ size
  phys : ∀ p, base ≤ p → p < base + size → L.phys p = true

/-! ## What memory holds -/

def listHead (L : Layout) (k : Nat) : Nat := freeListAddr (L.kernelEnd + metadataSize) k

def bitmapByte (L : Layout) (p : Nat) : Nat := L.kernelEnd + metadataSize + 11 * 8 + p / 8

/-- Free list `k` of memory `m` is `l`. -/
def FreeList (L : Layout) (m : Mem) (k : Nat) (l : List Nat) : Prop :=
  m (listHead L k) .ptr = first l ∧ Linked (m · .chunkNext) (m · .chunkPrev) 0 l

/-- Bit `p` of the bitmap. -/
def bitOf (L : Layout) (m : Mem) (p : Nat) : Bool := (m (bitmapByte L p) .byte).testBit (p % 8)

/-- The bit position of a block's pair, for a range of `np` pages at `base`. -/
def pairPos (base np : Nat) (c k : Nat) : Nat := bitPos base (orderOffset np k) c k

theorem pairPos_lt (base np c k : Nat) : pairPos base np c k < 2 ^ 32 :=
  Nat.mod_lt _ (by decide)

structure Rep (L : Layout) (m : Mem) (base np : Nat) (h : Heap) : Prop where
  freeListsPtr : m L.kernelEnd .freeListsPtr = L.kernelEnd + metadataSize
  bitmapPtr : m L.kernelEnd .bitmapPtr = L.kernelEnd + metadataSize + 11 * 8
  baseAddress : m L.kernelEnd .baseAddress = base
  maxOrder : m L.kernelEnd .maxOrder = 10
  offsets : ∀ k, k ≤ 10 → m (orderOffsetAddr L.kernelEnd k) .word32 = orderOffset np k
  lists : ∀ k, k ≤ 10 → FreeList L m k (h.free k)
  bits : ∀ p, p < 2 ^ 32 → bitOf L m p = h.bit p

theorem image_metadata (L : Layout) : L.image L.kernelEnd = true :=
  L.metadata_image 0 (by unfold metadataSpan; omega)

theorem image_listHead (L : Layout) {k : Nat} (hk : k ≤ 10) : L.image (listHead L k) = true := by
  have := L.metadata_image (78 + 8 * k) (by unfold metadataSpan; omega)
  simpa [listHead, freeListAddr, metadataSize, Nat.add_assoc] using this

theorem image_orderOffset (L : Layout) {k : Nat} (hk : k ≤ 10) :
    L.image (orderOffsetAddr L.kernelEnd k) = true := by
  have := L.metadata_image (34 + 4 * k) (by unfold metadataSpan; omega)
  simpa [orderOffsetAddr, Nat.add_assoc] using this

theorem image_bitmap (L : Layout) {p : Nat} (hp : p < 2 ^ 32) :
    L.image (bitmapByte L p) = true := by
  have := L.metadata_image (78 + 88 + p / 8) (by unfold metadataSpan; omega)
  simpa [bitmapByte, metadataSize, Nat.add_assoc] using this

/-- A physical address is no cell of the image. -/
theorem phys_ne_image {L : Layout} {p a : Nat} (hp : L.phys p = true) (ha : L.image a = true) :
    a ≠ p := by
  rintro rfl
  have h1 := L.phys_lt a hp
  have h2 := L.image_ge a ha
  unfold physTop at h1
  unfold pml4KernelHalfBase at h2
  omega

/-- A list is what its head and the links say, so two readings of it agree. -/
theorem FreeList.unique {L : Layout} {m : Mem} {k : Nat} {l l' : List Nat}
    (h : FreeList L m k l) (h' : FreeList L m k l') : l = l' :=
  h.2.unique h'.2 (h.1.symm.trans h'.1)

variable {L : Layout} {m : Mem} {base size np : Nat} {h : Heap} {own : Multiset Chunk}

/-- Memory that blocks can be made of. -/
def Usable (L : Layout) (p : Nat) : Prop := p ≠ 0 ∧ L.phys p = true

theorem Managed.paged (hm : Managed L base size) : Paged L base size :=
  ⟨hm.base_ne, hm.base_dvd, Nat.dvd_trans ⟨2 ^ 10, Nat.mul_comm _ _⟩ hm.size_dvd, hm.phys⟩

theorem Paged.usable (hm : Paged L base size) {p : Nat} (hp : base ≤ p ∧ p < base + size) :
    Usable L p := by
  have := hm.base_ne
  exact ⟨by omega, hm.phys p hp.1 hp.2⟩

theorem Partition.usable {free : Nat → List Nat} (hm : Paged L base size)
    (hp : Partition base size free own) : Packed (Usable L) free own :=
  ⟨hp.tiles.packs.mono (fun _ => hm.usable), hp.aligned⟩

theorem Packed.usable (hp : Packed (Usable L) h.free own) {c : Chunk}
    (hc : c ∈ freeChunks h.free + own) : Usable L c.addr :=
  hp.packs.inside c hc c.addr ⟨Nat.le_refl _, Nat.lt_add_of_pos_right (chunkBytes_pos c.order)⟩

theorem Packed.free_phys (hp : Packed (Usable L) h.free own) {a k : Nat} (hk : k ≤ 10)
    (ha : a ∈ h.free k) : L.phys a = true :=
  (hp.usable (c := ⟨a, k⟩) (Multiset.mem_add.mpr (Or.inl (mem_freeChunks.mpr ⟨hk, ha⟩)))).2

/-- The addresses of a block do not wrap. -/
theorem Packed.top_lt (hp : Packed (Usable L) h.free own) {c : Chunk}
    (hc : c ∈ freeChunks h.free + own) : c.addr + chunkBytes c.order < 2 ^ 64 := by
  have hpos := chunkBytes_pos c.order
  have hlast := hp.packs.inside c hc (c.addr + chunkBytes c.order - 1)
    ⟨by omega, by unfold Chunk.len; omega⟩
  have := L.phys_lt _ hlast.2
  unfold physTop at this
  omega

/-- **The frame rule of a section that edits one list.** The new list is given; every other
cell that changed is a link of a node that is on no other list. -/
theorem Rep.edit {m' : Mem} {k : Nat} {l : List Nat} (hr : Rep L m base np h)
    (hl : FreeList L m' k l)
    (hframe : ∀ a f, m' a f ≠ m a f → (a = listHead L k ∧ f = .ptr) ∨
      ((f = .chunkNext ∨ f = .chunkPrev) ∧ ∀ j, j ≤ 10 → j ≠ k → a ∉ h.free j)) :
    Rep L m' base np { h with free := Function.update h.free k l } := by
  -- a cell with another field is as before
  have hsame : ∀ a f, f ≠ .ptr → f ≠ .chunkNext → f ≠ .chunkPrev → m' a f = m a f := by
    intro a f h1 h2 h3
    by_contra hne
    rcases hframe a f hne with ⟨-, hf⟩ | ⟨hf | hf, -⟩
    · exact h1 hf
    · exact h2 hf
    · exact h3 hf
  refine ⟨?_, ?_, ?_, ?_, ?_, ?_, ?_⟩
  · rw [hsame _ _ (by decide) (by decide) (by decide)]; exact hr.freeListsPtr
  · rw [hsame _ _ (by decide) (by decide) (by decide)]; exact hr.bitmapPtr
  · rw [hsame _ _ (by decide) (by decide) (by decide)]; exact hr.baseAddress
  · rw [hsame _ _ (by decide) (by decide) (by decide)]; exact hr.maxOrder
  · intro j hj
    rw [hsame _ _ (by decide) (by decide) (by decide)]; exact hr.offsets j hj
  · intro j hj
    by_cases hjk : j = k
    · subst hjk
      simpa using hl
    · show FreeList L m' j (Function.update h.free k l j)
      rw [Function.update_of_ne hjk]
      obtain ⟨hhead, hlink⟩ := hr.lists j hj
      have hnode : ∀ a ∈ h.free j, ∀ f, f = .chunkNext ∨ f = .chunkPrev → m' a f = m a f := by
        intro a ha f hf
        by_contra hne
        rcases hframe a f hne with ⟨-, hp⟩ | ⟨-, hnot⟩
        · rcases hf with rfl | rfl <;> exact absurd hp (by decide)
        · exact hnot j hj hjk ha
      refine ⟨?_, hlink.congr (fun a ha => hnode a ha _ (Or.inl rfl))
        (fun a ha => hnode a ha _ (Or.inr rfl))⟩
      rw [← hhead]
      by_contra hne
      rcases hframe _ _ hne with ⟨heq, -⟩ | ⟨hf | hf, -⟩
      · simp only [listHead, freeListAddr] at heq
        omega
      · exact absurd hf (by decide)
      · exact absurd hf (by decide)
  · intro p hp
    rw [← hr.bits p hp]
    unfold bitOf
    rw [hsame _ _ (by decide) (by decide) (by decide)]

/-! ## What is written -/

/-- Memory changed at addresses of `R` only. -/
def OnlyIn (R : Nat → Prop) (m m' : Mem) : Prop := ∀ a f, m' a f ≠ m a f → R a

variable {R : Nat → Prop} {m₁ m₂ : Mem}

theorem OnlyIn.refl (m : Mem) : OnlyIn R m m := fun _ _ hne => absurd rfl hne

theorem OnlyIn.trans (h₁ : OnlyIn R m m₁) (h₂ : OnlyIn R m₁ m₂) : OnlyIn R m m₂ := by
  intro a f hne
  by_cases hsame : m₁ a f = m a f
  · exact h₂ a f (fun he => hne (he.trans hsame))
  · exact h₁ a f hsame

theorem OnlyIn.set {a v : Nat} {f : Field} (h : OnlyIn R m m₁) (ha : R a) :
    OnlyIn R m (m₁.set a f v) := by
  intro b g hne
  by_cases hb : b = a
  · rw [hb]
    exact ha
  · exact h b g (fun he => hne ((Mem.set_ne (Or.inl hb)).trans he))

/-! ## Putting a block at the head of a list -/

/-- `if (x != NULL) x->prev = v`. -/
def linkBack (m : Mem) (x v : Nat) : Mem := if x = 0 then m else m.set x .chunkPrev v

theorem linkBack_apply (m : Mem) (x v a : Nat) (f : Field) :
    linkBack m x v a f = if a = x ∧ x ≠ 0 ∧ f = .chunkPrev then v else m a f := by
  unfold linkBack
  by_cases hx : x = 0
  · simp [hx]
  · simp [hx, Mem.set_apply]

theorem OnlyIn.linkBack {x v : Nat} (h : OnlyIn R m m₁) (hx : x ≠ 0 → R x) :
    OnlyIn R m (linkBack m₁ x v) := by
  unfold Buddy.linkBack
  split
  · exact h
  · exact h.set (hx ‹_›)

/-- The statement `if (c->next != NULL) c->next->prev = v;` and what follows it. -/
theorem Edits.linkBack {β : Type} {off c v x : Nat} {rest : K β} {r : β} {m' : Mem}
    (hv : View off) (hc : L.Stored c) (hx : m c .chunkNext = x) (hxs : x ≠ 0 → L.Stored x)
    (hrest : Edits L off rest (Buddy.linkBack m x v) r m') :
    Edits L off (do
      if (← p2vLoad c .chunkNext) ≠ 0 then
        p2vStore (← p2vLoad c .chunkNext) .chunkPrev v
      rest) m r m' := by
  refine Edits.bind (Edits.p2vLoad hv hc hx) ?_
  unfold Buddy.linkBack at hrest
  by_cases hx0 : x = 0
  · rw [if_pos hx0] at hrest
    exact Edits.ite_neg (by simpa using hx0) hrest
  · rw [if_neg hx0] at hrest
    refine Edits.ite_pos hx0 (Edits.bind (Edits.p2vLoad hv hc hx) ?_)
    exact Edits.bind (Edits.p2vStore hv (hxs hx0)) hrest

/-- The statements that `splitStep` and `insertSection` share. -/
def pushHead (freeLists b k : Nat) : K Unit := do
  p2vStore b .chunkPrev 0
  p2vStore b .chunkNext (← load (freeListAddr freeLists k) .ptr)
  if (← p2vLoad b .chunkNext) ≠ 0 then
    p2vStore (← p2vLoad b .chunkNext) .chunkPrev b
  store (freeListAddr freeLists k) .ptr b

theorem pushHead_writes {off k b : Nat} (hv : View off) (hk : k ≤ 10)
    (hr : Rep L m base np h) (hp : Packed (Usable L) h.free (⟨b, k⟩ ::ₘ own))
    (hhd : R (listHead L k)) (hbR : R b) (hfree : ∀ a ∈ h.free k, R a) :
    ∃ m', Edits L off (pushHead (L.kernelEnd + metadataSize) b k) m () m' ∧
      Rep L m' base np (h.push k b) ∧ OnlyIn R m m' := by
  obtain ⟨hb0, hbphys⟩ : Usable L b := hp.usable (c := ⟨b, k⟩) (by simp)
  have hb : L.Stored b := Or.inl hbphys
  have himg : L.image (listHead L k) = true := image_listHead L hk
  have hbnot : ∀ j, j ≤ 10 → b ∉ h.free j := fun j hj => hp.own_not_free hj
  obtain ⟨hhead, hlink⟩ := hr.lists k hk
  have hmem : first (h.free k) ≠ 0 → first (h.free k) ∈ h.free k := fun h0 =>
    first_mem (fun hnil => h0 (by rw [hnil]; rfl))
  refine ⟨(linkBack ((m.set b .chunkPrev 0).set b .chunkNext (first (h.free k)))
    (first (h.free k)) b).set (listHead L k) .ptr b, ?_, ?_,
    ((((OnlyIn.refl m).set hbR).set hbR).linkBack (fun h0 => hfree _ (hmem h0))).set hhd⟩
  · have hload : (m.set b .chunkPrev 0) (listHead L k) .ptr = first (h.free k) := by
      rw [Mem.set_ne (Or.inr (by decide)), hhead]
    refine Edits.bind (Edits.p2vStore hv hb) (Edits.bind (Edits.load himg hload) ?_)
    refine Edits.bind (Edits.p2vStore hv hb) (Edits.linkBack hv hb (Mem.set_self _ _ _ _) ?_ ?_)
    · exact fun h0 => Or.inl (hp.free_phys hk (hmem h0))
    · exact Edits.store himg
  · refine hr.edit (l := b :: h.free k) ⟨by simp [first], ?_⟩ ?_
    · refine hlink.push hb0 (hp.nodup hk) ?_ ?_ ?_ ?_
      · simp [Mem.set_apply, linkBack_apply]
      · have : b ≠ first (h.free k) ∨ first (h.free k) = 0 := by
          by_contra hno
          push Not at hno
          exact hbnot k hk (hno.1 ▸ hmem hno.2)
        simp [Mem.set_apply, linkBack_apply]
        tauto
      · intro a ha
        have hab : a ≠ b := fun hab => hbnot k hk (hab ▸ ha)
        simp [Mem.set_apply, linkBack_apply, hab]
      · intro a ha
        have hab : a ≠ b := fun hab => hbnot k hk (hab ▸ ha)
        have ha0 : a ≠ 0 := hlink.ne_zero a ha
        by_cases haf : a = first (h.free k)
        · simp [Mem.set_apply, linkBack_apply, ← haf, ha0]
        · simp [Mem.set_apply, linkBack_apply, haf, hab]
    · intro a f hne
      by_cases hhd : a = listHead L k ∧ f = .ptr
      · exact Or.inl hhd
      · right
        rw [Mem.set_apply, if_neg hhd, linkBack_apply] at hne
        by_cases hfst : a = first (h.free k) ∧ first (h.free k) ≠ 0 ∧ f = .chunkPrev
        · refine ⟨Or.inr hfst.2.2, fun j hj hjk ha => hjk ?_⟩
          exact hp.free_inj hj hk ha (hfst.1 ▸ hmem hfst.2.1)
        · rw [if_neg hfst, Mem.set_apply, Mem.set_apply] at hne
          by_cases hab : a = b
          · refine ⟨?_, fun j hj _ => hab ▸ hbnot j hj⟩
            by_contra hf
            push Not at hf
            simp [hf.1, hf.2] at hne
          · simp [hab] at hne

theorem pushHead_edits {off k b : Nat} (hv : View off) (hk : k ≤ 10)
    (hr : Rep L m base np h) (hp : Packed (Usable L) h.free (⟨b, k⟩ ::ₘ own)) :
    ∃ m', Edits L off (pushHead (L.kernelEnd + metadataSize) b k) m () m' ∧
      Rep L m' base np (h.push k b) := by
  obtain ⟨m', hedit, hrep, -⟩ := pushHead_writes (R := fun _ => True) hv hk hr hp trivial trivial
    (fun _ _ => trivial)
  exact ⟨m', hedit, hrep⟩

/-! ## Taking a block off a list -/

/-- What the pop of `popSection` leaves in memory. -/
def popMem (L : Layout) (m : Mem) (k c x : Nat) : Mem :=
  (linkBack (m.set (listHead L k) .ptr x) x 0).set c .chunkNext 0

theorem Rep.pop {k c : Nat} {l : List Nat} (hk : k ≤ 10) (hr : Rep L m base np h)
    (hp : Packed (Usable L) h.free own) (hl : h.free k = c :: l) :
    Rep L (popMem L m k c (first l)) base np (h.drop k c) := by
  obtain ⟨hhead, hlink⟩ := hr.lists k hk
  have hnd := hp.nodup hk
  rw [hl] at hlink hnd
  have hcl : c ∉ l := (List.nodup_cons.mp hnd).1
  have hmem : first l ≠ 0 → first l ∈ l := fun h0 =>
    first_mem (fun hnil => h0 (by rw [hnil]; rfl))
  have hel : (h.free k).erase c = l := by rw [hl, List.erase_cons_head]
  refine hr.edit (l := (h.free k).erase c) ?_ ?_
  · rw [hel]
    refine ⟨by simp [popMem, Mem.set_apply, linkBack_apply], ?_⟩
    refine hlink.pop hnd ?_ ?_
    · intro a ha
      have hac : a ≠ c := fun hac => hcl (hac ▸ ha)
      simp [popMem, Mem.set_apply, linkBack_apply, hac]
    · intro a ha
      have ha0 : a ≠ 0 := hlink.2.2.2.ne_zero a ha
      by_cases haf : a = first l
      · simp [popMem, Mem.set_apply, linkBack_apply, ← haf, ha0]
      · simp [popMem, Mem.set_apply, linkBack_apply, haf]
  · intro a f hne
    have hon : ∀ a ∈ h.free k, ∀ j, j ≤ 10 → j ≠ k → a ∉ h.free j :=
      fun a ha j hj hjk haj => hjk (hp.free_inj hj hk haj ha)
    by_cases hhd : a = listHead L k ∧ f = .ptr
    · exact Or.inl hhd
    · right
      unfold popMem at hne
      rw [Mem.set_apply] at hne
      by_cases hc : a = c ∧ f = .chunkNext
      · exact ⟨Or.inl hc.2, hon a (by rw [hl, hc.1]; simp)⟩
      · rw [if_neg hc, linkBack_apply] at hne
        by_cases hfst : a = first l ∧ first l ≠ 0 ∧ f = .chunkPrev
        · exact ⟨Or.inr hfst.2.2, hon a (by rw [hl, hfst.1]; simp [hmem hfst.2.1])⟩
        · rw [if_neg hfst, Mem.set_apply, if_neg hhd] at hne
          exact absurd rfl hne

/-- What `unlinkSection` leaves in memory. -/
def unlinkMem (L : Layout) (m : Mem) (k b : Nat) : Mem :=
  ((linkBack (if m b .chunkPrev ≠ 0 then m.set (m b .chunkPrev) .chunkNext (m b .chunkNext)
      else m.set (listHead L k) .ptr (m b .chunkNext))
    (m b .chunkNext) (m b .chunkPrev)).set b .chunkNext 0).set b .chunkPrev 0

theorem unlinkMem_next (L : Layout) (m : Mem) {k a b : Nat} (hab : a ≠ b) :
    unlinkMem L m k b a .chunkNext
      = if a = m b .chunkPrev ∧ m b .chunkPrev ≠ 0 then m b .chunkNext else m a .chunkNext := by
  unfold unlinkMem
  rw [Mem.set_ne (Or.inr (by decide)), Mem.set_ne (Or.inl hab), linkBack_apply, if_neg (by simp)]
  split
  · rename_i h0
    simp [Mem.set_apply, h0]
  · rename_i h0
    rw [Mem.set_ne (Or.inr (by decide)), if_neg (fun hh => h0 hh.2)]

theorem unlinkMem_prev (L : Layout) (m : Mem) {k a b : Nat} (hab : a ≠ b) :
    unlinkMem L m k b a .chunkPrev
      = if a = m b .chunkNext ∧ m b .chunkNext ≠ 0 then m b .chunkPrev else m a .chunkPrev := by
  unfold unlinkMem
  rw [Mem.set_ne (Or.inl hab), Mem.set_ne (Or.inr (by decide)), linkBack_apply]
  simp only [and_true]
  split
  · rfl
  · split <;> rw [Mem.set_ne (Or.inr (by decide))]

theorem unlinkMem_ptr (L : Layout) (m : Mem) {k a b : Nat} :
    unlinkMem L m k b a .ptr
      = if a = listHead L k ∧ m b .chunkPrev = 0 then m b .chunkNext else m a .ptr := by
  unfold unlinkMem
  rw [Mem.set_ne (Or.inr (by decide)), Mem.set_ne (Or.inr (by decide)), linkBack_apply,
    if_neg (by simp)]
  split
  · rename_i h0
    rw [Mem.set_ne (Or.inr (by decide)), if_neg (fun hh => h0 hh.2)]
  · rename_i h0
    simp only [ne_eq, not_not] at h0
    simp [Mem.set_apply, h0]

theorem unlinkMem_of_ne (L : Layout) (m : Mem) {k a b : Nat} {f : Field} (h1 : f ≠ .chunkNext)
    (h2 : f ≠ .chunkPrev) (h3 : f ≠ .ptr) : unlinkMem L m k b a f = m a f := by
  unfold unlinkMem
  rw [Mem.set_ne (Or.inr h2), Mem.set_ne (Or.inr h1), linkBack_apply, if_neg (by simp [h2])]
  split
  · rw [Mem.set_ne (Or.inr h1)]
  · rw [Mem.set_ne (Or.inr h3)]

theorem Rep.unlink {k b : Nat} (hk : k ≤ 10) (hr : Rep L m base np h)
    (hp : Packed (Usable L) h.free own) (hb : b ∈ h.free k) :
    Rep L (unlinkMem L m k b) base np (h.drop k b) := by
  obtain ⟨hhead, hlink⟩ := hr.lists k hk
  have hnd := hp.nodup hk
  have hzero : (0 : Nat) ∉ h.free k := fun h0 => hlink.ne_zero 0 h0 rfl
  refine hr.edit (l := (h.free k).erase b) ⟨?_, ?_⟩ ?_
  · rw [unlinkMem_ptr, hlink.first_erase hnd hb, ← hhead]
    simp
  · refine hlink.unlink hnd hzero hb ?_ ?_
    · intro a ha hab
      rw [unlinkMem_next L m hab]
      refine if_congr ⟨And.left, fun h1 => ⟨h1, ?_⟩⟩ rfl rfl
      exact h1 ▸ hlink.ne_zero a ha
    · intro a ha hab
      rw [unlinkMem_prev L m hab]
      refine if_congr ⟨And.left, fun h1 => ⟨h1, ?_⟩⟩ rfl rfl
      exact h1 ▸ hlink.ne_zero a ha
  · intro a f hne
    have hon : ∀ a ∈ h.free k, ∀ j, j ≤ 10 → j ≠ k → a ∉ h.free j :=
      fun a ha j hj hjk haj => hjk (hp.free_inj hj hk haj ha)
    by_cases h3 : f = .ptr
    · left
      subst h3
      rw [unlinkMem_ptr] at hne
      by_contra hno
      exact hne (if_neg (fun hh => hno ⟨hh.1, rfl⟩))
    · right
      have hf : f = .chunkNext ∨ f = .chunkPrev := by
        by_contra hf
        push Not at hf
        exact hne (unlinkMem_of_ne L m hf.1 hf.2 h3)
      refine ⟨hf, hon a ?_⟩
      -- the cells that changed are links of `b` or of a neighbour of it
      by_cases hab : a = b
      · exact hab ▸ hb
      · rcases hf with rfl | rfl
        · rw [unlinkMem_next L m hab] at hne
          split at hne
          · rename_i hc
            rw [hc.1]
            exact (hlink.prev_mem b hb).resolve_left hc.2
          · exact absurd rfl hne
        · rw [unlinkMem_prev L m hab] at hne
          split at hne
          · rename_i hc
            rw [hc.1]
            exact List.mem_of_mem_tail ((hlink.next_mem b hb).resolve_left hc.2)
          · exact absurd rfl hne

/-- The cells are the head, the block and its neighbours. -/
theorem unlinkMem_only {k b : Nat} (hk : k ≤ 10) (hr : Rep L m base np h) (hb : b ∈ h.free k)
    (hhd : R (listHead L k)) (hfree : ∀ a ∈ h.free k, R a) : OnlyIn R m (unlinkMem L m k b) := by
  obtain ⟨-, hlink⟩ := hr.lists k hk
  have hprev : m b .chunkPrev ≠ 0 → R (m b .chunkPrev) := fun h0 =>
    hfree _ ((hlink.prev_mem b hb).resolve_left h0)
  have hnext : m b .chunkNext ≠ 0 → R (m b .chunkNext) := fun h0 =>
    hfree _ (List.mem_of_mem_tail ((hlink.next_mem b hb).resolve_left h0))
  unfold unlinkMem
  split
  · rename_i h0
    exact ((((OnlyIn.refl m).set (hprev h0)).linkBack hnext).set (hfree b hb)).set (hfree b hb)
  · exact ((((OnlyIn.refl m).set hhd).linkBack hnext).set (hfree b hb)).set (hfree b hb)

/-- **The section that unlinks a block by its own links** takes it off the list it is on. -/
theorem unlinkSection_edits {off k b c : Nat} (hv : View off)
    (hk : k ≤ 10) (hr : Rep L m base np h) (hp : Packed (Usable L) h.free own)
    (hb : b ∈ h.free k) :
    Edits L off (unlinkSection b c k) m (if b < c then b else c) (unlinkMem L m k b) := by
  have hbs : L.Stored b := Or.inl (hp.free_phys hk hb)
  have himg : L.image (listHead L k) = true := image_listHead L hk
  obtain ⟨hhead, hlink⟩ := hr.lists k hk
  have hnd := hp.nodup hk
  have hprev : m b .chunkPrev ≠ 0 → L.Stored (m b .chunkPrev) := fun h0 =>
    Or.inl (hp.free_phys hk ((hlink.prev_mem b hb).resolve_left h0))
  have hnext : m b .chunkNext ≠ 0 → L.Stored (m b .chunkNext) := fun h0 =>
    Or.inl (hp.free_phys hk (List.mem_of_mem_tail ((hlink.next_mem b hb).resolve_left h0)))
  have hpb : m b .chunkPrev ≠ b := hlink.prev_ne hnd (fun h0 => hlink.ne_zero 0 h0 rfl) b hb
  -- what follows the first conditional, from a memory in which `b` still has its links
  have htail : ∀ m₁ : Mem, m₁ b .chunkNext = m b .chunkNext → m₁ b .chunkPrev = m b .chunkPrev →
      Edits L off (do
        if (← p2vLoad b .chunkNext) ≠ 0 then
          p2vStore (← p2vLoad b .chunkNext) .chunkPrev (← p2vLoad b .chunkPrev)
        p2vStore b .chunkNext 0
        p2vStore b .chunkPrev 0
        pure (if b < c then b else c)) m₁ (if b < c then b else c)
        (((linkBack m₁ (m b .chunkNext) (m b .chunkPrev)).set b .chunkNext 0).set b
          .chunkPrev 0) := by
    intro m₁ hn1 hp1
    have hclear : ∀ m₂ : Mem, Edits L off (do
        p2vStore b .chunkNext 0
        p2vStore b .chunkPrev 0
        pure (if b < c then b else c)) m₂ (if b < c then b else c)
        ((m₂.set b .chunkNext 0).set b .chunkPrev 0) := fun m₂ =>
      Edits.bind (Edits.p2vStore hv hbs) (Edits.bind (Edits.p2vStore hv hbs) (Edits.pure _))
    refine Edits.bind (Edits.p2vLoad hv hbs hn1) ?_
    unfold linkBack
    by_cases h0 : m b .chunkNext = 0
    · rw [if_pos h0]
      exact Edits.ite_neg (by simpa using h0) (hclear _)
    · rw [if_neg h0]
      refine Edits.ite_pos h0 (Edits.bind (Edits.p2vLoad hv hbs hn1) ?_)
      refine Edits.bind (Edits.p2vLoad hv hbs hp1) ?_
      exact Edits.bind (Edits.p2vStore hv (hnext h0)) (hclear _)
  unfold unlinkSection unlinkMem
  refine Edits.bind (Edits.of_eq (fun s => rfl)) ?_
  refine Edits.bind (Edits.load (image_metadata L) hr.freeListsPtr) ?_
  refine Edits.bind (Edits.p2vLoad hv hbs rfl) ?_
  by_cases h0 : m b .chunkPrev = 0
  · refine Edits.ite_neg (not_not.mpr h0) (Edits.bind (Edits.p2vLoad hv hbs rfl) ?_)
    rw [if_neg (not_not.mpr h0)]
    refine Edits.bind (Edits.store himg) (htail _ ?_ ?_)
    · rw [Mem.set_ne (Or.inr (by decide))]
    · rw [Mem.set_ne (Or.inr (by decide))]
  · refine Edits.ite_pos h0 (Edits.bind (Edits.p2vLoad hv hbs rfl) ?_)
    rw [if_pos h0]
    refine Edits.bind (Edits.p2vLoad hv hbs rfl) (Edits.bind (Edits.p2vStore hv (hprev h0)) ?_)
    refine htail _ ?_ ?_
    · rw [Mem.set_ne (Or.inl hpb.symm)]
    · rw [Mem.set_ne (Or.inr (by decide))]

end Buddy
end MikroKernel
