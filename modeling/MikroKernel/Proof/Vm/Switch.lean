import MikroKernel.Machine.Effect
import MikroKernel.Proof.Alloc.Steady
import MikroKernel.Vm.Boot

/-!
# The switch of `phys_map_offset` between two calls

The tree and the page-table code are steady as well (`Proof/Alloc/Steady.lean`): every pointer to a
node or a table goes through `directmap_p2v`, and `kernel_rb_root` is a variable of the image.
`switch_transparent` puts the calls together: wherever in a list of calls `phys_map_offset` is
switched, the values and the memory are the same. It needs the two arrays of the buddy allocator to
be in the image. `raw_list_faults` is what happens where `metadata->free_lists_ptr` is a physical
address instead.
-/

set_option autoImplicit false
set_option synthInstance.maxSize 4000

namespace MikroKernel
namespace Switch

open RedBlack

variable {L : Layout} {W : Arrays}

/-! ## The tree -/

instance (d : Side) : Unguarded d.field := by
  cases d
  · exact inferInstanceAs (Unguarded .left)
  · exact inferInstanceAs (Unguarded .right)

section Tree

variable (root : Nat) [Upper root]

instance (d : Side) (node tmp : Nat) : Blind W L (rbRelink d root node tmp) := by
  unfold rbRelink
  infer_instance

instance (d : Side) (node : Nat) : Blind W L (rbRotate d root node) := by
  unfold rbRotate
  dsimp only
  infer_instance

instance (node replacement : Nat) : Blind W L (rbTransplant root node replacement) := by
  unfold rbTransplant
  infer_instance

instance (node : Nat) : Blind W L (rbIsRed node) := by
  unfold rbIsRed
  infer_instance

instance (d : Side) (x : Nat) : Blind W L (rbInsertFixupInner d root x) := by
  unfold rbInsertFixupInner
  infer_instance

instance (d : Side) (x : Nat) : Blind W L (rbInsertFixupOuter d root x) := by
  unfold rbInsertFixupOuter
  infer_instance

instance (d : Side) (x : Nat) : Blind W L (rbInsertFixupStep d root x) := by
  unfold rbInsertFixupStep
  infer_instance

instance (fuel x : Nat) : Blind W L (rbInsertFixupLoop root fuel x) := by
  induction fuel generalizing x with
  | zero => exact Blind.stop _
  | succ fuel ih =>
    unfold rbInsertFixupLoop
    infer_instance

instance (fuel x : Nat) : Blind W L (rbInsertFixup fuel root x) := by
  unfold rbInsertFixup
  infer_instance

variable (cmp : Nat → Nat → K Int) [∀ a b, Blind W L (cmp a b)]

instance (node fuel current parent : Nat) :
    Blind W L (rbInsertLoop node cmp fuel current parent) := by
  induction fuel generalizing current parent with
  | zero =>
    unfold rbInsertLoop
    infer_instance
  | succ fuel ih =>
    unfold rbInsertLoop
    infer_instance

instance (fuel node parent : Nat) : Blind W L (rbInsertAt fuel root node cmp parent) := by
  unfold rbInsertAt
  dsimp only
  infer_instance

instance (fuel node : Nat) : Blind W L (rbInsert fuel root node cmp) := by
  have hsearch : ∀ current, Blind W L (rbInsertLoop node cmp fuel current 0) :=
    fun _ => inferInstance
  unfold rbInsert
  refine @Blind.bind _ _ _ _ _ _ inferInstance
    (fun _ => @Blind.bind _ _ _ _ _ _ inferInstance (fun _ => ?_))
  refine @Blind.bind _ _ _ _ _ _ inferInstance
    (fun top => @Blind.bind _ _ _ _ _ _ (hsearch top) (fun r => ?_))
  cases r <;> infer_instance

instance (d : Side) (node : Nat) : Blind W L (rbBlackChild d node) := by
  unfold rbBlackChild
  infer_instance

instance (d : Side) (node : Nat) : Blind W L (rbBlackChildren d node) := by
  unfold rbBlackChildren
  infer_instance

instance (d : Side) (node : Nat) : Blind W L (rbBlackenChild d node) := by
  unfold rbBlackenChild
  infer_instance

instance (d : Side) (xParent sibling : Nat) :
    Blind W L (rbDeleteFixupRed d root xParent sibling) := by
  unfold rbDeleteFixupRed
  infer_instance

instance (d : Side) (xParent sibling : Nat) :
    Blind W L (rbDeleteFixupInner d root xParent sibling) := by
  unfold rbDeleteFixupInner
  infer_instance

instance (d : Side) (xParent sibling : Nat) :
    Blind W L (rbDeleteFixupOuter d root xParent sibling) := by
  unfold rbDeleteFixupOuter
  infer_instance

instance (d : Side) (xParent : Nat) : Blind W L (rbDeleteFixupStep d root xParent) := by
  unfold rbDeleteFixupStep
  infer_instance

instance (x : Nat) : Blind W L (rbIsBlack x) := by
  unfold rbIsBlack
  infer_instance

instance (fuel x xParent : Nat) : Blind W L (rbDeleteFixupLoop root fuel x xParent) := by
  induction fuel generalizing x xParent with
  | zero => exact Blind.stop _
  | succ fuel ih =>
    unfold rbDeleteFixupLoop
    infer_instance

instance (fuel x xParent : Nat) : Blind W L (rbDeleteFixup fuel root x xParent) := by
  unfold rbDeleteFixup
  infer_instance

instance (node y x : Nat) : Blind W L (rbDetachSuccessor root node y x) := by
  unfold rbDetachSuccessor
  dsimp only
  infer_instance

instance (fuel node : Nat) : Blind W L (rbMinimum fuel node) := by
  induction fuel generalizing node with
  | zero => exact Blind.stop _
  | succ fuel ih =>
    unfold rbMinimum
    infer_instance

instance (fuel node : Nat) : Blind W L (rbDeleteInner fuel root node) := by
  unfold rbDeleteInner
  infer_instance

instance (d : Side) (node : Nat) : Blind W L (rbDeleteOuter d root node) := by
  unfold rbDeleteOuter
  infer_instance

instance (fuel node color : Nat) : Blind W L (rbUnlink fuel root node color) := by
  unfold rbUnlink
  infer_instance

instance (fuel node : Nat) : Blind W L (rbDeleteNode fuel root node) := by
  unfold rbDeleteNode
  dsimp only
  infer_instance

instance (key fuel current : Nat) : Blind W L (rbFindLoop key cmp fuel current) := by
  induction fuel generalizing current with
  | zero =>
    unfold rbFindLoop
    infer_instance
  | succ fuel ih =>
    unfold rbFindLoop
    infer_instance

instance (fuel key : Nat) : Blind W L (rbDelete fuel root key cmp) := by
  have hsearch : ∀ current, Blind W L (rbFindLoop key cmp fuel current) := fun _ => inferInstance
  unfold rbDelete rbFindExact
  infer_instance

instance (a b : Nat) : Blind W L (vmaCmp a b) := by
  unfold vmaCmp
  infer_instance

instance (addr fuel current : Nat) : Blind W L (rbFindVmaLoop addr fuel current) := by
  induction fuel generalizing current with
  | zero =>
    unfold rbFindVmaLoop
    infer_instance
  | succ fuel ih =>
    unfold rbFindVmaLoop
    infer_instance

instance (fuel addr : Nat) : Blind W L (rbFindVma fuel root addr) := by
  unfold rbFindVma
  infer_instance

end Tree

/-! ## The page tables

`map_pages` zeroes what `buddy_kalloc` hands it. Were that a page of the image, with the metadata on
it, the two pointers would be gone; but the entry made of it leads to no memory, and the access that
follows faults. -/

section Tables

variable {α β : Type} {p table : Nat} {I : Mem → Prop}

/-- Code that does not return before the switch. -/
def NeverReturns (L : Layout) (x : K α) : Prop := ∀ s r, s.physMapOffset = 0 → x L s ≠ .ok r

theorem NeverReturns.bind {x : K α} {f : α → K β} (h : NeverReturns L x) :
    NeverReturns L (x >>= f) := by
  intro s r ho hrun
  obtain ⟨a, s₁, hx, -⟩ := K.bind_eq_ok.mp hrun
  exact h s (a, s₁) ho hx

theorem neverReturns_p2vLoad {f : Field} (hp : ¬ L.Stored p) : NeverReturns L (p2vLoad p f) :=
  fun _ _ ho hrun => hp (stored_of_returned ho load_returned hrun)

theorem neverReturns_p2vStore {f : Field} {x : Nat} (hp : ¬ L.Stored p) :
    NeverReturns L (p2vStore p f x) :=
  fun _ _ ho hrun => hp (stored_of_returned ho store_returned hrun)

/-- What only happens before code that does not return needs no care. -/
theorem lockstep_unless {P : Prop} {x y : K α} {R' : α → KState → KState → Prop}
    (h : Lockstep L (Within I) x y R') (hn : P → NeverReturns L x) :
    Lockstep L (Within (fun m => I m ∨ P)) x y R' := by
  intro s t s' a hst hrun
  rcases hst.held with hheld | hp
  · exact h ⟨hst.before, hheld, hst.after⟩ hrun
  · exact absurd hrun (hn hp s (a, s') hst.before)

theorem lockstep_blind {x : K α} (h : Blind W L x) (P : α → Prop) :
    Lockstep L (Within (W.Held L)) x x (fun a => Within (fun m => W.Held L m ∨ P a)) :=
  Lockstep.mono h.steady (fun _ _ h => h) (fun _ _ _ h => ⟨h.2.before, Or.inl h.2.held, h.2.after⟩)

/-- No entry of the table is readable. -/
def Wild (L : Layout) (table : Nat) : Prop := ∀ i, i < 512 → ¬ L.Stored (entryAddr table i)

/-- An entry made of an address of the image loses its upper bits. -/
theorem wild_of_image {new : Nat} (h : L.image new = true) :
    Wild L ((new ||| ptePresent ||| pteWritable) &&& pteAddrMask) := by
  intro i hi hs
  have hge := L.image_ge new h
  have hlt := L.image_lt new h
  unfold pml4KernelHalfBase at hge
  have hbit : ((new ||| ptePresent ||| pteWritable) &&& pteAddrMask).testBit 51 = true := by
    rw [Nat.testBit_and, Nat.testBit_or, Nat.testBit_or, Nat.testBit_eq_decide_div_mod_eq,
      decide_eq_true (by omega : new / 2 ^ 51 % 2 = 1)]
    decide
  have hle : (new ||| ptePresent ||| pteWritable) &&& pteAddrMask ≤ pteAddrMask := Nat.and_le_right
  have hbig := Nat.ge_two_pow_of_testBit hbit
  generalize (new ||| ptePresent ||| pteWritable) &&& pteAddrMask = table at hs hle hbig
  unfold pteAddrMask at hle
  unfold entryAddr at hs
  have hphys := L.phys_lt _ (hs.phys (by unfold pml4KernelHalfBase; omega))
  unfold physTop at hphys
  omega

/-- A page of the lower half is below the metadata. -/
theorem held_zero {m : Mem} (hp : p < pml4KernelHalfBase) (hs : L.Stored p) (h : W.Held L m) :
    W.Held L (m.zero p pageSize) := by
  refine h.zero ?_
  have hlt := L.phys_lt p (hs.phys hp)
  have hge := kernelEnd_ge (L := L)
  unfold physTop at hlt
  unfold pml4KernelHalfBase at hge
  unfold pageSize
  omega

theorem wireTable_lockstep (msg : String) (entry : Nat) :
    Lockstep L (Within (W.Held L)) (wireTable buddyKalloc msg entry)
      (wireTable buddyKalloc msg entry)
      (fun table => Within (fun m => W.Held L m ∨ Wild L table)) := by
  have hlast := lockstep_blind (W := W) (L := L)
    (x := do return (← p2vLoad entry .pte) &&& pteAddrMask) inferInstance (Wild L)
  unfold wireTable
  dsimp only
  refine Lockstep.bind Blind.steady
    (fun _ => Lockstep.given (fun _ => Lockstep.ite (fun _ => ?_) (fun _ => hlast)))
  refine Lockstep.bind Blind.steady (fun new => Lockstep.given (fun _ => ?_))
  have hrest : Lockstep L (Within (W.Held L))
      (do
        memsetZero (← directmapP2v new) pageSize
        p2vStore entry .pte (new ||| ptePresent ||| pteWritable)
        return (← p2vLoad entry .pte) &&& pteAddrMask)
      (do
        memsetZero (← directmapP2v new) pageSize
        p2vStore entry .pte (new ||| ptePresent ||| pteWritable)
        return (← p2vLoad entry .pte) &&& pteAddrMask)
      (fun table => Within (fun m => W.Held L m ∨ Wild L table)) := by
    rw [← K.bind_assoc']
    by_cases hlow : new < pml4KernelHalfBase
    · refine Lockstep.bind (lockstep_memset (fun hs _ h => held_zero hlow hs h)) (fun _ => ?_)
      exact Lockstep.given
        (fun _ => Lockstep.bind (lockstep_p2vStore (fun _ h => h.set)) (fun _ => hlast))
    · refine Lockstep.bind (lockstep_memset (J := fun _ => True) (fun _ _ _ => trivial))
        (fun _ => ?_)
      refine Lockstep.given (fun hs => ?_)
      have himg := hs.image (Nat.le_of_not_lt hlow)
      refine Lockstep.bind (lockstep_p2vStore
        (J := fun m => m entry .pte = new ||| ptePresent ||| pteWritable)
          (fun _ _ => Mem.set_self _ _ _ _)) ?_
      intro _
      refine Lockstep.bind lockstep_p2vLoad (fun e => Lockstep.pure ?_)
      rintro s t ⟨⟨rfl, -⟩, hst⟩
      refine ⟨hst.before, Or.inr ?_, hst.after⟩
      rw [hst.held]
      exact wild_of_image himg
  refine Lockstep.ite (fun _ => ?_) (fun _ => hrest)
  exact Lockstep.bind (Blind.kpanic msg).steady (fun _ => Lockstep.given (fun _ => hrest))

/-- What a level of the walk leaves to the next one: a table it does not have yet. -/
def Left (W : Arrays) (L : Layout) (table idx : Nat) (m : Mem) : Prop :=
  W.Held L m ∨ Wild L table ∧ idx = noIdx

theorem neverReturns_wireTable {msg : String} {idx : Nat} (hw : Wild L table) (hidx : idx < 512) :
    NeverReturns L (wireTable buddyKalloc msg (entryAddr table idx)) := by
  unfold wireTable
  exact NeverReturns.bind (neverReturns_p2vLoad (hw idx hidx))

/-- What the three levels have in common: `cur` is the index that led to the next table, and `make`
takes the new one to hand. -/
theorem enter_lockstep {msg : String} {idx cur : Nat} {make : Nat → Cursor} {old : Cursor}
    {Next : Cursor → Mem → Prop} (hidx : idx < 512)
    (hmake : ∀ t m, W.Held L m ∨ Wild L t → Next (make t) m) (hold : ∀ m, W.Held L m → Next old m) :
    Lockstep L (Within (Left W L table cur))
      (if idx ≠ cur
        then do return make (← wireTable buddyKalloc msg (entryAddr table idx)) else return old)
      (if idx ≠ cur
        then do return make (← wireTable buddyKalloc msg (entryAddr table idx)) else return old)
      (fun c => Within (Next c)) := by
  refine Lockstep.ite (fun _ => ?_) (fun hcur => ?_)
  · refine lockstep_unless ?_ (fun hw => NeverReturns.bind (neverReturns_wireTable hw.1 hidx))
    refine Lockstep.bind (wireTable_lockstep msg _) (fun t => Lockstep.pure (fun _ _ h => ?_))
    exact ⟨h.before, hmake t _ h.held, h.after⟩
  · refine Lockstep.pure (fun _ _ h => ⟨h.before, hold _ (h.held.resolve_right ?_), h.after⟩)
    rintro ⟨-, hno⟩
    unfold noIdx at hno
    omega

theorem enterPml4t_lockstep (pml4t idx : Nat) (hidx : idx < 512) (c : Cursor) :
    Lockstep L (Within (W.Held L)) (enterPml4t buddyKalloc pml4t idx c)
      (enterPml4t buddyKalloc pml4t idx c)
      (fun c => Within (Left W L c.pdpt c.pdptIdx)) :=
  Lockstep.mono
    (show Lockstep L (Within (Left W L pml4t c.pml4tIdx)) _ _
      (fun c => Within (Left W L c.pdpt c.pdptIdx)) from
      enter_lockstep hidx (fun _ _ h => h.imp_right (fun hw => ⟨hw, rfl⟩)) (fun _ h => Or.inl h))
    (fun _ _ h => ⟨h.before, Or.inl h.held, h.after⟩) (fun _ _ _ h => h)

theorem enterPdpt_lockstep (idx : Nat) (hidx : idx < 512) (c : Cursor) :
    Lockstep L (Within (Left W L c.pdpt c.pdptIdx)) (enterPdpt buddyKalloc idx c)
      (enterPdpt buddyKalloc idx c)
      (fun c => Within (Left W L c.pd c.pdIdx)) :=
  enter_lockstep hidx (fun _ _ h => h.imp_right (fun hw => ⟨hw, rfl⟩)) (fun _ h => Or.inl h)

theorem enterPd_lockstep (idx : Nat) (hidx : idx < 512) (c : Cursor) :
    Lockstep L (Within (Left W L c.pd c.pdIdx)) (enterPd buddyKalloc idx c)
      (enterPd buddyKalloc idx c)
      (fun c => Within (fun m => W.Held L m ∨ Wild L c.pt)) :=
  enter_lockstep hidx (fun _ _ h => h) (fun _ h => Or.inl h)

/-- The store of a leaf. -/
theorem leaf_lockstep {P : Prop} {idx pte : Nat} (hidx : idx < 512) (hp : P → Wild L table) :
    Lockstep L (Within (fun m => W.Held L m ∨ P)) (p2vStore (entryAddr table idx) .pte pte)
      (p2vStore (entryAddr table idx) .pte pte) (fun _ => Within (W.Held L)) :=
  lockstep_unless (lockstep_p2vStore (fun _ h => h.set))
    (fun h => neverReturns_p2vStore (hp h idx hidx))

theorem mapHugeLoop_lockstep (pml4t flags left vaddr paddr : Nat) (c : Cursor) :
    Lockstep L (Within (W.Held L)) (mapHugeLoop buddyKalloc pml4t flags left vaddr paddr c)
      (mapHugeLoop buddyKalloc pml4t flags left vaddr paddr c) (fun _ => Within (W.Held L)) := by
  induction left generalizing vaddr paddr c with
  | zero => exact Lockstep.pure (fun _ _ h => h)
  | succ left ih =>
    unfold mapHugeLoop
    refine Lockstep.bind (enterPml4t_lockstep pml4t _ (Nat.mod_lt _ (by decide)) c) (fun c₁ => ?_)
    refine Lockstep.bind (enterPdpt_lockstep _ (Nat.mod_lt _ (by decide)) c₁) (fun c₂ => ?_)
    exact Lockstep.bind (leaf_lockstep (Nat.mod_lt _ (by decide)) (fun hw => hw.1))
      (fun _ => ih _ _ c₂)

theorem mapSmallLoop_lockstep (pml4t flags left vaddr paddr : Nat) (c : Cursor) :
    Lockstep L (Within (W.Held L)) (mapSmallLoop buddyKalloc pml4t flags left vaddr paddr c)
      (mapSmallLoop buddyKalloc pml4t flags left vaddr paddr c) (fun _ => Within (W.Held L)) := by
  induction left generalizing vaddr paddr c with
  | zero => exact Lockstep.pure (fun _ _ h => h)
  | succ left ih =>
    unfold mapSmallLoop
    refine Lockstep.bind (enterPml4t_lockstep pml4t _ (Nat.mod_lt _ (by decide)) c) (fun c₁ => ?_)
    refine Lockstep.bind (enterPdpt_lockstep _ (Nat.mod_lt _ (by decide)) c₁) (fun c₂ => ?_)
    refine Lockstep.bind (enterPd_lockstep _ (Nat.mod_lt _ (by decide)) c₂) (fun c₃ => ?_)
    exact Lockstep.bind (leaf_lockstep (Nat.mod_lt _ (by decide)) (fun hw => hw))
      (fun _ => ih _ _ c₃)

/-- **`map_pages`** is steady. -/
instance (pml4t paddr vaddr flags numPages : Nat) :
    Blind W L (mapPages buddyKalloc pml4t paddr vaddr flags numPages) := by
  have hblind : ∀ {x : K Unit}, Lockstep L (Within (W.Held L)) x x (fun _ => Within (W.Held L)) →
      Blind W L x :=
    fun h => ⟨Lockstep.mono h (fun _ _ h => h) (fun _ _ _ h => ⟨trivial, h⟩)⟩
  have hhuge := fun left vaddr paddr c =>
    hblind (mapHugeLoop_lockstep (W := W) (L := L) pml4t flags left vaddr paddr c)
  have hsmall := fun left vaddr paddr c =>
    hblind (mapSmallLoop_lockstep (W := W) (L := L) pml4t flags left vaddr paddr c)
  unfold mapPages
  infer_instance

/-- What is left of an entry is an address of a table: the last of its words is far from the upper
half. -/
class Masked (p : Nat) : Prop where
  le : p ≤ pteAddrMask

instance (x : Nat) : Masked (x &&& pteAddrMask) := ⟨Nat.and_le_right⟩

/-- A word of a table is at two places, and is the same. -/
theorem lockstep_word [ht : Masked table] {i : Nat} (hi : i < pageSize) :
    Lockstep L (Within I) (load (p2v 0 table + i) .pte) (load (p2v directMapStart table + i) .pte)
      (fun _ => Within I) := by
  intro s t s' a hst hrun
  have hle := ht.le
  have hphys : L.phys (table + i) = true := by
    obtain ⟨c, hc⟩ := load_returned hrun
    have htable : p2v 0 table = table := by
      unfold p2v
      unfold pteAddrMask at hle
      unfold pml4KernelHalfBase
      split <;> omega
    rw [hst.before, htable] at hc
    refine (stored_of_readable hc).phys ?_
    unfold pteAddrMask at hle
    unfold pageSize at hi
    unfold pml4KernelHalfBase
    omega
  rw [Edits.load_p2v (Or.inl rfl) hphys rfl s hst.before rfl] at hrun
  obtain ⟨rfl, rfl⟩ := Prod.mk.inj (Except.ok.inj hrun)
  obtain ⟨-, -, rfl⟩ := id hst
  exact ⟨_, Edits.load_p2v (Or.inr rfl) hphys rfl (s.seen directMapStart) rfl rfl, hst⟩

theorem lockstep_isEmptyLoop [Masked table] (left i : Nat) (hi : i + left = 512) :
    Lockstep L (Within I) (isEmptyLoop (p2v 0 table) left i)
      (isEmptyLoop (p2v directMapStart table) left i)
      (fun _ => Within I) := by
  induction left generalizing i with
  | zero => exact Lockstep.pure (fun _ _ h => h)
  | succ left ih =>
    unfold isEmptyLoop
    refine Lockstep.bind (lockstep_word (by unfold pageSize; omega)) (fun _ => ?_)
    exact Lockstep.ite (fun _ => Lockstep.pure (fun _ _ h => h)) (fun _ => ih (i + 1) (by omega))

/-- `is_empty` reads the table where the view has it. -/
theorem steady_isEmpty [Masked table] :
    Steady I L (do isEmpty (← directmapP2v table)) (fun _ => True) := by
  intro s t s' a hst hrun
  have hrun₁ : isEmpty (p2v s.physMapOffset table) L s = .ok (a, s') := hrun
  rw [hst.before] at hrun₁
  obtain ⟨t', hsame, hst'⟩ := lockstep_isEmptyLoop 512 0 rfl hst hrun₁
  refine ⟨t', ?_, trivial, hst'⟩
  obtain ⟨-, -, rfl⟩ := hst
  exact hsame

instance (table entry : Nat) (up : K Unit) [Masked table] [Blind W L up] :
    Blind W L (prune buddyKfree table entry up) := by
  refine Blind.of_steady (Q := fun _ => True) ?_
  unfold prune
  rw [← K.bind_assoc']
  refine Steady.bind steady_isEmpty
    (fun _ _ => Steady.ite (fun _ => ?_) (fun _ => Steady.pure trivial))
  exact Blind.steady

instance (notHuge wrong : String) (pml4t paddr vaddr : Nat) :
    Blind W L (unmapHugeWith notHuge wrong buddyKfree pml4t paddr vaddr) := by
  unfold unmapHugeWith invlpg
  dsimp only
  -- the two steps down from the root
  refine ⟨Steady.bind Blind.steady
    (fun _ _ => Steady.ite (fun _ => Steady.pure trivial) (fun _ => ?_))⟩
  refine Steady.bind Blind.steady (fun _ _ => Steady.bind Blind.steady (fun _ _ => ?_))
  refine Steady.ite (fun _ => Steady.pure trivial) (fun _ => ?_)
  refine Steady.bind Blind.steady (fun _ _ => Steady.bind Blind.steady (fun _ _ => ?_))
  refine Steady.ite (fun _ => Steady.pure trivial) (fun _ => ?_)
  exact Blind.steady

instance (huge wrong : String) (pml4t paddr vaddr : Nat) :
    Blind W L (unmapSmallWith huge wrong buddyKfree pml4t paddr vaddr) := by
  unfold unmapSmallWith invlpg
  dsimp only
  -- the two steps down from the root
  refine ⟨Steady.bind Blind.steady
    (fun _ _ => Steady.ite (fun _ => Steady.pure trivial) (fun _ => ?_))⟩
  refine Steady.bind Blind.steady (fun _ _ => Steady.bind Blind.steady (fun _ _ => ?_))
  refine Steady.ite (fun _ => Steady.pure trivial) (fun _ => ?_)
  refine Steady.bind Blind.steady (fun _ _ => Steady.bind Blind.steady (fun _ _ => ?_))
  refine Steady.ite (fun _ => Steady.pure trivial) (fun _ => ?_)
  exact Blind.steady

instance (at_ : Nat → Nat → K Unit) [∀ p v, Blind W L (at_ p v)] (size paddr vaddr left i : Nat) :
    Blind W L (unmapLoop at_ size paddr vaddr left i) := by
  induction left generalizing i with
  | zero => exact Blind.pure ()
  | succ left ih =>
    unfold unmapLoop
    infer_instance

/-- **`unmap_pages`** is steady. -/
instance (pml4t paddr vaddr flags numPages : Nat) :
    Blind W L (unmapPages buddyKfree pml4t paddr vaddr flags numPages) := by
  unfold unmapPages unmapHugeAt unmapSmallAt
  infer_instance

end Tables

/-! ## Lists of calls -/

/-- A call with its arguments. `fuel` bounds the loops of the tree. -/
inductive Call
  | rbInsert (fuel root node : Nat)
  | rbDelete (fuel root key : Nat)
  | rbFindVma (fuel root addr : Nat)
  | buddyKalloc (size : Nat)
  | buddyKfree (chunk size : Nat)
  | kmemCacheKalloc (cache : Nat)
  | kmemCacheKfree (cache object : Nat)
  | mapPages (pml4t paddr vaddr flags numPages : Nat)
  | unmapPages (pml4t paddr vaddr flags numPages : Nat)
deriving DecidableEq, Repr

/-- The call, and what it returns as a number. -/
def Call.run : Call → K Nat
  | .rbInsert fuel root node => MikroKernel.rbInsert fuel root node vmaCmp
  | .rbDelete fuel root key => do return (← MikroKernel.rbDelete fuel root key vmaCmp).toNat
  | .rbFindVma fuel root addr => MikroKernel.rbFindVma fuel root addr
  | .buddyKalloc size => MikroKernel.buddyKalloc size
  | .buddyKfree chunk size => do
      MikroKernel.buddyKfree chunk size
      return 0
  | .kmemCacheKalloc cache => MikroKernel.kmemCacheKalloc MikroKernel.buddyKalloc cache
  | .kmemCacheKfree cache object => do
      MikroKernel.kmemCacheKfree cache object
      return 0
  | .mapPages pml4t paddr vaddr flags numPages => do
      MikroKernel.mapPages MikroKernel.buddyKalloc pml4t paddr vaddr flags numPages
      return 0
  | .unmapPages pml4t paddr vaddr flags numPages => do
      MikroKernel.unmapPages MikroKernel.buddyKfree pml4t paddr vaddr flags numPages
      return 0

/-- The calls, one after the other, and what they return. -/
def runCalls : List Call → K (List Nat)
  | [] => pure []
  | c :: rest => do
      let v ← c.run
      let vs ← runCalls rest
      pure (v :: vs)

/-- Roots and caches are in the image. Nodes, objects, blocks and tables may be anything: a call
with a wrong one does not return. -/
def Call.Ok (L : Layout) : Call → Prop
  | .rbInsert _ root _ => L.image root = true
  | .rbDelete _ root _ => L.image root = true
  | .rbFindVma _ root _ => L.image root = true
  | .kmemCacheKalloc cache => L.image cache = true
  | .kmemCacheKfree cache _ => L.image cache = true
  | _ => True

/-- **Every call is steady.** -/
theorem Call.blind {c : Call} (h : c.Ok L) : Blind W L c.run := by
  cases c with
  | rbInsert fuel root node =>
    have : Upper root := ⟨L.image_ge root h⟩
    exact inferInstanceAs (Blind W L (MikroKernel.rbInsert fuel root node vmaCmp))
  | rbDelete fuel root key =>
    have : Upper root := ⟨L.image_ge root h⟩
    exact inferInstanceAs
      (Blind W L (do return (← MikroKernel.rbDelete fuel root key vmaCmp).toNat))
  | rbFindVma fuel root addr =>
    have : Upper root := ⟨L.image_ge root h⟩
    exact inferInstanceAs (Blind W L (MikroKernel.rbFindVma fuel root addr))
  | buddyKalloc size => exact inferInstanceAs (Blind W L (MikroKernel.buddyKalloc size))
  | buddyKfree chunk size => exact ⟨Steady.bind Blind.steady (fun _ _ => Steady.pure trivial)⟩
  | kmemCacheKalloc cache =>
    have : Upper cache := ⟨L.image_ge cache h⟩
    exact inferInstanceAs (Blind W L (MikroKernel.kmemCacheKalloc MikroKernel.buddyKalloc cache))
  | kmemCacheKfree cache object =>
    have : Upper cache := ⟨L.image_ge cache h⟩
    exact ⟨Steady.bind Blind.steady (fun _ _ => Steady.pure trivial)⟩
  | mapPages pml4t paddr vaddr flags numPages =>
    exact ⟨Steady.bind Blind.steady (fun _ _ => Steady.pure trivial)⟩
  | unmapPages pml4t paddr vaddr flags numPages =>
    exact ⟨Steady.bind Blind.steady (fun _ _ => Steady.pure trivial)⟩

theorem runCalls_steady {calls : List Call} (h : ∀ c ∈ calls, c.Ok L) :
    Steady (W.Held L) L (runCalls calls) (fun _ => True) := by
  induction calls with
  | nil => exact Steady.pure trivial
  | cons c rest ih =>
    refine Steady.bind (Call.blind (h c List.mem_cons_self)).steady (fun v _ => ?_)
    refine Steady.bind (ih (fun d hd => h d (List.mem_cons_of_mem _ hd))) (fun vs _ => ?_)
    exact Steady.pure trivial

theorem runCalls_append (before after : List Call) :
    runCalls (before ++ after) = (do
      let vs ← runCalls before
      let ws ← runCalls after
      pure (vs ++ ws)) := by
  induction before with
  | nil =>
    funext L s
    show runCalls after L s = (runCalls after >>= fun ws => pure ([] ++ ws)) L s
    rw [K.bind_apply]
    cases runCalls after L s <;> rfl
  | cons c rest ih =>
    rw [List.cons_append, runCalls, ih, runCalls]
    simp only [K.bind_assoc', K.pure_bind', List.cons_append]

/-- **The switch does not show.** Wherever in a list of calls `phys_map_offset` is switched, the
calls that returned without the switch return with it, the same values, and leave the same memory
and locks. -/
theorem switch_transparent {before after : List Call} {s s' : KState} {vs : List Nat}
    (hcalls : ∀ c ∈ before ++ after, c.Ok L) (hview : s.physMapOffset = 0) (hheld : W.Held L s.mem)
    (hrun : runCalls (before ++ after) L s = .ok (vs, s')) :
    (do
      let us ← runCalls before
      switchPhysMap
      let ws ← runCalls after
      pure (us ++ ws)) L s = .ok (vs, { s' with physMapOffset := directMapStart }) := by
  rw [runCalls_append] at hrun
  obtain ⟨us, s₁, hbefore, hrest⟩ := K.bind_eq_ok.mp hrun
  obtain ⟨ws, s₂, hafter, hlast⟩ := K.bind_eq_ok.mp hrest
  obtain ⟨rfl, rfl⟩ := Prod.mk.inj (Except.ok.inj hlast)
  have hsteady := fun c hc => hcalls c (List.mem_append_left after hc)
  obtain ⟨t₁, -, -, hst₁⟩ := runCalls_steady hsteady ⟨hview, hheld, rfl⟩ hbefore
  -- from here on the run is seen through the direct map
  have hsteady' := fun c hc => hcalls c (List.mem_append_right before hc)
  obtain ⟨t₂, hsame, -, -, -, rfl⟩ := runCalls_steady hsteady' hst₁ hafter
  obtain ⟨-, -, rfl⟩ := hst₁
  rw [K.bind_ok hbefore,
    K.bind_ok (show switchPhysMap L s₁ = .ok ((), s₁.seen directMapStart) from rfl),
    K.bind_ok hsame]
  rfl

/-! ### On the small machine -/

/-- The metadata of one free block of 4MB, with its arrays where `lists` and `bitmap` are. -/
def metadataAt (lists bitmap : Nat) : Mem :=
  let m := bootState.mem.set smallLayout.kernelEnd .freeListsPtr lists
  let m := m.set smallLayout.kernelEnd .bitmapPtr bitmap
  let m := m.set smallLayout.kernelEnd .maxOrder 10
  let m := m.set smallLayout.kernelEnd .baseAddress 0x400000
  m.set (freeListAddr lists 10) .ptr 0x400000

/-- The arrays behind the metadata, as `__init_buddy` lays them out. -/
def smallArrays : Arrays where
  freeLists := smallLayout.kernelEnd + metadataSize
  bitmap := smallLayout.kernelEnd + metadataSize + 11 * 8
  freeLists_ge := by decide
  bitmap_ge := by decide

def switchStart :
    KState := { bootState with mem := metadataAt smallArrays.freeLists smallArrays.bitmap }

theorem switchStart_held : smallArrays.Held smallLayout switchStart.mem where
  freeLists := by decide
  bitmap := by decide

/-- A PML4 before the switch, and a page mapped and unmapped in it after. -/
def beforeSwitch : List Call := [.buddyKalloc 4096]
def afterSwitch : List Call :=
  [.mapPages 0x400000 0x500000 0 3 1, .unmapPages 0x400000 0x500000 0 3 1]

theorem switchStart_runs : ∃ s', runCalls (beforeSwitch ++ afterSwitch) smallLayout switchStart
    = .ok ([0x400000, 0, 0], s') := by
  have hvals : (runCalls (beforeSwitch ++ afterSwitch) smallLayout switchStart).toOption.map (·.1)
      = some [0x400000, 0, 0] := by
    decide +kernel
  cases hrun : runCalls (beforeSwitch ++ afterSwitch) smallLayout switchStart with
  | error e =>
    rw [hrun] at hvals
    exact absurd hvals (by simp [Except.toOption])
  | ok r =>
    rw [hrun] at hvals
    have hval : r.1 = [0x400000, 0, 0] := Option.some.inj hvals
    exact ⟨r.2, by rw [← hval]⟩

theorem switch_transparent_pages :
    ∃ s', runCalls (beforeSwitch ++ afterSwitch) smallLayout switchStart
      = .ok ([0x400000, 0, 0], s') ∧
    (do
      let us ← runCalls beforeSwitch
      switchPhysMap
      let ws ← runCalls afterSwitch
      pure (us ++ ws)) smallLayout switchStart
      = .ok ([0x400000, 0, 0], { s' with physMapOffset := directMapStart }) := by
  obtain ⟨s', hrun⟩ := switchStart_runs
  refine ⟨s', hrun, switch_transparent (W := smallArrays) ?_ rfl switchStart_held hrun⟩
  intro c hc
  fin_cases hc <;> exact trivial

/-! ### Where the list heads are not in the image -/

/-- The fields that hold pointers. -/
def isPointer : Field → Bool
  | .right | .left | .parent | .chunkNext | .chunkPrev | .baseAddress | .freeListsPtr | .bitmapPtr
  | .listNext | .listPrev | .freeList | .slabCache | .link | .ptr => true
  | _ => false

theorem metadataAt_cases (lists bitmap a : Nat) (f : Field) :
    metadataAt lists bitmap a f = 0 ∨ f = .ptr ∧ metadataAt lists bitmap a f = 0x400000 ∨
    f = .baseAddress ∧ metadataAt lists bitmap a f = 0x400000 ∨ f = .maxOrder ∨
    f = .bitmapPtr ∧ metadataAt lists bitmap a f = bitmap ∨
    f = .freeListsPtr ∧ metadataAt lists bitmap a f = lists := by
  unfold metadataAt
  simp only [Mem.set_apply]
  split_ifs with h₁ h₂ h₃ h₄ h₅
  · exact Or.inr (Or.inl ⟨h₁.2, rfl⟩)
  · exact Or.inr (Or.inr (Or.inl ⟨h₂.2, rfl⟩))
  · exact Or.inr (Or.inr (Or.inr (Or.inl h₃.2)))
  · exact Or.inr (Or.inr (Or.inr (Or.inr (Or.inl ⟨h₄.2, rfl⟩))))
  · exact Or.inr (Or.inr (Or.inr (Or.inr (Or.inr ⟨h₅.2, rfl⟩))))
  · exact Or.inl rfl

/-- The same metadata with the list heads in RAM. -/
def rawStart : KState := { bootState with mem := metadataAt 0x500000 smallArrays.bitmap }

/-- Every pointer in it is physical or of the image. -/
theorem rawStart_pointer (a : Nat) (f : Field) (hf : isPointer f = true) :
    rawStart.mem a f < physTop ∨ smallLayout.image (rawStart.mem a f) = true := by
  show metadataAt _ _ a f < _ ∨ smallLayout.image (metadataAt _ _ a f) = true
  rcases metadataAt_cases 0x500000 smallArrays.bitmap a f with h | ⟨-, h⟩ | ⟨-,
    h⟩ | h | ⟨-, h⟩ | ⟨-, h⟩
  · exact Or.inl (by rw [h]; decide)
  · exact Or.inl (by rw [h]; decide)
  · exact Or.inl (by rw [h]; decide)
  · rw [h] at hf
    exact absurd hf (by decide)
  · exact Or.inr (by rw [h]; decide)
  · exact Or.inl (by rw [h]; decide)

/-- The address a run faults at. -/
def faultOf {α : Type} (x : K α) (s : KState) : Option Nat :=
  match x smallLayout s with
  | .error (.fault v) => some v
  | _ => none

/-- **`metadata->free_lists_ptr` is dereferenced as it is.** Where it is a physical address,
`buddy_kalloc` returns before the switch and faults after it. -/
theorem raw_list_faults :
    (∀ a f, isPointer f = true →
      rawStart.mem a f < physTop ∨ smallLayout.image (rawStart.mem a f) = true) ∧
    rawStart.physMapOffset = 0 ∧
    (runCalls ([.buddyKalloc 4096] ++ [.buddyKalloc 4096]) smallLayout rawStart).toOption.map (·.1)
      = some [0x400000, 0x401000] ∧
    faultOf (do
      let us ← runCalls [.buddyKalloc 4096]
      switchPhysMap
      let ws ← runCalls [.buddyKalloc 4096]
      pure (us ++ ws)) rawStart = some 0x500000 :=
  ⟨rawStart_pointer, rfl, by decide +kernel, by decide +kernel⟩

end Switch
end MikroKernel
