import MikroKernel.Machine.Effect
import MikroKernel.Proof.Alloc.Books
import MikroKernel.Proof.Alloc.Unaware
import MikroKernel.Vm.Boot

/-!
# `__init_mmu` beside its books

The results about `__init_mmu` are for a page allocator that keeps its books in the ghost: which
blocks are out is a component of the state, and an allocation adds one. `buddy_kalloc` keeps no such
books. `recordedKalloc` is `buddy_kalloc` with books kept beside it, so the results hold of a boot
with `recordedKalloc`, and what is wanted is the same boot with `buddy_kalloc` itself.

No function of the kernel reads the ghost, so the two boots run alike. `erased` is the mask that
takes out the ghost and nothing else: two states agree through it when they differ in their books
alone. What is proved is `Unaware erased L x y` for `x` over `buddy_kalloc` and `y` over
`recordedKalloc`: started in states that agree, they end the same way in states that agree.

The relation is a class, and there is an instance for each function that boot calls, stated for any
two page allocators `k` and `k'` that run alike. Each unfolds its function once and leaves the rest
to the rules for `>>=`, `if` and the accesses, so a change to one function of the source touches one
instance. The loops go by induction on what is left of them. By hand are only the pieces where the
code goes on by what a value is: there the value has to be split before a rule applies.

`yields` and `tied` then carry a result from the run with books to the one without. What they say of
the end is about its memory, since that is what the two ends share: the books are there in the first
only.
-/

set_option autoImplicit false
set_option synthInstance.maxSize 4000

namespace MikroKernel
namespace Ghost

open RedBlack Buddy

variable {α : Type} {L : Layout}

/-- The states agree but for the ghost: no cell is hidden, no lock is loose, nothing is asked of
memory, and only `blocks`, where the books are, may differ, and in any way. -/
def erased : Mask where
  hidden _ _ := False
  loose _ := False
  held _ := True
  blocks _ _ := True

/-! With nothing hidden, every access is open to code that is to stay within the mask. -/

instance (f : Field) : Open erased f := ⟨fun _ => id, fun _ _ _ h => h⟩
instance (id : LockId) : Known erased id := ⟨fun h => h⟩
instance : Unheld erased := ⟨fun _ => trivial⟩
instance : BuddyOpen erased :=
  ⟨inferInstance, inferInstance, inferInstance, inferInstance, inferInstance, inferInstance,
    inferInstance, inferInstance, inferInstance⟩
instance (freeLists : Nat) : Heads erased L freeLists :=
  ⟨fun _ => inferInstance, fun _ => inferInstance⟩
instance : Lists erased L := ⟨inferInstance, fun _ _ => inferInstance⟩

/-- States that agree so have the same memory. -/
theorem mem_eq {s t : KState} (h : Masked erased s t) : t.mem = s.mem := by
  funext a f
  exact h.mem a f id

/-- What the run with books yields, the run without them does, with the same memory. The state `t'`
that the postcondition speaks of is the other run's: it has the books that `s'` lacks. -/
theorem yields {x y : K α} [h : Unaware erased L x y] {s t : KState} {C : String → Prop}
    {Q : α → KState → Prop} (hst : Masked erased s t) (hy : Yields L y t C Q) :
    Yields L x s C (fun a s' => ∃ t', Q a t' ∧ t'.mem = s'.mem) := by
  have hout := h.alike hst
  -- the run with books returned or panicked; the other ended the same way, as `hout` says
  rcases hy with ⟨a, t', hrun, hq⟩ | ⟨msg, hrun, hmsg⟩
  · rw [hrun] at hout
    cases hx : x L s with
    | error e => simp [hx, SameOutcome] at hout
    | ok q =>
      rw [hx] at hout
      obtain ⟨b, s'⟩ := q
      obtain ⟨rfl, hst'⟩ := hout
      exact Yields.ret hx ⟨t', hq, mem_eq hst'⟩
  · rw [hrun] at hout
    cases hx : x L s with
    | error e =>
      rw [hx] at hout
      obtain rfl : e = .panic msg := hout
      exact Or.inr ⟨msg, hx, hmsg⟩
    | ok q => simp [hx, SameOutcome] at hout

/-- Where the run with books stops, the run without them does. -/
theorem stops {x y : K α} [h : Unaware erased L x y] {s t : KState} {e : Stop}
    (hst : Masked erased s t) (hy : y L t = .error e) : x L s = .error e := by
  have hout := h.alike hst
  rw [hy] at hout
  cases hx : x L s with
  | error e' =>
    rw [hx] at hout
    exact congrArg Except.error hout
  | ok q => simp [hx, SameOutcome] at hout

/-- A panic tied to an alarm stays tied to it. The code `y` and its copy `x` that raises the alarm
are two runs, and each has to be like its own run with books. -/
theorem tied {x x' y y' : K α} [Unaware erased L x x'] [Unaware erased L y y'] {s t : KState}
    {alarm : Stop} {C : String → Prop} {Q : α → KState → Prop} (hst : Masked erased s t)
    (h : Tied L alarm C x' y' t Q) :
    Tied L alarm C x y s (fun a s' => ∃ t', Q a t' ∧ t'.mem = s'.mem) :=
  Yields.mono (yields hst h) (fun _ hm => ⟨hm.1, stops hst hm.2⟩) (fun _ _ hq => hq)

/-! ## Allocation -/

/-- Writing a block into the books is, but for the ghost, to do nothing. -/
instance (p n : Nat) : Unaware erased L (pure ()) (handOut p n) :=
  ⟨fun _ _ h => ⟨rfl, h.mem, h.held, h.lock, h.offset, h.rflags, h.apicId, trivial⟩⟩

instance (n : Nat) : Unaware erased L (buddyKalloc n) (recordedKalloc n) := by
  -- `buddy_kalloc` with a step that does nothing at the end, beside the one that writes the books
  have hsplit : buddyKalloc n = buddyKalloc n >>= fun p => pure () >>= fun _ => pure p := by
    funext L s
    rw [K.bind_apply]
    cases buddyKalloc n L s <;> rfl
  have hunit :
      ∀ p, Unaware erased L (pure () >>= fun _ => pure p) (handOut p n >>= fun _ => pure p) :=
    fun _ => inferInstance
  rw [hsplit]
  exact @Unaware.bind _ _ _ _ _ _ _ _ inferInstance hunit

instance (k k' : Nat → K Nat) [∀ n, Unaware erased L (k n) (k' n)] (n : Nat) :
    Unaware erased L (orHalt k n) (orHalt k' n) := by
  unfold orHalt
  infer_instance

/-! ## The slab allocator -/

instance (cache size : Nat) :
    Unaware erased L (kmemCacheCreateSl cache size) (kmemCacheCreateSl cache size) := by
  unfold kmemCacheCreateSl
  dsimp only
  -- the cache is laid out only for a size that the calculations accept
  cases calcObjectAlign size with
  | none => infer_instance
  | some align =>
    cases hn : calcObjectsPerSlab size align (calcSlabOrder size % 2 ^ 8) with
    | none =>
      simp only [hn]
      infer_instance
    | some n =>
      simp only [hn]
      unfold emptyLists emptyList
      infer_instance

instance (sentinel node : Nat) :
    Unaware erased L (moveNode sentinel node) (moveNode sentinel node) := by
  unfold moveNode unlinkNode insertFront
  infer_instance

instance (first objectSize perSlab left idx : Nat) :
    Unaware erased L (threadLoop first objectSize perSlab left idx)
        (threadLoop first objectSize perSlab left idx) := by
  induction left generalizing idx with
  | zero => exact Unaware.pure ()
  | succ left ih =>
    unfold threadLoop
    dsimp only
    infer_instance

instance (cache desc : Nat) : Unaware erased L (popObject cache desc) (popObject cache desc) := by
  unfold popObject
  dsimp only
  infer_instance

instance (cache : Nat) : Unaware erased L (firstSection cache) (firstSection cache) := by
  unfold firstSection pickSlab
  -- with or without a slab that has an object left
  refine @Unaware.bind _ _ _ _ _ _ _ _ inferInstance (fun r => ?_)
  cases r <;> infer_instance

instance (cache : Nat) (status : Status) :
    Unaware erased L (secondSection cache status) (secondSection cache status) := by
  unfold secondSection grownSlab
  infer_instance

instance (cache object : Nat) :
    Unaware erased L (kmemCacheKfree cache object) (kmemCacheKfree cache object) := by
  unfold kmemCacheKfree freeSection
  dsimp only
  infer_instance

section Pages

variable (k k' : Nat → K Nat) [∀ n, Unaware erased L (k n) (k' n)]

instance (cache : Nat) : Unaware erased L (kmemCacheGrow k cache) (kmemCacheGrow k' cache) := by
  unfold kmemCacheGrow insertFront
  dsimp only
  infer_instance

instance (cache : Nat) : Unaware erased L (kmemCacheKalloc k cache) (kmemCacheKalloc k' cache) := by
  unfold kmemCacheKalloc
  refine @Unaware.bind _ _ _ _ _ _ _ _ inferInstance (fun r => ?_)
  cases r <;> infer_instance

end Pages

/-! ## The tree -/

instance (d : Side) (root node : Nat) :
    Unaware erased L (rbRotate d root node) (rbRotate d root node) := by
  unfold rbRotate rbRelink
  dsimp only
  infer_instance

instance (node : Nat) : Unaware erased L (rbIsRed node) (rbIsRed node) := by
  unfold rbIsRed
  infer_instance

instance (d : Side) (root x : Nat) :
    Unaware erased L (rbInsertFixupStep d root x) (rbInsertFixupStep d root x) := by
  unfold rbInsertFixupStep rbInsertFixupInner rbInsertFixupOuter
  infer_instance

instance (root fuel x : Nat) :
    Unaware erased L (rbInsertFixupLoop root fuel x) (rbInsertFixupLoop root fuel x) := by
  induction fuel generalizing x with
  | zero => exact Unaware.stop _
  | succ fuel ih =>
    unfold rbInsertFixupLoop
    infer_instance

instance (a b : Nat) : Unaware erased L (vmaCmp a b) (vmaCmp a b) := by
  unfold vmaCmp
  infer_instance

instance (node fuel current parent : Nat) :
    Unaware erased L (rbInsertLoop node vmaCmp fuel current parent)
        (rbInsertLoop node vmaCmp fuel current parent) := by
  induction fuel generalizing current parent with
  | zero =>
    unfold rbInsertLoop
    infer_instance
  | succ fuel ih =>
    unfold rbInsertLoop
    infer_instance

instance (fuel root node parent : Nat) :
    Unaware erased L (rbInsertAt fuel root node vmaCmp parent)
        (rbInsertAt fuel root node vmaCmp parent) := by
  unfold rbInsertAt rbInsertFixup
  dsimp only
  infer_instance

instance (fuel root node : Nat) :
    Unaware erased L (rbInsert fuel root node vmaCmp) (rbInsert fuel root node vmaCmp) := by
  have hsearch : ∀ top, Unaware erased L (rbInsertLoop node vmaCmp fuel top 0)
      (rbInsertLoop node vmaCmp fuel top 0) :=
    fun _ => inferInstance
  unfold rbInsert
  -- the two children and the top are one step each; the search is given by hand, since the code
  -- goes on by whether it ended at a parent or at a node that compares equal
  refine @Unaware.bind _ _ _ _ _ _ _ _ inferInstance (fun _ => ?_)
  refine @Unaware.bind _ _ _ _ _ _ _ _ inferInstance (fun _ => ?_)
  refine @Unaware.bind _ _ _ _ _ _ _ _ inferInstance (fun top => ?_)
  refine @Unaware.bind _ _ _ _ _ _ _ _ (hsearch top) (fun r => ?_)
  cases r <;> infer_instance

/-! ## The page tables -/

section Tables

variable (k k' : Nat → K Nat) [∀ n, Unaware erased L (k n) (k' n)]

instance (msg : String) (entry : Nat) :
    Unaware erased L (wireTable k msg entry) (wireTable k' msg entry) := by
  unfold wireTable
  dsimp only
  infer_instance

instance (pml4t idx : Nat) (c : Cursor) :
    Unaware erased L (enterPml4t k pml4t idx c) (enterPml4t k' pml4t idx c) := by
  unfold enterPml4t
  infer_instance

instance (idx : Nat) (c : Cursor) : Unaware erased L (enterPdpt k idx c) (enterPdpt k' idx c) := by
  unfold enterPdpt
  infer_instance

instance (idx : Nat) (c : Cursor) : Unaware erased L (enterPd k idx c) (enterPd k' idx c) := by
  unfold enterPd
  infer_instance

instance (pml4t flags left vaddr paddr : Nat) (c : Cursor) : Unaware erased L
    (mapHugeLoop k pml4t flags left vaddr paddr c)
        (mapHugeLoop k' pml4t flags left vaddr paddr c) := by
  induction left generalizing vaddr paddr c with
  | zero => exact Unaware.pure ()
  | succ left ih =>
    unfold mapHugeLoop
    infer_instance

instance (pml4t flags left vaddr paddr : Nat) (c : Cursor) : Unaware erased L
    (mapSmallLoop k pml4t flags left vaddr paddr c)
        (mapSmallLoop k' pml4t flags left vaddr paddr c) := by
  induction left generalizing vaddr paddr c with
  | zero => exact Unaware.pure ()
  | succ left ih =>
    unfold mapSmallLoop
    infer_instance

instance (pml4t paddr vaddr flags numPages : Nat) : Unaware erased L
    (mapPages k pml4t paddr vaddr flags numPages)
        (mapPages k' pml4t paddr vaddr flags numPages) := by
  unfold mapPages
  infer_instance

variable (fuel : Nat) (V : Statics)

/-- **`kmap_pages`** reads no ghost: the VMA, the tables and the tree, all three over an
allocator. -/
instance (paddr vaddr flags numPages : Nat) : Unaware erased L
    (kmapPages fuel k V paddr vaddr flags numPages)
        (kmapPages fuel k' V paddr vaddr flags numPages) := by
  unfold kmapPages fillVma mapSection rbInsertVma
  infer_instance

/-! ## Boot -/

instance (e : MmapEntry) : Unaware erased L (mapUsable fuel k V e) (mapUsable fuel k' V e) := by
  unfold mapUsable
  dsimp only
  infer_instance

instance (entries : List MmapEntry) :
    Unaware erased L (mapDirectMapping fuel k V entries) (mapDirectMapping fuel k' V entries) := by
  induction entries with
  | nil => exact Unaware.pure ()
  | cons e rest ih =>
    unfold mapDirectMapping
    infer_instance

instance (phys left i : Nat) :
    Unaware erased L (clearStack phys left i) (clearStack phys left i) := by
  induction left generalizing i with
  | zero => exact Unaware.pure ()
  | succ left ih =>
    unfold clearStack memsetPg
    infer_instance

instance : Unaware erased L (mapStacks fuel k V) (mapStacks fuel k' V) := by
  unfold mapStacks
  infer_instance

instance : Unaware erased L (initSpace k V) (initSpace k' V) := by
  unfold initSpace memsetPg
  infer_instance

instance (Y : Symbols) : Unaware erased L (mapImage fuel k V Y) (mapImage fuel k' V Y) := by
  unfold mapImage
  dsimp only
  infer_instance

/-- The switch sets the offset, which the mask shows, to the same value in both. -/
instance : Unaware erased L switchPhysMap switchPhysMap :=
  ⟨fun _ _ h => ⟨rfl, h.mem, h.held, h.lock, rfl, h.rflags, h.apicId, h.blocks⟩⟩

instance (fbVirt : Nat) (Y : Symbols) (entries : List MmapEntry) (vbe : VbeHandoff) :
    Unaware erased L
    (initMmu fuel k V fbVirt Y entries vbe) (initMmu fuel k' V fbVirt Y entries vbe) := by
  unfold initMmu mapBootMemory mapFramebuffer loadPmltCr3 vesaSetFbVirtual
  dsimp only
  infer_instance

end Tables

end Ghost
end MikroKernel
