import Mathlib.Tactic

/-!
# The machine: memory behind a view, and the kernel monad

Every function of the kernel that is modelled in this development runs in one monad, `K`: it
reads and writes a memory of C objects, and it may stop without returning. Three decisions
fix what "memory" means here.

**A memory cell is an object's address and a field of it.** `Mem` maps an address and a
`Field` to the scalar stored there, so `p->left` and `p->right` are different cells and two
objects at different addresses never share one. A `slab_list_node` inside a descriptor or a
cache has its own address (the descriptor's plus `offsetof`), as the `container_of`
arithmetic of the source needs. Values and addresses are natural numbers; arithmetic that the source
does in 64 or 32 bits carries its reduction explicitly.

**An address is read through a view.** `phys_map_offset` (`mmu.h`) says where the physical
memory is visible: physical address `p` is readable at virtual address
`phys_map_offset + p` and nowhere else, the kernel image at its own high addresses always.
`Layout.resolve` is that rule. A dereference of anything else is a page fault, which ends
the run (`Stop.fault`).

**A call that does not return is a value.** `PANIC`, a page fault, a spin on a lock nobody
will release, a shift by 64 or more, and a loop that outlives its fuel are all `Except.error`,
so "the call returns" is the statement that its result is `.ok`.
-/

set_option autoImplicit false

namespace MikroKernel

/-! ## Constants of `mmu.h` and `mikroKernellib-common.h` -/

def pageSize : Nat := 0x1000
def hugePageSize : Nat := 0x200000
def pml4KernelHalfBase : Nat := 0xFFFF800000000000
def directMapStart : Nat := 0xFFFF800000200000
def kernelImageStart : Nat := 0xFFFFFFFF80000000

/-- The first physical address whose direct-map alias would wrap past `2 ^ 64`. -/
def physTop : Nat := 0x7FFFFFE00000

/-! ## Memory -/

/-- The fields of the C objects the kernel stores, by struct. `link` is the `void*` at the
head of a free slab object; `pte`, `ptr`, `word32` and `byte` are elements of arrays (a page
table, the free-list heads, `order_offsets`, the bitmap) and plain variables. -/
inductive Field
  -- `struct rb_node`
  | right | left | parent | color
  -- `struct vma`
  | vmaStart | vmaEnd | vmaPte
  -- `struct vac`
  | vacAddr | vacEnd
  -- `struct buddy_chunk`
  | chunkNext | chunkPrev
  -- `buddy_metadata`
  | baseAddress | managedSize | minOrder | maxOrder | freeListsPtr | bitmapPtr
  -- `slab_list_node`
  | listNext | listPrev
  -- `slab_descriptor`
  | inuseNum | freeList | slabCache
  -- `kmem_cache`
  | objectSize | objectAlign | slabOrder | objectsPerSlab
  -- array elements and variables
  | link | pte | ptr | word32 | byte
deriving DecidableEq, Repr

/-- One scalar for each field of each address. -/
def Mem := Nat → Field → Nat

/-- A store to one cell. -/
def Mem.set (m : Mem) (a : Nat) (f : Field) (v : Nat) : Mem :=
  fun b g => if b = a ∧ g = f then v else m b g

/-- `memset(ptr, 0, n)`: every cell that starts in the `n` bytes from `a` becomes zero. -/
def Mem.zero (m : Mem) (a n : Nat) : Mem :=
  fun b g => if a ≤ b ∧ b < a + n then 0 else m b g

@[simp] theorem Mem.set_self (m : Mem) (a : Nat) (f : Field) (v : Nat) :
    m.set a f v a f = v := by simp [Mem.set]

theorem Mem.set_ne {m : Mem} {a b : Nat} {f g : Field} {v : Nat} (h : b ≠ a ∨ g ≠ f) :
    m.set a f v b g = m b g := by
  unfold Mem.set
  exact if_neg (fun hh => h.elim (fun h1 => h1 hh.1) (fun h2 => h2 hh.2))

theorem Mem.set_apply (m : Mem) (a b : Nat) (f g : Field) (v : Nat) :
    m.set a f v b g = if b = a ∧ g = f then v else m b g := rfl

/-- A store of what is there already. -/
theorem Mem.set_eq_self {m : Mem} {a : Nat} {f : Field} {v : Nat} (h : m a f = v) :
    m.set a f v = m := by
  funext b g
  rw [Mem.set_apply]
  split
  · rename_i hc
    rw [hc.1, hc.2, h]
  · rfl

theorem Mem.zero_of_mem {m : Mem} {a n b : Nat} {g : Field} (h1 : a ≤ b) (h2 : b < a + n) :
    m.zero a n b g = 0 := if_pos ⟨h1, h2⟩

theorem Mem.zero_of_not_mem {m : Mem} {a n b : Nat} {g : Field} (h : b < a ∨ a + n ≤ b) :
    m.zero a n b g = m b g := if_neg (by omega)

/-! ## The view -/

/-- The bytes behind `kernel_end` the buddy allocator can address: `buddy_metadata`, the
eleven free-list heads, and the bitmap up to the last byte a 32-bit bit position names. -/
def metadataSpan : Nat := 78 + 88 + 2 ^ 29

/-- What exists on the machine: the installed physical addresses, the addresses of the
kernel image with the allocator metadata behind it, and the linker's `_kernel_end`. The
fields after the data are the facts the view rule needs: the direct-map alias of a physical
address is an address, the image is in the upper half and contains the metadata, and no
alias falls on the image. -/
structure Layout where
  phys : Nat → Bool
  image : Nat → Bool
  kernelEnd : Nat
  phys_lt : ∀ p, phys p = true → p < physTop
  image_ge : ∀ a, image a = true → pml4KernelHalfBase ≤ a
  image_lt : ∀ a, image a = true → a < 2 ^ 64
  image_alias : ∀ p, phys p = true → image (directMapStart + p) = false
  /-- The metadata of the buddy allocator and its whole bitmap can be read. Behind `load_pmlt_cr3`
  only the four pages there that boot maps can (`Buddy.metadata_mapped`), so what is proved of a
  call of the allocator is about the bootloader's page tables, or about a range whose bitmap ends in
  these pages. -/
  metadata_image : ∀ i, i < metadataSpan → image (kernelEnd + i) = true

/-- The cell behind virtual address `v` under an offset, `none` for an unreadable one. -/
def Layout.resolve (L : Layout) (offset : Nat) (v : Nat) : Option Nat :=
  if L.image v = true then some v
  else if offset ≤ v ∧ L.phys (v - offset) = true then some (v - offset)
  else none

/-- The two values `phys_map_offset` ever has. -/
def View (offset : Nat) : Prop := offset = 0 ∨ offset = directMapStart

/-- An address the kernel stores as a pointer and may dereference: a physical one, or one of
the kernel image. -/
def Layout.Stored (L : Layout) (p : Nat) : Prop := L.phys p = true ∨ L.image p = true

/-! ## The monad -/

/-- The ways a call can fail to return. -/
inductive Stop
  /-- an access to an address the current view does not map -/
  | fault (v : Nat)
  /-- `PANIC(msg)`: print and halt -/
  | panic (msg : String)
  /-- `spinlock_acquire` on a lock that no other CPU will release -/
  | spin
  /-- a shift by 64 or more, which C leaves undefined -/
  | shift
  /-- a loop that is still running when its fuel is spent -/
  | fuel
deriving DecidableEq, Repr

/-- `spinlock_t`. The two counters are 16 bits wide. -/
structure Spinlock where
  ticket : Nat
  serving : Nat
  cpuId : Nat
  rflags : Nat
deriving DecidableEq, Repr

/-- The locks of the modelled files. -/
inductive LockId
  | buddyLock | slabLock | kernelPageLock
deriving DecidableEq, Repr

/-- A block of physical memory: its address and its length in bytes. -/
structure Block where
  addr : Nat
  len : Nat
deriving DecidableEq, Repr

/-- The state of the machine as one CPU sees it. `blocks` is a ghost: the blocks a page allocator
(`Alloc/PhysAlloc.lean`) has handed out and not taken back. No function of the kernel reads
it. -/
structure KState where
  mem : Mem
  physMapOffset : Nat
  lock : LockId → Spinlock
  rflags : Nat
  apicId : Nat
  blocks : List Block

/-- The kernel monad: state, and a reason for not returning. -/
def K (α : Type) := Layout → KState → Except Stop (α × KState)

namespace K

def pure' {α : Type} (a : α) : K α := fun _ s => .ok (a, s)

def bind' {α β : Type} (x : K α) (f : α → K β) : K β := fun L s =>
  match x L s with
  | .ok (a, s') => f a L s'
  | .error e => .error e

instance : Monad K where
  pure := pure'
  bind := bind'

/-- Stop without returning. -/
def stop {α : Type} (e : Stop) : K α := fun _ _ => .error e

variable {α β : Type}

@[simp] theorem pure_apply (a : α) (L : Layout) (s : KState) :
    (pure a : K α) L s = .ok (a, s) := rfl

theorem bind_apply (x : K α) (f : α → K β) (L : Layout) (s : KState) :
    (x >>= f) L s = match x L s with
      | .ok (a, s') => f a L s'
      | .error e => .error e := rfl

/-- A step that returned is followed by its continuation. -/
theorem bind_ok {x : K α} {f : α → K β} {L : Layout} {s s' : KState} {a : α}
    (h : x L s = .ok (a, s')) : (x >>= f) L s = f a L s' := by
  rw [bind_apply, h]

/-- A sequence that returned has a first step that returned. -/
theorem bind_eq_ok {x : K α} {f : α → K β} {L : Layout} {s : KState} {r : β × KState} :
    (x >>= f) L s = .ok r ↔ ∃ a s', x L s = .ok (a, s') ∧ f a L s' = .ok r := by
  rw [bind_apply]
  constructor
  · intro h
    cases hx : x L s with
    | error e => rw [hx] at h; exact absurd h (by simp)
    | ok p => rw [hx] at h; exact ⟨p.1, p.2, rfl, h⟩
  · rintro ⟨a, s', hx, hf⟩
    rw [hx]
    exact hf

@[simp] theorem stop_apply (e : Stop) (L : Layout) (s : KState) :
    (stop e : K α) L s = .error e := rfl

@[simp] theorem ite_apply {c : Prop} [Decidable c] (x y : K α) (L : Layout) (s : KState) :
    (if c then x else y) L s = if c then x L s else y L s := by
  split <;> rfl

@[simp] theorem pure_bind' (a : α) (f : α → K β) : (pure a >>= f : K β) = f a := rfl

theorem bind_assoc' {γ : Type} (x : K α) (f : α → K β) (g : β → K γ) :
    (x >>= f >>= g) = x >>= fun a => f a >>= g := by
  funext L s
  simp only [bind_apply]
  cases x L s <;> rfl

/-- Nothing more to do. -/
theorem bind_pure_unit (x : K Unit) : (x >>= fun _ => pure ()) = x := by
  funext L s
  rw [bind_apply]
  cases x L s <;> rfl

end K

/-- A result that is there. -/
theorem toOption_ok {α : Type} {x : Except Stop α} {a : α} (h : x.toOption = some a) :
    x = .ok a := by
  cases x with
  | error e => exact absurd h (by simp [Except.toOption])
  | ok b => exact congrArg Except.ok (Option.some.inj h)

/-! ## Accesses -/

/-- `directmap_p2v(ptr)`: physical addresses get the offset, addresses of the upper half
pass through. -/
def directmapP2v (ptr : Nat) : K Nat := fun _ s =>
  .ok (if ptr < pml4KernelHalfBase then (ptr + s.physMapOffset) % 2 ^ 64 else ptr, s)

/-- `v->f`, or an array element or variable at `v`: a dereference of the pointer as it is. -/
def load (v : Nat) (f : Field) : K Nat := fun L s =>
  match L.resolve s.physMapOffset v with
  | some c => .ok (s.mem c f, s)
  | none => .error (.fault v)

/-- `v->f = x`. -/
def store (v : Nat) (f : Field) (x : Nat) : K Unit := fun L s =>
  match L.resolve s.physMapOffset v with
  | some c => .ok ((), { s with mem := s.mem.set c f x })
  | none => .error (.fault v)

/-- `memset(v, 0, n)`. The view maps whole pages, so the start decides. -/
def memsetZero (v n : Nat) : K Unit := fun L s =>
  match L.resolve s.physMapOffset v with
  | some c => .ok ((), { s with mem := s.mem.zero c n })
  | none => .error (.fault v)

/-- `directmap_p2v(ptr)->f`. -/
def p2vLoad (ptr : Nat) (f : Field) : K Nat := do
  load (← directmapP2v ptr) f

/-- `directmap_p2v(ptr)->f = x`. -/
def p2vStore (ptr : Nat) (f : Field) (x : Nat) : K Unit := do
  store (← directmapP2v ptr) f x

/-- `PANIC(msg)`. -/
def kpanic {α : Type} (msg : String) : K α := K.stop (.panic msg)

/-! ## The view rule, once for each access -/

/-- **The translation of a stored pointer is the pointer's own cell**, whichever of its two
values the offset has. Everything below about accesses is this fact. -/
theorem resolve_p2v {L : Layout} {offset : Nat} {p : Nat} (hv : View offset)
    (hp : L.Stored p) :
    L.resolve offset (if p < pml4KernelHalfBase then (p + offset) % 2 ^ 64 else p)
      = some p := by
  rcases hp with hp | hp
  · have hlt : p < physTop := L.phys_lt p hp
    have hhalf : p < pml4KernelHalfBase := by
      unfold pml4KernelHalfBase; unfold physTop at hlt; omega
    rw [if_pos hhalf]
    rcases hv with rfl | rfl
    · have himg : ¬ (L.image p = true) := by
        intro hi
        exact absurd (L.image_ge p hi) (by omega)
      have hmod : (p + 0) % 2 ^ 64 = p := by
        unfold physTop at hlt; omega
      rw [hmod, Layout.resolve, if_neg himg, if_pos ⟨Nat.zero_le _, by simpa using hp⟩]
      rfl
    · have hmod : (p + directMapStart) % 2 ^ 64 = directMapStart + p := by
        unfold physTop at hlt; unfold directMapStart; omega
      have himg : ¬ (L.image (directMapStart + p) = true) := by
        rw [L.image_alias p hp]; simp
      have hsub : directMapStart + p - directMapStart = p := by omega
      rw [hmod, Layout.resolve, if_neg himg, hsub, if_pos ⟨by omega, hp⟩]
  · have hge := L.image_ge p hp
    rw [if_neg (by omega), Layout.resolve, if_pos hp]

theorem p2vLoad_apply {L : Layout} {s : KState} {p : Nat} {f : Field}
    (hv : View s.physMapOffset) (hp : L.Stored p) :
    p2vLoad p f L s = .ok (s.mem p f, s) := by
  show load (if p < pml4KernelHalfBase then (p + s.physMapOffset) % 2 ^ 64 else p) f L s = _
  unfold load
  rw [resolve_p2v hv hp]

theorem p2vStore_apply {L : Layout} {s : KState} {p : Nat} {f : Field} {x : Nat}
    (hv : View s.physMapOffset) (hp : L.Stored p) :
    p2vStore p f x L s = .ok ((), { s with mem := s.mem.set p f x }) := by
  show store (if p < pml4KernelHalfBase then (p + s.physMapOffset) % 2 ^ 64 else p) f x L s = _
  unfold store
  rw [resolve_p2v hv hp]

/-- The kernel image needs no translation. -/
theorem load_image {L : Layout} {s : KState} {a : Nat} {f : Field} (h : L.image a = true) :
    load a f L s = .ok (s.mem a f, s) := by
  unfold load Layout.resolve
  rw [if_pos h]

theorem store_image {L : Layout} {s : KState} {a : Nat} {f : Field} {x : Nat}
    (h : L.image a = true) :
    store a f x L s = .ok ((), { s with mem := s.mem.set a f x }) := by
  unfold store Layout.resolve
  rw [if_pos h]

theorem memsetZero_image {L : Layout} {s : KState} {a n : Nat} (h : L.image a = true) :
    memsetZero a n L s = .ok ((), { s with mem := s.mem.zero a n }) := by
  unfold memsetZero Layout.resolve
  rw [if_pos h]

/-- `memset` through `directmap_p2v`. -/
theorem memsetZero_p2v {L : Layout} {s : KState} {p n : Nat} (hv : View s.physMapOffset)
    (hp : L.Stored p) :
    (do memsetZero (← directmapP2v p) n : K Unit) L s
      = .ok ((), { s with mem := s.mem.zero p n }) := by
  show memsetZero (if p < pml4KernelHalfBase then (p + s.physMapOffset) % 2 ^ 64 else p) n L s = _
  unfold memsetZero
  rw [resolve_p2v hv hp]

/-! ## A small machine -/

/-- RAM from 4MB to 8MB, the kernel at its usual place. -/
def smallLayout : Layout where
  phys p := decide (0x400000 ≤ p ∧ p < 0x800000)
  image a := decide (kernelImageStart ≤ a ∧ a < 0xFFFFFFFF80200000 + metadataSpan)
  kernelEnd := 0xFFFFFFFF80200000
  phys_lt p h := by
    have := of_decide_eq_true h
    unfold physTop
    omega
  image_ge a h := by
    have := of_decide_eq_true h
    unfold kernelImageStart at this
    unfold pml4KernelHalfBase
    omega
  image_lt a h := by
    have := of_decide_eq_true h
    unfold metadataSpan at this
    omega
  image_alias p h := by
    have := of_decide_eq_true h
    refine decide_eq_false ?_
    unfold kernelImageStart directMapStart
    omega
  metadata_image i h := decide_eq_true ⟨by unfold kernelImageStart; omega, by omega⟩

theorem small_base_ne : 0x400000 ≠ 0 := by decide

theorem smallLayout_phys (a : Nat) (h1 : 0x400000 ≤ a) (h2 : a < 0x400000 + 0x400000) :
    smallLayout.phys a = true :=
  decide_eq_true ⟨h1, by omega⟩

end MikroKernel
