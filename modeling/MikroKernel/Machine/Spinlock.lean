import MikroKernel.Machine.Basic

/-!
# `spinlocks.asm` — the ticket lock

The three routines, instruction by instruction where the order of memory accesses matters.
The atomic pieces (`cli`, `Spinlock.xadd`, `Spinlock.serve`) are shared by two readings:

* `spinlockAcquire`/`spinlockRelease` below run them for **one** CPU inside the kernel
  monad. There the spin loop either finds its ticket served at the first comparison or waits
  for ever, which is `Stop.spin`;
* `Proof/TicketLock.lean` interleaves them over any number of CPUs.
-/

set_option autoImplicit false

namespace MikroKernel

/-- `cli`: clear the interrupt flag, bit 9 of `rflags`. -/
def cli (rflags : Nat) : Nat := if rflags.testBit 9 then rflags - 2 ^ 9 else rflags

namespace Spinlock

/-- `spinlock_init`. -/
def init : Spinlock := { ticket := 0, serving := 0, cpuId := 0xffffffff, rflags := 0 }

/-- `lock xadd word [rdi], ax` with `ax = 1`: draw a ticket. -/
def xadd (lk : Spinlock) : Nat × Spinlock :=
  (lk.ticket, { lk with ticket := (lk.ticket + 1) % 2 ^ 16 })

/-- The two stores after a successful comparison: `rflags`, then the APIC id. -/
def enter (lk : Spinlock) (rflags apicId : Nat) : Spinlock :=
  { lk with rflags := rflags, cpuId := apicId % 2 ^ 8 }

/-- The stores of `spinlock_release` before `popfq`: forget the owner, serve the next. -/
def serve (lk : Spinlock) : Spinlock :=
  { lk with cpuId := 0xffffffff, serving := (lk.serving + 1) % 2 ^ 16 }

/-- Nobody holds the lock or waits for it. -/
def Free (lk : Spinlock) : Prop := lk.ticket = lk.serving

/-- One CPU holds the lock and nobody waits. -/
def Held (lk : Spinlock) : Prop := lk.ticket = (lk.serving + 1) % 2 ^ 16

end Spinlock

/-- `spinlock_init(&lk)`. -/
def spinlockInit (id : LockId) : K Unit := fun _ s =>
  .ok ((), { s with lock := Function.update s.lock id Spinlock.init })

/-- `spinlock_acquire(&lk)` on the only running CPU. -/
def spinlockAcquire (id : LockId) : K Unit := fun _ s =>
  let (ax, lk) := (s.lock id).xadd
  if lk.serving = ax then
    .ok ((), { s with
      rflags := cli s.rflags
      lock := Function.update s.lock id (lk.enter s.rflags s.apicId) })
  else .error .spin

/-- `spinlock_release(&lk)`. -/
def spinlockRelease (id : LockId) : K Unit := fun _ s =>
  .ok ((), { s with
    rflags := (s.lock id).rflags
    lock := Function.update s.lock id (s.lock id).serve })

/-! ## A critical section on one CPU

`locked` is the shape every critical section without an early exit has. What the allocator
proofs need of it is one fact: from a free lock it runs the section and leaves the lock free,
the other locks and the flags as they were. -/

/-- `spinlock_acquire(&lk); …; spinlock_release(&lk);` -/
def locked {α : Type} (id : LockId) (x : K α) : K α := do
  spinlockAcquire id
  let a ← x
  spinlockRelease id
  pure a

/-- The state inside a section of a free lock. -/
def KState.acquired (s : KState) (id : LockId) : KState :=
  { s with
    rflags := cli s.rflags
    lock := Function.update s.lock id ((s.lock id).xadd.2.enter s.rflags s.apicId) }

/-- The state after the section. -/
def KState.released (s : KState) (id : LockId) : KState :=
  { s with
    rflags := (s.lock id).rflags
    lock := Function.update s.lock id (s.lock id).serve }

theorem spinlockAcquire_free {L : Layout} {s : KState} {id : LockId}
    (h : (s.lock id).Free) : spinlockAcquire id L s = .ok ((), s.acquired id) := by
  unfold spinlockAcquire
  exact if_pos h.symm

@[simp] theorem spinlockRelease_apply (L : Layout) (s : KState) (id : LockId) :
    spinlockRelease id L s = .ok ((), s.released id) := rfl

@[simp] theorem KState.acquired_mem (s : KState) (id : LockId) :
    (s.acquired id).mem = s.mem := rfl

@[simp] theorem KState.acquired_physMapOffset (s : KState) (id : LockId) :
    (s.acquired id).physMapOffset = s.physMapOffset := rfl

@[simp] theorem KState.acquired_blocks (s : KState) (id : LockId) :
    (s.acquired id).blocks = s.blocks := rfl

@[simp] theorem KState.released_mem (s : KState) (id : LockId) :
    (s.released id).mem = s.mem := rfl

@[simp] theorem KState.released_physMapOffset (s : KState) (id : LockId) :
    (s.released id).physMapOffset = s.physMapOffset := rfl

@[simp] theorem KState.released_blocks (s : KState) (id : LockId) :
    (s.released id).blocks = s.blocks := rfl

theorem KState.acquired_lock_ne {s : KState} {id j : LockId} (h : j ≠ id) :
    (s.acquired id).lock j = s.lock j := Function.update_of_ne h _ _

theorem KState.released_lock_ne {s : KState} {id j : LockId} (h : j ≠ id) :
    (s.released id).lock j = s.lock j := Function.update_of_ne h _ _

/-- A section that leaves its lock alone releases it free. -/
theorem KState.released_free {s s₁ : KState} {id : LockId} (h : (s.lock id).Free)
    (hkept : s₁.lock id = (s.acquired id).lock id) : ((s₁.released id).lock id).Free := by
  unfold Spinlock.Free at h ⊢
  simp [KState.released, hkept, KState.acquired, Spinlock.serve, Spinlock.enter, Spinlock.xadd, h]

/-- What a balanced critical section changes besides memory: the counters of its own lock
moved one round, everything else is as before. `Quiet` is the relation between the state
before and after, and it composes. -/
structure Quiet (s s' : KState) : Prop where
  offset : s'.physMapOffset = s.physMapOffset
  blocks : s'.blocks = s.blocks
  free : ∀ id, (s.lock id).Free → (s'.lock id).Free

theorem Quiet.refl (s : KState) : Quiet s s := ⟨rfl, rfl, fun _ h => h⟩

theorem Quiet.trans {s₁ s₂ s₃ : KState} (h₁ : Quiet s₁ s₂) (h₂ : Quiet s₂ s₃) :
    Quiet s₁ s₃ :=
  ⟨h₂.offset.trans h₁.offset, h₂.blocks.trans h₁.blocks,
    fun id h => h₂.free id (h₁.free id h)⟩

theorem Quiet.setMem (s : KState) (m : Mem) : Quiet s { s with mem := m } :=
  ⟨rfl, rfl, fun _ h => h⟩

/-- Acquire and release leave every free lock free. -/
theorem KState.quiet_section (s : KState) (id : LockId) (m : Mem) :
    Quiet s (KState.released { s.acquired id with mem := m } id) := by
  refine ⟨rfl, rfl, ?_⟩
  intro j hj
  by_cases hij : j = id
  · subst hij
    unfold Spinlock.Free at hj ⊢
    simp [KState.released, KState.acquired, Spinlock.serve, Spinlock.enter, Spinlock.xadd, hj]
  · simpa [KState.released, KState.acquired, Function.update_of_ne hij] using hj

/-- **A critical section that only changes memory** runs from a free lock and leaves it free. -/
theorem locked_apply {α : Type} {id : LockId} {x : K α} {L : Layout} {s : KState} {a : α}
    {m : Mem} (hfree : (s.lock id).Free)
    (hx : x L (s.acquired id) = .ok (a, { s.acquired id with mem := m })) :
    ∃ s', locked id x L s = .ok (a, s') ∧ s'.mem = m ∧ Quiet s s' := by
  refine ⟨KState.released { s.acquired id with mem := m } id, ?_, rfl, s.quiet_section id m⟩
  unfold locked
  rw [K.bind_ok (spinlockAcquire_free hfree), K.bind_ok hx]
  rfl

/-- The small machine before anything ran. -/
def bootState : KState where
  mem _ _ := 0
  physMapOffset := 0
  lock _ := Spinlock.init
  rflags := 0x202
  apicId := 0
  blocks := []

end MikroKernel
