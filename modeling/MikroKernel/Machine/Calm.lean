import MikroKernel.Machine.Spinlock

/-!
# What a piece of code can never do, wherever it starts

The judgments of `Machine/Effect.lean` are about code that starts in a good state: they need an
invariant, and a proof that it survives each line. The three here are about any state at all, and
are read off the code: they are classes, with an instance for each way code is put together, so that
for most functions they are inferred from the text of the function and nothing is proved by hand.

* `Plain x`: `x` changes nothing but memory, and never spins. This is the inside of a critical
  section.
* `Calm x`: `x` leaves the offset alone, leaves a free lock free and a held one held, and spins only
  if `buddy_lock` or `slab_lock` was not free when it started. This is a balanced call.
* `Spares keep x`: `x` stores into no cell of a field in `keep`.

What they are for: a caller of the allocators keeps nothing about them but that the two locks are
free between calls. `Calm` carries that through a run whatever the allocator's books look like, so
that a proof about page tables or slabs does not have to start from sound free lists to know that
`phys_kmalloc` comes back with its locks released.

A panic or a page fault satisfies all three: it is a stop that is not a spin. How a stopped run is
ruled out, or tied to a failed allocation, is the business of the judgments that start in a good
state.
-/

set_option autoImplicit false

namespace MikroKernel

variable {α β : Type}

/-! ## Plain code -/

/-- What plain code may do in state `s`: return with a new memory and all else as it was, or stop
without spinning. The new state is named through `s` so that a `rw` with it removes `s'`
altogether. -/
def PlainAt (s : KState) : Except Stop (α × KState) → Prop
  | .ok (_, s') => s' = { s with mem := s'.mem }
  | .error e => e ≠ .spin

/-- `x` changes nothing but memory and waits for nothing, from any state of any machine. -/
class Plain (x : K α) : Prop where
  plain : ∀ L s, PlainAt s (x L s)

namespace Plain

/-- Plain code that returned has changed memory alone. -/
theorem result {x : K α} [h : Plain x] {L : Layout} {s s' : KState} {a : α}
    (hrun : x L s = .ok (a, s')) : s' = { s with mem := s'.mem } := by
  have := h.plain L s
  rwa [hrun] at this

instance pure (a : α) : Plain (Pure.pure a : K α) := ⟨fun _ _ => rfl⟩

/-- Two pieces in a row. The second is taken to be plain for every result of the first, which is
more than is needed, but it is what the text of a `do` block shows without running it. -/
instance bind (x : K α) (f : α → K β) [hx : Plain x] [hf : ∀ a, Plain (f a)] : Plain (x >>= f) := by
  refine ⟨fun L s => ?_⟩
  have h := hx.plain L s
  rw [K.bind_apply]
  cases hrun : x L s with
  | error e => rwa [hrun] at h
  | ok p =>
    obtain ⟨a, s'⟩ := p
    rw [hrun] at h
    have h' := (hf a).plain L s'
    cases hrun' : f a L s' with
    | error e =>
      rw [hrun'] at h'
      simp only [hrun']
      exact h'
    | ok q =>
      obtain ⟨b, s''⟩ := q
      rw [hrun'] at h'
      simp only [hrun']
      -- two updates of memory in a row are one, and the first is lost in the second
      show s'' = { s with mem := s''.mem }
      rw [show s'' = { s' with mem := s''.mem } from h', show s' = { s with mem := s'.mem } from h]

instance ite (c : Prop) [Decidable c] (x y : K α) [hx : Plain x] [hy : Plain y] :
    Plain (if c then x else y) := by
  split
  · exact hx
  · exact hy

/-! The three accesses: each faults where nothing is mapped, and a fault is no spin. -/

instance load (v : Nat) (f : Field) : Plain (MikroKernel.load v f) := by
  refine ⟨fun L s => ?_⟩
  unfold MikroKernel.load
  cases L.resolve s.physMapOffset v <;> simp [PlainAt]

instance store (v : Nat) (f : Field) (x : Nat) : Plain (MikroKernel.store v f x) := by
  refine ⟨fun L s => ?_⟩
  unfold MikroKernel.store
  cases L.resolve s.physMapOffset v <;> simp [PlainAt]

instance memsetZero (v n : Nat) : Plain (MikroKernel.memsetZero v n) := by
  refine ⟨fun L s => ?_⟩
  unfold MikroKernel.memsetZero
  cases L.resolve s.physMapOffset v <;> simp [PlainAt]

instance directmapP2v (p : Nat) : Plain (MikroKernel.directmapP2v p) := ⟨fun _ _ => rfl⟩

instance p2vLoad (p : Nat) (f : Field) : Plain (MikroKernel.p2vLoad p f) := by
  unfold MikroKernel.p2vLoad
  infer_instance

instance p2vStore (p : Nat) (f : Field) (x : Nat) : Plain (MikroKernel.p2vStore p f x) := by
  unfold MikroKernel.p2vStore
  infer_instance

end Plain

/-! ## Calm code -/

/-- The two locks of the allocators are free. -/
structure Unlocked (s : KState) : Prop where
  buddy : (s.lock .buddyLock).Free
  slab : (s.lock .slabLock).Free

/-- What calm code may do to the state. `Quiet` has the offset and that a free lock is free again
after; `held` adds the other half, that no one else's lock was released on the way. -/
structure Settled (s s' : KState) : Prop extends Quiet s s' where
  held : ∀ id, (s.lock id).Held → (s'.lock id).Held

theorem Settled.refl (s : KState) : Settled s s := ⟨Quiet.refl s, fun _ h => h⟩

theorem Settled.trans {s₁ s₂ s₃ : KState} (h₁ : Settled s₁ s₂) (h₂ : Settled s₂ s₃) :
    Settled s₁ s₃ := ⟨h₁.toQuiet.trans h₂.toQuiet, fun id h => h₂.held id (h₁.held id h)⟩

theorem Settled.unlocked {s s' : KState} (h : Settled s s') (hu : Unlocked s) : Unlocked s' :=
  ⟨h.free _ hu.buddy, h.free _ hu.slab⟩

/-- What calm code may do in state `s`: return with the state settled, or stop. It may stop by
spinning only where one of the two locks was already taken, so that a caller that holds neither
never sees it spin. -/
def CalmAt (s : KState) : Except Stop (α × KState) → Prop
  | .ok (_, s') => Settled s s'
  | .error e => e = .spin → ¬ Unlocked s

/-- `x` is balanced in its locks, from any state of any machine. -/
class Calm (x : K α) : Prop where
  calm : ∀ L s, CalmAt s (x L s)

namespace Calm

/-- Calm code that returned has left the offset and the locks as they were. -/
theorem result {x : K α} [h : Calm x] {L : Layout} {s s' : KState} {a : α}
    (hrun : x L s = .ok (a, s')) : Settled s s' := by
  have := h.calm L s
  rwa [hrun] at this

/-- A call that starts with both locks free does not wait for ever. -/
theorem ne_spin {x : K α} [h : Calm x] {L : Layout} {s : KState} (hu : Unlocked s) :
    x L s ≠ .error .spin := by
  intro hrun
  have := h.calm L s
  rw [hrun] at this
  exact this rfl hu

/-- Plain code is calm. The priority is low so that a `do` block is first taken apart as calm code:
a block with a critical section in it is not plain, and the search would try each of its tails
twice. -/
instance (priority := low) ofPlain (x : K α) [h : Plain x] : Calm x := by
  refine ⟨fun L s => ?_⟩
  have := h.plain L s
  cases hrun : x L s with
  | error e =>
    rw [hrun] at this
    exact fun he => absurd he this
  | ok p =>
    obtain ⟨a, s'⟩ := p
    rw [hrun] at this
    rw [show s' = { s with mem := s'.mem } from this]
    exact ⟨Quiet.setMem s _, fun _ h => h⟩

instance bind (x : K α) (f : α → K β) [hx : Calm x] [hf : ∀ a, Calm (f a)] : Calm (x >>= f) := by
  refine ⟨fun L s => ?_⟩
  have h := hx.calm L s
  rw [K.bind_apply]
  cases hrun : x L s with
  | error e => rwa [hrun] at h
  | ok p =>
    obtain ⟨a, s'⟩ := p
    rw [hrun] at h
    have h' := (hf a).calm L s'
    cases hrun' : f a L s' with
    | error e =>
      rw [hrun'] at h'
      simp only [hrun']
      -- the second piece spins on a taken lock; the first would have left it free
      exact fun he hu => h' he (Settled.unlocked h hu)
    | ok q =>
      obtain ⟨b, s''⟩ := q
      rw [hrun'] at h'
      simp only [hrun']
      exact Settled.trans h h'

instance ite (c : Prop) [Decidable c] (x y : K α) [hx : Calm x] [hy : Calm y] :
    Calm (if c then x else y) := by
  split
  · exact hx
  · exact hy

end Calm

theorem Spinlock.Held.not_free {lk : Spinlock} (h : lk.Held) : ¬ lk.Free := by
  unfold Spinlock.Held at h
  unfold Spinlock.Free
  omega

/-- Acquiring a lock that is not free waits for ever. -/
theorem spinlockAcquire_not_free {L : Layout} {s : KState} {id : LockId}
    (h : ¬ (s.lock id).Free) : spinlockAcquire id L s = .error .spin := by
  unfold spinlockAcquire
  exact if_neg (fun he => h he.symm)

/-- A critical section that returned. -/
theorem locked_ok {id : LockId} {x : K α} {L : Layout} {s s' : KState} {a : α}
    (hrun : locked id x L s = .ok (a, s')) :
    ∃ s₁, (s.lock id).Free ∧ x L (s.acquired id) = .ok (a, s₁) ∧ s' = s₁.released id := by
  unfold locked at hrun
  by_cases hfree : (s.lock id).Free
  · rw [K.bind_ok (spinlockAcquire_free hfree)] at hrun
    obtain ⟨b, s₁, hx, hrest⟩ := K.bind_eq_ok.mp hrun
    obtain ⟨rfl, rfl⟩ := Prod.mk.inj (Except.ok.inj hrest)
    exact ⟨s₁, hfree, hx, rfl⟩
  · rw [K.bind_apply, spinlockAcquire_not_free hfree] at hrun
    exact absurd hrun (by simp)

/-- **A critical section is calm** if its inside is plain. The lock has to be one of the two that
`Unlocked` speaks of: a section under `kernel_page_lock` can spin with both of them free. -/
theorem Calm.locked (id : LockId) (hid : id = .buddyLock ∨ id = .slabLock) (x : K α)
    [hx : Plain x] : Calm (MikroKernel.locked id x) := by
  refine ⟨fun L s => ?_⟩
  by_cases hfree : (s.lock id).Free
  · unfold MikroKernel.locked
    rw [K.bind_ok (spinlockAcquire_free hfree), K.bind_apply]
    have h := hx.plain L (s.acquired id)
    cases hrun : x L (s.acquired id) with
    | error e =>
      rw [hrun] at h
      exact fun he => absurd he h
    | ok p =>
      obtain ⟨a, s'⟩ := p
      rw [hrun] at h
      rw [show s' = { s.acquired id with mem := s'.mem } from h]
      -- the section's own lock was free, so a lock that was held is another, which no one touched
      refine ⟨s.quiet_section id s'.mem, fun j hj => ?_⟩
      have hji : j ≠ id := fun he => (he ▸ hj).not_free hfree
      simpa [KState.released, KState.acquired, Function.update_of_ne hji] using hj
  -- the lock is taken: the call waits for ever, which is allowed only because it was
  · have hrun : MikroKernel.locked id x L s = .error .spin := by
      unfold MikroKernel.locked
      rw [K.bind_apply, spinlockAcquire_not_free hfree]
    rw [hrun]
    rintro - hu
    rcases hid with rfl | rfl
    · exact hfree hu.buddy
    · exact hfree hu.slab

instance Calm.lockedBuddy (x : K α) [Plain x] : Calm (MikroKernel.locked .buddyLock x) :=
  Calm.locked _ (Or.inl rfl) x

instance Calm.lockedSlab (x : K α) [Plain x] : Calm (MikroKernel.locked .slabLock x) :=
  Calm.locked _ (Or.inr rfl) x

/-! ## Fields that are left alone -/

/-- Code that stores into no cell of the fields in `keep`. The other two judgments say nothing about
memory; this one says of which fields a whole run leaves every cell alone, wherever it is. It is how
`buddy_kalloc` is seen to leave the slabs alone, and a splice of a list all but the links. -/
class Spares (keep : Field → Bool) (x : K α) : Prop where
  spares : ∀ {L : Layout} {s s' : KState} {a : α}, x L s = .ok (a, s') →
    ∀ v f, keep f = true → s'.mem v f = s.mem v f

namespace Spares

variable {keep : Field → Bool}

/-- Code that leaves the state alone spares every field. -/
theorem of_same {x : K α}
    (hx : ∀ {L : Layout} {s s' : KState} {a : α}, x L s = .ok (a, s') → s' = s) :
    Spares keep x :=
  ⟨fun hrun _ _ _ => by rw [hx hrun]⟩

instance pure (a : α) : Spares keep (Pure.pure a : K α) :=
  of_same (fun hrun => (Prod.mk.inj (Except.ok.inj hrun)).2.symm)

instance bind (x : K α) (f : α → K β) [hx : Spares keep x] [hf : ∀ a, Spares keep (f a)] :
    Spares keep (x >>= f) := by
  refine ⟨fun hrun v fd hfd => ?_⟩
  obtain ⟨a, s₁, hrun₁, hrun₂⟩ := K.bind_eq_ok.mp hrun
  exact ((hf a).spares hrun₂ v fd hfd).trans (hx.spares hrun₁ v fd hfd)

instance ite (c : Prop) [Decidable c] (x y : K α) [hx : Spares keep x] [hy : Spares keep y] :
    Spares keep (if c then x else y) := by
  split
  · exact hx
  · exact hy

instance load (v : Nat) (f : Field) : Spares keep (MikroKernel.load v f) := by
  refine of_same (fun {L s s' a} hrun => ?_)
  unfold MikroKernel.load at hrun
  cases hres : L.resolve s.physMapOffset v with
  | none =>
    rw [hres] at hrun
    exact absurd hrun (by simp)
  | some p =>
    rw [hres] at hrun
    exact (Prod.mk.inj (Except.ok.inj hrun)).2.symm

/-- A store spares the fields it is not to. This is a theorem and not an instance: that the field is
outside `keep` is a computation, which the search does not make. -/
theorem store {v : Nat} {f : Field} {x : Nat} (hf : keep f = false) :
    Spares keep (MikroKernel.store v f x) := by
  refine ⟨fun {L s s' a} hrun w g hg => ?_⟩
  unfold MikroKernel.store at hrun
  cases hres : L.resolve s.physMapOffset v with
  | none =>
    rw [hres] at hrun
    exact absurd hrun (by simp)
  | some p =>
    rw [hres] at hrun
    obtain ⟨-, rfl⟩ := Prod.mk.inj (Except.ok.inj hrun)
    exact Mem.set_ne (Or.inr (fun he => by rw [he, hf] at hg; exact absurd hg (by decide)))

instance directmapP2v (p : Nat) : Spares keep (MikroKernel.directmapP2v p) :=
  of_same (fun hrun => (Prod.mk.inj (Except.ok.inj hrun)).2.symm)

instance p2vLoad (p : Nat) (f : Field) : Spares keep (MikroKernel.p2vLoad p f) := by
  unfold MikroKernel.p2vLoad
  infer_instance

theorem p2vStore {p : Nat} {f : Field} {x : Nat} (hf : keep f = false) :
    Spares keep (MikroKernel.p2vStore p f x) := by
  have := fun v => store (v := v) (x := x) hf
  unfold MikroKernel.p2vStore
  infer_instance

instance locked (id : LockId) (x : K α) [hx : Spares keep x] :
    Spares keep (MikroKernel.locked id x) := by
  refine ⟨fun {L s s' a} hrun v f hf => ?_⟩
  obtain ⟨s₁, -, hsec, rfl⟩ := locked_ok hrun
  exact hx.spares hsec v f hf

end Spares

end MikroKernel
