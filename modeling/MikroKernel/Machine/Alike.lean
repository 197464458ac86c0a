import MikroKernel.Machine.Spinlock

/-!
# Two runs that cannot be told apart

`Alike L R x y R'`: from two states related by `R`, `x` and `y` both return, with the same value and
states related by `R'`, or both stop, and for the same reason. It is `Lockstep` in both directions,
stops included.

The relation is mostly that the states agree but for what a `Mask` takes out: cells whose contents
are unknown, locks that are not initialised yet, the ghost. `Unaware M L x y` is for code that stays
within it, and is a class, so that it follows from how the code is put together. What has to be said
of code is where it loads from (`Seen`) and what it stores to (`Kept`).
-/

set_option autoImplicit false

namespace MikroKernel

variable {α β : Type} {L : Layout}

/-- The same value and related states, or the same reason to stop. -/
def SameOutcome (R : α → KState → KState → Prop) :
    Except Stop (α × KState) → Except Stop (α × KState) → Prop
  | .ok (a, s), .ok (b, t) => a = b ∧ R a s t
  | .error e, .error e' => e = e'
  | _, _ => False

def Alike (L : Layout) (R : KState → KState → Prop) (x y : K α) (R' : α → KState → KState → Prop) :
    Prop :=
  ∀ ⦃s t : KState⦄, R s t → SameOutcome R' (x L s) (y L t)

namespace Alike

variable {R R₀ : KState → KState → Prop} {R₁ R' R'' : α → KState → KState → Prop}
  {S : β → KState → KState → Prop} {x y : K α} {f g : α → K β}

theorem pure {a : α} (h : ∀ s t, R s t → R' a s t) : Alike L R (Pure.pure a) (Pure.pure a) R' :=
  fun s t hst => ⟨rfl, h s t hst⟩

/-- **Sequencing**: the second halves start where the first halves returned, or there are none. -/
theorem bind (hx : Alike L R x y R₁) (hf : ∀ a, Alike L (R₁ a) (f a) (g a) S) :
    Alike L R (x >>= f) (y >>= g) S := by
  intro s t hst
  have h := hx hst
  rw [K.bind_apply, K.bind_apply]
  cases hrun : x L s with
  | error e =>
    cases hrun' : y L t with
    | error e' => rwa [hrun, hrun'] at h
    | ok q => simp [hrun, hrun', SameOutcome] at h
  | ok p =>
    cases hrun' : y L t with
    | error e' => simp [hrun, hrun', SameOutcome] at h
    | ok q =>
      rw [hrun, hrun'] at h
      obtain ⟨a, s₁⟩ := p
      obtain ⟨b, t₁⟩ := q
      obtain ⟨rfl, hst₁⟩ := h
      exact hf a hst₁

theorem mono (h : Alike L R x y R') (hpre : ∀ s t, R₀ s t → R s t)
    (hpost : ∀ a s t, R' a s t → R'' a s t) :
    Alike L R₀ x y R'' := by
  intro s t hst
  have hout := h (hpre s t hst)
  cases hrun : x L s with
  | error e =>
    cases hrun' : y L t with
    | error e' => rwa [hrun, hrun'] at hout
    | ok q => simp [hrun, hrun', SameOutcome] at hout
  | ok p =>
    cases hrun' : y L t with
    | error e' => simp [hrun, hrun', SameOutcome] at hout
    | ok q =>
      rw [hrun, hrun'] at hout
      exact ⟨hout.1, hpost _ _ _ hout.2⟩

theorem ite {c : Prop} [Decidable c] {x₁ y₁ x₂ y₂ : K α} (h₁ : c → Alike L R x₁ y₁ R')
    (h₂ : ¬ c → Alike L R x₂ y₂ R') :
    Alike L R (if c then x₁ else x₂) (if c then y₁ else y₂) R' := by
  split
  · exact h₁ ‹_›
  · exact h₂ ‹_›

theorem stop {e : Stop} : Alike L R (K.stop e) (K.stop e) R' := fun _ _ _ => rfl

theorem refl (x : K α) : Alike L (fun s t => t = s) x x (fun _ s t => t = s) := by
  rintro s t rfl
  cases x L t with
  | error e => exact rfl
  | ok p => exact ⟨rfl, rfl⟩

/-- What is known of the states beforehand may be used. -/
theorem given {P : Prop} (h : P → Alike L R x y R') : Alike L (fun s t => P ∧ R s t) x y R' :=
  fun _ _ hst => h hst.1 hst.2

/-- If one run returns, so does the other. -/
theorem returned {s t s' : KState} {a : α} (h : Alike L R x y R') (hst : R s t)
    (hrun : x L s = .ok (a, s')) :
    ∃ t', y L t = .ok (a, t') ∧ R' a s' t' := by
  have hout := h hst
  rw [hrun] at hout
  cases hrun' : y L t with
  | error e => simp [hrun', SameOutcome] at hout
  | ok q =>
    rw [hrun'] at hout
    obtain ⟨b, t'⟩ := q
    obtain ⟨rfl, hst'⟩ := hout
    exact ⟨t', rfl, hst'⟩

/-- Runs that end in equal states are equal. -/
theorem eq {s t : KState} (h : Alike L R x y (fun _ s t => t = s)) (hst : R s t) :
    y L t = x L s := by
  have hout := h hst
  cases hrun : x L s with
  | error e =>
    cases hrun' : y L t with
    | error e' =>
      rw [hrun, hrun'] at hout
      exact congrArg Except.error (Eq.symm hout)
    | ok q => simp [hrun, hrun', SameOutcome] at hout
  | ok p =>
    cases hrun' : y L t with
    | error e' => simp [hrun, hrun', SameOutcome] at hout
    | ok q =>
      rw [hrun, hrun'] at hout
      obtain ⟨a, s'⟩ := p
      obtain ⟨b, t'⟩ := q
      obtain ⟨rfl, rfl⟩ := hout
      rfl

end Alike

/-! ## What the states need not agree on -/

/-- What is taken out of a comparison of two states: the contents of some cells, some locks, and
whatever `blocks` allows of the ghost. `held` is what is known of the memory of both. -/
structure Mask where
  hidden : Nat → Field → Prop
  loose : LockId → Prop
  held : Mem → Prop
  blocks : List Block → List Block → Prop

/-- The states agree on the rest. -/
structure Masked (M : Mask) (s t : KState) : Prop where
  mem : ∀ a f, ¬ M.hidden a f → t.mem a f = s.mem a f
  held : M.held s.mem
  lock : ∀ id, ¬ M.loose id → t.lock id = s.lock id
  offset : t.physMapOffset = s.physMapOffset
  rflags : t.rflags = s.rflags
  apicId : t.apicId = s.apicId
  blocks : M.blocks s.blocks t.blocks

section

variable {M : Mask} {s t : KState} {v p x n : Nat} {f : Field}

/-- A load from `v` is not from a hidden cell. -/
class Seen (M : Mask) (L : Layout) (v : Nat) (f : Field) : Prop where
  seen : ∀ off c, L.resolve off v = some c → ¬ M.hidden c f

/-- A store to `v` keeps what is known. -/
class Kept (M : Mask) (L : Layout) (v : Nat) (f : Field) : Prop where
  kept : ∀ off c x m, L.resolve off v = some c → M.held m → M.held (m.set c f x)

/-- A field with no hidden cell, and that nothing is known of. -/
class Open (M : Mask) (f : Field) : Prop where
  seen : ∀ c, ¬ M.hidden c f
  kept : ∀ m c x, M.held m → M.held (m.set c f x)

instance Open.toSeen [h : Open M f] : Seen M L v f := ⟨fun _ c _ => h.seen c⟩

instance Open.toKept [h : Open M f] : Kept M L v f := ⟨fun _ c x m _ => h.kept m c x⟩

/-- Nothing is taken out. -/
theorem Masked.eq (h : Masked M s t) (hmem : ∀ a f, ¬ M.hidden a f) (hlock : ∀ id, ¬ M.loose id)
    (hblocks : t.blocks = s.blocks) : t = s := by
  have h1 : t.mem = s.mem := by
    funext a f
    exact h.mem a f (hmem a f)
  have h2 : t.lock = s.lock := by
    funext id
    exact h.lock id (hlock id)
  obtain ⟨m, o, l, r, i, b⟩ := s
  obtain ⟨m', o', l', r', i', b'⟩ := t
  obtain rfl : m' = m := h1
  obtain rfl : l' = l := h2
  obtain rfl : o' = o := h.offset
  obtain rfl : r' = r := h.rflags
  obtain rfl : i' = i := h.apicId
  obtain rfl : b' = b := hblocks
  rfl

/-- A store on both sides, after which the cell is the same. -/
theorem Masked.set (h : Masked M s t) {a : Nat} (hheld : M.held (s.mem.set a f x)) :
    Masked M { s with mem := s.mem.set a f x } { t with mem := t.mem.set a f x } := by
  refine ⟨fun b g hb => ?_, hheld, h.lock, h.offset, h.rflags, h.apicId, h.blocks⟩
  show t.mem.set a f x b g = s.mem.set a f x b g
  rw [Mem.set_apply, Mem.set_apply, h.mem b g hb]

theorem Masked.zero {a : Nat} (h : Masked M s t) (hheld : M.held (s.mem.zero a n)) :
    Masked M { s with mem := s.mem.zero a n } { t with mem := t.mem.zero a n } := by
  refine ⟨fun b g hb => ?_, hheld, h.lock, h.offset, h.rflags, h.apicId, h.blocks⟩
  show t.mem.zero a n b g = s.mem.zero a n b g
  unfold Mem.zero
  rw [h.mem b g hb]

/-- One lock gets the same value on both sides. -/
theorem Masked.update (h : Masked M s t) (id : LockId) (lk : Spinlock) {j : LockId}
    (hj : ¬ M.loose j ∨ j = id) :
    Function.update t.lock id lk j = Function.update s.lock id lk j := by
  by_cases hji : j = id
  · rw [hji, Function.update_self, Function.update_self]
  · rw [Function.update_of_ne hji, Function.update_of_ne hji]
    exact h.lock j (hj.resolve_right hji)

theorem Masked.acquired {id : LockId} (h : Masked M s t) (hid : ¬ M.loose id) :
    Masked M (s.acquired id) (t.acquired id) := by
  refine ⟨h.mem, h.held, fun j hj => ?_, h.offset, congrArg cli h.rflags, h.apicId, h.blocks⟩
  show Function.update t.lock id ((t.lock id).xadd.2.enter t.rflags t.apicId) j = _
  rw [h.lock id hid, h.rflags, h.apicId]
  exact h.update id _ (Or.inl hj)

theorem Masked.released {id : LockId} (h : Masked M s t) (hid : ¬ M.loose id) :
    Masked M (s.released id) (t.released id) := by
  refine ⟨h.mem, h.held, fun j hj => ?_, h.offset, congrArg Spinlock.rflags (h.lock id hid),
    h.apicId, h.blocks⟩
  show Function.update t.lock id (t.lock id).serve j = _
  rw [h.lock id hid]
  exact h.update id _ (Or.inl hj)

theorem Masked.resolve (h : Masked M s t) (v : Nat) :
    L.resolve t.physMapOffset v = L.resolve s.physMapOffset v := by rw [h.offset]

/-- A load, with what is known of its value. -/
theorem alike_load {Q : Nat → Prop} [hv : Seen M L v f]
    (hq : ∀ off c m, L.resolve off v = some c → M.held m → Q (m c f)) :
    Alike L (Masked M) (load v f) (load v f) (fun a s t => Q a ∧ Masked M s t) := by
  intro s t h
  unfold load
  rw [h.resolve v]
  cases hres : L.resolve s.physMapOffset v with
  | none => exact rfl
  | some c => exact ⟨(h.mem c f (hv.seen _ c hres)).symm, hq _ c _ hres h.held, h⟩

/-- A store, which may change what is known. -/
theorem alike_store {N : Mask}
    (hst : ∀ {s t} c, L.resolve s.physMapOffset v = some c → Masked M s t →
    Masked N { s with mem := s.mem.set c f x } { t with mem := t.mem.set c f x }) :
    Alike L (Masked M) (store v f x) (store v f x) (fun _ => Masked N) := by
  intro s t h
  unfold store
  rw [h.resolve v]
  cases hres : L.resolve s.physMapOffset v with
  | none => exact rfl
  | some c => exact ⟨rfl, hst c hres h⟩

theorem alike_memset (hheld : ∀ off c m, L.resolve off v = some c → M.held m →
      M.held (m.zero c n)) :
    Alike L (Masked M) (memsetZero v n) (memsetZero v n) (fun _ => Masked M) := by
  intro s t h
  unfold memsetZero
  rw [h.resolve v]
  cases hres : L.resolve s.physMapOffset v with
  | none => exact rfl
  | some c => exact ⟨rfl, h.zero (hheld _ c _ hres h.held)⟩

theorem alike_directmapP2v (p : Nat) :
    Alike L (Masked M) (directmapP2v p) (directmapP2v p) (fun _ => Masked M) := by
  intro s t h
  unfold directmapP2v
  rw [h.offset]
  exact ⟨rfl, h⟩

theorem alike_acquire {id : LockId} (hid : ¬ M.loose id) :
    Alike L (Masked M) (spinlockAcquire id) (spinlockAcquire id) (fun _ => Masked M) := by
  intro s t h
  by_cases hfree : (s.lock id).Free
  · rw [spinlockAcquire_free hfree, spinlockAcquire_free ((h.lock id hid).symm ▸ hfree)]
    exact ⟨rfl, h.acquired hid⟩
  · have hstop : ∀ {u : KState}, ¬ (u.lock id).Free → spinlockAcquire id L u = .error .spin :=
      fun hu => if_neg (fun he => hu (Eq.symm he))
    rw [hstop hfree, hstop ((h.lock id hid).symm ▸ hfree)]
    exact rfl

theorem alike_release {id : LockId} (hid : ¬ M.loose id) :
    Alike L (Masked M) (spinlockRelease id) (spinlockRelease id) (fun _ => Masked M) :=
  fun _ _ h => ⟨rfl, h.released hid⟩

/-- `spinlock_init` makes a lock known. -/
theorem alike_init {id : LockId} {N : Mask} (hhidden : N.hidden = M.hidden)
    (hheld : N.held = M.held) (hblocks : N.blocks = M.blocks)
    (hloose : ∀ j, M.loose j → N.loose j ∨ j = id) :
    Alike L (Masked M) (spinlockInit id) (spinlockInit id) (fun _ => Masked N) := by
  intro s t h
  refine ⟨rfl, ?_⟩
  refine ⟨fun a f ha => h.mem a f (hhidden ▸ ha), hheld ▸ h.held, fun j hj => ?_, h.offset,
    h.rflags, h.apicId, hblocks ▸ h.blocks⟩
  refine h.update id Spinlock.init ?_
  by_cases hji : j = id
  · exact Or.inr hji
  · exact Or.inl (fun hl => (hloose j hl).elim hj hji)

end

/-! ## Code that stays within a mask -/

class Unaware (M : Mask) (L : Layout) (x y : K α) : Prop where
  alike : Alike L (Masked M) x y (fun _ => Masked M)

/-- Nothing is known of memory, so that anything may be cleared. -/
class Unheld (M : Mask) : Prop where
  held : ∀ m, M.held m

/-- The lock is the same on both sides. -/
class Known (M : Mask) (id : LockId) : Prop where
  known : ¬ M.loose id

namespace Unaware

variable {M : Mask}

instance pure (a : α) : Unaware M L (Pure.pure a : K α) (Pure.pure a) :=
  ⟨Alike.pure (fun _ _ h => h)⟩

instance bind (x y : K α) (f g : α → K β) [hx : Unaware M L x y]
    [hf : ∀ a, Unaware M L (f a) (g a)] :
    Unaware M L (x >>= f) (y >>= g) := ⟨hx.alike.bind (fun a => (hf a).alike)⟩

instance ite (c : Prop) [Decidable c] (x₁ y₁ x₂ y₂ : K α) [h₁ : Unaware M L x₁ y₁]
    [h₂ : Unaware M L x₂ y₂] :
    Unaware M L (if c then x₁ else x₂) (if c then y₁ else y₂) :=
      ⟨Alike.ite (fun _ => h₁.alike) (fun _ => h₂.alike)⟩

instance stop (e : Stop) : Unaware M L (K.stop e : K α) (K.stop e) := ⟨Alike.stop⟩

instance kpanic (msg : String) :
    Unaware M L (MikroKernel.kpanic msg : K α) (MikroKernel.kpanic msg) := ⟨Alike.stop⟩

instance load (v : Nat) (f : Field) [Seen M L v f] :
    Unaware M L (MikroKernel.load v f) (MikroKernel.load v f) :=
  ⟨Alike.mono (alike_load (Q := fun _ => True) (fun _ _ _ _ _ => trivial)) (fun _ _ h => h)
    (fun _ _ _ h => h.2)⟩

instance store (v x : Nat) (f : Field) [hv : Kept M L v f] :
    Unaware M L (MikroKernel.store v f x) (MikroKernel.store v f x) :=
  ⟨alike_store (fun c hc h => h.set (hv.kept _ c x _ hc h.held))⟩

instance memsetZero (v n : Nat) [h : Unheld M] :
    Unaware M L (MikroKernel.memsetZero v n) (MikroKernel.memsetZero v n) :=
  ⟨alike_memset (fun _ _ _ _ _ => h.held _)⟩

instance directmapP2v (p : Nat) :
    Unaware M L (MikroKernel.directmapP2v p) (MikroKernel.directmapP2v p) :=
  ⟨alike_directmapP2v p⟩

instance p2vLoad (p : Nat) (f : Field) [Open M f] :
    Unaware M L (MikroKernel.p2vLoad p f) (MikroKernel.p2vLoad p f) := by
  unfold MikroKernel.p2vLoad
  infer_instance

instance p2vStore (p x : Nat) (f : Field) [Open M f] :
    Unaware M L (MikroKernel.p2vStore p f x) (MikroKernel.p2vStore p f x) := by
  unfold MikroKernel.p2vStore
  infer_instance

instance spinlockAcquire (id : LockId) [h : Known M id] :
    Unaware M L (MikroKernel.spinlockAcquire id) (MikroKernel.spinlockAcquire id) :=
      ⟨alike_acquire h.known⟩

instance spinlockRelease (id : LockId) [h : Known M id] :
    Unaware M L (MikroKernel.spinlockRelease id) (MikroKernel.spinlockRelease id) :=
      ⟨alike_release h.known⟩

instance spinlockInit (id : LockId) :
    Unaware M L (MikroKernel.spinlockInit id) (MikroKernel.spinlockInit id) :=
  ⟨alike_init rfl rfl rfl (fun _ h => Or.inl h)⟩

instance locked (id : LockId) (x y : K α) [Known M id] [Unaware M L x y] :
    Unaware M L (MikroKernel.locked id x) (MikroKernel.locked id y) := by
  unfold MikroKernel.locked
  infer_instance

end Unaware

end MikroKernel
