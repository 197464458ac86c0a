import MikroKernel.Machine.Spinlock

/-!
# What a piece of kernel code does to memory

Three judgments, and the rules that build them along the code.

* `Edits L off x m a m'`: under offset `off`, from any state with memory `m`, `x` returns `a`
  and leaves the state as it was except for the memory, now `m'`. This is the judgment for code
  without locks and for the inside of a critical section.
* `Returns L x s a m'`: from `s`, `x` returns `a` with memory `m'`; of the rest of the state
  only the lock counters moved (`Quiet`). This is the judgment for calls, whose critical
  sections follow one another.

* `Yields L x s B Q`: from `s`, `x` returns with `Q` of its result and the state it leaves, or it
  panics with a message that `B` allows. This is the judgment for the page-table code, whose checks
  panic.

None can hold of code that faults or spins, and the first two not of code that panics, so each
derivation is also a proof that the code returns.
-/

set_option autoImplicit false

namespace MikroKernel

variable {α β : Type}

/-- The value of `directmap_p2v(p)` under an offset. -/
def p2v (off p : Nat) : Nat := if p < pml4KernelHalfBase then (p + off) % 2 ^ 64 else p

/-- `x` returns `a` and changes only the memory, from `m` to `m'`. -/
def Edits (L : Layout) (off : Nat) (x : K α) (m : Mem) (a : α) (m' : Mem) : Prop :=
  ∀ s : KState, s.physMapOffset = off → s.mem = m → x L s = .ok (a, { s with mem := m' })

/-- `x`, called in `s`, returns `a` with memory `m'` and all locks as free as they were. -/
def Returns (L : Layout) (x : K α) (s : KState) (a : α) (m' : Mem) : Prop :=
  ∃ s', x L s = .ok (a, s') ∧ s'.mem = m' ∧ Quiet s s'

namespace Edits

variable {L : Layout} {off : Nat} {m m₁ m₂ : Mem}

theorem pure (a : α) : Edits L off (Pure.pure a) m a m := by
  intro s _ hm
  subst hm
  rfl

theorem bind {x : K α} {f : α → K β} {a : α} {b : β} (hx : Edits L off x m a m₁)
    (hf : Edits L off (f a) m₁ b m₂) : Edits L off (x >>= f) m b m₂ := by
  intro s ho hm
  rw [K.bind_ok (hx s ho hm)]
  exact hf _ ho rfl

theorem of_eq {x : K α} {a : α} (h : ∀ s : KState, x L s = .ok (a, s)) :
    Edits L off x m a m := by
  intro s _ hm
  subst hm
  exact h s

theorem ite_pos {c : Prop} [Decidable c] {x y : K α} {a : α} (hc : c)
    (hx : Edits L off x m a m₁) : Edits L off (if c then x else y) m a m₁ := by
  rwa [if_pos hc]

theorem ite_neg {c : Prop} [Decidable c] {x y : K α} {a : α} (hc : ¬ c)
    (hy : Edits L off y m a m₁) : Edits L off (if c then x else y) m a m₁ := by
  rwa [if_neg hc]

/-- A load from the kernel image. The value is an argument, so that a derivation can name it. -/
theorem load {a : Nat} {f : Field} {v : Nat} (h : L.image a = true) (hval : m a f = v) :
    Edits L off (MikroKernel.load a f) m v m := by
  intro s _ hm
  subst hm hval
  exact load_image h

theorem store {a : Nat} {f : Field} {v : Nat} (h : L.image a = true) :
    Edits L off (MikroKernel.store a f v) m () (m.set a f v) := by
  intro s _ hm
  subst hm
  exact store_image h

theorem memsetZero {a n : Nat} (h : L.image a = true) :
    Edits L off (MikroKernel.memsetZero a n) m () (m.zero a n) := by
  intro s _ hm
  subst hm
  exact memsetZero_image h

/-- A load through `directmap_p2v`. -/
theorem p2vLoad {p : Nat} {f : Field} {v : Nat} (hv : View off) (hp : L.Stored p)
    (hval : m p f = v) : Edits L off (MikroKernel.p2vLoad p f) m v m := by
  intro s ho hm
  subst hm hval
  exact p2vLoad_apply (ho ▸ hv) hp

theorem p2vStore {p : Nat} {f : Field} {v : Nat} (hv : View off) (hp : L.Stored p) :
    Edits L off (MikroKernel.p2vStore p f v) m () (m.set p f v) := by
  intro s ho hm
  subst hm
  exact p2vStore_apply (ho ▸ hv) hp

theorem directmapP2v (p : Nat) :
    Edits L off (MikroKernel.directmapP2v p) m (MikroKernel.p2v off p) m := by
  intro s ho hm
  subst ho hm
  rfl

theorem memsetZero_p2v {p n : Nat} (hv : View off) (hp : L.Stored p) :
    Edits L off (MikroKernel.memsetZero (MikroKernel.p2v off p) n) m () (m.zero p n) := by
  intro s ho hm
  subst ho hm
  unfold MikroKernel.memsetZero MikroKernel.p2v
  rw [resolve_p2v hv hp]

/-- A load behind the translated start of a block of physical memory. -/
theorem load_p2v {p i : Nat} {f : Field} {v : Nat} (hv : View off) (hp : L.phys (p + i) = true)
    (hval : m (p + i) f = v) :
    Edits L off (MikroKernel.load (MikroKernel.p2v off p + i) f) m v m := by
  have hlt := L.phys_lt _ hp
  have haddr : MikroKernel.p2v off p + i = MikroKernel.p2v off (p + i) := by
    unfold MikroKernel.p2v
    unfold physTop at hlt
    rw [if_pos (by unfold pml4KernelHalfBase; omega), if_pos (by unfold pml4KernelHalfBase; omega)]
    rcases hv with rfl | rfl
    · omega
    · unfold directMapStart
      omega
  intro s ho hm
  subst ho hm hval
  rw [haddr]
  unfold MikroKernel.load MikroKernel.p2v
  rw [resolve_p2v hv (Or.inl hp)]

/-- What a call that returned must have returned. -/
theorem result {x : K α} {a b : α} {s s' : KState} (h : Edits L s.physMapOffset x s.mem a m₁)
    (hrun : x L s = .ok (b, s')) : b = a ∧ s' = { s with mem := m₁ } := by
  rw [h s rfl rfl, Except.ok.injEq, Prod.mk.injEq] at hrun
  exact ⟨hrun.1.symm, hrun.2.symm⟩

/-- A critical section is a call. -/
theorem locked {x : K α} {a : α} {s : KState} {id : LockId} (hfree : (s.lock id).Free)
    (h : Edits L s.physMapOffset x s.mem a m₁) :
    Returns L (MikroKernel.locked id x) s a m₁ :=
  locked_apply hfree (h (s.acquired id) rfl rfl)

end Edits

namespace Returns

variable {L : Layout} {s : KState} {m₁ m₂ : Mem}

theorem pure (a : α) : Returns L (Pure.pure a) s a s.mem :=
  ⟨s, rfl, rfl, Quiet.refl s⟩

/-- One call after another. The second starts in a state of which the memory is known and that
is quiet with respect to the first. -/
theorem bind {x : K α} {f : α → K β} {a : α} {b : β} (hx : Returns L x s a m₁)
    (hf : ∀ s', s'.mem = m₁ → Quiet s s' → Returns L (f a) s' b m₂) :
    Returns L (x >>= f) s b m₂ := by
  obtain ⟨s', hs', hm, hq⟩ := hx
  obtain ⟨s'', hs'', hm', hq'⟩ := hf s' hm hq
  exact ⟨s'', by rw [K.bind_ok hs']; exact hs'', hm', hq.trans hq'⟩

/-- A load or a store before the next call leaves everything else of the state in place. -/
theorem bind_edits {x : K α} {f : α → K β} {a : α} {b : β}
    (hx : Edits L s.physMapOffset x s.mem a s.mem) (hf : Returns L (f a) s b m₂) :
    Returns L (x >>= f) s b m₂ := by
  obtain ⟨s', hs', hm', hq'⟩ := hf
  exact ⟨s', by rw [K.bind_ok (hx s rfl rfl)]; exact hs', hm', hq'⟩

end Returns

/-- `x` returns with `Q`, or panics with a message that `B` allows. -/
def Yields (L : Layout) (x : K α) (s : KState) (B : String → Prop) (Q : α → KState → Prop) : Prop :=
  (∃ a s', x L s = .ok (a, s') ∧ Q a s') ∨ ∃ msg, x L s = .error (.panic msg) ∧ B msg

namespace Yields

variable {L : Layout} {s : KState} {m : Mem} {B : String → Prop} {Q : α → KState → Prop}
  {R : β → KState → Prop}

theorem ret {x : K α} {a : α} {s' : KState} (h : x L s = .ok (a, s')) (hq : Q a s') :
    Yields L x s B Q := Or.inl ⟨a, s', h, hq⟩

theorem pure {a : α} (hq : Q a s) : Yields L (Pure.pure a) s B Q := ret rfl hq

/-- What comes after a panic does not matter. -/
theorem panic_bind {msg : String} {f : α → K β} (hb : B msg) :
    Yields L (kpanic msg >>= f) s B R := Or.inr ⟨msg, rfl, hb⟩

theorem bind {x : K α} {f : α → K β} (hx : Yields L x s B Q)
    (hf : ∀ a s', Q a s' → Yields L (f a) s' B R) : Yields L (x >>= f) s B R := by
  rcases hx with ⟨a, s', hrun, hq⟩ | ⟨msg, hrun, hb⟩
  · rcases hf a s' hq with ⟨b, s'', hrun', hr⟩ | ⟨msg, hrun', hb⟩
    · exact Or.inl ⟨b, s'', by rw [K.bind_ok hrun]; exact hrun', hr⟩
    · exact Or.inr ⟨msg, by rw [K.bind_ok hrun]; exact hrun', hb⟩
  · exact Or.inr ⟨msg, by rw [K.bind_apply, hrun], hb⟩

/-- A call that returns, before the rest. -/
theorem bind_ok {x : K α} {f : α → K β} {a : α} {s₁ : KState} (hx : x L s = .ok (a, s₁))
    (hf : Yields L (f a) s₁ B R) : Yields L (x >>= f) s B R := by
  unfold Yields
  rw [K.bind_ok hx]
  exact hf

/-- A load or a store before the rest. -/
theorem bind_edits {x : K α} {f : α → K β} {a : α} (hx : Edits L s.physMapOffset x s.mem a m)
    (hf : Yields L (f a) { s with mem := m } B R) : Yields L (x >>= f) s B R :=
  bind_ok (hx s rfl rfl) hf

theorem ite_pos {c : Prop} [Decidable c] {x y : K α} (hc : c) (hx : Yields L x s B Q) :
    Yields L (if c then x else y) s B Q := by
  rwa [if_pos hc]

theorem ite_neg {c : Prop} [Decidable c] {x y : K α} (hc : ¬ c) (hy : Yields L y s B Q) :
    Yields L (if c then x else y) s B Q := by
  rwa [if_neg hc]

theorem mono {x : K α} {B' : String → Prop} {Q' : α → KState → Prop} (h : Yields L x s B Q)
    (hb : ∀ msg, B msg → B' msg) (hq : ∀ a s', Q a s' → Q' a s') : Yields L x s B' Q' := by
  rcases h with ⟨a, s', hrun, h⟩ | ⟨msg, hrun, h⟩
  · exact Or.inl ⟨a, s', hrun, hq a s' h⟩
  · exact Or.inr ⟨msg, hrun, hb msg h⟩

/-- **A critical section** whose inside leaves its own lock alone. -/
theorem locked {x : K α} {id : LockId} (hfree : (s.lock id).Free)
    (hx : Yields L x (s.acquired id) B Q)
    (hkept : ∀ a s₁, Q a s₁ → s₁.lock id = (s.acquired id).lock id) :
    Yields L (MikroKernel.locked id x) s B
      (fun a s' => ∃ s₁, Q a s₁ ∧ s' = s₁.released id ∧ (s'.lock id).Free) := by
  unfold MikroKernel.locked
  rcases hx with ⟨a, s₁, hrun, hq⟩ | ⟨msg, hrun, hb⟩
  · refine Or.inl ⟨a, s₁.released id, ?_, s₁, hq, rfl, KState.released_free hfree (hkept a s₁ hq)⟩
    rw [K.bind_ok (spinlockAcquire_free hfree), K.bind_ok hrun]
    rfl
  · refine Or.inr ⟨msg, ?_, hb⟩
    rw [K.bind_ok (spinlockAcquire_free hfree), K.bind_apply, hrun]

/-- A call that returned did what was said. -/
theorem of_ok {x : K α} {a : α} {s' : KState} (h : Yields L x s B Q)
    (hrun : x L s = .ok (a, s')) : Q a s' := by
  rcases h with ⟨b, s'', hrun', hq⟩ | ⟨msg, hrun', -⟩
  · rw [hrun, Except.ok.injEq, Prod.mk.injEq] at hrun'
    rw [hrun'.1, hrun'.2]
    exact hq
  · rw [hrun] at hrun'
    exact absurd hrun' (by simp)

end Yields

end MikroKernel
