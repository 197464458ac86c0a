import MikroKernel.Machine.Effect

/-!
# The same code with assertions

Two questions are asked of a call that its result does not answer: whether a panic of it followed a
`NULL` of the page allocator, and whether a block it gave back was merged with free blocks only.
Both are asked of the call with another allocator: one that is as the first, but stops with an alarm
at the moment in question. `Guards alarm x y` says that `x` is `y` with such assertions, and goes
through the code like `K.Le`.

`Tied` is `Yields` for two computations at once: where the second panics, the first has stopped with
the alarm.
-/

set_option autoImplicit false

namespace MikroKernel

variable {α β : Type}

/-- `x` stops with `alarm`, or does what `y` does. -/
class Guards (alarm : Stop) (x y : K α) : Prop where
  same : ∀ L s, x L s = .error alarm ∨ y L s = x L s

namespace Guards

variable {alarm : Stop}

/-- Code that has no assertion in it. -/
instance (priority := high) refl (x : K α) : Guards alarm x x := ⟨fun _ _ => Or.inr rfl⟩

instance bind {x y : K α} {f g : α → K β} [h : Guards alarm x y]
    [hf : ∀ a, Guards alarm (f a) (g a)] :
    Guards alarm (x >>= f) (y >>= g) := by
  refine ⟨fun L s => ?_⟩
  simp only [K.bind_apply]
  rcases h.same L s with hx | hx
  · exact Or.inl (by rw [hx])
  · rw [hx]
    cases x L s with
    | error e => exact Or.inr rfl
    | ok r => exact (hf r.1).same L r.2

instance ite {c : Prop} [Decidable c] {x x' y y' : K α} [hx : Guards alarm x x']
    [hy : Guards alarm y y'] : Guards alarm (if c then x else y) (if c then x' else y') := by
  split
  · exact hx
  · exact hy

instance locked {id : LockId} {x y : K α} [h : Guards alarm x y] :
    Guards alarm (MikroKernel.locked id x) (MikroKernel.locked id y) := by
  unfold MikroKernel.locked
  infer_instance

/-! The same by hand, for code whose instance would be large. -/

theorem rest {x : K α} {f g : α → K β} (h : ∀ a, Guards alarm (f a) (g a)) :
    Guards alarm (x >>= f) (x >>= g) := inferInstance

/-- The code returns early, or goes on. -/
theorem unlessDone {c : Prop} [Decidable c] {x y y' : K α} (h : Guards alarm y y') :
    Guards alarm (if c then x else y) (if c then x else y') := inferInstance

/-- The code panics, or goes on. -/
theorem unlessPanic {c : Prop} [Decidable c] {msg : String} {f g : β → K α} {y y' : K α}
    (h : Guards alarm y y') :
    Guards alarm (if c then kpanic msg >>= f else y) (if c then kpanic msg >>= g else y') :=
  @ite _ _ _ _ _ _ _ _ ⟨fun _ _ => Or.inr rfl⟩ h

variable {L : Layout} {s : KState} {x y : K α}

/-- **Without an alarm the assertions make no difference.** -/
theorem eq_of_calm (h : Guards alarm x y) (hcalm : x L s ≠ .error alarm) : y L s = x L s :=
  (h.same L s).resolve_left hcalm

/-- A call that returned with the assertions returns without them. -/
theorem ok (h : Guards alarm x y) {r : α × KState} (hrun : x L s = .ok r) : y L s = .ok r := by
  rw [h.eq_of_calm (by rw [hrun]; simp), hrun]

end Guards

/-- Whether a run stopped for this reason can be read off its result. -/
instance stoppedDecidable (r : Except Stop (α × KState)) (e : Stop) : Decidable (r = .error e) :=
  match r with
  | .error e' => decidable_of_iff (e' = e) (by simp)
  | .ok _ => .isFalse (by simp)

/-! ## Calm calls

`x`, written over what it calls to give a block back, raises no alarm. -/

section Calm

variable {alarm : Stop} {L : Layout} {s s₁ : KState}

/-- The rest of a calm sequence is calm. -/
theorem K.calm_rest {x : K α} {f : α → K β} {a : α} (h : (x >>= f) L s ≠ .error alarm)
    (hx : x L s = .ok (a, s₁)) : f a L s₁ ≠ .error alarm := by
  rwa [K.bind_ok hx] at h

/-- So is its first step. -/
theorem K.calm_first {x : K α} {f : α → K β} (h : (x >>= f) L s ≠ .error alarm) :
    x L s ≠ .error alarm := by
  intro hx
  exact h (by rw [K.bind_apply, hx])

/-- The inside of a calm critical section is calm. -/
theorem K.calm_locked {x : K α} {id : LockId} (hfree : (s.lock id).Free)
    (h : MikroKernel.locked id x L s ≠ .error alarm) : x L (s.acquired id) ≠ .error alarm := by
  unfold MikroKernel.locked at h
  rw [K.bind_ok (spinlockAcquire_free hfree)] at h
  exact K.calm_first h

end Calm

namespace Yields

variable {alarm : Stop} {L : Layout} {s : KState} {x y : K α} {B : String → Prop}
  {Q : α → KState → Prop}

/-- What holds of the code with assertions holds of the code, if none of them is raised. -/
theorem of_guarded (h : Guards alarm x y) (hcalm : x L s ≠ .error alarm)
    (hx : Yields L x s (fun msg => .panic msg = alarm ∨ B msg) Q) : Yields L y s B Q := by
  unfold Yields
  rw [h.eq_of_calm hcalm]
  rcases hx with hret | ⟨msg, hrun, heq | hb⟩
  · exact Or.inl hret
  · exact absurd (heq ▸ hrun) hcalm
  · exact Or.inr ⟨msg, hrun, hb⟩

end Yields

/-! ## Tied panics -/

/-- `y` returns with `Q`, or it panics with a message that `B` allows and `x` has raised the
alarm. -/
def Tied (L : Layout) (alarm : Stop) (B : String → Prop) (x y : K α) (s : KState)
    (Q : α → KState → Prop) : Prop :=
  Yields L y s (fun msg => B msg ∧ x L s = .error alarm) Q

namespace Tied

variable {L : Layout} {alarm : Stop} {s : KState} {m : Mem} {B : String → Prop}
  {Q : α → KState → Prop} {R : β → KState → Prop}

theorem ret {x y : K α} {a : α} {s' : KState} (h : y L s = .ok (a, s')) (hq : Q a s') :
    Tied L alarm B x y s Q := Yields.ret h hq

theorem pure {x : K α} {a : α} (hq : Q a s) : Tied L alarm B x (Pure.pure a) s Q := ret rfl hq

/-- Where the first has raised the alarm, nothing more is asked of a panic of the second. -/
theorem of_alarm {x y : K α} (h : x L s = .error alarm) (hy : Yields L y s B Q) :
    Tied L alarm B x y s Q :=
  Yields.mono hy (fun _ hb => ⟨hb, h⟩) (fun _ _ hq => hq)

theorem bind {x y : K α} {f g : α → K β} [hg : Guards alarm x y] (hx : Tied L alarm B x y s Q)
    (hf : ∀ a s', Q a s' → Tied L alarm B (f a) (g a) s' R) :
    Tied L alarm B (x >>= f) (y >>= g) s R := by
  rcases hx with ⟨a, s', hrun, hq⟩ | ⟨msg, hrun, hb, halarm⟩
  · rcases hf a s' hq with ⟨b, s'', hrun', hr⟩ | ⟨msg, hrun', hb, halarm⟩
    · exact ret (by rw [K.bind_ok hrun]; exact hrun') hr
    · refine Or.inr ⟨msg, by rw [K.bind_ok hrun]; exact hrun', hb, ?_⟩
      -- the first step may have raised the alarm already
      rcases hg.same L s with hx | hx
      · rw [K.bind_apply, hx]
      · rw [K.bind_ok (hx ▸ hrun)]
        exact halarm
  · exact Or.inr ⟨msg, by rw [K.bind_apply, hrun], hb, by rw [K.bind_apply, halarm]⟩

/-- A step that is the same in both and returns, before the rest. -/
theorem bind_ok {x : K α} {f g : α → K β} {a : α} {s₁ : KState} (hx : x L s = .ok (a, s₁))
    (hf : Tied L alarm B (f a) (g a) s₁ R) : Tied L alarm B (x >>= f) (x >>= g) s R := by
  unfold Tied Yields
  rw [K.bind_ok hx, K.bind_ok hx]
  exact hf

/-- A load or a store before the rest. -/
theorem bind_edits {x : K α} {f g : α → K β} {a : α} (hx : Edits L s.physMapOffset x s.mem a m)
    (hf : Tied L alarm B (f a) (g a) { s with mem := m } R) :
    Tied L alarm B (x >>= f) (x >>= g) s R :=
  bind_ok (hx s rfl rfl) hf

theorem ite_pos {c : Prop} [Decidable c] {x y x' y' : K α} (hc : c)
    (hx : Tied L alarm B x x' s Q) :
    Tied L alarm B (if c then x else y) (if c then x' else y') s Q := by
  rwa [if_pos hc, if_pos hc]

theorem ite_neg {c : Prop} [Decidable c] {x y x' y' : K α} (hc : ¬ c)
    (hy : Tied L alarm B y y' s Q) :
    Tied L alarm B (if c then x else y) (if c then x' else y') s Q := by
  rwa [if_neg hc, if_neg hc]

theorem mono {x y : K α} {B' : String → Prop} {Q' : α → KState → Prop} (h : Tied L alarm B x y s Q)
    (hb : ∀ msg, B msg → B' msg) (hq : ∀ a s', Q a s' → Q' a s') : Tied L alarm B' x y s Q' :=
  Yields.mono h (fun msg hm => ⟨hb msg hm.1, hm.2⟩) hq

/-- **A critical section** whose inside leaves its own lock alone. -/
theorem locked {x y : K α} {id : LockId} (hfree : (s.lock id).Free)
    (hx : Tied L alarm B x y (s.acquired id) Q)
    (hkept : ∀ a s₁, Q a s₁ → s₁.lock id = (s.acquired id).lock id) :
    Tied L alarm B (MikroKernel.locked id x) (MikroKernel.locked id y) s
      (fun a s' => ∃ s₁, Q a s₁ ∧ s' = s₁.released id ∧ (s'.lock id).Free) := by
  refine Yields.mono (Yields.locked hfree hx hkept) (fun msg hm => ⟨hm.1, ?_⟩) (fun _ _ hq => hq)
  unfold MikroKernel.locked
  rw [K.bind_ok (spinlockAcquire_free hfree), K.bind_apply, hm.2]

/-- A call that returned did what was said. -/
theorem of_ok {x y : K α} {a : α} {s' : KState} (h : Tied L alarm B x y s Q)
    (hrun : y L s = .ok (a, s')) : Q a s' := Yields.of_ok h hrun

end Tied

end MikroKernel
