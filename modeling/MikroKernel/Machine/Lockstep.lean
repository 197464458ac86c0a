import MikroKernel.Machine.Calm

/-!
# Two runs side by side

`Lockstep L R x y R'`: from two states related by `R`, whenever `x` returns from the first, `y`
returns the same value `a` from the second, and the states they end in are related by `R' a`. `x`
and `y` are mostly the same code, seen through two views of memory or started from two contents of
it. The rules are those of a Hoare logic, one for each way code is put together.
-/

set_option autoImplicit false

namespace MikroKernel

variable {α β : Type} {L : Layout}

def Lockstep (L : Layout) (R : KState → KState → Prop) (x y : K α)
    (R' : α → KState → KState → Prop) : Prop :=
  ∀ ⦃s t s' : KState⦄ ⦃a : α⦄, R s t → x L s = .ok (a, s') → ∃ t', y L t = .ok (a, t') ∧ R' a s' t'

namespace Lockstep

variable {R R₀ : KState → KState → Prop} {R₁ R' R'' : α → KState → KState → Prop}
  {S : β → KState → KState → Prop} {x y : K α} {f g : α → K β}

theorem pure {a : α} (h : ∀ s t, R s t → R' a s t) :
    Lockstep L R (Pure.pure a) (Pure.pure a) R' := by
  intro s t s' b hst hrun
  obtain ⟨rfl, rfl⟩ := Prod.mk.inj (Except.ok.inj hrun)
  exact ⟨t, rfl, h _ _ hst⟩

/-- **Sequencing**: the second halves run from whatever the first halves left behind. -/
theorem bind (hx : Lockstep L R x y R₁) (hf : ∀ a, Lockstep L (R₁ a) (f a) (g a) S) :
    Lockstep L R (x >>= f) (y >>= g) S := by
  intro s t s' b hst hrun
  obtain ⟨a, s₁, hfirst, hrest⟩ := K.bind_eq_ok.mp hrun
  obtain ⟨t₁, hsame, hst₁⟩ := hx hst hfirst
  obtain ⟨t', hsame', hst'⟩ := hf a hst₁ hrest
  refine ⟨t', ?_, hst'⟩
  rw [K.bind_ok hsame]
  exact hsame'

theorem mono (h : Lockstep L R x y R') (hpre : ∀ s t, R₀ s t → R s t)
    (hpost : ∀ a s t, R' a s t → R'' a s t) : Lockstep L R₀ x y R'' := by
  intro s t s' a hst hrun
  obtain ⟨t', hsame, hst'⟩ := h (hpre s t hst) hrun
  exact ⟨t', hsame, hpost a s' t' hst'⟩

/-- What is known of the states beforehand may be used. -/
theorem given {P : Prop} (h : P → Lockstep L R x y R') : Lockstep L (fun s t => P ∧ R s t) x y R' :=
  fun _ _ _ _ hst hrun => h hst.1 hst.2 hrun

theorem ite {c : Prop} [Decidable c] {x₁ y₁ x₂ y₂ : K α} (h₁ : c → Lockstep L R x₁ y₁ R')
    (h₂ : ¬ c → Lockstep L R x₂ y₂ R') :
    Lockstep L R (if c then x₁ else x₂) (if c then y₁ else y₂) R' := by
  split
  · exact h₁ ‹_›
  · exact h₂ ‹_›

/-- Code that never returns is in step with anything. -/
theorem stop {e : Stop} : Lockstep L R (K.stop e) y R' :=
  fun _ _ _ _ _ hrun => absurd hrun (by simp)

end Lockstep

end MikroKernel
