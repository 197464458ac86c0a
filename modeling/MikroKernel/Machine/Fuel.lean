import MikroKernel.Machine.Basic

/-!
# More fuel

A loop of the source is a recursion on fuel, and with too little of it the call stops with
`Stop.fuel`. Whatever returns with some fuel returns the same with more: `x.Le y` says that of two
computations, and goes through binds and conditionals. "The call returns" is then that it does with
some fuel (`Finishes`).
-/

set_option autoImplicit false

namespace MikroKernel

variable {α β : Type}

/-- Where `x` returns, `y` returns the same. -/
def K.Le (x y : K α) : Prop := ∀ L s r, x L s = .ok r → y L s = .ok r

namespace K.Le

theorem refl (x : K α) : x.Le x := fun _ _ _ h => h

theorem stop (e : Stop) (y : K α) : (K.stop e).Le y := fun _ _ _ h => absurd h (by simp)

theorem bind {x y : K α} {f g : α → K β} (h : x.Le y) (hf : ∀ a, (f a).Le (g a)) :
    (x >>= f).Le (y >>= g) := by
  intro L s r hr
  obtain ⟨a, s', hx, hfa⟩ := K.bind_eq_ok.mp hr
  exact K.bind_eq_ok.mpr ⟨a, s', h L s _ hx, hf a L s' r hfa⟩

/-- The same first step. -/
theorem bind_right {x : K α} {f g : α → K β} (hf : ∀ a, (f a).Le (g a)) :
    (x >>= f).Le (x >>= g) := bind (refl x) hf

theorem ite {c : Prop} [Decidable c] {x x' y y' : K α} (hx : x.Le x') (hy : y.Le y') :
    (if c then x else y).Le (if c then x' else y') := by
  split
  · exact hx
  · exact hy

end K.Le

/-- `x` returns `a` from `s` and leaves `s'`, with enough fuel. -/
def Finishes (L : Layout) (x : Nat → K α) (s : KState) (a : α) (s' : KState) : Prop :=
  ∃ fuel, x fuel L s = .ok (a, s')

/-- The fuel may be as much as one likes. -/
theorem Finishes.enough {L : Layout} {x : Nat → K α} {s s' : KState} {a : α}
    (h : Finishes L x s a s') (hle : ∀ {j k}, j ≤ k → (x j).Le (x k)) (n : Nat) :
    ∃ fuel, n ≤ fuel ∧ x fuel L s = .ok (a, s') := by
  obtain ⟨fuel, hrun⟩ := h
  exact ⟨max fuel n, Nat.le_max_right _ _, hle (Nat.le_max_left _ _) L s _ hrun⟩

end MikroKernel
