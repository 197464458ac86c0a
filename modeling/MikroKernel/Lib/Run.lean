import Mathlib.Logic.Relation
import Mathlib.Tactic

/-!
# Runs of a step relation

A run is a path of a step relation, so the reflexive transitive closure is the set of states
reached. The library is the one rule every whole-run theorem of the development rests on: what
holds at the start and is kept by each step holds wherever a run arrives.
-/

set_option autoImplicit false

namespace Run

variable {σ : Type*} {step : σ → σ → Prop}

/-- `t` is reached from `s` by finitely many steps. -/
abbrev Reaches (step : σ → σ → Prop) (s t : σ) : Prop := Relation.ReflTransGen step s t

/-- **The invariant rule.** The step premise may use that its source is reached, which is what
lets one invariant be proved on top of another. -/
theorem Reaches.invariant {s t : σ} (h : Reaches step s t) (Inv : σ → Prop) (h0 : Inv s)
    (hstep : ∀ a b, Reaches step s a → Inv a → step a b → Inv b) : Inv t := by
  induction h with
  | refl => exact h0
  | tail hab hbc ih => exact hstep _ _ hab ih hbc

end Run
