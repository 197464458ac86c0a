import Mathlib.Tactic

/-!
# What an endless run leads to

A run that goes on for ever is a sequence of states. `P` leads to `Q` when each time `P` holds `Q`
holds then or later. There are two rules. One step of progress is `LeadsTo.ensures`: `P` stays until
`Q`, some moves of the run get from `P` to `Q` at once, and the run does not put them off for ever.
Many steps are `LeadsTo.measure`: each time something gets smaller.
-/

set_option autoImplicit false

namespace Run

variable {σ : Type*} {run : ℕ → σ} {P Q R : σ → Prop}

/-- Whenever `P` holds, `Q` holds then or later. -/
def LeadsTo (run : ℕ → σ) (P Q : σ → Prop) : Prop := ∀ k, P (run k) → ∃ j, k ≤ j ∧ Q (run j)

theorem LeadsTo.trans (h₁ : LeadsTo run P Q) (h₂ : LeadsTo run Q R) : LeadsTo run P R := by
  intro k hk
  obtain ⟨j, hkj, hj⟩ := h₁ k hk
  obtain ⟨l, hjl, hl⟩ := h₂ j hj
  exact ⟨l, Nat.le_trans hkj hjl, hl⟩

/-- **Progress**: `helpful` are the moves that get from `P` to `Q`, and while `P` stays there is one
to come. -/
theorem LeadsTo.ensures (helpful : ℕ → Prop)
    (hstay : ∀ k, P (run k) → P (run (k + 1)) ∨ Q (run (k + 1)))
    (hhelp : ∀ k, P (run k) → helpful k → Q (run (k + 1)))
    (hfair : ∀ k, (∀ j, k ≤ j → P (run j)) → ∃ j, k ≤ j ∧ helpful j) : LeadsTo run P Q := by
  intro k hk
  by_contra hnever
  push Not at hnever
  -- then `P` stays
  have hP : ∀ d, P (run (k + d)) := by
    intro d
    induction d with
    | zero => exact hk
    | succ d ih =>
      exact (hstay (k + d) ih).resolve_right (hnever (k + (d + 1)) (Nat.le_add_right _ _))
  have hall : ∀ j, k ≤ j → P (run j) := fun j hj => by
    have := hP (j - k)
    rwa [Nat.add_sub_cancel' hj] at this
  obtain ⟨j, hkj, hj⟩ := hfair k hall
  exact hnever (j + 1) (Nat.le_succ_of_le hkj) (hhelp j (hall j hkj) hj)

/-- **Induction on what is left to do.** -/
theorem LeadsTo.measure (μ : σ → ℕ)
    (h : ∀ m, LeadsTo run (fun s => P s ∧ μ s = m) (fun s => Q s ∨ P s ∧ μ s < m)) :
    LeadsTo run P Q := by
  have hmain : ∀ m k, P (run k) → μ (run k) = m → ∃ j, k ≤ j ∧ Q (run j) := by
    intro m
    induction m using Nat.strong_induction_on with
    | _ m ih =>
      intro k hk hm
      obtain ⟨j, hkj, hj | ⟨hP, hlt⟩⟩ := h m k ⟨hk, hm⟩
      · exact ⟨j, hkj, hj⟩
      · obtain ⟨l, hjl, hl⟩ := ih _ hlt j hP rfl
        exact ⟨l, Nat.le_trans hkj hjl, hl⟩
  exact fun k hk => hmain _ k hk rfl

end Run
