import Mathlib.Tactic

/-!
# The first of the largest

A loop that replaces its candidate only by a larger one ends with the first of the largest elements
it has come upon, or with the candidate it started with.
-/

set_option autoImplicit false

namespace FirstLargest

variable {α : Type} {size : α → Nat}

/-- `r` is an element of the list: what is before it is smaller, what is behind it is not larger. -/
def Is (size : α → Nat) (l : List α) (r : α) : Prop :=
  ∃ before after, l = before ++ r :: after ∧ (∀ x ∈ before, size x < size r) ∧
    ∀ x ∈ after, size x ≤ size r

/-- The larger of the two, the earlier one if there is none. -/
def larger (size : α → Nat) (best x : α) : α := if size x > size best then x else best

/-- An element in front that is smaller. -/
theorem Is.cons {l : List α} {r x : α} (h : Is size l r) (hx : size x < size r) :
    Is size (x :: l) r := by
  obtain ⟨before, after, rfl, hb, ha⟩ := h
  refine ⟨x :: before, after, rfl, fun y hy => ?_, ha⟩
  rcases List.mem_cons.mp hy with rfl | hy
  · exact hx
  · exact hb y hy

/-- **What the loop ends with.** -/
theorem foldl_larger (size : α → Nat) {b : α} {l : List α} :
    (l.foldl (larger size) b = b ∧ ∀ x ∈ l, size x ≤ size b) ∨
      (Is size l (l.foldl (larger size) b) ∧ size b < size (l.foldl (larger size) b)) := by
  induction l generalizing b with
  | nil => exact Or.inl ⟨rfl, fun x hx => absurd hx List.not_mem_nil⟩
  | cons x l ih =>
    rw [List.foldl_cons]
    by_cases hx : size x > size b
    · rw [larger, if_pos hx]
      rcases ih (b := x) with ⟨he, hl⟩ | ⟨hr, hlt⟩
      · rw [he]
        exact Or.inr ⟨⟨[], l, rfl, fun y hy => absurd hy List.not_mem_nil, hl⟩, hx⟩
      · exact Or.inr ⟨hr.cons hlt, Nat.lt_trans hx hlt⟩
    · rw [larger, if_neg hx]
      rcases ih (b := b) with ⟨he, hl⟩ | ⟨hr, hlt⟩
      · refine Or.inl ⟨he, fun y hy => ?_⟩
        rcases List.mem_cons.mp hy with rfl | hy
        · exact Nat.le_of_not_lt hx
        · exact hl y hy
      · exact Or.inr ⟨hr.cons (Nat.lt_of_le_of_lt (Nat.le_of_not_lt hx) hlt), hlt⟩

end FirstLargest
