import MikroKernel.Proof.RbTree.Search
import MikroKernel.Vm.Vma

/-!
# The order of `vma_cmp`

`vma_cmp` orders nodes by the start of their VMAs, which no operation on the tree writes.
-/

set_option autoImplicit false

namespace MikroKernel
namespace Vm

open Rb

variable {L : Layout} {off root : Nat} {m m' : Mem} {l : List Nat}

/-- The order of `vma_cmp`. -/
def startOrder (m : Mem) (a b : Nat) : Int :=
  if m (vmaOf a) .vmaStart < m (vmaOf b) .vmaStart then -1
  else if m (vmaOf b) .vmaStart < m (vmaOf a) .vmaStart then 1
  else 0

theorem startOrder_total (m : Mem) : TotalCmp (startOrder m) := by
  refine ⟨fun a b => ?_, fun {a b d} h1 h2 => ?_⟩ <;> unfold startOrder at *
    <;> split_ifs at * <;> omega

theorem startOrder_lt {a b : Nat} :
    startOrder m a b < 0 ↔ m (vmaOf a) .vmaStart < m (vmaOf b) .vmaStart := by
  unfold startOrder
  split_ifs <;> simp_all

theorem startOrder_eq {a b : Nat} :
    startOrder m a b = 0 ↔ m (vmaOf a) .vmaStart = m (vmaOf b) .vmaStart := by
  unfold startOrder
  split_ifs <;> simp_all <;> omega

theorem startOrder_congr {a b : Nat} (ha : m' (vmaOf a) .vmaStart = m (vmaOf a) .vmaStart)
    (hb : m' (vmaOf b) .vmaStart = m (vmaOf b) .vmaStart) :
    startOrder m' a b = startOrder m a b := by
  unfold startOrder
  rw [ha, hb]

/-- A change of links is no change of a VMA. -/
theorem touches_vma {a : Nat} {f : Field} (h : Touches root l m m') (hf : ¬ IsLink f)
    (hp : f ≠ .ptr) :
    m' a f = m a f := by
  by_contra hne
  rcases h a f hne with ⟨-, he⟩ | ⟨-, he⟩
  · exact hp he
  · exact hf he

theorem vmaStart_not_link : ¬ IsLink .vmaStart := by simp [IsLink]

theorem vmaEnd_not_link : ¬ IsLink .vmaEnd := by simp [IsLink]

/-- **`vma_cmp` compares the starts.** -/
theorem vmaCmp_edits {a b : Nat} (hv : View off) (ha : L.Stored (vmaOf a))
    (hb : L.Stored (vmaOf b)) :
    Edits L off (vmaCmp a b) m (startOrder m a b) m := by
  unfold vmaCmp
  by_cases h1 : m (vmaOf a) .vmaStart < m (vmaOf b) .vmaStart
  · rw [show startOrder m a b = -1 from if_pos h1]
    refine (Edits.p2vLoad hv ha rfl).bind ((Edits.p2vLoad hv hb rfl).bind ?_)
    exact Edits.ite_pos h1 (Edits.pure _)
  · have hloads : ∀ {x : Int}, Edits L off (if m (vmaOf a) .vmaStart > m (vmaOf b) .vmaStart then
        pure 1 else pure 0) m x m → Edits L off (do
        if (← p2vLoad (vmaOf a) .vmaStart) < (← p2vLoad (vmaOf b) .vmaStart) then pure (-1)
        else do
          if (← p2vLoad (vmaOf a) .vmaStart) > (← p2vLoad (vmaOf b) .vmaStart) then pure 1
          else pure 0) m x m := by
      intro x hx
      refine (Edits.p2vLoad hv ha rfl).bind ((Edits.p2vLoad hv hb rfl).bind (Edits.ite_neg h1 ?_))
      exact (Edits.p2vLoad hv ha rfl).bind ((Edits.p2vLoad hv hb rfl).bind hx)
    refine hloads ?_
    by_cases h2 : m (vmaOf b) .vmaStart < m (vmaOf a) .vmaStart
    · rw [show startOrder m a b = 1 from (if_neg h1).trans (if_pos h2)]
      exact Edits.ite_pos h2 (Edits.pure _)
    · rw [show startOrder m a b = 0 from (if_neg h1).trans (if_neg h2)]
      exact Edits.ite_neg h2 (Edits.pure _)

theorem vmaCmp_compares (hv : View off) (hs : ∀ x ∈ l, L.Stored (vmaOf x)) :
    Compares L off root l vmaCmp (startOrder m) m := by
  intro m' ht a ha b hb
  have hstart : ∀ x, m' (vmaOf x) .vmaStart = m (vmaOf x) .vmaStart := fun x =>
    touches_vma ht vmaStart_not_link (by decide)
  rw [← startOrder_congr (hstart a) (hstart b)]
  exact vmaCmp_edits hv (hs a ha) (hs b hb)

end Vm
end MikroKernel
