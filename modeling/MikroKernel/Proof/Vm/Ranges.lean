import MikroKernel.Proof.Mmu.Runs

/-!
# Ranges of addresses and ranges of pages

The page tables are indexed by bits 12 to 47 of an address, and so by pages of half the space each
way. Between canonical addresses, which have bit 47 in all bits above, and page numbers there is
nothing lost: a range of pages is the range of addresses that a caller means (`covers_iff`).
-/

set_option autoImplicit false

namespace MikroKernel
namespace Mmu

variable {a : Args} {v P : Nat} {M : PageMap}

/-- Bits 48 to 63 are copies of bit 47. -/
def Canonical (v : Nat) : Prop := v < 2 ^ 47 ∨ 2 ^ 64 - 2 ^ 47 ≤ v ∧ v < 2 ^ 64

instance (v : Nat) : Decidable (Canonical v) := inferInstanceAs (Decidable (_ ∨ _))

/-- The first address of a page. -/
def pageBase (P : Nat) : Nat := if P < 2 ^ 35 then P * 2 ^ 12 else P * 2 ^ 12 + (2 ^ 64 - 2 ^ 48)

theorem pageBase_canonical (h : P < 2 ^ 36) : Canonical (pageBase P) := by
  unfold Canonical pageBase
  split <;> omega

theorem pageNo_pageBase (h : P < 2 ^ 36) : pageNo (pageBase P) = P := by
  unfold pageNo pageBase
  split <;> omega

namespace Args

/-- The end of the range. -/
def last (a : Args) : Nat := a.vaddr + a.numPages * a.size

/-- The address is in the range. -/
def Has (a : Args) (v : Nat) : Prop := a.vaddr ≤ v ∧ v < a.last

instance (a : Args) (v : Nat) : Decidable (a.Has v) := inferInstanceAs (Decidable (_ ∧ _))

/-- Whole pages, all on one side of the hole in the address space. -/
structure Proper (a : Args) : Prop where
  aligned : a.size ∣ a.vaddr
  side : a.last ≤ 2 ^ 47 ∨ 2 ^ 64 - 2 ^ 47 ≤ a.vaddr ∧ a.last ≤ 2 ^ 64

/-- **The pages of a range** are those of its addresses. -/
theorem Proper.noWrap (h : a.Proper) : a.NoWrap := by
  obtain ⟨⟨q, hq⟩, hside⟩ := h
  unfold last at hside
  unfold NoWrap first
  by_cases hmark : a.flags &&& pteHugePage = 0
  · simp only [slot_small hmark, size_small hmark] at hside hq ⊢
    unfold pageNo
    unfold pageSize at *
    omega
  · simp only [slot_huge hmark, size_huge hmark] at hside hq ⊢
    unfold pageNo
    unfold hugePageSize at *
    omega

theorem Proper.covers_iff (h : a.Proper) (hv : Canonical v) : a.Covers (pageNo v) ↔ a.Has v := by
  rw [h.noWrap.covers_iff]
  obtain ⟨⟨q, hq⟩, hside⟩ := h
  unfold Has last at *
  unfold first
  unfold Canonical at hv
  by_cases hmark : a.flags &&& pteHugePage = 0
  · simp only [slot_small hmark, size_small hmark] at hside hq ⊢
    unfold pageNo
    unfold pageSize at *
    omega
  · simp only [slot_huge hmark, size_huge hmark] at hside hq ⊢
    unfold pageNo
    unfold hugePageSize at *
    omega

/-- The frame a range gives to an address, up to the offset in the page. -/
theorem Proper.offset (h : a.Proper) (hin : a.Has v) :
    (a.slot (pageNo v) - a.first) * a.size + v % a.size = v - a.vaddr := by
  obtain ⟨⟨q, hq⟩, hside⟩ := h
  unfold Has last at *
  unfold first
  by_cases hmark : a.flags &&& pteHugePage = 0
  · simp only [slot_small hmark, size_small hmark] at hside hq hin ⊢
    unfold pageNo
    unfold pageSize at *
    omega
  · simp only [slot_huge hmark, size_huge hmark] at hside hq hin ⊢
    unfold pageNo
    unfold hugePageSize at *
    omega

end Args

/-- Nothing is mapped at the addresses of the range. -/
theorem fresh_of_addresses (h : a.Proper) (hnone : ∀ v, Canonical v → a.Has v → M (pageNo v) = none)
    {P : Nat} (hP : a.Covers P) : ¬ M P ≠ none := by
  have hlt := hP.lt
  have hc := pageBase_canonical hlt
  rw [← pageNo_pageBase hlt] at hP ⊢
  exact not_not.mpr (hnone _ hc ((h.covers_iff hc).mp hP))

/-- What is mapped after a range was added, by address. -/
theorem PageMap.map_ne_none (h : a.Proper) (hv : Canonical v) :
    M.map a (pageNo v) ≠ none ↔ a.Has v ∨ M (pageNo v) ≠ none := by
  unfold PageMap.map
  rw [← h.covers_iff hv]
  by_cases hc : a.Covers (pageNo v) <;> simp [hc]

/-- What is mapped after a range was deleted, by address. -/
theorem PageMap.unmap_ne_none (h : a.Proper) (hv : Canonical v) :
    M.unmap a (pageNo v) ≠ none ↔ ¬ a.Has v ∧ M (pageNo v) ≠ none := by
  unfold PageMap.unmap
  rw [← h.covers_iff hv]
  by_cases hc : a.Covers (pageNo v) <;> simp [hc]

end Mmu
end MikroKernel
