import MikroKernel.Proof.RbTree.Runs

/-!
# The tree of VMAs

The nodes are in the order of `vma_cmp`. Where each VMA ends before the next starts, `rb_find_vma`
finds the one that an address is in (`findVma_spec`).
-/

set_option autoImplicit false

namespace MikroKernel
namespace Vm

open Rb RedBlack RedBlack.RBTree

variable {L : Layout} {off root : Nat} {m m' : Mem} {l : List Nat} {t : RBTree Nat}

/-- The tree is the same in a memory with the same links and the same starts. -/
theorem isTree_congr (h : IsTree L root (startOrder m) m t) (hroot : m' root .ptr = m root .ptr)
    (hlinks : ∀ x ∈ t.toList, ∀ f, IsLink f → m' x f = m x f)
    (hstart : ∀ x ∈ t.toList, m' (vmaOf x) .vmaStart = m (vmaOf x) .vmaStart) :
    IsTree L root (startOrder m') m' t := by
  obtain ⟨hat, hvalid, hsorted⟩ := h
  have hnd : t.toList.Nodup := hat.nodup
  refine ⟨⟨hat.tree.congr hnd hlinks, hroot.trans hat.above, hat.list, hat.nodup,
    hat.stored, hat.image⟩, hvalid, ?_⟩
  refine hsorted.imp_of_mem (fun ha hb hlt => ?_)
  rwa [startOrder_congr (hstart _ ha) (hstart _ hb)]

/-! ## Finding -/

/-- The VMA of node `x` contains `addr`. -/
def Contains (m : Mem) (addr x : Nat) : Prop :=
  m (vmaOf x) .vmaStart ≤ addr ∧ addr < m (vmaOf x) .vmaEnd

/-- Each VMA ends before the next starts. -/
def Apart (m : Mem) (l : List Nat) : Prop :=
  l.Pairwise fun a b => m (vmaOf a) .vmaEnd ≤ m (vmaOf b) .vmaStart

/-- What `rb_find_vma` returns for a tree with the nodes `l`. -/
def Found (m : Mem) (l : List Nat) (addr r : Nat) : Prop :=
  (r = 0 ∧ ∀ x ∈ l, ¬ Contains m addr x) ∨ ∃ x ∈ l, r = vmaOf x ∧ Contains m addr x

/-- **`rb_find_vma` finds the VMA an address is in.** -/
theorem findVma_spec (addr : Nat) {fuel : Nat} (hv : View off)
    (h : IsTree L root (startOrder m) m t) (hvma : ∀ x ∈ t.toList, L.Stored (vmaOf x))
    (hapart : Apart m t.toList) (hfuel : t.height ≤ fuel) :
    ∃ r, Edits L off (rbFindVma fuel root addr) m r m ∧ Found m t.toList addr r := by
  have hsorted : t.toList.Pairwise fun x y => m (vmaOf x) .vmaStart < m (vmaOf y) .vmaStart :=
    h.sorted.imp startOrder_lt.mp
  rw [← SearchTree.inorder_shape t] at hsorted hapart ⊢
  refine ⟨_, (Edits.load h.at_.image h.at_.above).bind (findVmaLoop_edits hv h.at_ hvma hfuel), ?_⟩
  cases hfind :
    SearchTree.within (fun x => m (vmaOf x) .vmaStart) (fun x => m (vmaOf x) .vmaEnd) addr
      (SearchTree.shape t) with
  | none => exact Or.inl ⟨rfl, SearchTree.within_none hsorted hapart hfind⟩
  | some x =>
    obtain ⟨hx, hin⟩ := SearchTree.within_some hfind
    exact Or.inr ⟨x, hx, rfl, hin⟩

end Vm
end MikroKernel
