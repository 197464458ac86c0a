import MikroKernel.Lib.RedBlack
import Mathlib.Data.Tree.Basic

/-!
# Search trees of any shape

A walk down a binary tree that keeps the last node it liked finds the first such node of the
in-order list, as long as all nodes behind one that is liked are liked too (`find?_node`). In a list
that increases, the first element beyond a bound is the least one there (`find?_least`).
-/

set_option autoImplicit false

namespace SearchTree

open RedBlack (Side)

variable {α κ : Type*} {p : α → Bool} {l₁ l₂ l : List α} {a x : α} {t : BinaryTree α}

def inorder : BinaryTree α → List α
  | .nil => []
  | .node a l r => inorder l ++ a :: inorder r

/-- The nodes in order, from side `d` to the other. -/
def along : Side → BinaryTree α → List α
  | .left, t => inorder t
  | .right, t => (inorder t).reverse

/-- The child on side `d`. -/
def child : Side → BinaryTree α → BinaryTree α → BinaryTree α
  | .left, l, _ => l
  | .right, _, r => r

@[simp] theorem along_nil (d : Side) : along d (.nil : BinaryTree α) = [] := by cases d <;> rfl

theorem along_node (d : Side) (a : α) (l r : BinaryTree α) :
    along d (.node a l r) = along d (child d l r) ++ a :: along d (child d.flip l r) := by
  cases d with
  | left => rfl
  | right => simp [along, inorder, child, Side.flip]

@[simp] theorem mem_along {d : Side} : x ∈ along d t ↔ x ∈ inorder t := by
  cases d with
  | left => exact Iff.rfl
  | right => exact List.mem_reverse

theorem height_child_lt (d : Side) (a : α) (l r : BinaryTree α) :
    (child d l r).height < (BinaryTree.node a l r).height := by
  cases d <;> simp only [child, BinaryTree.height] <;> omega

/-- **One step of the walk**: a node that is liked is the new candidate, and what is behind it need
not be looked at; with one that is not, neither need what is before it. -/
theorem find?_node (hmono : (l₁ ++ a :: l₂).Pairwise fun x y => p x = true → p y = true)
    (best : Option α) :
    ((l₁ ++ a :: l₂).find? p).or best
      = if p a then (l₁.find? p).or (some a) else (l₂.find? p).or best := by
  obtain ⟨-, hbehind, hbefore⟩ := List.pairwise_append.mp hmono
  rw [List.find?_append]
  by_cases ha : p a = true
  · rw [if_pos ha, List.find?_cons_of_pos ha]
    cases l₁.find? p <;> rfl
  · have hnone : l₁.find? p = none :=
      List.find?_eq_none.mpr (fun x hx hp => ha (hbefore x hx a List.mem_cons_self hp))
    rw [if_neg ha, hnone, List.find?_cons_of_neg ha]
    rfl

/-- `P` holds at every node, of its label and its two subtrees. -/
def Everywhere (P : α → BinaryTree α → BinaryTree α → Prop) : BinaryTree α → Prop
  | .nil => True
  | .node a l r => P a l r ∧ Everywhere P l ∧ Everywhere P r

theorem Everywhere.and {P Q : α → BinaryTree α → BinaryTree α → Prop} :
    Everywhere (fun a l r => P a l r ∧ Q a l r) t ↔ Everywhere P t ∧ Everywhere Q t := by
  induction t with
  | nil => simp [Everywhere]
  | node a l r ihl ihr =>
    simp only [Everywhere, ihl, ihr]
    tauto

/-- The label of the root, if there is one. -/
def top : BinaryTree α → List α
  | .nil => []
  | .node a _ _ => [a]

theorem top_subset (t : BinaryTree α) : ∀ x ∈ top t, x ∈ inorder t := by
  cases t with
  | nil => exact fun x hx => absurd hx List.not_mem_nil
  | node a l r =>
    intro x hx
    rw [List.mem_singleton.mp hx]
    exact List.mem_append_right _ List.mem_cons_self

/-- In order as a whole, and so each node with its children. -/
theorem everywhere_of_pairwise {R : α → α → Prop} (h : (inorder t).Pairwise R) :
    Everywhere (fun a l r => (∀ x ∈ top l, R x a) ∧ ∀ x ∈ top r, R a x) t := by
  induction t with
  | nil => trivial
  | node a l r ihl ihr =>
    obtain ⟨hl, har, hcross⟩ := List.pairwise_append.mp h
    obtain ⟨ha, hr⟩ := List.pairwise_cons.mp har
    exact ⟨⟨fun x hx => hcross x (top_subset l x hx) a List.mem_cons_self,
      fun x hx => ha x (top_subset r x hx)⟩, ihl hl, ihr hr⟩

/-- A red-black tree without its colours. -/
def shape : RedBlack.RBTree α → BinaryTree α
  | .nil => .nil
  | .node _ l a r => .node a (shape l) (shape r)

@[simp] theorem inorder_shape (t : RedBlack.RBTree α) : inorder (shape t) = t.toList := by
  induction t with
  | nil => rfl
  | node c l a r ihl ihr => simp [shape, inorder, RedBlack.RBTree.toList, ihl, ihr]

@[simp] theorem height_shape (t : RedBlack.RBTree α) : (shape t).height = t.height := by
  induction t with
  | nil => rfl
  | node c l a r ihl ihr => simp [shape, RedBlack.RBTree.height, ihl, ihr]

section Bound

variable [Preorder κ] {key : α → κ} {bound : κ}

/-- The first element beyond a bound is the least one that is. -/
theorem find?_least (hs : l.Pairwise fun a b => key a < key b)
    (hp : ∀ a, p a = true ↔ bound < key a) (hx : l.find? p = some x) :
    x ∈ l ∧ bound < key x ∧ ∀ y ∈ l, bound < key y → key x ≤ key y := by
  obtain ⟨hpx, before, after, rfl, hnot⟩ := List.find?_eq_some_iff_append.mp hx
  refine ⟨List.mem_append_right _ List.mem_cons_self, (hp x).mp hpx, fun y hy hby => ?_⟩
  rcases List.mem_append.mp hy with hy | hy
  · exact absurd ((hp y).mpr hby) (by simpa using hnot y hy)
  · rcases List.mem_cons.mp hy with rfl | hy
    · exact le_refl _
    · have htail := (List.pairwise_append.mp hs).2.1
      exact le_of_lt ((List.pairwise_cons.mp htail).1 y hy)

/-- What is beyond a bound stays beyond it. -/
theorem pairwise_beyond (hs : l.Pairwise fun a b => key a < key b)
    (hp : ∀ a, p a = true ↔ bound < key a) :
    l.Pairwise fun x y => p x = true → p y = true :=
  hs.imp (fun hab hx => (hp _).mpr (lt_trans ((hp _).mp hx) hab))

end Bound

/-! ## Ranges -/

/-- The walk to the node whose range, from `start` to `stop`, contains `x`. -/
def within [LT κ] [LE κ] [DecidableLT κ] [DecidableLE κ] (start stop : α → κ) (x : κ) :
    BinaryTree α → Option α
  | .nil => none
  | .node a l r =>
      if x < start a then within start stop x l
      else if stop a ≤ x then within start stop x r
      else some a

variable [LinearOrder κ] {start stop : α → κ} {x : κ}

/-- What the walk ends at contains `x`. -/
theorem within_some (h : within start stop x t = some a) : a ∈ inorder t ∧ start a ≤ x ∧
    x < stop a := by
  induction t with
  | nil => exact absurd h (by simp [within])
  | node b l r ihl ihr =>
    unfold within at h
    split at h
    · obtain ⟨hmem, hin⟩ := ihl h
      exact ⟨List.mem_append_left _ hmem, hin⟩
    · rename_i hstart
      split at h
      · obtain ⟨hmem, hin⟩ := ihr h
        exact ⟨List.mem_append_right _ (List.mem_cons_of_mem _ hmem), hin⟩
      · rename_i hstop
        obtain rfl := Option.some.inj h
        exact ⟨List.mem_append_right _ List.mem_cons_self, not_lt.mp hstart, not_le.mp hstop⟩

/-- If the ranges are in order and each ends before the next starts, nothing is missed. -/
theorem within_none (hsorted : (inorder t).Pairwise fun a b => start a < start b)
    (hapart : (inorder t).Pairwise fun a b => stop a ≤ start b) (h : within start stop x t = none) :
    ∀ a ∈ inorder t, ¬ (start a ≤ x ∧ x < stop a) := by
  induction t with
  | nil => exact fun a ha => absurd ha List.not_mem_nil
  | node b l r ihl ihr =>
    unfold within at h
    obtain ⟨hsort₁, hsort₂, -⟩ := List.pairwise_append.mp hsorted
    obtain ⟨hafter, hsort₂⟩ := List.pairwise_cons.mp hsort₂
    obtain ⟨hap₁, hap₂, hbefore⟩ := List.pairwise_append.mp hapart
    obtain ⟨-, hap₂⟩ := List.pairwise_cons.mp hap₂
    split at h
    · rename_i hstart
      rintro a ha ⟨hle, hlt⟩
      rcases List.mem_append.mp ha with ha | ha
      · exact ihl hsort₁ hap₁ h a ha ⟨hle, hlt⟩
      · rcases List.mem_cons.mp ha with rfl | ha
        · exact absurd hle (not_le.mpr hstart)
        · exact absurd (lt_of_le_of_lt hle hstart) (lt_asymm (hafter a ha))
    · split at h
      · rename_i hstop
        rintro a ha ⟨hle, hlt⟩
        rcases List.mem_append.mp ha with ha | ha
        · have hstart : start b < stop a := lt_of_le_of_lt (not_lt.mp ‹_›) hlt
          exact absurd (hbefore a ha b List.mem_cons_self) (not_le.mpr hstart)
        · rcases List.mem_cons.mp ha with rfl | ha
          · exact absurd hlt (not_lt.mpr hstop)
          · exact ihr hsort₂ hap₂ h a ha ⟨hle, hlt⟩
      · exact absurd h (by simp)

end SearchTree
