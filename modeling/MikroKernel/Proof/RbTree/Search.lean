import MikroKernel.Proof.RbTree.Turn

/-!
# Finding a place

The loops of `rb_find_exact` and `rb_insert` go down the tree by comparisons. Wherever they are, all
nodes before the hole compare less than the key and all nodes behind it greater (`Brackets`), so
what they end with is the node equal to the key, or the place where it would be.

A comparator is any function of the kernel that returns the sign of a total order and reads nothing
that the tree code writes (`Compares`).
-/

set_option autoImplicit false

namespace MikroKernel
namespace Rb

open RedBlack RedBlack.RBTree

/-! ## Comparators -/

/-- The sign of a total order, in which different nodes may be equal. -/
structure TotalCmp (c : Nat → Nat → Int) : Prop where
  swap : ∀ a b, c a b < 0 ↔ 0 < c b a
  trans : ∀ {a b d}, c a b ≤ 0 → c b d ≤ 0 → c a d ≤ 0

namespace TotalCmp

variable {c : Nat → Nat → Int} {a b d : Nat}

theorem le_swap (h : TotalCmp c) : c a b ≤ 0 ↔ 0 ≤ c b a := by
  have := h.swap b a
  omega

theorem eq_swap (h : TotalCmp c) (he : c a b = 0) : c b a = 0 := by
  have h1 := h.swap a b
  have h2 := h.swap b a
  omega

theorem lt_of_lt_of_le (h : TotalCmp c) (hab : c a b < 0) (hbd : c b d ≤ 0) : c a d < 0 := by
  have hle := h.trans (Int.le_of_lt hab) hbd
  by_contra hnlt
  have heq : c d a = 0 := h.eq_swap (by omega)
  have hba := h.trans hbd (Int.le_of_eq heq)
  have := (h.swap a b).mp hab
  omega

theorem lt_trans (h : TotalCmp c) (hab : c a b < 0) (hbd : c b d < 0) : c a d < 0 :=
  h.lt_of_lt_of_le hab (Int.le_of_lt hbd)

end TotalCmp

/-- `cmp` returns `c` for the nodes of `s`, whatever is written to links of these and to the root
variable. -/
def Compares (L : Layout) (off root : Nat) (s : List Nat) (cmp : Nat → Nat → K Int)
    (c : Nat → Nat → Int) (m : Mem) : Prop :=
  ∀ m', Touches root s m m' → ∀ a ∈ s, ∀ b ∈ s, Edits L off (cmp a b) m' (c a b) m'

variable {L : Layout} {off root key : Nat} {l s : List Nat} {m m' : Mem} {ctx : Ctx Nat}
  {k : Color} {t u : RBTree Nat} {a : Nat} {c : Nat → Nat → Int} {cmp : Nat → Nat → K Int}

theorem Touches.mono {l' : List Nat} (h : Touches root l m m') (hsub : ∀ x ∈ l, x ∈ l') :
    Touches root l' m m' := by
  intro x f hne
  exact (h x f hne).imp_right (fun hx => ⟨hsub x hx.1, hx.2⟩)

/-! ## Brackets -/

/-- In order, strictly. -/
def Sorted (c : Nat → Nat → Int) (l : List Nat) : Prop := l.Pairwise (fun a b => c a b < 0)

/-- Different nodes do not compare equal. -/
theorem Sorted.ne_of_ne (h : Sorted c l) (hc : TotalCmp c) {a b : Nat} (ha : a ∈ l) (hb : b ∈ l)
    (hne : a ≠ b) : c a b ≠ 0 := by
  have hpair : l.Pairwise (fun a b => c a b ≠ 0) := List.Pairwise.imp Int.ne_of_lt h
  have hsymm : Std.Symm (fun a b => c a b ≠ 0) := ⟨fun a b hab hba => hab (hc.eq_swap hba)⟩
  exact hpair.forall ha hb hne

/-- The key belongs into the hole. -/
structure Brackets (c : Nat → Nat → Int) (key : Nat) (ctx : Ctx Nat) : Prop where
  before : ∀ x ∈ Ctx.before ctx, c x key < 0
  after : ∀ x ∈ Ctx.after ctx, c key x < 0

theorem Brackets.nil (c : Nat → Nat → Int) (key : Nat) : Brackets c key [] :=
  ⟨fun _ hx => absurd hx List.not_mem_nil, fun _ hx => absurd hx List.not_mem_nil⟩

/-- The nodes left and right of the node in the hole. -/
theorem At.sides (h : At L root l m ctx (.node k t a u)) (hs : Sorted c l) :
    (∀ x ∈ t.toList, c x a < 0) ∧ ∀ x ∈ u.toList, c a x < 0 := by
  unfold Sorted at hs
  rw [← h.list, Ctx.toList_plug] at hs
  have hmid := (List.pairwise_append.mp (List.pairwise_append.mp hs).1).2.1
  simp only [toList] at hmid
  obtain ⟨-, hright, hleft⟩ := List.pairwise_append.mp hmid
  exact ⟨fun x hx => hleft x hx a List.mem_cons_self, (List.pairwise_cons.mp hright).1⟩

theorem Brackets.left (h : Brackets c key ctx) (hc : TotalCmp c)
    (hat : At L root l m ctx (.node k t a u)) (hs : Sorted c l) (hlt : c key a < 0) :
    Brackets c key (⟨.left, k, a, u⟩ :: ctx) := by
  refine ⟨h.before, fun x hx => ?_⟩
  simp only [Ctx.after, List.cons_append, List.mem_cons, List.mem_append] at hx
  rcases hx with rfl | hx | hx
  · exact hlt
  · exact hc.lt_trans hlt ((hat.sides hs).2 x hx)
  · exact h.after x hx

theorem Brackets.right (h : Brackets c key ctx) (hc : TotalCmp c)
    (hat : At L root l m ctx (.node k t a u)) (hs : Sorted c l) (hlt : 0 < c key a) :
    Brackets c key (⟨.right, k, a, t⟩ :: ctx) := by
  have hak := (hc.swap a key).mpr hlt
  refine ⟨fun x hx => ?_, h.after⟩
  simp only [Ctx.before, List.mem_append, List.mem_singleton] at hx
  rcases hx with hx | hx | rfl
  · exact h.before x hx
  · exact hc.lt_trans ((hat.sides hs).1 x hx) hak
  · exact hak

/-- At an empty hole no node is equal to the key. -/
theorem Brackets.ne_of_mem (h : Brackets c key ctx) (hc : TotalCmp c)
    (hat : At L root l m ctx .nil) :
    ∀ x ∈ l, c key x ≠ 0 := by
  intro x hx he
  rw [← hat.list, Ctx.toList_plug] at hx
  simp only [toList, List.append_nil, List.mem_append] at hx
  rcases hx with hx | hx
  · have := (hc.swap x key).mp (h.before x hx)
    omega
  · have := h.after x hx
    omega

/-! ## The loops -/

/-- **`rb_find_exact` from a hole on**: it ends at the node equal to the key, or there is none. It
visits at most as many nodes as the tree is high. -/
theorem findLoop_edits (hv : View off) (hc : TotalCmp c) (hs : Sorted c l)
    (hcmp : ∀ b ∈ l, Edits L off (cmp key b) m (c key b) m) (hat : At L root l m ctx t)
    (hb : Brackets c key ctx) {fuel : Nat} (hfuel : t.height ≤ fuel) :
    ∃ r, Edits L off (rbFindLoop key cmp fuel (addr t)) m r m ∧
      ((r = 0 ∧ ∀ x ∈ l, c key x ≠ 0) ∨
        (∃ ctx' k t₁ t₂, At L root l m ctx' (.node k t₁ r t₂) ∧
          Ctx.plug ctx' (.node k t₁ r t₂) = Ctx.plug ctx t ∧ c key r = 0)) := by
  induction t generalizing ctx fuel with
  | nil =>
    refine ⟨0, ?_, Or.inl ⟨rfl, hb.ne_of_mem hc hat⟩⟩
    cases fuel with
    | zero => exact Edits.ite_pos rfl (Edits.pure 0)
    | succ fuel => exact Edits.ite_pos rfl (Edits.pure 0)
  | node k t₁ a t₂ ih₁ ih₂ =>
    have ha := At.node (d := .left) hat
    cases fuel with
    | zero => exact absurd hfuel (by simp [height])
    | succ fuel =>
      simp only [height] at hfuel
      show ∃ r, Edits L off (rbFindLoop key cmp (fuel + 1) a) m r m ∧ _
      unfold rbFindLoop
      rcases Int.lt_trichotomy (c key a) 0 with hlt | heq | hgt
      · obtain ⟨r, hr, hpost⟩ := ih₁ (At.down (d := .left) hat) (hb.left hc hat hs hlt)
          (show t₁.height ≤ fuel by omega)
        refine ⟨r, Edits.ite_neg ha.ne_zero ((hcmp a ha.mem).bind (Edits.ite_pos hlt ?_)), hpost⟩
        exact (ha.load_near hv).bind hr
      · refine ⟨a, Edits.ite_neg ha.ne_zero ((hcmp a ha.mem).bind ?_),
          Or.inr ⟨ctx, k, t₁, t₂, hat, rfl, heq⟩⟩
        exact Edits.ite_neg (by omega) (Edits.ite_neg (by omega) (Edits.pure a))
      · obtain ⟨r, hr, hpost⟩ := ih₂ (At.downFlip (d := .left) hat) (hb.right hc hat hs hgt)
          (show t₂.height ≤ fuel by omega)
        refine ⟨r, Edits.ite_neg ha.ne_zero ((hcmp a ha.mem).bind ?_), hpost⟩
        exact Edits.ite_neg (by omega) (Edits.ite_pos hgt ((ha.load_far hv).bind hr))

/-- **The loop of `rb_insert` from a hole on**: it ends at the place of the node, or there is an
equal one. It visits at most as many nodes as the tree is high. -/
theorem insertLoop_edits (hv : View off) (hc : TotalCmp c) (hs : Sorted c l)
    (hcmp : ∀ b ∈ l, Edits L off (cmp key b) m (c key b) m) (hat : At L root l m ctx t)
    (hb : Brackets c key ctx) {fuel : Nat} (hfuel : t.height ≤ fuel) :
    (Edits L off (rbInsertLoop key cmp fuel (addr t) (top ctx)) m none m ∧ ∃ x ∈ l, c key x = 0) ∨
    ∃ ctx', Edits L off (rbInsertLoop key cmp fuel (addr t) (top ctx)) m (some (top ctx')) m ∧
      At L root l m ctx' .nil ∧ Ctx.plug ctx' .nil = Ctx.plug ctx t ∧ Brackets c key ctx' := by
  induction t generalizing ctx fuel with
  | nil =>
    refine Or.inr ⟨ctx, ?_, hat, rfl, hb⟩
    cases fuel with
    | zero => exact Edits.ite_pos rfl (Edits.pure _)
    | succ fuel => exact Edits.ite_pos rfl (Edits.pure _)
  | node k t₁ a t₂ ih₁ ih₂ =>
    have ha := At.node (d := .left) hat
    cases fuel with
    | zero => exact absurd hfuel (by simp [height])
    | succ fuel =>
      simp only [height] at hfuel
      -- what comes after the comparison
      have hstep : ∀ {r : Option Nat}, Edits L off (do
            if c key a < 0 then rbInsertLoop key cmp fuel (← p2vLoad a .left) a
            else if c key a > 0 then rbInsertLoop key cmp fuel (← p2vLoad a .right) a
            else pure none) m r m →
          Edits L off (rbInsertLoop key cmp (fuel + 1) a (top ctx)) m r m := fun hr =>
        Edits.ite_neg ha.ne_zero ((hcmp a ha.mem).bind hr)
      show (Edits L off (rbInsertLoop key cmp (fuel + 1) a (top ctx)) m none m ∧ _) ∨ ∃ ctx',
        Edits L off (rbInsertLoop key cmp (fuel + 1) a (top ctx)) m (some (top ctx')) m ∧ _
      rcases Int.lt_trichotomy (c key a) 0 with hlt | heq | hgt
      · have hgo : ∀ {r}, Edits L off (rbInsertLoop key cmp fuel (addr t₁) a) m r m → _ := fun hr =>
          hstep (Edits.ite_pos hlt ((ha.load_near hv).bind hr))
        exact (ih₁ (At.down (d := .left) hat) (hb.left hc hat hs hlt) (by omega)).imp
          (fun h => ⟨hgo h.1, h.2⟩) (Exists.imp (fun _ h => ⟨hgo h.1, h.2⟩))
      · refine Or.inl ⟨hstep ?_, a, ha.mem, heq⟩
        exact Edits.ite_neg (by omega) (Edits.ite_neg (by omega) (Edits.pure _))
      · have hgo : ∀ {r}, Edits L off (rbInsertLoop key cmp fuel (addr t₂) a) m r m → _ := fun hr =>
          hstep (Edits.ite_neg (by omega) (Edits.ite_pos hgt ((ha.load_far hv).bind hr)))
        exact (ih₂ (At.downFlip (d := .left) hat) (hb.right hc hat hs hgt) (by omega)).imp
          (fun h => ⟨hgo h.1, h.2⟩) (Exists.imp (fun _ h => ⟨hgo h.1, h.2⟩))

end Rb
end MikroKernel
