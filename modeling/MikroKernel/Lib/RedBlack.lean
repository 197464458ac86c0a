import Mathlib.Tactic

/-!
# Red-black trees with a hole

A red-black tree that is being repaired is a subtree and a context: the nodes on the way from the
subtree up to the root, each with the subtree on its other side. The library has the trees, the
contexts, and what it takes of each of the two for the whole to be a red-black tree: the subtree is
`Balanced` with some black height, and the context `Fits` a subtree of that height.

The two sides are alike, so a node is written with its children as "the one on side `d` and the
other" (`RBTree.on`); what is said of it that way is said of both mirror images.
-/

set_option autoImplicit false

namespace RedBlack

inductive Color
  | red | black
deriving DecidableEq, Repr

inductive Side
  | left | right
deriving DecidableEq, Repr

def Side.flip : Side → Side
  | .left => .right
  | .right => .left

@[simp] theorem Side.flip_flip (d : Side) : d.flip.flip = d := by cases d <;> rfl

inductive RBTree (α : Type*)
  | nil
  | node (c : Color) (l : RBTree α) (a : α) (r : RBTree α)
deriving DecidableEq, Repr

variable {α : Type*} {d : Side} {c : Color} {t u l r : RBTree α} {a : α} {n : Nat}

namespace RBTree

/-- The node with `t` on side `d` and `u` on the other. -/
def on (d : Side) (c : Color) (t : RBTree α) (a : α) (u : RBTree α) : RBTree α :=
  match d with
  | .left => .node c t a u
  | .right => .node c u a t

theorem on_flip (d : Side) (c : Color) (t : RBTree α) (a : α) (u : RBTree α) :
    on d.flip c t a u = on d c u a t := by cases d <;> rfl

/-- The empty tree counts as black. -/
def color : RBTree α → Color
  | .nil => .black
  | .node c _ _ _ => c

@[simp] theorem color_on : (on d c t a u).color = c := by cases d <;> rfl

/-- The labels in order. -/
def toList : RBTree α → List α
  | .nil => []
  | .node _ l a r => l.toList ++ a :: r.toList

def size : RBTree α → Nat
  | .nil => 0
  | .node _ l _ r => l.size + r.size + 1

def height : RBTree α → Nat
  | .nil => 0
  | .node _ l _ r => max l.height r.height + 1

/-- No red node has a red child, and every way down meets `n` black nodes. -/
def Balanced : RBTree α → Nat → Prop
  | .nil, n => n = 0
  | .node .red l _ r, n => l.Balanced n ∧ r.Balanced n ∧ l.color = .black ∧ r.color = .black
  | .node .black l _ r, n => ∃ k, n = k + 1 ∧ l.Balanced k ∧ r.Balanced k

theorem balanced_on_red :
    (on d .red t a u).Balanced n ↔
      t.Balanced n ∧ u.Balanced n ∧ t.color = .black ∧ u.color = .black := by
  cases d
  · exact Iff.rfl
  · show (u.Balanced n ∧ t.Balanced n ∧ u.color = .black ∧ t.color = .black) ↔ _
    tauto

theorem balanced_on_black :
    (on d .black t a u).Balanced n ↔ ∃ k, n = k + 1 ∧ t.Balanced k ∧ u.Balanced k := by
  cases d
  · exact Iff.rfl
  · constructor
    · rintro ⟨k, hk, h1, h2⟩
      exact ⟨k, hk, h2, h1⟩
    · rintro ⟨k, hk, h1, h2⟩
      exact ⟨k, hk, h2, h1⟩

theorem balanced_on_black_succ :
    (on d .black t a u).Balanced (n + 1) ↔ t.Balanced n ∧ u.Balanced n := by
  rw [balanced_on_black]
  constructor
  · rintro ⟨k, hk, h⟩
    obtain rfl : n = k := Nat.succ.inj hk
    exact h
  · exact fun h => ⟨n, rfl, h⟩

/-- The tree with a black root. -/
def blacken : RBTree α → RBTree α
  | .nil => .nil
  | .node _ l a r => .node .black l a r

@[simp] theorem blacken_on : (on d c t a u).blacken = on d .black t a u := by cases d <;> rfl

@[simp] theorem color_blacken (t : RBTree α) : t.blacken.color = .black := by cases t <;> rfl

theorem blacken_of_black (h : t.color = .black) : t.blacken = t := by
  cases t with
  | nil => rfl
  | node c l a r =>
    obtain rfl : c = .black := h
    rfl

theorem Balanced.blacken_red (h : t.Balanced n) (hc : t.color = .red) :
    t.blacken.Balanced (n + 1) := by
  cases t with
  | nil => exact absurd hc (by simp [color])
  | node c l a r =>
    obtain rfl : c = .red := hc
    exact ⟨n, rfl, h.1, h.2.1⟩

/-- Making the root black adds a black node to every way down, or none. -/
theorem Balanced.blacken (h : (on d c t a u).Balanced n) :
    ∃ k, (on d .black t a u).Balanced k := by
  cases c with
  | red =>
    obtain ⟨h1, h2, -, -⟩ := balanced_on_red.mp h
    exact ⟨n + 1, balanced_on_black_succ.mpr ⟨h1, h2⟩⟩
  | black => exact ⟨n, h⟩

/-- A red-black tree. -/
def Valid (t : RBTree α) : Prop := (∃ n, t.Balanced n) ∧ t.color = .black

theorem valid_nil : (nil : RBTree α).Valid := ⟨⟨0, rfl⟩, rfl⟩

/-- A tree with a black node on every way down is not empty. -/
theorem Balanced.exists_on (h : t.Balanced (n + 1)) (d : Side) :
    ∃ c l a r, t = on d c l a r := by
  cases t with
  | nil => exact absurd h (by simp [Balanced])
  | node c l a r =>
    cases d with
    | left => exact ⟨c, l, a, r, rfl⟩
    | right => exact ⟨c, r, a, l, rfl⟩

/-- A red node, from either side. -/
theorem exists_on_of_red (h : t.color = .red) (d : Side) : ∃ l a r, t = on d .red l a r := by
  cases t with
  | nil => exact absurd h (by simp [color])
  | node c l a r =>
    obtain rfl : c = .red := h
    cases d with
    | left => exact ⟨l, a, r, rfl⟩
    | right => exact ⟨r, a, l, rfl⟩

theorem color_eq_black (h : t.color ≠ .red) : t.color = .black := by
  cases hc : t.color with
  | red => exact absurd hc h
  | black => rfl

/-! ## Height -/

/-- One more than twice the black height at most, and not even that under a black root. -/
theorem Balanced.height_le (h : t.Balanced n) :
    t.height ≤ 2 * n + 1 ∧ (t.color = .black → t.height ≤ 2 * n) := by
  induction t generalizing n with
  | nil => exact ⟨Nat.zero_le _, fun _ => Nat.zero_le _⟩
  | node c l a r ihl ihr =>
    cases c with
    | red =>
      obtain ⟨hl, hr, hlb, hrb⟩ := h
      have h1 := (ihl hl).2 hlb
      have h2 := (ihr hr).2 hrb
      exact ⟨by simp only [height]; omega, fun hc => absurd hc (by simp [color])⟩
    | black =>
      obtain ⟨k, rfl, hl, hr⟩ := h
      have h1 := (ihl hl).1
      have h2 := (ihr hr).1
      refine ⟨?_, fun _ => ?_⟩ <;> simp only [height] <;> omega

theorem Balanced.two_pow_le (h : t.Balanced n) : 2 ^ n ≤ t.size + 1 := by
  induction t generalizing n with
  | nil =>
    obtain rfl : n = 0 := h
    exact Nat.le_refl 1
  | node c l a r ihl ihr =>
    cases c with
    | red =>
      have h1 := ihl h.1
      simp only [size]
      omega
    | black =>
      obtain ⟨k, rfl, hl, hr⟩ := h
      have h1 := ihl hl
      have h2 := ihr hr
      rw [Nat.pow_succ]
      simp only [size]
      omega

/-- **A red-black tree is low.** -/
theorem Valid.height_le (h : t.Valid) : t.height ≤ 2 * Nat.log 2 (t.size + 1) := by
  obtain ⟨⟨n, hn⟩, hc⟩ := h
  have h1 := hn.height_le.2 hc
  have h2 := Nat.le_log_of_pow_le (by omega) hn.two_pow_le
  omega

end RBTree

open RedBlack.RBTree

/-! ## Contexts -/

/-- A node above the hole: the side the hole is on, the colour, the label, and the other child. -/
structure Frame (α : Type*) where
  side : Side
  color : Color
  label : α
  sibling : RBTree α

def Frame.fill (f : Frame α) (t : RBTree α) : RBTree α := on f.side f.color t f.label f.sibling

theorem fill_ne_nil (f : Frame α) (t : RBTree α) : f.fill t ≠ .nil := by
  obtain ⟨d, c, a, sib⟩ := f
  cases d <;> simp [Frame.fill, on]

/-- The nodes above the hole, from the lowest up. -/
abbrev Ctx (α : Type*) := List (Frame α)

namespace Ctx

variable {f : Frame α} {ctx ctx' : Ctx α}

def plug : Ctx α → RBTree α → RBTree α
  | [], t => t
  | f :: ctx, t => plug ctx (f.fill t)

@[simp] theorem plug_nil (t : RBTree α) : plug [] t = t := rfl

@[simp] theorem plug_cons (f : Frame α) (ctx : Ctx α) (t : RBTree α) :
    plug (f :: ctx) t = plug ctx (f.fill t) := rfl

theorem plug_append (ctx ctx' : Ctx α) (t : RBTree α) :
    plug (ctx ++ ctx') t = plug ctx' (plug ctx t) := by
  induction ctx generalizing t with
  | nil => rfl
  | cons f ctx ih => exact ih (f.fill t)

/-- The nodes above the hole are on one way down. -/
theorem length_add_height_le (ctx : Ctx α) (t : RBTree α) :
    ctx.length + t.height ≤ (plug ctx t).height := by
  induction ctx generalizing t with
  | nil => simp
  | cons f ctx ih =>
    have hfill : t.height + 1 ≤ (f.fill t).height := by
      obtain ⟨d, c, a, sib⟩ := f
      cases d <;> simp only [Frame.fill, on, height] <;> omega
    have := ih (f.fill t)
    simp only [List.length_cons, plug_cons]
    omega

/-- The labels before the hole. -/
def before : Ctx α → List α
  | [] => []
  | ⟨.left, _, _, _⟩ :: ctx => before ctx
  | ⟨.right, _, a, sib⟩ :: ctx => before ctx ++ (sib.toList ++ [a])

/-- The labels behind it. -/
def after : Ctx α → List α
  | [] => []
  | ⟨.left, _, a, sib⟩ :: ctx => a :: sib.toList ++ after ctx
  | ⟨.right, _, _, _⟩ :: ctx => after ctx

theorem toList_plug (ctx : Ctx α) (t : RBTree α) :
    (plug ctx t).toList = before ctx ++ t.toList ++ after ctx := by
  induction ctx generalizing t with
  | nil => simp [before, after]
  | cons f ctx ih =>
    obtain ⟨d, c, a, sib⟩ := f
    rw [plug_cons, ih]
    cases d <;> simp [before, after, Frame.fill, on, toList]

theorem before_append (ctx ctx' : Ctx α) : before (ctx ++ ctx') = before ctx' ++ before ctx := by
  induction ctx with
  | nil => simp [before]
  | cons f ctx ih =>
    obtain ⟨d, c, a, sib⟩ := f
    cases d <;> simp [before, ih]

/-- The labels in no order that matters. -/
def labels : Ctx α → List α
  | [] => []
  | f :: ctx => f.label :: (f.sibling.toList ++ labels ctx)

theorem labels_append (ctx ctx' : Ctx α) : labels (ctx ++ ctx') = labels ctx ++ labels ctx' := by
  induction ctx with
  | nil => rfl
  | cons f ctx ih => simp [labels, ih]

theorem plug_ne_nil (h : t ≠ .nil) : plug ctx t ≠ .nil := by
  induction ctx generalizing t with
  | nil => exact h
  | cons f ctx ih => exact ih (fill_ne_nil f t)

theorem perm_fill (f : Frame α) (t : RBTree α) :
    (f.fill t).toList.Perm (f.label :: (f.sibling.toList ++ t.toList)) := by
  obtain ⟨d, c, a, sib⟩ := f
  cases d with
  | left =>
    show (t.toList ++ a :: sib.toList).Perm _
    exact List.perm_append_comm.trans (List.Perm.refl _)
  | right => exact List.perm_middle

theorem perm_plug (ctx : Ctx α) (t : RBTree α) :
    (plug ctx t).toList.Perm (labels ctx ++ t.toList) := by
  induction ctx generalizing t with
  | nil => exact List.Perm.refl _
  | cons f ctx ih =>
    refine (ih (f.fill t)).trans ?_
    refine ((perm_fill f t).append_left (labels ctx)).trans ?_
    simp only [labels, List.cons_append, List.append_assoc]
    refine List.perm_middle.trans (List.Perm.cons _ ?_)
    rw [← List.append_assoc, ← List.append_assoc]
    exact List.perm_append_comm.append_right _

theorem mem_plug {x : α} : x ∈ (plug ctx t).toList ↔ x ∈ labels ctx ∨ x ∈ t.toList := by
  rw [(perm_plug ctx t).mem_iff, List.mem_append]

theorem nodup_plug : (plug ctx t).toList.Nodup ↔
    (labels ctx).Nodup ∧ t.toList.Nodup ∧ ∀ x ∈ labels ctx, x ∉ t.toList := by
  rw [(perm_plug ctx t).nodup_iff, List.nodup_append']
  refine and_congr Iff.rfl (and_congr Iff.rfl ?_)
  rfl

/-- The node just above the hole is there and black. -/
def UnderBlack : Ctx α → Prop
  | [] => False
  | f :: _ => f.color = .black

/-- A subtree of black height `n` makes the whole balanced. A red node is under a black one. -/
def Fits : Ctx α → Nat → Prop
  | [], _ => True
  | f :: ctx, n =>
      f.sibling.Balanced n ∧
      match f.color with
      | .black => Fits ctx (n + 1)
      | .red => f.sibling.color = .black ∧ UnderBlack ctx ∧ Fits ctx n

/-- The labels do not matter. -/
theorem fits_append_label {b : α} {sib : RBTree α} :
    Fits (ctx ++ ⟨d, c, a, sib⟩ :: ctx') n ↔ Fits (ctx ++ ⟨d, c, b, sib⟩ :: ctx') n := by
  induction ctx generalizing n with
  | nil => exact Iff.rfl
  | cons f ctx ih =>
    obtain ⟨e, k, x, s⟩ := f
    have hunder : UnderBlack (ctx ++ ⟨d, c, a, sib⟩ :: ctx') ↔
        UnderBlack (ctx ++ ⟨d, c, b, sib⟩ :: ctx') := by
      cases ctx <;> exact Iff.rfl
    cases k with
    | black => exact and_congr Iff.rfl ih
    | red => exact and_congr Iff.rfl (and_congr Iff.rfl (and_congr hunder ih))

/-- **The whole from its parts.** -/
theorem valid_plug (hf : Fits ctx n) (ht : t.Balanced n) (hred : t.color = .red → UnderBlack ctx) :
    (plug ctx t).Valid := by
  induction ctx generalizing t n with
  | nil => exact ⟨⟨n, ht⟩, color_eq_black (fun h => hred h)⟩
  | cons f ctx ih =>
    obtain ⟨d, c, a, sib⟩ := f
    cases c with
    | black =>
      obtain ⟨hs, hf⟩ := hf
      exact ih hf (balanced_on_black_succ.mpr ⟨ht, hs⟩) (fun h => by simp [Frame.fill] at h)
    | red =>
      obtain ⟨hs, hsb, hu, hf⟩ := hf
      have htb : t.color = .black :=
        color_eq_black (fun h => absurd (hred h) (by simp [UnderBlack]))
      exact ih hf (balanced_on_red.mpr ⟨ht, hs, htb, hsb⟩) (fun _ => hu)

/-- **The parts from the whole.** -/
theorem exists_fits (h : (plug ctx t).Valid) :
    ∃ n, Fits ctx n ∧ t.Balanced n ∧ (t.color = .red → UnderBlack ctx) := by
  induction ctx generalizing t with
  | nil =>
    obtain ⟨⟨n, hn⟩, hc⟩ := h
    refine ⟨n, trivial, hn, fun hr => ?_⟩
    rw [show t.color = .black from hc] at hr
    exact absurd hr (by simp)
  | cons f ctx ih =>
    obtain ⟨d, c, a, sib⟩ := f
    obtain ⟨n, hf, hn, hred⟩ := ih h
    cases c with
    | black =>
      obtain ⟨k, rfl, ht, hs⟩ := balanced_on_black.mp hn
      exact ⟨k, ⟨hs, hf⟩, ht, fun _ => rfl⟩
    | red =>
      obtain ⟨ht, hs, htb, hsb⟩ := balanced_on_red.mp hn
      refine ⟨n, ⟨hs, hsb, hred (by simp [Frame.fill]), hf⟩, ht, fun hr => ?_⟩
      rw [htb] at hr
      exact absurd hr (by simp)

end Ctx

/-! ## Turning -/

/-- A rotation keeps the order. -/
theorem toList_rotate {c' : Color} {b : α} {v : RBTree α} :
    (on d c t a (on d c' u b v)).toList = (on d c' (on d c t a u) b v).toList := by
  cases d <;> simp [on, toList]

theorem toList_on_color {c' : Color} : (on d c t a u).toList = (on d c' t a u).toList := by
  cases d <;> rfl

end RedBlack
