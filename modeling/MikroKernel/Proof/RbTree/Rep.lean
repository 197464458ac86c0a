import MikroKernel.Machine.Effect
import MikroKernel.Vm.RbTree

/-!
# A red-black tree in memory

`At` says that memory holds a tree with a hole and what is in the hole: every node has its colour,
its two children and its parent as the tree and the context have them, and the root variable leads
to the root. Moving the hole up or down is the same memory seen with another context (`At.up`,
`At.down`), so each piece of code is looked at where it works: a store of a colour (`recolor_turns`)
and a rotation (`rotate_turns`) at the hole.

`Turns` is the judgment for the code: it returns, with a property of the result and the memory, and
writes nothing but links and colours of the nodes it has and the root variable.
-/

set_option autoImplicit false

namespace MikroKernel
namespace Rb

open RedBlack RedBlack.RBTree

/-! ## Links -/

def colorVal : Color → Nat
  | .red => rbRed
  | .black => rbBlack

/-- The address of the root, `NULL` for the empty tree. -/
def addr : RBTree Nat → Nat
  | .nil => 0
  | .node _ _ a _ => a

@[simp] theorem addr_on {d : Side} {c : Color} {t u : RBTree Nat} {a : Nat} :
    addr (on d c t a u) = a := by cases d <;> rfl

/-- The fields of a `struct rb_node`. -/
def IsLink (f : Field) : Prop := f = .left ∨ f = .right ∨ f = .parent ∨ f = .color

theorem isLink_field (d : Side) : IsLink d.field := by cases d <;> simp [IsLink, Side.field]

theorem isLink_left : IsLink .left := isLink_field .left

theorem isLink_right : IsLink .right := isLink_field .right

theorem isLink_parent : IsLink .parent := by simp [IsLink]

theorem isLink_color : IsLink .color := by simp [IsLink]

theorem field_ne_flip (d : Side) : d.field ≠ d.flip.field := by cases d <;> decide

theorem field_ne_parent (d : Side) : d.field ≠ .parent := by cases d <;> decide

theorem field_ne_color (d : Side) : d.field ≠ .color := by cases d <;> decide

/-- Memory holds the tree, under the parent `par`. -/
def Rep (m : Mem) : RBTree Nat → Nat → Prop
  | .nil, _ => True
  | .node c l a r, par =>
      a ≠ 0 ∧ m a .color = colorVal c ∧ m a .parent = par ∧ m a .left = addr l ∧
        m a .right = addr r ∧ Rep m l a ∧ Rep m r a

/-- The parent of what is in the hole. -/
def top : Ctx Nat → Nat
  | [] => 0
  | f :: _ => f.label

/-- Memory holds the context, with a link to `p` at the hole. -/
def CtxRep (m : Mem) (root : Nat) : Ctx Nat → Nat → Prop
  | [], p => m root .ptr = p
  | f :: ctx, p =>
      f.label ≠ 0 ∧ m f.label .color = colorVal f.color ∧ m f.label .parent = top ctx ∧
        m f.label f.side.field = p ∧ m f.label f.side.flip.field = addr f.sibling ∧
        Rep m f.sibling f.label ∧ CtxRep m root ctx f.label

variable {L : Layout} {off root par p p' : Nat} {l : List Nat} {m m' : Mem} {ctx : Ctx Nat}
  {d : Side} {c c' : Color} {t u v : RBTree Nat} {a b : Nat} {f : RedBlack.Frame Nat}

theorem rep_on : Rep m (on d c t a u) par ↔
    a ≠ 0 ∧ m a .color = colorVal c ∧ m a .parent = par ∧ m a d.field = addr t ∧
      m a d.flip.field = addr u ∧ Rep m t a ∧ Rep m u a := by
  cases d with
  | left => exact Iff.rfl
  | right =>
    show _ ∧ _ ∧ _ ∧ m a .left = addr u ∧ m a .right = addr t ∧ Rep m u a ∧ Rep m t a ↔
      _ ∧ _ ∧ _ ∧ m a .right = addr t ∧ m a .left = addr u ∧ Rep m t a ∧ Rep m u a
    tauto

theorem addr_mem (h : addr t ≠ 0) : addr t ∈ t.toList := by
  cases t with
  | nil => exact absurd rfl h
  | node c l a r => simp [addr, toList]

theorem addr_ne_zero (h : Rep m t par) : addr t = 0 ↔ t = .nil := by
  cases t with
  | nil => simp [addr]
  | node c l a r => simpa [addr] using h.1

/-- Other links in memory, and another parent for the root. -/
theorem Rep.reparent {par' : Nat} (h : Rep m t par) (hnd : t.toList.Nodup)
    (hsame : ∀ x ∈ t.toList, ∀ f, IsLink f → ¬ (x = addr t ∧ f = .parent) → m' x f = m x f)
    (hpar : t ≠ .nil → m' (addr t) .parent = par') : Rep m' t par' := by
  induction t generalizing par par' with
  | nil => trivial
  | node c l a r ihl ihr =>
    obtain ⟨h0, hc, -, hl, hr, hrl, hrr⟩ := h
    simp only [toList, List.nodup_append', List.nodup_cons] at hnd
    obtain ⟨hndl, ⟨har, hndr⟩, hdis⟩ := hnd
    have hal : a ∉ l.toList := fun hx => hdis hx List.mem_cons_self
    have hself : ∀ f, IsLink f → f ≠ .parent → m' a f = m a f := fun f hf hne =>
      hsame a (by simp [toList]) f hf (fun hc => hne hc.2)
    have hbelow : ∀ {s : RBTree Nat}, (∀ x ∈ s.toList, x ∈ l.toList ∨ x ∈ r.toList) →
        ∀ x ∈ s.toList, ∀ f, IsLink f → m' x f = m x f := by
      intro s hs x hx f hf
      refine hsame x ?_ f hf ?_
      · rcases hs x hx with h1 | h1 <;> simp [toList, h1]
      · rintro ⟨rfl, -⟩
        rcases hs _ hx with h1 | h1
        · exact hal h1
        · exact har h1
    have hrootpar : ∀ {s : RBTree Nat}, Rep m s a → s ≠ .nil → m (addr s) .parent = a := by
      intro s hs hne
      cases s with
      | nil => exact absurd rfl hne
      | node c' l' a' r' => exact hs.2.2.1
    have hlmem := hbelow (s := l) (fun _ hx => Or.inl hx)
    have hrmem := hbelow (s := r) (fun _ hx => Or.inr hx)
    refine ⟨h0, (hself _ isLink_color (by decide)).trans hc, hpar (by simp),
      (hself _ (isLink_field .left) (by decide)).trans hl,
      (hself _ (isLink_field .right) (by decide)).trans hr,
      ihl hrl hndl (fun x hx f hf _ => hlmem x hx f hf) (fun hne => ?_),
      ihr hrr hndr (fun x hx f hf _ => hrmem x hx f hf) (fun hne => ?_)⟩
    · rw [hlmem _ (addr_mem (fun h0 => hne ((addr_ne_zero hrl).mp h0))) _ isLink_parent]
      exact hrootpar hrl hne
    · rw [hrmem _ (addr_mem (fun h0 => hne ((addr_ne_zero hrr).mp h0))) _ isLink_parent]
      exact hrootpar hrr hne

/-- The same links. -/
theorem Rep.congr (h : Rep m t par) (hnd : t.toList.Nodup)
    (hsame : ∀ x ∈ t.toList, ∀ f, IsLink f → m' x f = m x f) : Rep m' t par := by
  refine h.reparent hnd (fun x hx f hf _ => hsame x hx f hf) (fun hne => ?_)
  cases t with
  | nil => exact absurd rfl hne
  | node c l a r =>
    exact (hsame a (by simp [toList]) _ isLink_parent).trans h.2.2.1

/-- The cell of the link at the hole. -/
def linkAddr (root : Nat) : Ctx Nat → Nat
  | [] => root
  | f :: _ => f.label

def linkField : Ctx Nat → Field
  | [] => .ptr
  | f :: _ => f.side.field

/-- The same links, but for the one at the hole. -/
theorem CtxRep.relink (h : CtxRep m root ctx p) (hnd : (Ctx.labels ctx).Nodup)
    (hlink : m' (linkAddr root ctx) (linkField ctx) = p')
    (hroot : ctx ≠ [] → m' root .ptr = m root .ptr)
    (hsame : ∀ x ∈ Ctx.labels ctx, ∀ f, IsLink f → ¬ (x = linkAddr root ctx ∧ f = linkField ctx) →
      m' x f = m x f) : CtxRep m' root ctx p' := by
  induction ctx generalizing p p' with
  | nil => exact hlink
  | cons f ctx ih =>
    obtain ⟨h0, hc, hp, -, hs, hrs, hctx⟩ := h
    simp only [Ctx.labels, List.nodup_cons, List.mem_append, not_or, List.nodup_append'] at hnd
    obtain ⟨⟨hfs, hfc⟩, hnds, hndc, -⟩ := hnd
    have hself : ∀ g, IsLink g → g ≠ f.side.field → m' f.label g = m f.label g := fun g hg hne =>
      hsame _ (by simp [Ctx.labels]) g hg (fun hc => hne hc.2)
    have hother : ∀ x, x ∈ f.sibling.toList ∨ x ∈ Ctx.labels ctx → ∀ g, IsLink g →
        m' x g = m x g := by
      intro x hx g hg
      refine hsame x ?_ g hg ?_
      · rcases hx with h1 | h1 <;> simp [Ctx.labels, h1]
      · rintro ⟨rfl, -⟩
        exact hx.elim hfs hfc
    refine ⟨h0, (hself _ isLink_color (field_ne_color _).symm).trans hc,
      (hself _ isLink_parent (field_ne_parent _).symm).trans hp, hlink,
      (hself _ (isLink_field _) (field_ne_flip _).symm).trans hs,
      hrs.congr hnds (fun x hx => hother x (Or.inl hx)), ih hctx hndc ?_ ?_ ?_⟩
    · -- the link to the next node up is as it was
      cases ctx with
      | nil => exact (hroot (by simp)).trans hctx
      | cons g ctx' =>
        have hg : g.label ∈ Ctx.labels (g :: ctx') := List.mem_cons_self
        exact (hother g.label (Or.inr hg) _ (isLink_field _)).trans hctx.2.2.2.1
    · exact fun _ => hroot (by simp)
    · exact fun x hx g hg _ => hother x (Or.inr hx) g hg

/-! ## A tree with a hole -/

/-- Memory holds the context and what is in the hole; `l` is the list of all nodes in order. -/
structure At (L : Layout) (root : Nat) (l : List Nat) (m : Mem) (ctx : Ctx Nat) (t : RBTree Nat) :
    Prop where
  tree : Rep m t (top ctx)
  above : CtxRep m root ctx (addr t)
  list : (Ctx.plug ctx t).toList = l
  nodup : l.Nodup
  stored : ∀ x ∈ l, L.Stored x
  image : L.image root = true

/-- The hole one node up. -/
theorem At.up (h : At L root l m (f :: ctx) t) : At L root l m ctx (f.fill t) := by
  obtain ⟨h0, hc, hp, hl, hs, hrs, hctx⟩ := h.above
  refine ⟨rep_on.mpr ⟨h0, hc, hp, hl, hs, h.tree, hrs⟩, ?_, h.list, h.nodup, h.stored, h.image⟩
  rw [RedBlack.Frame.fill, addr_on]
  exact hctx

/-- The hole one node down, on side `d`. -/
theorem At.down (h : At L root l m ctx (on d c t a u)) : At L root l m (⟨d, c, a, u⟩ :: ctx) t := by
  obtain ⟨h0, hc, hp, hl, hs, hrt, hru⟩ := rep_on.mp h.tree
  refine ⟨hrt, ⟨h0, hc, hp, hl, hs, hru, ?_⟩, h.list, h.nodup, h.stored, h.image⟩
  have := h.above
  rwa [addr_on] at this

/-- The hole one node down, on the other side. -/
theorem At.downFlip (h : At L root l m ctx (on d c t a u)) :
    At L root l m (⟨d.flip, c, a, t⟩ :: ctx) u := by
  rw [← on_flip] at h
  exact h.down

theorem At.mem (h : At L root l m ctx t) {x : Nat} (hx : x ∈ t.toList) : x ∈ l := by
  rw [← h.list]
  exact Ctx.mem_plug.mpr (Or.inr hx)

theorem At.mem_ctx (h : At L root l m ctx t) {x : Nat} (hx : x ∈ Ctx.labels ctx) : x ∈ l := by
  rw [← h.list]
  exact Ctx.mem_plug.mpr (Or.inl hx)

theorem Rep.ne_zero (h : Rep m t par) : 0 ∉ t.toList := by
  induction t generalizing par with
  | nil => simp [toList]
  | node c l a r ihl ihr =>
    obtain ⟨h0, -, -, -, -, hl, hr⟩ := h
    simp only [toList, List.mem_append, List.mem_cons, not_or]
    exact ⟨ihl hl, fun he => h0 he.symm, ihr hr⟩

theorem CtxRep.ne_zero (h : CtxRep m root ctx p) : 0 ∉ Ctx.labels ctx := by
  induction ctx generalizing p with
  | nil => simp [Ctx.labels]
  | cons f ctx ih =>
    obtain ⟨h0, -, -, -, -, hs, hctx⟩ := h
    simp only [Ctx.labels, List.mem_cons, List.mem_append, not_or]
    exact ⟨fun he => h0 he.symm, hs.ne_zero, ih hctx⟩

/-- No node is at `NULL`. -/
theorem At.ne_zero (h : At L root l m ctx t) {x : Nat} (hx : x ∈ l) : x ≠ 0 := by
  rintro rfl
  rw [← h.list, Ctx.mem_plug] at hx
  rcases hx with hx | hx
  · exact h.above.ne_zero hx
  · exact h.tree.ne_zero hx

theorem At.parts (h : At L root l m ctx t) :
    (Ctx.labels ctx).Nodup ∧ t.toList.Nodup ∧ ∀ x ∈ Ctx.labels ctx, x ∉ t.toList := by
  have := h.nodup
  rw [← h.list] at this
  exact Ctx.nodup_plug.mp this

theorem mem_on {x : Nat} : x ∈ (on d c t a u).toList ↔ x = a ∨ x ∈ t.toList ∨ x ∈ u.toList := by
  cases d <;> simp [on, toList] <;> tauto

theorem nodup_on : (on d c t a u).toList.Nodup ↔
    a ∉ t.toList ∧ a ∉ u.toList ∧ t.toList.Nodup ∧ u.toList.Nodup ∧
    ∀ x ∈ t.toList, x ∉ u.toList := by
  have hperm : (on d c t a u).toList.Perm (a :: (u.toList ++ t.toList)) :=
    Ctx.perm_fill ⟨d, c, a, u⟩ t
  rw [hperm.nodup_iff, List.nodup_cons, List.nodup_append', List.mem_append, not_or]
  constructor
  · rintro ⟨⟨h1, h2⟩, h3, h4, h5⟩
    exact ⟨h2, h1, h4, h3, fun x hx hx' => h5 hx' hx⟩
  · rintro ⟨h1, h2, h3, h4, h5⟩
    exact ⟨⟨h2, h1⟩, h4, h3, fun x hx hx' => h5 x hx' hx⟩

/-! ## The judgment -/

/-- What may be written: links of the nodes in `l`, and the root variable. -/
def Touches (root : Nat) (l : List Nat) (m m' : Mem) : Prop :=
  ∀ x f, m' x f ≠ m x f → (x = root ∧ f = .ptr) ∨ (x ∈ l ∧ IsLink f)

theorem Touches.refl (root : Nat) (l : List Nat) (m : Mem) : Touches root l m m :=
  fun _ _ h => absurd rfl h

theorem Touches.trans {m₁ m₂ m₃ : Mem} (h : Touches root l m₁ m₂) (h' : Touches root l m₂ m₃) :
    Touches root l m₁ m₃ := by
  intro x f hne
  by_cases hsame : m₃ x f = m₂ x f
  · exact h x f (fun he => hne (hsame.trans he))
  · exact h' x f hsame

theorem Touches.set {f : Field} {y : Nat} (ha : a ∈ l) (hf : IsLink f) :
    Touches root l m (m.set a f y) := by
  intro x g hne
  by_cases hc : x = a ∧ g = f
  · exact Or.inr ⟨hc.1 ▸ ha, hc.2 ▸ hf⟩
  · exact absurd (if_neg hc) hne

theorem Touches.setRoot {y : Nat} : Touches root l m (m.set root .ptr y) := by
  intro x g hne
  by_cases hc : x = root ∧ g = .ptr
  · exact Or.inl hc
  · exact absurd (if_neg hc) hne

/-- `x` returns with `P` of its result and the memory, and writes only what it may. -/
def Turns {α : Type} (L : Layout) (off root : Nat) (l : List Nat) (x : K α) (m : Mem)
    (P : α → Mem → Prop) : Prop :=
  ∃ y m', Edits L off x m y m' ∧ P y m' ∧ Touches root l m m'

namespace Turns

variable {α β : Type} {P : α → Mem → Prop} {Q : β → Mem → Prop}

theorem pure {y : α} (h : P y m) : Turns L off root l (Pure.pure y) m P :=
  ⟨y, m, Edits.pure y, h, Touches.refl root l m⟩

theorem bind {x : K α} {g : α → K β} (hx : Turns L off root l x m P)
    (hg : ∀ y m', P y m' → Turns L off root l (g y) m' Q) : Turns L off root l (x >>= g) m Q := by
  obtain ⟨y, m₁, hedit, hp, ht⟩ := hx
  obtain ⟨z, m₂, hedit', hq, ht'⟩ := hg y m₁ hp
  exact ⟨z, m₂, hedit.bind hedit', hq, ht.trans ht'⟩

theorem load {x : K α} {y : α} (hx : Edits L off x m y m) (h : P y m) :
    Turns L off root l x m P := ⟨y, m, hx, h, Touches.refl root l m⟩

/-- A load before the rest. -/
theorem bind_load {x : K α} {g : α → K β} {y : α} (hx : Edits L off x m y m)
    (hg : Turns L off root l (g y) m Q) : Turns L off root l (x >>= g) m Q := by
  obtain ⟨z, m₂, hedit', hq, ht'⟩ := hg
  exact ⟨z, m₂, hx.bind hedit', hq, ht'⟩

theorem mono {x : K α} {P' : α → Mem → Prop} (hx : Turns L off root l x m P)
    (hp : ∀ y m', P y m' → P' y m') : Turns L off root l x m P' := by
  obtain ⟨y, m₁, hedit, h, ht⟩ := hx
  exact ⟨y, m₁, hedit, hp y m₁ h, ht⟩

theorem ite_pos {q : Prop} [Decidable q] {x y : K α} (hq : q) (hx : Turns L off root l x m P) :
    Turns L off root l (if q then x else y) m P := by
  rwa [if_pos hq]

theorem ite_neg {q : Prop} [Decidable q] {x y : K α} (hq : ¬ q) (hy : Turns L off root l y m P) :
    Turns L off root l (if q then x else y) m P := by
  rwa [if_neg hq]

end Turns

end Rb
end MikroKernel
