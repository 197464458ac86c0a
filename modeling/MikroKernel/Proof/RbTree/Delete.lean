import MikroKernel.Proof.RbTree.DeleteFixup

/-!
# `rb_delete`

A node with at most one child is replaced by that child (`At.splice`). A node with two children is
replaced by its successor, the lowest node on the left way down from the right child, which was
taken out of its place before (`Detached`). Either way there is then a hole where a node is missing,
and if that node was black the fix-up starts there.
-/

set_option autoImplicit false

namespace MikroKernel
namespace Rb

open RedBlack RedBlack.RBTree

variable {L : Layout} {off root a y n : Nat} {l : List Nat} {m m' : Mem} {ctx ctx' : Ctx Nat}
  {d : Side} {k : Color} {t u w : RBTree Nat}

/-! ## Moving the hole over several nodes -/

theorem At.ups (h : At L root l m (ctx ++ ctx') t) : At L root l m ctx' (Ctx.plug ctx t) := by
  induction ctx generalizing t with
  | nil => exact h
  | cons f ctx ih => exact ih (At.up h)

theorem At.downs (h : At L root l m ctx' (Ctx.plug ctx t)) : At L root l m (ctx ++ ctx') t := by
  induction ctx generalizing t with
  | nil => exact h
  | cons f ctx ih => exact At.down (ih h)

/-! ## `rb_transplant` -/

theorem linkField_ne_parent (ctx : Ctx Nat) : linkField ctx ≠ .parent := by
  cases ctx with
  | nil => decide
  | cons f ctx => exact field_ne_parent _

/-- The memory after `rb_transplant`. -/
def transplanted (m : Mem) (root : Nat) (ctx : Ctx Nat) (r : Nat) : Mem :=
  adopt (m.set (linkAddr root ctx) (linkField ctx) r) r (top ctx)

theorem transplant_edits {node r : Nat} (hv : View off) (himg : L.image root = true)
    (hs : L.Stored node) (hpar : m node .parent = top ctx) (hl : LinkedAt L m node ctx)
    (hr : r ≠ 0 → L.Stored r) :
    Edits L off (rbTransplant root node r) m () (transplanted m root ctx r) := by
  unfold rbTransplant transplanted adopt
  refine (relink_edits .left hv himg hs hpar hl).bind ?_
  by_cases h0 : r = 0
  · rw [if_pos h0]
    exact Edits.ite_neg (not_not.mpr h0) (Edits.pure _)
  · rw [if_neg h0]
    refine Edits.ite_pos h0 ((Edits.p2vLoad hv hs ?_).bind (Edits.p2vStore hv (hr h0)))
    rw [Mem.set_ne (Or.inr (linkField_ne_parent ctx).symm), hpar]

/-- The cells `rb_transplant` leaves alone. -/
theorem transplanted_ne {x r : Nat} {g : Field}
    (hlink : ¬ (x = linkAddr root ctx ∧ g = linkField ctx)) (hr : ¬ (x = r ∧ g = .parent)) :
    transplanted m root ctx r x g = m x g := by
  unfold transplanted
  rw [adopt_ne hr, Mem.set_apply, if_neg hlink]

theorem transplanted_link {r : Nat} :
    transplanted m root ctx r (linkAddr root ctx) (linkField ctx) = r := by
  unfold transplanted
  rw [adopt_ne (fun h => linkField_ne_parent ctx h.2), Mem.set_self]

theorem transplanted_parent {r : Nat} (h0 : r ≠ 0) :
    transplanted m root ctx r r .parent = top ctx := by
  unfold transplanted adopt
  rw [if_neg h0, Mem.set_self]

/-- The root variable changes only where it is the link. -/
theorem transplanted_root {r : Nat} (hne : ctx ≠ []) :
    transplanted m root ctx r root .ptr = m root .ptr := by
  refine transplanted_ne ?_ (by simp)
  rintro ⟨-, hf⟩
  cases ctx with
  | nil => exact hne rfl
  | cons f ctx =>
    have hptr : IsLink .ptr := hf.symm ▸ isLink_field f.side
    simp [IsLink] at hptr

theorem transplanted_touches {r : Nat} (hctx : ∀ x ∈ Ctx.labels ctx, x ∈ l) (hr : r ≠ 0 → r ∈ l) :
    Touches root l m (transplanted m root ctx r) := by
  have hlink : Touches root l m (m.set (linkAddr root ctx) (linkField ctx) r) := by
    cases ctx with
    | nil => exact Touches.setRoot
    | cons f ctx => exact Touches.set (hctx _ List.mem_cons_self) (isLink_field _)
  refine hlink.trans ?_
  unfold transplanted adopt
  split
  · exact Touches.refl _ _ _
  · exact Touches.set (hr ‹_›) isLink_parent

/-- **A part of what is in the hole takes its place.** -/
theorem At.splice {par : Nat} (h : At L root l m ctx w) (ht : Rep m t par)
    (hsub : t.toList.Sublist w.toList) :
    At L root (Ctx.plug ctx t).toList (transplanted m root ctx (addr t)) ctx t := by
  obtain ⟨hndc, hnd, hdis⟩ := h.parts
  have hmem : addr t ≠ 0 → addr t ∈ w.toList := fun h0 => hsub.subset (addr_mem h0)
  have hlsub : (Ctx.plug ctx t).toList.Sublist l := by
    rw [← h.list, Ctx.toList_plug, Ctx.toList_plug]
    exact ((List.Sublist.refl _).append hsub).append (List.Sublist.refl _)
  refine ⟨?_, ?_, rfl, h.nodup.sublist hlsub, fun x hx => h.stored x (hlsub.subset hx), h.image⟩
  · refine ht.reparent (hnd.sublist hsub) (fun x hx f hf hne => ?_) (fun hne => ?_)
    · exact transplanted_ne (h.link_ne (hsub.subset hx) hf) hne
    · exact transplanted_parent (fun h0 => hne ((addr_ne_zero ht).mp h0))
  · refine h.above.relink hndc transplanted_link transplanted_root (fun x hx f hf hne => ?_)
    refine transplanted_ne hne ?_
    rintro ⟨rfl, -⟩
    exact hdis _ hx (hmem (h.ne_zero (h.mem_ctx hx)))

/-! ## The successor -/

/-- **`rb_minimum`** ends at the first node in order. -/
theorem minimum_edits (hv : View off) {c : Color} {fuel : Nat}
    (h : At L root l m ctx (.node c t a u)) (hfuel : (RBTree.node c t a u).height ≤ fuel) :
    ∃ way k y r, Edits L off (rbMinimum fuel a) m y m ∧
      Ctx.plug way (.node k .nil y r) = .node c t a u ∧ Ctx.before way = [] := by
  induction t generalizing ctx fuel c a u with
  | nil =>
    cases fuel with
    | zero => exact absurd hfuel (by simp [height])
    | succ fuel =>
      have ha := At.node (d := .left) h
      refine ⟨[], c, a, u, ?_, rfl, rfl⟩
      exact (ha.load_near hv).bind (Edits.ite_neg (not_not.mpr rfl) (Edits.pure a))
  | node c₁ t₁ b t₂ ih _ =>
    cases fuel with
    | zero => exact absurd hfuel (by simp [height])
    | succ fuel =>
      have ha := At.node (d := .left) h
      have hb := At.node (d := .left) (At.down (d := .left) h)
      have hle : (RBTree.node c₁ t₁ b t₂).height ≤ fuel := by
        simp only [height] at hfuel ⊢
        omega
      obtain ⟨way, k, y, r, hrun, hplug, hbefore⟩ := ih (At.down (d := .left) h) hle
      refine ⟨way ++ [⟨.left, c, a, u⟩], k, y, r, ?_, ?_, ?_⟩
      · exact (ha.load_near hv).bind
          (Edits.ite_pos hb.ne_zero ((ha.load_near hv).bind hrun))
      · rw [Ctx.plug_append, hplug]
        rfl
      · rw [Ctx.before_append, hbefore]
        rfl

/-- The successor `y` of `a` is out of its place, with its right link to the rest `t` of the right
subtree. `u` is the left subtree of `a`. -/
structure Detached (L : Layout) (root : Nat) (m : Mem) (ctx : Ctx Nat) (k : Color)
    (t : RBTree Nat) (a y : Nat) (u : RBTree Nat) : Prop where
  right : m y .right = addr t
  tree : Rep m t y
  parent : m a .parent = top ctx
  left : m a .left = addr u
  color : m a .color = colorVal k
  other : Rep m u a
  above : CtxRep m root ctx a
  linked : LinkedAt L m a ctx
  nodup : (Ctx.plug ctx (.node k u y t)).toList.Nodup
  stored : ∀ x ∈ (Ctx.plug ctx (.node k u y t)).toList, L.Stored x
  node : L.Stored a
  absent : a ∉ (Ctx.plug ctx (.node k u y t)).toList
  ne_zero : y ≠ 0
  image : L.image root = true

/-- The memory after the successor took the place of the node. -/
def replaced (m : Mem) (root : Nat) (ctx : Ctx Nat) (k : Color) (y p : Nat) : Mem :=
  (((transplanted m root ctx y).set y .left p).set p .parent y).set y .color (colorVal k)

/-- The link at the hole is in a node above it, or the root variable. -/
theorem link_ne {x : Nat} {g : Field} (hx : x ∉ Ctx.labels ctx) (hg : IsLink g) :
    ¬ (x = linkAddr root ctx ∧ g = linkField ctx) := by
  rintro ⟨rfl, rfl⟩
  cases ctx with
  | nil => simp [IsLink, linkField] at hg
  | cons f ctx => exact hx List.mem_cons_self

/-- The cells this leaves alone. -/
theorem replaced_ne {x p : Nat} {g : Field} (hy : x ≠ y) (hp : ¬ (x = p ∧ g = .parent))
    (hlink : ¬ (x = linkAddr root ctx ∧ g = linkField ctx)) :
    replaced m root ctx k y p x g = m x g := by
  unfold replaced
  rw [Mem.set_ne (Or.inl hy), Mem.set_apply, if_neg hp, Mem.set_ne (Or.inl hy),
    transplanted_ne hlink (fun h => hy h.1)]

/-- What the successor is made of. -/
theorem Detached.parts (h : Detached L root m ctx k t a y u) :
    (Ctx.labels ctx).Nodup ∧ u.toList.Nodup ∧ t.toList.Nodup ∧ y ∉ Ctx.labels ctx ∧
      y ∉ u.toList ∧ y ∉ t.toList ∧ (∀ x ∈ Ctx.labels ctx, x ∉ u.toList ∧ x ∉ t.toList) ∧
      ∀ x ∈ u.toList, x ∉ t.toList := by
  obtain ⟨hndc, hnd, hdis⟩ := Ctx.nodup_plug.mp h.nodup
  obtain ⟨hyu, hyt, hndu, hndt, hut⟩ := nodup_on (d := .left).mp hnd
  have hmem : ∀ {x}, x = y ∨ x ∈ u.toList ∨ x ∈ t.toList → x ∈ (RBTree.node k u y t).toList :=
    fun hx => mem_on (d := .left).mpr hx
  refine ⟨hndc, hndu, hndt, fun hx => hdis y hx (hmem (Or.inl rfl)), hyu, hyt, fun x hx => ?_, hut⟩
  exact ⟨fun hx' => hdis x hx (hmem (Or.inr (Or.inl hx'))),
    fun hx' => hdis x hx (hmem (Or.inr (Or.inr hx')))⟩

/-- **The successor takes the place of the node.** -/
theorem Detached.replace (h : Detached L root m ctx k t a y u) :
    At L root (Ctx.plug ctx (.node k u y t)).toList (replaced m root ctx k y (addr u)) ctx
      (.node k u y t) := by
  obtain ⟨hndc, hndu, hndt, hyc, hyu, hyt, hctx, hut⟩ := h.parts
  have hu : addr u ≠ 0 → addr u ∈ u.toList := addr_mem
  have hpy : addr u ≠ y := fun he => hyu (he ▸ hu (he ▸ h.ne_zero))
  have hzero : 0 ∉ Ctx.labels ctx := h.above.ne_zero
  refine ⟨⟨h.ne_zero, Mem.set_self _ _ _ _, ?_, ?_, ?_, ?_, ?_⟩, ?_, rfl, h.nodup,
    h.stored, h.image⟩
  · unfold replaced
    rw [Mem.set_ne (Or.inr (by decide)), Mem.set_ne (Or.inl hpy.symm),
      Mem.set_ne (Or.inr (by decide)), transplanted_parent h.ne_zero]
  · unfold replaced
    rw [Mem.set_ne (Or.inr (by decide)), Mem.set_ne (Or.inl hpy.symm), Mem.set_self]
  · unfold replaced
    rw [Mem.set_ne (Or.inr (by decide)), Mem.set_ne (Or.inl hpy.symm),
      Mem.set_ne (Or.inr (by decide))]
    exact (transplanted_ne (link_ne hyc isLink_right) (by simp)).trans h.right
  · refine h.other.reparent hndu (fun x hx f hf hne => replaced_ne ?_ hne ?_) (fun hne => ?_)
    · exact fun he => hyu (he ▸ hx)
    · exact link_ne (fun hc => (hctx x hc).1 hx) hf
    · unfold replaced
      rw [Mem.set_ne (Or.inl hpy), Mem.set_self]
  · refine h.tree.congr hndt (fun x hx f hf => replaced_ne ?_ ?_ ?_)
    · exact fun he => hyt (he ▸ hx)
    · rintro ⟨rfl, -⟩
      exact hut _ (hu (fun h0 => h.tree.ne_zero (h0 ▸ hx))) hx
    · exact link_ne (fun hc => (hctx x hc).2 hx) hf
  · have hkeep : ∀ {x f}, x ∈ Ctx.labels ctx → x ≠ y ∧ ¬ (x = addr u ∧ f = Field.parent) := by
      intro x f hx
      refine ⟨fun he => hyc (he ▸ hx), ?_⟩
      rintro ⟨rfl, -⟩
      exact (hctx _ hx).1 (hu (fun h0 => hzero (h0 ▸ hx)))
    refine h.above.relink hndc ?_ (fun hne => ?_)
      (fun x hx f hf hne => replaced_ne (hkeep (f := f) hx).1 (hkeep hx).2 hne)
    · have hlink : ∀ {g}, IsLink g → ¬ (linkAddr root ctx = y ∧ linkField ctx = g) := fun hg hc =>
        link_ne hyc hg ⟨hc.1.symm, hc.2.symm⟩
      unfold replaced
      rw [Mem.set_apply, if_neg (hlink isLink_color), Mem.set_apply,
        if_neg (fun hc => linkField_ne_parent ctx hc.2), Mem.set_apply,
        if_neg (hlink isLink_left)]
      exact transplanted_link
    · unfold replaced
      rw [Mem.set_ne (Or.inr (by decide)), Mem.set_ne (Or.inr (by decide)),
        Mem.set_ne (Or.inr (by decide)), transplanted_root hne]

theorem Detached.replace_edits {α : Type} (hv : View off) (h : Detached L root m ctx k t a y u)
    (hne : addr u ≠ 0) (z : α) :
    Edits L off (do
      rbTransplant root a y
      p2vStore y .left (← p2vLoad a .left)
      p2vStore (← p2vLoad y .left) .parent y
      p2vStore y .color (← p2vLoad a .color)
      pure z) m z (replaced m root ctx k y (addr u)) := by
  have hmem : ∀ {x}, x = y ∨ x ∈ u.toList → x ∈ (Ctx.plug ctx (.node k u y t)).toList := fun hx =>
    Ctx.mem_plug.mpr (Or.inr (mem_on (d := .left).mpr (hx.imp_right Or.inl)))
  have hsy : L.Stored y := h.stored y (hmem (Or.inl rfl))
  have hsu : L.Stored (addr u) := h.stored _ (hmem (Or.inr (addr_mem hne)))
  have hac : a ∉ Ctx.labels ctx := fun hx => h.absent (Ctx.mem_plug.mpr (Or.inl hx))
  have hay : a ≠ y := fun he => h.absent (hmem (Or.inl he))
  have hau : a ≠ addr u := fun he => h.absent (hmem (Or.inr (he ▸ addr_mem hne)))
  have hsame : ∀ {g}, IsLink g → transplanted m root ctx y a g = m a g := fun hg =>
    transplanted_ne (link_ne hac hg) (fun hc => hay hc.1)
  refine (transplant_edits hv h.image h.node h.parent h.linked (fun _ => hsy)).bind ?_
  refine (Edits.p2vLoad hv h.node ((hsame isLink_left).trans h.left)).bind ?_
  refine (Edits.p2vStore hv hsy).bind ?_
  refine (Edits.p2vLoad hv hsy (Mem.set_self _ _ _ _)).bind ((Edits.p2vStore hv hsu).bind ?_)
  refine (Edits.p2vLoad hv h.node ?_).bind ((Edits.p2vStore hv hsy).bind (Edits.pure z))
  rw [Mem.set_ne (Or.inl hau), Mem.set_ne (Or.inl hay), hsame isLink_color, h.color]

/-- The nodes in order, with and without the node that is replaced. -/
theorem successor_list {way : Ctx Nat} (ctx : Ctx Nat) (k ky : Color) (a y : Nat) (u r : RBTree Nat)
    (hway : Ctx.before way = []) :
    (Ctx.plug (way ++ ⟨.right, k, a, u⟩ :: ctx) (.node ky .nil y r)).toList =
      (Ctx.before ctx ++ u.toList) ++ a :: (y :: (Ctx.plug way r).toList ++ Ctx.after ctx) ∧
    (Ctx.plug ctx (.node k u y (Ctx.plug way r))).toList =
      (Ctx.before ctx ++ u.toList) ++ (y :: (Ctx.plug way r).toList ++ Ctx.after ctx) := by
  constructor
  · rw [Ctx.plug_append, Ctx.plug_cons, Ctx.toList_plug]
    simp only [RedBlack.Frame.fill, on, toList]
    rw [Ctx.toList_plug, Ctx.toList_plug way r, hway]
    simp [toList]
  · rw [Ctx.toList_plug]
    simp [toList]

/-- What is in the hole below the node may be changed, and is not looked at. -/
theorem At.detached (h : At L root l m (⟨.right, k, a, u⟩ :: ctx) w) (hright : m' y .right = addr t)
    (htree : Rep m' t y) (hsame : ∀ x ∈ l, x ∉ w.toList → ∀ f, IsLink f → m' x f = m x f)
    (hroot : m' root .ptr = m root .ptr) (hy : y ≠ 0)
    (hnodup : (Ctx.plug ctx (.node k u y t)).toList.Nodup)
    (hstored : ∀ x ∈ (Ctx.plug ctx (.node k u y t)).toList, L.Stored x)
    (habsent : a ∉ (Ctx.plug ctx (.node k u y t)).toList) : Detached L root m' ctx k t a y u := by
  obtain ⟨hndc, -, hdis⟩ := h.parts
  have hframe : ∀ x ∈ Ctx.labels (⟨.right, k, a, u⟩ :: ctx), ∀ f, IsLink f → m' x f = m x f :=
    fun x hx => hsame x (h.mem_ctx hx) (hdis x hx)
  have ha : ∀ f, IsLink f → m' a f = m a f := hframe a List.mem_cons_self
  have hctx : ∀ x ∈ Ctx.labels ctx, ∀ f, IsLink f → m' x f = m x f := fun x hx =>
    hframe x (List.mem_cons_of_mem _ (List.mem_append_right _ hx))
  have hu : ∀ x ∈ u.toList, ∀ f, IsLink f → m' x f = m x f := fun x hx =>
    hframe x (List.mem_cons_of_mem _ (List.mem_append_left _ hx))
  simp only [Ctx.labels, List.nodup_cons, List.nodup_append'] at hndc
  have hn := h.frame
  have hlinked := h.up.linkedAt (by rw [RedBlack.Frame.fill, addr_on]; exact hn.ne_zero)
  rw [RedBlack.Frame.fill, addr_on] at hlinked
  obtain ⟨-, -, -, -, -, hru, habove⟩ := h.above
  refine ⟨hright, htree, (ha _ isLink_parent).trans hn.parent, (ha _ isLink_left).trans hn.far,
    (ha _ isLink_color).trans hn.color, hru.congr hndc.2.1 hu, ?_, hlinked.congr hctx,
    hnodup, hstored, hn.stored, habsent, hy, h.image⟩
  refine habove.relink hndc.2.2.1 ?_ (fun _ => hroot) (fun x hx f hf _ => hctx x hx f hf)
  cases ctx with
  | nil => exact hroot.trans habove
  | cons f ctx => exact (hctx _ List.mem_cons_self _ (isLink_field _)).trans habove.2.2.2.1

/-- What is left of the list has no node twice, and not the one that is replaced. -/
theorem At.without {l₁ l₂ : List Nat} (h : At L root l m ctx w) (hl : l = l₁ ++ a :: l₂) :
    (l₁ ++ l₂).Nodup ∧ (∀ x ∈ l₁ ++ l₂, L.Stored x) ∧ a ∉ l₁ ++ l₂ := by
  have hnd := h.nodup
  rw [hl, List.nodup_middle, List.nodup_cons] at hnd
  refine ⟨hnd.2, fun x hx => h.stored x ?_, hnd.1⟩
  rw [hl]
  exact List.perm_middle.mem_iff.mpr (List.mem_cons_of_mem _ hx)

/-- A successor further down: the memory once it is out of its place. -/
def detachedMem (m : Mem) (root : Nat) (ctx : Ctx Nat) (r y p : Nat) : Mem :=
  ((transplanted m root ctx r).set y .right p).set p .parent y

section Far

variable {way : Ctx Nat} {ky : Color} {r : RBTree Nat} {f : RedBlack.Frame Nat}

theorem At.not_mem_rest (h : At L root l m ctx (.node ky .nil y r)) :
    y ∉ Ctx.labels ctx ∧ y ∉ r.toList ∧ y ∉ (Ctx.plug ctx r).toList := by
  obtain ⟨-, hnd, hdis⟩ := h.parts
  have hyc := fun hx => hdis y hx (mem_on (d := .left).mpr (Or.inl rfl))
  have hyr : y ∉ r.toList := (nodup_on (d := .left).mp hnd).2.1
  exact ⟨hyc, hyr, fun hx => (Ctx.mem_plug.mp hx).elim hyc hyr⟩

/-- The top of the rest of the right subtree. -/
theorem At.rest_mem (h : At L root l m (f :: way ++ ctx) r) :
    addr (Ctx.plug (f :: way) r) ∈ (Ctx.plug (f :: way) r).toList := by
  have hne : Ctx.plug (f :: way) r ≠ .nil := Ctx.plug_ne_nil (t := f.fill r) (fill_ne_nil f r)
  exact addr_mem (fun h0 => hne ((addr_ne_zero h.ups.tree).mp h0))

/-- **The successor, further down, is taken out of its place.** -/
theorem At.detached_far
    (h : At L root l m (f :: way ++ ⟨.right, k, a, u⟩ :: ctx) (.node ky .nil y r))
    (hnd : (Ctx.plug ctx (.node k u y (Ctx.plug (f :: way) r))).toList.Nodup)
    (hstored : ∀ x ∈ (Ctx.plug ctx (.node k u y (Ctx.plug (f :: way) r))).toList, L.Stored x)
    (habsent : a ∉ (Ctx.plug ctx (.node k u y (Ctx.plug (f :: way) r))).toList) :
    Detached L root (detachedMem m root (f :: way ++ ⟨.right, k, a, u⟩ :: ctx) (addr r) y
      (addr (Ctx.plug (f :: way) r))) ctx k (Ctx.plug (f :: way) r) a y u := by
  have hr : Rep m r y := (rep_on (d := .left).mp h.tree).2.2.2.2.2.2
  obtain ⟨-, -, hyl⟩ := h.not_mem_rest
  have h₁ := h.splice hr (by simp [toList])
  have h₂ := h₁.ups
  -- the two stores are to the successor and to the top of the rest
  have hsame : ∀ x ∈ (Ctx.plug (f :: way ++ ⟨.right, k, a, u⟩ :: ctx) r).toList, ∀ g,
      ¬ (x = addr (Ctx.plug (f :: way) r) ∧ g = .parent) →
      detachedMem m root (f :: way ++ ⟨.right, k, a, u⟩ :: ctx) (addr r) y
        (addr (Ctx.plug (f :: way) r)) x g =
      transplanted m root (f :: way ++ ⟨.right, k, a, u⟩ :: ctx) (addr r) x g := by
    intro x hx g hg
    have hxy : x ≠ y := fun he => hyl (he ▸ hx)
    unfold detachedMem
    rw [Mem.set_apply, if_neg hg, Mem.set_ne (Or.inl hxy)]
  refine h₂.detached ?_ ?_ (fun x hx hx' g _ => hsame x hx g ?_) ?_
    (At.node (d := .left) h).ne_zero hnd hstored habsent
  · unfold detachedMem
    rw [Mem.set_ne (Or.inr (by decide)), Mem.set_self]
  · refine h₂.tree.reparent h₂.parts.2.1 (fun x hx g _ hg => hsame x (h₂.mem hx) g hg) (fun _ => ?_)
    exact Mem.set_self _ _ _ _
  · rintro ⟨rfl, -⟩
    exact hx' h₁.rest_mem
  · unfold detachedMem
    rw [Mem.set_ne (Or.inr (by decide)), Mem.set_ne (Or.inr (by decide))]

/-- The code for a successor further down. -/
theorem detach_far (hv : View off)
    (h : At L root l m (f :: way ++ ⟨.right, k, a, u⟩ :: ctx) (.node ky .nil y r)) :
    Turns L off root l (rbDetachSuccessor root a y (addr r)) m (fun p m' => p = f.label ∧
      m' = detachedMem m root (f :: way ++ ⟨.right, k, a, u⟩ :: ctx) (addr r) y
        (addr (Ctx.plug (f :: way) r))) := by
  have hy := At.node (d := .left) h
  have hr : Rep m r y := (rep_on (d := .left).mp h.tree).2.2.2.2.2.2
  obtain ⟨hyc, hyr, hyl⟩ := h.not_mem_rest
  have h₁ := h.splice hr (by simp [toList])
  have hrmem : addr r ≠ 0 → addr r ∈ l := fun h0 =>
    h.mem (mem_on (d := .left).mpr (Or.inr (Or.inr (addr_mem h0))))
  have hrest := h₁.ups.mem h₁.rest_mem
  have hmem : addr (Ctx.plug (f :: way) r) ∈ l := by
    rw [← h.list]
    exact Ctx.mem_plug.mpr ((Ctx.mem_plug.mp hrest).imp_right
      (fun hx => mem_on (d := .left).mpr (Or.inr (Or.inr hx))))
  have hfa : f.label ≠ a := by
    intro he
    have hlabel : a ∈ Ctx.labels (way ++ ⟨.right, k, a, u⟩ :: ctx) := by
      rw [Ctx.labels_append]
      exact List.mem_append_right _ List.mem_cons_self
    exact (At.up h).parts.2.2 a hlabel (he ▸ mem_on.mpr (Or.inl rfl))
  have hpar : transplanted m root (f :: way ++ ⟨.right, k, a, u⟩ :: ctx) (addr r) y .parent =
      f.label := by
    refine (transplanted_ne (link_ne hyc isLink_parent) ?_).trans hy.parent
    rintro ⟨he, -⟩
    exact hyr (he ▸ addr_mem (he ▸ hy.ne_zero))
  have htop : y ≠ addr (Ctx.plug (f :: way) r) := fun he => hyl (he ▸ hrest)
  unfold rbDetachSuccessor
  refine Turns.bind_load (hy.load_parent hv)
    (Turns.ite_neg hfa (Turns.bind_load (hy.load_far hv) ?_))
  refine ⟨f.label, _, (transplant_edits hv h.image hy.stored hy.parent
    (h.linkedAt hy.ne_zero) (fun h0 => h.stored _ (hrmem h0))).bind ?_, ⟨rfl, rfl⟩, ?_⟩
  · refine (Edits.p2vLoad hv h.ups.frame.stored h₁.ups.frame.near).bind
      ((Edits.p2vStore hv hy.stored).bind ?_)
    refine (Edits.p2vLoad hv hy.stored (Mem.set_self _ _ _ _)).bind ?_
    refine (Edits.p2vStore hv (h.stored _ hmem)).bind (Edits.p2vLoad hv hy.stored ?_)
    rw [Mem.set_ne (Or.inl htop), Mem.set_ne (Or.inr (by decide)), hpar]
  · exact ((transplanted_touches (fun x hx => h.mem_ctx hx) hrmem).trans
      (Touches.set hy.mem isLink_right)).trans (Touches.set hmem isLink_parent)

/-- The code for a successor just below the node: it stays there. -/
theorem detach_near (hv : View off)
    (h : At L root l m (⟨.right, k, a, u⟩ :: ctx) (.node ky .nil y r)) :
    Edits L off (rbDetachSuccessor root a y (addr r)) m y m := by
  have hy := At.node (d := .left) h
  have hr : Rep m r y := (rep_on (d := .left).mp h.tree).2.2.2.2.2.2
  unfold rbDetachSuccessor
  refine (hy.load_parent hv).bind (Edits.ite_pos rfl ?_)
  by_cases h0 : addr r = 0
  · exact Edits.ite_neg (not_not.mpr h0) (Edits.pure y)
  · -- the parent is stored once more
    have hpar : m (addr r) .parent = y := by
      cases r with
      | nil => exact absurd rfl h0
      | node c r₁ b r₂ => exact hr.2.2.1
    have hsr : L.Stored (addr r) :=
      h.stored _ (h.mem (mem_on (d := .left).mpr (Or.inr (Or.inr (addr_mem h0)))))
    have hstore := Edits.p2vStore (m := m) (f := .parent) (v := y) hv hsr
    rw [Mem.set_eq_self hpar] at hstore
    exact Edits.ite_pos h0 (hstore.bind (Edits.pure y))

/-- **The successor is taken out of its place.** -/
theorem detach_turns (hv : View off)
    (h : At L root l m (way ++ ⟨.right, k, a, u⟩ :: ctx) (.node ky .nil y r))
    (hway : Ctx.before way = []) :
    Turns L off root l (rbDetachSuccessor root a y (addr r)) m (fun p m' =>
      p = top (way ++ ⟨.right, k, y, u⟩ :: ctx) ∧
        Detached L root m' ctx k (Ctx.plug way r) a y u) := by
  have hy := At.node (d := .left) h
  obtain ⟨hlist, hlist'⟩ := successor_list ctx k ky a y u r hway
  obtain ⟨hnd, hstored, habsent⟩ := h.without (h.list.symm.trans hlist)
  rw [← hlist'] at hnd hstored habsent
  cases way with
  | nil =>
    have hr : Rep m r y := (rep_on (d := .left).mp h.tree).2.2.2.2.2.2
    exact Turns.load (detach_near hv h) ⟨rfl,
      h.detached hy.far hr (fun _ _ _ _ _ => rfl) rfl hy.ne_zero hnd hstored habsent⟩
  | cons f way =>
    refine (detach_far hv h).mono ?_
    rintro _ _ ⟨rfl, rfl⟩
    exact ⟨rfl, h.detached_far hnd hstored habsent⟩

end Far

/-! ## The three cases -/

/-- A node with one child at most is out of the tree. -/
theorem removed {c : Color} (h : (Ctx.plug ctx (on d c t a .nil)).Valid) :
    (c = .black → ∃ n, t.Balanced n ∧ Ctx.Fits ctx (n + 1)) ∧
      (c = .red → ∃ n, t.Balanced n ∧ t.color = .black ∧ Ctx.Fits ctx n) := by
  obtain ⟨n, hfits, hb, -⟩ := Ctx.exists_fits h
  constructor
  · rintro rfl
    obtain ⟨j, rfl, ht, -⟩ := balanced_on_black.mp hb
    exact ⟨j, ht, hfits⟩
  · rintro rfl
    obtain ⟨ht, -, hc, -⟩ := balanced_on_red.mp hb
    exact ⟨n, ht, hc, hfits⟩

/-- `a` is out of the tree, and a node of colour `r.1` is missing at the hole. -/
def Unlinked (L : Layout) (root : Nat) (l : List Nat) (a len : Nat)
    (r : Nat × Nat × Nat) (m : Mem) :
    Prop :=
  ∃ ctx X c l₁ l₂, l = l₁ ++ a :: l₂ ∧ r = (colorVal c, addr X, top ctx) ∧
    At L root (l₁ ++ l₂) m ctx X ∧ ctx.length < len ∧
    (c = .black → ∃ n, X.Balanced n ∧ Ctx.Fits ctx (n + 1)) ∧
    (c = .red → ∃ n, X.Balanced n ∧ X.color = .black ∧ Ctx.Fits ctx n)

/-- A node with at most the child on side `d`. -/
theorem deleteOuter_turns {len : Nat} (hv : View off) (h : At L root l m ctx (on d k t a .nil))
    (hvalid : (Ctx.plug ctx (on d k t a .nil)).Valid) (hlen : ctx.length < len) :
    Turns L off root l (rbDeleteOuter d root a) m
      (fun r m' => Unlinked L root l a len (colorVal k, r) m') := by
  have ha := h.node
  have ht : Rep m t a := (rep_on.mp h.tree).2.2.2.2.2.1
  have hsub : t.toList.Sublist (on d k t a .nil).toList := by
    cases d <;> simp [on, toList]
  have hmem : addr t ≠ 0 → addr t ∈ l := fun h0 => h.mem (hsub.subset (addr_mem h0))
  have hlinked := h.linkedAt (by rw [addr_on]; exact ha.ne_zero)
  rw [addr_on] at hlinked
  have hlist : ∃ l₁ l₂, l = l₁ ++ a :: l₂ ∧ (Ctx.plug ctx t).toList = l₁ ++ l₂ := by
    rw [← h.list, Ctx.toList_plug, Ctx.toList_plug]
    cases d with
    | left => exact ⟨Ctx.before ctx ++ t.toList, Ctx.after ctx, by simp [on, toList], by simp⟩
    | right => exact ⟨Ctx.before ctx, t.toList ++ Ctx.after ctx, by simp [on, toList], by simp⟩
  obtain ⟨l₁, l₂, hl, hl'⟩ := hlist
  have hat := h.splice ht hsub
  rw [hl'] at hat
  unfold rbDeleteOuter
  refine Turns.bind_load (ha.load_near hv) (Turns.bind_load (ha.load_parent hv) ?_)
  refine Turns.bind_load (ha.load_near hv) ?_
  refine ⟨_, _, (transplant_edits hv h.image ha.stored ha.parent hlinked
    (fun h0 => h.stored _ (hmem h0))).bind (Edits.pure _), ?_, ?_⟩
  · exact ⟨ctx, t, k, l₁, l₂, hl, rfl, hat, hlen, removed hvalid⟩
  · exact transplanted_touches (fun x hx => h.mem_ctx hx) hmem

theorem replaced_touches (hne : addr u ≠ 0)
    (hsub : ∀ x ∈ (Ctx.plug ctx (.node k u y t)).toList, x ∈ l) :
    Touches root l m (replaced m root ctx k y (addr u)) := by
  have hmem : ∀ {x}, x = y ∨ x ∈ u.toList → x ∈ l := fun hx =>
    hsub _ (Ctx.mem_plug.mpr (Or.inr (mem_on (d := .left).mpr (hx.imp_right Or.inl))))
  have hy : y ∈ l := hmem (Or.inl rfl)
  refine ((transplanted_touches (fun x hx => hsub x (Ctx.mem_plug.mpr (Or.inl hx)))
    (fun _ => hy)).trans
    (Touches.set hy isLink_left)).trans
      ((Touches.set (hmem (Or.inr (addr_mem hne))) isLink_parent).trans
    (Touches.set hy isLink_color))

/-- A node with two children. -/
theorem deleteInner_turns {fuel len : Nat} {v : RBTree Nat} (hv : View off)
    (h : At L root l m ctx (.node k u a v)) (hvalid : (Ctx.plug ctx (.node k u a v)).Valid)
    (hu : addr u ≠ 0) (hright : addr v ≠ 0) (hfuel : v.height ≤ fuel)
    (hlen : ctx.length + v.height < len) :
    Turns L off root l (rbDeleteInner fuel root a) m (Unlinked L root l a len) := by
  have ha := At.node (d := .right) h
  have hdown := At.down (d := .right) h
  cases v with
  | nil => exact absurd rfl hright
  | node c t b w =>
    obtain ⟨way, ky, y, r, hmin, hplug, hway⟩ := minimum_edits hv hdown hfuel
    rw [← hplug] at hdown hvalid
    have hy := At.node (d := .left) hdown.downs
    obtain ⟨hlist, hlist'⟩ := successor_list ctx k ky a y u r hway
    have hl := hdown.downs.list.symm.trans hlist
    unfold rbDeleteInner
    refine Turns.bind_load (ha.load_near hv) (Turns.bind_load hmin ?_)
    refine Turns.bind_load (hy.load_color hv) (Turns.bind_load (hy.load_far hv) ?_)
    refine (detach_turns hv hdown.downs hway).bind ?_
    rintro p m₁ ⟨rfl, hdet⟩
    have hat := hdet.replace
    have hsub : ∀ x ∈ (Ctx.plug ctx (.node k u y (Ctx.plug way r))).toList, x ∈ l := by
      intro x hx
      rw [hlist'] at hx
      rw [hl]
      exact List.perm_middle.mem_iff.mpr (List.mem_cons_of_mem _ hx)
    refine ⟨_, _, hdet.replace_edits hv hu _, ?_, replaced_touches hu hsub⟩
    refine ⟨way ++ ⟨.right, k, y, u⟩ :: ctx, r, ky, _, _, hl, rfl, ?_, ?_, ?_⟩
    · rw [← hlist']
      exact (At.down (d := .right) hat).downs
    · have := Ctx.length_add_height_le way (.node ky .nil y r)
      rw [hplug] at this
      simp only [List.length_append, List.length_cons, height] at this hlen ⊢
      omega
    · -- the successor is missing where it was
      have hvalid' : (Ctx.plug (way ++ ⟨.right, k, a, u⟩ :: ctx) (.node ky .nil y r)).Valid := by
        rw [Ctx.plug_append]
        exact hvalid
      obtain ⟨hblack, hred⟩ := removed (d := .right) hvalid'
      refine ⟨fun hc => ?_, fun hc => ?_⟩
      · obtain ⟨n, hn, hfits⟩ := hblack hc
        exact ⟨n, hn, Ctx.fits_append_label.mp hfits⟩
      · obtain ⟨n, hn, hcol, hfits⟩ := hred hc
        exact ⟨n, hn, hcol, Ctx.fits_append_label.mp hfits⟩

/-- **The node is taken out**, in one of the three ways. -/
theorem unlink_turns {fuel : Nat} {v : RBTree Nat} (hv : View off)
    (h : At L root l m ctx (.node k u a v)) (hvalid : (Ctx.plug ctx (.node k u a v)).Valid)
    (hfuel : (Ctx.plug ctx (.node k u a v)).height < fuel) :
    Turns L off root l (rbUnlink fuel root a (colorVal k)) m (Unlinked L root l a fuel) := by
  have ha := At.node (d := .left) h
  have hheight := Ctx.length_add_height_le ctx (.node k u a v)
  have hnode : (RBTree.node k u a v).height = max u.height v.height + 1 := rfl
  have hru : Rep m u a := (rep_on (d := .left).mp h.tree).2.2.2.2.2.1
  have hrv : Rep m v a := (rep_on (d := .left).mp h.tree).2.2.2.2.2.2
  unfold rbUnlink
  refine Turns.bind_load (ha.load_near hv) ?_
  by_cases hu : addr u = 0
  · obtain rfl := (addr_ne_zero hru).mp hu
    refine Turns.ite_pos hu ?_
    exact (deleteOuter_turns (d := .right) hv h hvalid (by omega)).bind
      (fun r m' hr => Turns.pure hr)
  · refine Turns.ite_neg hu (Turns.bind_load (ha.load_far hv) ?_)
    by_cases hvz : addr v = 0
    · obtain rfl := (addr_ne_zero hrv).mp hvz
      refine Turns.ite_pos hvz ?_
      exact (deleteOuter_turns (d := .left) hv h hvalid (by omega)).bind
        (fun r m' hr => Turns.pure hr)
    · exact Turns.ite_neg hvz (deleteInner_turns hv h hvalid hu hvz (by omega) (by omega))

theorem Turns.mono_list {α : Type} {l' : List Nat} {x : K α} {P : α → Mem → Prop}
    (h : Turns L off root l' x m P) (hsub : ∀ x ∈ l', x ∈ l) : Turns L off root l x m P := by
  obtain ⟨y, m₁, hedit, hp, ht⟩ := h
  exact ⟨y, m₁, hedit, hp, ht.mono hsub⟩

/-- **`rb_delete` once the node is found.** -/
theorem deleteNode_turns {fuel : Nat} {v : RBTree Nat} (hv : View off)
    (h : At L root l m ctx (.node k u a v)) (hvalid : (Ctx.plug ctx (.node k u a v)).Valid)
    (hfuel : (Ctx.plug ctx (.node k u a v)).height < fuel) :
    Turns L off root l (rbDeleteNode fuel root a) m (fun b m' => b = true ∧
      ∃ t' l₁ l₂, l = l₁ ++ a :: l₂ ∧ At L root (l₁ ++ l₂) m' [] t' ∧ t'.Valid) := by
  have ha := At.node (d := .left) h
  unfold rbDeleteNode
  refine Turns.bind_load (ha.load_color hv) ((unlink_turns hv h hvalid hfuel).bind ?_)
  rintro _ m₁ ⟨ctx', X, c, l₁, l₂, hl, rfl, hat, hlen, hblack, hred⟩
  have hsub : ∀ x ∈ l₁ ++ l₂, x ∈ l := by
    intro x hx
    rw [hl]
    exact List.perm_middle.mem_iff.mpr (List.mem_cons_of_mem _ hx)
  cases c with
  | black =>
    obtain ⟨n, hn, hfits⟩ := hblack rfl
    refine Turns.ite_pos rfl ?_
    have hshort : ShortAt L root (l₁ ++ l₂) m₁ ctx' X n :=
      ⟨hat, hfits, fun _ => hn, fun hr => hn.blacken_red hr⟩
    refine ((deleteFixup_turns hv hshort rfl hlen).mono_list hsub).bind ?_
    rintro _ m₂ ⟨t', hat', hvalid'⟩
    exact Turns.pure ⟨rfl, t', l₁, l₂, hl, hat', hvalid'⟩
  | red =>
    obtain ⟨n, hn, hcol, hfits⟩ := hred rfl
    refine Turns.ite_neg (show ¬ colorVal .red = rbBlack by decide)
      (Turns.pure ⟨rfl, _, l₁, l₂, hl, hat.whole, ?_⟩)
    refine Ctx.valid_plug hfits hn (fun hr => ?_)
    rw [hcol] at hr
    exact absurd hr (by simp)

/-! ## The whole of it -/

/-- **`rb_delete` deletes** the node equal to the key. -/
theorem delete_edits {c : Nat → Nat → Int} {cmp : Nat → Nat → K Int} {fuel key : Nat}
    (hv : View off) (hc : TotalCmp c) (h : IsTree L root c m t)
    (hcmp : ∀ b ∈ t.toList, Edits L off (cmp key b) m (c key b) m) (hfuel : t.height < fuel) :
    ((∀ x ∈ t.toList, c key x ≠ 0) ∧ Edits L off (rbDelete fuel root key cmp) m false m) ∨
    (∃ x l₁ l₂ m' t', c key x = 0 ∧ t.toList = l₁ ++ x :: l₂ ∧
      Edits L off (rbDelete fuel root key cmp) m true m' ∧ IsTree L root c m' t' ∧
      t'.toList = l₁ ++ l₂ ∧ Touches root t.toList m m') := by
  obtain ⟨r, hfind, hpost⟩ := findLoop_edits hv hc h.sorted hcmp h.at_ (Brackets.nil c key)
    (Nat.le_of_lt hfuel)
  have hfind' : Edits L off (rbFindExact fuel root key cmp) m r m :=
    (Edits.load h.at_.image h.at_.above).bind hfind
  rcases hpost with ⟨rfl, hnone⟩ | ⟨ctx, k, t₁, t₂, hat, hplug, heq⟩
  · exact Or.inl ⟨hnone, hfind'.bind (Edits.ite_pos rfl (Edits.pure false))⟩
  · have hr := At.node (d := .left) hat
    rw [Ctx.plug_nil] at hplug
    obtain ⟨-, m', hrun, ⟨rfl, t', l₁, l₂, hl, hat', hvalid⟩, htouch⟩ :=
      deleteNode_turns hv hat (hplug ▸ h.valid) (hplug ▸ hfuel)
    have hlist : t'.toList = l₁ ++ l₂ := hat'.list
    refine Or.inr ⟨r, l₁, l₂, m', t', heq, hl, hfind'.bind (Edits.ite_neg hr.ne_zero hrun),
      ⟨?_, hvalid, ?_⟩, hlist, htouch⟩
    · rw [hlist]
      exact hat'
    · have hs := h.sorted
      unfold Sorted at hs ⊢
      rw [hl] at hs
      rw [hlist]
      exact hs.sublist ((List.Sublist.refl l₁).append (List.sublist_cons_self r l₂))

/-- **`rb_delete` is correct.** For every valid tree and every key the call returns. If no node
compares equal to the key, it returns `false` and nothing has changed. Otherwise it returns `true`,
the tree is again valid, its nodes in order are the old ones, each at its own address, without the
one that was equal to the key, and only links of the nodes and the root variable were written. -/
theorem rbDelete_correct {c : Nat → Nat → Int} {cmp : Nat → Nat → K Int} {fuel key : Nat}
    (hv : View off) (hc : TotalCmp c) (h : IsTree L root c m t)
    (hcmp : Compares L off root (key :: t.toList) cmp c m) (hfuel : t.height < fuel) :
    ((∀ x ∈ t.toList, c key x ≠ 0) → Edits L off (rbDelete fuel root key cmp) m false m) ∧
    (∀ x ∈ t.toList, c key x = 0 → ∃ m' t' l₁ l₂, t.toList = l₁ ++ x :: l₂ ∧
      Edits L off (rbDelete fuel root key cmp) m true m' ∧ IsTree L root c m' t' ∧
      t'.toList = l₁ ++ l₂ ∧
      ∀ y f, m' y f ≠ m y f → y = root ∧ f = .ptr ∨ y ∈ t.toList ∧ IsLink f) := by
  have hcmp' : ∀ b ∈ t.toList, Edits L off (cmp key b) m (c key b) m := fun b hb =>
    hcmp m (Touches.refl _ _ _) key List.mem_cons_self b (List.mem_cons_of_mem _ hb)
  rcases delete_edits hv hc h hcmp' hfuel with ⟨hnone, hrun⟩ | ⟨x, l₁, l₂, m', t', heq,
    hl, hrun, h'⟩
  · exact ⟨fun _ => hrun, fun x hx hx0 => absurd hx0 (hnone x hx)⟩
  · obtain ⟨htree, hl', htouch⟩ := h'
    have hx : x ∈ t.toList := by simp [hl]
    refine ⟨fun hnone => absurd heq (hnone x hx), fun z hz hz0 => ?_⟩
    -- no other node compares equal
    have hzx : c z x = 0 := by
      have h1 := hc.trans (Int.le_of_eq (hc.eq_swap hz0)) (Int.le_of_eq heq)
      have h2 := hc.trans (Int.le_of_eq (hc.eq_swap heq)) (Int.le_of_eq hz0)
      have := hc.le_swap (a := x) (b := z)
      omega
    obtain rfl : z = x := by
      by_contra hne
      exact absurd hzx (h.sorted.ne_of_ne hc hz hx hne)
    exact ⟨m', t', l₁, l₂, hl, hrun, htree, hl', htouch⟩

theorem rbDelete_correct_small : ∃ m' t' l₁ l₂, [0x400000, 0x401000] = l₁ ++ 0x401000 :: l₂ ∧
    Edits smallLayout 0 (rbDelete 3 kernelImageStart 0x401000 (fun a b => pure (byAddress a b)))
      smallTreeMem true m' ∧
    IsTree smallLayout kernelImageStart byAddress m' t' ∧ t'.toList = l₁ ++ l₂ := by
  have hcmp : Compares smallLayout 0 kernelImageStart (0x401000 :: smallTree.toList)
      (fun a b => pure (byAddress a b)) byAddress smallTreeMem := byAddress_compares
  obtain ⟨-, hfound⟩ := rbDelete_correct (Or.inl rfl) byAddress_total smallTree_isTree hcmp
    (show smallTree.height < 3 by decide)
  obtain ⟨m', t', l₁, l₂, hl, hrun, htree, hl', -⟩ := hfound 0x401000 (by decide) (by decide)
  exact ⟨m', t', l₁, l₂, hl, hrun, htree, hl'⟩

end Rb
end MikroKernel
