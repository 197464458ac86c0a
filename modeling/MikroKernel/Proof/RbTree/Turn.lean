import MikroKernel.Proof.RbTree.Rep

/-!
# Colours and rotations

The two things the repair of a tree is made of, at the hole: `recolor_turns` and `rotate_turns`. A
rotation writes six cells; `relink_edits` is about the one of them that is not in the turned nodes.
-/

set_option autoImplicit false

namespace MikroKernel
namespace Rb

open RedBlack RedBlack.RBTree

variable {L : Layout} {off root par p p' : Nat} {l : List Nat} {m m' : Mem} {ctx : Ctx Nat}
  {d : Side} {c c' : Color} {t u v : RBTree Nat} {a b : Nat} {f : RedBlack.Frame Nat}

/-! ## Looking at a node -/

/-- What the code reads of the node in the hole. -/
structure Node (L : Layout) (l : List Nat) (m : Mem) (d : Side) (a : Nat) (c : Color)
    (par near far : Nat) : Prop where
  ne_zero : a ≠ 0
  color : m a .color = colorVal c
  parent : m a .parent = par
  near : m a d.field = near
  far : m a d.flip.field = far
  mem : a ∈ l
  stored : L.Stored a

theorem At.node (h : At L root l m ctx (on d c t a u)) :
    Node L l m d a c (top ctx) (addr t) (addr u) := by
  obtain ⟨h0, hc, hp, hn, hf, -, -⟩ := rep_on.mp h.tree
  have hmem := h.mem (mem_on.mpr (Or.inl rfl))
  exact ⟨h0, hc, hp, hn, hf, hmem, h.stored _ hmem⟩

theorem At.frame (h : At L root l m (f :: ctx) t) :
    Node L l m f.side f.label f.color (top ctx) (addr t) (addr f.sibling) := h.up.node

namespace Node

variable {near far : Nat}

theorem load_color (h : Node L l m d a c par near far) (hv : View off) :
    Edits L off (p2vLoad a .color) m (colorVal c) m := Edits.p2vLoad hv h.stored h.color

theorem load_parent (h : Node L l m d a c par near far) (hv : View off) :
    Edits L off (p2vLoad a .parent) m par m := Edits.p2vLoad hv h.stored h.parent

theorem load_near (h : Node L l m d a c par near far) (hv : View off) :
    Edits L off (p2vLoad a d.field) m near m := Edits.p2vLoad hv h.stored h.near

theorem load_far (h : Node L l m d a c par near far) (hv : View off) :
    Edits L off (p2vLoad a d.flip.field) m far m := Edits.p2vLoad hv h.stored h.far

end Node

theorem colorVal_inj : colorVal c = colorVal c' ↔ c = c' := by
  cases c <;> cases c' <;> simp [colorVal, rbRed, rbBlack]

/-! ## Another colour -/

/-- **A store of a colour.** -/
theorem recolor_turns (hv : View off) (h : At L root l m ctx (on d c t a u)) (c' : Color) :
    Turns L off root l (p2vStore a .color (colorVal c')) m
      (fun _ m' => At L root l m' ctx (on d c' t a u)) := by
  have hn := h.node
  obtain ⟨h0, hc, hp, hl, hr, hrt, hru⟩ := rep_on.mp h.tree
  obtain ⟨hndc, hnd, hdis⟩ := h.parts
  obtain ⟨hat, hau, hndt, hndu, -⟩ := nodup_on.mp hnd
  have hsame : ∀ x g, x ≠ a → m.set a .color (colorVal c') x g = m x g :=
    fun x g hx => Mem.set_ne (Or.inl hx)
  have hself : ∀ g, g ≠ .color → m.set a .color (colorVal c') a g = m a g :=
    fun g hg => Mem.set_ne (Or.inr hg)
  have hctx : ∀ x ∈ Ctx.labels ctx, x ≠ a := fun x hx he =>
    hdis x hx (mem_on.mpr (Or.inl he))
  refine ⟨(), _, Edits.p2vStore hv hn.stored, ⟨?_, ?_, ?_, h.nodup, h.stored, h.image⟩,
    Touches.set hn.mem isLink_color⟩
  · refine rep_on.mpr ⟨h0, Mem.set_self _ _ _ _, (hself _ (by decide)).trans hp,
      (hself _ (field_ne_color d)).trans hl, (hself _ (field_ne_color _)).trans hr, ?_, ?_⟩
    · exact hrt.congr hndt (fun x hx g _ => hsame x g (fun he => hat (he ▸ hx)))
    · exact hru.congr hndu (fun x hx g _ => hsame x g (fun he => hau (he ▸ hx)))
  · have habove := h.above
    rw [addr_on] at habove ⊢
    refine habove.relink hndc ?_ (fun _ => Mem.set_ne (Or.inr (by decide))) ?_
    · cases ctx with
      | nil => exact (Mem.set_ne (Or.inr (by decide))).trans habove
      | cons f ctx' =>
        exact (hsame _ _ (hctx f.label List.mem_cons_self)).trans habove.2.2.2.1
    · exact fun x hx g _ _ => hsame x g (hctx x hx)
  · rw [← h.list, Ctx.toList_plug, Ctx.toList_plug, toList_on_color]

/-! ## The link at the hole -/

/-- What the code needs of the node above to find the link at the hole. -/
def LinkedAt (L : Layout) (m : Mem) (node : Nat) : Ctx Nat → Prop
  | [] => True
  | f :: _ => f.label ≠ 0 ∧ L.Stored f.label ∧ m f.label f.side.field = node ∧
      m f.label f.side.flip.field ≠ node

/-- **What led to the node now leads elsewhere.** -/
theorem relink_edits {node tmp : Nat} (e : Side) (hv : View off) (himg : L.image root = true)
    (hs : L.Stored node) (hpar : m node .parent = top ctx) (hl : LinkedAt L m node ctx) :
    Edits L off (rbRelink e root node tmp) m ()
      (m.set (linkAddr root ctx) (linkField ctx) tmp) := by
  have hload : Edits L off (p2vLoad node .parent) m (top ctx) m := Edits.p2vLoad hv hs hpar
  unfold rbRelink
  refine hload.bind ?_
  cases ctx with
  | nil => exact Edits.ite_pos rfl (Edits.store himg)
  | cons f ctx' =>
    obtain ⟨h0, hsf, hnear, hfar⟩ := hl
    refine Edits.ite_neg h0 (hload.bind ?_)
    by_cases he : f.side = e
    · subst he
      refine (Edits.p2vLoad hv hsf hnear).bind (Edits.ite_pos rfl (hload.bind ?_))
      exact Edits.p2vStore hv hsf
    · obtain rfl : e = f.side.flip := by
        cases e <;> cases hf : f.side <;> simp_all [Side.flip]
      refine (Edits.p2vLoad hv hsf rfl).bind (Edits.ite_neg (fun h => hfar h.symm) (hload.bind ?_))
      rw [Side.flip_flip]
      exact Edits.p2vStore hv hsf

theorem LinkedAt.congr {node : Nat} (h : LinkedAt L m node ctx)
    (hsame : ∀ x ∈ Ctx.labels ctx, ∀ g, IsLink g → m' x g = m x g) : LinkedAt L m' node ctx := by
  cases ctx with
  | nil => trivial
  | cons f ctx =>
    have hf : ∀ g, IsLink g → m' f.label g = m f.label g := hsame _ List.mem_cons_self
    obtain ⟨h0, hs, hnear, hfar⟩ := h
    refine ⟨h0, hs, ?_, ?_⟩
    · rw [hf _ (isLink_field _), hnear]
    · rwa [hf _ (isLink_field _)]

/-- The node in the hole is linked there and nowhere else. -/
theorem At.linkedAt (h : At L root l m ctx t) (hne : addr t ≠ 0) : LinkedAt L m (addr t) ctx := by
  cases ctx with
  | nil => trivial
  | cons f ctx =>
    have hn := h.frame
    refine ⟨hn.ne_zero, hn.stored, hn.near, fun hfar => ?_⟩
    have hsib : addr t = addr f.sibling := hfar.symm.trans hn.far
    have hmem : addr f.sibling ∈ f.sibling.toList := addr_mem (hsib ▸ hne)
    refine h.parts.2.2 (addr f.sibling) ?_ (hsib ▸ addr_mem hne)
    simp [Ctx.labels, hmem]

/-! ## A rotation -/

/-- The link of the middle subtree to its new parent, if there is one. -/
def adopt (m : Mem) (p a : Nat) : Mem := if p = 0 then m else m.set p .parent a

/-- The memory after a rotation of `a` with its child `b`, the middle subtree at `p`. -/
def rotated (m : Mem) (root : Nat) (ctx : Ctx Nat) (d : Side) (a b p : Nat) : Mem :=
  ((((adopt (m.set a d.flip.field p) p a).set b .parent (top ctx)).set
    (linkAddr root ctx) (linkField ctx) b).set b d.field a).set a .parent b

theorem adopt_ne {x : Nat} {g : Field} (h : ¬ (x = p ∧ g = .parent)) : adopt m p a x g = m x g := by
  unfold adopt
  split
  · rfl
  · exact if_neg h

/-- The cells a rotation leaves alone. -/
theorem rotated_ne {x : Nat} {g : Field} (ha : ¬ (x = a ∧ (g = d.flip.field ∨ g = .parent)))
    (hb : ¬ (x = b ∧ (g = d.field ∨ g = .parent))) (hp : ¬ (x = p ∧ g = .parent))
    (hlink : ¬ (x = linkAddr root ctx ∧ g = linkField ctx)) :
    rotated m root ctx d a b p x g = m x g := by
  unfold rotated
  rw [Mem.set_apply, if_neg (by tauto), Mem.set_apply, if_neg (by tauto), Mem.set_apply,
    if_neg hlink, Mem.set_apply, if_neg (by tauto), adopt_ne hp, Mem.set_apply, if_neg (by tauto)]

/-- The link at the hole is no link of a node below it. -/
theorem At.link_ne (h : At L root l m ctx t) {x : Nat} {g : Field} (hx : x ∈ t.toList)
    (hg : IsLink g) : ¬ (x = linkAddr root ctx ∧ g = linkField ctx) := by
  rintro ⟨rfl, rfl⟩
  cases ctx with
  | nil => simp [IsLink, linkField] at hg
  | cons f ctx => exact h.parts.2.2 f.label List.mem_cons_self hx

/-- The two nodes and the three subtrees of a rotation are apart. -/
structure Turning (a b : Nat) (t u v : RBTree Nat) : Prop where
  ne : a ≠ b
  at_near : a ∉ t.toList
  at_middle : a ∉ u.toList
  at_far : a ∉ v.toList
  child_near : b ∉ t.toList
  child_middle : b ∉ u.toList
  child_far : b ∉ v.toList
  middle_near : ∀ x ∈ u.toList, x ∉ t.toList
  middle_far : ∀ x ∈ u.toList, x ∉ v.toList

theorem mem_turned : a ∈ (on d c t a (on d c' u b v)).toList := mem_on.mpr (Or.inl rfl)

theorem mem_child : b ∈ (on d c t a (on d c' u b v)).toList :=
  mem_on.mpr (Or.inr (Or.inr (mem_on.mpr (Or.inl rfl))))

theorem mem_near {x : Nat} (hx : x ∈ t.toList) : x ∈ (on d c t a (on d c' u b v)).toList :=
  mem_on.mpr (Or.inr (Or.inl hx))

theorem mem_middle {x : Nat} (hx : x ∈ u.toList) : x ∈ (on d c t a (on d c' u b v)).toList :=
  mem_on.mpr (Or.inr (Or.inr (mem_on.mpr (Or.inr (Or.inl hx)))))

theorem mem_far {x : Nat} (hx : x ∈ v.toList) : x ∈ (on d c t a (on d c' u b v)).toList :=
  mem_on.mpr (Or.inr (Or.inr (mem_on.mpr (Or.inr (Or.inr hx)))))

theorem At.turning (h : At L root l m ctx (on d c t a (on d c' u b v))) : Turning a b t u v := by
  obtain ⟨-, hnd, -⟩ := h.parts
  obtain ⟨hat, ha2, -, hnd2, htu⟩ := nodup_on.mp hnd
  obtain ⟨hbu, hbv, -, -, huv⟩ := nodup_on.mp hnd2
  exact {
    ne := fun he => ha2 (mem_on.mpr (Or.inl he))
    at_near := hat
    at_middle := fun hx => ha2 (mem_on.mpr (Or.inr (Or.inl hx)))
    at_far := fun hx => ha2 (mem_on.mpr (Or.inr (Or.inr hx)))
    child_near := fun hx => htu b hx (mem_on.mpr (Or.inl rfl))
    child_middle := hbu
    child_far := hbv
    middle_near := fun x hx hx' => htu x hx' (mem_on.mpr (Or.inr (Or.inl hx)))
    middle_far := huv }

/-- What is above the hole is none of the turned nodes. -/
theorem At.outside (h : At L root l m ctx (on d c t a (on d c' u b v))) {x : Nat}
    (hx : x ∈ Ctx.labels ctx) :
    x ≠ a ∧ x ≠ b ∧ x ≠ addr u := by
  obtain ⟨-, -, hdis⟩ := h.parts
  refine ⟨fun he => hdis x hx (he ▸ mem_turned), fun he => hdis x hx (he ▸ mem_child), ?_⟩
  rintro rfl
  exact hdis _ hx (mem_middle (addr_mem (h.ne_zero (h.mem_ctx hx))))

/-- **The code of a rotation** makes these six stores. -/
theorem rotate_edits (hv : View off) (h : At L root l m ctx (on d c t a (on d c' u b v))) :
    Edits L off (rbRotate d root a) m () (rotated m root ctx d a b (addr u)) := by
  have hn := h.node
  have hb := h.downFlip.node
  rw [addr_on] at hn
  have hturn := h.turning
  -- the middle subtree has its new parent
  obtain ⟨m₂, hm₂⟩ : ∃ m₂, m₂ = adopt (m.set a d.flip.field (addr u)) (addr u) a := ⟨_, rfl⟩
  have hpara : m₂ a .parent = top ctx := by
    rw [hm₂, adopt_ne, Mem.set_ne (Or.inr (field_ne_parent _).symm), hn.parent]
    rintro ⟨he, -⟩
    exact hturn.at_middle (he ▸ addr_mem (he ▸ hn.ne_zero))
  -- the rest of the code
  have hrest : Edits L off (do
        p2vStore b .parent (← p2vLoad a .parent)
        rbRelink d root a b
        p2vStore b d.field a
        p2vStore a .parent b) m₂ () (rotated m root ctx d a b (addr u)) := by
    unfold rotated
    rw [← hm₂]
    refine (Edits.p2vLoad hv hn.stored hpara).bind ((Edits.p2vStore hv hb.stored).bind ?_)
    refine (relink_edits d hv h.image hn.stored ?_ ?_).bind
      ((Edits.p2vStore hv hb.stored).bind (Edits.p2vStore hv hn.stored))
    · rw [Mem.set_ne (Or.inl hturn.ne), hpara]
    · have hlinked := h.linkedAt (by rw [addr_on]; exact hn.ne_zero)
      rw [addr_on] at hlinked
      refine hlinked.congr (fun x hx g _ => ?_)
      obtain ⟨hxa, hxb, hxu⟩ := h.outside hx
      rw [Mem.set_ne (Or.inl hxb), hm₂, adopt_ne (fun he => hxu he.1), Mem.set_ne (Or.inl hxa)]
  unfold rbRotate
  refine (hn.load_far hv).bind ((hb.load_near hv).bind ((Edits.p2vStore hv hn.stored).bind ?_))
  have hnear : m.set a d.flip.field (addr u) b d.field = addr u :=
    (Mem.set_ne (Or.inl hturn.ne.symm)).trans hb.near
  refine (Edits.p2vLoad hv hb.stored hnear).bind ?_
  unfold adopt at hm₂
  by_cases h0 : addr u = 0
  · rw [if_pos h0] at hm₂
    rw [hm₂] at hrest
    exact Edits.ite_neg (not_not.mpr h0) hrest
  · rw [if_neg h0] at hm₂
    rw [hm₂] at hrest
    refine Edits.ite_pos h0 ((Edits.p2vLoad hv hn.stored (Mem.set_self _ _ _ _)).bind ?_)
    have hsu : L.Stored (addr u) := h.stored _ (h.mem (mem_middle (addr_mem h0)))
    exact (Edits.p2vStore hv hsu).bind hrest

/-- **The turned tree** is in the hole. -/
theorem rotated_rep (h : At L root l m ctx (on d c t a (on d c' u b v))) :
    Rep (rotated m root ctx d a b (addr u)) (on d c' (on d c t a u) b v) (top ctx) := by
  have hn := h.node
  have hb := h.downFlip.node
  rw [addr_on] at hn
  have hturn := h.turning
  have hab := hturn.ne
  obtain ⟨-, hnd, -⟩ := h.parts
  obtain ⟨-, -, hndt, hnd2, -⟩ := nodup_on.mp hnd
  obtain ⟨-, -, hndu, hndv, -⟩ := nodup_on.mp hnd2
  obtain ⟨-, -, -, -, -, hrt, hr2⟩ := rep_on.mp h.tree
  obtain ⟨-, -, -, -, -, hru, hrv⟩ := rep_on.mp hr2
  have hpu : addr u ≠ 0 → addr u ∈ u.toList := addr_mem
  have hlinka : ∀ {g}, IsLink g → ¬ (a = linkAddr root ctx ∧ g = linkField ctx) :=
    fun hg => h.link_ne mem_turned hg
  have hlinkb : ∀ {g}, IsLink g → ¬ (b = linkAddr root ctx ∧ g = linkField ctx) :=
    fun hg => h.link_ne mem_child hg
  have hau : ¬ a = addr u := fun he => hturn.at_middle (he ▸ hpu (he ▸ hn.ne_zero))
  have hbu : ¬ b = addr u := fun he => hturn.child_middle (he ▸ hpu (he ▸ hb.ne_zero))
  refine rep_on.mpr ⟨hb.ne_zero, ?_, ?_, ?_, ?_, rep_on.mpr ⟨hn.ne_zero, ?_, ?_, ?_, ?_, ?_, ?_⟩,
    ?_⟩
  · rw [rotated_ne (by tauto) (by simp [(field_ne_color d).symm]) (by simp) (hlinkb isLink_color),
      hb.color]
  · unfold rotated
    rw [Mem.set_ne (Or.inl hab.symm), Mem.set_ne (Or.inr (field_ne_parent d).symm), Mem.set_apply,
      if_neg (hlinkb isLink_parent), Mem.set_self]
  · unfold rotated
    rw [Mem.set_ne (Or.inl hab.symm), Mem.set_self, addr_on]
  · rw [rotated_ne (by tauto) (by simp [(field_ne_flip d).symm, field_ne_parent]) (by tauto)
      (hlinkb (isLink_field _)), hb.far]
  · rw [rotated_ne (by simp [(field_ne_color d.flip).symm]) (by tauto) (by simp)
      (hlinka isLink_color), hn.color]
  · unfold rotated
    rw [Mem.set_self]
  · rw [rotated_ne (by simp [field_ne_flip, field_ne_parent]) (by tauto) (by tauto)
      (hlinka (isLink_field _)), hn.near]
  · unfold rotated
    rw [Mem.set_ne (Or.inr (field_ne_parent _)), Mem.set_ne (Or.inl hab), Mem.set_apply,
      if_neg (hlinka (isLink_field _)), Mem.set_ne (Or.inl hab), adopt_ne (by tauto), Mem.set_self]
  · refine hrt.congr hndt (fun x hx g hg => rotated_ne ?_ ?_ ?_ (h.link_ne (mem_near hx) hg))
    · rintro ⟨rfl, -⟩
      exact hturn.at_near hx
    · rintro ⟨rfl, -⟩
      exact hturn.child_near hx
    · rintro ⟨rfl, -⟩
      exact hturn.middle_near _ (hpu (h.ne_zero (h.mem (mem_near hx)))) hx
  · refine hru.reparent hndu
      (fun x hx g hg hne => rotated_ne ?_ ?_ hne (h.link_ne (mem_middle hx) hg))
      (fun hne => ?_)
    · rintro ⟨rfl, -⟩
      exact hturn.at_middle hx
    · rintro ⟨rfl, -⟩
      exact hturn.child_middle hx
    · have h0 : addr u ≠ 0 := fun h0 => hne ((addr_ne_zero hru).mp h0)
      unfold rotated adopt
      rw [if_neg h0, Mem.set_ne (Or.inl (fun he => hau he.symm)),
        Mem.set_ne (Or.inl (fun he => hbu he.symm)), Mem.set_apply,
        if_neg (h.link_ne (mem_middle (hpu h0)) isLink_parent),
        Mem.set_ne (Or.inl (fun he => hbu he.symm)), Mem.set_self]
  · refine hrv.congr hndv (fun x hx g hg => rotated_ne ?_ ?_ ?_ (h.link_ne (mem_far hx) hg))
    · rintro ⟨rfl, -⟩
      exact hturn.at_far hx
    · rintro ⟨rfl, -⟩
      exact hturn.child_far hx
    · rintro ⟨rfl, -⟩
      exact hturn.middle_far _ (hpu (h.ne_zero (h.mem (mem_far hx)))) hx

/-- Above the hole only the link to it has changed. -/
theorem rotated_ctx (h : At L root l m ctx (on d c t a (on d c' u b v))) :
    CtxRep (rotated m root ctx d a b (addr u)) root ctx b := by
  obtain ⟨hndc, -, -⟩ := h.parts
  have habove := h.above
  rw [addr_on] at habove
  refine habove.relink hndc ?_ (fun hne => ?_) (fun x hx g hg hl => ?_)
  · have hne : ∀ {x g}, IsLink g → x ∈ (on d c t a (on d c' u b v)).toList →
        ¬ (linkAddr root ctx = x ∧ linkField ctx = g) := by
      rintro x g hg hmem ⟨rfl, rfl⟩
      exact h.link_ne hmem hg ⟨rfl, rfl⟩
    unfold rotated
    rw [Mem.set_apply, if_neg (hne isLink_parent mem_turned), Mem.set_apply,
      if_neg (hne (isLink_field _) mem_child), Mem.set_self]
  · refine rotated_ne ?_ ?_ (by simp) ?_
    · rintro ⟨-, he | he⟩
      · exact absurd (he ▸ isLink_field d.flip) (by simp [IsLink])
      · exact absurd he (by decide)
    · rintro ⟨-, he | he⟩
      · exact absurd (he ▸ isLink_field d) (by simp [IsLink])
      · exact absurd he (by decide)
    · rintro ⟨-, he⟩
      cases ctx with
      | nil => exact hne rfl
      | cons f ctx =>
        have hptr : IsLink .ptr := he.symm ▸ isLink_field f.side
        simp [IsLink] at hptr
  · obtain ⟨h1, h2, h3⟩ := h.outside hx
    exact rotated_ne (by tauto) (by tauto) (by tauto) hl

/-- A rotation writes links of nodes, and the root. -/
theorem rotated_touches (h : At L root l m ctx (on d c t a (on d c' u b v))) :
    Touches root l m (rotated m root ctx d a b (addr u)) := by
  have hn : a ∈ l := h.mem mem_turned
  have hb : b ∈ l := h.mem mem_child
  have hlink : ∀ {m₁ : Mem}, Touches root l m₁ (m₁.set (linkAddr root ctx) (linkField ctx) b) := by
    intro m₁
    cases ctx with
    | nil => exact Touches.setRoot
    | cons f ctx => exact Touches.set (h.mem_ctx List.mem_cons_self) (isLink_field _)
  have hadopt : ∀ {m₁ : Mem}, Touches root l m₁ (adopt m₁ (addr u) a) := by
    intro m₁
    unfold adopt
    split
    · exact Touches.refl _ _ _
    · exact Touches.set (h.mem (mem_middle (addr_mem ‹_›))) isLink_parent
  unfold rotated
  exact ((((Touches.set hn (isLink_field _)).trans hadopt).trans
    (Touches.set hb isLink_parent)).trans hlink).trans
    ((Touches.set hb (isLink_field _)).trans (Touches.set hn isLink_parent))

/-- **A rotation at the hole.** -/
theorem rotate_turns (hv : View off)
    (h : At L root l m ctx (on d c t a (on d c' u b v))) :
    Turns L off root l (rbRotate d root a) m
      (fun _ m' => At L root l m' ctx (on d c' (on d c t a u) b v)) := by
  refine ⟨(), _, rotate_edits hv h, ⟨rotated_rep h, ?_, ?_, h.nodup, h.stored, h.image⟩,
    rotated_touches h⟩
  · rw [addr_on]
    exact rotated_ctx h
  · rw [← h.list, Ctx.toList_plug, Ctx.toList_plug, toList_rotate]

end Rb
end MikroKernel
