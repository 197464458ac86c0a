import MikroKernel.Proof.RbTree.Search

/-!
# `rb_insert`

A new node goes in red at the end of its way, and the only thing that can be wrong then is a red
parent above it. `RedAt` is that state, with the red node in the hole. A round of the fix-up gives
such a state with fewer nodes above the hole: two fewer after a change of colours (case 1), and one
fewer, that one black, after a rotation (cases 2 and 3). The loop ends when the node above the hole
is black or there is none.
-/

set_option autoImplicit false

namespace MikroKernel
namespace Rb

open RedBlack RedBlack.RBTree

variable {L : Layout} {off root par p p' x n : Nat} {l : List Nat} {m m' : Mem} {ctx : Ctx Nat}
  {d e : Side} {c c' : Color} {t u v : RBTree Nat} {a b : Nat} {f : RedBlack.Frame Nat}

/-! ## Moving the hole -/

/-- `At.up` for a hole on the other side. -/
theorem At.upFlip (h : At L root l m (⟨d.flip, c, a, t⟩ :: ctx) u) :
    At L root l m ctx (on d c t a u) := by
  rw [← on_flip]
  exact h.up

/-- The other rotation. -/
theorem rotateFlip_turns (hv : View off)
    (h : At L root l m ctx (on d c (on d c' t a u) b v)) :
    Turns L off root l (rbRotate d.flip root b) m
      (fun _ m' => At L root l m' ctx (on d c' t a (on d c u b v))) := by
  rw [← on_flip d c, ← on_flip d c'] at h
  refine (rotate_turns hv h).mono (fun _ m' h' => ?_)
  rwa [on_flip d c, on_flip d c'] at h'

/-! ## The fix-up -/

/-- A red node in the hole, with nothing wrong but perhaps a red node above it. -/
structure RedAt (L : Layout) (root : Nat) (l : List Nat) (m : Mem) (ctx : Ctx Nat) (x : Nat)
    (d : Side) (t u : RBTree Nat) (n : Nat) : Prop where
  at_ : At L root l m ctx (on d .red t x u)
  balanced : (on d .red t x u).Balanced n
  fits : Ctx.Fits ctx n

/-- **Case 1**: the uncle is red, and the colours change. -/
theorem insertFixupStep_red {k : Side} {t₁ t₂ s : RBTree Nat} {g : Nat} (hv : View off)
    (h : At L root l m (⟨e, .red, p, s⟩ :: ⟨d, .black, g, on d .red u a v⟩ :: ctx)
      (on k .red t₁ x t₂)) :
    Turns L off root l (rbInsertFixupStep d root x) m (fun y m' => y = g ∧
      At L root l m' ctx
      (on d .red (on e .black (on k .red t₁ x t₂) p s) g (on d .black u a v))) := by
  have hg := h.up.frame
  have ha := h.up.up.downFlip.node
  rw [addr_on] at hg
  unfold rbInsertFixupStep
  refine Turns.bind_load (h.node.load_parent hv) (Turns.bind_load (h.frame.load_parent hv) ?_)
  refine Turns.bind_load (hg.load_far hv) ?_
  refine Turns.bind_load (Edits.ite_neg ha.ne_zero ((ha.load_color hv).bind (Edits.pure _))) ?_
  refine Turns.ite_pos (by decide) (Turns.bind_load (h.node.load_parent hv) ?_)
  -- the parent
  refine (recolor_turns hv h.up .black).bind (fun _ m₁ h₁ => ?_)
  -- the uncle
  refine (recolor_turns hv h₁.up.downFlip .black).bind (fun _ m₂ h₂ => ?_)
  have h₂' := h₂.upFlip.down.down
  refine Turns.bind_load (h₂'.node.load_parent hv) (Turns.bind_load (h₂'.frame.load_parent hv) ?_)
  -- the grandparent
  refine (recolor_turns hv h₂.upFlip .red).bind (fun _ m₃ h₃ => ?_)
  have h₃' := h₃.down.down
  exact Turns.bind_load (h₃'.node.load_parent hv)
    (Turns.load (h₃'.frame.load_parent hv) ⟨rfl, h₃⟩)

/-- The uncle is no red node. -/
theorem uncle_edits (hv : View off) (h : At L root l m ctx t) (hc : t.color = .black) :
    Edits L off (rbIsRed (addr t)) m false m := by
  cases t with
  | nil => exact Edits.ite_pos rfl (Edits.pure _)
  | node c l a r =>
    obtain rfl : c = .black := hc
    have ha := At.node (d := .left) h
    exact Edits.ite_neg ha.ne_zero ((ha.load_color hv).bind (Edits.pure _))

/-- The end of a round, with the red node on the outer side: **case 3**. -/
theorem insertFixup_outer {t₁ t₂ s w : RBTree Nat} {k : Side} {g : Nat} (hv : View off)
    (h : At L root l m (⟨d, .red, p, s⟩ :: ⟨d, .black, g, w⟩ :: ctx) (on k .red t₁ x t₂)) :
    Turns L off root l (rbInsertFixupOuter d root x) m (fun y m' => y = x ∧
      At L root l m' (⟨d, .black, p, on d .red s g w⟩ :: ctx) (on k .red t₁ x t₂)) := by
  unfold rbInsertFixupOuter
  refine Turns.bind_load (h.node.load_parent hv) ?_
  refine (recolor_turns hv h.up .black).bind (fun _ m₁ h₁ => ?_)
  have h₁' := h₁.down
  refine Turns.bind_load (h₁'.node.load_parent hv) (Turns.bind_load (h₁'.frame.load_parent hv) ?_)
  refine (recolor_turns hv h₁.up .red).bind (fun _ m₂ h₂ => ?_)
  have h₂' := h₂.down.down
  refine Turns.bind_load (h₂'.node.load_parent hv) (Turns.bind_load (h₂'.frame.load_parent hv) ?_)
  refine (rotateFlip_turns hv h₂).bind (fun _ m₃ h₃ => ?_)
  exact Turns.pure ⟨rfl, h₃.down⟩

/-- A red node on side `e` of its parent, which is on side `d`, under a black uncle. -/
theorem insertFixupStep_black {t₁ t₂ s w : RBTree Nat} {g : Nat} (hv : View off)
    (h : At L root l m (⟨e, .red, p, s⟩ :: ⟨d, .black, g, w⟩ :: ctx) (on d .red t₁ x t₂))
    (hw : w.color = .black) :
    Turns L off root l (rbInsertFixupStep d root x) m (fun y m' =>
      (e = d ∧ y = x ∧
        At L root l m' (⟨d, .black, p, on d .red s g w⟩ :: ctx) (on d .red t₁ x t₂)) ∨
      (e = d.flip ∧ y = p ∧
        At L root l m' (⟨d, .black, x, on d .red t₂ g w⟩ :: ctx) (on d .red s p t₁))) := by
  unfold rbInsertFixupStep rbInsertFixupInner
  refine Turns.bind_load (h.node.load_parent hv) (Turns.bind_load (h.frame.load_parent hv) ?_)
  refine Turns.bind_load (h.up.frame.load_far hv) ?_
  refine Turns.bind_load (uncle_edits hv h.up.up.downFlip hw) (Turns.ite_neg (by simp) ?_)
  by_cases he : e = d
  · -- the outer child
    subst he
    have hp := h.frame
    have hfar : x ≠ addr s := by
      have hl := (h.linkedAt (by rw [addr_on]; exact h.node.ne_zero)).2.2.2
      rw [addr_on] at hl
      exact fun hx => hl (hp.far.trans hx.symm)
    refine Turns.bind (P := fun y m' => y = x ∧ m' = m) ?_ ?_
    · refine Turns.bind_load (h.node.load_parent hv) (Turns.bind_load (hp.load_far hv) ?_)
      exact Turns.ite_neg hfar (Turns.pure ⟨rfl, rfl⟩)
    · rintro _ _ ⟨rfl, rfl⟩
      exact (insertFixup_outer hv h).mono (fun _ _ hq => Or.inl ⟨rfl, hq⟩)
  · -- the inner child is turned to the outer side first
    obtain rfl : e = d.flip := by
      cases e <;> cases d <;> simp_all [Side.flip]
    have hp := h.frame
    rw [addr_on] at hp
    refine Turns.bind (P := fun y m' => y = p ∧
        At L root l m' (⟨d, .red, x, t₂⟩ :: ⟨d, .black, g, w⟩ :: ctx) (on d .red s p t₁)) ?_ ?_
    · refine Turns.bind_load (h.node.load_parent hv) (Turns.bind_load (hp.load_near hv) ?_)
      refine Turns.ite_pos rfl (Turns.bind_load (h.node.load_parent hv) ?_)
      refine (rotate_turns hv h.upFlip).bind (fun _ m₁ h₁ => ?_)
      exact Turns.pure ⟨rfl, h₁.down⟩
    · rintro _ m₁ ⟨rfl, h₁⟩
      exact (insertFixup_outer hv h₁).mono (fun _ _ hq => Or.inr ⟨rfl, hq⟩)

/-- **A round of the fix-up** leads to a red node with fewer nodes above it. -/
theorem RedAt.step {s w : RBTree Nat} {g : Nat} (hv : View off)
    (h : RedAt L root l m (⟨e, .red, p, s⟩ :: ⟨d, .black, g, w⟩ :: ctx) x d t u n) :
    Turns L off root l (rbInsertFixupStep d root x) m (fun y m' => ∃ ctx' d' t' u' n',
      RedAt L root l m' ctx' y d' t' u' n' ∧ ctx'.length < ctx.length + 2) := by
  obtain ⟨hat, hb, hs, hsb, -, hw, hf⟩ := h
  obtain ⟨ht, hu, htb, hub⟩ := balanced_on_red.mp hb
  by_cases hred : w.color = .red
  · obtain ⟨w₁, a, w₂, rfl⟩ := exists_on_of_red hred d
    obtain ⟨hw₁, hw₂, -, -⟩ := balanced_on_red.mp hw
    refine (insertFixupStep_red hv hat).mono ?_
    rintro _ m' ⟨rfl, h'⟩
    refine ⟨ctx, d, _, _, n + 1,
      ⟨h', balanced_on_red.mpr ⟨?_, ?_, color_on, color_on⟩, hf⟩, by omega⟩
    · exact balanced_on_black_succ.mpr ⟨hb, hs⟩
    · exact balanced_on_black_succ.mpr ⟨hw₁, hw₂⟩
  · have hwb := color_eq_black hred
    refine (insertFixupStep_black hv hat hwb).mono ?_
    rintro _ m' (⟨-, rfl, h'⟩ | ⟨-, rfl, h'⟩)
    · refine ⟨_, d, t, u, n, ⟨h', hb, ?_, hf⟩, by simp⟩
      exact balanced_on_red.mpr ⟨hs, hw, hsb, hwb⟩
    · refine ⟨_, d, s, t, n, ⟨h', balanced_on_red.mpr ⟨hs, ht, hsb, htb⟩, ?_, hf⟩, by simp⟩
      exact balanced_on_red.mpr ⟨hu, hw, hub, hwb⟩

/-- The same, with the other side first. -/
theorem RedAt.side (h : RedAt L root l m ctx x d t u n) (e : Side) :
    ∃ t' u', RedAt L root l m ctx x e t' u' n := by
  by_cases he : e = d
  · exact ⟨t, u, he ▸ h⟩
  · obtain rfl : e = d.flip := by
      cases e <;> cases d <;> simp_all [Side.flip]
    refine ⟨u, t, ?_, ?_, h.fits⟩
    · rw [on_flip]
      exact h.at_
    · rw [on_flip]
      exact h.balanced

/-- What the loop ends with: a tree that only lacks a black root. -/
def Fixed (L : Layout) (root : Nat) (l : List Nat) (m : Mem) : Prop :=
  ∃ d c t a u k, At L root l m [] (on d c t a u) ∧ (on d .black t a u).Balanced k

/-- The root of a tree in memory. -/
theorem At.whole (h : At L root l m ctx t) : At L root l m [] (Ctx.plug ctx t) := by
  induction ctx generalizing t with
  | nil => exact h
  | cons f ctx ih => exact ih h.up

/-- A valid tree that is not empty lacks nothing. -/
theorem Fixed.of_valid (h : At L root l m ctx t) (hv : (Ctx.plug ctx t).Valid) (hne : l ≠ []) :
    Fixed L root l m := by
  have hroot := h.whole
  cases hp : Ctx.plug ctx t with
  | nil =>
    rw [hp] at hroot
    exact absurd hroot.list.symm hne
  | node c l' a r =>
    rw [hp] at hroot hv
    obtain ⟨⟨k, hk⟩, hc⟩ := hv
    obtain rfl : c = .black := hc
    exact ⟨.left, .black, l', a, r, k, hroot, hk⟩

/-- **The loop of the fix-up.** -/
theorem RedAt.loop (hv : View off) (fuel : Nat) :
    ∀ {m : Mem} {ctx : Ctx Nat} {x : Nat} {d : Side} {t u : RBTree Nat} {n : Nat},
      RedAt L root l m ctx x d t u n → ctx.length < fuel →
      Turns L off root l (rbInsertFixupLoop root fuel x) m (fun _ m' => Fixed L root l m') := by
  induction fuel with
  | zero => exact fun _ hlen => absurd hlen (by omega)
  | succ fuel ih =>
    intro m ctx x d t u n h hlen
    have hx := h.at_.node
    have hne : l ≠ [] := List.ne_nil_of_mem hx.mem
    unfold rbInsertFixupLoop
    refine Turns.bind_load (hx.load_parent hv) ?_
    cases ctx with
    | nil =>
      refine Turns.ite_pos rfl (Turns.pure ?_)
      obtain ⟨k, hk⟩ := h.balanced.blacken
      exact ⟨d, .red, t, x, u, k, h.at_, hk⟩
    | cons f ctx =>
      obtain ⟨e, k, p, s⟩ := f
      have hp := h.at_.frame
      refine Turns.ite_neg hp.ne_zero (Turns.bind_load (hx.load_parent hv) ?_)
      refine Turns.bind_load (hp.load_color hv) ?_
      cases k with
      | black =>
        refine Turns.ite_pos (show colorVal .black ≠ rbRed by decide) (Turns.pure ?_)
        exact Fixed.of_valid h.at_ (Ctx.valid_plug h.fits h.balanced (fun _ => rfl)) hne
      | red =>
        refine Turns.ite_neg (show ¬ colorVal .red ≠ rbRed by decide) ?_
        obtain ⟨-, -, hunder, -⟩ := h.fits
        cases ctx with
        | nil => exact hunder.elim
        | cons g ctx =>
          obtain ⟨e', k', g, w⟩ := g
          obtain rfl : k' = .black := hunder
          have hg := h.at_.up.frame
          refine Turns.bind_load (hx.load_parent hv) (Turns.bind_load (hp.load_parent hv) ?_)
          refine Turns.ite_neg hg.ne_zero (Turns.bind_load (hx.load_parent hv) ?_)
          refine Turns.bind_load (hx.load_parent hv) (Turns.bind_load (hp.load_parent hv) ?_)
          obtain ⟨t', u', h'⟩ := h.side e'
          have hnext : ∀ y m', (∃ ctx' d' t' u' n', RedAt L root l m' ctx' y d' t' u' n' ∧
              ctx'.length < ctx.length + 2) →
              Turns L off root l (rbInsertFixupLoop root fuel y) m'
              (fun _ m' => Fixed L root l m') := by
            rintro y m' ⟨ctx', d', t', u', n', hr, hlt⟩
            exact ih hr (by simp only [List.length_cons] at hlen; omega)
          cases e' with
          | left =>
            refine Turns.bind_load (hg.load_near hv) (Turns.ite_pos ?_ ((h'.step hv).bind hnext))
            exact addr_on.symm
          | right =>
            refine Turns.bind_load (hg.load_far hv) (Turns.ite_neg ?_ ((h'.step hv).bind hnext))
            have hl :=
              (h.at_.up.linkedAt (by rw [RedBlack.Frame.fill, addr_on]; exact hp.ne_zero)).2.2.2
            rw [RedBlack.Frame.fill, addr_on] at hl
            exact fun he => hl (hg.far.trans he.symm)

/-! ## The new node -/

/-- `x` is linked into an empty hole, red and without children. -/
theorem At.graft (h : At L root l m ctx .nil) (hx : x ∉ l) (h0 : x ≠ 0) (hs : L.Stored x)
    (hlink : m' (linkAddr root ctx) (linkField ctx) = x) (hpar : m' x .parent = top ctx)
    (hcol : m' x .color = colorVal c) (hleft : m' x .left = 0) (hright : m' x .right = 0)
    (hroot : ctx ≠ [] → m' root .ptr = m root .ptr)
    (hsame : ∀ y ∈ l, ∀ f, IsLink f → ¬ (y = linkAddr root ctx ∧ f = linkField ctx) →
      m' y f = m y f) :
    At L root (Ctx.before ctx ++ x :: Ctx.after ctx) m' ctx (.node c .nil x .nil) := by
  have hl : l = Ctx.before ctx ++ Ctx.after ctx := by
    rw [← h.list, Ctx.toList_plug]
    simp [toList]
  have hperm : (Ctx.before ctx ++ x :: Ctx.after ctx).Perm (x :: l) := by
    rw [hl]
    exact List.perm_middle
  refine ⟨⟨h0, hcol, hpar, hleft, hright, trivial, trivial⟩, ?_, ?_, ?_, ?_, h.image⟩
  · exact h.above.relink h.parts.1 hlink hroot (fun y hy => hsame y (h.mem_ctx hy))
  · rw [Ctx.toList_plug]
    simp [toList]
  · rw [hperm.nodup_iff]
    exact List.nodup_cons.mpr ⟨hx, h.nodup⟩
  · intro y hy
    rcases List.mem_cons.mp (hperm.mem_iff.mp hy) with rfl | hy
    · exact hs
    · exact h.stored y hy

theorem At.mono_mem (h : At L root l m ctx t) (hsame : ∀ y ∈ l, ∀ f, IsLink f → m' y f = m y f)
    (hroot : m' root .ptr = m root .ptr) : At L root l m' ctx t := by
  obtain ⟨hndc, hnd, -⟩ := h.parts
  refine ⟨h.tree.congr hnd (fun y hy => hsame y (h.mem hy)), ?_, h.list, h.nodup, h.stored, h.image⟩
  refine h.above.relink hndc ?_ (fun _ => hroot) (fun y hy f hf _ => hsame y (h.mem_ctx hy) f hf)
  cases ctx with
  | nil => exact hroot.trans h.above
  | cons f ctx =>
    exact (hsame _ (h.mem_ctx List.mem_cons_self) _ (isLink_field _)).trans h.above.2.2.2.1

/-! ## `rb_insert` -/

/-- Memory holds a valid red-black tree: its nodes in strict order, its root black and without a
parent, no red node under a red one, as many black nodes on each way down, and the parent links
right. -/
structure IsTree (L : Layout) (root : Nat) (c : Nat → Nat → Int) (m : Mem) (t : RBTree Nat) :
    Prop where
  at_ : At L root t.toList m [] t
  valid : t.Valid
  sorted : Sorted c t.toList

/-- The fix-up and the black root. -/
theorem insertFixup_turns {fuel : Nat} (hv : View off) (h : RedAt L root l m ctx x d t u n)
    (hfuel : ctx.length < fuel) :
    Turns L off root l (rbInsertFixup fuel root x) m
      (fun _ m' => ∃ t', At L root l m' [] t' ∧ t'.Valid) := by
  unfold rbInsertFixup
  refine (RedAt.loop hv fuel h hfuel).bind (fun _ m₁ hfix => ?_)
  obtain ⟨d', c', t₁, a, t₂, k, hat, hb⟩ := hfix
  have hroot : m₁ root .ptr = a := by
    have := hat.above
    rwa [addr_on] at this
  refine Turns.bind_load (Edits.load hat.image hroot) ?_
  refine (recolor_turns hv hat .black).mono (fun _ m' h' => ⟨_, h', ⟨k, hb⟩, color_on⟩)

/-- The list with the key at its place is in order. -/
theorem Brackets.sorted {cmp : Nat → Nat → Int} (h : Brackets cmp x ctx)
    (hs : Sorted cmp (Ctx.before ctx ++ Ctx.after ctx)) :
    Sorted cmp (Ctx.before ctx ++ x :: Ctx.after ctx) := by
  obtain ⟨h1, h2, h3⟩ := List.pairwise_append.mp hs
  refine List.pairwise_append.mpr ⟨h1, List.pairwise_cons.mpr ⟨h.after, h2⟩, fun a ha b hb => ?_⟩
  rcases List.mem_cons.mp hb with rfl | hb
  · exact h.before a ha
  · exact h3 a ha b hb

/-- **The end of `rb_insert`**, at the place of the node. -/
theorem insertAt_turns {c : Nat → Nat → Int} {cmp : Nat → Nat → K Int} {fuel : Nat} (hv : View off)
    (hc : TotalCmp c) (h : At L root l m ctx .nil) (hvalid : (Ctx.plug ctx .nil).Valid)
    (hb : Brackets c x ctx) (hx : x ∉ l) (h0 : x ≠ 0) (hs : L.Stored x) (hleft : m x .left = 0)
    (hright : m x .right = 0) (hcmp : ∀ b ∈ l, Edits L off (cmp x b) m (c x b) m)
    (hfuel : ctx.length < fuel) :
    Turns L off root (Ctx.before ctx ++ x :: Ctx.after ctx)
      (rbInsertAt fuel root x cmp (top ctx)) m (fun y m' => y = x ∧
        ∃ t', At L root (Ctx.before ctx ++ x :: Ctx.after ctx) m' [] t' ∧ t'.Valid) := by
  have hmem : x ∈ Ctx.before ctx ++ x :: Ctx.after ctx := by simp
  unfold rbInsertAt
  cases ctx with
  | nil =>
    refine Turns.ite_pos rfl ?_
    refine ⟨x, _, (Edits.store h.image).bind ((Edits.p2vStore hv hs).bind
      ((Edits.p2vStore hv hs).bind (Edits.pure x))), ⟨rfl, .node .black .nil x .nil, ?_, ?_⟩, ?_⟩
    · refine h.graft hx h0 hs ?_ ?_ (Mem.set_self _ _ _ _) ?_ ?_ (fun hne => absurd rfl hne) ?_
      · rw [Mem.set_ne (Or.inr (by decide)), Mem.set_ne (Or.inr (by decide))]
        exact Mem.set_self _ _ _ _
      · rw [Mem.set_ne (Or.inr (by decide)), Mem.set_self]
        rfl
      · rw [Mem.set_ne (Or.inr (by decide)), Mem.set_ne (Or.inr (by decide)),
          Mem.set_ne (Or.inr (by decide)), hleft]
      · rw [Mem.set_ne (Or.inr (by decide)), Mem.set_ne (Or.inr (by decide)),
          Mem.set_ne (Or.inr (by decide)), hright]
      · intro y hy
        rw [← h.list] at hy
        exact absurd hy List.not_mem_nil
    · exact ⟨⟨1, 0, rfl, rfl, rfl⟩, rfl⟩
    · exact Touches.setRoot.trans ((Touches.set hmem isLink_parent).trans
        (Touches.set hmem isLink_color))
  | cons f ctx =>
    have hf := h.frame
    have hxf : x ≠ f.label := fun he => hx (he ▸ hf.mem)
    refine Turns.ite_neg hf.ne_zero (Turns.bind_load (hcmp _ hf.mem) ?_)
    -- the fix-up starts with the node in the hole
    obtain ⟨m₁, hm₁⟩ : ∃ m₁, m₁ = ((m.set f.label f.side.field x).set x .parent f.label).set
        x .color rbRed := ⟨_, rfl⟩
    have hgraft : At L root (Ctx.before (f :: ctx) ++ x :: Ctx.after (f :: ctx)) m₁ (f :: ctx)
        (on .left .red .nil x .nil) := by
      rw [hm₁]
      refine h.graft hx h0 hs ?_ ?_ (Mem.set_self _ _ _ _) ?_ ?_ (fun _ => ?_) ?_
      · show Mem.set _ _ _ _ f.label f.side.field = x
        rw [Mem.set_ne (Or.inl hxf.symm), Mem.set_ne (Or.inl hxf.symm), Mem.set_self]
      · rw [Mem.set_ne (Or.inr (by decide)), Mem.set_self]
        rfl
      · rw [Mem.set_ne (Or.inr (by decide)), Mem.set_ne (Or.inr (by decide)),
          Mem.set_ne (Or.inl hxf), hleft]
      · rw [Mem.set_ne (Or.inr (by decide)), Mem.set_ne (Or.inr (by decide)),
          Mem.set_ne (Or.inl hxf), hright]
      · rw [Mem.set_ne (Or.inr (by decide)), Mem.set_ne (Or.inr (by decide)), Mem.set_ne]
        exact Or.inr (fun he => by have := he ▸ isLink_field f.side; simp [IsLink] at this)
      · intro y hy g _ hne
        have hyx : y ≠ x := fun he => hx (he ▸ hy)
        rw [Mem.set_ne (Or.inl hyx), Mem.set_ne (Or.inl hyx)]
        exact if_neg hne
    obtain ⟨n, hfits, hnil, -⟩ := Ctx.exists_fits hvalid
    have hred :
      RedAt L root (Ctx.before (f :: ctx) ++ x :: Ctx.after (f :: ctx)) m₁ (f :: ctx) x .left
        .nil .nil n := ⟨hgraft, balanced_on_red.mpr ⟨hnil, hnil, rfl, rfl⟩, hfits⟩
    have hfmem : f.label ∈ Ctx.before (f :: ctx) ++ x :: Ctx.after (f :: ctx) :=
      hgraft.mem_ctx List.mem_cons_self
    have hrest : Turns L off root (Ctx.before (f :: ctx) ++ x :: Ctx.after (f :: ctx)) (do
          p2vStore f.label f.side.field x
          p2vStore x .parent f.label
          p2vStore x .color rbRed
          rbInsertFixup fuel root x
          pure x) m (fun y m' => y = x ∧ ∃ t',
            At L root (Ctx.before (f :: ctx) ++ x :: Ctx.after (f :: ctx)) m' [] t' ∧
            t'.Valid) := by
      refine Turns.bind (P := fun _ m' => m' = m.set f.label f.side.field x)
        ⟨(), _, Edits.p2vStore hv hf.stored, rfl, Touches.set hfmem (isLink_field _)⟩ ?_
      rintro _ _ rfl
      refine Turns.bind (P := fun _ m' => m' = (m.set f.label f.side.field x).set x .parent f.label)
        ⟨(), _, Edits.p2vStore hv hs, rfl, Touches.set hmem isLink_parent⟩ ?_
      rintro _ _ rfl
      refine Turns.bind (P := fun _ m' => m' = m₁)
        ⟨(), _, Edits.p2vStore hv hs, hm₁.symm, Touches.set hmem isLink_color⟩ ?_
      rintro _ _ rfl
      exact (insertFixup_turns hv hred hfuel).bind (fun _ m' h' => Turns.pure ⟨rfl, h'⟩)
    -- the side of the last comparison is that of the hole
    obtain ⟨d, k, a, sib⟩ := f
    cases d with
    | left =>
      have hlt : c x a < 0 := hb.after a (by simp [Ctx.after])
      exact Turns.ite_neg (Int.ne_of_lt hlt) (Turns.ite_pos hlt hrest)
    | right =>
      have hgt : 0 < c x a := (hc.swap a x).mp (hb.before a (by simp [Ctx.before]))
      exact Turns.ite_neg (Int.ne_of_gt hgt)
        (Turns.ite_neg (Int.not_lt.mpr (Int.le_of_lt hgt)) hrest)

/-- The memory after the first two stores of `rb_insert`. -/
def unlinkedMem (m : Mem) (x : Nat) : Mem := (m.set x .left 0).set x .right 0

theorem unlinkedMem_ne {y : Nat} {g : Field} (h : y ≠ x) : unlinkedMem m x y g = m y g := by
  unfold unlinkedMem
  rw [Mem.set_ne (Or.inl h), Mem.set_ne (Or.inl h)]

theorem unlinkedMem_changed {y : Nat} {g : Field} (h : unlinkedMem m x y g ≠ m y g) :
    y = x ∧ IsLink g := by
  by_contra hc
  refine h ?_
  unfold unlinkedMem
  rw [Mem.set_apply, Mem.set_apply, if_neg, if_neg]
  · exact fun hc' => hc ⟨hc'.1, hc'.2 ▸ isLink_field .left⟩
  · exact fun hc' => hc ⟨hc'.1, hc'.2 ▸ isLink_field .right⟩

theorem unlinkedMem_touches (hx : x ∈ l) : Touches root l m (unlinkedMem m x) :=
  (Touches.set hx (isLink_field .left)).trans (Touches.set hx (isLink_field .right))

/-- The links of `x` do not matter to a tree without `x`. -/
theorem IsTree.unlinked {c : Nat → Nat → Int} (h : IsTree L root c m t) (hx : x ∉ t.toList) :
    IsTree L root c (unlinkedMem m x) t := by
  refine ⟨h.at_.mono_mem (fun y hy f _ => unlinkedMem_ne (fun he => hx (he ▸ hy))) ?_,
    h.valid, h.sorted⟩
  unfold unlinkedMem
  rw [Mem.set_ne (Or.inr (by decide)), Mem.set_ne (Or.inr (by decide))]

/-- **`rb_insert` inserts**: what it does with a node that is not in the tree. -/
theorem insert_edits {c : Nat → Nat → Int} {cmp : Nat → Nat → K Int} {fuel : Nat} (hv : View off)
    (hc : TotalCmp c) (h : IsTree L root c m t) (hx : x ∉ t.toList) (h0 : x ≠ 0) (hs : L.Stored x)
    (hcmp : Compares L off root (x :: t.toList) cmp c m) (hfuel : t.height < fuel) :
    ((∃ y ∈ t.toList, c x y = 0) ∧ Edits L off (rbInsert fuel root x cmp) m 0 (unlinkedMem m x)) ∨
    ((∀ y ∈ t.toList, c x y ≠ 0) ∧ ∃ m' t' l₁ l₂, Edits L off (rbInsert fuel root x cmp) m x m' ∧
      IsTree L root c m' t' ∧ t.toList = l₁ ++ l₂ ∧ t'.toList = l₁ ++ x :: l₂ ∧
      Touches root (x :: t.toList) m m') := by
  have htouch : Touches root (x :: t.toList) m (unlinkedMem m x) :=
    unlinkedMem_touches List.mem_cons_self
  have h₁ := h.unlinked hx
  have hcmp₁ : ∀ b ∈ t.toList, Edits L off (cmp x b) (unlinkedMem m x) (c x b) (unlinkedMem m x) :=
    fun b hb => hcmp _ htouch x List.mem_cons_self b (List.mem_cons_of_mem _ hb)
  -- up to the end of the search
  have hstart : ∀ {y : Nat} {m' : Mem} {r : Option Nat},
      Edits L off (rbInsertLoop x cmp fuel (addr t) 0) (unlinkedMem m x) r (unlinkedMem m x) →
      Edits L off (r.elim (pure 0) (rbInsertAt fuel root x cmp)) (unlinkedMem m x) y m' →
      Edits L off (rbInsert fuel root x cmp) m y m' := by
    intro y m' r hloop hrest
    unfold rbInsert
    refine (Edits.p2vStore hv hs).bind ((Edits.p2vStore hv hs).bind ?_)
    refine (Edits.load h.at_.image h₁.at_.above).bind (hloop.bind ?_)
    cases r with
    | none => exact hrest
    | some parent => exact hrest
  rcases insertLoop_edits hv hc h.sorted hcmp₁ h₁.at_ (Brackets.nil c x) (Nat.le_of_lt hfuel)
    with ⟨hloop, hdup⟩ | ⟨ctx, hloop, hat, hplug, hb⟩
  · exact Or.inl ⟨hdup, hstart hloop (Edits.pure 0)⟩
  · refine Or.inr ⟨hb.ne_of_mem hc hat, ?_⟩
    have hlist : t.toList = Ctx.before ctx ++ Ctx.after ctx := by
      rw [← hat.list, Ctx.toList_plug]
      simp [toList]
    have hlen : ctx.length < fuel := by
      have := Ctx.length_add_height_le ctx (.nil : RBTree Nat)
      rw [hplug] at this
      exact Nat.lt_of_le_of_lt (Nat.le_trans (Nat.le_add_right _ _) this) hfuel
    obtain ⟨y, m', hrun, ⟨rfl, t', hat', hvalid⟩, htouch'⟩ :=
      insertAt_turns hv hc hat (hplug ▸ h.valid) hb hx h0 hs
        ((Mem.set_ne (Or.inr (by decide))).trans (Mem.set_self _ _ _ _)) (Mem.set_self _ _ _ _)
        hcmp₁ hlen
    have hsub : ∀ z ∈ Ctx.before ctx ++ y :: Ctx.after ctx, z ∈ y :: t.toList := by
      intro z hz
      rw [hlist]
      exact List.perm_middle.mem_iff.mp hz
    have hlist' := hat'.list
    rw [Ctx.plug_nil] at hlist'
    refine ⟨m', t', Ctx.before ctx, Ctx.after ctx, hstart hloop hrun, ⟨?_, hvalid, ?_⟩,
      hlist, hlist', htouch.trans (htouch'.mono hsub)⟩
    · rw [hlist']
      exact hat'
    · rw [hlist']
      exact hb.sorted (hlist ▸ h.sorted)

/-! ## The whole of it -/

/-- **`rb_insert` is correct.** For every valid tree and every node that is not linked in it the
call returns. If some node compares equal, it returns `NULL` and only the two child links of the new
node have changed. Otherwise it returns the node, the tree is again valid, its nodes in order are
the old ones with the new one put in at its place, and only links of these and the root variable
were written.

The layout is any in which the nodes are readable; where address 0 is not, a dereference of `NULL`
would fault. -/
theorem rbInsert_correct {c : Nat → Nat → Int} {cmp : Nat → Nat → K Int} {fuel : Nat}
    (hv : View off) (hc : TotalCmp c) (h : IsTree L root c m t) (hx : x ∉ t.toList) (h0 : x ≠ 0)
    (hs : L.Stored x) (hcmp : Compares L off root (x :: t.toList) cmp c m)
    (hfuel : t.height < fuel) :
    ((∃ y ∈ t.toList, c x y = 0) → ∃ m', Edits L off (rbInsert fuel root x cmp) m 0 m' ∧
      IsTree L root c m' t ∧ ∀ y f, m' y f ≠ m y f → y = x ∧ IsLink f) ∧
    ((∀ y ∈ t.toList, c x y ≠ 0) → ∃ m' t' l₁ l₂, Edits L off (rbInsert fuel root x cmp) m x m' ∧
      IsTree L root c m' t' ∧ t.toList = l₁ ++ l₂ ∧ t'.toList = l₁ ++ x :: l₂ ∧
      ∀ y f, m' y f ≠ m y f → y = root ∧ f = .ptr ∨ (y = x ∨ y ∈ t.toList) ∧ IsLink f) := by
  rcases insert_edits hv hc h hx h0 hs hcmp hfuel with ⟨hdup, hrun⟩ | ⟨hnew, m', t', l₁,
    l₂, hrun, h'⟩
  · refine ⟨fun _ => ⟨_, hrun, h.unlinked hx, fun y f => unlinkedMem_changed⟩, fun hnew => ?_⟩
    obtain ⟨y, hy, he⟩ := hdup
    exact absurd he (hnew y hy)
  · obtain ⟨htree, hl, hl', htouch⟩ := h'
    refine ⟨fun ⟨y, hy, he⟩ => absurd he (hnew y hy),
      fun _ => ⟨m', t', l₁, l₂, hrun, htree, hl, hl', ?_⟩⟩
    intro y f hne
    exact (htouch y f hne).imp_right (fun hy => ⟨List.mem_cons.mp hy.1, hy.2⟩)

/-! A tree of two nodes, ordered by their addresses. -/

def byAddress (a b : Nat) : Int := (a : Int) - b

theorem byAddress_total : TotalCmp byAddress := by
  refine ⟨fun a b => ?_, fun {a b d} h1 h2 => ?_⟩ <;> unfold byAddress at * <;> omega

def smallTree : RBTree Nat := .node .black (.node .red .nil 0x400000 .nil) 0x401000 .nil

def smallTreeMem : Mem :=
  (((Mem.set (fun _ _ => 0) kernelImageStart .ptr 0x401000).set 0x401000 .color rbBlack).set
    0x401000 .left 0x400000).set 0x400000 .parent 0x401000

theorem byAddress_compares {L : Layout} {root : Nat} {s : List Nat} {m : Mem} :
    Compares L off root s (fun a b => pure (byAddress a b)) byAddress m :=
  fun _ _ _ _ _ _ => Edits.pure _

theorem smallTree_isTree :
    IsTree smallLayout kernelImageStart byAddress smallTreeMem smallTree := by
  refine ⟨⟨?_, rfl, rfl, by decide, ?_, by decide⟩, ⟨⟨1, 0, rfl, ?_⟩, rfl⟩, ?_⟩
  · simp only [smallTree, Rep, addr, colorVal, top]
    decide
  · intro x hx
    left
    simp only [smallTree, toList, List.nil_append, List.cons_append, List.mem_cons,
      List.not_mem_nil, or_false] at hx
    rcases hx with rfl | rfl
    · decide
    · decide
  · exact ⟨⟨rfl, rfl, rfl, rfl⟩, rfl⟩
  · unfold Sorted
    decide

theorem rbInsert_correct_small : ∃ m' t' l₁ l₂,
    Edits smallLayout 0 (rbInsert 3 kernelImageStart 0x402000 (fun a b => pure (byAddress a b)))
      smallTreeMem 0x402000 m' ∧
    IsTree smallLayout kernelImageStart byAddress m' t' ∧ [0x400000, 0x401000] = l₁ ++ l₂ ∧
    t'.toList = l₁ ++ 0x402000 :: l₂ := by
  obtain ⟨-, hnew⟩ := rbInsert_correct (Or.inl rfl) byAddress_total smallTree_isTree
    (x := 0x402000) (by decide) (by decide) (Or.inl (by decide)) byAddress_compares
    (show smallTree.height < 3 by decide)
  obtain ⟨m', t', l₁, l₂, hrun, htree, hl, hl', -⟩ := hnew (by decide)
  exact ⟨m', t', l₁, l₂, hrun, htree, hl, hl'⟩

end Rb
end MikroKernel
