import MikroKernel.Proof.RbTree.Insert

/-!
# `rb_delete_fixup`

Where a black node was taken out, the ways down through the hole have one black node less than the
others: what is in the hole has black height `n` where the context takes `n + 1` (`ShortAt`). A red
node in the hole is made black, and that is the end of it. Otherwise a round moves the hole up (case
2) or mends the tree (cases 3 and 4), if need be after a rotation that gives the hole a black
sibling (case 1). The sibling is never `NULL`, as it has a black node on every way down.
-/

set_option autoImplicit false

namespace MikroKernel
namespace Rb

open RedBlack RedBlack.RBTree

variable {L : Layout} {off root p q n : Nat} {l : List Nat} {m m' : Mem} {ctx : Ctx Nat}
  {d : Side} {k : Color} {X s s₁ s₂ t u : RBTree Nat}

/-- What is in the hole lacks a black node, or is red and will be black. -/
structure ShortAt (L : Layout) (root : Nat) (l : List Nat) (m : Mem) (ctx : Ctx Nat)
    (X : RBTree Nat) (n : Nat) : Prop where
  at_ : At L root l m ctx X
  fits : Ctx.Fits ctx (n + 1)
  black : X.color = .black → X.Balanced n
  red : X.color = .red → X.blacken.Balanced (n + 1)

/-! ## Looking at the sibling -/

theorem colorVal_eq_black {c : Color} : colorVal c = rbBlack ↔ c = .black := by
  cases c <;> simp [colorVal, rbRed, rbBlack]

theorem isBlack_edits (hv : View off) (h : At L root l m ctx t) :
    Edits L off (rbIsBlack (addr t)) m (decide (t.color = .black)) m := by
  cases t with
  | nil => exact Edits.ite_pos rfl (Edits.pure _)
  | node c t₁ a t₂ =>
    have ha := At.node (d := .left) h
    refine Edits.ite_neg ha.ne_zero ((ha.load_color hv).bind ?_)
    have : decide (colorVal c = rbBlack) = decide (c = .black) :=
      decide_eq_decide.mpr colorVal_eq_black
    rw [this]
    exact Edits.pure _

theorem blackChild_edits {c : Color} {a : Nat} (hv : View off)
    (h : At L root l m ctx (on d c t a u)) :
    Edits L off (rbBlackChild d a) m (decide (t.color = .black)) m := by
  have ha := h.node
  unfold rbBlackChild
  refine (ha.load_near hv).bind ?_
  cases t with
  | nil => exact Edits.ite_pos rfl (Edits.pure _)
  | node c' t₁ b t₂ =>
    have hb := At.node (d := .left) h.down
    refine Edits.ite_neg hb.ne_zero ((ha.load_near hv).bind ((hb.load_color hv).bind ?_))
    have : decide (colorVal c' = rbBlack) = decide (c' = .black) :=
      decide_eq_decide.mpr colorVal_eq_black
    rw [this]
    exact Edits.pure _

theorem blackChildFlip_edits {c : Color} {a : Nat} (hv : View off)
    (h : At L root l m ctx (on d c t a u)) :
    Edits L off (rbBlackChild d.flip a) m (decide (u.color = .black)) m := by
  rw [← on_flip] at h
  exact blackChild_edits hv h

theorem blackChildren_edits {c : Color} {a : Nat} (hv : View off)
    (h : At L root l m ctx (on d c t a u)) :
    Edits L off (rbBlackChildren d a) m (decide (t.color = .black ∧ u.color = .black)) m := by
  unfold rbBlackChildren
  refine (blackChild_edits hv h).bind ?_
  by_cases ht : t.color = .black
  · have := blackChildFlip_edits hv h
    simpa [ht] using this
  · have : Edits L off (pure false) m false m := Edits.pure false
    simpa [ht] using this

/-- The red child becomes black. -/
theorem blackenChild_turns {c : Color} {a b : Nat} {e : Side} (hv : View off)
    (h : At L root l m ctx (on d c (on e k t b u) a s)) :
    Turns L off root l (rbBlackenChild d a) m
      (fun _ m' => At L root l m' ctx (on d c (on e .black t b u) a s)) := by
  have ha := h.node
  have hb := h.down.node
  rw [addr_on] at ha
  unfold rbBlackenChild
  refine Turns.bind_load (ha.load_near hv) (Turns.ite_pos hb.ne_zero ?_)
  refine Turns.bind_load (ha.load_near hv) ?_
  exact (recolor_turns hv h.down .black).mono (fun _ m' h' => h'.up)

theorem blackenChildFlip_turns {c : Color} {a b : Nat} {e : Side} (hv : View off)
    (h : At L root l m ctx (on d c s a (on e k t b u))) :
    Turns L off root l (rbBlackenChild d.flip a) m
      (fun _ m' => At L root l m' ctx (on d c s a (on e .black t b u))) := by
  rw [← on_flip] at h
  refine (blackenChild_turns hv h).mono (fun _ m' h' => ?_)
  rwa [on_flip] at h'

/-! ## A round -/

/-- **Case 1**: the red sibling goes up, and the hole is one node lower. -/
theorem deleteFixupRed_turns (hv : View off)
    (h : At L root l m (⟨d, k, p, on d .red s₁ q s₂⟩ :: ctx) X) :
    Turns L off root l (rbDeleteFixupRed d root p q) m (fun y m' => y = addr s₁ ∧
      At L root l m' (⟨d, .red, p, s₁⟩ :: ⟨d, .black, q, s₂⟩ :: ctx) X) := by
  have hq := h.up.downFlip.node
  unfold rbDeleteFixupRed
  refine Turns.bind_load (Edits.ite_neg hq.ne_zero ((hq.load_color hv).bind (Edits.pure _))) ?_
  refine Turns.ite_pos (by decide) ?_
  refine (recolor_turns hv h.up.downFlip .black).bind (fun _ m₁ h₁ => ?_)
  refine (recolor_turns hv h₁.upFlip .red).bind (fun _ m₂ h₂ => ?_)
  refine (rotate_turns hv h₂).bind (fun _ m₃ h₃ => ?_)
  exact Turns.load (h₃.down.node.load_far hv) ⟨rfl, h₃.down.down⟩

/-- A black sibling stays. -/
theorem deleteFixupRed_black (hv : View off)
    (h : At L root l m (⟨d, k, p, on d .black s₁ q s₂⟩ :: ctx) X) :
    Edits L off (rbDeleteFixupRed d root p q) m q m := by
  have hblack := uncle_edits hv h.up.downFlip color_on
  rw [addr_on] at hblack
  unfold rbDeleteFixupRed
  exact hblack.bind (Edits.ite_neg (by decide) (Edits.pure _))

/-- **Case 3**: a red inner child of the sibling is turned to the outer side. -/
theorem deleteFixupInner_turns {b : Nat} (hv : View off)
    (h : At L root l m (⟨d, k, p, on d .black (on d .red t b u) q s₂⟩ :: ctx) X)
    (hs₂ : s₂.color = .black) :
    Turns L off root l (rbDeleteFixupInner d root p q) m (fun y m' => y = b ∧
      At L root l m' (⟨d, k, p, on d .black t b (on d .red u q s₂)⟩ :: ctx) X) := by
  have hq := h.up.downFlip
  unfold rbDeleteFixupInner
  refine Turns.bind_load (blackChildFlip_edits hv hq) (Turns.ite_pos (by simpa using hs₂) ?_)
  refine (blackenChild_turns hv hq).bind (fun _ m₁ h₁ => ?_)
  refine (recolor_turns hv h₁ .red).bind (fun _ m₂ h₂ => ?_)
  refine (rotateFlip_turns hv h₂).bind (fun _ m₃ h₃ => ?_)
  refine Turns.load (y := b) ?_ ⟨rfl, h₃.upFlip.down⟩
  have hp := h₃.upFlip.node
  rw [addr_on] at hp
  exact hp.load_far hv

/-- A red outer child stays. -/
theorem deleteFixupInner_red (hv : View off)
    (h : At L root l m (⟨d, k, p, on d .black s₁ q s₂⟩ :: ctx) X) (hs₂ : s₂.color = .red) :
    Edits L off (rbDeleteFixupInner d root p q) m q m := by
  unfold rbDeleteFixupInner
  refine (blackChildFlip_edits hv h.up.downFlip).bind (Edits.ite_neg ?_ (Edits.pure _))
  simp [hs₂]

/-- **Case 4**: the red outer child becomes black, and the sibling takes the place of the parent. -/
theorem deleteFixupOuter_turns {b : Nat} (hv : View off)
    (h : At L root l m (⟨d, k, p, on d .black s₁ q (on d .red t b u)⟩ :: ctx) X) :
    Turns L off root l (rbDeleteFixupOuter d root p q) m (fun _ m' =>
      At L root l m' ctx (on d k (on d .black X p s₁) q (on d .black t b u))) := by
  unfold rbDeleteFixupOuter
  refine Turns.bind_load (h.frame.load_color hv) ?_
  refine (recolor_turns hv h.up.downFlip k).bind (fun _ m₁ h₁ => ?_)
  refine (recolor_turns hv h₁.upFlip .black).bind (fun _ m₂ h₂ => ?_)
  refine (blackenChildFlip_turns hv h₂.downFlip).bind (fun _ m₃ h₃ => ?_)
  exact rotate_turns hv h₃.upFlip

/-- What comes after case 1. -/
def fixupRest (d : Side) (root p q : Nat) : K (Nat × Nat) := do
  if ← rbBlackChildren d q then do
    p2vStore q .color rbRed
    pure (p, ← p2vLoad p .parent)
  else do
    rbDeleteFixupOuter d root p (← rbDeleteFixupInner d root p q)
    pure (← load root .ptr, p)

/-- The tree is as it should be: nothing is left to do at the root. -/
theorem ShortAt.of_valid (h : At L root l m ctx X) (hv : (Ctx.plug ctx X).Valid) :
    ∃ X' n, ShortAt L root l m [] X' n ∧ m root .ptr = addr X' := by
  obtain ⟨⟨n, hn⟩, hc⟩ := hv
  refine ⟨_, n, ⟨h.whole, trivial, fun _ => hn, fun hr => ?_⟩, h.whole.above⟩
  rw [hc] at hr
  exact absurd hr (by simp)

/-- **Cases 3 and 4** mend the tree. -/
theorem fixupRest_mends (hv : View off)
    (h : At L root l m (⟨d, k, p, on d .black s₁ q s₂⟩ :: ctx) X)
    (hfits : Ctx.Fits (⟨d, k, p, on d .black s₁ q s₂⟩ :: ctx) (n + 1)) (hX : X.Balanced n)
    (hred : ¬ (s₁.color = .black ∧ s₂.color = .black)) :
    Turns L off root l (fixupRest d root p q) m (fun r m' =>
      ∃ X' n', ShortAt L root l m' [] X' n' ∧ r.1 = addr X') := by
  -- what the two rotations lead to
  have hend : ∀ {b a m'} {t u v : RBTree Nat}, t.Balanced n → u.Balanced n → v.Balanced n →
      At L root l m' ctx (on d k (on d .black X p t) b (on d .black u a v)) →
      Turns L off root l (do pure ((← load root .ptr : Nat), p)) m' (fun r m' =>
        ∃ X' n', ShortAt L root l m' [] X' n' ∧ r.1 = addr X') := by
    intro b a m' t u v ht hu hv' hat
    have h1 := balanced_on_black_succ (d := d) (a := p) |>.mpr ⟨hX, ht⟩
    have h2 := balanced_on_black_succ (d := d) (a := a) |>.mpr ⟨hu, hv'⟩
    have hvalid : (Ctx.plug ctx (on d k (on d .black X p t) b (on d .black u a v))).Valid := by
      cases k with
      | black =>
        exact Ctx.valid_plug hfits.2 (balanced_on_black_succ.mpr ⟨h1, h2⟩) (fun hr => by simp at hr)
      | red =>
        exact Ctx.valid_plug hfits.2.2.2 (balanced_on_red.mpr ⟨h1, h2, color_on, color_on⟩)
          (fun _ => hfits.2.2.1)
    obtain ⟨X', n', hshort, hroot⟩ := ShortAt.of_valid hat hvalid
    exact Turns.bind_load (Edits.load hat.image hroot) (Turns.pure ⟨X', n', hshort, rfl⟩)
  obtain ⟨hb₁, hb₂⟩ := balanced_on_black_succ.mp hfits.1
  unfold fixupRest
  refine Turns.bind_load (blackChildren_edits hv h.up.downFlip)
    (Turns.ite_neg (by simpa using hred) ?_)
  by_cases hs₂ : s₂.color = .red
  · obtain ⟨t, b, u, rfl⟩ := exists_on_of_red hs₂ d
    obtain ⟨ht, hu, -, -⟩ := balanced_on_red.mp hb₂
    refine Turns.bind_load (deleteFixupInner_red hv h hs₂) ?_
    exact (deleteFixupOuter_turns hv h).bind (fun _ m' h' => hend hb₁ ht hu h')
  · have hs₂b := color_eq_black hs₂
    have hs₁ : s₁.color = .red := by
      cases hc : s₁.color with
      | red => rfl
      | black => exact absurd ⟨hc, hs₂b⟩ hred
    obtain ⟨t, b, u, rfl⟩ := exists_on_of_red hs₁ d
    obtain ⟨ht, hu, -, -⟩ := balanced_on_red.mp hb₁
    refine (deleteFixupInner_turns hv h hs₂b).bind ?_
    rintro _ m₁ ⟨rfl, h₁⟩
    exact (deleteFixupOuter_turns hv h₁).bind (fun _ m' h' => hend ht hu hb₂ h')

/-- **Case 2**: the sibling becomes red, and the parent is in the hole. -/
theorem fixupRest_climbs (hv : View off)
    (h : At L root l m (⟨d, k, p, on d .black s₁ q s₂⟩ :: ctx) X)
    (hs₁ : s₁.color = .black) (hs₂ : s₂.color = .black) :
    Turns L off root l (fixupRest d root p q) m (fun r m' => r = (p, top ctx) ∧
      At L root l m' ctx (on d k X p (on d .red s₁ q s₂))) := by
  unfold fixupRest
  refine Turns.bind_load (blackChildren_edits hv h.up.downFlip)
    (Turns.ite_pos (by simp [hs₁, hs₂]) ?_)
  refine (recolor_turns hv h.up.downFlip .red).bind (fun _ m₁ h₁ => ?_)
  exact Turns.bind_load (h₁.upFlip.node.load_parent hv) (Turns.pure ⟨rfl, h₁.upFlip⟩)

/-- What a round ends with: a shorter way up, or a red node in the hole. -/
def Rounded (L : Layout) (root : Nat) (l : List Nat) (len : Nat) (r : Nat × Nat) (m : Mem) : Prop :=
  ∃ ctx X n, ShortAt L root l m ctx X n ∧ r.1 = addr X ∧ (ctx ≠ [] → r.2 = top ctx) ∧
    (ctx.length < len ∨ X.color = .red)

theorem fixupRest_turns (hv : View off)
    (h : At L root l m (⟨d, k, p, on d .black s₁ q s₂⟩ :: ctx) X)
    (hfits : Ctx.Fits (⟨d, k, p, on d .black s₁ q s₂⟩ :: ctx) (n + 1))
    (hX : X.Balanced n) {len : Nat} (hlen : k = .black → ctx.length < len) (hpos : 0 < len) :
    Turns L off root l (fixupRest d root p q) m (Rounded L root l len) := by
  by_cases hcase : s₁.color = .black ∧ s₂.color = .black
  · refine (fixupRest_climbs hv h hcase.1 hcase.2).mono ?_
    rintro _ m' ⟨rfl, h'⟩
    obtain ⟨hb₁, hb₂⟩ := balanced_on_black_succ.mp hfits.1
    have hsib := balanced_on_red (d := d) (a := q) |>.mpr ⟨hb₁, hb₂, hcase.1, hcase.2⟩
    cases k with
    | black =>
      refine ⟨ctx, _, n + 1, ⟨h', hfits.2, fun _ => ?_, fun hr => by simp at hr⟩, addr_on.symm,
        fun _ => rfl, Or.inl (hlen rfl)⟩
      exact balanced_on_black_succ.mpr ⟨hX, hsib⟩
    | red =>
      refine ⟨ctx, _, n, ⟨h', hfits.2.2.2, fun hb => by simp at hb, fun _ => ?_⟩, addr_on.symm,
        fun _ => rfl, Or.inr color_on⟩
      rw [blacken_on]
      exact balanced_on_black_succ.mpr ⟨hX, hsib⟩
  · refine (fixupRest_mends hv h hfits hX hcase).mono ?_
    rintro r m' ⟨X', n', hshort, hr⟩
    exact ⟨[], X', n', hshort, hr, fun hne => absurd rfl hne, Or.inl hpos⟩

/-- **A round of the fix-up.** -/
theorem ShortAt.step (hv : View off) (h : ShortAt L root l m (⟨d, k, p, s⟩ :: ctx) X n)
    (hX : X.color = .black) :
    Turns L off root l (rbDeleteFixupStep d root p) m (Rounded L root l (ctx.length + 1)) := by
  have hsib := h.fits.1
  obtain ⟨c, s₁, q, s₂, rfl⟩ := hsib.exists_on d
  have hp := h.at_.frame
  rw [addr_on] at hp
  have hrest : ∀ q', (do
      if ← rbBlackChildren d q' then do
        p2vStore q' .color rbRed
        pure (p, ← p2vLoad p .parent)
      else do
        rbDeleteFixupOuter d root p (← rbDeleteFixupInner d root p q')
        pure (← load root .ptr, p)) = fixupRest d root p q' := fun _ => rfl
  unfold rbDeleteFixupStep
  simp only [hrest]
  refine Turns.bind_load (hp.load_far hv) ?_
  cases c with
  | black =>
    refine Turns.bind_load (deleteFixupRed_black hv h.at_) ?_
    exact fixupRest_turns hv h.at_ h.fits (h.black hX) (fun _ => Nat.lt_succ_self _)
      (Nat.succ_pos _)
  | red =>
    -- the parent of a red sibling is black
    have hk : k = .black := by
      cases k with
      | black => rfl
      | red => exact absurd h.fits.2.1 (by simp)
    subst hk
    obtain ⟨hb₁, hb₂, hc₁, -⟩ := balanced_on_red.mp hsib
    obtain ⟨c, r₁, b, r₂, rfl⟩ := hb₁.exists_on d
    obtain rfl : c = .black := by simpa using hc₁
    refine (deleteFixupRed_turns hv h.at_).bind ?_
    rintro _ m₁ ⟨rfl, h₁⟩
    rw [addr_on]
    refine fixupRest_turns hv h₁ ⟨hb₁, color_on, rfl, hb₂, h.fits.2⟩ (h.black hX)
      (fun hc => by simp at hc) (Nat.succ_pos _)

/-! ## The loop -/

/-- What the loop ends with: the tree is valid once the node in the hole is black. -/
def Mended (L : Layout) (root : Nat) (l : List Nat) (x : Nat) (m : Mem) : Prop :=
  ∃ ctx X, At L root l m ctx X ∧ x = addr X ∧ (Ctx.plug ctx X.blacken).Valid

theorem ShortAt.mended_red (h : ShortAt L root l m ctx X n) (hr : X.color = .red) :
    Mended L root l (addr X) m :=
  ⟨ctx, X, h.at_, rfl, Ctx.valid_plug h.fits (h.red hr) (fun hc => by simp at hc)⟩

theorem ShortAt.mended_root (h : ShortAt L root l m [] X n) : Mended L root l (addr X) m := by
  refine ⟨[], X, h.at_, rfl, ?_⟩
  cases hc : X.color with
  | red => exact ⟨⟨n + 1, h.red hc⟩, color_blacken X⟩
  | black =>
    rw [blacken_of_black hc]
    exact ⟨⟨n, h.black hc⟩, hc⟩

/-- The root variable leads to a node above the hole, if there is one. -/
theorem CtxRep.root_mem {f : RedBlack.Frame Nat} {x : Nat} (h : CtxRep m root (f :: ctx) x) :
    m root .ptr ∈ Ctx.labels (f :: ctx) := by
  induction ctx generalizing f x with
  | nil =>
    obtain ⟨-, -, -, -, -, -, hroot⟩ := h
    rw [show m root .ptr = f.label from hroot]
    exact List.mem_cons_self
  | cons g ctx ih =>
    obtain ⟨-, -, -, -, -, -, hctx⟩ := h
    have := ih hctx
    simp only [Ctx.labels, List.mem_cons, List.mem_append] at this ⊢
    tauto

theorem At.root_ne {f : RedBlack.Frame Nat} (h : At L root l m (f :: ctx) t) :
    addr t ≠ m root .ptr := by
  intro he
  have hmem := h.above.root_mem
  rw [← he] at hmem
  exact h.parts.2.2 _ hmem (addr_mem (h.ne_zero (h.mem_ctx hmem)))

/-- What is in the hole is not the sibling, if that is no empty tree. -/
theorem At.sibling_ne (h : At L root l m (⟨d, k, p, s⟩ :: ctx) t) (hs : addr s ≠ 0) :
    addr t ≠ addr s := by
  intro he
  have hmem : addr s ∈ s.toList := addr_mem hs
  refine h.parts.2.2 (addr s) ?_ (he ▸ addr_mem (he ▸ hs))
  simp [Ctx.labels, hmem]

/-- **The loop of the fix-up.** -/
theorem ShortAt.loop (hv : View off) (fuel : Nat) :
    ∀ {m : Mem} {ctx : Ctx Nat} {X : RBTree Nat} {n xParent : Nat}, ShortAt L root l m ctx X n →
      (ctx ≠ [] → xParent = top ctx) → (ctx.length < fuel ∨ X.color = .red ∧ 0 < fuel) →
      Turns L off root l (rbDeleteFixupLoop root fuel (addr X) xParent) m (Mended L root l) := by
  induction fuel with
  | zero => exact fun _ _ hlen => absurd hlen (by omega)
  | succ fuel ih =>
    intro m ctx X n xParent h hpar hlen
    unfold rbDeleteFixupLoop
    refine Turns.bind_load (Edits.load h.at_.image rfl) ?_
    cases ctx with
    | nil => exact Turns.ite_pos h.at_.above.symm (Turns.pure h.mended_root)
    | cons f ctx =>
      obtain ⟨d, k, p, s⟩ := f
      obtain rfl : xParent = p := hpar (by simp)
      refine Turns.ite_neg h.at_.root_ne (Turns.bind_load (isBlack_edits hv h.at_) ?_)
      cases hc : X.color with
      | red => exact Turns.ite_neg (by decide) (Turns.pure (h.mended_red hc))
      | black =>
        refine Turns.ite_pos (by decide) ?_
        have hp := h.at_.frame
        have hnext : ∀ r m', Rounded L root l (ctx.length + 1) r m' →
            Turns L off root l (rbDeleteFixupLoop root fuel r.1 r.2) m' (Mended L root l) := by
          rintro ⟨x', p'⟩ m' ⟨ctx', X', n', hshort, rfl, htop, hless⟩
          refine ih hshort htop ?_
          rcases hlen with hlen | ⟨hred, -⟩
          · simp only [List.length_cons] at hlen
            exact hless.imp (fun h1 => by omega) (fun h1 => ⟨h1, by omega⟩)
          · rw [hc] at hred
            exact absurd hred (by simp)
        cases d with
        | left =>
          exact Turns.bind_load (hp.load_near hv) (Turns.ite_pos rfl ((h.step hv hc).bind hnext))
        | right =>
          refine Turns.bind_load (hp.load_far hv) (Turns.ite_neg ?_ ((h.step hv hc).bind hnext))
          have hsib : Rep m s xParent := h.at_.above.2.2.2.2.2.1
          have hs : s.Balanced (n + 1) := h.fits.1
          obtain ⟨c, s₁, q, s₂, rfl⟩ := hs.exists_on .left
          exact h.at_.sibling_ne (rep_on.mp hsib).1

/-- **`rb_delete_fixup`** makes the tree valid. -/
theorem deleteFixup_turns {fuel xParent : Nat} (hv : View off) (h : ShortAt L root l m ctx X n)
    (hpar : xParent = top ctx) (hlen : ctx.length < fuel) :
    Turns L off root l (rbDeleteFixup fuel root (addr X) xParent) m
      (fun _ m' => ∃ t', At L root l m' [] t' ∧ t'.Valid) := by
  unfold rbDeleteFixup
  refine (ShortAt.loop hv fuel h (fun _ => hpar) (Or.inl hlen)).bind ?_
  rintro _ m₁ ⟨ctx', X', hat, rfl, hvalid⟩
  cases X' with
  | nil => exact Turns.ite_neg (not_not.mpr rfl) (Turns.pure ⟨_, hat.whole, hvalid⟩)
  | node c t₁ a t₂ =>
    have ha := At.node (d := .left) hat
    refine Turns.ite_pos ha.ne_zero ?_
    refine (recolor_turns (d := .left) hv hat .black).mono (fun _ m' h' => ⟨_, h'.whole, hvalid⟩)

end Rb
end MikroKernel
