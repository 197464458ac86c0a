import MikroKernel.Lib.Run
import MikroKernel.Proof.RbTree.Delete
import MikroKernel.Proof.RbTree.Fuel
import MikroKernel.Proof.Vm.Order
import MikroKernel.Proof.Vm.Search

/-!
# Runs of the tree

A run starts with an empty tree and is made of calls of `rb_insert` and `rb_delete`. The tree in
memory is valid after each of them (`Kept`), and so never higher than twice the logarithm of its
size (`height_of_run`). The loops that go down it return with that much fuel, one unit a node: they
visit no more nodes.
-/

set_option autoImplicit false

namespace MikroKernel
namespace Rb

open RedBlack RedBlack.RBTree

variable {L : Layout} {off root : Nat} {m m' : Mem} {t t' : RBTree Nat} {c : Nat → Nat → Int}
  {cmp : Nat → Nat → K Int}

/-! ## The tree in memory -/

/-- Memory holds at most one tree under an address. -/
theorem Rep.unique {par : Nat} (h : Rep m t par) (h' : Rep m t' par) (he : addr t = addr t') :
    t = t' := by
  induction t generalizing t' par with
  | nil => exact ((addr_ne_zero h').mp he.symm).symm
  | node k l a r ihl ihr =>
    cases t' with
    | nil => exact absurd he h.1
    | node k' l' a' r' =>
      obtain rfl : a = a' := he
      obtain ⟨-, hc, -, hl, hr, hrl, hrr⟩ := h
      obtain ⟨-, hc', -, hl', hr', hrl', hrr'⟩ := h'
      obtain rfl : k = k' := colorVal_inj.mp (hc.symm.trans hc')
      rw [ihl hrl hrl' (hl.symm.trans hl'), ihr hrr hrr' (hr.symm.trans hr')]

/-- `t` is the tree that the root variable leads to. -/
def Holds (L : Layout) (root : Nat) (m : Mem) (t : RBTree Nat) : Prop :=
  At L root t.toList m [] t

theorem Holds.unique (h : Holds L root m t) (h' : Holds L root m t') : t = t' :=
  h.tree.unique h'.tree (h.above.symm.trans h'.above)

/-! ## Steps -/

/-- A call on a tree of nodes from `N`, ordered by `cmp`: `rb_insert` of a node that is not linked
in the tree, or `rb_delete` with any key. -/
inductive Step (L : Layout) (root : Nat) (cmp : Nat → Nat → K Int) (N : Nat → Prop) :
    KState → KState → Prop
  | insert {s s' : KState} {x r : Nat} (hx : N x)
      (hnew : ∀ t, Holds L root s.mem t → x ∉ t.toList)
      (hrun : Finishes L (fun fuel => rbInsert fuel root x cmp) s r s') : Step L root cmp N s s'
  | delete {s s' : KState} {key : Nat} {r : Bool} (hkey : N key)
      (hrun : Finishes L (fun fuel => rbDelete fuel root key cmp) s r s') : Step L root cmp N s s'

/-- `cmp` orders the nodes of `N` by `c`. -/
structure Orders (L : Layout) (root : Nat) (cmp : Nat → Nat → K Int) (c : Nat → Nat → Int)
    (N : Nat → Prop) (s : KState) : Prop where
  view : View s.physMapOffset
  total : TotalCmp c
  stored : ∀ x, N x → x ≠ 0 ∧ L.Stored x
  compares : ∀ l : List Nat, (∀ x ∈ l, N x) → Compares L s.physMapOffset root l cmp c s.mem

/-- What a run keeps: a valid tree of nodes of `N`, and all that is not a link of such a node. -/
structure Kept (L : Layout) (root : Nat) (c : Nat → Nat → Int) (N : Nat → Prop) (s₀ s : KState)
    (t : RBTree Nat) (l : List Nat) : Prop where
  tree : IsTree L root c s.mem t
  nodes : ∀ x ∈ t.toList, N x
  offset : s.physMapOffset = s₀.physMapOffset
  list : ∀ x ∈ l, N x
  touches : Touches root l s₀.mem s.mem

variable {N : Nat → Prop} {s₀ s s' : KState} {l : List Nat}

/-- The comparator sees the same order after a run. -/
theorem Orders.kept (ho : Orders L root cmp c N s₀) (h : Kept L root c N s₀ s t l) {l' : List Nat}
    (hl' : ∀ x ∈ l', N x) : Compares L s₀.physMapOffset root l' cmp c s.mem := by
  have hall : ∀ x ∈ l ++ l', N x := fun x hx => (List.mem_append.mp hx).elim (h.list x) (hl' x)
  intro m' ht a ha b hb
  refine ho.compares (l ++ l') hall m' ?_ a (List.mem_append_right _ ha) b
    (List.mem_append_right _ hb)
  exact (h.touches.mono (fun x => List.mem_append_left _)).trans
    (ht.mono (fun x => List.mem_append_right _))

theorem Kept.next {l' : List Nat} (h : Kept L root c N s₀ s t l) (htree : IsTree L root c m' t')
    (hnodes : ∀ x ∈ t'.toList, N x) (hl' : ∀ x ∈ l', N x) (ht : Touches root l' s.mem m') :
    Kept L root c N s₀ { s with mem := m' } t' (l ++ l') := by
  refine ⟨htree, hnodes, h.offset, fun x hx => (List.mem_append.mp hx).elim (h.list x) (hl' x), ?_⟩
  exact (h.touches.mono (fun x => List.mem_append_left _)).trans
    (ht.mono (fun x => List.mem_append_right _))

/-- **One call keeps it.** -/
theorem Kept.step (ho : Orders L root cmp c N s₀) (h : Kept L root c N s₀ s t l)
    (hstep : Step L root cmp N s s') : ∃ t' l', Kept L root c N s₀ s' t' l' := by
  have hv : View s.physMapOffset := h.offset ▸ ho.view
  cases hstep with
  | @insert x r hx hnew hrun =>
    have hmem : ∀ y ∈ x :: t.toList, N y := List.forall_mem_cons.mpr ⟨hx, h.nodes⟩
    have hcmp : Compares L s.physMapOffset root (x :: t.toList) cmp c s.mem :=
      h.offset ▸ ho.kept h hmem
    obtain ⟨h0, hs⟩ := ho.stored x hx
    have hxt := hnew t h.tree.at_
    obtain ⟨fuel, hfuel, hrun⟩ := hrun.enough insert_le (t.height + 1)
    rcases insert_edits hv ho.total h.tree hxt h0 hs hcmp hfuel with
      ⟨-, hedit⟩ | ⟨-, m', t', l₁, l₂, hedit, htree, hl, hl', htouch⟩
    · obtain ⟨-, rfl⟩ := hedit.result hrun
      exact ⟨t, _,
        h.next (h.tree.unlinked hxt) h.nodes hmem (unlinkedMem_touches List.mem_cons_self)⟩
    · obtain ⟨-, rfl⟩ := hedit.result hrun
      refine ⟨t', _, h.next htree (fun y hy => hmem y ?_) hmem htouch⟩
      rw [hl'] at hy
      rw [hl]
      exact List.perm_middle.mem_iff.mp hy
  | @delete key r hkey hrun =>
    have hcmp : ∀ b ∈ t.toList, Edits L s.physMapOffset (cmp key b) s.mem (c key b) s.mem := by
      have hall := ho.kept h (List.forall_mem_cons.mpr ⟨hkey, h.nodes⟩)
      rw [← h.offset] at hall
      exact fun b hb => hall _ (Touches.refl _ _ _) key List.mem_cons_self b
        (List.mem_cons_of_mem _ hb)
    obtain ⟨fuel, hfuel, hrun⟩ := hrun.enough delete_le (t.height + 1)
    rcases delete_edits hv ho.total h.tree hcmp hfuel with
      ⟨-, hedit⟩ | ⟨x, l₁, l₂, m', t', -, hl, hedit, htree, hl', htouch⟩
    · obtain ⟨-, rfl⟩ := hedit.result hrun
      exact ⟨t, l, h⟩
    · obtain ⟨-, rfl⟩ := hedit.result hrun
      refine ⟨t', _, h.next htree (fun y hy => h.nodes y ?_) h.nodes htouch⟩
      rw [hl'] at hy
      rw [hl]
      exact List.perm_middle.mem_iff.mpr (List.mem_cons_of_mem _ hy)

/-- **A whole run keeps it.** -/
theorem kept_of_run (ho : Orders L root cmp c N s₀) (himg : L.image root = true)
    (hempty : s₀.mem root .ptr = 0) (hrun : Run.Reaches (Step L root cmp N) s₀ s) :
    ∃ t l, Kept L root c N s₀ s t l := by
  refine hrun.invariant (fun s => ∃ t l, Kept L root c N s₀ s t l) ?_ ?_
  · refine ⟨.nil, [], ⟨⟨trivial, hempty, rfl, List.nodup_nil, ?_, himg⟩, valid_nil,
      List.Pairwise.nil⟩, ?_, rfl, ?_, Touches.refl _ _ _⟩
    all_goals exact fun x hx => absurd hx List.not_mem_nil
  · rintro a b - ⟨t, l, h⟩ hstep
    exact h.step ho hstep

/-! ## The way down -/

/-- A red-black tree is a tree that can be searched. -/
theorem holds_shape {ctx : Ctx Nat} (hat : At L root l m ctx t)
    (hvma : ∀ x ∈ l, L.Stored (vmaOf x)) :
    Search.Holds L vmaOf m (SearchTree.shape t) := by
  have hroot : ∀ u : RBTree Nat, Search.rootOf (SearchTree.shape u) = addr u := fun u => by
    cases u <;> rfl
  induction t generalizing ctx with
  | nil => trivial
  | node k t₁ a t₂ ih₁ ih₂ =>
    have ha := At.node (d := .left) hat
    obtain ⟨-, -, -, hleft, hright, -, -⟩ := hat.tree
    exact ⟨⟨ha.ne_zero, hat.stored a ha.mem, hvma a ha.mem⟩,
      ⟨hleft.trans (hroot t₁).symm, hright.trans (hroot t₂).symm⟩,
      ih₁ (At.down (d := .left) hat), ih₂ (At.downFlip (d := .left) hat)⟩

/-- **`rb_find_vma` from a hole on** goes down one way, whatever the bounds of the areas are. -/
theorem findVmaLoop_edits {ctx : Ctx Nat} {addr' fuel : Nat} (hv : View off)
    (hat : At L root l m ctx t) (hvma : ∀ x ∈ l, L.Stored (vmaOf x)) (hfuel : t.height ≤ fuel) :
    Edits L off (rbFindVmaLoop addr' fuel (addr t)) m
      (((SearchTree.within (fun x => m (vmaOf x) .vmaStart) (fun x => m (vmaOf x) .vmaEnd) addr'
        (SearchTree.shape t)).map vmaOf).getD 0) m := by
  have hroot : addr t = Search.rootOf (SearchTree.shape t) := by cases t <;> rfl
  rw [rbFindVmaLoop_eq, hroot]
  exact Search.findAreaLoop_edits _ _ addr' hv (holds_shape hat hvma)
    (by rwa [SearchTree.height_shape])

/-- **A tree that a run makes is low**, and the loops that go down it visit no more nodes than its
height: `rb_find_exact` for any key, the loop of `rb_insert` for any node that is not linked (it
runs once the links of the node are cleared), and `rb_find_vma` for any address, where the nodes are
those of VMAs. A loop that returns with fuel `n` has visited at most `n` nodes. -/
theorem height_of_run (ho : Orders L root cmp c N s₀) (himg : L.image root = true)
    (hempty : s₀.mem root .ptr = 0) (hrun : Run.Reaches (Step L root cmp N) s₀ s) :
    (∃ t, Holds L root s.mem t) ∧ ∀ t, Holds L root s.mem t →
      t.height ≤ 2 * Nat.log 2 (t.size + 1) ∧
      (∀ key, N key → ∃ r, Edits L s.physMapOffset
        (rbFindExact (2 * Nat.log 2 (t.size + 1)) root key cmp) s.mem r s.mem) ∧
      (∀ x, N x → x ∉ t.toList → ∃ r, Edits L s.physMapOffset
        (do rbInsertLoop x cmp (2 * Nat.log 2 (t.size + 1)) (← load root .ptr) 0)
        (unlinkedMem s.mem x) r (unlinkedMem s.mem x)) ∧
      ((∀ x ∈ t.toList, L.Stored (vmaOf x)) → ∀ addr', ∃ r, Edits L s.physMapOffset
        (rbFindVma (2 * Nat.log 2 (t.size + 1)) root addr') s.mem r s.mem) := by
  obtain ⟨t, l, h⟩ := kept_of_run ho himg hempty hrun
  have hv : View s.physMapOffset := h.offset ▸ ho.view
  have hheight := h.tree.valid.height_le
  refine ⟨⟨t, h.tree.at_⟩, fun t₁ ht₁ => ?_⟩
  obtain rfl := Holds.unique ht₁ h.tree.at_
  refine ⟨hheight, fun key hkey => ?_, fun x hx hxt => ?_, fun hvma addr' => ?_⟩
  · have hall := ho.kept h (List.forall_mem_cons.mpr ⟨hkey, h.nodes⟩)
    rw [← h.offset] at hall
    obtain ⟨r, hr, -⟩ := findLoop_edits hv ho.total h.tree.sorted
      (fun b hb => hall _ (Touches.refl _ _ _) key List.mem_cons_self b (List.mem_cons_of_mem _ hb))
      h.tree.at_ (Brackets.nil c key) hheight
    exact ⟨r, (Edits.load himg h.tree.at_.above).bind hr⟩
  · have hall := ho.kept h (List.forall_mem_cons.mpr ⟨hx, h.nodes⟩)
    rw [← h.offset] at hall
    have hun := h.tree.unlinked hxt
    rcases insertLoop_edits hv ho.total h.tree.sorted
      (fun b hb => hall _ (unlinkedMem_touches List.mem_cons_self) x List.mem_cons_self b
        (List.mem_cons_of_mem _ hb)) hun.at_ (Brackets.nil c x) hheight with
      ⟨hr, -⟩ | ⟨ctx, hr, -⟩
    · exact ⟨_, (Edits.load himg hun.at_.above).bind hr⟩
    · exact ⟨_, (Edits.load himg hun.at_.above).bind hr⟩
  · exact ⟨_,
      (Edits.load himg h.tree.at_.above).bind (findVmaLoop_edits hv h.tree.at_ hvma hheight)⟩

/-! ### On the small machine -/

/-- The tree under the pointer `p`, as far down as the fuel goes. -/
def treeAt (m : Mem) : Nat → Nat → RBTree Nat
  | 0, _ => .nil
  | fuel + 1, p =>
      if p = 0 then .nil
      else .node (if m p .color = rbRed then .red else .black) (treeAt m fuel (m p .left)) p
        (treeAt m fuel (m p .right))

def decidableRep (m : Mem) : ∀ (t : RBTree Nat) (par : Nat), Decidable (Rep m t par)
  | .nil, _ => .isTrue trivial
  | .node c l a r, par =>
      have := decidableRep m l a
      have := decidableRep m r a
      inferInstanceAs
        (Decidable (a ≠ 0 ∧ m a .color = colorVal c ∧ m a .parent = par ∧ m a .left = addr l ∧
          m a .right = addr r ∧ Rep m l a ∧ Rep m r a))

instance (m : Mem) (t : RBTree Nat) (par : Nat) : Decidable (Rep m t par) := decidableRep m t par

/-- The nodes of five VMAs. -/
def smallNodes : List Nat := [0x400018, 0x401018, 0x402018, 0x403018, 0x404018]

/-- The VMAs have their starts, and no node is linked. -/
def smallVmas : KState :=
  { bootState with
    mem := smallNodes.foldl (fun m x => m.set (vmaOf x) .vmaStart (vmaOf x - 0x3FF000))
      bootState.mem }

/-- What the root variable leads to. -/
def smallTreeOf (s : KState) : RBTree Nat := treeAt s.mem 5 (s.mem kernelImageStart .ptr)

/-- It is a tree of the five nodes. -/
def Shown (s : KState) : Prop :=
  Rep s.mem (smallTreeOf s) 0 ∧ s.mem kernelImageStart .ptr = addr (smallTreeOf s) ∧
    (smallTreeOf s).toList.Nodup ∧ ∀ x ∈ (smallTreeOf s).toList, x ∈ smallNodes

instance (s : KState) : Decidable (Shown s) := inferInstanceAs (Decidable (_ ∧ _))

theorem smallNodes_stored : ∀ x ∈ smallNodes, smallLayout.phys x = true ∧
    smallLayout.phys (vmaOf x) = true := by
  decide

theorem Shown.holds (h : Shown s) : Holds smallLayout kernelImageStart s.mem (smallTreeOf s) :=
  ⟨h.1, h.2.1, rfl, h.2.2.1, fun x hx => Or.inl (smallNodes_stored x (h.2.2.2 x hx)).1, by decide⟩

theorem smallVmas_orders : Orders smallLayout kernelImageStart vmaCmp (Vm.startOrder smallVmas.mem)
    (· ∈ smallNodes) smallVmas := by
  refine ⟨Or.inl rfl, Vm.startOrder_total _, fun x hx => ⟨?_, Or.inl (smallNodes_stored x hx).1⟩,
    fun l hl => Vm.vmaCmp_compares (Or.inl rfl)
    (fun x hx => Or.inl (smallNodes_stored x (hl x hx)).2)⟩
  rintro rfl
  exact absurd hx (by decide)

/-- `rb_insert` of a node that is not in the tree. -/
def smallInsert (s : KState) (x : Nat) : Option KState :=
  if Shown s ∧ x ∈ smallNodes ∧ x ∉ (smallTreeOf s).toList then
    (rbInsert 5 kernelImageStart x vmaCmp smallLayout s).toOption.map Prod.snd
  else none

abbrev SmallStep : KState → KState → Prop :=
  Step smallLayout kernelImageStart vmaCmp (· ∈ smallNodes)

theorem smallInsert_step {x : Nat} (h : smallInsert s x = some s') : SmallStep s s' := by
  obtain ⟨⟨hshown, hx, hnew⟩, h⟩ := Option.ite_none_right_eq_some.mp h
  obtain ⟨⟨r, s₁⟩, hrun, rfl⟩ := Option.map_eq_some_iff.mp h
  refine .insert hx (fun t ht => ?_) ⟨5, toOption_ok hrun⟩
  rwa [ht.unique hshown.holds]

theorem smallInserts_reach {xs : List Nat} (h : xs.foldlM smallInsert s = some s') :
    Run.Reaches SmallStep s s' := by
  induction xs generalizing s with
  | nil => exact Option.some.inj h ▸ .refl
  | cons x xs ih =>
    rw [List.foldlM_cons] at h
    obtain ⟨s₁, hx, h⟩ := Option.bind_eq_some_iff.mp h
    exact .head (smallInsert_step hx) (ih h)

/-- The nodes are inserted in the order of their starts, and the first is deleted again. -/
def smallRun : Option (KState × KState) :=
  (smallNodes.foldlM smallInsert smallVmas).bind fun s =>
    (rbDelete 5 kernelImageStart 0x400018 vmaCmp smallLayout s).toOption.map fun r => (s, r.2)

/-- Two rotations bring 0x401018 to the root, and the deletion of the black leaf to its left a third
one. -/
theorem smallRun_result :
    (smallRun.map fun x => (smallTreeOf x.1, smallTreeOf x.2, decide (Shown x.2))) =
      some (.node .black (.node .black .nil 0x400018 .nil) 0x401018
          (.node .black (.node .red .nil 0x402018 .nil) 0x403018 (.node .red .nil 0x404018 .nil)),
        .node .black (.node .black .nil 0x401018 (.node .red .nil 0x402018 .nil)) 0x403018
          (.node .black .nil 0x404018 .nil), true) := by
  decide +kernel

theorem height_of_run_five : ∃ s, Run.Reaches SmallStep smallVmas s ∧
    ∃ t, Holds smallLayout kernelImageStart s.mem t ∧
      t.toList = [0x401018, 0x402018, 0x403018, 0x404018] ∧
      t.height = 3 ∧ t.height ≤ 2 * Nat.log 2 (t.size + 1) := by
  obtain ⟨⟨s₁, s₂⟩, hrun, hres⟩ := Option.map_eq_some_iff.mp smallRun_result
  obtain ⟨s, hinserts, hdelete⟩ := Option.bind_eq_some_iff.mp hrun
  obtain ⟨⟨r, s'⟩, hcall, heq⟩ := Option.map_eq_some_iff.mp hdelete
  obtain ⟨rfl, rfl⟩ := Prod.mk.inj heq
  simp only [Prod.mk.injEq, decide_eq_true_eq] at hres
  obtain ⟨-, htree, hshown⟩ := hres
  have hstep : SmallStep s s' :=
    .delete (show 0x400018 ∈ smallNodes by decide) ⟨5, toOption_ok hcall⟩
  have hreach : Run.Reaches SmallStep smallVmas s' := (smallInserts_reach hinserts).tail hstep
  obtain ⟨-, hall⟩ := height_of_run smallVmas_orders (by decide) rfl hreach
  refine ⟨s', hreach, smallTreeOf s', hshown.holds, ?_, ?_, (hall _ hshown.holds).1⟩
  · rw [htree]
    rfl
  · rw [htree]
    rfl

end Rb
end MikroKernel
