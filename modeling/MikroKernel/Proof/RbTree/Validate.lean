import MikroKernel.Proof.Vm.Search
import MikroKernel.Vm.RbValidate

/-!
# What `rb_validate` decides

The checker follows the definition of a red-black tree but for the order, which it compares at each
node with the two children only. A node can be on the right side of its parent and on the wrong side
of the parent's parent, so the checker accepts trees that cannot be searched, and decides validity
exactly on the others (`validate_decides_iff`).
-/

set_option autoImplicit false

namespace MikroKernel
namespace Validate

open SearchTree Search
open RedBlack (Side)

variable {L : Layout} {off root fuel a : Nat} {m M : Mem} {t l r : BinaryTree Nat}

/-! ## Valid trees -/

/-- Memory as the current view shows it. -/
def seen (L : Layout) (off : Nat) (m : Mem) : Mem := fun v f => m ((L.resolve off v).getD 0) f

def Readable (L : Layout) (off v : Nat) : Prop := (L.resolve off v).isSome = true

/-- A tree by its links to the children. -/
def Linked (M : Mem) : BinaryTree Nat → Prop :=
  Everywhere fun a l r => a ≠ 0 ∧ M a .left = rootOf l ∧ M a .right = rootOf r

/-- `vma_start` of the VMA of a node. -/
def startOf (M : Mem) (x : Nat) : Nat := M (vmaOf x) .vmaStart

def NoRedChild (M : Mem) (a : Nat) (l r : BinaryTree Nat) : Prop :=
  M a .color = rbRed → ∀ c ∈ top l ++ top r, M c .color ≠ rbRed

def ParentLinks (M : Mem) (a : Nat) (l r : BinaryTree Nat) : Prop :=
  ∀ c ∈ top l ++ top r, M c .parent = a

def ChildrenOrdered (M : Mem) (a : Nat) (l r : BinaryTree Nat) : Prop :=
  (∀ c ∈ top l, startOf M c < startOf M a) ∧ ∀ c ∈ top r, startOf M a < startOf M c

/-- How many black nodes there are on each way from the root to a `NULL`, with `n` above the
root. -/
def blackCounts (M : Mem) : Nat → BinaryTree Nat → List Nat
  | n, .nil => [n]
  | n, .node a l r =>
      let n' := if M a .color = rbBlack then n + 1 else n
      blackCounts M n' l ++ blackCounts M n' r

/-- All that a red-black tree is but the order. -/
structure RedBlackShaped (M : Mem) (t : BinaryTree Nat) : Prop where
  root_black : ∀ a ∈ top t, M a .color = rbBlack
  root_parent : ∀ a ∈ top t, M a .parent = 0
  no_red_child : Everywhere (NoRedChild M) t
  parent_links : Everywhere (ParentLinks M) t
  black_counts : ∃ n, ∀ x ∈ blackCounts M 0 t, x = n

/-- The starts increase along the whole traversal. -/
def Sorted (M : Mem) (t : BinaryTree Nat) : Prop :=
  (inorder t).Pairwise fun x y => startOf M x < startOf M y

/-! ## The checks of a node -/

theorem load_seen {v x : Nat} {f : Field} (hv : Readable L off v) (hx : seen L off m v f = x) :
    Edits L off (load v f) m x m := by
  obtain ⟨c, hc⟩ := Option.isSome_iff_exists.mp hv
  rintro s rfl rfl
  subst hx
  unfold load seen
  rw [hc]
  rfl

/-- Some of the checks fails. -/
theorem anyOf_edits {checks : List (K Bool)} {fails : List Bool}
    (h : List.Forall₂ (fun check fail => Edits L off check m fail m) checks fails) :
    Edits L off (anyOf checks) m (fails.any id) m := by
  induction h with
  | nil => exact Edits.pure false
  | @cons check fail checks fails hfail _ ih =>
    refine Edits.bind hfail ?_
    cases fail with
    | true => exact Edits.pure true
    | false => exact ih

/-- A check of a child is one of the root of the subtree, if that has one. -/
theorem childIs_edits {d : Side} {u : BinaryTree Nat} {bad : Nat → K Bool} {p : Nat → Bool}
    (ha : Readable L off a) (hu : seen L off m a d.field = rootOf u) (h0 : Linked (seen L off m) u)
    (hbad : ∀ c ∈ top u, Edits L off (bad c) m (p c) m) :
    Edits L off (rbChildIs a d bad) m ((top u).any p) m := by
  refine Edits.bind (load_seen ha hu) ?_
  cases u with
  | nil => exact Edits.ite_neg (not_not.mpr rfl) (Edits.pure false)
  | node c l r =>
    refine Edits.ite_pos h0.1.1 (Edits.bind (load_seen ha hu) ?_)
    show Edits L off (bad c) m ([c].any p) m
    rw [List.any_cons, List.any_nil, Bool.or_false]
    exact hbad c List.mem_cons_self

variable (hread : ∀ x ∈ inorder (.node a l r), Readable L off x ∧ Readable L off (vmaOf x))
  (hlink : Linked (seen L off m) (.node a l r))

include hread hlink

/-- **The checks of a node** pass if and only if the colours, the links and the order of its
children are right. -/
theorem violation_edits : ∃ b, Edits L off (rbViolation a) m b m ∧
    (b = false ↔ NoRedChild (seen L off m) a l r ∧ ParentLinks (seen L off m) a l r ∧
      ChildrenOrdered (seen L off m) a l r) := by
  obtain ⟨⟨-, hleft, hright⟩, hl, hr⟩ := hlink
  have ha : a ∈ inorder (.node a l r) := List.mem_append_right _ List.mem_cons_self
  have hl' : ∀ c ∈ top l, Readable L off c ∧ Readable L off (vmaOf c) := fun c hc =>
    hread c (List.mem_append_left _ (top_subset l c hc))
  have hr' : ∀ c ∈ top r, Readable L off c ∧ Readable L off (vmaOf c) := fun c hc =>
    hread c (List.mem_append_right _ (List.mem_cons_of_mem _ (top_subset r c hc)))
  have hred : ∀ c, Readable L off c → Edits L off (do pure (decide ((← load c .color) = rbRed))) m
      (decide (seen L off m c .color = rbRed)) m := fun c hc => Edits.bind (load_seen hc rfl)
        (Edits.pure _)
  have hparent : ∀ c, Readable L off c → Edits L off (do pure (decide ((← load c .parent) ≠ a))) m
      (decide (seen L off m c .parent ≠ a)) m := fun c hc => Edits.bind (load_seen hc rfl)
        (Edits.pure _)
  have horder : ∀ (rel : Nat → Nat → Bool) (c : Nat), Readable L off (vmaOf c) →
      Edits L off (do pure (rel (← load (vmaOf c) .vmaStart) (← load (vmaOf a) .vmaStart))) m
        (rel (startOf (seen L off m) c) (startOf (seen L off m) a)) m := fun rel c hc =>
    Edits.bind (load_seen hc rfl) (Edits.bind (load_seen (hread a ha).2 rfl) (Edits.pure _))
  have hfirst : Edits L off (rbRedViolation a) m (decide (seen L off m a .color = rbRed) &&
      ((top l).any (fun c => decide (seen L off m c .color = rbRed)) ||
        (top r).any (fun c => decide (seen L off m c .color = rbRed)))) m := by
    refine Edits.bind (load_seen (hread a ha).1 rfl) ?_
    by_cases hc : seen L off m a .color = rbRed
    · rw [decide_eq_true hc, Bool.true_and]
      refine Edits.ite_pos hc ?_
      have h := anyOf_edits
        (.cons (childIs_edits (d := .left) (hread a ha).1 hleft hl
          (fun c hc => hred c (hl' c hc).1))
        (.cons (childIs_edits (d := .right) (hread a ha).1 hright hr
          (fun c hc => hred c (hr' c hc).1)) .nil))
      simpa using h
    · rw [decide_eq_false hc, Bool.false_and]
      exact Edits.ite_neg hc (Edits.pure false)
  refine ⟨_, anyOf_edits (.cons hfirst
    (.cons (childIs_edits (d := .left) (hread a ha).1 hleft hl (fun c hc => hparent c (hl' c hc).1))
    (.cons (childIs_edits (d := .right) (hread a ha).1 hright hr
      (fun c hc => hparent c (hr' c hc).1))
    (.cons (childIs_edits (d := .left) (hread a ha).1 hleft hl
      (fun c hc => horder (fun x y => decide (x ≥ y)) c (hl' c hc).2))
    (.cons (childIs_edits (d := .right) (hread a ha).1 hright hr
      (fun c hc => horder (fun x y => decide (x ≤ y)) c (hr' c hc).2)) .nil))))), ?_⟩
  unfold NoRedChild ParentLinks ChildrenOrdered
  simp only [List.any_cons, List.any_nil, id, Bool.or_false, Bool.or_eq_false_iff,
    Bool.and_eq_false_iff, decide_eq_false_iff_not, List.any_eq_false, decide_eq_true_eq, not_not,
    ge_iff_le, Nat.not_le, List.mem_append, or_imp, forall_and, ne_eq]
  tauto

omit hread hlink

/-! ## The cell of the path count -/

/-- What the cell holds after the counts of some paths, `none` if one of them is another than the
cell has. -/
def settle : Int → List Nat → Option Int
  | path, [] => some path
  | path, n :: counts =>
    if path = -1 then settle n counts else if n = path then settle path counts else none

theorem settle_append (path : Int) (l₁ l₂ : List Nat) :
    settle path (l₁ ++ l₂) = (settle path l₁).bind fun path => settle path l₂ := by
  induction l₁ generalizing path with
  | nil => rfl
  | cons n l₁ ih =>
    simp only [List.cons_append, settle]
    split
    · exact ih n
    · split
      · exact ih path
      · rfl

/-- Once the cell is set, every count has to be the same. -/
theorem settle_set {n : Nat} {counts : List Nat} {path : Int} :
    settle n counts = some path ↔ path = n ∧ ∀ x ∈ counts, x = n := by
  induction counts with
  | nil => simp [settle, eq_comm]
  | cons x counts ih =>
    unfold settle
    rw [if_neg (by omega)]
    by_cases hx : x = n
    · rw [if_pos (by rw [hx]), ih, List.forall_mem_cons]
      tauto
    · rw [if_neg (by omega), List.forall_mem_cons]
      simp [hx]

/-- From the first count on, `-1` being none, all are the same. -/
theorem settle_iff {counts : List Nat} :
    (∃ path, settle (-1) counts = some path) ↔ ∃ n, ∀ x ∈ counts, x = n := by
  cases counts with
  | nil => simp [settle]
  | cons n counts =>
    unfold settle
    simp only [if_true, settle_set, List.forall_mem_cons]
    constructor
    · rintro ⟨-, -, hall⟩
      exact ⟨n, rfl, hall⟩
    · rintro ⟨_, rfl, hall⟩
      exact ⟨n, rfl, hall⟩

/-! ## The checker -/

/-- What is checked at each node. -/
def Checked (M : Mem) : BinaryTree Nat → Prop :=
  Everywhere fun a l r => NoRedChild M a l r ∧ ParentLinks M a l r ∧ ChildrenOrdered M a l r

/-- One more black node, or the same number. -/
theorem int32_count {n : Nat} (color : Nat) (hn : n + 1 < 2 ^ 31) :
    (if color = rbBlack then int32 ((n : Int) + 1) else n)
        = ((if color = rbBlack then n + 1 else n : Nat) : Int) := by
  split
  · unfold int32
    rw [Int.bmod_def]
    split <;> omega
  · rfl

/-- **The recursion** checks every node and settles the counts of all paths, in order. -/
theorem helper_edits (count : Nat) (path : Int)
    (hread : ∀ x ∈ inorder t, Readable L off x ∧ Readable L off (vmaOf x))
    (hlink : Linked (seen L off m) t) (hfuel : t.height ≤ fuel)
    (hcount : count + t.height < 2 ^ 31) :
    ∃ r, Edits L off (rbValidateHelper fuel (rootOf t) count path) m r m ∧
      ∀ p, r = (true, p) ↔ Checked (seen L off m) t ∧
      settle path (blackCounts (seen L off m) count t) = some p := by
  induction t generalizing fuel count path with
  | nil =>
    refine ⟨if path = -1 then (true, (count : Int)) else (decide ((count : Int) = path), path), ?_,
      fun p => ?_⟩
    · cases fuel with
      | zero => exact Edits.ite_pos rfl (Edits.pure _)
      | succ fuel => exact Edits.ite_pos rfl (Edits.pure _)
    · simp only [blackCounts, settle, Checked, Everywhere, true_and]
      split
      · simp
      · split <;> simp_all
  | node a l r ihl ihr =>
    cases fuel with
    | zero => exact absurd hfuel (Nat.not_succ_le_zero _)
    | succ fuel =>
      simp only [BinaryTree.height] at hfuel hcount
      obtain ⟨b, hviolation, hb⟩ := violation_edits hread hlink
      have ha : Readable L off a := (hread a (List.mem_append_right _ List.mem_cons_self)).1
      obtain ⟨⟨h0, hleft, hright⟩, hl, hr⟩ := hlink
      show ∃ res, Edits L off (rbValidateHelper (fuel + 1) a count path) m res m ∧ _
      unfold rbValidateHelper
      cases b with
      | true =>
        refine ⟨(false, path), Edits.ite_neg h0 (Edits.bind hviolation (Edits.pure _)), fun p => ?_⟩
        refine iff_of_false (by simp) (fun h => ?_)
        exact absurd (hb.mpr h.1.1) (by decide)
      | false =>
        have hnode := hb.mp rfl
        obtain ⟨r₁, hrun₁, hres₁⟩ :=
          ihl (if seen L off m a .color = rbBlack then count + 1 else count)
          path (fun x hx => hread x (List.mem_append_left _ hx)) hl
          (show l.height ≤ fuel by omega) (by split <;> omega)
        obtain ⟨ok, path₁⟩ := r₁
        have hgo : ∀ {res}, Edits L off (if ok then rbValidateHelper fuel (rootOf r)
              (if seen L off m a .color = rbBlack then count + 1 else count : Nat) path₁
            else Pure.pure (ok, path₁)) m res m →
            Edits L off (if a = 0 then Pure.pure (if path = -1 then (true, (count : Int))
              else (decide ((count : Int) = path), path)) else do
                if ← rbViolation a then Pure.pure (false, path)
                else do
                  let blackCount := if (← load a .color) = rbBlack then int32 ((count : Int) + 1)
                    else count
                  let left ← rbValidateHelper fuel (← load a .left) blackCount path
                  if left.1 then rbValidateHelper fuel (← load a .right) blackCount left.2
                  else Pure.pure left) m res m := by
          intro res hres
          refine Edits.ite_neg h0 (Edits.bind hviolation (Edits.bind (load_seen ha rfl) ?_))
          rw [int32_count _ (by omega)]
          refine Edits.bind (load_seen ha hleft) (Edits.bind hrun₁ ?_)
          cases ok with
          | true => exact Edits.bind (load_seen ha hright) hres
          | false => exact hres
        have hchecked : Checked (seen L off m) (.node a l r) ↔
            Checked (seen L off m) l ∧ Checked (seen L off m) r := ⟨fun h => h.2,
              fun h => ⟨hnode, h⟩⟩
        simp only [hchecked, blackCounts, settle_append]
        cases ok with
        | false =>
          refine ⟨(false, path₁), hgo (Edits.pure _), fun p => iff_of_false (by simp) ?_⟩
          rintro ⟨⟨hcl, -⟩, hset⟩
          obtain ⟨p₁, hp₁, -⟩ := Option.bind_eq_some_iff.mp hset
          exact absurd ((hres₁ p₁).mpr ⟨hcl, hp₁⟩) (by simp)
        | true =>
          obtain ⟨hcl, hset₁⟩ := (hres₁ path₁).mp rfl
          obtain ⟨r₂, hrun₂, hres₂⟩ := ihr
            (if seen L off m a .color = rbBlack then count + 1 else count) path₁
            (fun x hx => hread x (List.mem_append_right _ (List.mem_cons_of_mem _ hx))) hr
            (show r.height ≤ fuel by omega) (by split <;> omega)
          refine ⟨r₂, hgo hrun₂, fun p => ?_⟩
          rw [hres₂, hset₁]
          exact ⟨fun h => ⟨⟨hcl, h.1⟩, h.2⟩, fun h => ⟨h.1.2, h.2⟩⟩

/-- **What `rb_validate` computes.** -/
theorem validate_edits (hroot : Readable L off root) (hptr : seen L off m root .ptr = rootOf t)
    (hread : ∀ x ∈ inorder t, Readable L off x ∧ Readable L off (vmaOf x))
    (hlink : Linked (seen L off m) t) (hfuel : t.height ≤ fuel) (hheight : t.height < 2 ^ 31) :
    ∃ b, Edits L off (rbValidate fuel root) m b m ∧
      (b = true ↔ RedBlackShaped (seen L off m) t ∧
        Everywhere (ChildrenOrdered (seen L off m)) t) := by
  have hload := load_seen hroot hptr
  cases t with
  | nil =>
    refine ⟨true, Edits.bind hload (Edits.pure true), iff_of_true rfl ⟨?_, trivial⟩⟩
    exact ⟨by simp [top], by simp [top], trivial, trivial, ⟨0, by simp [blackCounts]⟩⟩
  | node a l r =>
    have ha : Readable L off a := (hread a (List.mem_append_right _ List.mem_cons_self)).1
    have h0 : a ≠ 0 := hlink.1.1
    obtain ⟨res, hrun, hres⟩ := helper_edits 0 (-1) hread hlink hfuel (by omega)
    unfold rbValidate
    by_cases hblack : seen L off m a .color = rbBlack
    · by_cases hparent : seen L off m a .parent = 0
      · refine ⟨res.1, ?_, ?_⟩
        · refine Edits.bind hload
            (Edits.ite_neg h0 (Edits.bind hload (Edits.bind (load_seen ha hblack) ?_)))
          refine Edits.ite_neg (not_not.mpr rfl)
            (Edits.bind hload (Edits.bind (load_seen ha hparent) ?_))
          exact Edits.ite_neg (not_not.mpr rfl) (Edits.bind hload (Edits.bind hrun (Edits.pure _)))
        · have hok : res.1 = true ↔ ∃ p, res = (true, p) := by
            obtain ⟨ok, p⟩ := res
            simp
          rw [hok]
          simp only [hres, exists_and_left, settle_iff]
          unfold Checked
          rw [Everywhere.and, Everywhere.and]
          constructor
          · rintro ⟨⟨h1, h2, h3⟩, h4⟩
            exact ⟨⟨by simpa [top] using hblack, by simpa [top] using hparent, h1, h2, h4⟩, h3⟩
          · rintro ⟨⟨-, -, h1, h2, h4⟩, h3⟩
            exact ⟨⟨h1, h2, h3⟩, h4⟩
      · refine ⟨false, ?_,
          iff_of_false (by simp) (fun h => hparent (h.1.root_parent a (by simp [top])))⟩
        refine Edits.bind hload
          (Edits.ite_neg h0 (Edits.bind hload (Edits.bind (load_seen ha hblack) ?_)))
        refine Edits.ite_neg (not_not.mpr rfl) (Edits.bind hload (Edits.bind (load_seen ha rfl) ?_))
        exact Edits.ite_pos hparent (Edits.pure _)
    · refine ⟨false, ?_,
        iff_of_false (by simp) (fun h => hblack (h.1.root_black a (by simp [top])))⟩
      refine Edits.bind hload
        (Edits.ite_neg h0 (Edits.bind hload (Edits.bind (load_seen ha rfl) ?_)))
      exact Edits.ite_pos hblack (Edits.pure _)

/-- **`rb_validate` decides validity if and only if** the tree is not one that passes all its checks
and is out of order further down. Fewer than `2 ^ 31` levels do not overflow an `int`. -/
theorem validate_decides_iff (hroot : Readable L off root)
    (hptr : seen L off m root .ptr = rootOf t) (hread : ∀ x ∈ inorder t, Readable L off x ∧
      Readable L off (vmaOf x)) (hlink : Linked (seen L off m) t)
    (hfuel : t.height ≤ fuel) (hheight : t.height < 2 ^ 31) :
    ∃ b, Edits L off (rbValidate fuel root) m b m ∧
      ((b = true ↔ RedBlackShaped (seen L off m) t ∧ Sorted (seen L off m) t) ↔
        ¬ (RedBlackShaped (seen L off m) t ∧ Everywhere (ChildrenOrdered (seen L off m)) t ∧
          ¬ Sorted (seen L off m) t)) := by
  obtain ⟨b, hrun, hb⟩ := validate_edits hroot hptr hread hlink hfuel hheight
  refine ⟨b, hrun, ?_⟩
  have hlocal : Sorted (seen L off m) t → Everywhere (ChildrenOrdered (seen L off m)) t :=
    everywhere_of_pairwise
  rw [hb]
  tauto

/-! ### A grandchild out of order -/

/-- Four VMAs: the root, its children, and a red right child of the left one. -/
def fourTree : BinaryTree Nat :=
  .node 0x400018 (.node 0x401018 .nil (.node 0x403018 .nil .nil)) (.node 0x402018 .nil .nil)

/-- A node of a tree on the small machine. -/
def nodeMem (m : Mem) (a left right parent color start : Nat) : Mem :=
  (((((m.set a .left left).set a .right right).set a .parent parent).set a .color color).set
    (vmaOf a) .vmaStart start)

/-- They start at 100, 50 and 200, the red one at `start`. -/
def fourMem (start : Nat) : Mem :=
  nodeMem (nodeMem (nodeMem (nodeMem (bootState.mem.set kernelImageStart .ptr 0x400018)
    0x400018 0x401018 0x402018 0 rbBlack 100) 0x401018 0 0x403018 0x400018 rbBlack 50)
    0x402018 0 0 0x400018 rbBlack 200) 0x403018 0 0 0x401018 rbRed start

theorem fourTree_linked (start : Nat) : Linked (seen smallLayout 0 (fourMem start)) fourTree :=
  ⟨⟨by decide, rfl, rfl⟩, ⟨⟨by decide, rfl, rfl⟩, trivial, ⟨by decide, rfl, rfl⟩, trivial, trivial⟩,
    ⟨by decide, rfl, rfl⟩, trivial, trivial⟩

/-- In order, with a start of 75. -/
theorem validate_decides_iff_four :
    ∃ b, Edits smallLayout 0 (rbValidate 3 kernelImageStart) (fourMem 75) b (fourMem 75) ∧
    (b = true ↔ RedBlackShaped (seen smallLayout 0 (fourMem 75)) fourTree ∧
      Sorted (seen smallLayout 0 (fourMem 75)) fourTree) := by
  obtain ⟨b, hrun, hiff⟩ :=
    validate_decides_iff (show Readable smallLayout 0 kernelImageStart by unfold Readable; decide)
    (show seen smallLayout 0 (fourMem 75) kernelImageStart .ptr = rootOf fourTree by decide)
    (by unfold Readable; decide) (fourTree_linked 75) (show fourTree.height ≤ 3 by decide)
      (by decide)
  refine ⟨b, hrun, hiff.mpr (fun h => h.2.2 ?_)⟩
  unfold Sorted
  decide

/-- **With a start of 150** the red node is after its parent and after the root as well, in whose
left subtree it is. The checker accepts the tree. -/
theorem out_of_order_accepted : Linked (seen smallLayout 0 (fourMem 150)) fourTree ∧
    ((rbValidate 3 kernelImageStart smallLayout { bootState with mem := fourMem 150 }).toOption.map
      Prod.fst
      = some true) ∧ ¬ Sorted (seen smallLayout 0 (fourMem 150)) fourTree := by
  refine ⟨fourTree_linked 150, by decide +kernel, ?_⟩
  unfold Sorted
  decide

end Validate
end MikroKernel
