import MikroKernel.Lib.SearchTree
import MikroKernel.Machine.Effect
import MikroKernel.Vm.Vac

/-!
# Searching the trees of areas

The searches read `left` and `right` and the bounds of the areas, and nothing else, so nothing is
asked of colours, parents or balance: `Holds` is a tree of any shape. The loop of the four neighbour
searches finds the first area beyond the address, from its side (`nearest_edits`); ordered by start,
that is the nearest one. The search for the area of an address needs them apart as well
(`findArea_edits`).
-/

set_option autoImplicit false

namespace MikroKernel
namespace Search

open SearchTree
open RedBlack (Side)

/-! ## The two kinds of areas -/

/-- The structs whose trees are searched. -/
inductive Kind
  | vma | vac
deriving DecidableEq, Repr

namespace Kind

def areaOf : Kind → Nat → Nat
  | .vma => vmaOf
  | .vac => vacOf

/-- The start of the area of node `x`. -/
def start (k : Kind) (m : Mem) (x : Nat) : Nat :=
  match k with
  | .vma => m (vmaOf x) .vmaStart
  | .vac => m (vacOf x) .vacAddr

/-- The end of it. -/
def stop (k : Kind) (m : Mem) (x : Nat) : Nat :=
  match k with
  | .vma => m (vmaOf x) .vmaEnd
  | .vac => m (vacOf x) .vacEnd

def successor : Kind → Nat → Nat → Nat → K Nat
  | .vma => rbSuccessor
  | .vac => rbSuccessorVac

def predeccessor : Kind → Nat → Nat → Nat → K Nat
  | .vma => rbPredeccessor
  | .vac => rbPredeccessorVac

def find : Kind → Nat → Nat → Nat → K Nat
  | .vma => rbFindVma
  | .vac => rbFindVac

end Kind

variable {L : Layout} {off root fuel : Nat} {m : Mem} {t l r : BinaryTree Nat} {areaOf : Nat → Nat}
  {start stop : Field} {beyond : Nat → Bool} {a x : Nat}

/-! ## Trees in memory -/

/-- The address of the root, `NULL` for the empty tree. -/
def rootOf : BinaryTree Nat → Nat
  | .nil => 0
  | .node a _ _ => a

/-- Memory holds the tree by its links to the children, and the nodes and their areas can be
read. -/
def Holds (L : Layout) (areaOf : Nat → Nat) (m : Mem) : BinaryTree Nat → Prop
  | .nil => True
  | .node a l r =>
      (a ≠ 0 ∧ L.Stored a ∧ L.Stored (areaOf a)) ∧ (m a .left = rootOf l ∧ m a .right = rootOf r) ∧
        Holds L areaOf m l ∧ Holds L areaOf m r

theorem Holds.child (h : Holds L areaOf m (.node a l r)) (d : Side) :
    m a d.field = rootOf (SearchTree.child d l r) ∧ Holds L areaOf m (SearchTree.child d l r) := by
  obtain ⟨-, ⟨hleft, hright⟩, hl, hr⟩ := h
  cases d with
  | left => exact ⟨hleft, hl⟩
  | right => exact ⟨hright, hr⟩

theorem Holds.ne_zero (h : Holds L areaOf m t) : ∀ x ∈ inorder t, x ≠ 0 := by
  induction t with
  | nil => exact fun x hx => absurd hx List.not_mem_nil
  | node a l r ihl ihr =>
    obtain ⟨⟨h0, -⟩, -, hl, hr⟩ := h
    intro x hx
    rcases List.mem_append.mp hx with hx | hx
    · exact ihl hl x hx
    · rcases List.mem_cons.mp hx with rfl | hx
      · exact h0
      · exact ihr hr x hx

/-! ## Neighbours -/

/-- **The loop of the neighbour searches** ends with the first node that is beyond, from side `d`,
or with the candidate it came with. -/
theorem nearestLoop_edits (d : Side) (hv : View off) (h : Holds L areaOf m t) (best : Option Nat)
    (hmono : (along d t).Pairwise fun x y =>
      beyond (m (areaOf x) start) = true → beyond (m (areaOf y) start) = true)
    (hfuel : t.height ≤ fuel) :
    Edits L off (rbNearestLoop d areaOf start beyond fuel (rootOf t) (best.getD 0)) m
      ((((along d t).find? fun x => beyond (m (areaOf x) start)).or best).getD 0) m := by
  induction fuel generalizing t best with
  | zero =>
    cases t with
    | nil =>
      rw [along_nil]
      exact Edits.ite_pos rfl (Edits.pure _)
    | node a l r => exact absurd hfuel (Nat.not_succ_le_zero _)
  | succ fuel ih =>
    cases t with
    | nil =>
      rw [along_nil]
      exact Edits.ite_pos rfl (Edits.pure _)
    | node a l r =>
      obtain ⟨h0, hnode, harea⟩ := h.1
      have hnear := h.child d
      have hfar := h.child d.flip
      have hlow : ∀ d', (child d' l r).height ≤ fuel := fun d' => by
        have := height_child_lt d' a l r
        omega
      rw [along_node] at hmono ⊢
      rw [find?_node hmono]
      obtain ⟨hbefore, hbehind, -⟩ := List.pairwise_append.mp hmono
      unfold rbNearestLoop
      refine Edits.ite_neg h0 (Edits.bind (Edits.p2vLoad hv harea rfl) ?_)
      by_cases hb : beyond (m (areaOf a) start) = true
      · rw [if_pos hb]
        refine Edits.ite_pos hb (Edits.bind (Edits.p2vLoad hv hnode hnear.1) ?_)
        exact ih hnear.2 (some a) hbefore (hlow d)
      · rw [if_neg hb]
        refine Edits.ite_neg hb (Edits.bind (Edits.p2vLoad hv hnode hfar.1) ?_)
        exact ih hfar.2 best (List.pairwise_cons.mp hbehind).2 (hlow d.flip)

/-- The result is the area of that node, and `NULL` if there is none. -/
theorem nearest_edits (d : Side) (hv : View off) (himage : L.image root = true)
    (hroot : m root .ptr = rootOf t) (h : Holds L areaOf m t)
    (hmono : (along d t).Pairwise fun x y =>
      beyond (m (areaOf x) start) = true → beyond (m (areaOf y) start) = true)
    (hfuel : t.height ≤ fuel) :
    Edits L off (rbNearest d areaOf start beyond fuel root) m
      ((((along d t).find? fun x => beyond (m (areaOf x) start)).map areaOf).getD 0) m := by
  have hloop := nearestLoop_edits d hv h none hmono hfuel
  rw [Option.or_none] at hloop
  refine Edits.bind (Edits.load himage hroot) (Edits.bind hloop ?_)
  cases hfind : (along d t).find? fun x => beyond (m (areaOf x) start) with
  | none => exact Edits.pure 0
  | some x =>
    have hx : x ≠ 0 := h.ne_zero x (mem_along.mp (List.mem_of_find?_eq_some hfind))
    show Edits L off (Pure.pure (if x ≠ 0 then areaOf x else 0)) m (areaOf x) m
    rw [if_pos hx]
    exact Edits.pure _

/-! ## The area of an address -/

/-- **The loop of the searches for an address** walks to the side where the address is. -/
theorem findAreaLoop_edits (start stop : Field) (addr : Nat) (hv : View off)
    (h : Holds L areaOf m t) (hfuel : t.height ≤ fuel) :
    Edits L off (rbFindAreaLoop areaOf start stop addr fuel (rootOf t)) m
      (((within (fun x => m (areaOf x) start) (fun x => m (areaOf x) stop) addr t).map areaOf).getD
          0) m := by
  induction t generalizing fuel with
  | nil =>
    cases fuel with
    | zero => exact Edits.ite_pos rfl (Edits.pure 0)
    | succ fuel => exact Edits.ite_pos rfl (Edits.pure 0)
  | node a l r ihl ihr =>
    obtain ⟨⟨h0, hnode, harea⟩, ⟨hleft, hright⟩, hl, hr⟩ := h
    cases fuel with
    | zero => exact absurd hfuel (Nat.not_succ_le_zero _)
    | succ fuel =>
      simp only [BinaryTree.height] at hfuel
      unfold within rbFindAreaLoop
      refine Edits.ite_neg h0 (Edits.bind (Edits.p2vLoad hv harea rfl) ?_)
      by_cases hstart : addr < m (areaOf a) start
      · rw [if_pos hstart]
        exact Edits.ite_pos hstart ((Edits.p2vLoad hv hnode hleft).bind (ihl hl (by omega)))
      · rw [if_neg hstart]
        refine Edits.ite_neg hstart (Edits.bind (Edits.p2vLoad hv harea rfl) ?_)
        by_cases hstop : addr ≥ m (areaOf a) stop
        · rw [if_pos hstop]
          exact Edits.ite_pos hstop ((Edits.p2vLoad hv hnode hright).bind (ihr hr (by omega)))
        · rw [if_neg hstop]
          exact Edits.ite_neg hstop (Edits.pure _)

/-! ## Answers -/

/-- `r` is the area of the one of the nodes that `good` holds of, and `NULL` if and only if there is
none. -/
def Answer (k : Kind) (nodes : List Nat) (good : Nat → Prop) (r : Nat) : Prop :=
  (r = 0 ∧ ∀ x ∈ nodes, ¬ good x) ∨ (r ≠ 0 ∧ ∃ x ∈ nodes, r = k.areaOf x ∧ good x)

/-- The node with the least start greater than the address. -/
def IsNext (k : Kind) (m : Mem) (nodes : List Nat) (addr x : Nat) : Prop :=
  addr < k.start m x ∧ ∀ y ∈ nodes, addr < k.start m y → k.start m x ≤ k.start m y

/-- The node with the greatest start less than the address. -/
def IsPrev (k : Kind) (m : Mem) (nodes : List Nat) (addr x : Nat) : Prop :=
  k.start m x < addr ∧ ∀ y ∈ nodes, k.start m y < addr → k.start m y ≤ k.start m x

/-- The range of the node contains the address. -/
def Contains (k : Kind) (m : Mem) (addr x : Nat) : Prop := k.start m x ≤ addr ∧ addr < k.stop m x

/-- The ranges are not empty, and no address is in two of them. -/
def Disjoint (k : Kind) (m : Mem) (nodes : List Nat) : Prop :=
  (∀ x ∈ nodes, k.start m x < k.stop m x) ∧
    nodes.Pairwise fun x y => ∀ addr, ¬ (Contains k m addr x ∧ Contains k m addr y)

/-- In order, disjoint ranges end before the next one starts. -/
theorem Disjoint.apart {k : Kind} {nodes : List Nat} (h : Disjoint k m nodes)
    (hsorted : nodes.Pairwise fun x y => k.start m x < k.start m y) :
    nodes.Pairwise fun x y => k.stop m x ≤ k.start m y := by
  refine (hsorted.and h.2).imp_of_mem (fun {x y} hx hy hxy => ?_)
  by_contra hlt
  have hne := h.1 y hy
  exact hxy.2 (k.start m y) ⟨⟨Nat.le_of_lt hxy.1, by omega⟩, Nat.le_refl _, hne⟩

/-- The answer of a search for the first node beyond. -/
theorem answer_find {k : Kind} {nodes : List Nat} {p : Nat → Bool} {good : Nat → Prop}
    (harea : ∀ x ∈ nodes, k.areaOf x ≠ 0) (hgood : ∀ x ∈ nodes, good x → p x = true)
    (hfind : ∀ x, nodes.find? p = some x → good x) :
    Answer k nodes good (((nodes.find? p).map k.areaOf).getD 0) := by
  cases hx : nodes.find? p with
  | none =>
    refine Or.inl ⟨rfl, fun x hmem hg => ?_⟩
    exact absurd (hgood x hmem hg) (List.find?_eq_none.mp hx x hmem)
  | some x =>
    have hmem := List.mem_of_find?_eq_some hx
    exact Or.inr ⟨harea x hmem, x, hmem, rfl, hfind x hx⟩

section Exact

variable {k : Kind} (hv : View off) (himage : L.image root = true) (hroot : m root .ptr = rootOf t)
  (h : Holds L k.areaOf m t) (harea : ∀ x ∈ inorder t, k.areaOf x ≠ 0)
  (hsorted : (inorder t).Pairwise fun x y => k.start m x < k.start m y) (hfuel : t.height ≤ fuel)
  (addr : Nat)

include hv himage hroot h harea hsorted hfuel

theorem successor_exact : ∃ r, Edits L off (k.successor fuel root addr) m r m ∧
    Answer k (inorder t) (IsNext k m (inorder t) addr) r := by
  have hp : ∀ x, decide (addr < k.start m x) = true ↔ addr < k.start m x :=
    fun x => decide_eq_true_iff
  refine ⟨(((inorder t).find? fun x => decide (addr < k.start m x)).map k.areaOf).getD 0, ?_, ?_⟩
  · cases k with
    | vma => exact nearest_edits .left hv himage hroot h (pairwise_beyond hsorted hp) hfuel
    | vac => exact nearest_edits .left hv himage hroot h (pairwise_beyond hsorted hp) hfuel
  · refine answer_find harea (fun x _ hg => (hp x).mpr hg.1) (fun x hx => ?_)
    exact (find?_least hsorted hp hx).2

theorem predeccessor_exact : ∃ r, Edits L off (k.predeccessor fuel root addr) m r m ∧
    Answer k (inorder t) (IsPrev k m (inorder t) addr) r := by
  -- from the other side the starts decrease
  have hp : ∀ x, decide (addr > k.start m x) = true ↔
      OrderDual.toDual addr < OrderDual.toDual (k.start m x) := fun x => decide_eq_true_iff
  have hback : (along .right t).Pairwise fun x y =>
      OrderDual.toDual (k.start m x) < OrderDual.toDual (k.start m y) :=
        List.pairwise_reverse.mpr hsorted
  refine ⟨(((along .right t).find? fun x => decide (addr > k.start m x)).map k.areaOf).getD 0, ?_,
    ?_⟩
  · cases k with
    | vma => exact nearest_edits .right hv himage hroot h (pairwise_beyond hback hp) hfuel
    | vac => exact nearest_edits .right hv himage hroot h (pairwise_beyond hback hp) hfuel
  · have hanswer : Answer k (along .right t) (IsPrev k m (inorder t) addr)
        ((((along .right t).find? fun x => decide (addr > k.start m x)).map k.areaOf).getD 0) := by
      refine answer_find (fun x hx => harea x (mem_along.mp hx)) (fun x _ hg => (hp x).mpr hg.1)
        (fun x hx => ?_)
      obtain ⟨-, hlt, hmax⟩ := find?_least hback hp hx
      exact ⟨hlt, fun y hy => hmax y (mem_along.mpr hy)⟩
    simpa only [Answer, mem_along] using hanswer

theorem find_exact (hdis : Disjoint k m (inorder t)) :
    ∃ r, Edits L off (k.find fuel root addr) m r m ∧
    Answer k (inorder t) (Contains k m addr) r := by
  refine ⟨((within (k.start m) (k.stop m) addr t).map k.areaOf).getD 0, ?_, ?_⟩
  · have hloop := fun start stop => findAreaLoop_edits start stop addr hv h hfuel
    cases k with
    | vma =>
      refine Edits.bind (Edits.load himage hroot) ?_
      rw [rbFindVmaLoop_eq]
      exact hloop .vmaStart .vmaEnd
    | vac => exact Edits.bind (Edits.load himage hroot) (hloop .vacAddr .vacEnd)
  · cases hfind : within (k.start m) (k.stop m) addr t with
    | none => exact Or.inl ⟨rfl, within_none hsorted (hdis.apart hsorted) hfind⟩
    | some x =>
      obtain ⟨hx, hin⟩ := within_some hfind
      exact Or.inr ⟨harea x hx, x, hx, rfl, hin⟩

/-- **The searches are exact**, on a tree of any shape that is ordered by start. They make at most
as many rounds as the tree is high. -/
theorem searches_exact :
    (∃ r, Edits L off (k.successor fuel root addr) m r m ∧
      Answer k (inorder t) (IsNext k m (inorder t) addr) r) ∧
    (∃ r, Edits L off (k.predeccessor fuel root addr) m r m ∧
      Answer k (inorder t) (IsPrev k m (inorder t) addr) r) ∧
    (Disjoint k m (inorder t) → ∃ r, Edits L off (k.find fuel root addr) m r m ∧
      Answer k (inorder t) (Contains k m addr) r) :=
  ⟨successor_exact hv himage hroot h harea hsorted hfuel addr,
    predeccessor_exact hv himage hroot h harea hsorted hfuel addr,
    find_exact hv himage hroot h harea hsorted hfuel addr⟩

end Exact

/-- Two VMAs, the second to the right of the first, and between them a page that is in neither. -/
def pairTree : BinaryTree Nat := .node 0x400018 .nil (.node 0x401018 .nil .nil)

def pairMem : Mem :=
  ((((((bootState.mem.set kernelImageStart .ptr 0x400018).set 0x400018 .right 0x401018).set
    0x400000 .vmaStart
    0x1000).set 0x400000 .vmaEnd 0x2000).set 0x401000 .vmaStart 0x3000).set 0x401000 .vmaEnd 0x4000)

/-- The page between has neighbours on both sides. -/
theorem searches_exact_pair :
    (∃ r, Edits smallLayout 0 (rbSuccessor 2 kernelImageStart 0x2000) pairMem r pairMem ∧
      Answer .vma [0x400018, 0x401018] (IsNext .vma pairMem [0x400018, 0x401018] 0x2000) r) ∧
    (∃ r, Edits smallLayout 0 (rbPredeccessor 2 kernelImageStart 0x2000) pairMem r pairMem ∧
      Answer .vma [0x400018, 0x401018] (IsPrev .vma pairMem [0x400018, 0x401018] 0x2000) r) ∧
    ∃ r, Edits smallLayout 0 (rbFindVma 2 kernelImageStart 0x2000) pairMem r pairMem ∧
      Answer .vma [0x400018, 0x401018] (Contains .vma pairMem 0x2000) r := by
  have hholds : Holds smallLayout (Kind.areaOf .vma) pairMem pairTree :=
    ⟨⟨by decide, Or.inl (by decide), Or.inl (by decide)⟩, ⟨by decide, by decide⟩, trivial,
      ⟨by decide, Or.inl (by decide), Or.inl (by decide)⟩, ⟨by decide, by decide⟩, trivial, trivial⟩
  obtain ⟨hnext, hprev, hfind⟩ := searches_exact (k := .vma) (t := pairTree) (Or.inl rfl)
    (show smallLayout.image kernelImageStart = true by decide) (by decide) hholds (by decide)
      (by decide)
    (show pairTree.height ≤ 2 by decide) 0x2000
  refine ⟨hnext, hprev, hfind ⟨by decide, List.pairwise_pair.mpr ?_⟩⟩
  rintro addr ⟨⟨-, h1⟩, ⟨h2, -⟩⟩
  exact absurd (Nat.lt_of_le_of_lt h2 h1) (by decide)

end Search
end MikroKernel
