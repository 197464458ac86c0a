import Mathlib.Data.List.Nodup
import Mathlib.Tactic

/-!
# Doubly linked lists in a store of links

A list in memory is a head and two link functions, `next` and `prev`, over node names; `0` ends
it. `Linked next prev p l` says that the nodes of `l`, in this order, are chained by the two
functions, the first one pointing back to `p` and the last one forward to `0`.

`Threaded` is the same for lists with one link only.

The three edits of an intrusive list are stated as what they do to the link functions
(`Function.update`), so a client only has to show that its stores are these updates:
`Linked.push`, `Linked.pop` and `Linked.unlink`. The last one is the point of a doubly linked
list, taking out a node known by its own name only.
-/

set_option autoImplicit false

namespace Chain

/-- The first node, `0` for the empty list. -/
def first : List Nat → Nat
  | [] => 0
  | a :: _ => a

/-- `l` is chained by `next` and `prev`, and its first node points back to `p`. -/
def Linked (next prev : Nat → Nat) : Nat → List Nat → Prop
  | _, [] => True
  | p, a :: rest => a ≠ 0 ∧ prev a = p ∧ next a = first rest ∧ Linked next prev a rest

/-- `l` is chained by one link function and ends in `0`. -/
def Threaded (link : Nat → Nat) : List Nat → Prop
  | [] => True
  | a :: rest => a ≠ 0 ∧ link a = first rest ∧ Threaded link rest

variable {next prev next' prev' : Nat → Nat}

theorem Threaded.congr {link link' : Nat → Nat} : ∀ {l : List Nat}, Threaded link l →
    (∀ a ∈ l, link' a = link a) → Threaded link' l
  | [], _, _ => trivial
  | a :: rest, h, hl => ⟨h.1, by rw [hl a (by simp)]; exact h.2.1,
      h.2.2.congr (fun b hb => hl b (by simp [hb]))⟩

theorem Linked.ne_zero : ∀ {p : Nat} {l : List Nat}, Linked next prev p l → ∀ a ∈ l, a ≠ 0
  | _, [], _, _, ha => absurd ha (by simp)
  | _, _ :: _, h, a, ha => by
    rcases List.mem_cons.mp ha with rfl | ha
    · exact h.1
    · exact h.2.2.2.ne_zero a ha

theorem Linked.first_eq_zero {p : Nat} {l : List Nat} (h : Linked next prev p l) :
    first l = 0 ↔ l = [] := by
  cases l with
  | nil => simp [first]
  | cons a rest => simp [first, h.1]

theorem first_mem {l : List Nat} (h : l ≠ []) : first l ∈ l := by
  cases l with
  | nil => exact absurd rfl h
  | cons a rest => simp [first]

/-- The head and the links determine the list. -/
theorem Linked.unique : ∀ {p q : Nat} {l l' : List Nat}, Linked next prev p l →
    Linked next prev q l' → first l = first l' → l = l'
  | _, _, [], _, _, h', hf => ((h'.first_eq_zero).mp hf.symm).symm
  | _, _, _ :: _, [], h, _, hf => absurd hf h.1
  | _, _, a :: rest, b :: rest', h, h', hf => by
    have hab : a = b := hf
    subst hab
    rw [h.2.2.2.unique h'.2.2.2 (h.2.2.1.symm.trans h'.2.2.1)]

/-- The nodes from `cur` on, `fuel` of them at most. -/
def nodes (next : Nat → Nat) : Nat → Nat → List Nat
  | 0, _ => []
  | fuel + 1, cur => if cur = 0 then [] else cur :: nodes next fuel (next cur)

/-- Walking along the links finds the list. -/
theorem Linked.nodes_eq : ∀ {p : Nat} {l : List Nat}, Linked next prev p l → ∀ fuel,
    nodes next fuel (first l) = l.take fuel
  | _, _, _, 0 => rfl
  | _, [], _, fuel + 1 => by simp [nodes, first]
  | _, a :: rest, h, fuel + 1 => by
    have hrest := h.2.2.2.nodes_eq fuel
    rw [← h.2.2.1] at hrest
    show (if a = 0 then [] else a :: nodes next fuel (next a)) = _
    rw [if_neg h.1, hrest, List.take_succ_cons]

/-- Links of other nodes do not matter. -/
theorem Linked.congr : ∀ {p : Nat} {l : List Nat}, Linked next prev p l →
    (∀ a ∈ l, next' a = next a) → (∀ a ∈ l, prev' a = prev a) → Linked next' prev' p l
  | _, [], _, _, _ => trivial
  | _, a :: rest, h, hn, hp =>
    ⟨h.1, by rw [hp a (by simp)]; exact h.2.1, by rw [hn a (by simp)]; exact h.2.2.1,
      h.2.2.2.congr (fun b hb => hn b (by simp [hb])) (fun b hb => hp b (by simp [hb]))⟩

/-- Only the first node knows what stands before the list. -/
theorem Linked.rebase {p q : Nat} {l : List Nat} (h : Linked next prev p l) (hnd : l.Nodup)
    (hn : ∀ a ∈ l, next' a = next a) (hf : l ≠ [] → prev' (first l) = q)
    (hp : ∀ a ∈ l, a ≠ first l → prev' a = prev a) : Linked next' prev' q l := by
  cases l with
  | nil => trivial
  | cons a rest =>
    have hnotin : a ∉ rest := (List.nodup_cons.mp hnd).1
    refine ⟨h.1, hf (by simp), by rw [hn a (by simp)]; exact h.2.2.1, ?_⟩
    refine h.2.2.2.congr (fun b hb => hn b (by simp [hb])) (fun b hb => hp b (by simp [hb]) ?_)
    rintro rfl
    exact hnotin hb

/-- **Push**: the new node points at the old first node and nowhere back, the old first node
points back at it. -/
theorem Linked.push {l : List Nat} {b : Nat} (h : Linked next prev 0 l) (hb : b ≠ 0)
    (hnd : l.Nodup) (hnb : next' b = first l) (hpb : prev' b = 0)
    (hn : ∀ a ∈ l, next' a = next a)
    (hp : ∀ a ∈ l, prev' a = if a = first l then b else prev a) :
    Linked next' prev' 0 (b :: l) := by
  refine ⟨hb, hpb, hnb, h.rebase hnd hn (fun hl => ?_) (fun a ha hne => ?_)⟩
  · rw [hp _ (first_mem hl), if_pos rfl]
  · rw [hp a ha, if_neg hne]

/-- **Pop**: the second node becomes the first. -/
theorem Linked.pop {l : List Nat} {b : Nat} (h : Linked next prev 0 (b :: l))
    (hnd : (b :: l).Nodup) (hn : ∀ a ∈ l, next' a = next a)
    (hp : ∀ a ∈ l, prev' a = if a = first l then 0 else prev a) :
    Linked next' prev' 0 l := by
  refine h.2.2.2.rebase (List.nodup_cons.mp hnd).2 hn (fun hl => ?_) (fun a ha hf => ?_)
  · rw [hp _ (first_mem hl), if_pos rfl]
  · rw [hp a ha, if_neg hf]

/-- The successor of a node of the list, or `0`, is not an earlier node. -/
theorem Linked.next_mem : ∀ {p : Nat} {l : List Nat}, Linked next prev p l → ∀ b ∈ l,
    next b = 0 ∨ next b ∈ l.tail
  | _, [], _, _, hb => absurd hb (by simp)
  | _, a :: rest, h, b, hb => by
    rcases List.mem_cons.mp hb with rfl | hb
    · rw [h.2.2.1]
      cases rest with
      | nil => exact Or.inl rfl
      | cons c _ => exact Or.inr (by simp [first])
    · rcases h.2.2.2.next_mem b hb with h0 | h1
      · exact Or.inl h0
      · exact Or.inr (List.mem_of_mem_tail h1)

/-- The predecessor of a node is the boundary or a node of the list. -/
theorem Linked.prev_mem : ∀ {p : Nat} {l : List Nat}, Linked next prev p l → ∀ b ∈ l,
    prev b = p ∨ prev b ∈ l
  | _, [], _, _, hb => absurd hb (by simp)
  | _, a :: rest, h, b, hb => by
    rcases List.mem_cons.mp hb with rfl | hb
    · exact Or.inl h.2.1
    · rcases h.2.2.2.prev_mem b hb with h0 | h1
      · exact Or.inr (by simp [h0])
      · exact Or.inr (by simp [h1])

/-- A node is not its own predecessor. -/
theorem Linked.prev_ne : ∀ {p : Nat} {l : List Nat}, Linked next prev p l → l.Nodup → p ∉ l →
    ∀ b ∈ l, prev b ≠ b
  | _, [], _, _, _, _, hb => absurd hb (by simp)
  | p, a :: rest, h, hnd, hp, b, hb => by
    obtain ⟨hnotin, hnd'⟩ := List.nodup_cons.mp hnd
    rcases List.mem_cons.mp hb with rfl | hb
    · rw [h.2.1]
      rintro rfl
      exact hp (by simp)
    · exact h.2.2.2.prev_ne hnd' hnotin b hb

/-- **Unlink**: the two neighbours of `b` are joined; `b`'s own links may be anything. Stated
over an arbitrary boundary `p`, which is what the induction along the list needs. -/
theorem Linked.unlink : ∀ {p : Nat} {l : List Nat} {b : Nat}, Linked next prev p l → l.Nodup →
    p ∉ l → b ∈ l →
    (∀ a ∈ l, a ≠ b → next' a = if a = prev b then next b else next a) →
    (∀ a ∈ l, a ≠ b → prev' a = if a = next b then prev b else prev a) →
    Linked next' prev' p (l.erase b)
  | _, [], _, _, _, _, hb, _, _ => absurd hb (by simp)
  | p, a :: rest, b, h, hnd, hpl, hb, hn, hp => by
    obtain ⟨hnotin, hnd'⟩ := List.nodup_cons.mp hnd
    by_cases hab : a = b
    · -- `b` is first: its successor now points back to the boundary
      subst hab
      rw [List.erase_cons_head]
      have hne : ∀ c ∈ rest, c ≠ a := by
        rintro c hc rfl
        exact hnotin hc
      refine h.2.2.2.rebase hnd' (fun c hc => ?_) (fun hl => ?_) (fun c hc hf => ?_)
      · rw [hn c (by simp [hc]) (hne c hc), if_neg]
        rw [h.2.1]
        rintro rfl
        exact hpl (by simp [hc])
      · rw [hp _ (List.mem_cons_of_mem _ (first_mem hl)) (hne _ (first_mem hl)), h.2.2.1,
          if_pos rfl, h.2.1]
      · rw [hp c (by simp [hc]) (hne c hc), if_neg]
        rwa [h.2.2.1]
    · have hb' : b ∈ rest := (List.mem_cons.mp hb).resolve_left (fun hh => hab hh.symm)
      rw [List.erase_cons_tail (by simpa using hab)]
      -- a node before `b` is not its successor
      have hnext : a ≠ next b := by
        rintro rfl
        rcases h.2.2.2.next_mem b hb' with h0 | h1
        · exact h.1 h0
        · exact hnotin (List.mem_of_mem_tail h1)
      refine ⟨h.1, by rw [hp a (by simp) hab, if_neg hnext]; exact h.2.1, ?_,
        h.2.2.2.unlink hnd' hnotin hb' (fun c hc => hn c (by simp [hc]))
          (fun c hc => hp c (by simp [hc]))⟩
      rw [hn a (by simp) hab]
      cases rest with
      | nil => exact absurd hb' (by simp)
      | cons c rest' =>
        obtain ⟨hc0, hcp, hcn, hrest⟩ := h.2.2.2
        by_cases hcb : c = b
        · subst hcb
          rw [if_pos hcp.symm, List.erase_cons_head, hcn]
        · have hb'' : b ∈ rest' := (List.mem_cons.mp hb').resolve_left (fun hh => hcb hh.symm)
          rw [List.erase_cons_tail (by simpa using hcb), if_neg]
          · exact h.2.2.1
          · rintro rfl
            rcases hrest.prev_mem b hb'' with h0 | h1
            · exact hnotin (by simp [h0])
            · exact hnotin (List.mem_cons_of_mem _ h1)

/-- The head after taking out `b`. -/
theorem Linked.first_erase {l : List Nat} {b : Nat} (h : Linked next prev 0 l) (hnd : l.Nodup)
    (hb : b ∈ l) : first (l.erase b) = if prev b = 0 then next b else first l := by
  cases l with
  | nil => exact absurd hb (by simp)
  | cons a rest =>
    by_cases hab : a = b
    · subst hab
      rw [List.erase_cons_head, if_pos h.2.1, h.2.2.1]
    · have hb' : b ∈ rest := (List.mem_cons.mp hb).resolve_left (fun hh => hab hh.symm)
      rw [List.erase_cons_tail (by simpa using hab), if_neg]
      · rfl
      · intro h0
        rcases h.2.2.2.prev_mem b hb' with h1 | h1
        · exact h.1 (h1.symm.trans h0)
        · exact h.2.2.2.ne_zero _ h1 h0

end Chain
