import Mathlib.Data.List.Nodup
import Mathlib.Tactic

/-!
# Circular doubly linked lists with a sentinel

`Path next prev p l q` says that going forward from `p` one passes the nodes of `l` in order and
arrives at `q`, and that the same steps lead back. A ring is a path from its sentinel to itself
(`Ring`), so the edits of a ring are edits of a path: taking a node out by joining its two
neighbours (`Path.unlink`), and putting one in behind the start (`Path.insert`). They are stated
over what the link functions are afterwards, for every node the path mentions, and leave the
links of all other nodes open.
-/

set_option autoImplicit false

namespace Circular

/-- From `p` through the nodes of `l` to `q`, and back. -/
def Path (next prev : Nat → Nat) : Nat → List Nat → Nat → Prop
  | p, [], q => next p = q ∧ prev q = p
  | p, a :: l, q => next p = a ∧ prev a = p ∧ Path next prev a l q

/-- The nodes of `l` around the sentinel `h`. -/
structure Ring (next prev : Nat → Nat) (h : Nat) (l : List Nat) : Prop where
  path : Path next prev h l h
  nodup : (h :: l).Nodup

variable {next prev next' prev' : Nat → Nat}

/-- The node behind `p`. -/
def first (l : List Nat) (q : Nat) : Nat := l.headD q

theorem Path.next_eq : ∀ {p : Nat} {l : List Nat} {q : Nat}, Path next prev p l q →
    next p = first l q
  | _, [], _, h => h.1
  | _, _ :: _, _, h => h.1

theorem Path.congr : ∀ {p : Nat} {l : List Nat} {q : Nat}, Path next prev p l q →
    (∀ a, a = p ∨ a ∈ l → next' a = next a) → (∀ a, a ∈ l ∨ a = q → prev' a = prev a) →
    Path next' prev' p l q
  | p, [], q, h, hn, hp => by
    refine ⟨?_, ?_⟩
    · rw [hn p (Or.inl rfl)]; exact h.1
    · rw [hp q (Or.inr rfl)]; exact h.2
  | p, a :: l, q, h, hn, hp => by
    refine ⟨?_, ?_, h.2.2.congr (fun b hb => hn b ?_) (fun b hb => hp b ?_)⟩
    · rw [hn p (Or.inl rfl)]; exact h.1
    · rw [hp a (Or.inl (by simp))]; exact h.2.1
    · rcases hb with rfl | hb
      · exact Or.inr (by simp)
      · exact Or.inr (by simp [hb])
    · rcases hb with hb | rfl
      · exact Or.inl (by simp [hb])
      · exact Or.inr rfl

/-- The neighbours of a node are nodes of the path or its ends. -/
theorem Path.prev_mem : ∀ {p : Nat} {l : List Nat} {q : Nat}, Path next prev p l q → ∀ b ∈ l,
    prev b = p ∨ prev b ∈ l
  | _, [], _, _, _, hb => absurd hb (by simp)
  | p, a :: l, q, h, b, hb => by
    rcases List.mem_cons.mp hb with rfl | hb
    · exact Or.inl h.2.1
    · rcases h.2.2.prev_mem b hb with h0 | h0
      · exact Or.inr (by simp [h0])
      · exact Or.inr (by simp [h0])

theorem Path.next_mem : ∀ {p : Nat} {l : List Nat} {q : Nat}, Path next prev p l q → ∀ b ∈ l,
    next b = q ∨ next b ∈ l.tail
  | _, [], _, _, _, hb => absurd hb (by simp)
  | p, a :: l, q, h, b, hb => by
    rcases List.mem_cons.mp hb with rfl | hb
    · rw [h.2.2.next_eq]
      cases l with
      | nil => exact Or.inl rfl
      | cons c l => exact Or.inr (by simp [first])
    · rcases h.2.2.next_mem b hb with h0 | h0
      · exact Or.inl h0
      · exact Or.inr (List.mem_of_mem_tail h0)

/-- **Unlink**: the neighbours of `b` are joined. The ends may be the same node, as in a ring. -/
theorem Path.unlink : ∀ {p : Nat} {l : List Nat} {q b : Nat}, Path next prev p l q → l.Nodup →
    p ∉ l → q ∉ l → b ∈ l →
    (∀ a, a = p ∨ a ∈ l → a ≠ b → next' a = if a = prev b then next b else next a) →
    (∀ a, a ∈ l ∨ a = q → a ≠ b → prev' a = if a = next b then prev b else prev a) →
    Path next' prev' p (l.erase b) q
  | _, [], _, _, _, _, _, _, hb, _, _ => absurd hb (by simp)
  | p, a :: l, q, b, h, hnd, hpl, hql, hb, hn, hp => by
    obtain ⟨hal, hnd'⟩ := List.nodup_cons.mp hnd
    simp only [List.mem_cons, not_or] at hpl hql
    by_cases hab : a = b
    · -- `b` is the first node: `p` and what follows `b` become neighbours
      subst hab
      rw [List.erase_cons_head]
      have hnp : next' p = first l q := by
        rw [hn p (Or.inl rfl) hpl.1, h.2.1, if_pos rfl, h.2.2.next_eq]
      cases l with
      | nil =>
        refine ⟨hnp, ?_⟩
        rw [hp q (Or.inr rfl) hql.1, h.2.2.1, if_pos rfl, h.2.1]
      | cons c l =>
        obtain ⟨hcl, -⟩ := List.nodup_cons.mp hnd'
        simp only [List.mem_cons, not_or] at hal hpl hql
        refine ⟨hnp, ?_, h.2.2.2.2.congr (fun x hx => ?_) (fun x hx => ?_)⟩
        · rw [hp c (Or.inl (by simp)) (Ne.symm hal.1), h.2.2.1, if_pos rfl, h.2.1]
        · have hxa : x ≠ a := by
            rintro rfl
            rcases hx with rfl | hx
            · exact hal.1 rfl
            · exact hal.2 hx
          have hxp : x ≠ p := by
            rintro rfl
            rcases hx with rfl | hx
            · exact hpl.2.1 rfl
            · exact hpl.2.2 hx
          have hmem : x ∈ a :: c :: l := by
            rcases hx with rfl | hx
            · simp
            · simp [hx]
          rw [hn x (Or.inr hmem) hxa, h.2.1, if_neg hxp]
        · have hxc : x ≠ c := by
            rintro rfl
            rcases hx with hx | rfl
            · exact hcl hx
            · exact hql.2.1 rfl
          have hxa : x ≠ a := by
            rintro rfl
            rcases hx with hx | rfl
            · exact hal.2 hx
            · exact hql.1 rfl
          have hmem : x ∈ a :: c :: l ∨ x = q := by
            rcases hx with hx | rfl
            · simp [hx]
            · simp
          rw [hp x hmem hxa, h.2.2.1, if_neg hxc]
    · have hb' : b ∈ l := (List.mem_cons.mp hb).resolve_left (fun hh => hab hh.symm)
      rw [List.erase_cons_tail (by simpa using hab)]
      have hpb : p ≠ b := fun hpb => hpl.2 (hpb ▸ hb')
      -- the neighbours of `b` lie behind `p`, and its successor behind `a`
      have hprev : p ≠ prev b := by
        rcases h.2.2.prev_mem b hb' with h0 | h0
        · rw [h0]; exact hpl.1
        · exact fun he => hpl.2 (he ▸ h0)
      have hnext : a ≠ next b := by
        rcases h.2.2.next_mem b hb' with h0 | h0
        · rw [h0]; exact Ne.symm hql.1
        · exact fun he => hal (he ▸ List.mem_of_mem_tail h0)
      refine ⟨?_, ?_, h.2.2.unlink hnd' hal hql.2 hb' (fun x hx => hn x ?_) (fun x hx => hp x ?_)⟩
      · rw [hn p (Or.inl rfl) hpb, if_neg hprev]; exact h.1
      · rw [hp a (Or.inl (by simp)) hab, if_neg hnext]; exact h.2.1
      · rcases hx with rfl | hx
        · simp
        · simp [hx]
      · rcases hx with hx | rfl
        · simp [hx]
        · simp

/-- **Insert**: `b` goes between the start and what follows it. -/
theorem Path.insert {p : Nat} {l : List Nat} {q b : Nat} (h : Path next prev p l q)
    (hnd : l.Nodup) (hpl : p ∉ l) (hql : q ∉ l)
    (hnb : next' b = next p) (hpb : prev' b = p) (hnp : next' p = b)
    (hpf : prev' (next p) = b) (hn : ∀ a ∈ l, next' a = next a)
    (hp : ∀ a, a ∈ l ∨ a = q → a ≠ next p → prev' a = prev a) :
    Path next' prev' p (b :: l) q := by
  refine ⟨hnp, hpb, ?_⟩
  rw [h.next_eq] at hnb hpf hp
  cases l with
  | nil => exact ⟨hnb, hpf⟩
  | cons c l =>
    obtain ⟨hcl, -⟩ := List.nodup_cons.mp hnd
    refine ⟨hnb, hpf, h.2.2.congr (fun x hx => hn x ?_) (fun x hx => hp x ?_ ?_)⟩
    · rcases hx with rfl | hx
      · simp
      · simp [hx]
    · rcases hx with hx | rfl
      · simp [hx]
      · simp
    · rintro rfl
      rcases hx with hx | hx
      · exact hcl hx
      · exact hql (by simp [← hx])

/-! ## Rings -/

theorem Ring.empty {h : Nat} (hn : next h = h) (hp : prev h = h) : Ring next prev h [] :=
  ⟨⟨hn, hp⟩, by simp⟩

theorem Ring.next_eq {h : Nat} {l : List Nat} (r : Ring next prev h l) : next h = first l h :=
  r.path.next_eq

/-- The sentinel points to itself iff the ring is empty, which is the test the code makes. -/
theorem Ring.next_eq_self {h : Nat} {l : List Nat} (r : Ring next prev h l) :
    next h = h ↔ l = [] := by
  rw [r.next_eq]
  cases l with
  | nil => simp [first]
  | cons a l =>
    have := (List.nodup_cons.mp r.nodup).1
    simp only [List.mem_cons, not_or] at this
    simp [first, Ne.symm this.1]

theorem Ring.congr {h : Nat} {l : List Nat} (r : Ring next prev h l)
    (hn : ∀ a ∈ h :: l, next' a = next a) (hp : ∀ a ∈ h :: l, prev' a = prev a) :
    Ring next' prev' h l := by
  refine ⟨r.path.congr (fun a ha => hn a ?_) (fun a ha => hp a ?_), r.nodup⟩
  · exact List.mem_cons.mpr ha
  · exact List.mem_cons.mpr ha.symm

theorem Ring.neighbours {h b : Nat} {l : List Nat} (r : Ring next prev h l) (hb : b ∈ l) :
    prev b ∈ h :: l ∧ next b ∈ h :: l := by
  refine ⟨List.mem_cons.mpr (r.path.prev_mem b hb), List.mem_cons.mpr ?_⟩
  exact (r.path.next_mem b hb).imp_right List.mem_of_mem_tail

theorem Ring.unlink {h b : Nat} {l : List Nat} (r : Ring next prev h l) (hb : b ∈ l)
    (hn : ∀ a ∈ h :: l, a ≠ b → next' a = if a = prev b then next b else next a)
    (hp : ∀ a ∈ h :: l, a ≠ b → prev' a = if a = next b then prev b else prev a) :
    Ring next' prev' h (l.erase b) := by
  obtain ⟨hh, hnd⟩ := List.nodup_cons.mp r.nodup
  refine ⟨r.path.unlink hnd hh hh hb (fun a ha => hn a (List.mem_cons.mpr ha))
    (fun a ha => hp a (List.mem_cons.mpr ha.symm)), ?_⟩
  exact List.nodup_cons.mpr ⟨fun hm => hh (List.mem_of_mem_erase hm), hnd.erase b⟩

theorem Ring.insert {h b : Nat} {l : List Nat} (r : Ring next prev h l) (hbh : b ≠ h)
    (hbl : b ∉ l) (hnb : next' b = next h) (hpb : prev' b = h) (hnh : next' h = b)
    (hpf : prev' (next h) = b) (hn : ∀ a ∈ l, next' a = next a)
    (hp : ∀ a ∈ h :: l, a ≠ next h → prev' a = prev a) : Ring next' prev' h (b :: l) := by
  obtain ⟨hh, hnd⟩ := List.nodup_cons.mp r.nodup
  refine ⟨r.path.insert hnd hh hh hnb hpb hnh hpf hn
    (fun a ha => hp a (List.mem_cons.mpr ha.symm)), ?_⟩
  simp only [List.nodup_cons, List.mem_cons, not_or]
  exact ⟨⟨Ne.symm hbh, hh⟩, hbl, hnd⟩

end Circular
