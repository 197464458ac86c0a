import MikroKernel.Lib.Run

/-!
# Threads that take turns

Some threads share a state. Each has a place of its own in its program, and a turn of one thread
changes the shared state and that thread's place. A run is any sequence of turns.

What a thread has taken out of the shared state and not put back is in its hands (`held`). The rule
of the library, `reaches_framed`, is about an invariant of the shared state and of all that is in
anybody's hands: a turn is judged by what the one thread does with its own hands, with the hands of
the others as they are. That is the frame rule, and it is why the number of threads does not matter.
-/

set_option autoImplicit false

namespace Interleave

open Run

variable {ι σ τ ρ : Type*}

/-- The shared state, and the place of each thread. -/
structure Config (ι σ τ : Type*) where
  shared : σ
  thread : ι → τ

section Moves

variable [DecidableEq ι]

/-- Thread `i` has made a move. -/
def Config.put (c : Config ι σ τ) (i : ι) (s : σ) (t : τ) : Config ι σ τ :=
  ⟨s, Function.update c.thread i t⟩

@[simp] theorem put_self (c : Config ι σ τ) (i : ι) (s : σ) (t : τ) : (c.put i s t).thread i = t :=
  Function.update_self _ _ _

theorem put_other (c : Config ι σ τ) {i j : ι} (s : σ) (t : τ) (h : j ≠ i) :
    (c.put i s t).thread j = c.thread j := Function.update_of_ne h _ _

/-- A turn of one thread, in a situation that `ok` admits. -/
inductive Step (move : σ → τ → σ → τ → Prop) (ok : Config ι σ τ → ι → Prop) :
    Config ι σ τ → Config ι σ τ → Prop
  | turn {c : Config ι σ τ} {i : ι} {s : σ} {t : τ} : ok c i → move c.shared (c.thread i) s t →
      Step move ok c (c.put i s t)

end Moves

/-! ## Hands -/

section Hands

variable [Fintype ι] (held : τ → Multiset ρ)

/-- What the threads have in their hands together. -/
def hands (thread : ι → τ) : Multiset ρ := ∑ i, held (thread i)

variable {held} {thread : ι → τ} {i j : ι} {x : ρ}

theorem hands_zero (h : ∀ i, held (thread i) = 0) : hands held thread = 0 :=
  Finset.sum_eq_zero (fun i _ => h i)

variable [DecidableEq ι]

/-- What all but thread `i` have. -/
def others (held : τ → Multiset ρ) (thread : ι → τ) (i : ι) : Multiset ρ :=
  ∑ j ∈ Finset.univ.erase i, held (thread j)

theorem hands_eq (i : ι) : hands held thread = held (thread i) + others held thread i :=
  (Finset.add_sum_erase _ _ (Finset.mem_univ i)).symm

/-- The others' hands are as they were. -/
theorem hands_update (t : τ) :
    hands held (Function.update thread i t) = held t + others held thread i := by
  rw [hands_eq i, Function.update_self]
  congr 1
  refine Finset.sum_congr rfl (fun j hj => ?_)
  rw [Function.update_of_ne (Finset.ne_of_mem_erase hj)]

/-- Two threads' hands are apart in the whole. -/
theorem held_add_held (hij : i ≠ j) :
    ∃ rest, hands held thread = held (thread i) + (held (thread j) + rest) := by
  refine ⟨∑ k ∈ (Finset.univ.erase i).erase j, held (thread k), ?_⟩
  have hj : j ∈ Finset.univ.erase i := Finset.mem_erase.mpr ⟨fun h => hij h.symm, Finset.mem_univ j⟩
  rw [hands_eq i, others, ← Finset.add_sum_erase _ _ hj]

/-! ## The frame rule -/

/-- **The frame rule.** If each admitted turn keeps the invariant, with the others' hands as they
are, and leaves its thread in a place that is `fine`, then a run does. -/
theorem reaches_framed {move : σ → τ → σ → τ → Prop} {ok : Config ι σ τ → ι → Prop}
    (Inv : σ → Multiset ρ → Prop) (fine : τ → Prop)
    (hmove : ∀ (c : Config ι σ τ) (i : ι) (s : σ) (t : τ), ok c i → fine (c.thread i) →
      Inv c.shared (held (c.thread i) + others held c.thread i) → move c.shared (c.thread i) s t →
      fine t ∧ Inv s (held t + others held c.thread i))
    {c c' : Config ι σ τ} (hrun : Reaches (Step move ok) c c')
    (h0 : Inv c.shared (hands held c.thread)) (hfine : ∀ i, fine (c.thread i)) :
    Inv c'.shared (hands held c'.thread) ∧ ∀ i, fine (c'.thread i) := by
  refine hrun.invariant (fun c => Inv c.shared (hands held c.thread) ∧ ∀ i, fine (c.thread i))
    ⟨h0, hfine⟩ ?_
  rintro a b - ⟨hinv, hplaces⟩ hstep
  cases hstep with
  | @turn i s t hok hm =>
    rw [hands_eq i] at hinv
    obtain ⟨ht, hs⟩ := hmove a i s t hok (hplaces i) hinv hm
    refine ⟨?_, fun j => ?_⟩
    · show Inv s (hands held (Function.update a.thread i t))
      rw [hands_update]
      exact hs
    · by_cases hji : j = i
      · rw [hji, put_self]
        exact ht
      · rw [put_other a s t hji]
        exact hplaces j

end Hands

end Interleave
