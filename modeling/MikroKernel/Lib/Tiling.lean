import Mathlib.Algebra.Order.Group.Multiset
import Mathlib.Data.Multiset.Count
import Mathlib.Tactic

/-!
# Tilings of a range of addresses

A multiset of blocks tiles the range `[base, base + size)` when every address of the range lies
in exactly one of them, counted with multiplicity. Blocks are elements of any type with a start
`lo` and a length `len`; the count is what makes "no block twice", "no overlap" and "nothing
lost" one statement.

What an allocator does to a tiling is to move blocks between owners, which does not change the
multiset, and to cut a block in two or join two neighbours (`Tiles.cut`, `Tiles.join`).

Blocks that only have to be apart, and to lie in some memory, are a packing (`Packs`).
-/

set_option autoImplicit false

namespace Tiling

variable {ι : Type*} (lo len : ι → Nat)

/-- Address `p` lies in block `b`. -/
def Covers (p : Nat) (b : ι) : Prop := lo b ≤ p ∧ p < lo b + len b

instance (p : Nat) : DecidablePred (Covers lo len p) := fun b => by
  unfold Covers
  infer_instance

/-- The blocks of `B` lie inside the range and cover each of its addresses once. -/
structure Tiles (base size : Nat) (B : Multiset ι) : Prop where
  pos : ∀ b ∈ B, 0 < len b
  inside : ∀ b ∈ B, base ≤ lo b ∧ lo b + len b ≤ base + size
  once : ∀ p, base ≤ p → p < base + size → B.countP (Covers lo len p) = 1

/-- The blocks of `B` lie in `R`, and no address is in two of them. -/
structure Packs (R : Nat → Prop) (B : Multiset ι) : Prop where
  pos : ∀ b ∈ B, 0 < len b
  inside : ∀ b ∈ B, ∀ p, Covers lo len p b → R p
  once : ∀ p, B.countP (Covers lo len p) ≤ 1

variable {lo len} {base size : Nat} {B : Multiset ι} {b c d : ι} {R : Nat → Prop}

/-- A tiling is a packing of its range. -/
theorem Tiles.packs (h : Tiles lo len base size B) :
    Packs lo len (fun p => base ≤ p ∧ p < base + size) B := by
  have hin : ∀ b ∈ B, ∀ p, Covers lo len p b → base ≤ p ∧ p < base + size := by
    intro b hb p hp
    have := h.inside b hb
    unfold Covers at hp
    omega
  refine ⟨h.pos, hin, fun p => ?_⟩
  by_cases hp : base ≤ p ∧ p < base + size
  · exact Nat.le_of_eq (h.once p hp.1 hp.2)
  · rw [Multiset.countP_eq_zero.mpr (fun b hb hcov => hp (hin b hb p hcov))]
    exact Nat.zero_le 1

theorem Packs.mono {R' : Nat → Prop} (h : Packs lo len R B) (hR : ∀ p, R p → R' p) :
    Packs lo len R' B := ⟨h.pos, fun b hb p hp => hR p (h.inside b hb p hp), h.once⟩

theorem Packs.le {B' : Multiset ι} (h : Packs lo len R B) (hle : B' ≤ B) : Packs lo len R B' :=
  ⟨fun b hb => h.pos b (Multiset.mem_of_le hle hb),
    fun b hb => h.inside b (Multiset.mem_of_le hle hb),
    fun p => (Multiset.countP_le_of_le _ hle).trans (h.once p)⟩

/-- Two members of a packing, the same block twice included, are apart. -/
theorem Packs.apart (h : Packs lo len R (b ::ₘ c ::ₘ B)) :
    lo b + len b ≤ lo c ∨ lo c + len c ≤ lo b := by
  by_contra hno
  push Not at hno
  have hbpos := h.pos b (by simp)
  have hcpos := h.pos c (by simp)
  -- the larger of the two starts lies in both blocks
  have hone := h.once (max (lo b) (lo c))
  have hcb : Covers lo len (max (lo b) (lo c)) b := by unfold Covers; omega
  have hcc : Covers lo len (max (lo b) (lo c)) c := by unfold Covers; omega
  rw [Multiset.countP_cons_of_pos _ hcb, Multiset.countP_cons_of_pos _ hcc] at hone
  omega

/-- The members of a packed list are apart, each from each. -/
theorem Packs.pairwise {l : List ι} (h : Packs lo len R (B + (l : Multiset ι))) :
    l.Pairwise fun b c => lo b + len b ≤ lo c ∨ lo c + len c ≤ lo b := by
  induction l generalizing B with
  | nil => exact List.Pairwise.nil
  | cons b l ih =>
    rw [← Multiset.cons_coe, Multiset.add_cons] at h
    refine List.pairwise_cons.mpr ⟨fun c hc => ?_, ih (h.le (Multiset.le_cons_self _ _))⟩
    obtain ⟨B', hB'⟩ := Multiset.exists_cons_of_mem (show c ∈ B + (l : Multiset ι) from
      Multiset.mem_add.mpr (Or.inr (Multiset.mem_coe.mpr hc)))
    rw [hB'] at h
    exact h.apart

/-- The block an address of the range lies in. -/
theorem Tiles.exists_covers (h : Tiles lo len base size B) {p : Nat} (h1 : base ≤ p)
    (h2 : p < base + size) : ∃ b ∈ B, Covers lo len p b :=
  Multiset.countP_pos.mp (by rw [h.once p h1 h2]; omega)

/-- Two blocks that share an address are one. -/
theorem Packs.eq_of_covers (h : Packs lo len R B) {p : Nat} (hb : b ∈ B) (hc : c ∈ B)
    (hpb : Covers lo len p b) (hpc : Covers lo len p c) : b = c := by
  by_contra hne
  obtain ⟨B₁, rfl⟩ := Multiset.exists_cons_of_mem hb
  obtain ⟨B₂, rfl⟩ := Multiset.exists_cons_of_mem
    ((Multiset.mem_cons.mp hc).resolve_left (fun hh => hne hh.symm))
  have := h.apart
  unfold Covers at hpb hpc
  omega

/-- Nothing tiles the empty range. -/
theorem Tiles.empty : Tiles lo len base 0 (0 : Multiset ι) :=
  ⟨by simp, by simp, fun p h1 h2 => by omega⟩

/-- A block in front of a tiled range extends it. -/
theorem Tiles.front (h : Tiles lo len (base + len b) size B) (hb : lo b = base)
    (hpos : 0 < len b) : Tiles lo len base (len b + size) (b ::ₘ B) := by
  refine ⟨?_, ?_, ?_⟩
  · intro c hc
    rcases Multiset.mem_cons.mp hc with rfl | hc
    · exact hpos
    · exact h.pos c hc
  · intro c hc
    rcases Multiset.mem_cons.mp hc with rfl | hc
    · omega
    · have := h.inside c hc
      omega
  · intro p h1 h2
    rw [Multiset.countP_cons]
    by_cases hp : p < base + len b
    · -- only the new block reaches down here
      have hrest : B.countP (Covers lo len p) = 0 := by
        rw [Multiset.countP_eq_zero]
        intro c hc hcov
        have := h.inside c hc
        unfold Covers at hcov
        omega
      rw [hrest, if_pos (by unfold Covers; omega)]
    · rw [h.once p (by omega) (by omega), if_neg (by unfold Covers; omega)]

/-- Two tiled ranges one after the other. -/
theorem Tiles.append {n : Nat} {C : Multiset ι} (h : Tiles lo len base size B)
    (h' : Tiles lo len (base + size) n C) : Tiles lo len base (size + n) (B + C) := by
  refine ⟨?_, ?_, ?_⟩
  · intro b hb
    rcases Multiset.mem_add.mp hb with hb | hb
    · exact h.pos b hb
    · exact h'.pos b hb
  · intro b hb
    rcases Multiset.mem_add.mp hb with hb | hb
    · have := h.inside b hb
      omega
    · have := h'.inside b hb
      omega
  · intro p h1 h2
    rw [Multiset.countP_add]
    by_cases hp : p < base + size
    · have hrest : C.countP (Covers lo len p) = 0 := by
        rw [Multiset.countP_eq_zero]
        intro c hc hcov
        have := h'.inside c hc
        unfold Covers at hcov
        omega
      rw [hrest, h.once p h1 hp]
    · have hrest : B.countP (Covers lo len p) = 0 := by
        rw [Multiset.countP_eq_zero]
        intro c hc hcov
        have := h.inside c hc
        unfold Covers at hcov
        omega
      rw [hrest, h'.once p (by omega) (by omega)]

/-- The halves of a block cover what the block covers. -/
theorem countP_halves (p : Nat) (hc : lo c = lo b) (hd : lo d = lo b + len c)
    (hlen : len b = len c + len d) : (c ::ₘ d ::ₘ B).countP (Covers lo len p)
      = (b ::ₘ B).countP (Covers lo len p) := by
  rw [Multiset.countP_cons, Multiset.countP_cons, Multiset.countP_cons, Nat.add_assoc]
  congr 1
  have hsplit : Covers lo len p b ↔ Covers lo len p c ∨ Covers lo len p d := by
    unfold Covers; omega
  have hnot : ¬ (Covers lo len p c ∧ Covers lo len p d) := by
    unfold Covers; omega
  by_cases h1 : Covers lo len p c
  · have h2 : ¬ Covers lo len p d := fun h2 => hnot ⟨h1, h2⟩
    simp [hsplit, h1, h2]
  · simp [hsplit, h1]

/-- What the halves of a block cover, the block covers. -/
theorem covers_of_half {p : Nat} (hc : lo c = lo b) (hd : lo d = lo b + len c)
    (hlen : len b = len c + len d) (h : Covers lo len p c ∨ Covers lo len p d) :
    Covers lo len p b := by
  unfold Covers at *
  omega

theorem Packs.cut (h : Packs lo len R (b ::ₘ B)) (hc : lo c = lo b) (hd : lo d = lo b + len c)
    (hlen : len b = len c + len d) (hcpos : 0 < len c) (hdpos : 0 < len d) :
    Packs lo len R (c ::ₘ d ::ₘ B) := by
  have hb := h.inside b (by simp)
  refine ⟨?_, ?_, ?_⟩
  · intro e he
    rcases Multiset.mem_cons.mp he with rfl | he
    · exact hcpos
    · rcases Multiset.mem_cons.mp he with rfl | he
      · exact hdpos
      · exact h.pos e (by simp [he])
  · intro e he p hp
    rcases Multiset.mem_cons.mp he with rfl | he
    · exact hb p (covers_of_half hc hd hlen (Or.inl hp))
    · rcases Multiset.mem_cons.mp he with rfl | he
      · exact hb p (covers_of_half hc hd hlen (Or.inr hp))
      · exact h.inside e (by simp [he]) p hp
  · intro p
    rw [countP_halves p hc hd hlen]
    exact h.once p

theorem Packs.join (h : Packs lo len R (c ::ₘ d ::ₘ B)) (hc : lo c = lo b)
    (hd : lo d = lo b + len c) (hlen : len b = len c + len d) : Packs lo len R (b ::ₘ B) := by
  have hci := h.inside c (by simp)
  have hdi := h.inside d (by simp)
  have hcpos := h.pos c (by simp)
  refine ⟨?_, ?_, ?_⟩
  · intro e he
    rcases Multiset.mem_cons.mp he with rfl | he
    · omega
    · exact h.pos e (by simp [he])
  · intro e he p hp
    rcases Multiset.mem_cons.mp he with rfl | he
    · by_cases hpc : Covers lo len p c
      · exact hci p hpc
      · refine hdi p ?_
        unfold Covers at *
        omega
    · exact h.inside e (by simp [he]) p hp
  · intro p
    rw [← countP_halves p hc hd hlen]
    exact h.once p

/-- **Cut**: a block is replaced by two that share it out. -/
theorem Tiles.cut (h : Tiles lo len base size (b ::ₘ B)) (hc : lo c = lo b)
    (hd : lo d = lo b + len c) (hlen : len b = len c + len d) (hcpos : 0 < len c)
    (hdpos : 0 < len d) : Tiles lo len base size (c ::ₘ d ::ₘ B) := by
  have hb := h.inside b (by simp)
  refine ⟨?_, ?_, ?_⟩
  · intro e he
    rcases Multiset.mem_cons.mp he with rfl | he
    · exact hcpos
    · rcases Multiset.mem_cons.mp he with rfl | he
      · exact hdpos
      · exact h.pos e (by simp [he])
  · intro e he
    rcases Multiset.mem_cons.mp he with rfl | he
    · omega
    · rcases Multiset.mem_cons.mp he with rfl | he
      · omega
      · exact h.inside e (by simp [he])
  · intro p h1 h2
    rw [countP_halves p hc hd hlen]
    exact h.once p h1 h2

/-- **Join**: two neighbours are replaced by the block they make up. -/
theorem Tiles.join (h : Tiles lo len base size (c ::ₘ d ::ₘ B)) (hc : lo c = lo b)
    (hd : lo d = lo b + len c) (hlen : len b = len c + len d) :
    Tiles lo len base size (b ::ₘ B) := by
  have hci := h.inside c (by simp)
  have hdi := h.inside d (by simp)
  have hcpos := h.pos c (by simp)
  refine ⟨?_, ?_, ?_⟩
  · intro e he
    rcases Multiset.mem_cons.mp he with rfl | he
    · omega
    · exact h.pos e (by simp [he])
  · intro e he
    rcases Multiset.mem_cons.mp he with rfl | he
    · omega
    · exact h.inside e (by simp [he])
  · intro p h1 h2
    rw [← countP_halves p hc hd hlen]
    exact h.once p h1 h2

/-! ## What is covered -/

/-- Some block of `B` has the address. -/
def Reach (lo len : ι → Nat) (B : Multiset ι) (p : Nat) : Prop := ∃ b ∈ B, Covers lo len p b

theorem reach_cons {p : Nat} :
    Reach lo len (b ::ₘ B) p ↔ Covers lo len p b ∨ Reach lo len B p := by
  unfold Reach
  simp only [Multiset.mem_cons, or_and_right, exists_or, exists_eq_left]

/-- Cutting and joining do not change what is covered. -/
theorem reach_halves {p : Nat} (hc : lo c = lo b) (hd : lo d = lo b + len c)
    (hlen : len b = len c + len d) :
    Reach lo len (c ::ₘ d ::ₘ B) p ↔ Reach lo len (b ::ₘ B) p := by
  have hsplit : Covers lo len p c ∨ Covers lo len p d ↔ Covers lo len p b := by
    unfold Covers
    omega
  rw [reach_cons, reach_cons, reach_cons, ← or_assoc, hsplit]

/-- Without one of its blocks, a packing covers all but this block. -/
theorem Packs.reach_iff (h : Packs lo len R (b ::ₘ B)) {p : Nat} :
    Reach lo len B p ↔ Reach lo len (b ::ₘ B) p ∧ ¬ Covers lo len p b := by
  rw [reach_cons]
  constructor
  · rintro ⟨c, hc, hp⟩
    refine ⟨Or.inr ⟨c, hc, hp⟩, fun hb => ?_⟩
    obtain ⟨B', rfl⟩ := Multiset.exists_cons_of_mem hc
    have := h.apart
    unfold Covers at hb hp
    omega
  · rintro ⟨hb | hB, hno⟩
    · exact absurd hb hno
    · exact hB

end Tiling
