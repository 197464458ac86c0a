import MikroKernel.Proof.Buddy.Init

/-!
# What the bitmap means

The bit of a pair is meant to be set when exactly one of its two blocks is on the list of its
order (`BitInv`). For a range of at most `2 ^ 32` pages every pair of an order below 10 has a bit
of its own (`pairPos_inj`), and then a free keeps the meaning and merges only what it may merge
(`BitInv.release`, `BitInv.mergeSound`). An allocation keeps it when it pops a block of its own
order or splits a block of the largest order once (`BitInv.alloc`): in the other cases the split
leaves blocks on lists whose bits it does not touch.
-/

set_option autoImplicit false

namespace MikroKernel
namespace Buddy

variable {L : Layout} {base size np : Nat} {h : Heap} {own : Multiset Chunk} {R : Nat → Prop}

attribute [local irreducible] chunkBytes

/-! ## Bit positions -/

theorem orderOffset_eq {q : Nat} (hq : 1024 * q ≤ 2 ^ 32) : ∀ {k : Nat}, k ≤ 10 →
    orderOffset (1024 * q) k = 1024 * q - 1024 * q / 2 ^ k := by
  intro k
  induction k with
  | zero => intro _; simp [orderOffset]
  | succ k ih =>
    intro hk
    unfold orderOffset
    rw [ih (by omega), Nat.shiftRight_eq_div_pow]
    -- halving is exact up to order 10
    obtain ⟨r, hr⟩ : 2 ^ (k + 1) ∣ 1024 * q :=
      Nat.dvd_trans (Nat.pow_dvd_pow 2 hk) (Nat.dvd_mul_right _ q)
    have hhalf : 1024 * q / 2 ^ (k + 1) = r := by
      rw [hr, Nat.mul_div_cancel_left _ (Nat.two_pow_pos _)]
    have hfull : 1024 * q / 2 ^ k = 2 * r := by
      rw [hr, Nat.pow_succ, Nat.mul_assoc, Nat.mul_div_cancel_left _ (Nat.two_pow_pos _)]
    have hle : 2 * r ≤ 1024 * q := by
      rw [hr, Nat.pow_succ, Nat.mul_assoc]
      exact Nat.le_mul_of_pos_left _ (Nat.two_pow_pos k)
    rw [hhalf, hfull]
    by_cases h0 : r = 0
    · rw [h0, Nat.mul_zero] at hr
      omega
    · omega

/-- The managed range in blocks of order `k`. -/
theorem Managed.blocks (hm : Managed L base size) {k : Nat} (hk : k ≤ 10) :
    size = chunkBytes k * (size / pageSize / 2 ^ k) := by
  have hb : pageSize * 2 ^ k = chunkBytes k := by
    unfold chunkBytes
    exact Nat.mul_comm _ _
  rw [Nat.div_div_eq_div_mul, hb]
  exact (Nat.mul_div_cancel' (Nat.dvd_trans (chunkBytes_dvd hk) hm.size_dvd)).symm

theorem Managed.pages (hm : Managed L base size) : ∃ q, size / pageSize = 1024 * q := by
  obtain ⟨q, hq⟩ := hm.size_dvd
  rw [chunkBytes_ten] at hq
  refine ⟨q, ?_⟩
  rw [hq]
  unfold pageSize
  omega

/-- Where the bit of a block is, when no 32-bit value wraps. -/
theorem pairPos_eq {c k : Nat} (hm : Managed L base size) (hsize : size ≤ 2 ^ 44) (hk : k ≤ 10)
    (h1 : base ≤ c) (h2 : c < base + size) :
    pairPos base (size / pageSize) c k
      = size / pageSize - size / pageSize / 2 ^ k + (c - base) / chunkBytes (k + 1) := by
  obtain ⟨q, hq⟩ := hm.pages
  have hnp : size / pageSize ≤ 2 ^ 32 := by unfold pageSize; omega
  have hc := L.phys_lt c (hm.phys c h1 h2)
  unfold physTop at hc
  have hsub : sub64 c base = c - base := by unfold sub64; omega
  have hidx : (c - base) / 2 ^ (12 + k) < 2 ^ 32 := by
    calc (c - base) / 2 ^ (12 + k) ≤ (c - base) / 2 ^ 12 :=
          Nat.div_le_div_left (Nat.pow_le_pow_right (by omega) (by omega)) (by omega)
      _ < 2 ^ 32 := by omega
  have hoff : orderOffset (size / pageSize) k = size / pageSize - size / pageSize / 2 ^ k := by
    rw [hq]
    exact orderOffset_eq (by omega) hk
  -- the block index is below the number of blocks, so the sum stays below the number of pages
  have hblock : (c - base) / chunkBytes k < size / pageSize / 2 ^ k :=
    Nat.div_lt_of_lt_mul (by rw [← hm.blocks hk]; omega)
  have hpair : (c - base) / chunkBytes (k + 1) = (c - base) / chunkBytes k / 2 := by
    rw [Nat.div_div_eq_div_mul, chunkBytes_succ, Nat.mul_two]
  have hle : size / pageSize / 2 ^ k ≤ size / pageSize := Nat.div_le_self _ _
  unfold pairPos bitPos
  simp only [hsub, hoff, Nat.shiftRight_eq_div_pow, Nat.mod_eq_of_lt hidx, pow_one]
  rw [← chunkBytes_eq, hpair]
  generalize (c - base) / chunkBytes k = x at hblock
  generalize size / pageSize / 2 ^ k = r at hblock hle
  exact Nat.mod_eq_of_lt (by omega)

/-- A pair of blocks of order `k`, by its lower block. -/
structure PairAt (base size k c : Nat) : Prop where
  dvd : chunkBytes (k + 1) ∣ c
  ge : base ≤ c
  le : c + chunkBytes (k + 1) ≤ base + size

theorem pairAt_parent {c k : Nat} (hm : Managed L base size) (hk : k < 10)
    (hd : chunkBytes k ∣ c) (h1 : base ≤ c) (h2 : c + chunkBytes k ≤ base + size) :
    PairAt base size k (parent c k) := by
  have hb : chunkBytes (k + 1) ∣ base := Nat.dvd_trans (chunkBytes_dvd hk) hm.base_dvd
  have ht : chunkBytes (k + 1) ∣ base + size :=
    Nat.dvd_add hb (Nat.dvd_trans (chunkBytes_dvd hk) hm.size_dvd)
  have hsucc := chunkBytes_succ k
  have hpos := chunkBytes_pos k
  -- between two multiples of the pair's size there is room for the whole pair
  have hroom : ∀ p, chunkBytes (k + 1) ∣ p → base < p + chunkBytes (k + 1) → p < base + size →
      base ≤ p ∧ p + chunkBytes (k + 1) ≤ base + size := by
    intro p hdp hlo hhi
    exact ⟨Bits.le_of_dvd_near hb hdp hlo,
      Bits.le_of_dvd_near (Nat.dvd_add hdp (Nat.dvd_refl _)) ht (by omega)⟩
  rcases pair_cases hd with ⟨hp, hs, hdv⟩ | ⟨hp, hs, hdv⟩
  · obtain ⟨h3, h4⟩ := hroom c hdv (by omega) (by omega)
    rw [hp]
    exact ⟨hdv, h3, h4⟩
  · obtain ⟨h3, h4⟩ := hroom (sibling c k) hdv (by omega) (by omega)
    rw [hp]
    exact ⟨hdv, h3, h4⟩

/-- Either block of a pair determines it. -/
theorem parent_of_pair {c d k : Nat} (hd : chunkBytes (k + 1) ∣ d)
    (hc : c = d ∨ c = d + chunkBytes k) : parent c k = d := by
  have hpos := chunkBytes_pos k
  have hsucc := chunkBytes_succ k
  have hdk : chunkBytes k ∣ d := Nat.dvd_trans (chunkBytes_dvd (Nat.le_succ k)) hd
  have hck : chunkBytes k ∣ c := by
    rcases hc with rfl | rfl
    · exact hdk
    · exact Nat.dvd_add hdk (Nat.dvd_refl _)
  rcases pair_cases hck with ⟨hp, hs, hdv⟩ | ⟨hp, hs, hdv⟩
  · rw [hp]
    exact Bits.eq_of_dvd_near hdv hd (by omega) (by omega)
  · rw [hp]
    exact Bits.eq_of_dvd_near hdv hd (by omega) (by omega)

/-- Both blocks of a pair have the same bit, also where the positions wrap around. -/
theorem pairPos_parent {c k : Nat} (hm : Managed L base size) (hk : k < 10)
    (hd : chunkBytes k ∣ c) (h1 : base ≤ c) (h2 : c + chunkBytes k ≤ base + size) :
    pairPos base (size / pageSize) c k = pairPos base (size / pageSize) (parent c k) k := by
  have hpair := pairAt_parent hm hk hd h1 h2
  have hpos := chunkBytes_pos k
  rcases pair_cases hd with ⟨hp, -, -⟩ | ⟨hp, hs, hdv⟩
  · rw [hp]
  · rw [hp] at hpair ⊢
    have hge := hpair.ge
    -- the upper block is half a pair above a multiple of the pair's size
    obtain ⟨x, hx⟩ : chunkBytes (k + 1) ∣ sibling c k - base :=
      Nat.dvd_sub hdv (Nat.dvd_trans (chunkBytes_dvd hk) hm.base_dvd)
    have hlow : sibling c k - base = chunkBytes k * (2 * x) := by
      rw [hx, chunkBytes_succ, ← Nat.two_mul, Nat.mul_comm 2, Nat.mul_assoc]
    have hhigh : c - base = chunkBytes k * (2 * x + 1) := by
      rw [Nat.mul_add, Nat.mul_one, ← hlow]
      omega
    have htop := hm.top_lt h1 hpos h2
    unfold pairPos bitPos
    rw [show sub64 c base = c - base by unfold sub64; omega,
      show sub64 (sibling c k) base = sibling c k - base by unfold sub64; omega,
      hhigh, hlow]
    simp only [Nat.shiftRight_eq_div_pow, ← chunkBytes_eq, Nat.mul_div_cancel_left _ hpos]
    omega

/-- The sibling of a block is a block of the range, in the same pair and with the same bit. -/
theorem sibling_spec {c k : Nat} (hm : Managed L base size) (hk : k < 10)
    (hd : chunkBytes k ∣ c) (h1 : base ≤ c) (h2 : c + chunkBytes k ≤ base + size) :
    chunkBytes k ∣ sibling c k ∧ base ≤ sibling c k ∧
      sibling c k + chunkBytes k ≤ base + size ∧ sibling (sibling c k) k = c ∧
      pairPos base (size / pageSize) (sibling c k) k = pairPos base (size / pageSize) c k := by
  have hp := pairAt_parent hm hk hd h1 h2
  have hpos := chunkBytes_pos k
  have hsucc := chunkBytes_succ k
  have hinv : sibling (sibling c k) k = c := by
    unfold sibling
    rw [Nat.xor_assoc, Nat.xor_self, Nat.xor_zero]
  have hsib : sibling c k = parent c k ∨ sibling c k = parent c k + chunkBytes k := by
    rcases pair_cases hd with ⟨h3, h4, -⟩ | ⟨h3, -, -⟩
    · exact Or.inr (by rw [h3]; exact h4)
    · exact Or.inl h3.symm
  have hpk : chunkBytes k ∣ parent c k := Nat.dvd_trans (chunkBytes_dvd (Nat.le_succ k)) hp.dvd
  have hsd : chunkBytes k ∣ sibling c k := by
    rcases hsib with h3 | h3
    · rw [h3]; exact hpk
    · rw [h3]; exact Nat.dvd_add hpk (Nat.dvd_refl _)
  have hge := hp.ge
  have hle := hp.le
  have hs1 : base ≤ sibling c k := by omega
  have hs2 : sibling c k + chunkBytes k ≤ base + size := by omega
  refine ⟨hsd, hs1, hs2, hinv, ?_⟩
  rw [pairPos_parent hm hk hsd hs1 hs2, pairPos_parent hm hk hd h1 h2,
    parent_of_pair hp.dvd hsib]

/-- The bits of one order end before those of the next begin. -/
theorem pairPos_lt_of_order_lt {c d j k : Nat} (hm : Managed L base size)
    (hsize : size ≤ 2 ^ 44) (hkj : k < j) (hj : j ≤ 10) (hc : PairAt base size k c)
    (h1 : base ≤ d) (h2 : d < base + size) :
    pairPos base (size / pageSize) c k < pairPos base (size / pageSize) d j := by
  have hpos := chunkBytes_pos (k + 1)
  have hcge := hc.ge
  have hcle := hc.le
  rw [pairPos_eq hm hsize (by omega) hcge (by omega), pairPos_eq hm hsize hj h1 h2]
  have hx : (c - base) / chunkBytes (k + 1) < size / pageSize / 2 ^ (k + 1) :=
    Nat.div_lt_of_lt_mul (by rw [← hm.blocks (show k + 1 ≤ 10 by omega)]; omega)
  have hhalf : size / pageSize / 2 ^ k = 2 * (size / pageSize / 2 ^ (k + 1)) := by
    have hk := hm.blocks (show k ≤ 10 by omega)
    have hk1 := hm.blocks (show k + 1 ≤ 10 by omega)
    rw [chunkBytes_succ, ← Nat.two_mul, Nat.mul_comm 2, Nat.mul_assoc] at hk1
    exact Nat.eq_of_mul_eq_mul_left (chunkBytes_pos k) (hk.symm.trans hk1)
  have hmono : size / pageSize / 2 ^ j ≤ size / pageSize / 2 ^ (k + 1) :=
    Nat.div_le_div_left (Nat.pow_le_pow_right (by omega) hkj) (Nat.two_pow_pos _)
  have hle : size / pageSize / 2 ^ k ≤ size / pageSize := Nat.div_le_self _ _
  generalize (c - base) / chunkBytes (k + 1) = x at hx
  generalize (d - base) / chunkBytes (j + 1) = y
  generalize size / pageSize / 2 ^ k = r at hhalf hle
  generalize size / pageSize / 2 ^ (k + 1) = r₁ at hx hhalf hmono
  generalize size / pageSize / 2 ^ j = r₂ at hmono
  omega

/-- **Different pairs have different bits.** -/
theorem pairPos_inj {c d j k : Nat} (hm : Managed L base size) (hsize : size ≤ 2 ^ 44)
    (hk : k < 10) (hc : PairAt base size k c) (hj : j < 10) (hd : PairAt base size j d)
    (heq : pairPos base (size / pageSize) c k = pairPos base (size / pageSize) d j) :
    k = j ∧ c = d := by
  have hkpos := chunkBytes_pos (k + 1)
  have hjpos := chunkBytes_pos (j + 1)
  have hcle := hc.le
  have hdle := hd.le
  rcases Nat.lt_trichotomy k j with hlt | rfl | hlt
  · have := pairPos_lt_of_order_lt hm hsize hlt (by omega) hc hd.ge (by omega)
    omega
  · refine ⟨rfl, ?_⟩
    rw [pairPos_eq hm hsize (by omega) hc.ge (by omega),
      pairPos_eq hm hsize (by omega) hd.ge (by omega)] at heq
    have hbase : chunkBytes (k + 1) ∣ base := Nat.dvd_trans (chunkBytes_dvd hk) hm.base_dvd
    obtain ⟨x, hx⟩ := Nat.dvd_sub hc.dvd hbase
    obtain ⟨y, hy⟩ := Nat.dvd_sub hd.dvd hbase
    rw [hx, hy, Nat.mul_div_cancel_left _ hkpos, Nat.mul_div_cancel_left _ hkpos] at heq
    obtain rfl : x = y := by omega
    have h1 := hc.ge
    have h2 := hd.ge
    omega
  · have := pairPos_lt_of_order_lt hm hsize hlt (by omega) hd hc.ge (by omega)
    omega

/-! ## The meaning of the bits -/

/-- For every pair of an order below 10: the bit is set iff exactly one of its blocks is on the
list, and never are both. -/
def BitInv (base size : Nat) (h : Heap) : Prop :=
  ∀ k, k < 10 → ∀ c, PairAt base size k c →
    (h.bit (pairPos base (size / pageSize) c k) = true ↔
      Xor (c ∈ h.free k) (c + chunkBytes k ∈ h.free k)) ∧
    ¬ (c ∈ h.free k ∧ c + chunkBytes k ∈ h.free k)

/-- Bits and lists of orders below 10 are all that counts. -/
theorem BitInv.congr {h' : Heap} (hb : BitInv base size h)
    (hfree : ∀ k, k < 10 → h'.free k = h.free k)
    (hbit : ∀ k, k < 10 → ∀ c, PairAt base size k c →
      h'.bit (pairPos base (size / pageSize) c k) = h.bit (pairPos base (size / pageSize) c k)) :
    BitInv base size h' := by
  intro k hk c hc
  rw [hfree k hk, hbit k hk c hc]
  exact hb k hk c hc

/-- **One pair changes**: a block `c` of order `k` enters or leaves its list and the pair's bit is
flipped. The pair is shown right by itself (`hpair`), the others did not move. -/
theorem BitInv.flip_pair {h' : Heap} {c k : Nat} (hm : Managed L base size)
    (hsize : size ≤ 2 ^ 44) (hk : k < 10) (hd : chunkBytes k ∣ c) (h1 : base ≤ c)
    (h2 : c + chunkBytes k ≤ base + size) (hb : BitInv base size h)
    (hother : ∀ j, j < 10 → j ≠ k → h'.free j = h.free j)
    (hsame : ∀ a, a ≠ c → a ≠ sibling c k → (a ∈ h'.free k ↔ a ∈ h.free k))
    (hbit : h'.bit = Function.update h.bit (pairPos base (size / pageSize) c k)
      (!h.bit (pairPos base (size / pageSize) c k)))
    (hpair : (h'.bit (pairPos base (size / pageSize) c k) = true ↔
      Xor (c ∈ h'.free k) (sibling c k ∈ h'.free k)) ∧
      ¬ (c ∈ h'.free k ∧ sibling c k ∈ h'.free k)) : BitInv base size h' := by
  have hp := pairAt_parent hm hk hd h1 h2
  have hpp := pairPos_parent hm hk hd h1 h2
  intro j hj d hdp
  by_cases hsel : j = k ∧ d = parent c k
  · obtain ⟨rfl, rfl⟩ := hsel
    rw [← hpp]
    rcases pair_cases hd with ⟨hpar, hs, -⟩ | ⟨hpar, hs, -⟩
    · rw [hpar, ← hs]
      exact hpair
    · rw [hpar, ← hs, xor_comm]
      exact ⟨hpair.1, fun hh => hpair.2 hh.symm⟩
  · have hpos : pairPos base (size / pageSize) d j ≠ pairPos base (size / pageSize) c k := by
      intro heq
      rw [hpp] at heq
      exact hsel (pairPos_inj hm hsize hj hdp hk hp heq)
    have hold := hb j hj d hdp
    rw [hbit, Function.update_of_ne hpos]
    by_cases hjk : j = k
    · subst hjk
      have hne : d ≠ parent c j := fun he => hsel ⟨rfl, he⟩
      -- a block of another pair is neither `c` nor its sibling
      have hnot : ∀ a, a = d ∨ a = d + chunkBytes j → a ≠ c ∧ a ≠ sibling c j := by
        intro a ha
        constructor
        · rintro rfl
          exact hne (parent_of_pair hdp.dvd ha).symm
        · intro has
          have hc : c = parent c j ∨ c = parent c j + chunkBytes j := by
            rcases pair_cases hd with ⟨h3, -, -⟩ | ⟨h3, h4, -⟩
            · exact Or.inl h3.symm
            · exact Or.inr (by rw [h3]; exact h4)
          have hsib : sibling c j = parent c j ∨ sibling c j = parent c j + chunkBytes j := by
            rcases pair_cases hd with ⟨h3, h4, -⟩ | ⟨h3, -, -⟩
            · exact Or.inr (by rw [h3]; exact h4)
            · exact Or.inl h3.symm
          have e1 := parent_of_pair hp.dvd hsib
          have e2 := parent_of_pair hdp.dvd ha
          rw [has, e1] at e2
          exact hne e2.symm
      rw [hsame d (hnot d (Or.inl rfl)).1 (hnot d (Or.inl rfl)).2,
        hsame _ (hnot _ (Or.inr rfl)).1 (hnot _ (Or.inr rfl)).2]
      exact hold
    · rw [hother j hj hjk]
      exact hold

/-- The meaning of the bit, read at either block of the pair. -/
theorem BitInv.at_block {c k : Nat} (hm : Managed L base size) (hk : k < 10)
    (hd : chunkBytes k ∣ c) (h1 : base ≤ c) (h2 : c + chunkBytes k ≤ base + size)
    (hb : BitInv base size h) :
    (h.bit (pairPos base (size / pageSize) c k) = true ↔
      Xor (c ∈ h.free k) (sibling c k ∈ h.free k)) ∧
    ¬ (c ∈ h.free k ∧ sibling c k ∈ h.free k) := by
  have hp := hb k hk _ (pairAt_parent hm hk hd h1 h2)
  rw [pairPos_parent hm hk hd h1 h2]
  rcases pair_cases hd with ⟨hpar, hs, -⟩ | ⟨hpar, hs, -⟩
  · rw [hpar, ← hs] at hp
    rw [hpar]
    exact hp
  · rw [hpar, ← hs, xor_comm] at hp
    rw [hpar]
    exact ⟨hp.1, fun hh => hp.2 hh.symm⟩

/-- A block is taken off its list and the pair's bit flipped. -/
theorem BitInv.take_flip {c k : Nat} (hm : Managed L base size) (hsize : size ≤ 2 ^ 44)
    (hk : k < 10) (hp : Packed R h.free own) (h1 : base ≤ c) (h2 : c + chunkBytes k ≤ base + size)
    (hb : BitInv base size h) (hc : c ∈ h.free k) :
    BitInv base size ((h.drop k c).flip (pairPos base (size / pageSize) c k)) := by
  have hmem : (⟨c, k⟩ : Chunk) ∈ freeChunks h.free + own :=
    Multiset.mem_add.mpr (Or.inl (mem_freeChunks.mpr ⟨by simp only; omega, hc⟩))
  have hd : chunkBytes k ∣ c := (hp.aligned _ hmem).2
  obtain ⟨hold, hnot⟩ := hb.at_block hm hk hd h1 h2
  have hs : sibling c k ∉ h.free k := fun hs => hnot ⟨hc, hs⟩
  have hnd := hp.nodup (show k ≤ 10 by omega)
  have hfree : (h.drop k c).free k = (h.free k).erase c := by simp [Heap.drop]
  have hc' : c ∉ (h.drop k c).free k := by rw [hfree]; exact hnd.not_mem_erase
  have hs' : sibling c k ∉ (h.drop k c).free k := by
    rw [hfree]
    exact fun hh => hs (List.mem_of_mem_erase hh)
  refine hb.flip_pair hm hsize hk hd h1 h2 ?_ ?_ rfl ?_
  · intro j _ hjk
    simp [Heap.drop, Heap.flip, Function.update_of_ne hjk]
  · intro a ha _
    rw [Heap.flip_free, hfree]
    exact List.mem_erase_of_ne ha
  · rw [Heap.flip_free]
    refine ⟨?_, fun hh => hc' hh.1⟩
    have hbit : h.bit (pairPos base (size / pageSize) c k) = true :=
      hold.mpr (Or.inl ⟨hc, hs⟩)
    simp [Heap.flip, hbit, hc', hs']

/-- A block goes to its list, its sibling not being there, and the pair's bit is flipped. -/
theorem BitInv.give_flip {c k : Nat} (hm : Managed L base size) (hsize : size ≤ 2 ^ 44)
    (hk : k < 10) (hd : chunkBytes k ∣ c) (h1 : base ≤ c)
    (h2 : c + chunkBytes k ≤ base + size) (hb : BitInv base size h) (hc : c ∉ h.free k)
    (hs : sibling c k ∉ h.free k) :
    BitInv base size ((h.push k c).flip (pairPos base (size / pageSize) c k)) := by
  obtain ⟨hold, -⟩ := hb.at_block hm hk hd h1 h2
  have hfree : (h.push k c).free k = c :: h.free k := by simp [Heap.push]
  have hsc : sibling c k ≠ c := by
    have hpos := chunkBytes_pos k
    rcases pair_cases hd with ⟨-, h4, -⟩ | ⟨-, h4, -⟩ <;> omega
  have hs' : sibling c k ∉ (h.push k c).free k := by
    rw [hfree]
    simp [hs, hsc]
  refine hb.flip_pair hm hsize hk hd h1 h2 ?_ ?_ rfl ?_
  · intro j _ hjk
    simp [Heap.push, Heap.flip, Function.update_of_ne hjk]
  · intro a ha _
    rw [Heap.flip_free, hfree]
    simp [ha]
  · rw [Heap.flip_free]
    refine ⟨?_, fun hh => hs' hh.2⟩
    have hbit : h.bit (pairPos base (size / pageSize) c k) = false := by
      rw [← Bool.not_eq_true, hold]
      simp [hc, hs]
    simp [Heap.flip, hbit, hfree, hsc, hs]

/-- The bit of a block of the largest order is the bit of no pair. -/
theorem BitInv.flip_ten {c : Nat} (hm : Managed L base size) (hsize : size ≤ 2 ^ 44)
    (h1 : base ≤ c) (h2 : c + chunkBytes 10 ≤ base + size) (hb : BitInv base size h) :
    BitInv base size (h.flip (pairPos base (size / pageSize) c 10)) := by
  have hpos := chunkBytes_pos 10
  refine hb.congr (fun k _ => rfl) (fun k hk d hd => ?_)
  have hlt := pairPos_lt_of_order_lt hm hsize hk (Nat.le_refl 10) hd h1 (by omega)
  exact Function.update_of_ne (Nat.ne_of_lt hlt) _ _

/-! ## The operations keep it -/

/-- **A free keeps the meaning of the bits, and its merges are sound.** The induction is the
merge loop: the block in hand is on no list, so its pair's bit says whether the sibling is. -/
theorem BitInv.merge (hm : Managed L base size) (hsize : size ≤ 2 ^ 44) :
    ∀ {n c k : Nat} {h : Heap}, Packed R h.free (⟨c, k⟩ ::ₘ own) → base ≤ c →
      c + chunkBytes k ≤ base + size → k + n = 10 → BitInv base size h →
      MergeSound (pairPos base (size / pageSize)) (fun j a => a ∈ h.free j) n h.bit c k ∧
      BitInv base size
        ((Heap.merge (pairPos base (size / pageSize)) n c k h).2.push
          (Heap.merge (pairPos base (size / pageSize)) n c k h).1.order
          (Heap.merge (pairPos base (size / pageSize)) n c k h).1.addr)
  | 0, c, k, h, hp, _, _, hn, hb => by
    obtain rfl : k = 10 := by omega
    refine ⟨trivial, hb.congr (fun j hj => ?_) (fun _ _ _ _ => rfl)⟩
    show Function.update h.free 10 (c :: h.free 10) j = h.free j
    exact Function.update_of_ne (by omega) _ _
  | n + 1, c, k, h, hp, h1, h2, hn, hb => by
    have hk : k < 10 := by omega
    obtain ⟨-, hd⟩ := hp.aligned ⟨c, k⟩ (by simp)
    have hc : c ∉ h.free k := hp.own_not_free (by omega)
    obtain ⟨hbit, -⟩ := hb.at_block hm hk hd h1 h2
    obtain ⟨-, hs1, hs2, hinv, hspos⟩ := sibling_spec hm hk hd h1 h2
    have hpair := pairAt_parent hm hk hd h1 h2
    unfold Heap.merge
    by_cases hset : h.bit (pairPos base (size / pageSize) c k) = true
    · -- the sibling is on the list: it leaves, and the pair's bit is cleared
      have hs : sibling c k ∈ h.free k := by
        rcases hbit.mp hset with ⟨h3, -⟩ | ⟨h3, -⟩
        · exact absurd h3 hc
        · exact h3
      have hb' : BitInv base size
          ((h.flip (pairPos base (size / pageSize) c k)).drop k (sibling c k)) := by
        have := hb.take_flip hm hsize hk hp hs1 hs2 hs
        rw [hspos] at this
        exact this
      have htake := hp.take (show k ≤ 10 by omega) hs
      rw [Multiset.cons_swap] at htake
      have hjoin : Packed R
          ((h.flip (pairPos base (size / pageSize) c k)).drop k (sibling c k)).free
          (⟨parent c k, k + 1⟩ ::ₘ own) := htake.join hk
      obtain ⟨hsound, hbits⟩ := BitInv.merge hm hsize hjoin hpair.ge hpair.le
        (show k + 1 + n = 10 by omega) hb'
      rw [if_neg (by simp [hset])]
      refine ⟨fun _ => ⟨hs, hsound.mono (fun j a _ _ ha => ?_)⟩, hbits⟩
      by_cases hjk : j = k
      · subst hjk
        exact List.mem_of_mem_erase (by simpa [Heap.drop] using ha)
      · simpa [Heap.drop, Function.update_of_ne hjk] using ha
    · have hs : sibling c k ∉ h.free k := fun hs => hset (hbit.mpr (Or.inr ⟨hs, hc⟩))
      rw [if_pos (by simpa using hset)]
      exact ⟨fun h3 => absurd h3 hset, hb.give_flip hm hsize hk hd h1 h2 hc hs⟩

theorem BitInv.release {c order : Nat} (hm : Managed L base size) (hsize : size ≤ 2 ^ 44)
    (horder : order ≤ 10) (hp : Packed R h.free (⟨c, order⟩ ::ₘ own)) (h1 : base ≤ c)
    (h2 : c + chunkBytes order ≤ base + size) (hb : BitInv base size h) :
    MergeSound (pairPos base (size / pageSize)) (fun j a => a ∈ h.free j) (10 - order) h.bit c
      order ∧
    BitInv base size (Heap.release (pairPos base (size / pageSize)) c order h) := by
  unfold Heap.release
  by_cases h10 : order = 10
  · subst h10
    rw [if_pos rfl]
    refine ⟨trivial, ?_⟩
    exact (BitInv.merge (h := h.flip (pairPos base (size / pageSize) c 10)) hm hsize hp h1 h2 rfl
      (hb.flip_ten hm hsize h1 h2)).2
  · rw [if_neg h10]
    exact BitInv.merge hm hsize hp h1 h2 (by omega) hb

/-- **An allocation keeps the meaning of the bits** when its block comes from the list of its own
order, or from one split of a block of the largest order. -/
theorem BitInv.alloc {order c j : Nat} (hm : Managed L base size) (hsize : size ≤ 2 ^ 44)
    (hj : j ≤ 10) (hp : Partition base size h.free own) (hb : BitInv base size h)
    (hc : c ∈ h.free j) (hown : j = order ∨ (j = 10 ∧ order = 9)) :
    BitInv base size ((Heap.split c order j (h.drop j c)).flip
      (pairPos base (size / pageSize) c order)) := by
  have hmem : (⟨c, j⟩ : Chunk) ∈ freeChunks h.free + own :=
    Multiset.mem_add.mpr (Or.inl (mem_freeChunks.mpr ⟨hj, hc⟩))
  obtain ⟨h1, h2⟩ := hp.inside hmem
  have hd : chunkBytes j ∣ c := (hp.aligned _ hmem).2
  simp only at h1 h2
  have hten : j = 10 → BitInv base size (h.drop j c) := by
    rintro rfl
    refine hb.congr (fun k hk => ?_) (fun _ _ _ _ => rfl)
    show Function.update h.free 10 ((h.free 10).erase c) k = h.free k
    exact Function.update_of_ne (by omega) _ _
  rcases hown with rfl | ⟨rfl, rfl⟩
  · -- no split at all
    have hsplit : Heap.split c j j (h.drop j c) = h.drop j c := by
      cases j with
      | zero => rfl
      | succ j => exact if_neg (by omega)
    rw [hsplit]
    by_cases h10 : j = 10
    · subst h10
      exact (hten rfl).flip_ten hm hsize h1 h2
    · exact hb.take_flip hm hsize (by omega) hp.packed h1 h2 hc
  · -- one split: the upper half goes to list 9
    have hsplit : Heap.split c 9 10 (h.drop 10 c) = (h.drop 10 c).push 9 (c + chunkBytes 9) := by
      unfold Heap.split
      rw [if_pos (by decide)]
      exact if_neg (by decide)
    rw [hsplit]
    have hsucc : chunkBytes 10 = chunkBytes 9 + chunkBytes 9 := chunkBytes_succ 9
    have hd9 : chunkBytes 9 ∣ c := Nat.dvd_trans (chunkBytes_dvd (by omega)) hd
    obtain ⟨hsd, hs1, hs2, hinv, hspos⟩ := sibling_spec hm (show 9 < 10 by omega) hd9 h1
      (by omega)
    have hsib : sibling c 9 = c + chunkBytes 9 := by
      have hpar : parent c 9 = c := parent_of_pair hd (Or.inl rfl)
      rcases pair_cases hd9 with ⟨-, h3, -⟩ | ⟨h3, h4, -⟩
      · exact h3
      · have := chunkBytes_pos 9
        omega
    -- neither half is on list 9 while the whole block is owned
    have hnine : ∀ a, c ≤ a → a < c + chunkBytes 10 → a ∉ (h.drop 10 c).free 9 := by
      intro a ha1 ha2 ha
      have hpos := chunkBytes_pos 9
      rcases (hp.take hj hc).own_apart (c := ⟨c, 10⟩) (Multiset.mem_cons_self _ _)
        (show 9 ≤ 10 by omega) ha with h3 | h3
      · simp only at h3; omega
      · simp only at h3; omega
    have hpos := chunkBytes_pos 9
    have hgive := (hten rfl).give_flip hm hsize (show 9 < 10 by omega) hsd hs1 hs2
      (hnine _ (by omega) (by omega)) (by rw [hinv]; exact hnine c (by omega) (by omega))
    rw [hspos, hsib] at hgive
    exact hgive

/-- When everything is free no list below order 10 has a block: the smallest such block would
have its sibling's memory in a free block, which is the sibling or contains both. -/
theorem BitInv.small_empty (hm : Managed L base size) (hb : BitInv base size h)
    (hp : Partition base size h.free 0) :
    ∀ {k : Nat}, k < 10 → h.free k = [] := by
  intro k
  induction k using Nat.strong_induction_on with
  | _ k ih =>
    intro hk
    by_contra hne
    obtain ⟨c, hc⟩ := List.exists_mem_of_ne_nil _ hne
    have hmem : (⟨c, k⟩ : Chunk) ∈ freeChunks h.free + 0 :=
      Multiset.mem_add.mpr (Or.inl (mem_freeChunks.mpr ⟨by simp only; omega, hc⟩))
    obtain ⟨h1, h2⟩ := hp.inside hmem
    have hd : chunkBytes k ∣ c := (hp.aligned _ hmem).2
    simp only at h1 h2
    obtain ⟨hsd, hs1, hs2, -, -⟩ := sibling_spec hm hk hd h1 h2
    have hpos := chunkBytes_pos k
    obtain ⟨⟨a, j⟩, had, hcov⟩ :=
      hp.tiles.exists_covers hs1 (show sibling c k < base + size by omega)
    obtain ⟨hcov1, hcov2⟩ := hcov
    have haj := hp.aligned _ had
    obtain ⟨hj, haf⟩ := mem_freeChunks.mp ((Multiset.mem_add.mp had).resolve_right (by simp))
    simp only [Chunk.len] at hcov1 hcov2 haj hj haf
    rcases Nat.lt_trichotomy j k with hlt | rfl | hgt
    · rw [ih j hlt (by omega)] at haf
      exact absurd haf (by simp)
    · -- the sibling itself is free
      have heq : a = sibling c j := Bits.eq_of_dvd_near haj.2 hsd (by omega) (by omega)
      exact (hb.at_block hm hk hd h1 h2).2 ⟨hc, heq ▸ haf⟩
    · -- a larger free block contains the whole pair
      have hpd := parent_dvd hd
      have hsucc := chunkBytes_succ k
      have hpair : parent c k ≤ c ∧ c < parent c k + chunkBytes (k + 1) ∧
          parent c k ≤ sibling c k ∧ sibling c k < parent c k + chunkBytes (k + 1) := by
        rcases pair_cases hd with ⟨h3, h4, -⟩ | ⟨h3, h4, -⟩ <;> omega
      have haB : chunkBytes (k + 1) ∣ a := Nat.dvd_trans (chunkBytes_dvd hgt) haj.2
      have haB' : chunkBytes (k + 1) ∣ a + chunkBytes j := Nat.dvd_add haB (chunkBytes_dvd hgt)
      have hlo : a ≤ parent c k := Bits.le_of_dvd_near haB hpd (by omega)
      have hhi : parent c k + chunkBytes (k + 1) ≤ a + chunkBytes j :=
        Bits.le_of_dvd_near (Nat.dvd_add hpd (Nat.dvd_refl _)) haB' (by omega)
      have heq := hp.packed.packs.eq_of_covers (p := c) hmem had
        ⟨Nat.le_refl _, Nat.lt_add_of_pos_right hpos⟩
        ⟨by simp only; omega, by simp only [Chunk.len]; omega⟩
      have : k = j := congrArg Chunk.order heq
      omega

theorem mem_blockRow {k : Nat} : ∀ {cur n a : Nat}, chunkBytes k ∣ cur → chunkBytes k ∣ a →
    cur ≤ a → a < cur + n * chunkBytes k → a ∈ blockRow k cur n
  | cur, 0, a, _, _, h1, h2 => by omega
  | cur, n + 1, a, hc, ha, h1, h2 => by
    rw [Nat.succ_mul] at h2
    by_cases hlt : a < cur + chunkBytes k
    · rw [show a = cur from Bits.eq_of_dvd_near ha hc hlt (by have := chunkBytes_pos k; omega)]
      simp [blockRow]
    · exact List.mem_cons_of_mem _ (mem_blockRow (Nat.dvd_add hc (Nat.dvd_refl _)) ha
        (by omega) (by omega))

/-- **When everything is free, the lists are the initial ones**, up to the order of list 10. -/
theorem BitInv.all_free (hm : Managed L base size) (hb : BitInv base size h)
    (hp : Partition base size h.free 0) {k : Nat} (hk : k ≤ 10) :
    (h.free k).Perm (initFree base size k) := by
  by_cases hk' : k < 10
  · rw [hb.small_empty hm hp hk']
    unfold initFree
    rw [Function.update_of_ne (by omega)]
  · obtain rfl : k = 10 := by omega
    have hpos := chunkBytes_pos 10
    have hwhole : size / chunkBytes 10 * chunkBytes 10 = size := Nat.div_mul_cancel hm.size_dvd
    have hinit : initFree base size 10 = blockRow 10 base (size / chunkBytes 10) := by
      unfold initFree
      rw [Function.update_self]
    refine (List.perm_ext_iff_of_nodup (hp.nodup hk) ((partition_init hm).nodup hk)).mpr ?_
    intro a
    rw [hinit]
    constructor
    · intro ha
      have hmem : (⟨a, 10⟩ : Chunk) ∈ freeChunks h.free + 0 :=
        Multiset.mem_add.mpr (Or.inl (mem_freeChunks.mpr ⟨hk, ha⟩))
      obtain ⟨h1, h2⟩ := hp.inside hmem
      simp only at h1 h2
      exact mem_blockRow hm.base_dvd (hp.aligned _ hmem).2 h1 (by rw [hwhole]; omega)
    · intro ha
      obtain ⟨h1, h2⟩ := blockRow_ge ha
      rw [hwhole] at h2
      have had := blockRow_dvd (Nat.le_refl 10) hm.base_dvd ha
      -- the free block at `a` can only be of order 10
      obtain ⟨⟨b, j⟩, hbd, hcov⟩ := hp.tiles.exists_covers h1 h2
      obtain ⟨hcov1, hcov2⟩ := hcov
      obtain ⟨hj, hbf⟩ := mem_freeChunks.mp ((Multiset.mem_add.mp hbd).resolve_right (by simp))
      have hbd' := (hp.aligned _ hbd).2
      simp only [Chunk.len] at hcov1 hcov2 hj hbf hbd'
      by_cases hj' : j < 10
      · rw [hb.small_empty hm hp hj'] at hbf
        exact absurd hbf (by simp)
      · obtain rfl : j = 10 := by omega
        rw [Bits.eq_of_dvd_near had hbd' (by omega) (by omega)]
        exact hbf

end Buddy
end MikroKernel
