import MikroKernel.Proof.Buddy.Steps

/-!
# Freeing in a ragged tail

`__init_buddy` cuts its range down to whole pages, not to whole 4MB blocks, and carves the rest of
the range into one block for each binary digit. Such a block has no sibling: the other half of its
pair is past the end of the range. `toggle_bitmap` has a bit for the pair all the same, and
`buddy_kfree` believes it.

`mergeBlocks` is the list of the blocks a free touches, and `freesInside_iff` says for which
requests the first block given out and given back stays inside the range: those that are not served
by a tail block of their own order, unless the bitmap was not cleared there and what was found in it
happens to hide this.
-/

set_option autoImplicit false

namespace MikroKernel
namespace Buddy

open Tiling

variable {L : Layout} {s s' : KState} {base size np : Nat} {h : Heap} {own : Multiset Chunk}

attribute [local irreducible] chunkBytes

/-! ## What a free touches -/

/-- The blocks that `mergeLoop` touches, in order: each buddy it is about to unlink, read before it
is known to be free, and last the block it leaves for the insertion. -/
def mergeBlocks : Nat → Nat → Nat → Layout → KState → List Chunk
  | 0, chunk, order, _, _ => [⟨chunk, order⟩]
  | n + 1, chunk, order, L, s =>
      match toggleBitmap chunk order L s with
      | .error _ => []
      | .ok (bit, s₁) =>
          if bit ≠ 0 then [⟨chunk, order⟩]
          else
            let buddy := chunk ^^^ chunkBytes order
            ⟨buddy, order⟩ :: match locked .buddyLock (unlinkSection buddy chunk order) L s₁ with
              | .error _ => []
              | .ok (joined, s₂) => mergeBlocks n joined (order + 1) L s₂

/-- `buddy_kfree` up to its loop: the largest order and the block's own. -/
def kfreeOrders (chunk size : Nat) : K (Nat × Nat) := do
  let metadata ← kernelEnd
  let wanted ← selectOrder size
  let maxOrder ← load metadata .maxOrder
  let order := if wanted > maxOrder then maxOrder else wanted
  if order = maxOrder then do
    let _ ← toggleBitmap chunk order
  pure (maxOrder, order)

/-- The blocks that `buddy_kfree(chunk, size)` touches. -/
def kfreeBlocks (chunk size : Nat) (L : Layout) (s : KState) : List Chunk :=
  if chunk = 0 ∨ size = 0 then []
  else
    match kfreeOrders chunk size L s with
    | .error _ => []
    | .ok (orders, s₁) => mergeBlocks (orders.1 - orders.2) chunk orders.2 L s₁

theorem buddyKfree_eq (chunk size : Nat) : buddyKfree chunk size =
    if chunk = 0 ∨ size = 0 then pure () else (do
      let orders ← kfreeOrders chunk size
      let joined ← mergeLoop (orders.1 - orders.2) chunk orders.2
      locked .buddyLock (insertSection joined.1 joined.2)) := by
  unfold buddyKfree kfreeOrders
  split
  · rfl
  · simp only [K.bind_assoc']
    congr 1
    funext metadata
    congr 1
    funext wanted
    congr 1
    funext maxOrder
    by_cases horder : (if wanted > maxOrder then maxOrder else wanted) = maxOrder
    · simp only [if_pos horder, K.bind_assoc', K.pure_bind']
    · simp only [if_neg horder, K.pure_bind']

/-- The last of them is the block the loop returns. -/
theorem mergeBlocks_last : ∀ {n c k : Nat} {s : KState} {r : Nat × Nat}, mergeLoop n c k L s
    = .ok (r, s') →
    (mergeBlocks n c k L s).getLast? = some ⟨r.1, r.2⟩
  | 0, c, k, s, r, hrun => by
    obtain ⟨rfl, -⟩ := Prod.mk.inj (Except.ok.inj hrun)
    rfl
  | n + 1, c, k, s, r, hrun => by
    unfold mergeLoop at hrun
    obtain ⟨bit, s₁, htoggle, hrest⟩ := K.bind_eq_ok.mp hrun
    unfold mergeBlocks
    simp only [htoggle]
    by_cases hbit : bit ≠ 0
    · rw [if_pos hbit] at hrest ⊢
      obtain ⟨rfl, -⟩ := Prod.mk.inj (Except.ok.inj hrest)
      rfl
    · rw [if_neg hbit] at hrest ⊢
      obtain ⟨joined, s₂, hunlink, hloop⟩ := K.bind_eq_ok.mp hrest
      simp only [hunlink]
      rw [List.getLast?_cons, mergeBlocks_last hloop]
      rfl

/-- **The last block a free touches is the one it puts on a list.** -/
theorem buddyKfree_inserts {chunk sz : Nat} (h0 : ¬ (chunk = 0 ∨ sz = 0))
    (hrun : buddyKfree chunk sz L s = .ok ((), s')) :
    ∃ b s₁, (kfreeBlocks chunk sz L s).getLast? = some b ∧
      locked .buddyLock (insertSection b.addr b.order) L s₁ = .ok ((), s') := by
  rw [buddyKfree_eq, if_neg h0] at hrun
  obtain ⟨orders, s₁, horders, hrun⟩ := K.bind_eq_ok.mp hrun
  obtain ⟨joined, s₂, hloop, hinsert⟩ := K.bind_eq_ok.mp hrun
  refine ⟨⟨joined.1, joined.2⟩, s₂, ?_, hinsert⟩
  unfold kfreeBlocks
  rw [if_neg h0, horders]
  exact mergeBlocks_last hloop

/-- A set bit, seen from the round that clears it: the buddy is touched. -/
theorem mergeBlocks_buddy {n c k : Nat} (hs : Ready s) (hr : Rep L s.mem base np h) (hk : k ≤ 10)
    (hbit : h.bit (pairPos base np c k) = true) :
    (⟨sibling c k, k⟩ : Chunk) ∈ mergeBlocks (n + 1) c k L s := by
  obtain ⟨m₁, ⟨s₁, hrun, -, -⟩, -⟩ := toggleBitmap_returns (c := c) hs hk hr
  rw [hbit, if_pos rfl] at hrun
  unfold mergeBlocks
  simp only [hrun]
  exact List.mem_cons_self

/-- A clear bit: the loop ends with the block in hand. -/
theorem mergeBlocks_stop {n c k : Nat} (hs : Ready s) (hr : Rep L s.mem base np h) (hk : k ≤ 10)
    (hbit : h.bit (pairPos base np c k) = false) : mergeBlocks (n + 1) c k L s = [⟨c, k⟩] := by
  obtain ⟨m₁, ⟨s₁, hrun, -, -⟩, -⟩ := toggleBitmap_returns (c := c) hs hk hr
  rw [hbit, if_neg (by decide)] at hrun
  unfold mergeBlocks
  simp only [hrun]
  exact if_pos (by decide)

/-- A set bit and a buddy that is on its list: one round. -/
theorem mergeBlocks_merge {n c k : Nat} (hs : Ready s) (hr : Rep L s.mem base np h) (hk : k ≤ 10)
    (hp : Packed (Usable L) h.free own) (hbit : h.bit (pairPos base np c k) = true)
    (hon : sibling c k ∈ h.free k) :
    ∃ s₂, mergeBlocks (n + 1) c k L s
      = ⟨sibling c k, k⟩ :: mergeBlocks n (parent c k) (k + 1) L s₂ ∧
      Ready s₂ ∧ Rep L s₂.mem base np ((h.flip (pairPos base np c k)).drop k (sibling c k)) := by
  obtain ⟨m₁, ⟨s₁, hrun, hmem, hq⟩, hr₁⟩ := toggleBitmap_returns (c := c) hs hk hr
  rw [hbit, if_pos rfl] at hrun
  rw [← hmem] at hr₁
  have hs₁ := hs.quiet hq
  obtain ⟨s₂, hrun₂, hmem₂, hq₂⟩ := Edits.locked hs₁.free
    (unlinkSection_edits (c := c) hs₁.view hk hr₁ hp hon)
  refine ⟨s₂, ?_, hs₁.quiet hq₂, ?_⟩
  · rw [mergeBlocks.eq_2]
    simp only [hrun]
    rw [if_neg (by decide)]
    exact congrArg (List.cons _)
      (by simp only [show c ^^^ chunkBytes k = sibling c k from rfl, hrun₂]; rfl)
  · rw [hmem₂]
    exact hr₁.unlink hk hp hon

/-! ## Climbing up from a block -/

/-- All of a block is in the range. -/
def Inside (base size : Nat) (b : Chunk) : Prop :=
  base ≤ b.addr ∧ b.addr + chunkBytes b.order ≤ base + size

instance (base size : Nat) (b : Chunk) : Decidable (Inside base size b) :=
  inferInstanceAs (Decidable (_ ∧ _))

/-- The lower block of a pair. -/
theorem pair_low {c k : Nat} (hd : chunkBytes (k + 1) ∣ c) :
    parent c k = c ∧ sibling c k = c + chunkBytes k := by
  have hpar := parent_of_pair hd (Or.inl rfl)
  have hpos := chunkBytes_pos k
  rcases pair_cases (Nat.dvd_trans (chunkBytes_dvd (Nat.le_succ k)) hd) with
    ⟨-, hs, -⟩ | ⟨hp, hs, -⟩
  · exact ⟨hpar, hs⟩
  · omega

/-- **The climb from order `i` to order `j`**, whose upper halves are all free on the way. It goes
on as long as it finds the bits set, and at order `j` the next buddy is outside, unless that is
where all merging ends. A bit that is set must be a different one each time, as each round toggles
its own. -/
theorem climb_iff {c j : Nat} (hj : j ≤ 10) (hd : chunkBytes j ∣ c) (hin : Inside base size ⟨c, j⟩)
    (hout : j < 10 → ¬ Inside base size ⟨sibling c j, j⟩) :
    ∀ {n i : Nat} {s : KState} {h : Heap}, i + n = 10 → i ≤ j → Ready s → Rep L s.mem base np h →
      Packed (Usable L) h.free (⟨c, i⟩ ::ₘ own) →
      (∀ a, i ≤ a → a < j → c + chunkBytes a ∈ h.free a) →
      (j < 10 → ∀ a b, i ≤ a → a < b → b ≤ j → h.bit (pairPos base np c a) = true →
        pairPos base np c a ≠ pairPos base np c b) →
      ((∀ b ∈ mergeBlocks n c i L s, Inside base size b) ↔
        j = 10 ∨ ∃ a, i ≤ a ∧ a ≤ j ∧ h.bit (pairPos base np c a) = false) := by
  obtain ⟨hin1, hin2⟩ : base ≤ c ∧ c + chunkBytes j ≤ base + size := hin
  intro n
  induction n with
  | zero =>
    intro i s h hn hij _ _ _ _ _
    obtain rfl : i = 10 := by omega
    obtain rfl : j = 10 := by omega
    refine iff_of_true ?_ (Or.inl rfl)
    rintro b hb
    obtain rfl := List.mem_singleton.mp hb
    exact ⟨hin1, hin2⟩
  | succ n ih =>
    intro i s h hn hij hs hr hp hfree hpos
    have hsmall := chunkBytes_le hij
    by_cases hbit : h.bit (pairPos base np c i) = false
    · rw [mergeBlocks_stop hs hr (by omega) hbit]
      refine iff_of_true ?_ (Or.inr ⟨i, Nat.le_refl i, hij, hbit⟩)
      rintro b hb
      obtain rfl := List.mem_singleton.mp hb
      exact ⟨hin1, show c + chunkBytes i ≤ base + size by omega⟩
    have htrue : h.bit (pairPos base np c i) = true := by simpa using hbit
    rcases Nat.eq_or_lt_of_le hij with rfl | hlt
    · -- the top: its buddy is touched
      refine iff_of_false
        (fun hall => hout (by omega) (hall _ (mergeBlocks_buddy hs hr hj htrue))) ?_
      rintro (h10 | ⟨a, h1, h2, hf⟩)
      · omega
      · rw [show a = i by omega] at hf
        exact hbit hf
    · obtain ⟨hpar, hsib⟩ := pair_low (Nat.dvd_trans (chunkBytes_dvd hlt) hd)
      have hon : sibling c i ∈ h.free i := hsib ▸ hfree i (Nat.le_refl i) hlt
      obtain ⟨s₂, heq, hs₂, hr₂⟩ := mergeBlocks_merge (n := n) hs hr (by omega) hp htrue hon
      have htake := hp.take (show i ≤ 10 by omega) hon
      rw [Multiset.cons_swap] at htake
      have hjoin : Packed (Usable L) ((h.flip (pairPos base np c i)).drop i (sibling c i)).free
          (⟨c, i + 1⟩ ::ₘ own) := by
        have := htake.join (by omega)
        rwa [hpar] at this
      have hkeep : ∀ a, i < a → a ≤ j → j < 10 →
          ((h.flip (pairPos base np c i)).drop i (sibling c i)).bit (pairPos base np c a)
            = h.bit (pairPos base np c a) := fun a h1 h2 h10 =>
        Function.update_of_ne (Ne.symm (hpos h10 i a (Nat.le_refl i) h1 h2 htrue)) _ _
      rw [hpar] at heq
      have hrest :=
        ih (by omega) hlt hs₂ hr₂ hjoin (fun a h1 h2 => ?_) (fun h10 a b h1 h2 h3 hb => ?_)
      · rw [heq, List.forall_mem_cons, hrest]
        have hbuddy : Inside base size ⟨sibling c i, i⟩ := by
          have hup := chunkBytes_le (show i + 1 ≤ j from hlt)
          rw [chunkBytes_succ] at hup
          unfold Inside
          simp only [hsib]
          omega
        rw [and_iff_right hbuddy]
        by_cases h10 : j = 10
        · exact iff_of_true (Or.inl h10) (Or.inl h10)
        · refine or_congr_right ⟨?_, ?_⟩
          · rintro ⟨a, h1, h2, hf⟩
            rw [hkeep a (by omega) h2 (by omega)] at hf
            exact ⟨a, by omega, h2, hf⟩
          · rintro ⟨a, h1, h2, hf⟩
            rcases Nat.eq_or_lt_of_le h1 with rfl | h1
            · exact absurd hf hbit
            · exact ⟨a, h1, h2, (hkeep a h1 h2 (by omega)).trans hf⟩
      · show c + chunkBytes a ∈ Function.update h.free i _ a
        rw [Function.update_of_ne (by omega)]
        exact hfree a (by omega) h2
      · rw [hkeep a (by omega) (by omega) h10] at hb
        exact hpos h10 a b (by omega) h2 h3 hb

/-- The upper halves that a split leaves. -/
theorem Heap.mem_split {c order level a : Nat} (hle : order ≤ level) (h1 : order ≤ a)
    (h2 : a < level) :
    c + chunkBytes a ∈ (Heap.split c order level h).free a := by
  have hkeep := Heap.split_keeps (h := h) (c := c)
    (P := fun free b => b.order ≤ a → c + chunkBytes a ∈ free a) ?_ (fun hlt => by
      have : level ≤ a := hlt
      omega) hle
  · exact hkeep h1
  · intro free k hfree hka
    by_cases hk : a = k
    · subst hk
      rw [Function.update_self]
      exact List.mem_cons_self
    · rw [Function.update_of_ne hk]
      have : k ≤ a := hka
      exact hfree (show k + 1 ≤ a by omega)

/-! ## The tail -/

theorem Paged.size_eq (hm : Paged L base size) : size / pageSize * pageSize = size :=
  Nat.div_mul_cancel hm.size_dvd

/-- The block of order `j` in the tail of the range. -/
def tailBlock (base size j : Nat) : Nat := base + size / pageSize / 2 ^ (j + 1) * chunkBytes (j + 1)

theorem mem_carved_low {c j : Nat} (hj : j < 10) : c ∈ carved base size j ↔
    digit (size / pageSize) j = 1 ∧ c = tailBlock base size j := by
  rw [carved_low hj]
  have hle : digit (size / pageSize) j ≤ 1 := by
    rw [digit_lt hj]
    omega
  rcases Nat.le_one_iff_eq_zero_or_eq_one.mp hle with h0 | h1
  · rw [h0]
    simp [blockRow]
  · rw [h1]
    simp [blockRow, tailBlock]

theorem tailBlock_dvd (hm : Paged L base size) {j : Nat} (hj : j < 10) :
    chunkBytes (j + 1) ∣ tailBlock base size j :=
  Nat.dvd_add (Nat.dvd_trans (chunkBytes_dvd hj) hm.base_dvd) (Nat.dvd_mul_left _ _)

/-- The tail is shorter than the pair. -/
theorem tailBlock_short (hm : Paged L base size) (j : Nat) :
    base + size < tailBlock base size j + chunkBytes (j + 1) := by
  have hlt := Nat.lt_mul_div_succ (size / pageSize) (Nat.two_pow_pos (j + 1))
  have hmul := (Nat.mul_lt_mul_right (show 0 < pageSize by decide)).mpr hlt
  have heq : 2 ^ (j + 1) * (size / pageSize / 2 ^ (j + 1) + 1) * pageSize
      = size / pageSize / 2 ^ (j + 1) * chunkBytes (j + 1) + chunkBytes (j + 1) := by
    unfold chunkBytes
    ring
  rw [hm.size_eq, heq] at hmul
  unfold tailBlock
  omega

theorem div_two_pow_succ (n k : Nat) : n / 2 ^ (k + 1) = n / 2 ^ k / 2 := by
  rw [Nat.div_div_eq_div_mul, Nat.pow_succ]

/-- The offsets leave room for the blocks of the orders from `k` on, and do not wrap. -/
theorem orderOffset_room (hnp : np < 2 ^ 32) : ∀ (k : Nat), orderOffset np k + np / 2 ^ k ≤ np ∧
    orderOffset np (k + 1) = orderOffset np k + np / 2 ^ (k + 1)
  | 0 => by
    simp only [orderOffset, Nat.shiftRight_eq_div_pow, pow_zero, Nat.div_one, Nat.zero_add]
    exact ⟨Nat.le_refl np, by omega⟩
  | k + 1 => by
    obtain ⟨hroom, hnext⟩ := orderOffset_room hnp k
    rw [hnext, orderOffset, hnext, Nat.shiftRight_eq_div_pow, div_two_pow_succ np (k + 1),
      div_two_pow_succ np k]
    generalize np / 2 ^ k = x at hroom
    omega

/-- Where the bits of the pairs around the tail block are. -/
theorem pairPos_tail (hm : Paged L base size) (hnp : size / pageSize < 2 ^ 32) {j a : Nat}
    (ha : a ≤ j) :
    pairPos base (size / pageSize) (tailBlock base size j) a
      = orderOffset (size / pageSize) a + size / pageSize / 2 ^ (j + 1) * 2 ^ (j - a) := by
  have hlt := hm.size_lt
  obtain ⟨hroom, -⟩ := orderOffset_room hnp a
  have hpow : chunkBytes (j + 1) = 2 ^ (12 + a) * (2 * 2 ^ (j - a)) := by
    rw [chunkBytes_eq, ← Nat.pow_succ', ← Nat.pow_add]
    congr 1
    omega
  have hblocks : 2 * (size / pageSize / 2 ^ (j + 1) * 2 ^ (j - a)) ≤ size / pageSize / 2 ^ a := by
    have hexp : 2 ^ (j + 1) = 2 ^ a * (2 * 2 ^ (j - a)) := by
      rw [← Nat.pow_succ', ← Nat.pow_add]
      congr 1
      omega
    rw [hexp, ← Nat.div_div_eq_div_mul, Nat.mul_left_comm]
    exact Nat.div_mul_le_self _ _
  have hsmall : size / pageSize / 2 ^ (j + 1) * chunkBytes (j + 1) ≤ size := by
    have := Nat.mul_le_mul_right pageSize (Nat.div_mul_le_self (size / pageSize) (2 ^ (j + 1)))
    rw [hm.size_eq, Nat.mul_assoc] at this
    unfold chunkBytes
    exact this
  have hle : size / pageSize / 2 ^ a ≤ size / pageSize := Nat.div_le_self _ _
  unfold pairPos bitPos tailBlock
  rw [show sub64 (base + size / pageSize / 2 ^ (j + 1) * chunkBytes (j + 1)) base
    = size / pageSize / 2 ^ (j + 1) * (2 * 2 ^ (j - a)) * 2 ^ (12 + a) by
      unfold sub64
      rw [hpow] at hsmall ⊢
      rw [Nat.mul_assoc, Nat.mul_comm _ (2 ^ (12 + a))]
      omega]
  simp only [Nat.shiftRight_eq_div_pow, Nat.mul_div_cancel _ (Nat.two_pow_pos _), pow_one]
  rw [Nat.mul_left_comm]
  generalize size / pageSize / 2 ^ (j + 1) * 2 ^ (j - a) = x at hblocks
  omega

/-- The higher the order, the higher the bit. -/
theorem pairPos_tail_lt (hm : Paged L base size) (hnp : size / pageSize < 2 ^ 32) {j : Nat}
    (hdigit : size / pageSize / 2 ^ j % 2 = 1) {a : Nat} : ∀ {b : Nat}, a < b → b ≤ j →
      pairPos base (size / pageSize) (tailBlock base size j) a
        < pairPos base (size / pageSize) (tailBlock base size j) b
  | b + 1, hab, hb => by
    obtain ⟨-, hnext⟩ := orderOffset_room hnp b
    obtain ⟨d, rfl⟩ : ∃ d, j = b + 1 + d := ⟨j - (b + 1), by omega⟩
    -- one step up passes all pairs of the order below
    have hstep : pairPos base (size / pageSize) (tailBlock base size (b + 1 + d)) b
        < pairPos base (size / pageSize) (tailBlock base size (b + 1 + d)) (b + 1) := by
      rw [pairPos_tail hm hnp (by omega), pairPos_tail hm hnp hb, hnext,
        show b + 1 + d - b = d + 1 by omega, show b + 1 + d - (b + 1) = d by omega,
        Nat.pow_succ' (n := d)]
      have hdiv := div_two_pow_succ (size / pageSize) (b + 1 + d)
      have hge : size / pageSize / 2 ^ (b + 1 + d) * 2 ^ d ≤ size / pageSize / 2 ^ (b + 1) := by
        rw [Nat.pow_add, ← Nat.div_div_eq_div_mul]
        exact Nat.div_mul_le_self _ _
      have hodd : size / pageSize / 2 ^ (b + 1 + d)
          = 2 * (size / pageSize / 2 ^ (b + 1 + d + 1)) + 1 := by
        omega
      rw [hodd, Nat.add_mul, Nat.mul_assoc] at hge
      have hpos := Nat.two_pow_pos d
      rw [Nat.mul_left_comm]
      generalize size / pageSize / 2 ^ (b + 1 + d + 1) * 2 ^ d = x at hge
      omega
    rcases Nat.eq_or_lt_of_le (Nat.lt_succ_iff.mp hab) with rfl | hlt
    · exact hstep
    · exact Nat.lt_trans (pairPos_tail_lt hm hnp hdigit hlt (by omega)) hstep

/-! ## One block out and back -/

/-- On the freshly initialised range, `buddy_kalloc(sz)` and then `buddy_kfree` of what it returns:
the blocks that the free touches. -/
def outAndBack (base size sz : Nat) : K (List Chunk) := do
  initBuddyAt base size
  let chunk ← buddyKalloc sz
  fun L s => .ok (kfreeBlocks chunk sz L s, s)

/-- Every buddy that is looked at and the block that is inserted are inside the range. -/
def FreesInside (L : Layout) (base size sz : Nat) (s : KState) : Prop :=
  ∃ touched s', outAndBack base size sz L s = .ok (touched, s') ∧ ∀ b ∈ touched, Inside base size b

/-- When the first list with a block for the request is that of a tail block of order `j`, the
bitmap as it was found has a bit that stops the free before it gets to order `j`'s buddy: that of
the request's own order is set, or one of those from there up to `j` is clear. -/
def TailGuarded (L : Layout) (base size order : Nat) (m : Mem) : Prop :=
  ∀ j, order ≤ j → j < 10 → digit (size / pageSize) j = 1 →
    (∀ i, order ≤ i → i < j → digit (size / pageSize) i = 0) →
    startBit L m size (pairPos base (size / pageSize) (tailBlock base size j) order) = true ∨
    ∃ i, order < i ∧ i ≤ j ∧
      startBit L m size (pairPos base (size / pageSize) (tailBlock base size j) i) = false

theorem startBit_of_large {m : Mem} {p : Nat} (hnp : 2 ^ 32 ≤ size / pageSize) (hp : p < 2 ^ 32) :
    startBit L m size p = false := if_pos (by omega)

/-- Below order 10 a list is empty when its digit is zero. -/
theorem carved_nil_iff {j : Nat} (hj : j < 10) :
    carved base size j = [] ↔ digit (size / pageSize) j = 0 := by
  rw [← List.length_eq_zero_iff, carved_low hj, blockRow_length]

/-- Once the list that serves the request is known, it is the only one to look at. -/
theorem tailGuarded_iff {m : Mem} {order j c : Nat} (hle : order ≤ j) (hc : c ∈ carved base size j)
    (hfirst : ∀ i, order ≤ i → i < j → carved base size i = []) (hj : j ≤ 10) :
    TailGuarded L base size order m ↔ j = 10 ∨
      startBit L m size (pairPos base (size / pageSize) c order) = true ∨
      ∃ i, order < i ∧ i ≤ j ∧ startBit L m size (pairPos base (size / pageSize) c i) = false := by
  constructor
  · intro hg
    rcases Nat.eq_or_lt_of_le hj with h10 | hlt
    · exact Or.inl h10
    · obtain ⟨hdigit, rfl⟩ := (mem_carved_low hlt).mp hc
      exact Or.inr
        (hg j hle hlt hdigit (fun i h1 h2 => (carved_nil_iff (by omega)).mp (hfirst i h1 h2)))
  · intro hor i h1 h10 hdigit hzero
    have hij : ¬ i < j := fun hlt => by
      have := (carved_nil_iff h10).mp (hfirst i h1 hlt)
      omega
    have hji : ¬ j < i := fun hlt => by
      have := hzero j hle hlt
      have := ((mem_carved_low (show j < 10 by omega)).mp hc).1
      omega
    obtain rfl : i = j := by omega
    obtain ⟨-, rfl⟩ := (mem_carved_low h10).mp hc
    exact hor.resolve_left (by omega)

theorem kfreeOrders_returns {c sz : Nat} (hs : Ready s) (hr : Rep L s.mem base np h)
    (hsz : sz ≤ chunkBytes 10) :
    ∃ s₁, kfreeOrders c sz L s = .ok ((10, orderOf sz), s₁) ∧ (orderOf sz ≠ 10 → s₁ = s) := by
  have hle := freeOrder_eq hsz
  unfold freeOrder at hle
  unfold kfreeOrders
  rw [K.bind_ok (kernelEnd_apply L s), K.bind_ok (selectOrder_edits (le_of_four_mb hsz) s rfl rfl),
    K.bind_ok (Edits.load (image_metadata L) hr.maxOrder s rfl rfl)]
  simp only [hle]
  by_cases h10 : orderOf sz = 10
  · obtain ⟨m₁, ⟨s₁, hrun, -, -⟩, -⟩ := toggleBitmap_returns (c := c) hs
      (show orderOf sz ≤ 10 by omega) hr
    rw [if_pos h10]
    exact ⟨s₁, K.bind_ok hrun, fun hne => absurd h10 hne⟩
  · rw [if_neg h10]
    exact ⟨s, rfl, fun _ => rfl⟩

/-- A block of the carved range, and where it lies. -/
theorem carved_block {c j : Nat} (hm : Paged L base size) (hj : j ≤ 10)
    (hc : c ∈ carved base size j) :
    Inside base size ⟨c, j⟩ ∧ chunkBytes j ∣ c := by
  have hpart := partition_carved hm
  have hmem : (⟨c, j⟩ : Chunk) ∈ freeChunks (carved base size) + 0 :=
    Multiset.mem_add.mpr (Or.inl (mem_freeChunks.mpr ⟨hj, hc⟩))
  exact ⟨hpart.inside hmem, (hpart.aligned _ hmem).2⟩

/-- The buddy of a block of the tail is not in the range. -/
theorem carved_buddy {c j : Nat} (hm : Paged L base size) (hc : c ∈ carved base size j)
    (hj : j < 10) :
    ¬ Inside base size ⟨sibling c j, j⟩ := by
  intro hsib
  obtain ⟨-, rfl⟩ := (mem_carved_low hj).mp hc
  have hshort := tailBlock_short hm j
  rw [chunkBytes_succ] at hshort
  unfold Inside at hsib
  simp only [(pair_low (tailBlock_dvd hm hj)).2] at hsib
  omega

/-- The free of a block that was cut from a larger one: the upper half is joined again, and with it
the bits are as before the allocation. -/
theorem cut_iff {bit : Nat → Bool} {c j k n : Nat} {h : Heap} (hm : Paged L base size)
    (hs : Ready s) (hlt : k < j) (hj : j ≤ 10) (hn : k + (n + 1) = 10) (hc : c ∈ carved base size j)
    (hcut : h = Heap.split c k j (Heap.drop ⟨carved base size, bit⟩ j c))
    (hr : Rep L s.mem base (size / pageSize) (h.flip (pairPos base (size / pageSize) c k)))
    (hbit : bit (pairPos base (size / pageSize) c k) = false)
    (hlarge : 2 ^ 32 ≤ size / pageSize → ∀ p, p < 2 ^ 32 → bit p = false) :
    (∀ b ∈ mergeBlocks (n + 1) c k L s, Inside base size b) ↔
      j = 10 ∨ ∃ i, k < i ∧ i ≤ j ∧ bit (pairPos base (size / pageSize) c i) = false := by
  obtain ⟨hin, hd⟩ := carved_block hm hj hc
  have hsplit : Packed (Usable L) h.free (⟨c, k⟩ ::ₘ 0) := by
    rw [hcut]
    exact Packed.split (h := Heap.drop ⟨carved base size, bit⟩ j c)
      (((partition_carved hm).usable hm).take hj hc) (Nat.le_of_lt hlt)
  have hbits : h.bit = bit := by
    rw [hcut]
    exact Heap.split_bit
  have hset : (h.flip (pairPos base (size / pageSize) c k)).bit (pairPos base (size / pageSize) c k)
      = true := by
    simp [Heap.flip, hbits, hbit]
  obtain ⟨hpar, hsib⟩ := pair_low (Nat.dvd_trans (chunkBytes_dvd hlt) hd)
  have hupper : ∀ a, k ≤ a → a < j → c + chunkBytes a ∈ h.free a := by
    intro a h1 h2
    rw [hcut]
    exact Heap.mem_split (Nat.le_of_lt hlt) h1 h2
  have hon : sibling c k ∈ h.free k := hsib ▸ hupper k (Nat.le_refl _) hlt
  obtain ⟨s₂, heq, hs₂, hr₂⟩ := mergeBlocks_merge (n := n) hs hr (by omega) hsplit hset hon
  have htake := hsplit.take (show k ≤ 10 by omega) hon
  rw [Multiset.cons_swap] at htake
  have hjoin := htake.join (show k < 10 by omega)
  rw [hpar] at heq hjoin
  have hback : ∀ p, ((h.flip (pairPos base (size / pageSize) c k)).flip
      (pairPos base (size / pageSize) c k)).bit p = bit p := by
    intro p
    simp only [Heap.flip, Function.update_self, Bool.not_not, Function.update_idem,
      Function.update_eq_self, hbits]
  have hclimb :=
    climb_iff hj hd hin (carved_buddy hm hc) (show k + 1 + n = 10 by omega) hlt hs₂ hr₂ hjoin
    (fun a h1 h2 => ?_) (fun h10 a b h1 h2 h3 hb => ?_)
  · have hbuddy : Inside base size ⟨sibling c k, k⟩ := by
      have hup := chunkBytes_le (show k + 1 ≤ j from hlt)
      rw [chunkBytes_succ] at hup
      unfold Inside at hin ⊢
      simp only [hsib] at hin ⊢
      omega
    rw [heq, List.forall_mem_cons, and_iff_right hbuddy, hclimb]
    simp only [Heap.drop_bit, hback]
    rfl
  · have hne : a ≠ k := by omega
    unfold Heap.drop
    simp only [Heap.flip_free, Function.update_of_ne hne]
    exact hupper a (by omega) h2
  · obtain ⟨hdigit, rfl⟩ := (mem_carved_low h10).mp hc
    rw [Heap.drop_bit, hback] at hb
    by_cases hnp : size / pageSize < 2 ^ 32
    · rw [digit_lt h10] at hdigit
      exact Nat.ne_of_lt (pairPos_tail_lt hm hnp hdigit h2 h3)
    · rw [hlarge (by omega) _ (pairPos_lt _ _ _ _)] at hb
      exact absurd hb (by decide)

/-- The free of the block that the list of order `j` has just served. -/
theorem served_iff {bit : Nat → Bool} {c j sz : Nat} (hm : Paged L base size) (h0 : sz ≠ 0)
    (hsz : sz ≤ chunkBytes 10) (hs : Ready s) (hj1 : orderOf sz ≤ j) (hj2 : j ≤ 10)
    (hc : c ∈ carved base size j)
    (hr : Rep L s.mem base (size / pageSize) ((Heap.split c (orderOf sz) j
      (Heap.drop ⟨carved base size, bit⟩ j c)).flip
        (pairPos base (size / pageSize) c (orderOf sz))))
    (hlarge : 2 ^ 32 ≤ size / pageSize → ∀ p, p < 2 ^ 32 → bit p = false) :
    (∀ b ∈ kfreeBlocks c sz L s, Inside base size b) ↔
      j = 10 ∨ bit (pairPos base (size / pageSize) c (orderOf sz)) = true ∨
      ∃ i, orderOf sz < i ∧ i ≤ j ∧ bit (pairPos base (size / pageSize) c i) = false := by
  obtain ⟨hin, -⟩ := carved_block hm hj2 hc
  have hc0 : c ≠ 0 := by
    have := hm.base_ne
    have := hin.1
    simp only at this
    omega
  obtain ⟨h, hcut⟩ : ∃ h, h = Heap.split c (orderOf sz) j (Heap.drop ⟨carved base size, bit⟩ j c) :=
    ⟨_, rfl⟩
  rw [← hcut] at hr
  have hbits : h.bit = bit := by
    rw [hcut]
    exact Heap.split_bit
  obtain ⟨s₁, horders, hsame⟩ := kfreeOrders_returns (c := c) hs hr hsz
  unfold kfreeBlocks
  rw [if_neg (by simp [hc0, h0]), horders]
  simp only
  by_cases hk : orderOf sz = 10
  · obtain rfl : j = 10 := by omega
    refine iff_of_true ?_ (Or.inl rfl)
    rw [hk]
    rintro b hb
    obtain rfl := List.mem_singleton.mp hb
    exact hin
  obtain rfl := hsame hk
  obtain ⟨n, hn⟩ : ∃ n, 10 - orderOf sz = n + 1 := ⟨9 - orderOf sz, by omega⟩
  rw [hn]
  by_cases hbit : bit (pairPos base (size / pageSize) c (orderOf sz)) = true
  · rw [mergeBlocks_stop hs hr (by omega) (by simp [Heap.flip, hbits, hbit])]
    refine iff_of_true ?_ (Or.inr (Or.inl hbit))
    rintro b hb
    obtain rfl := List.mem_singleton.mp hb
    have := chunkBytes_le hj1
    have := hin.2
    exact ⟨hin.1, by simp only at this ⊢; omega⟩
  have hfalse : bit (pairPos base (size / pageSize) c (orderOf sz)) = false := by simpa using hbit
  rw [or_iff_right hbit]
  rcases Nat.eq_or_lt_of_le hj1 with hjk | hlt
  · -- served from its own list: the buddy is not in the range
    have hset : (h.flip (pairPos base (size / pageSize) c (orderOf sz))).bit
        (pairPos base (size / pageSize) c (orderOf sz)) = true := by simp [Heap.flip, hbits, hfalse]
    have hbuddy := mergeBlocks_buddy (n := n) hs hr (by omega) hset
    rw [hjk] at hbuddy ⊢
    refine iff_of_false (fun hall => carved_buddy hm hc (by omega) (hall _ hbuddy)) ?_
    rintro (h10 | ⟨i, h1, h2, -⟩)
    · omega
    · omega
  · exact cut_iff hm hs hlt hj2 (by omega) hc hcut hr hfalse hlarge

theorem smallTail : Paged smallLayout 0x400000 0x8000 :=
  ⟨by decide, ⟨1, by rw [chunkBytes_ten]⟩, by decide, fun p h1 h2 => decide_eq_true ⟨h1, by omega⟩⟩

/-- **When the first block out and back stays inside.** -/
theorem freesInside_iff {sz : Nat} (hv : View s.physMapOffset) (hm : Paged L base size)
    (htop : base + size < 2 ^ 64) (h1 : 1 ≤ sz) (h2 : sz ≤ 0x400000) :
    FreesInside L base size sz s ↔ TailGuarded L base size (orderOf sz) s.mem := by
  have hsz : sz ≤ chunkBytes 10 := by
    rw [chunkBytes_ten]
    exact h2
  obtain ⟨s₁, hinit, hoff, hfree, hrep, hbits⟩ := initBuddyAt_rep hv hm htop
  have hs₁ : Ready s₁ := ⟨hoff ▸ hv, hfree⟩
  have hpart := partition_carved hm
  obtain ⟨m₂, ⟨s₂, hkalloc, hmem, hq⟩, hrep₂⟩ := buddyKalloc_returns hs₁ hsz hrep (hpart.usable hm)
  have hs₂ := hs₁.quiet hq
  -- both calls return, so what counts is the free
  have hrun : FreesInside L base size sz s ↔
    ∀ b ∈ kfreeBlocks (Heap.alloc (pairPos base (size / pageSize))
      (orderOf sz) (11 - orderOf sz) (orderOf sz) ⟨carved base size, bitOf L s₁.mem⟩).1 sz L s₂,
      Inside base size b := by
    have hseq := (K.bind_ok
      (f := fun _ => buddyKalloc sz >>= fun chunk L s => .ok (kfreeBlocks chunk sz L s, s))
      hinit).trans (K.bind_ok hkalloc)
    constructor
    · rintro ⟨touched, s', hrun, hall⟩
      obtain ⟨rfl, -⟩ := Prod.mk.inj (Except.ok.inj (hseq.symm.trans hrun))
      exact hall
    · exact fun hall => ⟨_, _, hseq, hall⟩
  rw [hrun]
  have h10 := (orderOf_spec hsz).2.1
  rcases Heap.alloc_cases (h := ⟨carved base size, bitOf L s₁.mem⟩) (pairPos base (size / pageSize))
    (orderOf sz)
    (show orderOf sz + (11 - orderOf sz) = 11 by omega) with
    ⟨heq, hnone⟩ | ⟨c, j, hj1, hj2, hc, hfirst, heq⟩
  · -- nothing was allocated, and nothing is freed
    rw [heq]
    refine iff_of_true (fun b hb => absurd hb (by simp [kfreeBlocks])) ?_
    intro j hj1 hj2 hdigit _
    have := (carved_nil_iff hj2).mp (hnone j hj1 (by omega))
    omega
  rw [heq] at hrep₂ ⊢
  rw [tailGuarded_iff hj1 hc hfirst hj2, ← hbits]
  rw [← hmem] at hrep₂
  refine served_iff hm (by omega) hsz hs₂ hj1 hj2 hc hrep₂ (fun hnp p hp => ?_)
  rw [hbits]
  exact startBit_of_large hnp hp

/-- Eight pages are one block of order 3. A page is cut from it and joined with it again. -/
theorem freesInside_iff_page : FreesInside smallLayout 0x400000 0x8000 0x1000 bootState := by
  refine (freesInside_iff (Or.inl rfl) smallTail (by decide) (by decide) (by decide)).mpr ?_
  intro j _ hlt hdigit _
  have hthree : ∀ j, j < 10 → digit (0x8000 / pageSize) j = 1 → j = 3 := by decide
  obtain rfl := hthree j hlt hdigit
  exact Or.inr ⟨1, by decide, by decide, by decide +kernel⟩

/-- All of it is joined with the eight pages behind it, which are not the allocator's. -/
theorem frees_outside : ¬ ∀ (L : Layout) (base size sz : Nat) (s : KState), View s.physMapOffset →
    Paged L base size → 0 < size → base + size < 2 ^ 64 → 1 ≤ sz → sz ≤ 0x400000 →
    FreesInside L base size sz s := by
  intro hall
  obtain ⟨touched, s', hrun, hin⟩ :=
    hall smallLayout 0x400000 0x8000 0x8000 bootState (Or.inl rfl) smallTail
    (by decide) (by decide) (by decide) (by decide)
  have heval :
    (outAndBack 0x400000 0x8000 0x8000 smallLayout bootState).toOption.map (fun r => r.1.head?)
      = some (some ⟨0x408000, 3⟩) := by
    decide +kernel
  rw [hrun] at heval
  have hhead : touched.head? = some ⟨0x408000, 3⟩ := Option.some.inj heval
  have hmem := hin _ (List.mem_of_mem_head? (Option.mem_def.mpr hhead))
  exact absurd hmem (by decide +kernel)

end Buddy
end MikroKernel
