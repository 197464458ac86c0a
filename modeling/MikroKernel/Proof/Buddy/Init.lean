import MikroKernel.Proof.Buddy.Calls

/-!
# `__init_buddy`

The carving loop takes the largest order that fits every time, which comes to the binary digits of
the number of pages (`countLoop_eq`), and the linking loop lays the blocks out again from the counts
alone. The two agree: initialisation leaves the 4MB blocks on list 10, in address order, and one
block of the tail on the list of each digit below (`initBuddyAt_exact`). For a range of whole 4MB
blocks that is one list and a cleared bitmap (`initBuddy_whole`), which is where every run starts.
-/

set_option autoImplicit false

namespace MikroKernel
namespace Buddy

open Chain Tiling

variable {L : Layout} {m : Mem} {base size np : Nat}

/-! ## The blocks -/

/-- `n` blocks of order `k` in a row. -/
def blockRow (k : Nat) : Nat → Nat → List Nat
  | _, 0 => []
  | cur, n + 1 => cur :: blockRow k (cur + chunkBytes k) n

/-- The lists after initialisation. -/
def initFree (base size : Nat) : Nat → List Nat :=
  Function.update (fun _ => []) 10 (blockRow 10 base (size / chunkBytes 10))

theorem blockRow_ge {k : Nat} : ∀ {cur n a : Nat}, a ∈ blockRow k cur n →
    cur ≤ a ∧ a < cur + n * chunkBytes k
  | _, 0, _, ha => absurd ha (by simp [blockRow])
  | cur, n + 1, a, ha => by
    have hpos := chunkBytes_pos k
    rw [Nat.succ_mul]
    rcases List.mem_cons.mp ha with rfl | ha
    · omega
    · have := blockRow_ge ha
      omega

theorem blockRow_length {k : Nat} : ∀ {cur n : Nat}, (blockRow k cur n).length = n
  | _, 0 => rfl
  | _, n + 1 => congrArg (· + 1) (blockRow_length (n := n))

theorem blockRow_ascending {k : Nat} : ∀ {cur n : Nat}, (blockRow k cur n).Pairwise (· < ·)
  | _, 0 => List.Pairwise.nil
  | cur, n + 1 => by
    refine List.Pairwise.cons (fun a ha => ?_) blockRow_ascending
    have := (blockRow_ge ha).1
    have := chunkBytes_pos k
    omega

theorem tiles_blockRow {k n : Nat} : ∀ (cur : Nat),
    Tiles Chunk.addr Chunk.len cur (n * chunkBytes k)
      ((blockRow k cur n : Multiset Nat).map (Chunk.mk · k)) := by
  induction n with
  | zero =>
    intro cur
    rw [Nat.zero_mul]
    exact Tiles.empty
  | succ n ih =>
    intro cur
    have h : Tiles Chunk.addr Chunk.len cur (Chunk.len ⟨cur, k⟩ + n * chunkBytes k)
        (⟨cur, k⟩ ::ₘ (blockRow k (cur + chunkBytes k) n : Multiset Nat).map (Chunk.mk · k)) :=
      Tiles.front (ih _) rfl (chunkBytes_pos k)
    rw [Nat.succ_mul, Nat.add_comm (n * chunkBytes k)]
    exact h

theorem blockRow_dvd {k j : Nat} (hjk : j ≤ k) : ∀ {cur n a : Nat}, chunkBytes j ∣ cur →
    a ∈ blockRow k cur n → chunkBytes j ∣ a
  | _, 0, _, _, ha => absurd ha (by simp [blockRow])
  | cur, n + 1, a, hd, ha => by
    rcases List.mem_cons.mp ha with rfl | ha
    · exact hd
    · exact blockRow_dvd hjk (Nat.dvd_add hd (chunkBytes_dvd hjk)) ha

/-- The rows of blocks that counts lay out from `cur` on, the largest order first. -/
def rows (counts : Nat → Nat) : Nat → Nat → Nat → List Nat
  | 0, cur => Function.update (fun _ => []) 0 (blockRow 0 cur (counts 0))
  | order + 1, cur =>
      Function.update (rows counts order (cur + counts (order + 1) * chunkBytes (order + 1)))
        (order + 1)
        (blockRow (order + 1) cur (counts (order + 1)))

/-- How many bytes they are. -/
def rowBytes (counts : Nat → Nat) : Nat → Nat
  | 0 => counts 0 * chunkBytes 0
  | order + 1 => counts (order + 1) * chunkBytes (order + 1) + rowBytes counts order

variable {counts : Nat → Nat}

theorem rowBytes_le {k : Nat} : ∀ {order : Nat}, k ≤ order →
    rowBytes counts k ≤ rowBytes counts order
  | 0, h => by rw [Nat.le_zero.mp h]
  | order + 1, h => by
    rcases Nat.eq_or_lt_of_le h with rfl | hlt
    · exact Nat.le_refl _
    · exact Nat.le_trans (rowBytes_le (by omega)) (Nat.le_add_left _ _)

theorem rows_above {k : Nat} : ∀ {order cur : Nat}, order < k → rows counts order cur k = []
  | 0, cur, h => Function.update_of_ne (by omega) _ _
  | order + 1, cur, h => (Function.update_of_ne (by omega) _ _).trans (rows_above (by omega))

/-- Row `k` is laid out behind the rows of the larger orders. -/
theorem rows_eq {k : Nat} : ∀ {order cur : Nat}, k ≤ order →
    rows counts order cur k
    = blockRow k (cur + (rowBytes counts order - rowBytes counts k)) (counts k)
  | 0, cur, h => by
    obtain rfl : k = 0 := by omega
    unfold rows
    rw [Function.update_self, Nat.sub_self, Nat.add_zero]
  | order + 1, cur, h => by
    unfold rows
    rcases Nat.eq_or_lt_of_le h with rfl | hlt
    · rw [Function.update_self, Nat.sub_self]
      rfl
    · have hle : rowBytes counts k ≤ rowBytes counts order := rowBytes_le (by omega)
      rw [Function.update_of_ne (by omega), rows_eq (by omega)]
      congr 1
      rw [rowBytes.eq_2]
      omega

theorem freeChunks_rows {order cur : Nat} (h : order + 1 ≤ 10) :
    freeChunks (rows counts (order + 1) cur)
      = (blockRow (order + 1) cur (counts (order + 1)) : Multiset Nat).map (Chunk.mk · (order + 1))
        + freeChunks (rows counts order (cur + counts (order + 1) * chunkBytes (order + 1))) := by
  have hu :=
    freeChunks_update (rows counts order (cur + counts (order + 1) * chunkBytes (order + 1))) h
    (blockRow (order + 1) cur (counts (order + 1)))
  rw [rows_above (Nat.lt_succ_self order), Multiset.coe_nil, Multiset.map_zero, add_zero] at hu
  exact hu.trans (add_comm _ _)

theorem freeChunks_row {k : Nat} (hk : k ≤ 10) (l : List Nat) :
    freeChunks (Function.update (fun _ => []) k l) = (l : Multiset Nat).map (Chunk.mk · k) := by
  have h := freeChunks_update (fun _ => []) hk l
  have hnil : freeChunks (fun _ => []) = 0 := Finset.sum_eq_zero (fun k _ => rfl)
  rw [hnil, Multiset.coe_nil, Multiset.map_zero, add_zero, zero_add] at h
  exact h

/-- **Rows tile what they are laid out on.** -/
theorem tiles_rows : ∀ {order cur : Nat}, order ≤ 10 →
    Tiles Chunk.addr Chunk.len cur (rowBytes counts order) (freeChunks (rows counts order cur))
  | 0, cur, _ => by
    unfold rows rowBytes
    rw [freeChunks_row (Nat.zero_le 10)]
    exact tiles_blockRow cur
  | order + 1, cur, h => by
    rw [freeChunks_rows h]
    exact (tiles_blockRow cur).append (tiles_rows (by omega))

theorem rows_aligned {c : Chunk} : ∀ {order cur : Nat}, order ≤ 10 → chunkBytes order ∣ cur →
    c ∈ freeChunks (rows counts order cur) → c.order ≤ 10 ∧ chunkBytes c.order ∣ c.addr
  | 0, cur, _, hd, hc => by
    unfold rows at hc
    rw [freeChunks_row (Nat.zero_le 10)] at hc
    obtain ⟨a, ha, rfl⟩ := Multiset.mem_map.mp hc
    exact ⟨Nat.zero_le 10, blockRow_dvd (Nat.le_refl 0) hd ha⟩
  | order + 1, cur, h, hd, hc => by
    rw [freeChunks_rows h] at hc
    rcases Multiset.mem_add.mp hc with hc | hc
    · obtain ⟨a, ha, rfl⟩ := Multiset.mem_map.mp hc
      exact ⟨h, blockRow_dvd (Nat.le_refl _) hd ha⟩
    · have hdvd : chunkBytes order ∣ chunkBytes (order + 1) := chunkBytes_dvd (Nat.le_succ order)
      exact rows_aligned (by omega)
        (Nat.dvd_add (Nat.dvd_trans hdvd hd) (Nat.dvd_mul_left_of_dvd hdvd _)) hc

/-! ## The counting loop

The loop takes the largest order that fits, so below order 10 it takes each order as often as the
number of pages has a binary digit there. -/

/-- How many blocks of order `k` there are in `np` pages. -/
def digit (np k : Nat) : Nat := if k < 10 then np / 2 ^ k % 2 else if k = 10 then np / 2 ^ 10 else 0

theorem digit_lt {np k : Nat} (hk : k < 10) : digit np k = np / 2 ^ k % 2 := if_pos hk

theorem digit_ten (np : Nat) : digit np 10 = np / 2 ^ 10 := rfl

/-- The lists after initialisation, for a range of whole pages. -/
def carved (base size : Nat) : Nat → List Nat := rows (digit (size / pageSize)) 10 base

theorem rowBytes_low {np : Nat} : ∀ {order : Nat}, order < 10 →
    rowBytes (digit np) order = np % 2 ^ (order + 1) * pageSize
  | 0, h => by
    unfold rowBytes
    rw [digit_lt h]
    simp [chunkBytes]
  | order + 1, h => by
    unfold rowBytes
    rw [rowBytes_low (by omega), digit_lt h, Nat.mod_pow_succ (k := order + 1)]
    unfold chunkBytes
    ring

theorem rowBytes_digit (np : Nat) : rowBytes (digit np) 10 = np * pageSize := by
  have hlow : rowBytes (digit np) 9 = np % 2 ^ 10 * pageSize := rowBytes_low (by omega)
  have hsplit := Nat.div_add_mod' np (2 ^ 10)
  show digit np 10 * chunkBytes 10 + rowBytes (digit np) 9 = np * pageSize
  rw [hlow, digit_ten]
  unfold chunkBytes
  rw [← Nat.mul_assoc, ← Nat.add_mul, hsplit]

/-- Below order 10 a list has the one block of the tail that its digit asks for, or none. -/
theorem carved_low {k : Nat} (hk : k < 10) : carved base size k
    = blockRow k (base + size / pageSize / 2 ^ (k + 1) * chunkBytes (k + 1))
        (digit (size / pageSize) k) := by
  unfold carved
  rw [rows_eq (by omega), rowBytes_digit, rowBytes_low hk, ← Nat.sub_mul]
  congr 2
  have hsplit := Nat.div_add_mod' (size / pageSize) (2 ^ (k + 1))
  unfold chunkBytes
  rw [← Nat.mul_assoc]
  congr 1
  omega

theorem carved_ten : carved base size 10 = blockRow 10 base (size / pageSize / 2 ^ 10) := by
  unfold carved
  rw [rows_eq (Nat.le_refl 10), Nat.sub_self, Nat.add_zero, digit_ten]

/-- **The carving partitions the range**, with nothing owned. -/
theorem partition_carved (hm : Paged L base size) : Partition base size (carved base size) 0 := by
  have htiles : Tiles Chunk.addr Chunk.len base (rowBytes (digit (size / pageSize)) 10)
      (freeChunks (carved base size)) := tiles_rows (Nat.le_refl 10)
  rw [rowBytes_digit, Nat.div_mul_cancel hm.size_dvd] at htiles
  refine ⟨?_, fun c hc => ?_⟩
  · rw [add_zero]
    exact htiles
  · rw [add_zero] at hc
    exact rows_aligned (Nat.le_refl 10) hm.base_dvd hc

/-- Whole blocks of 4MB are all on list 10. -/
theorem carved_eq_initFree (hm : Managed L base size) : carved base size = initFree base size := by
  obtain ⟨q, hq⟩ := hm.size_dvd
  have hnp : size / pageSize = 2 ^ 10 * q := by
    rw [hq, chunkBytes_ten]
    unfold pageSize
    omega
  have hblocks : size / chunkBytes 10 = q := by
    rw [hq, Nat.mul_div_cancel_left _ (chunkBytes_pos 10)]
  have hzero : ∀ k, k < 10 → digit (size / pageSize) k = 0 := by
    intro k hk
    obtain ⟨e, he⟩ : ∃ e, 2 ^ 10 = 2 ^ k * (2 * 2 ^ e) :=
      ⟨9 - k, by rw [← Nat.pow_succ', ← Nat.pow_add]; congr 1; omega⟩
    rw [digit_lt hk, hnp, he, Nat.mul_assoc, Nat.mul_div_cancel_left _ (Nat.two_pow_pos k),
      Nat.mul_assoc]
    exact Nat.mul_mod_right 2 _
  have hlow : ∀ {order cur : Nat}, order < 10 → rows (digit (size / pageSize)) order cur
      = fun _ => [] := by
    intro order
    induction order with
    | zero =>
      intro cur h
      unfold rows
      rw [hzero 0 h]
      exact Function.update_eq_self 0 _
    | succ order ih =>
      intro cur h
      unfold rows
      rw [hzero _ h, ih (by omega)]
      exact Function.update_eq_self (order + 1) _
  unfold carved initFree
  rw [show rows (digit (size / pageSize)) 10 base
    = Function.update
      (rows (digit (size / pageSize)) 9 (base + digit (size / pageSize) 10 * chunkBytes 10)) 10
        (blockRow 10 base (digit (size / pageSize) 10)) from rfl, hlow (by omega), digit_ten,
          hblocks, hnp,
    Nat.mul_div_cancel_left _ (Nat.two_pow_pos 10)]

/-- **Initialisation partitions the range**, with nothing owned. -/
theorem partition_init (hm : Managed L base size) :
    Partition base size (initFree base size) 0 := by
  rw [← carved_eq_initFree hm]
  exact partition_carved hm.paged

theorem chunkBytes_pages (k : Nat) : chunkBytes k = 2 ^ k * pageSize := rfl

attribute [local irreducible] chunkBytes

/-- The search finds the largest order that fits, if the address is aligned for every order that
does. -/
theorem fittingOrder_spec {addr remaining : Nat} (hpage : pageSize ≤ remaining) : ∀ {top : Nat},
    (∀ k, k ≤ top → chunkBytes k ≤ remaining → chunkBytes k ∣ addr) →
    ∃ r, r ≤ top ∧ fittingOrder addr remaining top = some r ∧ chunkBytes r ≤ remaining ∧
      ∀ k, r < k → k ≤ top → remaining < chunkBytes k := by
  intro top
  induction top with
  | zero =>
    intro hd
    have hle : chunkBytes 0 ≤ remaining := by
      rw [chunkBytes_eq]
      exact hpage
    refine ⟨0, Nat.le_refl 0, ?_, hle, fun k h1 h2 => by omega⟩
    unfold fittingOrder
    exact if_pos ⟨hle, Nat.mod_eq_zero_of_dvd (hd 0 (Nat.le_refl 0) hle)⟩
  | succ top ih =>
    intro hd
    unfold fittingOrder
    by_cases hle : chunkBytes (top + 1) ≤ remaining
    · refine ⟨top + 1, Nat.le_refl _, ?_, hle, fun k h1 h2 => by omega⟩
      exact if_pos ⟨hle, Nat.mod_eq_zero_of_dvd (hd _ (Nat.le_refl _) hle)⟩
    · obtain ⟨r, hr, hfit, hrle, hmax⟩ := ih (fun k hk => hd k (by omega))
      refine ⟨r, by omega, ?_, hrle, fun k h1 h2 => ?_⟩
      · rw [if_neg (fun hh => hle hh.1)]
        exact hfit
      · rcases Nat.eq_or_lt_of_le h2 with rfl | hlt
        · omega
        · exact hmax k h1 (by omega)

/-- Taking the largest power of two off a number takes off its highest digit. -/
theorem digit_take {np r : Nat} (hr : r ≤ 10) (hle : 2 ^ r ≤ np) (hmax : r < 10 → np < 2 ^ (r + 1))
    (k : Nat) :
    digit np k = digit (np - 2 ^ r) k + if k = r then 1 else 0 := by
  obtain ⟨x, rfl⟩ : ∃ x, np = x + 2 ^ r := ⟨np - 2 ^ r, by omega⟩
  have hpos := Nat.two_pow_pos r
  have hzero : ∀ {y j}, r < j → j ≤ 10 → y ≤ x + 2 ^ r → y / 2 ^ j = 0 := by
    intro y j hj hj10 hy
    have hpow : 2 ^ (r + 1) ≤ 2 ^ j := Nat.pow_le_pow_right (by omega) hj
    have := hmax (by omega)
    exact Nat.div_eq_of_lt (by omega)
  rw [Nat.add_sub_cancel]
  rcases Nat.lt_trichotomy k r with hlt | rfl | hgt
  · -- a larger power of two is even there
    obtain ⟨e, he⟩ : ∃ e, 2 ^ r = 2 * e * 2 ^ k :=
      ⟨2 ^ (r - k - 1), by rw [← Nat.pow_succ', ← Nat.pow_add]; congr 1; omega⟩
    rw [digit_lt (by omega), digit_lt (by omega), if_neg (by omega), he,
      Nat.add_mul_div_right _ _ (Nat.two_pow_pos k), Nat.add_mul_mod_self_left, Nat.add_zero]
  · rw [if_pos rfl]
    rcases Nat.eq_or_lt_of_le hr with rfl | hlt
    · rw [digit_ten, digit_ten, Nat.add_div_right _ hpos]
    · have hx : x < 2 ^ k := by
        have := hmax hlt
        rw [Nat.pow_succ] at this
        omega
      rw [digit_lt hlt, digit_lt hlt, Nat.add_div_right _ hpos, Nat.div_eq_of_lt hx]
  · rw [if_neg (by omega), Nat.add_zero]
    unfold digit
    split
    · rw [hzero hgt (by omega) (Nat.le_refl _), hzero hgt (by omega) (by omega)]
    · split
      · rw [hzero (by omega) (Nat.le_refl 10) (Nat.le_refl _),
          hzero (by omega) (Nat.le_refl 10) (by omega)]
      · rfl

/-- **The counting loop counts digits**, in 32 bits. Every round takes at least a page, so as many
rounds as there are pages are enough. -/
theorem countLoop_eq : ∀ {n addr remaining : Nat} {counts : Nat → Nat}, remaining / pageSize ≤ n →
    pageSize ∣ remaining → (∀ k, k ≤ 10 → chunkBytes k ≤ remaining → chunkBytes k ∣ addr) →
    (∀ k, counts k < 2 ^ 32) →
    countLoop n addr remaining counts
    = fun k => (counts k + digit (remaining / pageSize) k) % 2 ^ 32 := by
  have hnone : ∀ {counts : Nat → Nat}, (∀ k, counts k < 2 ^ 32) →
      counts = fun k => (counts k + digit 0 k) % 2 ^ 32 := by
    intro counts hcount
    funext k
    have h0 : digit 0 k = 0 := by
      unfold digit
      simp
    rw [h0, Nat.add_zero, Nat.mod_eq_of_lt (hcount k)]
  intro n
  induction n with
  | zero =>
    intro addr remaining counts hn hd _ hcount
    rw [Nat.le_zero.mp hn]
    exact hnone hcount
  | succ n ih =>
    intro addr remaining counts hn hd hal hcount
    unfold countLoop
    by_cases hlt : remaining < pageSize
    · rw [if_pos hlt, Nat.div_eq_of_lt hlt]
      exact hnone hcount
    · rw [if_neg hlt]
      obtain ⟨r, hr, hfit, hrle, hmax⟩ := fittingOrder_spec (by omega) hal
      rw [hfit]
      simp only
      obtain ⟨np, rfl⟩ := hd
      have hpos : 0 < pageSize := by decide
      rw [Nat.mul_div_cancel_left _ hpos] at hn ⊢
      have hpages : ∀ k, chunkBytes k ≤ pageSize * np ↔ 2 ^ k ≤ np := by
        intro k
        rw [chunkBytes_pages, Nat.mul_comm, Nat.mul_le_mul_left_iff hpos]
      have hrnp := (hpages r).mp hrle
      have htake := digit_take hr hrnp (fun hr10 => by
        by_contra hge
        have := hmax (r + 1) (by omega) (by omega)
        have := (hpages (r + 1)).mpr (by omega)
        omega)
      have hrest : pageSize * np - chunkBytes r = pageSize * (np - 2 ^ r) := by
        rw [chunkBytes_pages, Nat.mul_comm (2 ^ r), Nat.mul_sub]
      have hpow := Nat.two_pow_pos r
      rw [hrest, ih (by rw [Nat.mul_div_cancel_left _ hpos]; omega) (Nat.dvd_mul_right _ _) ?_ ?_,
        Nat.mul_div_cancel_left _ hpos]
      · funext k
        rw [htake k]
        by_cases hk : k = r
        · subst hk
          rw [Function.update_self, if_pos rfl]
          omega
        · rw [Function.update_of_ne hk, if_neg hk]
          rfl
      · -- blocks are aligned in 64 bits too
        intro k hk hle
        have hkr : k ≤ r := by
          by_contra hgt
          have := hmax k (by omega) hk
          omega
        have hword : chunkBytes k ∣ 2 ^ 64 := by
          rw [chunkBytes_eq]
          exact Nat.pow_dvd_pow 2 (by omega)
        exact (Nat.dvd_mod_iff hword).mpr (Nat.dvd_add (hal k hk (by omega)) (chunkBytes_dvd hkr))
      · intro k
        by_cases hk : k = r
        · subst hk
          rw [Function.update_self]
          exact Nat.mod_lt _ (by omega)
        · rw [Function.update_of_ne hk]
          exact hcount k

/-- How many bytes the counts come to: only the count of the largest order can wrap. -/
theorem digit_mod (np : Nat) : (fun k => digit np k % 2 ^ 32) = digit (np % 2 ^ 42) := by
  funext k
  unfold digit
  split
  · have hk : k < 10 := ‹_›
    have h42 : 2 ^ 42 = 2 ^ k * 2 * 2 ^ (41 - k) := by
      rw [← Nat.pow_succ, ← Nat.pow_add]
      congr 1
      omega
    have hbit : np % 2 ^ 42 / 2 ^ k % 2 = np / 2 ^ k % 2 := by
      rw [h42, Nat.mul_assoc, Nat.mod_mul_right_div_self, Nat.mod_mul_right_mod]
    omega
  · split
    · omega
    · rfl

/-! ## The linking loops -/

/-- The inner loop chains the blocks of one order. `left = count` is the first round, whose
block has nothing before it. -/
theorem linkLoop_edits {off k count top : Nat} (hv : View off)
    (hphys : ∀ p, base ≤ p → p < top → L.phys p = true) (htop : top < 2 ^ 64) :
    ∀ {left cur : Nat} {m : Mem}, left ≤ count → base ≤ cur → (left ≠ count → chunkBytes k ≤ cur) →
      cur + left * chunkBytes k ≤ top →
      ∃ m', Edits L off (linkLoop k count left cur) m (cur + left * chunkBytes k) m' ∧
        (cur ≠ 0 → Linked (m' · .chunkNext) (m' · .chunkPrev)
          (if left = count then 0 else cur - chunkBytes k) (blockRow k cur left)) ∧
        ∀ a f, m' a f ≠ m a f →
          (f = .chunkNext ∨ f = .chunkPrev) ∧ base ≤ a ∧ cur ≤ a ∧ a < top := by
  intro left
  induction left with
  | zero =>
    intro cur m _ _ _ _
    refine ⟨m, ?_, fun _ => trivial, fun a f hne => absurd rfl hne⟩
    rw [Nat.zero_mul, Nat.add_zero]
    exact Edits.pure cur
  | succ left ih =>
    intro cur m hcount hbase hcur hle
    have hpos := chunkBytes_pos k
    rw [Nat.succ_mul] at hle
    have hs : L.Stored cur := Or.inl (hphys cur hbase (by omega))
    have hnext : (cur + chunkBytes k) % 2 ^ 64 = cur + chunkBytes k := Nat.mod_eq_of_lt (by omega)
    have hprev : (if left + 1 = count then 0 else sub64 cur (chunkBytes k))
        = if left + 1 = count then 0 else cur - chunkBytes k := by
      split
      · rfl
      · rename_i hno
        have := hcur hno
        unfold sub64
        omega
    obtain ⟨m', hedit, hlink, hframe⟩ := ih
      (m := (m.set cur .chunkNext (if left = 0 then 0 else cur + chunkBytes k)).set cur .chunkPrev
        (if left + 1 = count then 0 else cur - chunkBytes k))
      (by omega) (show base ≤ cur + chunkBytes k by omega) (fun _ => by omega) (by omega)
    refine ⟨m', ?_, fun h0 => ?_, ?_⟩
    · rw [Nat.succ_mul, Nat.add_comm (left * chunkBytes k), ← Nat.add_assoc]
      unfold linkLoop
      rw [hnext, hprev]
      exact Edits.bind (Edits.p2vStore hv hs) (Edits.bind (Edits.p2vStore hv hs) hedit)
    · -- the rounds to come write behind `cur`, so its two links are the ones just stored
      have hkeep : ∀ f, m' cur f = ((m.set cur .chunkNext
          (if left = 0 then 0 else cur + chunkBytes k)).set cur .chunkPrev
          (if left + 1 = count then 0 else cur - chunkBytes k)) cur f := by
        intro f
        by_contra hne
        have := (hframe cur f hne).2.2.1
        omega
      refine ⟨h0, ?_, ?_, ?_⟩
      · simp only [hkeep, Mem.set_self]
      · simp only [hkeep, Mem.set_apply]
        cases left with
        | zero => simp [blockRow, first]
        | succ left => simp [blockRow, first]
      · have hrest := hlink (by omega)
        rw [if_neg (by omega), Nat.add_sub_cancel] at hrest
        exact hrest
    · intro a f hne
      by_cases hsame : m' a f = ((m.set cur .chunkNext
          (if left = 0 then 0 else cur + chunkBytes k)).set cur .chunkPrev
          (if left + 1 = count then 0 else cur - chunkBytes k)) a f
      · rw [hsame, Mem.set_apply, Mem.set_apply] at hne
        split at hne
        · rename_i hc
          exact ⟨Or.inr hc.2, by omega, by omega, by omega⟩
        · split at hne
          · rename_i hc
            exact ⟨Or.inl hc.2, by omega, by omega, by omega⟩
          · exact absurd rfl hne
      · obtain ⟨hf, h1, h2, h3⟩ := hframe a f hsame
        exact ⟨hf, h1, by omega, h3⟩

/-- What is left of a row as a list: a row that starts at address 0 is lost, its head is `NULL`. -/
def kept (l : List Nat) : List Nat := if first l = 0 then [] else l

theorem kept_sub {l : List Nat} {a : Nat} (ha : a ∈ kept l) : a ∈ l := by
  unfold kept at ha
  split at ha
  · exact absurd ha (by simp)
  · exact ha

theorem kept_eq {l : List Nat} (h : ∀ a ∈ l, a ≠ 0) : kept l = l := by
  unfold kept
  cases l with
  | nil => rfl
  | cons a l => exact if_neg (h a List.mem_cons_self)

theorem kept_ne_zero {k cur n a : Nat} (ha : a ∈ kept (blockRow k cur n)) : a ≠ 0 := by
  rintro rfl
  have hmem := kept_sub ha
  cases n with
  | zero => exact absurd hmem (by simp [blockRow])
  | succ n =>
    obtain rfl : cur = 0 := Nat.le_zero.mp (blockRow_ge hmem).1
    have hnil : kept (blockRow k 0 (n + 1)) = [] := if_pos rfl
    rw [hnil] at ha
    exact absurd ha (by simp)

/-- A round of the outer loop links a row, if there is one, and goes on behind it. -/
theorem linkRow_edits {off k cur : Nat} (count : Nat) (rest : Nat → K Unit) (hv : View off)
    (hk : k ≤ 10) (hphys : ∀ p, cur ≤ p → p < cur + count * chunkBytes k → L.phys p = true)
    (htop : cur + count * chunkBytes k < 2 ^ 64) (hzero : m (listHead L k) .ptr = 0) :
    ∃ m', (∀ m'', Edits L off (rest (cur + count * chunkBytes k)) m' () m'' →
        Edits L off (if count = 0 then rest cur else do
          let next ← linkLoop k count count cur
          store (freeListAddr (L.kernelEnd + metadataSize) k) .ptr cur
          rest next) m () m'') ∧
      FreeList L m' k (kept (blockRow k cur count)) ∧
      ∀ a f, m' a f ≠ m a f → (a = listHead L k ∧ f = .ptr) ∨
        ((f = .chunkNext ∨ f = .chunkPrev) ∧ cur ≤ a ∧ a < cur + count * chunkBytes k) := by
  by_cases h0 : count = 0
  · subst h0
    refine ⟨m, fun m'' hrest => ?_, ⟨hzero, trivial⟩, fun a f hne => absurd rfl hne⟩
    rw [Nat.zero_mul, Nat.add_zero] at hrest
    rw [if_pos rfl]
    exact hrest
  · obtain ⟨m₁, hedit, hlink, hframe⟩ := linkLoop_edits (m := m) (k := k) hv hphys htop
      (Nat.le_refl count)
      (Nat.le_refl cur) (fun hno => absurd rfl hno) (Nat.le_refl _)
    rw [if_pos rfl] at hlink
    have hfirst : first (blockRow k cur count) = cur := by
      cases count with
      | zero => exact absurd rfl h0
      | succ n => rfl
    refine ⟨m₁.set (listHead L k) .ptr cur, fun m'' hrest => ?_, ⟨?_, ?_⟩, ?_⟩
    · rw [if_neg h0]
      exact Edits.bind hedit (Edits.bind (Edits.store (image_listHead L hk)) hrest)
    · rw [Mem.set_self]
      unfold kept
      split
      · rw [← hfirst]
        assumption
      · exact hfirst.symm
    · unfold kept
      split
      · trivial
      · rename_i hcur
        rw [hfirst] at hcur
        exact (hlink hcur).congr (fun a _ => Mem.set_ne (Or.inr (by decide)))
          (fun a _ => Mem.set_ne (Or.inr (by decide)))
    · intro a f hne
      rw [Mem.set_apply] at hne
      split at hne
      · exact Or.inl ‹_›
      · obtain ⟨hf, -, h2, h3⟩ := hframe a f hne
        exact Or.inr ⟨hf, h2, h3⟩

/-- **The outer loop links the rows.** -/
theorem linkOrders_edits {off top : Nat} {counts : Nat → Nat} (hv : View off)
    (hphys : ∀ p, base ≤ p → p < top → L.phys p = true) (htop : top < 2 ^ 64) :
    ∀ {order cur : Nat} {m : Mem}, order ≤ 10 → base ≤ cur → cur + rowBytes counts order ≤ top →
      (∀ k, k ≤ order → m (listHead L k) .ptr = 0) →
      ∃ m', Edits L off (linkOrders (L.kernelEnd + metadataSize) counts order cur) m () m' ∧
        (∀ k, k ≤ order → FreeList L m' k (kept (rows counts order cur k))) ∧
        ∀ a f, m' a f ≠ m a f → (f = .ptr ∧ ∃ k, k ≤ order ∧ a = listHead L k) ∨
          ((f = .chunkNext ∨ f = .chunkPrev) ∧ cur ≤ a ∧ a < top) := by
  intro order
  induction order with
  | zero =>
    intro cur m _ hbase hle hzero
    unfold rowBytes at hle
    obtain ⟨m', hedit, hlist, hframe⟩ := linkRow_edits (L := L) (m := m) (counts 0)
      (fun _ => pure ())
      hv (Nat.zero_le 10) (fun (p : Nat) (h1 : cur ≤ p) h2 => hphys p (by omega) (by omega))
        (by omega) (hzero 0 (Nat.le_refl 0))
    refine ⟨m', ?_, fun k hk => ?_, fun a f hne => ?_⟩
    · unfold linkOrders
      exact hedit m' (Edits.pure ())
    · obtain rfl : k = 0 := by omega
      unfold rows
      rw [Function.update_self]
      exact hlist
    · rcases hframe a f hne with ⟨ha, hf⟩ | ⟨hf, h1, h2⟩
      · exact Or.inl ⟨hf, 0, Nat.le_refl 0, ha⟩
      · exact Or.inr ⟨hf, h1, by omega⟩
  | succ order ih =>
    intro cur m horder hbase hle hzero
    unfold rowBytes at hle
    obtain ⟨m₁, hedit, hlist, hframe⟩ := linkRow_edits (L := L) (m := m) (counts (order + 1))
      (linkOrders (L.kernelEnd + metadataSize) counts order) hv horder
      (fun (p : Nat) (h1 : cur ≤ p) h2 => hphys p (by omega) (by omega)) (by omega)
        (hzero _ (Nat.le_refl _))
    have hhead : ∀ k, k ≤ order → m₁ (listHead L k) .ptr = 0 := by
      intro k hk
      by_contra hne
      rw [← hzero k (by omega)] at hne
      rcases hframe _ _ hne with ⟨ha, -⟩ | ⟨hf | hf, -⟩
      · unfold listHead freeListAddr at ha
        omega
      · exact absurd hf (by decide)
      · exact absurd hf (by decide)
    obtain ⟨m', hrest, hlists, hframe'⟩ := ih (m := m₁) (show order ≤ 10 by omega)
      (show base ≤ cur + counts (order + 1) * chunkBytes (order + 1) by omega) (by omega) hhead
    refine ⟨m', ?_, fun k hk => ?_, fun a f hne => ?_⟩
    · unfold linkOrders
      exact hedit m' hrest
    · unfold rows
      rcases Nat.eq_or_lt_of_le hk with rfl | hlt
      · -- the rows to come are behind this one
        rw [Function.update_self]
        have hlink : ∀ a ∈ kept (blockRow (order + 1) cur (counts (order + 1))), ∀ f,
            f = .chunkNext ∨ f = .chunkPrev → m' a f = m₁ a f := by
          intro a ha f hf
          by_contra hne
          have hlt := (blockRow_ge (kept_sub ha)).2
          rcases hframe' a f hne with ⟨hp, -⟩ | ⟨-, h1, -⟩
          · rcases hf with rfl | rfl <;> exact absurd hp (by decide)
          · omega
        refine ⟨?_, hlist.2.congr (fun a ha => hlink a ha _ (Or.inl rfl))
          (fun a ha => hlink a ha _ (Or.inr rfl))⟩
        rw [← hlist.1]
        by_contra hne
        rcases hframe' _ _ hne with ⟨-, j, hj, ha⟩ | ⟨hf | hf, -⟩
        · unfold listHead freeListAddr at ha
          omega
        · exact absurd hf (by decide)
        · exact absurd hf (by decide)
      · rw [Function.update_of_ne (by omega)]
        exact hlists k (by omega)
    · by_cases hsame : m' a f = m₁ a f
      · rw [hsame] at hne
        rcases hframe a f hne with ⟨ha, hf⟩ | ⟨hf, h1, h2⟩
        · exact Or.inl ⟨hf, _, Nat.le_refl _, ha⟩
        · exact Or.inr ⟨hf, h1, by omega⟩
      · rcases hframe' a f hsame with ⟨hf, j, hj, ha⟩ | ⟨hf, h1, h2⟩
        · exact Or.inl ⟨hf, j, by omega, ha⟩
        · exact Or.inr ⟨hf, by omega, h2⟩

theorem storeOffsets_edits {off : Nat} (np : Nat) : ∀ {k : Nat}, k ≤ 10 →
    ∃ m', Edits L off (storeOffsets L.kernelEnd np k) m () m' ∧
      (∀ j, j ≤ k → m' (orderOffsetAddr L.kernelEnd j) .word32 = orderOffset np j) ∧
      ∀ a f, f ≠ .word32 → m' a f = m a f := by
  intro k
  induction k with
  | zero =>
    intro _
    refine ⟨_, Edits.store (image_orderOffset L (Nat.zero_le 10)), ?_, ?_⟩
    · intro j hj
      obtain rfl : j = 0 := by omega
      rw [Mem.set_self]
    · exact fun a f hf => Mem.set_ne (Or.inr hf)
  | succ k ih =>
    intro hk
    obtain ⟨m₁, hedit, hoff, hframe⟩ := ih (by omega)
    refine ⟨_, Edits.bind hedit (Edits.store (image_orderOffset L hk)), ?_, ?_⟩
    · intro j hj
      rw [Mem.set_apply]
      by_cases hjk : j = k + 1
      · rw [hjk, if_pos ⟨rfl, rfl⟩]
      · rw [if_neg (fun hh => hjk (by have := hh.1; unfold orderOffsetAddr at this; omega))]
        exact hoff j (by omega)
    · intro a f hf
      rw [Mem.set_ne (Or.inr hf)]
      exact hframe a f hf

/-! ## The whole initialisation -/

/-- An installed range is smaller than the direct map. -/
theorem Paged.size_lt (hm : Paged L base size) : size < 2 ^ 47 := by
  by_cases h0 : size = 0
  · omega
  · have h := L.phys_lt _ (hm.phys (base + size - 1) (by omega) (by omega))
    unfold physTop at h
    omega

/-- What the two loops of `carve` need: blocks of 4MB in line, whole pages, and readable blocks. The
counts are in 32 bits, so from `2 ^ 54` bytes on only a part of the range is laid out. -/
structure Linkable (L : Layout) (base size : Nat) : Prop where
  base_dvd : chunkBytes 10 ∣ base
  size_dvd : pageSize ∣ size
  phys : ∀ p, base ≤ p → p < base + size % 2 ^ 54 → L.phys p = true
  top : base + size % 2 ^ 54 < 2 ^ 64

theorem Paged.linkable (hm : Paged L base size) (htop : base + size < 2 ^ 64) :
    Linkable L base size := by
  have hlt := hm.size_lt
  have hmod : size % 2 ^ 54 = size := Nat.mod_eq_of_lt (by omega)
  exact ⟨hm.base_dvd, hm.size_dvd, fun p h1 h2 => hm.phys p h1 (by omega), by omega⟩

/-- The pages that are laid out. -/
theorem laid_pages (hd : pageSize ∣ size) :
    size / pageSize % 2 ^ 42 * pageSize = size % 2 ^ 54 := by
  obtain ⟨q, rfl⟩ := hd
  rw [Nat.mul_div_cancel_left _ (by decide)]
  unfold pageSize
  omega

/-- The blocks are counted right. -/
theorem countLoop_init (hb : chunkBytes 10 ∣ base) (hd : pageSize ∣ size) :
    countLoop (size / pageSize) base size (fun _ => 0) = digit (size / pageSize % 2 ^ 42) := by
  rw [countLoop_eq (Nat.le_refl _) hd (fun k hk _ => Nat.dvd_trans (chunkBytes_dvd hk) hb)
    (fun _ => by omega), ← digit_mod]
  funext k
  rw [Nat.zero_add]

/-- The lists after initialisation, for a range that may start at 0 and be of any size. -/
def laid (base size k : Nat) : List Nat := kept (rows (digit (size / pageSize % 2 ^ 42)) 10 base k)

/-- The blocks laid out tile their range. -/
theorem tiles_laid (hd : pageSize ∣ size) : Tiles Chunk.addr Chunk.len base (size % 2 ^ 54)
    (freeChunks (rows (digit (size / pageSize % 2 ^ 42)) 10 base)) := by
  have h : Tiles Chunk.addr Chunk.len base (rowBytes (digit (size / pageSize % 2 ^ 42)) 10)
      (freeChunks (rows (digit (size / pageSize % 2 ^ 42)) 10 base)) := tiles_rows (Nat.le_refl 10)
  rwa [rowBytes_digit, laid_pages hd] at h

theorem laid_inside (hd : pageSize ∣ size) {k a : Nat} (hk : k ≤ 10) (ha : a ∈ laid base size k) :
    base ≤ a ∧ a + chunkBytes k ≤ base + size % 2 ^ 54 :=
  (tiles_laid hd).inside ⟨a, k⟩ (mem_freeChunks.mpr ⟨hk, kept_sub ha⟩)

/-- Nothing is lost of a range that does not start at 0. -/
theorem laid_eq_carved (hm : Paged L base size) : laid base size = carved base size := by
  have hlt := hm.size_lt
  have hnp : size / pageSize % 2 ^ 42 = size / pageSize :=
    Nat.mod_eq_of_lt (by unfold pageSize; omega)
  funext k
  unfold laid carved
  rw [hnp]
  refine kept_eq (fun a ha => ?_)
  rcases Nat.lt_or_ge 10 k with hk | hk
  · rw [rows_above hk] at ha
    exact absurd ha (by simp)
  · have hin := (tiles_rows (Nat.le_refl 10)).inside ⟨a, k⟩ (mem_freeChunks.mpr ⟨hk, ha⟩)
    have := hm.base_ne
    have : base ≤ a := hin.1
    omega

/-- The bits `__init_buddy` leaves: the whole bytes the pages fill are cleared, a last one that they
fill in part is as it was found. -/
def startBit (L : Layout) (m : Mem) (size p : Nat) : Bool :=
  if p / 8 < size / pageSize / 8 then false else bitOf L m p

/-- **The second half of `__init_buddy`** leaves the rows on the lists and the whole bytes of the
bitmap cleared. -/
theorem carve_edits {off : Nat} (hv : View off) (hm : Linkable L base size)
    (hptr : m L.kernelEnd .freeListsPtr = L.kernelEnd + metadataSize)
    (hmax : m L.kernelEnd .maxOrder = 10)
    (hzero : ∀ k, k ≤ 10 → m (listHead L k) .ptr = 0) :
    ∃ m', Edits L off (carve base size) m () m' ∧
      Rep L m' base (size / pageSize) ⟨laid base size, bitOf L m'⟩ ∧
      bitOf L m' = startBit L m size := by
  have himg := image_metadata L
  -- the stores of `base_address` and `size` touch no list
  have hzero₂ : ∀ k, k ≤ 10 → ((m.set L.kernelEnd .baseAddress base).set L.kernelEnd .managedSize
      size) (listHead L k) .ptr = 0 := by
    intro k hk
    rw [Mem.set_ne (Or.inr (by decide)), Mem.set_ne (Or.inr (by decide)), hzero k hk]
  have hbytes : base + rowBytes (digit (size / pageSize % 2 ^ 42)) 10 = base + size % 2 ^ 54 := by
    rw [rowBytes_digit, laid_pages hm.size_dvd]
  obtain ⟨m₃, hlinks, hlists, hframe⟩ := linkOrders_edits hv hm.phys hm.top (Nat.le_refl 10)
    (Nat.le_refl base) (Nat.le_of_eq hbytes) hzero₂
  obtain ⟨m₆, hoffs, hoff, hkeep⟩ := storeOffsets_edits (L := L) (size / pageSize)
    (m := (m₃.set L.kernelEnd .bitmapPtr (L.kernelEnd + metadataSize + 11 * 8)).zero
      (L.kernelEnd + metadataSize + 11 * 8) (size / pageSize / 8)) (Nat.le_refl 10)
  -- below the bitmap the last three stages change one field and the offsets
  have hlow : ∀ a f, a < L.kernelEnd + metadataSize + 11 * 8 → f ≠ .word32 → f ≠ .bitmapPtr →
      m₆ a f = m₃ a f := by
    intro a f ha h1 h2
    rw [hkeep a f h1, Mem.zero_of_not_mem (Or.inl ha), Mem.set_ne (Or.inr h2)]
  have hfield : ∀ f, f ≠ .ptr → f ≠ .chunkNext → f ≠ .chunkPrev → m₃ L.kernelEnd f
      = ((m.set L.kernelEnd .baseAddress base).set L.kernelEnd .managedSize size)
          L.kernelEnd f := by
    intro f h1 h2 h3
    by_contra hne
    rcases hframe _ f hne with ⟨hf, -⟩ | ⟨hf | hf, -⟩
    · exact h1 hf
    · exact h2 hf
    · exact h3 hf
  refine ⟨m₆, ?_, ⟨?_, ?_, ?_, ?_, hoff, ?_, fun p _ => rfl⟩, ?_⟩
  · refine Edits.bind (Edits.of_eq (fun s => rfl)) ?_
    refine Edits.bind (Edits.load himg hptr) ?_
    refine Edits.bind (Edits.store himg) (Edits.bind (Edits.store himg) ?_)
    rw [countLoop_init hm.base_dvd hm.size_dvd]
    refine Edits.bind hlinks (Edits.bind (Edits.store himg) ?_)
    refine Edits.bind (Edits.memsetZero ?_) hoffs
    have := L.metadata_image (78 + 88) (by unfold metadataSpan; omega)
    simpa [metadataSize, Nat.add_assoc] using this
  · rw [hlow _ _ (by omega) (by decide) (by decide), hfield _ (by decide) (by decide) (by decide),
      Mem.set_ne (Or.inr (by decide)), Mem.set_ne (Or.inr (by decide)), hptr]
  · rw [hkeep _ _ (by decide), Mem.zero_of_not_mem (Or.inl (by omega)), Mem.set_self]
  · rw [hlow _ _ (by omega) (by decide) (by decide), hfield _ (by decide) (by decide) (by decide),
      Mem.set_ne (Or.inr (by decide)), Mem.set_self]
  · rw [hlow _ _ (by omega) (by decide) (by decide), hfield _ (by decide) (by decide) (by decide),
      Mem.set_ne (Or.inr (by decide)), Mem.set_ne (Or.inr (by decide)), hmax]
  · intro k hk
    obtain ⟨hhead, hlink⟩ := hlists k hk
    have hnode : ∀ a ∈ laid base size k, a < L.kernelEnd + metadataSize + 11 * 8 := by
      intro a ha
      obtain ⟨hge, hle⟩ := laid_inside hm.size_dvd hk ha
      have hpos := chunkBytes_pos k
      have h1 := L.phys_lt a (hm.phys a hge (by omega))
      have h2 := L.image_ge _ himg
      unfold physTop at h1
      unfold pml4KernelHalfBase at h2
      omega
    refine ⟨?_, hlink.congr (fun a ha => hlow _ _ (hnode a ha) (by decide) (by decide))
      (fun a ha => hlow _ _ (hnode a ha) (by decide) (by decide))⟩
    rw [hlow _ _ (by unfold listHead freeListAddr; omega) (by decide) (by decide)]
    exact hhead
  · funext p
    unfold startBit bitOf
    rw [hkeep _ _ (by decide)]
    by_cases hp : p / 8 < size / pageSize / 8
    · rw [if_pos hp, Mem.zero_of_mem (by unfold bitmapByte; omega) (by unfold bitmapByte; omega),
        Nat.zero_testBit]
    · -- links and heads are no bytes of the bitmap
      have hbyte : m₃ (bitmapByte L p) .byte = m (bitmapByte L p) .byte := by
        refine Eq.trans
          (b := ((m.set L.kernelEnd .baseAddress base).set L.kernelEnd .managedSize size)
          (bitmapByte L p) .byte) ?_ ?_
        · by_contra hne
          rcases hframe _ _ hne with ⟨hf, -⟩ | ⟨hf | hf, -⟩ <;> exact absurd hf (by decide)
        · rw [Mem.set_ne (Or.inr (by decide)), Mem.set_ne (Or.inr (by decide))]
      rw [if_neg hp, Mem.zero_of_not_mem (Or.inr (by unfold bitmapByte; omega)),
        Mem.set_ne (Or.inr (by decide)), hbyte]

/-- `__init_buddy` from the point of view of a range: everything but the scan that chooses it. -/
def initBuddyAt (base size : Nat) : K Unit := do
  spinlockInit .buddyLock
  let metadata ← kernelEnd
  store metadata .minOrder 0
  store metadata .maxOrder 10
  let freeLists := metadata + metadataSize
  store metadata .freeListsPtr freeLists
  memsetZero freeLists (11 * 8)
  carve base size

theorem initBuddy_eq (entries : List MmapEntry) (s : KState) : initBuddy entries L s
    = initBuddyAt (managedRange L.kernelEnd entries).1 (managedRange L.kernelEnd entries).2 L
        s := by
  unfold initBuddy initBuddyAt
  simp only [K.bind_apply, spinlockInit, kernelEnd_apply]

/-- **`__init_buddy` returns** when all it lays out is readable, and leaves this on the lists. -/
theorem initBuddyAt_laid {s : KState} (hv : View s.physMapOffset) (hm : Linkable L base size) :
    ∃ s', initBuddyAt base size L s = .ok ((), s') ∧ s'.physMapOffset = s.physMapOffset ∧
      (s'.lock .buddyLock).Free ∧
      Rep L s'.mem base (size / pageSize) ⟨laid base size, bitOf L s'.mem⟩ ∧
      bitOf L s'.mem = startBit L s.mem size := by
  have himg := image_metadata L
  have hstart : L.image (L.kernelEnd + metadataSize) = true := by
    have := L.metadata_image 78 (by unfold metadataSpan; omega)
    simpa [metadataSize] using this
  let m₁ : Mem := (((s.mem.set L.kernelEnd .minOrder 0).set L.kernelEnd .maxOrder 10).set
    L.kernelEnd .freeListsPtr (L.kernelEnd + metadataSize)).zero (L.kernelEnd + metadataSize)
      (11 * 8)
  have hbelow : ∀ f, m₁ L.kernelEnd f = (((s.mem.set L.kernelEnd .minOrder 0).set L.kernelEnd
      .maxOrder 10).set L.kernelEnd .freeListsPtr (L.kernelEnd + metadataSize)) L.kernelEnd f :=
    fun f => Mem.zero_of_not_mem (Or.inl (by unfold metadataSize; omega))
  obtain ⟨m', hcarve, hr, hbit⟩ := carve_edits (m := m₁) hv hm
    (by rw [hbelow, Mem.set_self])
    (by rw [hbelow, Mem.set_ne (Or.inr (by decide)), Mem.set_self])
    (fun k hk => Mem.zero_of_mem (by unfold listHead freeListAddr; omega)
      (by unfold listHead freeListAddr; omega))
  -- the bitmap is behind what has been cleared so far
  have hbits : startBit L m₁ size = startBit L s.mem size := by
    funext p
    have hbyte : m₁ (bitmapByte L p) .byte = s.mem (bitmapByte L p) .byte := by
      refine (Mem.zero_of_not_mem (Or.inr (by unfold bitmapByte; omega))).trans ?_
      rw [Mem.set_ne (Or.inr (by decide)), Mem.set_ne (Or.inr (by decide)),
        Mem.set_ne (Or.inr (by decide))]
    unfold startBit bitOf
    rw [hbyte]
  have hbody : Edits L s.physMapOffset (do
      let metadata ← kernelEnd
      store metadata .minOrder 0
      store metadata .maxOrder 10
      let freeLists := metadata + metadataSize
      store metadata .freeListsPtr freeLists
      memsetZero freeLists (11 * 8)
      carve base size) s.mem () m' := by
    refine Edits.bind (Edits.of_eq (fun s => rfl)) ?_
    refine Edits.bind (Edits.store himg) (Edits.bind (Edits.store himg) ?_)
    exact Edits.bind (Edits.store himg) (Edits.bind (Edits.memsetZero hstart) hcarve)
  refine ⟨_, hbody { s with lock := Function.update s.lock .buddyLock Spinlock.init } rfl rfl, rfl,
    ?_, hr, hbit.trans hbits⟩
  simp [Spinlock.Free, Spinlock.init]

/-- **`__init_buddy` returns, and leaves the carving** and the whole bytes of the bitmap cleared. -/
theorem initBuddyAt_rep {s : KState} (hv : View s.physMapOffset) (hm : Paged L base size)
    (htop : base + size < 2 ^ 64) :
    ∃ s', initBuddyAt base size L s = .ok ((), s') ∧ s'.physMapOffset = s.physMapOffset ∧
      (s'.lock .buddyLock).Free ∧
      Rep L s'.mem base (size / pageSize) ⟨carved base size, bitOf L s'.mem⟩ ∧
      bitOf L s'.mem = startBit L s.mem size := by
  rw [← laid_eq_carved hm]
  exact initBuddyAt_laid hv (hm.linkable htop)

/-- **The carving is exact.** The two loops return and leave lists that are linked both ways, whose
blocks cover each address of the range once and are aligned to their own size; the largest order has
all the blocks that fit, in address order, and each smaller one at most one. -/
theorem initBuddyAt_exact {s : KState} (hv : View s.physMapOffset) (hm : Paged L base size)
    (htop : base + size < 2 ^ 64) :
    ∃ s' free, initBuddyAt base size L s = .ok ((), s') ∧
      (∀ k, k ≤ 10 → FreeList L s'.mem k (free k)) ∧ Partition base size free 0 ∧
      (∀ k, k < 10 → (free k).length ≤ 1) ∧
      (free 10).length = size / 0x400000 ∧ (free 10).Pairwise (· < ·) := by
  obtain ⟨s', hrun, -, -, hrep, -⟩ := initBuddyAt_rep hv hm htop
  refine ⟨s', carved base size, hrun, hrep.lists, partition_carved hm, fun k hk => ?_, ?_, ?_⟩
  · rw [carved_low hk, blockRow_length, digit_lt hk]
    omega
  · rw [carved_ten, blockRow_length, Nat.div_div_eq_div_mul]
    rfl
  · rw [carved_ten]
    exact blockRow_ascending

/-- The range of `smallLayout` but for its last page: one block of every order below 10. -/
theorem initBuddyAt_exact_ragged : ∃ s' free,
    initBuddyAt 0x400000 0x3ff000 smallLayout bootState = .ok ((), s') ∧
      (∀ k, k ≤ 10 → FreeList smallLayout s'.mem k (free k)) ∧ Partition 0x400000 0x3ff000 free 0 ∧
      (∀ k, k < 10 → (free k).length ≤ 1) ∧
      (free 10).length = 0x3ff000 / 0x400000 ∧ (free 10).Pairwise (· < ·) :=
  initBuddyAt_exact (Or.inl rfl)
    ⟨by decide, ⟨1, by rw [chunkBytes_ten]⟩, by decide,
      fun p h1 h2 => decide_eq_true ⟨h1, by omega⟩⟩ (by decide)

/-- **The count of the 4MB blocks is in 32 bits.** Of a range of `2 ^ 54` bytes it is `2 ^ 32`,
which is 0: `__init_buddy` returns and every list is empty. -/
theorem initBuddyAt_wraps :
    chunkBytes 10 ∣ 0x400000 ∧ pageSize ∣ 2 ^ 54 ∧ 0x400000 + 2 ^ 54 < 2 ^ 64 ∧
    ∃ s', initBuddyAt 0x400000 (2 ^ 54) smallLayout bootState = .ok ((), s') ∧
      (∀ k, k ≤ 10 → FreeList smallLayout s'.mem k []) ∧
      ¬ ∃ free, (∀ k, k ≤ 10 → FreeList smallLayout s'.mem k (free k)) ∧
        Partition 0x400000 (2 ^ 54) free 0 := by
  have hlink : Linkable smallLayout 0x400000 (2 ^ 54) :=
    ⟨⟨1, by rw [chunkBytes_ten]⟩, by decide, fun p h1 h2 => by omega, by decide⟩
  obtain ⟨s', hrun, -, -, hrep, -⟩ := initBuddyAt_laid (s := bootState) (Or.inl rfl) hlink
  -- a block on a list would be inside the part that is laid out, of which nothing is left
  have hnil : ∀ k, k ≤ 10 → laid 0x400000 (2 ^ 54) k = [] := by
    refine fun k hk => List.eq_nil_iff_forall_not_mem.mpr (fun a ha => ?_)
    have hin := laid_inside hlink.size_dvd hk ha
    have hpos := chunkBytes_pos k
    omega
  have hlists : ∀ k, k ≤ 10 → FreeList smallLayout s'.mem k [] := by
    intro k hk
    have h : FreeList smallLayout s'.mem k (laid 0x400000 (2 ^ 54) k) := hrep.lists k hk
    rwa [hnil k hk] at h
  refine ⟨hlink.base_dvd, hlink.size_dvd, by decide, s', hrun, hlists, ?_⟩
  rintro ⟨free, hfree, hpart⟩
  obtain ⟨c, hc, -⟩ :=
    hpart.tiles.exists_covers (Nat.le_refl _) (Nat.lt_add_of_pos_right (by decide))
  rw [add_zero] at hc
  obtain ⟨hk, hmem⟩ := mem_freeChunks.mp hc
  rw [(hfree c.order hk).unique (hlists c.order hk)] at hmem
  exact absurd hmem List.not_mem_nil

/-- The range ends below `2 ^ 64`; an empty one because its base is a 64-bit value. -/
theorem managed_lt {entries : List MmapEntry}
    (hrange : managedRange L.kernelEnd entries = (base, size)) (hm : Paged L base size) :
    base + size < 2 ^ 64 := by
  by_cases h0 : size = 0
  · have hb : base < 2 ^ 64 := by
      rw [show base = (managedRange L.kernelEnd entries).1 by rw [hrange]]
      exact Nat.mod_lt _ (by omega)
    omega
  · have h := L.phys_lt _ (hm.phys (base + size - 1) (by omega) (by omega))
    unfold physTop at h
    omega

/-- **`__init_buddy` returns, and leaves the carving** and the whole bytes of the bitmap cleared. -/
theorem initBuddy_rep {s : KState} {entries : List MmapEntry} (hv : View s.physMapOffset)
    (hrange : managedRange L.kernelEnd entries = (base, size)) (hm : Paged L base size) :
    ∃ s', initBuddy entries L s = .ok ((), s') ∧ s'.physMapOffset = s.physMapOffset ∧
      (s'.lock .buddyLock).Free ∧
      Rep L s'.mem base (size / pageSize) ⟨carved base size, bitOf L s'.mem⟩ ∧
      bitOf L s'.mem = startBit L s.mem size := by
  obtain ⟨s', hrun, hrest⟩ := initBuddyAt_rep hv hm (managed_lt hrange hm)
  refine ⟨s', ?_, hrest⟩
  rw [initBuddy_eq, hrange]
  exact hrun

/-- On whole blocks of 4MB it leaves them on list 10, and no bit set. -/
theorem initBuddy_whole {s : KState} {entries : List MmapEntry} (hv : View s.physMapOffset)
    (hrange : managedRange L.kernelEnd entries = (base, size)) (hm : Managed L base size) :
    ∃ s', initBuddy entries L s = .ok ((), s') ∧ s'.physMapOffset = s.physMapOffset ∧
      (s'.lock .buddyLock).Free ∧
      Rep L s'.mem base (size / pageSize) ⟨initFree base size, bitOf L s'.mem⟩ ∧
      ∀ p, p < size / pageSize → bitOf L s'.mem p = false := by
  obtain ⟨s', hrun, hoff, hfree, hrep, hbits⟩ := initBuddy_rep hv hrange hm.paged
  rw [carved_eq_initFree hm] at hrep
  have h8 : 8 ∣ size / pageSize := by
    obtain ⟨q, hq⟩ := hm.size_dvd
    rw [hq, chunkBytes_ten]
    unfold pageSize
    omega
  refine ⟨s', hrun, hoff, hfree, hrep, fun p hp => ?_⟩
  rw [hbits]
  exact if_pos (by omega)

end Buddy
end MikroKernel
