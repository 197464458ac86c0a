import MikroKernel.Alloc.PhysAlloc
import MikroKernel.Lib.Bits
import MikroKernel.Machine.Effect
import MikroKernel.Vm.Mmu

/-!
# The page tables in memory

A table of level `l` covers `9 * l` bits of the page number, so it is known by its level and the
page number without those bits: its key. The table of level `l` with key `K` has the entries with
keys `K * 512 + i`; entry `k` of level `l + 1` leads to the table of level `l` with key `k`. The
root is the table of level 4 with key 0. `Tables` says which tables there are and which leaves, and
`Inv` that memory holds them, each in a frame of its own.

With keys the levels are all alike: making a table (`Inv.wire`), writing an entry (`Inv.write`) and
taking a table away (`Inv.unwire`) are stated once, and `map_pages` and `unmap_pages` use them at
three levels.
-/

set_option autoImplicit false

namespace MikroKernel
namespace Mmu

/-! ## Bits of an entry -/

theorem and_mask_of_dvd {x : Nat} (h : pageSize ∣ x) (hlt : x < 2 ^ 52) :
    x &&& pteAddrMask = x := by
  obtain ⟨y, rfl⟩ := h
  have hy : y < 2 ^ 40 := by unfold pageSize at hlt; omega
  have hmask : pteAddrMask = (2 ^ 40 - 1) <<< 12 := by decide
  rw [show pageSize * y = y <<< 12 by rw [Nat.shiftLeft_eq, Nat.mul_comm]; rfl, hmask,
    ← Nat.shiftLeft_and_distrib, Nat.and_two_pow_sub_one_eq_mod, Nat.mod_eq_of_lt hy]

/-- The address of an entry. -/
theorem or_and_mask {x f : Nat} (h : pageSize ∣ x) (hlt : x < 2 ^ 52) (hf : f &&& pteAddrMask = 0) :
    (x ||| f) &&& pteAddrMask = x := by
  rw [Nat.and_or_distrib_right, and_mask_of_dvd h hlt, hf, Nat.or_zero]

/-- A bit below the address. -/
theorem or_and_low {x f b : Nat} (h : pageSize ∣ x) (hb : b < 2 ^ 12) :
    (x ||| f) &&& b = f &&& b := by
  have hx : x &&& b = 0 := by
    have hlt : x &&& b < 2 ^ 12 := Nat.lt_of_le_of_lt Nat.and_le_right hb
    have hz : x % 2 ^ 12 = 0 := Nat.mod_eq_zero_of_dvd h
    rw [← Nat.mod_eq_of_lt hlt, Nat.and_mod_two_pow, hz, Nat.zero_and]
  rw [Nat.and_or_distrib_right, hx, Nat.zero_or]

/-- `(uint64_t)table | PTE_PRESENT | PTE_WRITABLE`. -/
def tablePte (t : Nat) : Nat := t ||| ptePresent ||| pteWritable

theorem tablePte_eq (t : Nat) : tablePte t = t ||| 3 := Nat.or_assoc t 1 2

theorem tablePte_addr {t : Nat} (h : pageSize ∣ t) (hlt : t < 2 ^ 52) :
    tablePte t &&& pteAddrMask = t := by
  rw [tablePte_eq]
  exact or_and_mask h hlt (by decide)

theorem tablePte_present {t : Nat} (h : pageSize ∣ t) : tablePte t &&& ptePresent ≠ 0 := by
  rw [tablePte_eq, or_and_low h (by decide)]
  decide

theorem tablePte_not_huge {t : Nat} (h : pageSize ∣ t) : tablePte t &&& pteHugePage = 0 := by
  rw [tablePte_eq, or_and_low h (by decide)]
  decide

theorem ne_zero_of_and {x b : Nat} (h : x &&& b ≠ 0) : x ≠ 0 := by
  rintro rfl
  simp at h

/-! ## Tables and leaves -/

/-- Which tables there are, by level and key, and the leaves: entries of 2MB pages and of 4KB pages,
`0` where there is none. -/
structure Tables where
  dir : Nat → Nat → Option Nat
  huge : Nat → Nat
  small : Nat → Nat

/-- What entry `k` of level `l` holds. -/
def Tables.entry (T : Tables) (l k : Nat) : Nat :=
  if l = 1 then T.small k
  else
    match T.dir (l - 1) k with
    | some t => tablePte t
    | none => if l = 2 then T.huge k else 0

/-- The tables form a tree with leaves, from the root down. -/
structure Shape (root : Nat) (T : Tables) : Prop where
  root : ∀ K t, T.dir 4 K = some t ↔ K = 0 ∧ t = root
  level : ∀ {l K t}, T.dir l K = some t → 1 ≤ l ∧ l ≤ 4
  parent : ∀ {l K t}, T.dir l K = some t → l ≤ 3 → ∃ u, T.dir (l + 1) (K / 512) = some u
  inj : ∀ {l K l' K' t}, T.dir l K = some t → T.dir l' K' = some t → l = l' ∧ K = K'
  aligned : ∀ {l K t}, T.dir l K = some t → pageSize ∣ t
  small_table : ∀ {P}, T.small P ≠ 0 → ∃ t, T.dir 1 (P / 512) = some t
  huge_table : ∀ {Q}, T.huge Q ≠ 0 → ∃ t, T.dir 2 (Q / 512) = some t
  huge_none : ∀ {Q}, T.huge Q ≠ 0 → T.dir 1 Q = none
  small_present : ∀ {P}, T.small P ≠ 0 → T.small P &&& ptePresent ≠ 0
  huge_present : ∀ {Q}, T.huge Q ≠ 0 → T.huge Q &&& ptePresent ≠ 0 ∧ T.huge Q &&& pteHugePage ≠ 0

variable {root : Nat} {T T' : Tables} {l k K t u i : Nat}

/-- An entry that leads to a table. -/
theorem Tables.entry_table (hl : 1 ≤ l) (h : T.dir l k = some t) :
    T.entry (l + 1) k = tablePte t := by
  unfold Tables.entry
  rw [if_neg (by omega), Nat.add_sub_cancel, h]

theorem Tables.entry_leaf (h : T.dir 1 k = none) : T.entry 2 k = T.huge k := by
  unfold Tables.entry
  rw [if_neg (by omega), show 2 - 1 = 1 from rfl, h]
  rfl

theorem Tables.entry_none (hl : 2 ≤ l) (h : T.dir l k = none) : T.entry (l + 1) k = 0 := by
  unfold Tables.entry
  rw [if_neg (by omega), Nat.add_sub_cancel, h]
  simp only
  rw [if_neg (by omega)]

theorem Shape.entry_ne_zero (h : Shape root T) (hd : T.dir l k = some t) :
    T.entry (l + 1) k ≠ 0 := by
  rw [Tables.entry_table (h.level hd).1 hd]
  exact ne_zero_of_and (tablePte_present (h.aligned hd))

/-- Without its table an entry key has nothing. -/
theorem Shape.entry_of_missing (h : Shape root T) (hl : 1 ≤ l) (hl4 : l ≤ 3)
    (hd : T.dir l (k / 512) = none) : T.entry l k = 0 := by
  by_contra hne
  obtain rfl | rfl | rfl : l = 1 ∨ l = 2 ∨ l = 3 := by omega
  · obtain ⟨t, ht⟩ := h.small_table (show T.small k ≠ 0 from hne)
    rw [hd] at ht
    exact absurd ht (by simp)
  · cases h1 : T.dir 1 k with
    | some t =>
      obtain ⟨u, hu⟩ := h.parent h1 (by omega)
      rw [hd] at hu
      exact absurd hu (by simp)
    | none =>
      rw [Tables.entry_leaf h1] at hne
      obtain ⟨t, ht⟩ := h.huge_table hne
      rw [hd] at ht
      exact absurd ht (by simp)
  · cases h2 : T.dir 2 k with
    | some t =>
      obtain ⟨u, hu⟩ := h.parent h2 (by omega)
      rw [hd] at hu
      exact absurd hu (by simp)
    | none => exact hne (Tables.entry_none (by omega) h2)

/-- A table whose key is that of a 2MB leaf is missing. -/
theorem Shape.no_leaf (h : Shape root T) (hd : T.dir 1 k = some t) : T.huge k = 0 := by
  by_contra hne
  rw [h.huge_none hne] at hd
  exact absurd hd (by simp)

/-! ## Changing one table -/

/-- The directory with one place changed. -/
def Tables.setDir (T : Tables) (l k : Nat) (x : Option Nat) : Tables :=
  { T with dir := fun l' k' => if l' = l ∧ k' = k then x else T.dir l' k' }

theorem Tables.setDir_self (x : Option Nat) : (T.setDir l k x).dir l k = x := if_pos ⟨rfl, rfl⟩

theorem Tables.setDir_ne {l' k' : Nat} {x : Option Nat} (h : ¬ (l' = l ∧ k' = k)) :
    (T.setDir l k x).dir l' k' = T.dir l' k' := if_neg h

theorem Tables.setDir_eq_some {l' k' v : Nat} {x : Option Nat}
    (h : (T.setDir l k x).dir l' k' = some v) :
    (l' = l ∧ k' = k ∧ x = some v) ∨ (¬ (l' = l ∧ k' = k) ∧ T.dir l' k' = some v) := by
  by_cases hc : l' = l ∧ k' = k
  · obtain ⟨rfl, rfl⟩ := hc
    rw [Tables.setDir_self] at h
    exact Or.inl ⟨rfl, rfl, h⟩
  · rw [Tables.setDir_ne hc] at h
    exact Or.inr ⟨hc, h⟩

/-- Only the entry that leads there changes. -/
theorem Tables.setDir_entry {l' k' : Nat} {x : Option Nat} (h : ¬ (l' = l + 1 ∧ k' = k))
    (hl' : 1 ≤ l') : (T.setDir l k x).entry l' k' = T.entry l' k' := by
  unfold Tables.entry
  by_cases h1 : l' = 1
  · rw [if_pos h1, if_pos h1]
    rfl
  · rw [if_neg h1, if_neg h1, Tables.setDir_ne (by omega)]
    rfl

/-- A new table, which nothing leads to yet and whose entries are all zero. -/
theorem Shape.wire (h : Shape root T) (hl : 1 ≤ l) (hl3 : l ≤ 3) (hnone : T.dir l k = none)
    (hu : T.dir (l + 1) (k / 512) = some u) (hleaf : l = 1 → T.huge k = 0)
    (hdvd : pageSize ∣ t) (hnew : ∀ l' K', T.dir l' K' ≠ some t) :
    Shape root (T.setDir l k (some t)) := by
  have hkeep : ∀ {l' K' v}, T.dir l' K' = some v → (T.setDir l k (some t)).dir l' K' = some v := by
    intro l' K' v hv
    rw [Tables.setDir_ne, hv]
    rintro ⟨rfl, rfl⟩
    rw [hnone] at hv
    exact absurd hv (by simp)
  constructor
  · intro K v
    rw [Tables.setDir_ne (by omega)]
    exact h.root K v
  · intro l' K' v hv
    rcases Tables.setDir_eq_some hv with ⟨rfl, -, -⟩ | ⟨-, hv⟩
    · omega
    · exact h.level hv
  · intro l' K' v hv hl'
    rcases Tables.setDir_eq_some hv with ⟨rfl, rfl, -⟩ | ⟨-, hv⟩
    · exact ⟨u, hkeep hu⟩
    · obtain ⟨w, hw⟩ := h.parent hv hl'
      exact ⟨w, hkeep hw⟩
  · intro l₁ K₁ l₂ K₂ v h₁ h₂
    rcases Tables.setDir_eq_some h₁ with ⟨hl₁, hK₁, e₁⟩ | ⟨-, g₁⟩ <;>
      rcases Tables.setDir_eq_some h₂ with ⟨hl₂, hK₂, e₂⟩ | ⟨-, g₂⟩
    · exact ⟨hl₁.trans hl₂.symm, hK₁.trans hK₂.symm⟩
    · exact absurd (g₂.trans e₁.symm) (hnew _ _)
    · exact absurd (g₁.trans e₂.symm) (hnew _ _)
    · exact h.inj g₁ g₂
  · intro l' K' v hv
    rcases Tables.setDir_eq_some hv with ⟨-, -, e⟩ | ⟨-, hv⟩
    · rw [Option.some.injEq] at e
      exact e ▸ hdvd
    · exact h.aligned hv
  · intro P hP
    obtain ⟨v, hv⟩ := h.small_table hP
    exact ⟨v, hkeep hv⟩
  · intro Q hQ
    obtain ⟨v, hv⟩ := h.huge_table hQ
    exact ⟨v, hkeep hv⟩
  · intro Q hQ
    rw [Tables.setDir_ne]
    · exact h.huge_none hQ
    · rintro ⟨h1, rfl⟩
      exact hQ (hleaf h1.symm)
  · exact h.small_present
  · exact h.huge_present

/-- Taking away a table whose entries are all zero. -/
theorem Shape.unwire (h : Shape root T) (hl3 : l ≤ 3) (ht : T.dir l K = some t)
    (hzero : ∀ i, i < 512 → T.entry l (K * 512 + i) = 0) : Shape root (T.setDir l K none) := by
  have hsub : ∀ {l' K' v}, (T.setDir l K none).dir l' K' = some v → T.dir l' K' = some v := by
    intro l' K' v hv
    rcases Tables.setDir_eq_some hv with ⟨-, -, e⟩ | ⟨-, hv⟩
    · exact absurd e (by simp)
    · exact hv
  -- nothing hangs below it
  have hbelow : ∀ {k}, k / 512 = K → T.entry l k = 0 := by
    intro k hk
    have := hzero (k % 512) (Nat.mod_lt _ (by omega))
    rwa [← hk, Nat.mul_comm, Nat.div_add_mod] at this
  have hpos := (h.level ht).1
  constructor
  · intro K' v
    rw [Tables.setDir_ne (by omega)]
    exact h.root K' v
  · exact fun hv => h.level (hsub hv)
  · intro l' K' v hv hl'
    have hv' := hsub hv
    obtain ⟨w, hw⟩ := h.parent hv' hl'
    refine ⟨w, ?_⟩
    rw [Tables.setDir_ne, hw]
    rintro ⟨rfl, hK⟩
    exact h.entry_ne_zero hv' (hbelow hK)
  · exact fun h₁ h₂ => h.inj (hsub h₁) (hsub h₂)
  · exact fun hv => h.aligned (hsub hv)
  · intro P hP
    obtain ⟨v, hv⟩ := h.small_table hP
    refine ⟨v, ?_⟩
    rw [Tables.setDir_ne, hv]
    rintro ⟨rfl, hK⟩
    exact hP (hbelow hK)
  · intro Q hQ
    obtain ⟨v, hv⟩ := h.huge_table hQ
    refine ⟨v, ?_⟩
    rw [Tables.setDir_ne, hv]
    rintro ⟨rfl, hK⟩
    have := hbelow hK
    rw [Tables.entry_leaf (h.huge_none hQ)] at this
    exact hQ this
  · intro Q hQ
    cases hd : (T.setDir l K none).dir 1 Q with
    | none => rfl
    | some v =>
      have := hsub hd
      rw [h.huge_none hQ] at this
      exact absurd this (by simp)
  · exact h.small_present
  · exact h.huge_present

/-- The entry that led to a table is zero once the table is gone. -/
theorem Shape.entry_unwired (h : Shape root T) (ht : T.dir l K = some t) :
    (T.setDir l K none).entry (l + 1) K = 0 := by
  have hpos := (h.level ht).1
  rcases Nat.eq_or_lt_of_le hpos with rfl | hlt
  · rw [Tables.entry_leaf (Tables.setDir_self none)]
    exact h.no_leaf ht
  · exact Tables.entry_none hlt (Tables.setDir_self none)

/-! ## In memory -/

variable {L : Layout} {A : PhysAlloc L} {s : KState}

/-- An entry of a table is in its frame. -/
theorem entryAddr_inside (t : Nat) (hi : i < 512) :
    t ≤ entryAddr t i ∧ entryAddr t i < t + pageSize := by
  unfold entryAddr pageSize
  omega

/-- The block is the frame of a table. -/
def Owns (T : Tables) (b : Block) : Prop := ∃ l K, T.dir l K = some b.addr ∧ b.len = pageSize

/-- Memory holds the tables, each in a block of the page allocator. -/
structure Inv (A : PhysAlloc L) (root : Nat) (s : KState) (T : Tables) : Prop where
  shape : Shape root T
  entries : ∀ {l K t}, T.dir l K = some t → ∀ i, i < 512 →
    s.mem (entryAddr t i) .pte = T.entry l (K * 512 + i)
  block : ∀ {l K t}, T.dir l K = some t → ⟨t, pageSize⟩ ∈ s.blocks
  ok : A.Ok s
  view : View s.physMapOffset

theorem Inv.root_dir (h : Inv A root s T) :
    T.dir 4 0 = some root := (h.shape.root 0 root).mpr ⟨rfl, rfl⟩

theorem Inv.phys (h : Inv A root s T) (ht : T.dir l K = some t) {a : Nat} (h1 : t ≤ a)
    (h2 : a < t + pageSize) : L.phys a = true := ((A.ok_blocks h.ok _ (h.block ht)).2 a h1 h2).1

theorem Inv.lt (h : Inv A root s T) (ht : T.dir l K = some t) : t + pageSize ≤ 2 ^ 47 := by
  have := L.phys_lt _ (h.phys ht (show t ≤ t + (pageSize - 1) by omega) (by unfold pageSize; omega))
  unfold physTop at this
  unfold pageSize at *
  omega

theorem Inv.stored (h : Inv A root s T) (ht : T.dir l K = some t) (hi : i < 512) :
    L.Stored (entryAddr t i) :=
  Or.inl (h.phys ht (entryAddr_inside t hi).1 (entryAddr_inside t hi).2)

/-- An entry on the way to `k`. -/
theorem Inv.read (h : Inv A root s T) (ht : T.dir l (k / 512) = some t) :
    s.mem (entryAddr t (k % 512)) .pte = T.entry l k := by
  rw [h.entries ht _ (Nat.mod_lt _ (by omega)), Nat.mul_comm, Nat.div_add_mod]

/-- An entry as the code reads it. -/
theorem Inv.load (h : Inv A root s T) (ht : T.dir l (k / 512) = some t) :
    Edits L s.physMapOffset (p2vLoad (entryAddr t (k % 512)) .pte) s.mem (T.entry l k) s.mem :=
  Edits.p2vLoad h.view (h.stored ht (Nat.mod_lt _ (by omega))) (h.read ht)

/-- An entry that leads to a table, as the code reads it. -/
theorem Inv.follow (h : Inv A root s T) (hu : T.dir (l + 1) (k / 512) = some u)
    (ht : T.dir l k = some t) :
    Edits L s.physMapOffset (p2vLoad (entryAddr u (k % 512)) .pte) s.mem (tablePte t) s.mem := by
  rw [← Tables.entry_table (h.shape.level ht).1 ht]
  exact h.load hu

theorem Inv.addr (h : Inv A root s T) (ht : T.dir l k = some t) :
    tablePte t &&& pteAddrMask = t := by
  have := h.lt ht
  exact tablePte_addr (h.shape.aligned ht) (by unfold pageSize at this; omega)

/-- Two entries at one address are one. -/
theorem Shape.entryAddr_inj (h : Shape root T) {l' K' t' j : Nat} (ht : T.dir l K = some t)
    (ht' : T.dir l' K' = some t') (hi : i < 512) (hj : j < 512)
    (heq : entryAddr t i = entryAddr t' j) : l = l' ∧ K = K' ∧ i = j := by
  unfold entryAddr at heq
  have : t = t' := Bits.eq_of_dvd_near (h.aligned ht) (h.aligned ht') (by unfold pageSize; omega)
    (by unfold pageSize; omega)
  subst this
  obtain ⟨rfl, rfl⟩ := h.inj ht ht'
  exact ⟨rfl, rfl, by omega⟩

/-- Entries in different cells are of different keys. -/
theorem Tables.entry_ne {l' K' t' j : Nat} (ht : T.dir l K = some t) (ht' : T.dir l' K' = some t')
    (hi : i < 512) (hj : j < 512) (hne : entryAddr t' j ≠ entryAddr t i) :
    ¬ (l' = l ∧ K' * 512 + j = K * 512 + i) := by
  rintro ⟨rfl, hk⟩
  obtain rfl : K' = K := by omega
  rw [ht, Option.some.injEq] at ht'
  subst ht'
  exact hne (by rw [show j = i by omega])

/-- What the page-table code leaves alone: the offset, the free locks and all locks but the
allocator's, the blocks that are no tables, and all memory that is not the allocator's or is in such
a block. -/
structure Frame (A : PhysAlloc L) (T T' : Tables) (s s' : KState) : Prop where
  offset : s'.physMapOffset = s.physMapOffset
  free : ∀ id, (s.lock id).Free → (s'.lock id).Free
  lock : ∀ id, id ≠ .buddyLock → s'.lock id = s.lock id
  foreign : ∀ b, (b ∈ s'.blocks ∧ ¬ Owns T' b) ↔ (b ∈ s.blocks ∧ ¬ Owns T b)
  mem : ∀ a f, s'.mem a f ≠ s.mem a f → A.managed a ∧
    ∀ b ∈ s.blocks, ¬ Owns T b → ¬ (b.addr ≤ a ∧ a < b.addr + b.len)

theorem Frame.refl (T : Tables) (s : KState) : Frame A T T s s :=
  ⟨rfl, fun _ h => h, fun _ _ => rfl, fun _ => Iff.rfl, fun _ _ hne => absurd rfl hne⟩

theorem Frame.trans {T₁ T₂ T₃ : Tables} {s₁ s₂ s₃ : KState} (h : Frame A T₁ T₂ s₁ s₂)
    (h' : Frame A T₂ T₃ s₂ s₃) : Frame A T₁ T₃ s₁ s₃ := by
  refine ⟨h'.offset.trans h.offset, fun id hf => h'.free id (h.free id hf),
    fun id hid => (h'.lock id hid).trans (h.lock id hid),
    fun b => (h'.foreign b).trans (h.foreign b), fun a f hne => ?_⟩
  by_cases hsame : s₃.mem a f = s₂.mem a f
  · exact h.mem a f (fun he => hne (hsame.trans he))
  · obtain ⟨h1, h2⟩ := h'.mem a f hsame
    refine ⟨h1, fun b hb ho => ?_⟩
    obtain ⟨hb', ho'⟩ := (h.foreign b).mpr ⟨hb, ho⟩
    exact h2 b hb' ho'

/-- A block that is no table is apart from the tables. -/
theorem Inv.foreign_apart (h : Inv A root s T) {b : Block} (ht : T.dir l K = some t)
    (hb : b ∈ s.blocks) (ho : ¬ Owns T b) : Block.Apart ⟨t, pageSize⟩ b := by
  have hne : (⟨t, pageSize⟩ : Block) ≠ b := by
    rintro rfl
    exact ho ⟨l, K, ht, rfl⟩
  exact (A.ok_apart h.ok).forall (h.block ht) hb hne

/-- An address of a table is in no other block. -/
theorem Inv.cell_apart (h : Inv A root s T) (ht : T.dir l K = some t) {a : Nat} (h1 : t ≤ a)
    (h2 : a < t + pageSize) :
    A.managed a ∧ ∀ b ∈ s.blocks, ¬ Owns T b → ¬ (b.addr ≤ a ∧ a < b.addr + b.len) := by
  refine ⟨((A.ok_blocks h.ok _ (h.block ht)).2 a h1 h2).2, fun b hb ho hin => ?_⟩
  have hap := h.foreign_apart ht hb ho
  simp only [Block.Apart] at hap
  omega

/-- **Writing an entry** of a table. `T'` has the same tables and this one entry different. -/
theorem Inv.write {x : Nat} (h : Inv A root s T) (ht : T.dir l K = some t) (hi : i < 512)
    (hshape : Shape root T') (hdir : T'.dir = T.dir) (hself : T'.entry l (K * 512 + i) = x)
    (hother : ∀ l' k', 1 ≤ l' → ¬ (l' = l ∧ k' = K * 512 + i) → T'.entry l' k' = T.entry l' k') :
    Inv A root { s with mem := s.mem.set (entryAddr t i) .pte x } T' ∧
      Frame A T T' s { s with mem := s.mem.set (entryAddr t i) .pte x } := by
  have hin := entryAddr_inside t hi
  have hcell : ∀ a f, s.mem.set (entryAddr t i) .pte x a f ≠ s.mem a f → a = entryAddr t i := by
    intro a f hne
    by_contra ha
    exact hne (Mem.set_ne (Or.inl ha))
  have howns : ∀ b, Owns T' b ↔ Owns T b := by
    intro b
    unfold Owns
    rw [hdir]
  refine ⟨⟨hshape, ?_, ?_, ?_, h.view⟩, rfl, fun _ hf => hf, fun _ _ => rfl, ?_, ?_⟩
  · intro l' K' t' ht' j hj
    rw [hdir] at ht'
    show s.mem.set (entryAddr t i) .pte x (entryAddr t' j) .pte = _
    by_cases heq : entryAddr t' j = entryAddr t i
    · obtain ⟨rfl, rfl, rfl⟩ := h.shape.entryAddr_inj ht' ht hj hi heq
      rw [heq, Mem.set_self, hself]
    · rw [Mem.set_ne (Or.inl heq), h.entries ht' j hj, hother _ _ (h.shape.level ht').1]
      exact Tables.entry_ne ht ht' hi hj heq
  · intro l' K' t' ht'
    rw [hdir] at ht'
    exact h.block ht'
  · refine A.ok_frame h.ok h.view (fun _ hf => hf) rfl (fun a f hne _ => ?_)
    rw [hcell a f hne]
    exact ⟨_, h.block ht, hin.1, hin.2⟩
  · exact fun b => by rw [howns]
  · intro a f hne
    rw [hcell a f hne]
    exact h.cell_apart ht hin.1 hin.2

end Mmu
end MikroKernel
