import MikroKernel.Proof.Mmu.Unmap

/-!
# What the processor sees in the tables

The processor finds the translation of an address by walking from the root, entry by entry, in
physical memory (`walk`). It knows nothing of `Tables`; what connects the two is `Inv.walk_eq`. The
tables themselves are those a walk can come to (`Linked`), and `Inv.linked_iff` says that these are
the ones `Tables` lists.
-/

set_option autoImplicit false

namespace MikroKernel
namespace Mmu

/-! ## The walk -/

/-- A translation: the frame, the bits of the entry that are no address, and the size of the
page. -/
structure Leaf where
  frame : Nat
  flags : Nat
  size : Nat
deriving DecidableEq, Repr

/-- `~PTE_ADDR_MASK`. -/
def pteFlagsMask : Nat := 2 ^ 64 - 1 - pteAddrMask

def leafOf (x size : Nat) : Leaf := ⟨x &&& pteAddrMask, x &&& pteFlagsMask, size⟩

/-- **The 4-level walk** of an address, in the memory `m`, from the PML4 at `root`. -/
def walk (m : Mem) (root v : Nat) : Option Leaf :=
  let pml4e := m (entryAddr root (virtToPml4Idx v)) .pte
  if pml4e &&& ptePresent = 0 then none
  else
    let pdpte := m (entryAddr (pml4e &&& pteAddrMask) (virtToPdptIdx v)) .pte
    if pdpte &&& ptePresent = 0 then none
    else if pdpte &&& pteHugePage ≠ 0 then some (leafOf pdpte (2 ^ 30))
    else
      let pde := m (entryAddr (pdpte &&& pteAddrMask) (virtToPdIdx v)) .pte
      if pde &&& ptePresent = 0 then none
      else if pde &&& pteHugePage ≠ 0 then some (leafOf pde hugePageSize)
      else
        let pte := m (entryAddr (pde &&& pteAddrMask) (virtToPtIdx v)) .pte
        if pte &&& ptePresent = 0 then none
        else some (leafOf pte pageSize)

/-- The translation of page `P`. -/
def Tables.lookup (T : Tables) (P : Nat) : Option Leaf :=
  if T.huge (P / 512) ≠ 0 then some (leafOf (T.huge (P / 512)) hugePageSize)
  else if T.small P ≠ 0 then some (leafOf (T.small P) pageSize)
  else none

variable {L : Layout} {A : PhysAlloc L} {s : KState} {root : Nat} {T T' : Tables}
  {l k K t u i P Q v : Nat}

theorem Shape.lookup_of_none (h : Shape root T) (hl : 2 ≤ l) (hl3 : l ≤ 3)
    (hnone : T.dir l (P / 512 ^ l) = none) : T.lookup P = none := by
  unfold Tables.lookup
  rw [if_neg (not_not.mpr (h.huge_of_none hl hl3 hnone)),
    if_neg (not_not.mpr (h.small_of_none (by omega) hl3 hnone))]

/-- **The walk finds the leaves.** -/
theorem Inv.walk_eq (h : Inv A root s T) (v : Nat) : walk s.mem root v = T.lookup (pageNo v) := by
  have hP := pageNo_lt v
  obtain ⟨P, hdef⟩ : ∃ P, P = pageNo v := ⟨_, rfl⟩
  unfold walk
  rw [virtToPml4Idx_eq, virtToPdptIdx_eq, virtToPdIdx_eq, virtToPtIdx_eq, ← hdef]
  rw [← hdef] at hP
  obtain ⟨hroot, hidx⟩ := h.root_above hP
  rw [hidx, h.read hroot]
  cases hd3 : T.dir 3 (P / 512 ^ 3) with
  | none =>
    rw [Tables.entry_none (by omega) hd3, h.shape.lookup_of_none (by omega) (Nat.le_refl 3) hd3]
    exact if_pos (Nat.zero_and _)
  | some pdpt =>
    have hpdpt : T.dir (2 + 1) (P / 512 ^ 2 / 512) = some pdpt := by rwa [key_div]
    simp only
    rw [Tables.entry_table (by omega) hd3, if_neg (tablePte_present (h.shape.aligned hd3)),
      h.addr hd3, h.read hpdpt]
    cases hd2 : T.dir 2 (P / 512 ^ 2) with
    | none =>
      rw [Tables.entry_none (by omega) hd2, h.shape.lookup_of_none (Nat.le_refl 2) (by omega) hd2]
      exact if_pos (Nat.zero_and _)
    | some pd =>
      have hpd : T.dir (1 + 1) (P / 512 ^ 1 / 512) = some pd := by rwa [key_div]
      rw [Tables.entry_table (by omega) hd2, if_neg (tablePte_present (h.shape.aligned hd2)),
        if_neg (not_not.mpr (tablePte_not_huge (h.shape.aligned hd2))), h.addr hd2, h.read hpd,
        Nat.pow_one]
      unfold Tables.lookup
      cases hd1 : T.dir 1 (P / 512) with
      | none =>
        rw [Tables.entry_leaf hd1]
        by_cases hzero : T.huge (P / 512) = 0
        · have hsmall := h.shape.small_of_none (P := P) (Nat.le_refl 1) (by omega)
            (by rwa [Nat.pow_one])
          rw [hzero, hsmall]
          rfl
        · obtain ⟨hpres, hmark⟩ := h.shape.huge_present hzero
          rw [if_neg hpres, if_pos hmark, if_pos hzero]
      | some pt =>
        rw [Tables.entry_table (Nat.le_refl 1) hd1, if_neg (tablePte_present (h.shape.aligned hd1)),
          if_neg (not_not.mpr (tablePte_not_huge (h.shape.aligned hd1))), h.addr hd1, h.read hd1,
          if_neg (not_not.mpr (h.shape.no_leaf hd1))]
        show (if T.small P &&& ptePresent = 0 then none else some (leafOf (T.small P) pageSize)) = _
        by_cases hzero : T.small P = 0
        · rw [hzero]
          rfl
        · rw [if_neg (h.shape.small_present hzero), if_pos hzero]

/-! ## The tables a walk can come to -/

/-- The entry leads to a table. -/
def Leads (x : Nat) : Prop := x &&& ptePresent ≠ 0 ∧ x &&& pteHugePage = 0

/-- The PML4 has level 4, a PDPT 3, a PD 2 and a PT 1. -/
inductive Linked (m : Mem) (root : Nat) : Nat → Nat → Prop
  | root : Linked m root 4 root
  | entry {l u i : Nat} : Linked m root (l + 1) u → 1 ≤ l → i < 512 →
      Leads (m (entryAddr u i) .pte) → Linked m root l (m (entryAddr u i) .pte &&& pteAddrMask)

/-- Entry `i` of `u`, a table other than a PT, leads to `t`. -/
def References (m : Mem) (root t u i : Nat) : Prop :=
  ∃ l, Linked m root (l + 1) u ∧ 1 ≤ l ∧ i < 512 ∧ Leads (m (entryAddr u i) .pte) ∧
    m (entryAddr u i) .pte &&& pteAddrMask = t

/-- An entry that leads on leads to the table with its key. -/
theorem Inv.leads (h : Inv A root s T) (hl : 1 ≤ l) (hu : T.dir (l + 1) K = some u) (hi : i < 512)
    (hleads : Leads (s.mem (entryAddr u i) .pte)) :
    T.dir l (K * 512 + i) = some (s.mem (entryAddr u i) .pte &&& pteAddrMask) := by
  rw [h.entries hu i hi] at hleads ⊢
  cases hd : T.dir l (K * 512 + i) with
  | some t => rw [Tables.entry_table hl hd, h.addr hd]
  | none =>
    exfalso
    rcases Nat.eq_or_lt_of_le hl with rfl | hlt
    · rw [Tables.entry_leaf hd] at hleads
      exact (h.shape.huge_present (ne_zero_of_and hleads.1)).2 hleads.2
    · rw [Tables.entry_none hlt hd] at hleads
      exact hleads.1 (Nat.zero_and _)

/-- The entry above a table leads there. -/
theorem Inv.leads_of_dir (h : Inv A root s T) (hu : T.dir (l + 1) (K / 512) = some u)
    (ht : T.dir l K = some t) :
    Leads (s.mem (entryAddr u (K % 512)) .pte) ∧
      s.mem (entryAddr u (K % 512)) .pte &&& pteAddrMask = t := by
  have hal := h.shape.aligned ht
  rw [h.read hu, Tables.entry_table (h.shape.level ht).1 ht, h.addr ht]
  exact ⟨⟨tablePte_present hal, tablePte_not_huge hal⟩, rfl⟩

/-- **A walk comes to just the tables that are listed.** -/
theorem Inv.linked_iff (h : Inv A root s T) : Linked s.mem root l t ↔ ∃ K, T.dir l K = some t := by
  constructor
  · intro hlink
    induction hlink with
    | root => exact ⟨0, h.root_dir⟩
    | entry _ hl hi hleads ih =>
      obtain ⟨K, hu⟩ := ih
      exact ⟨_, h.leads hl hu hi hleads⟩
  · rintro ⟨K, ht⟩
    -- from the root down
    obtain ⟨d, hd⟩ : ∃ d, l + d = 4 := ⟨4 - l, by have := (h.shape.level ht).2; omega⟩
    induction d generalizing l K t with
    | zero =>
      obtain rfl : l = 4 := by omega
      obtain ⟨-, rfl⟩ := (h.shape.root K t).mp ht
      exact .root
    | succ d ih =>
      obtain ⟨u, hu⟩ := h.shape.parent ht (by omega)
      obtain ⟨hleads, haddr⟩ := h.leads_of_dir hu ht
      rw [← haddr]
      exact .entry (ih _ hu (by omega)) (h.shape.level ht).1 (Nat.mod_lt _ (by omega)) hleads

/-- **One entry leads to each table but the root.** -/
theorem Inv.one_reference (h : Inv A root s T) (hl : l ≤ 3) (ht : T.dir l K = some t) :
    ∃! e : Nat × Nat, References s.mem root t e.1 e.2 := by
  obtain ⟨u, hu⟩ := h.shape.parent ht hl
  obtain ⟨hleads, haddr⟩ := h.leads_of_dir hu ht
  refine ⟨(u, K % 512), ⟨l, h.linked_iff.mpr ⟨_, hu⟩, (h.shape.level ht).1,
    Nat.mod_lt _ (by omega), hleads, haddr⟩, ?_⟩
  rintro ⟨u', i'⟩ ⟨l', hlink, hl', hi', hleads', haddr'⟩
  simp only at hlink hi' hleads' haddr'
  obtain ⟨K', hu'⟩ := h.linked_iff.mp hlink
  have ht' := h.leads hl' hu' hi' hleads'
  rw [haddr'] at ht'
  obtain ⟨rfl, hK⟩ := h.shape.inj ht' ht
  rw [show K / 512 = K' by omega, hu', Option.some.injEq] at hu
  rw [hu, show i' = K % 512 by omega]

/-! ## Keys -/

/-- The key of a table has as many digits as there are levels above. -/
theorem Shape.key_lt (h : Shape root T) (ht : T.dir l K = some t) : K < 512 ^ (4 - l) := by
  obtain ⟨d, hd⟩ : ∃ d, l + d = 4 := ⟨4 - l, by have := (h.level ht).2; omega⟩
  rw [show 4 - l = d by omega]
  induction d generalizing l K t with
  | zero =>
    obtain rfl : l = 4 := by omega
    rw [((h.root K t).mp ht).1]
    omega
  | succ d ih =>
    obtain ⟨u, hu⟩ := h.parent ht (by omega)
    have := ih hu (by omega)
    rw [Nat.pow_succ]
    omega

/-- **Where there is a table below the root, there is a page.** -/
theorem Full.exists_leaf (hf : Full T) (h : Shape root T) (hl : l ≤ 3) (ht : T.dir l K = some t) :
    ∃ P, P < 2 ^ 36 ∧ T.lookup P ≠ none := by
  induction l generalizing K t with
  | zero => exact absurd (h.level ht).1 (by omega)
  | succ l ih =>
    obtain ⟨i, hi, hne⟩ := hf hl ht
    have hK := h.key_lt ht
    cases hd : T.dir l (K * 512 + i) with
    | some t' => exact ih (by omega) hd
    | none =>
      obtain rfl | rfl | hl2 : l = 0 ∨ l = 1 ∨ 2 ≤ l := by omega
      · -- a 4KB leaf
        have hP : T.small (K * 512 + i) ≠ 0 := hne
        refine ⟨K * 512 + i, by omega, ?_⟩
        unfold Tables.lookup
        rw [show (K * 512 + i) / 512 = K by omega, if_neg (not_not.mpr (h.no_leaf ht)), if_pos hP]
        simp
      · -- a 2MB leaf
        rw [Tables.entry_leaf hd] at hne
        refine ⟨(K * 512 + i) * 512, by omega, ?_⟩
        unfold Tables.lookup
        rw [Nat.mul_div_cancel _ (by omega), if_pos hne]
        simp
      · exact absurd (Tables.entry_none hl2 hd) hne

end Mmu
end MikroKernel
