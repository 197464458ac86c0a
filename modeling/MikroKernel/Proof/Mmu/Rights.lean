import MikroKernel.Proof.Mmu.Walk
import MikroKernel.Vm.Boot

/-!
# The entries on the way, and what they allow

An access is allowed by a translation if every entry of the walk allows it. The entries that lead to
tables allow all, so what decides is the leaf (`Inv.writable_iff`, `Inv.executable_iff`).
-/

set_option autoImplicit false

namespace MikroKernel
namespace Mmu

variable {L : Layout} {A : PhysAlloc L} {s : KState} {root v : Nat} {T : Tables} {x : Leaf}

/-- The entries that the walk of an address reads. -/
def path (m : Mem) (root v : Nat) : List Nat :=
  let pml4e := m (entryAddr root (virtToPml4Idx v)) .pte
  if pml4e &&& ptePresent = 0 then [pml4e]
  else
    let pdpte := m (entryAddr (pml4e &&& pteAddrMask) (virtToPdptIdx v)) .pte
    if pdpte &&& ptePresent = 0 ∨ pdpte &&& pteHugePage ≠ 0 then [pml4e, pdpte]
    else
      let pde := m (entryAddr (pdpte &&& pteAddrMask) (virtToPdIdx v)) .pte
      if pde &&& ptePresent = 0 ∨ pde &&& pteHugePage ≠ 0 then [pml4e, pdpte, pde]
      else [pml4e, pdpte, pde, m (entryAddr (pde &&& pteAddrMask) (virtToPtIdx v)) .pte]

/-- The address is translated, and writable at all levels. -/
def Writable (m : Mem) (root v : Nat) : Prop :=
  walk m root v ≠ none ∧ ∀ e ∈ path m root v, e &&& pteWritable ≠ 0

/-- The address is translated, and `PTE_NX` is clear at all levels. -/
def Executable (m : Mem) (root v : Nat) : Prop :=
  walk m root v ≠ none ∧ ∀ e ∈ path m root v, e &&& pteNx = 0

/-- The address is translated, and `PTE_USER` is set at all levels. -/
def UserAccessible (m : Mem) (root v : Nat) : Prop :=
  walk m root v ≠ none ∧ ∀ e ∈ path m root v, e &&& pteUser ≠ 0

/-- The entries, from the tables. -/
def Tables.path (T : Tables) (P : Nat) : List Nat :=
  match T.dir 3 (P / 512 ^ 3) with
  | none => [0]
  | some pdpt => tablePte pdpt ::
    match T.dir 2 (P / 512 ^ 2) with
    | none => [0]
    | some pd => tablePte pd ::
      match T.dir 1 (P / 512) with
      | none => [T.huge (P / 512)]
      | some pt => [tablePte pt, T.small P]

/-- **The walk reads the entries of the tables.** -/
theorem Inv.path_eq (h : Inv A root s T) (v : Nat) : path s.mem root v = T.path (pageNo v) := by
  have hP := pageNo_lt v
  obtain ⟨P, hdef⟩ : ∃ P, P = pageNo v := ⟨_, rfl⟩
  unfold path
  rw [virtToPml4Idx_eq, virtToPdptIdx_eq, virtToPdIdx_eq, virtToPtIdx_eq, ← hdef]
  rw [← hdef] at hP
  obtain ⟨hroot, hidx⟩ := h.root_above hP
  rw [hidx, h.read hroot]
  cases hd3 : T.dir 3 (P / 512 ^ 3) with
  | none =>
    have hpath : T.path P = [0] := by simp only [Tables.path, hd3]
    rw [Tables.entry_none (by omega) hd3, hpath]
    exact if_pos (Nat.zero_and _)
  | some pdpt =>
    have hpdpt : T.dir (2 + 1) (P / 512 ^ 2 / 512) = some pdpt := by rwa [key_div]
    simp only
    rw [Tables.entry_table (by omega) hd3, if_neg (tablePte_present (h.shape.aligned hd3)),
      h.addr hd3, h.read hpdpt]
    cases hd2 : T.dir 2 (P / 512 ^ 2) with
    | none =>
      have hpath : T.path P = [tablePte pdpt, 0] := by simp only [Tables.path, hd3, hd2]
      rw [Tables.entry_none (by omega) hd2, hpath]
      exact if_pos (Or.inl (Nat.zero_and _))
    | some pd =>
      have hpd : T.dir (1 + 1) (P / 512 ^ 1 / 512) = some pd := by rwa [key_div]
      have hpd' : ¬ (tablePte pd &&& ptePresent = 0 ∨ tablePte pd &&& pteHugePage ≠ 0) :=
        not_or.mpr ⟨tablePte_present (h.shape.aligned hd2),
          not_not.mpr (tablePte_not_huge (h.shape.aligned hd2))⟩
      rw [Tables.entry_table (by omega) hd2, if_neg hpd', h.addr hd2, h.read hpd, Nat.pow_one]
      cases hd1 : T.dir 1 (P / 512) with
      | none =>
        have hpath : T.path P = [tablePte pdpt, tablePte pd, T.huge (P / 512)] := by
          simp only [Tables.path, hd3, hd2, hd1]
        rw [Tables.entry_leaf hd1, hpath]
        by_cases hzero : T.huge (P / 512) = 0
        · rw [hzero]
          exact if_pos (Or.inl (Nat.zero_and _))
        · exact if_pos (Or.inr (h.shape.huge_present hzero).2)
      | some pt =>
        have hpt' : ¬ (tablePte pt &&& ptePresent = 0 ∨ tablePte pt &&& pteHugePage ≠ 0) :=
          not_or.mpr ⟨tablePte_present (h.shape.aligned hd1),
            not_not.mpr (tablePte_not_huge (h.shape.aligned hd1))⟩
        have hpath : T.path P = [tablePte pdpt, tablePte pd, tablePte pt, T.small P] := by
          simp only [Tables.path, hd3, hd2, hd1]
        rw [Tables.entry_table (Nat.le_refl 1) hd1, if_neg hpt', h.addr hd1, h.read hd1, hpath]
        rfl

theorem tablePte_writable {t : Nat} (h : pageSize ∣ t) : tablePte t &&& pteWritable ≠ 0 := by
  rw [tablePte_eq, or_and_low h (by decide)]
  decide

theorem tablePte_executable {t : Nat} (hlt : t < 2 ^ 52) : tablePte t &&& pteNx = 0 := by
  have h63 : tablePte t < 2 ^ 63 := by
    rw [tablePte_eq]
    exact Nat.or_lt_two_pow (by omega) (by omega)
  have hdiv : (tablePte t &&& pteNx) / 2 ^ 63 = 0 := by
    rw [Nat.and_div_two_pow, Nat.div_eq_of_lt h63, Nat.zero_and]
  have hmod : (tablePte t &&& pteNx) % 2 ^ 63 = 0 := by
    rw [Nat.and_mod_two_pow, show pteNx % 2 ^ 63 = 0 by decide, Nat.and_zero]
  omega

/-- The entries of a translated address lead to tables, but for the last, which is the leaf. -/
theorem Inv.path_leaf (h : Inv A root s T) (hx : T.lookup (pageNo v) = some x) :
    ∃ tables e, path s.mem root v = tables ++ [e] ∧ leafOf e x.size = x ∧
      ∀ y ∈ tables, ∃ l K t, T.dir l K = some t ∧ y = tablePte t := by
  obtain ⟨P, hP⟩ : ∃ P, P = pageNo v := ⟨_, rfl⟩
  rw [h.path_eq, ← hP]
  rw [← hP] at hx
  unfold Tables.path
  cases hd3 : T.dir 3 (P / 512 ^ 3) with
  | none =>
    exact absurd (hx.symm.trans (h.shape.lookup_of_none (by omega) (Nat.le_refl 3) hd3)) (by simp)
  | some pdpt =>
    cases hd2 : T.dir 2 (P / 512 ^ 2) with
    | none =>
      exact absurd (hx.symm.trans (h.shape.lookup_of_none (Nat.le_refl 2) (by omega) hd2)) (by simp)
    | some pd =>
      unfold Tables.lookup at hx
      cases hd1 : T.dir 1 (P / 512) with
      | none =>
        have hsmall := h.shape.small_of_none (P := P) (Nat.le_refl 1) (by omega)
          (by rwa [Nat.pow_one])
        rw [hsmall, if_neg (not_not.mpr rfl)] at hx
        obtain ⟨-, rfl⟩ := Option.ite_none_right_eq_some.mp hx |>.imp id Option.some.inj
        refine ⟨[tablePte pdpt, tablePte pd], _, rfl, rfl, ?_⟩
        simp only [List.mem_cons, List.not_mem_nil, or_false]
        rintro y (rfl | rfl)
        · exact ⟨_, _, _, hd3, rfl⟩
        · exact ⟨_, _, _, hd2, rfl⟩
      | some pt =>
        rw [if_neg (not_not.mpr (h.shape.no_leaf hd1))] at hx
        obtain ⟨-, rfl⟩ := Option.ite_none_right_eq_some.mp hx |>.imp id Option.some.inj
        refine ⟨[tablePte pdpt, tablePte pd, tablePte pt], _, rfl, rfl, ?_⟩
        simp only [List.mem_cons, List.not_mem_nil, or_false]
        rintro y (rfl | rfl | rfl)
        · exact ⟨_, _, _, hd3, rfl⟩
        · exact ⟨_, _, _, hd2, rfl⟩
        · exact ⟨_, _, _, hd1, rfl⟩

/-- The bits of an entry that are not of the address. -/
theorem leafOf_flags {e size b : Nat} (hb : b &&& pteFlagsMask = b) :
    (leafOf e size).flags &&& b = e &&& b := by
  unfold leafOf
  simp only
  rw [Nat.and_assoc, Nat.and_comm pteFlagsMask b, hb]

theorem Inv.writable_iff (h : Inv A root s T) (hx : T.lookup (pageNo v) = some x) :
    Writable s.mem root v ↔ x.flags &&& pteWritable ≠ 0 := by
  obtain ⟨tables, e, hpath, hleaf, htables⟩ := h.path_leaf hx
  unfold Writable
  rw [h.walk_eq, hx, hpath, ← hleaf, leafOf_flags (by decide)]
  constructor
  · intro hw
    exact hw.2 e (by simp)
  · intro he
    refine ⟨by simp, fun y hy => ?_⟩
    rcases List.mem_append.mp hy with hy | hy
    · obtain ⟨l, K, t, hd, rfl⟩ := htables y hy
      exact tablePte_writable (h.shape.aligned hd)
    · rw [List.mem_singleton.mp hy]
      exact he

theorem Inv.executable_iff (h : Inv A root s T) (hx : T.lookup (pageNo v) = some x) :
    Executable s.mem root v ↔ x.flags &&& pteNx = 0 := by
  obtain ⟨tables, e, hpath, hleaf, htables⟩ := h.path_leaf hx
  unfold Executable
  rw [h.walk_eq, hx, hpath, ← hleaf, leafOf_flags (by decide)]
  constructor
  · intro hw
    exact hw.2 e (by simp)
  · intro he
    refine ⟨by simp, fun y hy => ?_⟩
    rcases List.mem_append.mp hy with hy | hy
    · obtain ⟨l, K, t, hd, rfl⟩ := htables y hy
      have hlt := h.lt hd
      unfold pageSize at hlt
      exact tablePte_executable (by omega)
    · rw [List.mem_singleton.mp hy]
      exact he

theorem tablePte_not_user {t : Nat} (h : pageSize ∣ t) : tablePte t &&& pteUser = 0 := by
  rw [tablePte_eq, or_and_low h (by decide)]
  decide

/-- **No address is for the user**: the entry of the PML4 leads to a table, and has no
`PTE_USER`. -/
theorem Inv.not_user (h : Inv A root s T) (v : Nat) : ¬ UserAccessible s.mem root v := by
  rintro ⟨-, huser⟩
  rw [h.path_eq] at huser
  cases hd : T.dir 3 (pageNo v / 512 ^ 3) with
  | none =>
    refine huser 0 ?_ (Nat.zero_and _)
    simp only [Tables.path, hd, List.mem_singleton]
  | some pdpt =>
    refine huser (tablePte pdpt) ?_ (tablePte_not_user (h.shape.aligned hd))
    simp only [Tables.path, hd, List.mem_cons, true_or]

/-- What an address allows is what flags say. -/
structure Allows (m : Mem) (root v flags : Nat) : Prop where
  write : Writable m root v ↔ flags &&& pteWritable ≠ 0
  user : UserAccessible m root v ↔ flags &&& pteUser ≠ 0
  exec : Executable m root v ↔ flags &&& pteNx = 0

/-- **What an address allows**, by the flags of its leaf. -/
theorem Inv.allows_iff (h : Inv A root s T) (hx : T.lookup (pageNo v) = some x) (flags : Nat) :
    Allows s.mem root v flags ↔ (x.flags &&& pteWritable ≠ 0 ↔ flags &&& pteWritable ≠ 0) ∧
      flags &&& pteUser = 0 ∧ (x.flags &&& pteNx = 0 ↔ flags &&& pteNx = 0) := by
  have hno := h.not_user v
  constructor
  · intro ha
    refine ⟨(h.writable_iff hx).symm.trans ha.write, ?_, (h.executable_iff hx).symm.trans ha.exec⟩
    by_contra hu
    exact hno (ha.user.mpr hu)
  · rintro ⟨hw, hu, he⟩
    exact ⟨(h.writable_iff hx).trans hw, ⟨fun hyes => absurd hyes hno, fun hne => absurd hu hne⟩,
      (h.executable_iff hx).trans he⟩

end Mmu
end MikroKernel
