import MikroKernel.Proof.Mmu.Runs

/-!
# The cached walk

`map_pages` keeps the tables of the last page and walks again only where an index changed. For any
flags, and whatever the leaves hold, that is the same as a walk from the root for each page
(`mapPages_eq_mapEach`).

What has to be known of the memory is less than `Inv`: the entries that lead to tables lead to
different frames of the page allocator. Leaves and entries that are not present may hold anything.
-/

set_option autoImplicit false

namespace MikroKernel
namespace Mmu

/-! ## Tables by level and key -/

/-- The frames of tables, by level and key. -/
abbrev Dir := Nat → Nat → Option Nat

/-- Where an entry leads. -/
def target (x : Nat) : Option Nat :=
  if x &&& ptePresent ≠ 0 ∧ x &&& pteHugePage = 0 then some (x &&& pteAddrMask) else none

/-- What entry `k` of level `l` holds, `0` if its table is missing. -/
def cell (m : Mem) (D : Dir) (l k : Nat) : Nat :=
  match D l (k / 512) with
  | some t => m (entryAddr t (k % 512)) .pte
  | none => 0

/-- `D` lists the tables that a walk from the root comes to. Each is led to by one entry and is a
block of the page allocator, and there are no 1GB pages. -/
structure WellFormed {L : Layout} (A : PhysAlloc L) (root : Nat) (s : KState) (D : Dir) : Prop where
  aligned : pageSize ∣ root
  root : ∀ J t, D 4 J = some t ↔ J = 0 ∧ t = root
  below : ∀ l k, 1 ≤ l → l ≤ 3 → D l k = target (cell s.mem D (l + 1) k)
  level : ∀ {l J t}, D l J = some t → 1 ≤ l ∧ l ≤ 4
  inj : ∀ {l J l' J' t}, D l J = some t → D l' J' = some t → l = l' ∧ J = J'
  flat : ∀ l k, 3 ≤ l → l ≤ 4 → cell s.mem D l k &&& ptePresent ≠ 0 →
    cell s.mem D l k &&& pteHugePage = 0
  block : ∀ {l J t}, D l J = some t → ⟨t, pageSize⟩ ∈ s.blocks
  ok : A.Ok s
  view : View s.physMapOffset

variable {L : Layout} {A : PhysAlloc L} {s s' : KState} {root : Nat} {D D' : Dir}
  {l l' k k' J J' t t' u v x P : Nat} {m : Mem}

theorem cell_some (h : D l (k / 512) = some t) : cell m D l k = m (entryAddr t (k % 512)) .pte := by
  unfold cell
  rw [h]

theorem cell_none (h : D l (k / 512) = none) : cell m D l k = 0 := by
  unfold cell
  rw [h]

theorem target_zero : target 0 = none := if_neg (fun h => h.1 (Nat.zero_and _))

theorem target_some (h : target x = some t) :
    x &&& ptePresent ≠ 0 ∧ x &&& pteHugePage = 0 ∧ x &&& pteAddrMask = t := by
  unfold target at h
  obtain ⟨⟨h1, h2⟩, h3⟩ := Option.ite_none_right_eq_some.mp h
  exact ⟨h1, h2, Option.some.inj h3⟩

theorem target_tablePte (hdvd : pageSize ∣ t) (hlt : t < 2 ^ 52) :
    target (tablePte t) = some t := by
  unfold target
  rw [if_pos ⟨tablePte_present hdvd, tablePte_not_huge hdvd⟩, tablePte_addr hdvd hlt]

namespace WellFormed

theorem dvd (h : WellFormed A root s D) (ht : D l J = some t) : pageSize ∣ t := by
  by_cases hl : l ≤ 3
  · rw [h.below l J (h.level ht).1 hl] at ht
    rw [← (target_some ht).2.2]
    exact (frame_bounds _).2
  · obtain rfl : l = 4 := by
      have := (h.level ht).2
      omega
    rw [((h.root J t).mp ht).2]
    exact h.aligned

theorem phys (h : WellFormed A root s D) (ht : D l J = some t) {a : Nat} (h1 : t ≤ a)
    (h2 : a < t + pageSize) : L.phys a = true ∧ A.managed a :=
    (A.ok_blocks h.ok _ (h.block ht)).2 a h1 h2

theorem stored (h : WellFormed A root s D) (ht : D l (k / 512) = some t) :
    L.Stored (entryAddr t (k % 512)) := by
  have := Nat.mod_lt k (show 0 < 512 by omega)
  exact Or.inl (h.phys ht (by unfold entryAddr; omega) (by unfold entryAddr pageSize; omega)).1

/-- The table above a table. -/
theorem parent (h : WellFormed A root s D) (ht : D l k = some t) (hl : l ≤ 3) :
    ∃ u, D (l + 1) (k / 512) = some u := by
  cases hu : D (l + 1) (k / 512) with
  | some u => exact ⟨u, rfl⟩
  | none =>
    rw [h.below l k (h.level ht).1 hl, cell_none hu, target_zero] at ht
    exact absurd ht (by simp)

/-- Two entries at one address are one. -/
theorem entryAddr_inj (h : WellFormed A root s D) (ht : D l (k / 512) = some t)
    (ht' : D l' (k' / 512) = some t') (heq : entryAddr t (k % 512) = entryAddr t' (k' % 512)) :
    l = l' ∧ k = k' := by
  have hk := Nat.mod_lt k (show 0 < 512 by omega)
  have hk' := Nat.mod_lt k' (show 0 < 512 by omega)
  unfold entryAddr at heq
  obtain rfl : t = t' := Bits.eq_of_dvd_near (h.dvd ht) (h.dvd ht') (by unfold pageSize; omega)
    (by unfold pageSize; omega)
  obtain ⟨rfl, hkey⟩ := h.inj ht ht'
  exact ⟨rfl, by omega⟩

/-! ## Writing an entry -/

theorem cell_set (h : WellFormed A root s D) (ht : D l (k / 512) = some t) (x l' k' : Nat) :
    cell (s.mem.set (entryAddr t (k % 512)) .pte x) D l' k'
      = if l' = l ∧ k' = k then x else cell s.mem D l' k' := by
  by_cases hsame : l' = l ∧ k' = k
  · obtain ⟨rfl, rfl⟩ := hsame
    rw [if_pos ⟨rfl, rfl⟩, cell_some ht, Mem.set_self]
  · rw [if_neg hsame]
    cases ht' : D l' (k' / 512) with
    | none => rw [cell_none ht', cell_none ht']
    | some t' =>
      rw [cell_some ht', cell_some ht', Mem.set_ne (Or.inl (fun heq => hsame ?_))]
      exact h.entryAddr_inj ht' ht heq

/-- **An entry that leads nowhere**, before and after. -/
theorem write (h : WellFormed A root s D) (ht : D l (k / 512) = some t) (hl : l ≤ 2)
    (hleaf : l = 2 → D 1 k = none ∧ target x = none) :
    WellFormed A root { s with mem := s.mem.set (entryAddr t (k % 512)) .pte x } D := by
  have hk := Nat.mod_lt k (show 0 < 512 by omega)
  refine ⟨h.aligned, h.root, fun l' k' h1 h3 => ?_, h.level, h.inj, fun l' k' h3 h4 => ?_,
    h.block, ?_, h.view⟩
  · rw [h.cell_set ht, h.below l' k' h1 h3]
    by_cases hsame : l' + 1 = l ∧ k' = k
    · obtain ⟨hl', rfl⟩ := hsame
      obtain rfl : l' = 1 := by omega
      obtain ⟨hnone, hx⟩ := hleaf (by omega)
      rw [if_pos ⟨hl', rfl⟩, hx, ← h.below 1 k' (Nat.le_refl 1) (by omega), hnone]
    · rw [if_neg hsame]
  · rw [h.cell_set ht, if_neg (by omega)]
    exact h.flat l' k' h3 h4
  · refine A.ok_frame h.ok h.view (fun _ hf => hf) rfl (fun a f hne _ => ?_)
    refine ⟨_, h.block ht, ?_⟩
    obtain rfl : a = entryAddr t (k % 512) := by
      by_contra ha
      exact hne (Mem.set_ne (Or.inl ha))
    unfold entryAddr pageSize
    simp only
    omega

/-! ## A new table -/

/-- The tables with one more. -/
def addTable (D : Dir) (l k t : Nat) : Dir := fun l' k' => if l' = l ∧ k' = k then some t
    else D l' k'

theorem addTable_self : addTable D l k t l k = some t := if_pos ⟨rfl, rfl⟩

theorem addTable_ne (h : ¬ (l' = l ∧ k' = k)) : addTable D l k t l' k' = D l' k' := if_neg h

theorem addTable_keep (hnone : D l k = none) (h : D l' k' = some t') :
    addTable D l k t l' k' = some t' := by
  rw [addTable_ne, h]
  rintro ⟨rfl, rfl⟩
  exact absurd (h.symm.trans hnone) (by simp)

/-- The entries outlive a call of the allocator. -/
theorem cell_allocated {s₁ : KState} (h : WellFormed A root s D)
    (hf : AllocFrame A.managed s.blocks s s₁) (ht' : D l' (k' / 512) = some t') :
    s₁.mem (entryAddr t' (k' % 512)) .pte = cell s.mem D l' k' := by
  rw [cell_some ht']
  by_contra hne
  have := Nat.mod_lt k' (show 0 < 512 by omega)
  refine (hf.mem _ _ hne).2 ⟨_, h.block ht', ?_⟩
  unfold entryAddr pageSize
  simp only
  omega

section

variable {s₁ : KState} (h : WellFormed A root s D) (hu : D (l + 1) (k / 512) = some u)
  (hnone : D l k = none) (hf : AllocFrame A.managed s.blocks s s₁)
  (hok : A.Ok s₁) (hblocks : s₁.blocks = ⟨t, pageSize⟩ :: s.blocks)
include h hok hblocks

/-- The new frame is apart from the tables. -/
theorem new_apart (ht' : D l' J' = some t') : t + pageSize ≤ t' ∨ t' + pageSize ≤ t := by
  have hap := A.ok_apart hok
  rw [hblocks] at hap
  exact (List.pairwise_cons.mp hap).1 _ (h.block ht')

theorem entry_outside (ht' : D l' (k' / 512) = some t') :
    entryAddr t' (k' % 512) < t ∨ t + pageSize ≤ entryAddr t' (k' % 512) := by
  have := h.new_apart hok hblocks ht'
  have := Nat.mod_lt k' (show 0 < 512 by omega)
  unfold entryAddr pageSize at *
  omega

include hu hnone hf in
theorem cell_wired (l' k' : Nat) :
    cell (wiredMem s₁.mem t (entryAddr u (k % 512))) (addTable D l k t) l' k'
      = if l' = l + 1 ∧ k' = k then tablePte t else cell s.mem D l' k' := by
  have hout := h.entry_outside hok hblocks hu
  by_cases hsame : l' = l + 1 ∧ k' = k
  · obtain ⟨rfl, rfl⟩ := hsame
    rw [if_pos ⟨rfl, rfl⟩, cell_some (addTable_keep hnone hu)]
    exact Mem.set_self _ _ _ _
  · rw [if_neg hsame]
    by_cases hnew : l' = l ∧ k' / 512 = k
    · -- an entry of the new table
      obtain ⟨rfl, rfl⟩ := hnew
      have hk := Nat.mod_lt k' (show 0 < 512 by omega)
      rw [cell_some addTable_self, cell_none hnone]
      unfold wiredMem
      rw [Mem.set_ne (Or.inl ?_), Mem.zero_of_mem]
      · unfold entryAddr
        omega
      · unfold entryAddr pageSize
        omega
      · unfold entryAddr pageSize at *
        omega
    · cases ht' : D l' (k' / 512) with
      | none => rw [cell_none ht', cell_none ((addTable_ne hnew).trans ht')]
      | some t' =>
        rw [cell_some (addTable_keep hnone ht'), ← h.cell_allocated hf ht']
        unfold wiredMem
        rw [Mem.set_ne (Or.inl (fun heq => hsame (h.entryAddr_inj ht' hu heq))),
          Mem.zero_of_not_mem (h.entry_outside hok hblocks ht')]

include hu hnone hf in
/-- **A fresh frame becomes a table.** -/
theorem wire (hl : 1 ≤ l) (hl3 : l ≤ 3) (hdvd : pageSize ∣ t) :
    WellFormed A root { s₁ with mem := wiredMem s₁.mem t (entryAddr u (k % 512)) }
      (addTable D l k t) := by
  have hmem : (⟨t, pageSize⟩ : Block) ∈ s₁.blocks := by
    rw [hblocks]
    exact List.mem_cons_self
  have hlt : t < 2 ^ 52 := by
    have := L.phys_lt t ((A.ok_blocks hok _ hmem).2 t (Nat.le_refl _)
      (show t < t + 4096 by omega)).1
    unfold physTop at this
    omega
  have hnew : ∀ {l' J'}, D l' J' ≠ some t := by
    intro l' J' ht'
    have := h.new_apart hok hblocks ht'
    unfold pageSize at this
    omega
  have hsome : ∀ {l' J' v}, addTable D l k t l' J' = some v →
      (l' = l ∧ J' = k ∧ v = t) ∨ D l' J' = some v := by
    intro l' J' v hv
    by_cases hc : l' = l ∧ J' = k
    · unfold addTable at hv
      rw [if_pos hc, Option.some.injEq] at hv
      exact Or.inl ⟨hc.1, hc.2, hv.symm⟩
    · rw [addTable_ne hc] at hv
      exact Or.inr hv
  refine ⟨h.aligned, ?_, ?_, ?_, ?_, ?_, ?_, ?_, hf.offset ▸ h.view⟩
  · intro J v
    rw [addTable_ne (by omega)]
    exact h.root J v
  · intro l' k' h1 h3
    rw [h.cell_wired hu hnone hf hok hblocks]
    by_cases hc : l' = l ∧ k' = k
    · obtain ⟨rfl, rfl⟩ := hc
      rw [addTable_self, if_pos ⟨rfl, rfl⟩, target_tablePte hdvd hlt]
    · rw [addTable_ne hc, if_neg (by omega), h.below l' k' h1 h3]
  · intro l' J' v hv
    rcases hsome hv with ⟨rfl, -, -⟩ | hv
    · omega
    · exact h.level hv
  · intro l₁ K₁ l₂ K₂ v h₁ h₂
    rcases hsome h₁ with ⟨hl₁, hK₁, e₁⟩ | g₁ <;> rcases hsome h₂ with ⟨hl₂, hK₂, e₂⟩ | g₂
    · exact ⟨hl₁.trans hl₂.symm, hK₁.trans hK₂.symm⟩
    · exact absurd (e₁ ▸ g₂) hnew
    · exact absurd (e₂ ▸ g₁) hnew
    · exact h.inj g₁ g₂
  · intro l' k' h3 h4
    rw [h.cell_wired hu hnone hf hok hblocks]
    split
    · exact fun _ => tablePte_not_huge hdvd
    · exact h.flat l' k' h3 h4
  · intro l' J' v hv
    rcases hsome hv with ⟨-, -, rfl⟩ | hv
    · exact hmem
    · show _ ∈ s₁.blocks
      rw [hblocks]
      exact List.mem_cons_of_mem _ (h.block hv)
  · refine A.ok_frame hok (hf.offset ▸ h.view) (fun _ hfree => hfree) rfl (fun a f hne _ => ?_)
    have hk := Nat.mod_lt k (show 0 < 512 by omega)
    by_cases ha : t ≤ a ∧ a < t + pageSize
    · exact ⟨_, hmem, ha.1, ha.2⟩
    · obtain rfl : a = entryAddr u (k % 512) := by
        by_contra hcell
        refine hne ?_
        show wiredMem s₁.mem t (entryAddr u (k % 512)) a f = s₁.mem a f
        unfold wiredMem
        rw [Mem.set_ne (Or.inl hcell), Mem.zero_of_not_mem (by omega)]
      have hbu := h.block hu
      refine ⟨⟨u, pageSize⟩, by rw [hblocks]; exact List.mem_cons_of_mem _ hbu, ?_⟩
      unfold entryAddr pageSize
      simp only
      omega

end

/-! ## Following an entry -/

/-- The PD entry is no 2MB leaf. -/
def Clear (m : Mem) (D : Dir) (Q : Nat) : Prop :=
  cell m D 2 Q &&& ptePresent ≠ 0 → cell m D 2 Q &&& pteHugePage = 0

/-- Entry `k` of level `l + 1` is present just if it leads to a table. -/
theorem present_iff (h : WellFormed A root s D) (hl : 1 ≤ l) (hl3 : l ≤ 3)
    (hclear : l = 1 → Clear s.mem D k) : cell s.mem D (l + 1) k &&& ptePresent = 0 ↔
    D l k = none := by
  rw [h.below l k hl hl3]
  unfold target
  constructor
  · intro h0
    exact if_neg (fun hc => hc.1 h0)
  · intro hnone
    by_contra hp
    have hmark : cell s.mem D (l + 1) k &&& pteHugePage = 0 := by
      rcases Nat.eq_or_lt_of_le hl with rfl | hlt
      · exact hclear rfl hp
      · exact h.flat (l + 1) k (by omega) (by omega) hp
    rw [if_pos ⟨hp, hmark⟩] at hnone
    exact absurd hnone (by simp)

variable (kmalloc : Nat → MikroKernel.K Nat)

/-- **A table that is there is found**, and nothing is done. -/
theorem wireTable_known (msg : String) (h : WellFormed A root s D)
    (hu : D (l + 1) (k / 512) = some u) (hl3 : l ≤ 3) (ht : D l k = some t) :
    wireTable kmalloc msg (entryAddr u (k % 512)) L s = .ok (t, s) := by
  have ht' := ht
  rw [h.below l k (h.level ht).1 hl3, cell_some hu] at ht'
  obtain ⟨hp, -, haddr⟩ := target_some ht'
  have hload : Edits L s.physMapOffset (p2vLoad (entryAddr u (k % 512)) .pte) s.mem _ s.mem :=
    Edits.p2vLoad h.view (h.stored hu) rfl
  have hedit :
      Edits L s.physMapOffset (wireTable kmalloc msg (entryAddr u (k % 512))) s.mem t s.mem := by
    unfold wireTable
    refine hload.bind (Edits.ite_neg hp (hload.bind ?_))
    rw [haddr]
    exact Edits.pure t
  exact hedit s rfl rfl

/-- What the making of tables keeps. -/
structure Extends (s : KState) (D : Dir) (s' : KState) (D' : Dir) (low : Nat) : Prop where
  keep : ∀ {l k t}, D l k = some t → D' l k = some t
  clear : ∀ Q, Clear s.mem D Q → Clear s'.mem D' Q
  low : ∀ l k, l < low → D' l k = D l k

theorem Extends.refl (s : KState) (D : Dir) (low : Nat) : Extends s D s D low :=
  ⟨fun h => h, fun _ h => h, fun _ _ _ => rfl⟩

theorem Extends.trans {s₁ s₂ s₃ : KState} {D₁ D₂ D₃ : Dir} {low : Nat} (h : Extends s₁ D₁ s₂ D₂ low)
    (h' : Extends s₂ D₂ s₃ D₃ low) : Extends s₁ D₁ s₃ D₃ low :=
  ⟨fun hd => h'.keep (h.keep hd), fun Q hQ => h'.clear Q (h.clear Q hQ),
    fun l k hl => (h'.low l k hl).trans (h.low l k hl)⟩

variable [hk : Serves A.toPageSource kmalloc]

/-- **`wireTable`** panics, or leads to the table of its entry. -/
theorem wireTable_leads (low : Nat) (msg : String) (h : WellFormed A root s D)
    (hu : D (l + 1) (k / 512) = some u) (hl : 1 ≤ l) (hl3 : l ≤ 3) (hlow : low ≤ l)
    (hclear : l = 1 → Clear s.mem D k) :
    Yields L (wireTable kmalloc msg (entryAddr u (k % 512))) s (fun _ => True) (fun t s' =>
      ∃ D', WellFormed A root s' D' ∧ Extends s D s' D' low ∧ D' l k = some t) := by
  cases hd : D l k with
  | some t =>
    exact Yields.ret (h.wireTable_known kmalloc msg hu hl3 hd) ⟨D, h, Extends.refl _ _ _, hd⟩
  | none =>
    have hp := (h.present_iff hl hl3 hclear).mpr hd
    rw [cell_some hu] at hp
    unfold wireTable
    refine Yields.bind_edits (Edits.p2vLoad h.view (h.stored hu) rfl) (Yields.ite_pos hp ?_)
    have hmalloc := hk.spec h.ok (show 0 ≤ 10 by omega)
    rw [show pageSize * 2 ^ 0 = 4096 from rfl] at hmalloc
    refine hmalloc.bind ?_
    rintro t s₁ ⟨hok, hf, ⟨rfl, -⟩ | ⟨h0, hdvd, hblocks⟩⟩
    · exact Yields.ite_pos rfl (Yields.panic_bind trivial)
    · have hphys : L.phys t = true := ((A.ok_blocks hok ⟨t, 4096⟩ (by rw [hblocks]; simp)).2 t
        (Nat.le_refl _) (show t < t + 4096 by omega)).1
      have hview : View s₁.physMapOffset := hf.offset ▸ h.view
      have hw := h.wire hu hd hf hok hblocks hl hl3 hdvd
      have hcells := h.cell_wired hu hd hf hok hblocks
      refine Yields.ite_neg h0 ?_
      refine Yields.bind_edits (Edits.directmapP2v _) ?_
      refine Yields.bind_edits (Edits.memsetZero_p2v hview (Or.inl hphys)) ?_
      refine Yields.bind_edits (Edits.p2vStore hview (h.stored hu)) ?_
      refine Yields.bind_edits (Edits.p2vLoad hview (h.stored hu) (Mem.set_self _ _ _ _))
        (Yields.pure ?_)
      have haddr : tablePte t &&& pteAddrMask = t := by
        have := L.phys_lt _ hphys
        unfold physTop at this
        exact tablePte_addr hdvd (by omega)
      rw [show t ||| ptePresent ||| pteWritable = tablePte t from rfl, haddr]
      refine ⟨_, hw, ⟨addTable_keep hd, fun Q hQ => ?_, fun l' k' hl' => ?_⟩, addTable_self⟩
      · show Clear (wiredMem s₁.mem t (entryAddr u (k % 512))) (addTable D l k t) Q
        unfold Clear
        rw [hcells]
        split
        · exact fun _ => tablePte_not_huge hdvd
        · exact hQ
      · exact addTable_ne (by omega)

/-! ## The walk from the root -/

/-- The PDPT and the PD of a page. -/
def toPd (kmalloc : Nat → K Nat) (root P : Nat) : K (Nat × Nat) := do
  let pdpt ← wireTable kmalloc "Failed to allocate 4KiB page for PDPT"
    (entryAddr root (P / 512 ^ 3))
  let pd ← wireTable kmalloc "Failed to allocate 4KiB page for PD"
    (entryAddr pdpt (P / 512 ^ 2 % 512))
  return (pdpt, pd)

/-- The PDPT, the PD and the PT. -/
def toPt (kmalloc : Nat → K Nat) (root P : Nat) : K (Nat × Nat × Nat) := do
  let r ← toPd kmalloc root P
  let pt ← wireTable kmalloc "Failed to allocate 4KiB page for PT"
    (entryAddr r.2 (P / 512 ^ 1 % 512))
  return (r.1, r.2, pt)

theorem root_dir (h : WellFormed A root s D) : D 4 0 = some root := (h.root 0 root).mpr ⟨rfl, rfl⟩

theorem toPd_leads (low : Nat) (h : WellFormed A root s D) (hP : P < 2 ^ 36) (hlow : low ≤ 2) :
    Yields L (toPd kmalloc root P) s (fun _ => True) (fun r s' =>
      ∃ D', WellFormed A root s' D' ∧ Extends s D s' D' low ∧ D' 3 (P / 512 ^ 3) = some r.1 ∧
        D' 2 (P / 512 ^ 2) = some r.2) := by
  have hroot : D (3 + 1) (P / 512 ^ 3 / 512) = some root := by
    rw [show P / 512 ^ 3 / 512 = 0 by omega]
    exact h.root_dir
  have hidx : P / 512 ^ 3 = P / 512 ^ 3 % 512 := by omega
  unfold toPd
  rw [hidx]
  refine (h.wireTable_leads kmalloc low _ hroot (by omega) (Nat.le_refl 3) (by omega)
    (by omega)).bind ?_
  rintro pdpt s₁ ⟨D₁, h₁, he₁, hpdpt⟩
  have hup : D₁ (2 + 1) (P / 512 ^ 2 / 512) = some pdpt := by rwa [key_div]
  refine (h₁.wireTable_leads kmalloc low _ hup (by omega) (by omega) hlow (by omega)).bind ?_
  rintro pd s₂ ⟨D₂, h₂, he₂, hpd⟩
  rw [← hidx]
  exact Yields.pure ⟨D₂, h₂, he₁.trans he₂, he₂.keep hpdpt, hpd⟩

theorem toPt_leads (h : WellFormed A root s D) (hP : P < 2 ^ 36)
    (hclear : Clear s.mem D (P / 512 ^ 1)) :
    Yields L (toPt kmalloc root P) s (fun _ => True) (fun r s' =>
      ∃ D', WellFormed A root s' D' ∧ Extends s D s' D' 1 ∧ D' 3 (P / 512 ^ 3) = some r.1 ∧
        D' 2 (P / 512 ^ 2) = some r.2.1 ∧ D' 1 (P / 512 ^ 1) = some r.2.2) := by
  unfold toPt
  refine (h.toPd_leads kmalloc 1 hP (by omega)).bind ?_
  rintro ⟨pdpt, pd⟩ s₁ ⟨D₁, h₁, he₁, hpdpt, hpd⟩
  have hup : D₁ (1 + 1) (P / 512 ^ 1 / 512) = some pd := by rwa [key_div]
  refine (h₁.wireTable_leads kmalloc 1 _ hup (Nat.le_refl 1) (by omega) (Nat.le_refl 1)
    (fun _ => he₁.clear _ hclear)).bind ?_
  rintro pt s₂ ⟨D₂, h₂, he₂, hpt⟩
  exact Yields.pure ⟨D₂, h₂, he₁.trans he₂, he₂.keep hpdpt, he₂.keep hpd, hpt⟩

omit hk in
/-- **A walk to tables that are there changes nothing.** -/
theorem toPd_known {pdpt pd : Nat} (h : WellFormed A root s D) (hP : P < 2 ^ 36)
    (hpdpt : D 3 (P / 512 ^ 3) = some pdpt) (hpd : D 2 (P / 512 ^ 2) = some pd) :
    toPd kmalloc root P L s = .ok ((pdpt, pd), s) := by
  have hroot : D (3 + 1) (P / 512 ^ 3 / 512) = some root := by
    rw [show P / 512 ^ 3 / 512 = 0 by omega]
    exact h.root_dir
  have hup : D (2 + 1) (P / 512 ^ 2 / 512) = some pdpt := by rwa [key_div]
  have h₁ :=
    h.wireTable_known kmalloc "Failed to allocate 4KiB page for PDPT" hroot (Nat.le_refl 3) hpdpt
  have h₂ := h.wireTable_known kmalloc "Failed to allocate 4KiB page for PD" hup (by omega) hpd
  rw [Nat.mod_eq_of_lt (by omega)] at h₁
  unfold toPd
  rw [K.bind_ok h₁, K.bind_ok h₂]
  rfl

omit hk in
theorem toPt_known {pdpt pd pt : Nat} (h : WellFormed A root s D) (hP : P < 2 ^ 36)
    (hpdpt : D 3 (P / 512 ^ 3) = some pdpt) (hpd : D 2 (P / 512 ^ 2) = some pd)
    (hpt : D 1 (P / 512 ^ 1) = some pt) : toPt kmalloc root P L s = .ok ((pdpt, pd, pt), s) := by
  have hup : D (1 + 1) (P / 512 ^ 1 / 512) = some pd := by rwa [key_div]
  have h₁ := h.wireTable_known kmalloc "Failed to allocate 4KiB page for PT" hup (by omega) hpt
  unfold toPt
  rw [K.bind_ok (h.toPd_known kmalloc hP hpdpt hpd), K.bind_ok h₁]
  rfl

/-! ## The cursor -/

/-- The indices of the cursor lead to its tables. -/
def Knows (D : Dir) (c : Cursor) : Prop :=
  Good { dir := D, huge := fun _ => 0, small := fun _ => 0 } c

variable {c : Cursor}

/-- The cursor after the first two levels. The index in the PD is kept if the PD is. -/
def entered (c : Cursor) (P : Nat) (r : Nat × Nat) : Cursor where
  pml4tIdx := P / 512 ^ 3
  pdptIdx := P / 512 ^ 2 % 512
  pdIdx := if c.pml4tIdx = P / 512 ^ 3 ∧ c.pdptIdx = P / 512 ^ 2 % 512 then c.pdIdx else noIdx
  pdpt := r.1
  pd := r.2
  pt := c.pt

theorem noIdx_ne {i : Nat} (h : i < 512) : i ≠ noIdx := by
  unfold noIdx
  omega

/-- A cursor that is at the tables of a page knows them. -/
theorem Knows.at (hc : Knows D c) (hP : P < 2 ^ 36) (h4 : c.pml4tIdx = P / 512 ^ 3) :
    D 3 (P / 512 ^ 3) = some c.pdpt ∧
      (c.pdptIdx = P / 512 ^ 2 % 512 → D 2 (P / 512 ^ 2) = some c.pd ∧
        (c.pdIdx = P / 512 ^ 1 % 512 → D 1 (P / 512 ^ 1) = some c.pt)) := by
  obtain ⟨hpdpt, hrest⟩ := hc (by omega)
  rw [h4] at hpdpt hrest
  refine ⟨hpdpt, fun h3 => ?_⟩
  obtain ⟨hpd, hlast⟩ := hrest (by omega)
  rw [h3, key_eq P 2] at hpd hlast
  refine ⟨hpd, fun h2 => ?_⟩
  have hpt := hlast (by omega)
  rwa [h2, key_eq P 1] at hpt

omit hk in
/-- **What the cursor saves is a walk that changes nothing.** -/
theorem enter_eq (h : WellFormed A root s D) (hc : Knows D c) (hP : P < 2 ^ 36) :
    (do let c ← enterPml4t kmalloc root (P / 512 ^ 3) c
        enterPdpt kmalloc (P / 512 ^ 2 % 512) c : K Cursor) L s
      = (do let r ← toPd kmalloc root P
            pure (entered c P r) : K Cursor) L s := by
  have hidx3 : P / 512 ^ 2 % 512 < 512 := by omega
  unfold enterPml4t enterPdpt entered
  by_cases h4 : c.pml4tIdx = P / 512 ^ 3
  · obtain ⟨hpdpt, hrest⟩ := hc.at hP h4
    rw [if_neg (not_not.mpr h4.symm), K.pure_bind']
    by_cases h3 : c.pdptIdx = P / 512 ^ 2 % 512
    · obtain ⟨hpd, -⟩ := hrest h3
      rw [if_neg (not_not.mpr h3.symm), K.bind_ok (h.toPd_known kmalloc hP hpdpt hpd),
        if_pos ⟨h4, h3⟩, ← h4, ← h3]
    · have hroot : D (3 + 1) (P / 512 ^ 3 / 512) = some root := by
        rw [show P / 512 ^ 3 / 512 = 0 by omega]
        exact h.root_dir
      have hknown := h.wireTable_known kmalloc "Failed to allocate 4KiB page for PDPT" hroot
        (Nat.le_refl 3) hpdpt
      rw [Nat.mod_eq_of_lt (by omega)] at hknown
      unfold toPd
      rw [if_pos (Ne.symm h3), if_neg (fun hh => h3 hh.2), K.bind_assoc', K.bind_ok hknown, h4,
        K.bind_assoc']
      rfl
  · unfold toPd
    rw [if_pos (Ne.symm h4), if_neg (fun hh => h4 hh.1)]
    simp only [K.bind_assoc', K.pure_bind', if_pos (noIdx_ne hidx3)]

/-- The cursor at a page. -/
def cursorAt (P : Nat) (r : Nat × Nat × Nat) : Cursor :=
  ⟨P / 512 ^ 3, P / 512 ^ 2 % 512, P / 512 ^ 1 % 512, r.1, r.2.1, r.2.2⟩

omit hk in
theorem enter_pt_eq (h : WellFormed A root s D) (hc : Knows D c) (hP : P < 2 ^ 36) :
    (do let c ← enterPml4t kmalloc root (P / 512 ^ 3) c
        let c ← enterPdpt kmalloc (P / 512 ^ 2 % 512) c
        enterPd kmalloc (P / 512 ^ 1 % 512) c : K Cursor) L s
      = (do let r ← toPt kmalloc root P
            pure (cursorAt P r) : K Cursor) L s := by
  have henter := h.enter_eq kmalloc hc hP
  rw [← K.bind_assoc', K.bind_apply, henter, ← K.bind_apply, K.bind_assoc']
  by_cases hall : (c.pml4tIdx = P / 512 ^ 3 ∧ c.pdptIdx = P / 512 ^ 2 % 512) ∧
      c.pdIdx = P / 512 ^ 1 % 512
  · obtain ⟨⟨h4, h3⟩, h2⟩ := hall
    obtain ⟨hpdpt, hrest⟩ := hc.at hP h4
    obtain ⟨hpd, hlast⟩ := hrest h3
    have hpt := h.toPt_known kmalloc hP hpdpt hpd (hlast h2)
    have hsame : (entered c P (c.pdpt, c.pd)).pdIdx = P / 512 ^ 1 % 512 := by
      unfold entered
      simp only
      rw [if_pos ⟨h4, h3⟩, h2]
    rw [K.bind_ok (h.toPd_known kmalloc hP hpdpt hpd), K.bind_ok hpt, K.pure_bind']
    unfold enterPd
    rw [if_neg (not_not.mpr hsame.symm)]
    unfold entered cursorAt
    rw [if_pos ⟨h4, h3⟩, h2]
  · unfold toPt
    rw [K.bind_assoc']
    refine congrFun (congrFun (congrArg _ (funext fun r => ?_)) L) s
    have hne : P / 512 ^ 1 % 512 ≠ (entered c P r).pdIdx := by
      unfold entered
      simp only
      split
      · intro heq
        exact hall ⟨‹_›, heq.symm⟩
      · exact noIdx_ne (Nat.mod_lt _ (by omega))
    rw [K.pure_bind']
    unfold enterPd
    rw [if_pos hne, K.bind_assoc']
    rfl

theorem Knows.start (D : Dir) : Knows D .start := Good.start _

theorem knows_cursorAt {r : Nat × Nat × Nat} (hpdpt : D 3 (P / 512 ^ 3) = some r.1)
    (hpd : D 2 (P / 512 ^ 2) = some r.2.1) (hpt : D 1 (P / 512 ^ 1) = some r.2.2) :
    Knows D (cursorAt P r) := by
  intro _
  refine ⟨hpdpt, fun _ => ⟨?_, fun _ => ?_⟩⟩
  · show D 2 (P / 512 ^ 3 * 512 + P / 512 ^ 2 % 512) = _
    rw [key_eq P 2]
    exact hpd
  · show D 1 ((P / 512 ^ 3 * 512 + P / 512 ^ 2 % 512) * 512 + P / 512 ^ 1 % 512) = _
    rw [key_eq P 2, key_eq P 1]
    exact hpt

theorem knows_entered {r : Nat × Nat} (hc : Knows D c) (hP : P < 2 ^ 36)
    (hpdpt : D 3 (P / 512 ^ 3) = some r.1) (hpd : D 2 (P / 512 ^ 2) = some r.2) :
    Knows D (entered c P r) := by
  intro _
  refine ⟨hpdpt, fun _ => ⟨?_, fun h2 => ?_⟩⟩
  · show D 2 (P / 512 ^ 3 * 512 + P / 512 ^ 2 % 512) = _
    rw [key_eq P 2]
    exact hpd
  · unfold entered at h2 ⊢
    simp only at h2 ⊢
    by_cases hsame : c.pml4tIdx = P / 512 ^ 3 ∧ c.pdptIdx = P / 512 ^ 2 % 512
    · rw [if_pos hsame] at h2 ⊢
      have := ((hc (by omega)).2 (by omega)).2 h2
      rwa [hsame.1, hsame.2] at this
    · rw [if_neg hsame] at h2
      exact absurd h2 (by decide)

theorem Knows.extends {low : Nat} (hc : Knows D c) (he : Extends s D s' D' low) : Knows D' c :=
  fun h4 => ⟨he.keep (hc h4).1, fun h3 => ⟨he.keep ((hc h4).2 h3).1,
    fun h2 => he.keep (((hc h4).2 h3).2 h2)⟩⟩

/-! ## The loops -/

variable {flags p : Nat}

omit hk in
/-- A round of the 4KB loop, from any cursor that is right. -/
theorem mapSmallLoop_succ (left : Nat) (h : WellFormed A root s D) (hc : Knows D c) :
    mapSmallLoop kmalloc root flags (left + 1) v p c L s = (do
      let r ← toPt kmalloc root (pageNo v)
      p2vStore (entryAddr r.2.2 (pageNo v % 512)) .pte (p ||| flags)
      mapSmallLoop kmalloc root flags left ((v + pageSize) % 2 ^ 64) ((p + pageSize) % 2 ^ 64)
        (cursorAt (pageNo v) r) : K Unit) L s := by
  have henter := h.enter_pt_eq kmalloc hc (pageNo_lt v)
  have hgroup : ∀ f : Cursor → K Unit, (do
      let c ← enterPml4t kmalloc root (pageNo v / 512 ^ 3) c
      let c ← enterPdpt kmalloc (pageNo v / 512 ^ 2 % 512) c
      let c ← enterPd kmalloc (pageNo v / 512 ^ 1 % 512) c
      f c) L s = (do
        let r ← toPt kmalloc root (pageNo v)
        f (cursorAt (pageNo v) r)) L s := by
    intro f
    have hassoc : (do
        let c ← enterPml4t kmalloc root (pageNo v / 512 ^ 3) c
        let c ← enterPdpt kmalloc (pageNo v / 512 ^ 2 % 512) c
        let c ← enterPd kmalloc (pageNo v / 512 ^ 1 % 512) c
        f c) = ((do
          let c ← enterPml4t kmalloc root (pageNo v / 512 ^ 3) c
          let c ← enterPdpt kmalloc (pageNo v / 512 ^ 2 % 512) c
          enterPd kmalloc (pageNo v / 512 ^ 1 % 512) c) >>= f) := by
      simp only [K.bind_assoc']
    rw [hassoc, K.bind_apply, henter, ← K.bind_apply, K.bind_assoc']
    rfl
  rw [mapSmallLoop, virtToPml4Idx_eq, virtToPdptIdx_eq, virtToPdIdx_eq, virtToPtIdx_eq]
  exact hgroup _

omit hk in
/-- A round of the 2MB loop. -/
theorem mapHugeLoop_succ (left : Nat) (h : WellFormed A root s D) (hc : Knows D c) :
    mapHugeLoop kmalloc root flags (left + 1) v p c L s = (do
      let r ← toPd kmalloc root (pageNo v)
      p2vStore (entryAddr r.2 (pageNo v / 512 ^ 1 % 512)) .pte (p ||| flags)
      mapHugeLoop kmalloc root flags left ((v + hugePageSize) % 2 ^ 64)
        ((p + hugePageSize) % 2 ^ 64)
        (entered c (pageNo v) r) : K Unit) L s := by
  have henter := h.enter_eq kmalloc hc (pageNo_lt v)
  have hgroup : ∀ f : Cursor → K Unit, (do
      let c ← enterPml4t kmalloc root (pageNo v / 512 ^ 3) c
      let c ← enterPdpt kmalloc (pageNo v / 512 ^ 2 % 512) c
      f c) L s = (do
        let r ← toPd kmalloc root (pageNo v)
        f (entered c (pageNo v) r)) L s := by
    intro f
    rw [← K.bind_assoc', K.bind_apply, henter, ← K.bind_apply, K.bind_assoc']
    rfl
  rw [mapHugeLoop, virtToPml4Idx_eq, virtToPdptIdx_eq, virtToPdIdx_eq]
  exact hgroup _

end WellFormed

/-! ## One call and many -/

/-- `map_pages` for each of the pages of a call, from page `i` on. -/
def mapEach (kmalloc : Nat → K Nat) (pml4t : Nat) (a : Args) : Nat → Nat → K Unit
  | 0, _ => pure ()
  | left + 1, i => do
      mapPages kmalloc pml4t ((a.paddr + i * a.size) % 2 ^ 64)
        ((a.vaddr + i * a.size) % 2 ^ 64) a.flags 1
      mapEach kmalloc pml4t a left (i + 1)

/-- No page of the range is in the way of one of the other size. -/
def NoConflict (m : Mem) (D : Dir) (a : Args) : Prop :=
  ∀ P, a.Covers P → if a.flags &&& pteHugePage ≠ 0 then D 1 (P / 512) = none
    else WellFormed.Clear m D (P / 512)

variable {a : Args} {c : Cursor} (kmalloc : Nat → MikroKernel.K Nat)
    [hk : Serves A.toPageSource kmalloc]

open WellFormed

theorem next_address (x i size : Nat) :
    ((x + i * size) % 2 ^ 64 + size) % 2 ^ 64 = (x + (i + 1) * size) % 2 ^ 64 := by
  rw [Nat.mod_add_mod, Nat.add_assoc, Nat.succ_mul]

/-- **The 4KB loop** is a call for each page. -/
theorem mapSmallLoop_eq_mapEach (hmark : a.flags &&& pteHugePage = 0) (hdvd : pageSize ∣ a.paddr)
    (left i : Nat) (h : WellFormed A root s D) (hc : Knows D c)
    (hclear : ∀ j, i ≤ j → j < i + left →
      Clear s.mem D (pageNo ((a.vaddr + j * a.size) % 2 ^ 64) / 512)) :
    mapSmallLoop kmalloc root a.flags left ((a.vaddr + i * a.size) % 2 ^ 64)
        ((a.paddr + i * a.size) % 2 ^ 64) c L s
      = mapEach kmalloc root a left i L s := by
  induction left generalizing s D c i with
  | zero => rfl
  | succ left ih =>
    have hsize := a.size_small hmark
    have hpage : pageSize ∣ (a.paddr + i * a.size) % 2 ^ 64 := by
      rw [hsize]
      unfold pageSize at *
      omega
    have hone : mapPages kmalloc root ((a.paddr + i * a.size) % 2 ^ 64)
        ((a.vaddr + i * a.size) % 2 ^ 64) a.flags 1 = mapSmallLoop kmalloc root a.flags (0 + 1)
          ((a.vaddr + i * a.size) % 2 ^ 64) ((a.paddr + i * a.size) % 2 ^ 64) .start := by
      unfold mapPages
      rw [if_neg (by omega), if_neg (not_not.mpr hmark), alignDown_of_dvd hpage]
    have hP := pageNo_lt ((a.vaddr + i * a.size) % 2 ^ 64)
    rw [h.mapSmallLoop_succ kmalloc left hc, mapEach, hone, K.bind_apply, K.bind_apply,
      h.mapSmallLoop_succ kmalloc 0 (Knows.start D), K.bind_apply]
    have hleads :=
      h.toPt_leads kmalloc hP (by rw [Nat.pow_one]; exact hclear i (Nat.le_refl _) (by omega))
    cases hrun : toPt kmalloc root (pageNo ((a.vaddr + i * a.size) % 2 ^ 64)) L s with
    | error e => rfl
    | ok r =>
      obtain ⟨r, s₁⟩ := r
      obtain ⟨D₁, h₁, he, hpdpt, hpd, hpt⟩ := hleads.of_ok hrun
      rw [Nat.pow_one] at hpt
      have hstore := p2vStore_apply (x := (a.paddr + i * a.size) % 2 ^ 64 ||| a.flags)
        (f := .pte) h₁.view
        (h₁.stored hpt)
      have h₂ := h₁.write (x := (a.paddr + i * a.size) % 2 ^ 64 ||| a.flags) hpt
        (by omega) (by omega)
      have htail :=
        ih (i + 1) h₂ (knows_cursorAt hpdpt hpd (by rwa [Nat.pow_one])) (fun j h1 h2 => ?_)
      · rw [← next_address, ← next_address] at htail
        simp only [hsize]
        rw [hsize] at htail hstore
        rw [K.bind_ok hstore, K.bind_ok hstore]
        exact htail
      · -- the leaf is in a PT
        unfold Clear
        rw [h₁.cell_set hpt, if_neg (by omega)]
        exact he.clear _ (hclear j (by omega) (by omega))

/-- **The 2MB loop** is a call for each page. -/
theorem mapHugeLoop_eq_mapEach (hmark : a.flags &&& pteHugePage ≠ 0) (left i : Nat)
    (h : WellFormed A root s D) (hc : Knows D c)
    (hnone : ∀ j, i ≤ j → j < i + left →
      D 1 (pageNo ((a.vaddr + j * a.size) % 2 ^ 64) / 512) = none) :
    mapHugeLoop kmalloc root a.flags left ((a.vaddr + i * a.size) % 2 ^ 64)
        ((a.paddr + i * a.size) % 2 ^ 64) c L s
      = mapEach kmalloc root a left i L s := by
  induction left generalizing s D c i with
  | zero => rfl
  | succ left ih =>
    have hsize := a.size_huge hmark
    have hone : mapPages kmalloc root ((a.paddr + i * a.size) % 2 ^ 64)
        ((a.vaddr + i * a.size) % 2 ^ 64) a.flags 1 = mapHugeLoop kmalloc root a.flags (0 + 1)
          ((a.vaddr + i * a.size) % 2 ^ 64) ((a.paddr + i * a.size) % 2 ^ 64) .start := by
      unfold mapPages
      rw [if_neg (by omega), if_pos hmark]
    have hP := pageNo_lt ((a.vaddr + i * a.size) % 2 ^ 64)
    rw [h.mapHugeLoop_succ kmalloc left hc, mapEach, hone, K.bind_apply, K.bind_apply,
      h.mapHugeLoop_succ kmalloc 0 (Knows.start D), K.bind_apply]
    cases hrun : toPd kmalloc root (pageNo ((a.vaddr + i * a.size) % 2 ^ 64)) L s with
    | error e => rfl
    | ok r =>
      obtain ⟨r, s₁⟩ := r
      obtain ⟨D₁, h₁, he, hpdpt, hpd⟩ := (h.toPd_leads kmalloc 2 hP (Nat.le_refl 2)).of_ok hrun
      have hpd' : D₁ 2 (pageNo ((a.vaddr + i * a.size) % 2 ^ 64) / 512 ^ 1 / 512) = some r.2 := by
        rwa [key_div]
      have hnone₁ : ∀ j, i ≤ j → j < i + (left + 1) →
          D₁ 1 (pageNo ((a.vaddr + j * a.size) % 2 ^ 64) / 512 ^ 1) = none := by
        intro j h1 h2
        rw [he.low 1 _ (by omega), Nat.pow_one]
        exact hnone j h1 h2
      have hleaf : target ((a.paddr + i * a.size) % 2 ^ 64 ||| a.flags) = none :=
        if_neg (fun hh => leaf_mark hmark hh.2)
      have hstore := p2vStore_apply (x := (a.paddr + i * a.size) % 2 ^ 64 ||| a.flags)
        (f := .pte) h₁.view
        (h₁.stored hpd')
      have h₂ :=
        h₁.write hpd' (Nat.le_refl 2) (fun _ => ⟨hnone₁ i (Nat.le_refl _) (by omega), hleaf⟩)
      have htail := ih (i + 1) h₂ (knows_entered (hc.extends he) hP hpdpt hpd) (fun j h1 h2 => by
        have := hnone₁ j (by omega) (by omega)
        rwa [Nat.pow_one] at this)
      rw [← next_address, ← next_address] at htail
      simp only [hsize]
      rw [hsize] at htail hstore
      rw [K.bind_ok hstore, K.bind_ok hstore]
      exact htail

/-- A call is a call for each page. A 2MB frame need not be aligned. -/
theorem mapPages_each (h : WellFormed A root s D) (hc : NoConflict s.mem D a)
    (hdvd : pageSize ∣ a.paddr) (hp : a.paddr < 2 ^ 64) (hv : a.vaddr < 2 ^ 64) :
    mapPages kmalloc root a.paddr a.vaddr a.flags a.numPages L s
      = mapEach kmalloc root a a.numPages 0 L s := by
  have hat : ∀ {j}, j < a.numPages → a.Covers (pageNo ((a.vaddr + j * a.size) % 2 ^ 64)) :=
    fun hj => ⟨_, hj, rfl⟩
  have hfirst : ∀ {x : Nat}, x < 2 ^ 64 → (x + 0 * a.size) % 2 ^ 64 = x := by
    intro x hx
    rw [Nat.zero_mul, Nat.add_zero, Nat.mod_eq_of_lt hx]
  unfold mapPages
  by_cases hn : a.numPages = 0
  · rw [if_pos hn, hn]
    rfl
  · rw [if_neg hn]
    by_cases hmark : a.flags &&& pteHugePage = 0
    · have hloop := mapSmallLoop_eq_mapEach kmalloc hmark hdvd a.numPages 0 h (Knows.start D)
        (fun j _ hj => by
          have := hc _ (hat (show j < a.numPages by omega))
          rwa [if_neg (not_not.mpr hmark)] at this)
      rw [hfirst hv, hfirst hp] at hloop
      rw [if_neg (not_not.mpr hmark), alignDown_of_dvd hdvd]
      exact hloop
    · have hloop := mapHugeLoop_eq_mapEach kmalloc hmark a.numPages 0 h (Knows.start D)
        (fun j _ hj => by
          have := hc _ (hat (show j < a.numPages by omega))
          rwa [if_pos hmark] at this)
      rw [hfirst hv, hfirst hp] at hloop
      rw [if_pos hmark]
      exact hloop

/-- **The cached walk is the walk from the root for each page**: the same memory, the same frames
taken in the same order, the same panics. -/
theorem mapPages_eq_mapEach (h : WellFormed A root s D) (hc : NoConflict s.mem D a)
    (hdvd : a.size ∣ a.paddr) (hp : a.paddr < 2 ^ 64) (hv : a.vaddr < 2 ^ 64) :
    mapPages A.kmalloc root a.paddr a.vaddr a.flags a.numPages L s
      = mapEach A.kmalloc root a a.numPages 0 L s :=
  mapPages_each A.kmalloc h hc (Nat.dvd_trans a.pageSize_dvd_size hdvd) hp hv

/-! ## The states of runs -/

theorem Inv.cell_eq {T : Tables} (h : Inv A root s T) (hu : T.dir l (k / 512) = some u) :
    cell s.mem T.dir l k = T.entry l k := by
  rw [cell_some hu]
  exact h.read hu

/-- The tables that `map_pages` and `unmap_pages` leave are well formed. -/
theorem Inv.wellFormed {T : Tables} (h : Inv A root s T) : WellFormed A root s T.dir := by
  refine ⟨h.shape.aligned h.root_dir, h.shape.root, fun l k h1 h3 => ?_, h.shape.level, h.shape.inj,
    fun l k h3 h4 hp => ?_, h.block, h.ok, h.view⟩
  · cases hu : T.dir (l + 1) (k / 512) with
    | none =>
      rw [cell_none hu, target_zero]
      cases hd : T.dir l k with
      | none => rfl
      | some t =>
        obtain ⟨u, hu'⟩ := h.shape.parent hd h3
        exact absurd (hu.symm.trans hu') (by simp)
    | some u =>
      rw [h.cell_eq hu]
      cases hd : T.dir l k with
      | some t =>
        have hlt := h.lt hd
        rw [Tables.entry_table h1 hd, target_tablePte (h.shape.aligned hd) (by omega)]
      | none =>
        rcases Nat.eq_or_lt_of_le h1 with rfl | hlt
        · rw [Tables.entry_leaf hd]
          by_cases hzero : T.huge k = 0
          · rw [hzero, target_zero]
          · exact (if_neg (fun hh => (h.shape.huge_present hzero).2 hh.2)).symm
        · rw [Tables.entry_none hlt hd, target_zero]
  · obtain ⟨j, rfl⟩ : ∃ j, l = j + 1 := ⟨l - 1, by omega⟩
    cases hu : T.dir (j + 1) (k / 512) with
    | none =>
      rw [cell_none hu]
      exact Nat.zero_and _
    | some u =>
      rw [h.cell_eq hu]
      cases hd : T.dir j k with
      | some t =>
        rw [Tables.entry_table (by omega) hd]
        exact tablePte_not_huge (h.shape.aligned hd)
      | none =>
        rw [Tables.entry_none (by omega) hd]
        exact Nat.zero_and _

/-- Where no 2MB page is, the PD entry is no leaf. -/
theorem Inv.clear {T : Tables} (h : Inv A root s T) (h0 : T.huge k = 0) : Clear s.mem T.dir k := by
  intro hp
  cases hu : T.dir 2 (k / 512) with
  | none =>
    rw [cell_none hu]
    exact Nat.zero_and _
  | some u =>
    rw [h.cell_eq hu]
    cases hd : T.dir 1 k with
    | some t =>
      rw [Tables.entry_table (Nat.le_refl 1) hd]
      exact tablePte_not_huge (h.shape.aligned hd)
    | none =>
      rw [Tables.entry_leaf hd, h0]
      exact Nat.zero_and _

/-- With no tables but the root, nothing is in the way. -/
theorem bare_noConflict (a : Args) : NoConflict smallStart.mem (Tables.bare 0x400000).dir a := by
  intro P _
  split
  · simp [Tables.bare]
  · intro hp
    rw [cell_none (by simp [Tables.bare])] at hp
    exact absurd (Nat.zero_and _) hp

theorem mapPages_eq_mapEach_pair :
    ∃ s', mapPages smallAlloc.kmalloc 0x400000 pairArgs.paddr pairArgs.vaddr
      pairArgs.flags 2 smallLayout smallStart = .ok ((), s') ∧
    mapEach smallAlloc.kmalloc 0x400000 pairArgs 2 0 smallLayout smallStart = .ok ((), s') := by
  have hwf := smallStart_start.inv.1.wellFormed
  have heq := mapPages_eq_mapEach (A := smallAlloc) hwf (bare_noConflict pairArgs) (by decide)
    (by decide) (by decide)
  obtain ⟨⟨s₁, s₂⟩, hrun, -⟩ := Option.map_eq_some_iff.mp smallRun_result
  obtain ⟨h₁, -, -⟩ := smallRun_calls hrun
  exact ⟨s₁, h₁, heq.symm.trans h₁⟩

end Mmu
end MikroKernel
