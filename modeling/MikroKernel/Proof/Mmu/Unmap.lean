import MikroKernel.Proof.Mmu.Map

/-!
# `unmap_pages`

A page is unmapped by zeroing its leaf; then the tables on its way are taken away from the lowest
on, as long as they are empty. Each of these steps leaves at most one empty table, the next one up
(`FullExcept`), and the last leaves none.

A call returns unless it was asked for a page that is mapped in the other size or to another frame.
Everything here is proved of the call with checked frees (`PhysAlloc.checkedKfree`), which may also
stop with their alarm; where it does not, the call does the same without the check
(`Yields.of_guarded`).
-/

set_option autoImplicit false

namespace MikroKernel
namespace Mmu

/-! With checked frees, the code is the same but for the alarm. -/

section

variable {alarm : Stop} {x y : Nat → Nat → MikroKernel.K Unit}
  [hxy : ∀ p n, Guards alarm (x p n) (y p n)]

instance (table entry : Nat) (up up' : MikroKernel.K Unit) [Guards alarm up up'] :
    Guards alarm (prune x table entry up) (prune y table entry up') := by
  unfold prune
  infer_instance

instance (huge wrong : String) (pml4t p v : Nat) :
    Guards alarm (unmapSmallWith huge wrong x pml4t p v)
        (unmapSmallWith huge wrong y pml4t p v) := by
  unfold unmapSmallWith
  refine Guards.rest fun _ => Guards.unlessDone (Guards.rest fun _ => Guards.rest fun _ => ?_)
  refine Guards.unlessDone (Guards.rest fun _ => Guards.rest fun _ => ?_)
  refine Guards.unlessDone
    (Guards.rest fun _ => Guards.unlessPanic (Guards.rest fun _ => Guards.rest fun _ => ?_))
  exact Guards.unlessDone (Guards.rest fun _ => Guards.unlessPanic inferInstance)

instance (notHuge wrong : String) (pml4t p v : Nat) :
    Guards alarm (unmapHugeWith notHuge wrong x pml4t p v)
        (unmapHugeWith notHuge wrong y pml4t p v) := by
  unfold unmapHugeWith
  refine Guards.rest fun _ => Guards.unlessDone (Guards.rest fun _ => Guards.rest fun _ => ?_)
  refine Guards.unlessDone (Guards.rest fun _ => Guards.rest fun _ => ?_)
  refine Guards.unlessDone (Guards.rest fun _ => Guards.unlessPanic (Guards.rest fun _ => ?_))
  exact Guards.unlessPanic inferInstance

instance (at_ at_' : Nat → Nat → MikroKernel.K Unit) [∀ p v, Guards alarm (at_ p v) (at_' p v)]
    (size p v left i : Nat) :
    Guards alarm (unmapLoop at_ size p v left i) (unmapLoop at_' size p v left i) := by
  induction left generalizing i with
  | zero => exact Guards.refl _
  | succ left ih =>
    unfold unmapLoop
    infer_instance

instance (pml4t p v : Nat) :
    Guards alarm (unmapSmallAt x pml4t p v) (unmapSmallAt y pml4t p v) := by
  unfold unmapSmallAt
  infer_instance

instance (pml4t p v : Nat) : Guards alarm (unmapHugeAt x pml4t p v) (unmapHugeAt y pml4t p v) := by
  unfold unmapHugeAt
  infer_instance

instance (pml4t p v flags n : Nat) :
    Guards alarm (unmapPages x pml4t p v flags n) (unmapPages y pml4t p v flags n) := by
  unfold unmapPages
  infer_instance

instance (pml4t p v : Nat) :
    Guards alarm (unmapHugePage x pml4t p v) (unmapHugePage y pml4t p v) := by
  unfold unmapHugePage
  infer_instance

end

variable {L : Layout} {A : PhysAlloc L} {s : KState} {root : Nat} {T T' : Tables}
  {l k K t u w i P Q : Nat}

/-! ## `is_empty` -/

/-- No entry of the table is in use. -/
def EmptyAt (T : Tables) (l K : Nat) : Prop := ∀ i, i < 512 → T.entry l (K * 512 + i) = 0

theorem isEmptyLoop_edits (h : Inv A root s T) (ht : T.dir l K = some t) (left : Nat) :
    ∀ i, i + left = 512 → ∃ b,
      Edits L s.physMapOffset (isEmptyLoop (p2v s.physMapOffset t) left i) s.mem b s.mem ∧
      (b = true ↔ ∀ j, i ≤ j → j < 512 → T.entry l (K * 512 + j) = 0) := by
  induction left with
  | zero => exact fun i hi => ⟨true, Edits.pure _, fun _ j _ _ => by omega, fun _ => rfl⟩
  | succ left ih =>
    intro i hi
    have hload : Edits L s.physMapOffset
        (load (entryAddr (p2v s.physMapOffset t) i) .pte) s.mem
            (T.entry l (K * 512 + i)) s.mem := by
      refine Edits.load_p2v h.view ?_ (h.entries ht i (by omega))
      exact h.phys ht (by omega) (by unfold pageSize; omega)
    by_cases hzero : T.entry l (K * 512 + i) = 0
    · obtain ⟨b, hb, hiff⟩ := ih (i + 1) (by omega)
      refine ⟨b, hload.bind (Edits.ite_neg (not_not.mpr hzero) hb), hiff.trans ?_⟩
      constructor
      · intro hall j h1 h2
        rcases Nat.eq_or_lt_of_le h1 with rfl | hlt
        · exact hzero
        · exact hall j hlt h2
      · exact fun hall j h1 h2 => hall j (by omega) h2
    · refine ⟨false, hload.bind (Edits.ite_pos hzero (Edits.pure _)), ?_⟩
      constructor
      · exact fun hf => absurd hf (by simp)
      · exact fun hall => absurd (hall i (Nat.le_refl _) (by omega)) hzero

/-- **`is_empty`** tells whether the table is empty. -/
theorem isEmpty_edits (h : Inv A root s T) (ht : T.dir l K = some t) : ∃ b,
    Edits L s.physMapOffset (isEmpty (p2v s.physMapOffset t)) s.mem b s.mem ∧
      (b = true ↔ EmptyAt T l K) := by
  obtain ⟨b, hb, hiff⟩ := isEmptyLoop_edits h ht 512 0 rfl
  exact ⟨b, hb,
    hiff.trans ⟨fun hall j hj => hall j (Nat.zero_le _) hj, fun hall j _ hj => hall j hj⟩⟩

/-! ## Taking a table away -/

/-- Blocks with an address in them that are apart are different. -/
theorem blocks_nodup (h : Inv A root s T) (ht : T.dir l K = some t) {b : Block} :
    b ∈ s.blocks.erase ⟨t, pageSize⟩ ↔ b ∈ s.blocks ∧ b ≠ ⟨t, pageSize⟩ := by
  have hap := A.ok_apart h.ok
  constructor
  · intro hb
    refine ⟨List.mem_of_mem_erase hb, ?_⟩
    rintro rfl
    -- it would be in the list twice
    have hperm := List.perm_cons_erase (h.block ht)
    have hpair := (hperm.pairwise_iff (fun hxy => Or.symm hxy)).mp hap
    have := (List.pairwise_cons.mp hpair).1 _ hb
    simp only at this
    unfold pageSize at this
    omega
  · rintro ⟨hb, hne⟩
    exact (List.mem_erase_of_ne hne).mpr hb

/-- **An empty table goes back to the allocator**, after the entry that led to it is zeroed, unless
the check of the free fails. -/
theorem Inv.unwire (h : Inv A root s T) (hl3 : l ≤ 3) (ht : T.dir l K = some t)
    (hu : T.dir (l + 1) (K / 512) = some u) (hempty : EmptyAt T l K) :
    A.checkedKfree t pageSize L { s with mem := s.mem.set (entryAddr u (K % 512)) .pte 0 }
        = .error clashAlarm ∨
      ∃ s', A.checkedKfree t pageSize L { s with mem := s.mem.set (entryAddr u (K % 512)) .pte 0 }
          = .ok ((), s') ∧
        Inv A root s' (T.setDir l K none) ∧ Frame A T (T.setDir l K none) s s' := by
  have hK := Nat.mod_lt K (show 0 < 512 by omega)
  have hin := entryAddr_inside u hK
  have hcell : ∀ a f, s.mem.set (entryAddr u (K % 512)) .pte 0 a f ≠ s.mem a f →
      a = entryAddr u (K % 512) := by
    intro a f hne
    by_contra ha
    exact hne (Mem.set_ne (Or.inl ha))
  have hok₁ : A.Ok { s with mem := s.mem.set (entryAddr u (K % 512)) .pte 0 } := by
    refine A.ok_frame h.ok h.view (fun _ hf => hf) rfl (fun a f hne _ => ?_)
    rw [hcell a f hne]
    exact ⟨_, h.block hu, hin.1, hin.2⟩
  refine (A.checkedKfree_spec hok₁ (h.block ht)).imp_right ?_
  rintro ⟨s', hrun, hok, hframe, hblocks⟩
  have hsub : ∀ {l' K' v}, (T.setDir l K none).dir l' K' = some v →
      T.dir l' K' = some v ∧ v ≠ t := by
    intro l' K' v hv
    rcases Tables.setDir_eq_some hv with ⟨-, -, e⟩ | ⟨hne, hv⟩
    · exact absurd e (by simp)
    · exact ⟨hv, fun he => hne (h.shape.inj hv (he ▸ ht))⟩
  have hkeep : ∀ {l' K' v}, (T.setDir l K none).dir l' K' = some v →
      (⟨v, pageSize⟩ : Block) ∈ s'.blocks := by
    intro l' K' v hv
    rw [hblocks]
    exact (blocks_nodup h ht).mpr ⟨h.block (hsub hv).1, fun he => (hsub hv).2 (Block.mk.inj he).1⟩
  have howns : ∀ b, Owns T b ↔ Owns (T.setDir l K none) b ∨ b = ⟨t, pageSize⟩ := by
    intro b
    constructor
    · rintro ⟨l', K', hd, hlen⟩
      by_cases hc : l' = l ∧ K' = K
      · obtain ⟨rfl, rfl⟩ := hc
        rw [ht, Option.some.injEq] at hd
        exact Or.inr (by rw [hd, ← hlen])
      · exact Or.inl ⟨l', K', (Tables.setDir_ne hc).trans hd, hlen⟩
    · rintro (⟨l', K', hd, hlen⟩ | rfl)
      · exact ⟨l', K', (hsub hd).1, hlen⟩
      · exact ⟨l, K, ht, rfl⟩
  refine ⟨s', hrun, ⟨h.shape.unwire hl3 ht hempty, ?_, hkeep, hok, ?_⟩, hframe.offset,
    fun id hf => hframe.free id hf, hframe.lock, ?_, ?_⟩
  · intro l' K' t' ht' j hj
    obtain ⟨hold, -⟩ := hsub ht'
    have hsame : s'.mem (entryAddr t' j) .pte
        = s.mem.set (entryAddr u (K % 512)) .pte 0 (entryAddr t' j) .pte := by
      by_contra hne
      exact (hframe.mem _ _ hne).2 ⟨_, hblocks ▸ hkeep ht', (entryAddr_inside t' hj).1,
        (entryAddr_inside t' hj).2⟩
    rw [hsame]
    by_cases heq : entryAddr t' j = entryAddr u (K % 512)
    · obtain ⟨rfl, rfl, rfl⟩ := h.shape.entryAddr_inj hold hu hj hK heq
      rw [heq, Mem.set_self, Nat.mul_comm, Nat.div_add_mod, h.shape.entry_unwired ht]
    · rw [Mem.set_ne (Or.inl heq), h.entries hold j hj,
        Tables.setDir_entry _ (h.shape.level hold).1]
      rintro ⟨rfl, hkey⟩
      exact Tables.entry_ne hu hold hK hj heq ⟨rfl, by omega⟩
  · rw [hframe.offset]
    exact h.view
  · intro b
    rw [hblocks]
    show b ∈ s.blocks.erase _ ∧ _ ↔ _
    rw [blocks_nodup h ht, howns, not_or, and_assoc, and_comm (a := ¬ b = _)]
  · intro a f hne
    by_cases hsame : s'.mem a f = s.mem.set (entryAddr u (K % 512)) .pte 0 a f
    · rw [hsame] at hne
      rw [hcell a f hne]
      exact h.cell_apart hu hin.1 hin.2
    · obtain ⟨h1, h2⟩ := hframe.mem a f hsame
      refine ⟨h1, fun b hb ho hin' => h2 ⟨b, ?_, hin'⟩⟩
      exact (blocks_nodup h ht).mpr ⟨hb, fun he => ho ((howns b).mpr (Or.inr he))⟩

/-! ## Pruning -/

/-- Every table but the root and the one with this key has an entry. -/
def FullExcept (l K : Nat) (T : Tables) : Prop :=
  ∀ ⦃l' K' t⦄, l' ≤ 3 → T.dir l' K' = some t → ¬ (l' = l ∧ K' = K) →
    ∃ i, i < 512 ∧ T.entry l' (K' * 512 + i) ≠ 0

theorem FullExcept.full (h : FullExcept 4 K T) : Full T :=
  fun _ _ _ hl hd => h hl hd (by omega)

/-- With an entry in it, that table is no exception. -/
theorem FullExcept.full_of_not_empty (h : FullExcept l K T) (hne : ¬ EmptyAt T l K) : Full T := by
  intro l' K' t hl hd
  by_cases hc : l' = l ∧ K' = K
  · obtain ⟨rfl, rfl⟩ := hc
    unfold EmptyAt at hne
    push Not at hne
    exact hne
  · exact h hl hd hc

/-- Once a table is gone, only the one above it may be empty. -/
theorem FullExcept.unwire (h : FullExcept l K T) (hs : Shape root T) :
    FullExcept (l + 1) (K / 512) (T.setDir l K none) := by
  intro l' K' v hl hd hne
  rcases Tables.setDir_eq_some hd with ⟨-, -, e⟩ | ⟨hold, hd'⟩
  · exact absurd e (by simp)
  · obtain ⟨i, hi, hentry⟩ := h hl hd' hold
    refine ⟨i, hi, ?_⟩
    rwa [Tables.setDir_entry _ (hs.level hd').1]
    rintro ⟨rfl, hk⟩
    exact hne ⟨rfl, by omega⟩

variable {B : String → Prop}

/-- **One level of the pruning.** What is above goes on where this leaves off. -/
theorem prune_yields (up : MikroKernel.K Unit) (h : Inv A root s T) (hl3 : l ≤ 3)
    (ht : T.dir l K = some t) (hu : T.dir (l + 1) (K / 512) = some u) (hfull : FullExcept l K T)
    (hup : ∀ s', Inv A root s' (T.setDir l K none) →
      FullExcept (l + 1) (K / 512) (T.setDir l K none) →
      Yields L up s' (OrClash B)
      (fun _ s'' => Holds A root (T.setDir l K none) s' T.small T.huge s'')) :
    Yields L (prune A.checkedKfree t (entryAddr u (K % 512)) up) s (OrClash B)
      (fun _ s' => Holds A root T s T.small T.huge s') := by
  unfold prune
  obtain ⟨b, hb, hiff⟩ := isEmpty_edits h ht
  refine Yields.bind_edits (Edits.directmapP2v t) (Yields.bind_edits hb ?_)
  by_cases hempty : EmptyAt T l K
  · refine Yields.ite_pos (hiff.mpr hempty) ?_
    refine Yields.bind_edits (Edits.p2vStore h.view (h.stored hu (Nat.mod_lt _ (by omega)))) ?_
    rcases h.unwire hl3 ht hu hempty with halarm | ⟨s', hrun, hinv, hframe⟩
    · exact Yields.bind (Or.inr ⟨_, halarm, Or.inl rfl⟩) (fun _ _ hq => False.elim hq)
    · refine Yields.bind_ok hrun
        ((hup _ hinv (hfull.unwire h.shape)).mono (fun _ hm => hm) (fun _ _ hq => ?_))
      exact hq.since hframe
  · refine Yields.ite_neg (fun hb' => hempty (hiff.mp hb')) (Yields.pure ?_)
    exact ⟨T, h, hfull.full_of_not_empty hempty, Frame.refl T s, rfl, rfl⟩

/-- From the PDPT on. -/
theorem prunePdpt_yields (h : Inv A root s T) (ht : T.dir 3 K = some t) (hfull : FullExcept 3 K T)
    (hK : K < 512) :
    Yields L (prune A.checkedKfree t (entryAddr root K) (pure ())) s (OrClash B)
      (fun _ s' => Holds A root T s T.small T.huge s') := by
  have hroot : T.dir (3 + 1) (K / 512) = some root := by
    rw [show K / 512 = 0 by omega]
    exact h.root_dir
  have := prune_yields (B := B) (pure ()) h (Nat.le_refl 3) ht hroot hfull
    (fun s' hinv hf => Yields.pure ⟨_, hinv, hf.full, Frame.refl _ _, rfl, rfl⟩)
  rwa [Nat.mod_eq_of_lt hK] at this

/-- From the PD on. -/
theorem prunePd_yields (h : Inv A root s T) (ht : T.dir 2 K = some t)
    (hu : T.dir 3 (K / 512) = some u) (hfull : FullExcept 2 K T) (hK : K / 512 < 512) :
    Yields L (prune A.checkedKfree t (entryAddr u (K % 512))
        (prune A.checkedKfree u (entryAddr root (K / 512)) (pure ()))) s (OrClash B)
      (fun _ s' => Holds A root T s T.small T.huge s') := by
  refine prune_yields _ h (by omega) ht hu hfull (fun s' hinv hf => ?_)
  exact prunePdpt_yields hinv ((Tables.setDir_ne (by omega)).trans hu) hf hK

/-- From the PT on. -/
theorem prunePt_yields (h : Inv A root s T) (ht : T.dir 1 K = some t)
    (hu : T.dir 2 (K / 512) = some u) (hw : T.dir 3 (K / 512 / 512) = some w)
    (hfull : FullExcept 1 K T) (hK : K / 512 / 512 < 512) :
    Yields L (prune A.checkedKfree t (entryAddr u (K % 512))
        (prune A.checkedKfree u (entryAddr w (K / 512 % 512))
          (prune A.checkedKfree w (entryAddr root (K / 512 / 512)) (pure ())))) s (OrClash B)
      (fun _ s' => Holds A root T s T.small T.huge s') := by
  refine prune_yields _ h (by omega) ht hu hfull (fun s' hinv hf => ?_)
  exact prunePd_yields hinv ((Tables.setDir_ne (by omega)).trans hu)
    ((Tables.setDir_ne (by omega)).trans hw) hf hK

/-! ## One page -/

/-- A page whose 4KB leaf was there, or whose table is the only one that may be empty now. -/
theorem Full.setSmall (hf : Full T) (x : Nat) : FullExcept 1 (P / 512) (T.setSmall P x) := by
  intro l K v hl hd hne
  obtain ⟨i, hi, hentry⟩ := hf hl hd
  refine ⟨i, hi, ?_⟩
  rwa [setSmall_entry]
  rintro ⟨rfl, hk⟩
  exact hne ⟨rfl, by omega⟩

theorem Full.setHuge (hf : Full T) (x : Nat) : FullExcept 2 (Q / 512) (T.setHuge Q x) := by
  intro l K v hl hd hne
  obtain ⟨i, hi, hentry⟩ := hf hl hd
  refine ⟨i, hi, ?_⟩
  rwa [setHuge_entry]
  rintro ⟨rfl, hk⟩
  exact hne ⟨rfl, by omega⟩

/-- Nothing to do for a page that is not mapped. -/
theorem Holds.rfl_small (h : Inv A root s T) (hf : Full T) (hzero : T.small P = 0) :
    Holds A root T s (Function.update T.small P 0) T.huge s := by
  refine ⟨T, h, hf, Frame.refl T s, ?_, rfl⟩
  rw [← hzero, Function.update_eq_self]

theorem Holds.rfl_huge (h : Inv A root s T) (hf : Full T) (hzero : T.huge Q = 0) :
    Holds A root T s T.small (Function.update T.huge Q 0) s := by
  refine ⟨T, h, hf, Frame.refl T s, rfl, ?_⟩
  rw [← hzero, Function.update_eq_self]

/-- The page is mapped as part of a 2MB page, or to another frame. -/
def WrongSmall (T : Tables) (P paddr : Nat) : Prop :=
  T.huge (P / 512) ≠ 0 ∨ T.small P ≠ 0 ∧ T.small P &&& pteAddrMask ≠ paddr

/-- The 2MB page has 4KB pages mapped in it, or is mapped to another frame. -/
def WrongHuge (T : Tables) (Q paddr : Nat) : Prop :=
  (∃ P, P / 512 = Q ∧ T.small P ≠ 0) ∨ T.huge Q ≠ 0 ∧ T.huge Q &&& pteAddrMask ≠ paddr

/-- Without a table on the way there is no leaf. -/
theorem Shape.small_of_none (h : Shape root T) (hl : 1 ≤ l) (hl3 : l ≤ 3)
    (hnone : T.dir l (P / 512 ^ l) = none) : T.small P = 0 := by
  by_contra hne
  obtain ⟨t, ht⟩ := h.small_table hne
  obtain ⟨u, hu⟩ := h.above (P := P) (l := 1) (by omega) (by rwa [Nat.pow_one])
  obtain ⟨w, hw⟩ := h.above (by omega) hu
  obtain rfl | rfl | rfl : l = 1 ∨ l = 2 ∨ l = 3 := by omega
  · rw [Nat.pow_one, ht] at hnone
    exact absurd hnone (by simp)
  · exact absurd (hnone.symm.trans hu) (by simp)
  · exact absurd (hnone.symm.trans hw) (by simp)

theorem Shape.huge_of_none (h : Shape root T) (hl : 2 ≤ l) (hl3 : l ≤ 3)
    (hnone : T.dir l (P / 512 ^ l) = none) : T.huge (P / 512) = 0 := by
  by_contra hne
  obtain ⟨u, hu⟩ := h.huge_table hne
  rw [show P / 512 / 512 = P / 512 ^ 2 by omega] at hu
  obtain ⟨w, hw⟩ := h.above (by omega) hu
  obtain rfl | rfl : l = 2 ∨ l = 3 := by omega
  · exact absurd (hnone.symm.trans hu) (by simp)
  · exact absurd (hnone.symm.trans hw) (by simp)

/-- One level of the walk: stop at a missing table, go on with the entry of one that is there. -/
theorem descend_yields {rest : Nat → MikroKernel.K Unit} {Q : Unit → KState → Prop}
    (h : Inv A root s T) (hl : 2 ≤ l) (hu : T.dir (l + 1) (k / 512) = some u)
    (hnone : T.dir l k = none → Q () s)
    (hsome : ∀ t, T.dir l k = some t → Yields L (rest (tablePte t)) s B Q) :
    Yields L (do
        if (← p2vLoad (entryAddr u (k % 512)) .pte) &&& ptePresent = 0 then pure ()
        else do
          let x ← p2vLoad (entryAddr u (k % 512)) .pte
          rest x) s B Q := by
  refine Yields.bind_edits (h.load hu) ?_
  cases hd : T.dir l k with
  | none =>
    rw [Tables.entry_none hl hd]
    exact Yields.ite_pos (Nat.zero_and _) (Yields.pure (hnone hd))
  | some t =>
    rw [Tables.entry_table (by omega) hd]
    refine Yields.ite_neg (tablePte_present (h.shape.aligned hd)) ?_
    exact Yields.bind_edits (h.follow hu hd) (hsome t hd)

/-- The root leads to every PDPT. -/
theorem Inv.root_above (h : Inv A root s T) (hP : P < 2 ^ 36) :
    T.dir (3 + 1) (P / 512 ^ 3 / 512) = some root ∧ P / 512 ^ 3 = P / 512 ^ 3 % 512 := by
  refine ⟨?_, by omega⟩
  rw [show P / 512 ^ 3 / 512 = 0 by omega]
  exact h.root_dir

/-- **A 4KB page is unmapped.** -/
theorem unmapSmallWith_yields {paddr v : Nat} (huge wrong : String) (h : Inv A root s T)
    (hfull : Full T) :
    Yields L (unmapSmallWith huge wrong A.checkedKfree root paddr v) s
      (OrClash fun _ => WrongSmall T (pageNo v) paddr)
      (fun _ s' => Holds A root T s (Function.update T.small (pageNo v) 0) T.huge s') := by
  have hP := pageNo_lt v
  obtain ⟨P, hdef⟩ : ∃ P, P = pageNo v := ⟨_, rfl⟩
  unfold unmapSmallWith
  rw [virtToPml4Idx_eq, virtToPdptIdx_eq, virtToPdIdx_eq, virtToPtIdx_eq, ← hdef]
  rw [← hdef] at hP
  obtain ⟨hroot, hidx⟩ := h.root_above hP
  rw [hidx]
  refine descend_yields h (by omega) hroot (fun hnone => ?_) (fun pdpt hpdpt => ?_)
  · exact Holds.rfl_small h hfull (h.shape.small_of_none (by omega) (Nat.le_refl 3) hnone)
  have hpdpt' : T.dir (2 + 1) (P / 512 ^ 2 / 512) = some pdpt := by rwa [key_div]
  rw [h.addr hpdpt]
  refine descend_yields h (Nat.le_refl 2) hpdpt' (fun hnone => ?_) (fun pd hpd => ?_)
  · exact Holds.rfl_small h hfull (h.shape.small_of_none (by omega) (by omega) hnone)
  have hpd' : T.dir (1 + 1) (P / 512 ^ 1 / 512) = some pd := by rwa [key_div]
  rw [h.addr hpd]
  -- the entry of the PD: nothing, a 2MB page, or a PT
  refine Yields.bind_edits (h.load hpd') ?_
  cases hd1 : T.dir 1 (P / 512 ^ 1) with
  | none =>
    rw [Tables.entry_leaf hd1]
    by_cases hzero : T.huge (P / 512 ^ 1) = 0
    · rw [hzero]
      refine Yields.ite_pos (Nat.zero_and _) (Yields.pure ?_)
      exact Holds.rfl_small h hfull (h.shape.small_of_none (Nat.le_refl 1) (by omega) hd1)
    · obtain ⟨hpres, hmark⟩ := h.shape.huge_present hzero
      refine Yields.ite_neg hpres (Yields.bind_edits (h.load hpd') ?_)
      rw [Tables.entry_leaf hd1]
      refine Yields.ite_pos hmark (Yields.panic_bind (Or.inr (Or.inl ?_)))
      rwa [Nat.pow_one] at hzero
  | some pt =>
    have hpt' : T.dir 1 (P / 512) = some pt := by rwa [Nat.pow_one] at hd1
    have hal := h.shape.aligned hd1
    rw [Tables.entry_table (Nat.le_refl 1) hd1]
    refine Yields.ite_neg (tablePte_present hal) (Yields.bind_edits (h.follow hpd' hd1) ?_)
    refine Yields.ite_neg (not_not.mpr (tablePte_not_huge hal)) ?_
    refine Yields.bind_edits (h.follow hpd' hd1) ?_
    rw [h.addr hd1]
    refine Yields.bind_edits (h.load hpt') ?_
    have hentry : T.entry 1 P = T.small P := rfl
    rw [hentry]
    by_cases hzero : T.small P = 0
    · rw [hzero]
      refine Yields.ite_pos (Nat.zero_and _) (Yields.pure ?_)
      exact Holds.rfl_small h hfull hzero
    · refine Yields.ite_neg (h.shape.small_present hzero) (Yields.bind_edits (h.load hpt') ?_)
      rw [hentry]
      by_cases hwrong : T.small P &&& pteAddrMask ≠ paddr
      · exact Yields.ite_pos hwrong (Yields.panic_bind (Or.inr (Or.inr ⟨hzero, hwrong⟩)))
      · refine Yields.ite_neg hwrong ?_
        -- the leaf goes, and with it the tables it was the last of
        obtain ⟨hinv, hframe⟩ := h.writeSmall (x := 0) hpt' (fun hx => absurd rfl hx)
        refine Yields.bind_edits
          (Edits.p2vStore h.view (h.stored hpt' (Nat.mod_lt _ (by omega)))) ?_
        have hprune := prunePt_yields (B := fun _ => WrongSmall T P paddr) hinv hpt'
          (show T.dir 2 (P / 512 / 512) = some pd by rwa [← key_div, Nat.pow_one] at hpd)
          (show T.dir 3 (P / 512 / 512 / 512) = some pdpt by
            rwa [← key_div, ← key_div, Nat.pow_one] at hpdpt) (hfull.setSmall 0) (by omega)
        rw [show P / 512 / 512 / 512 = P / 512 ^ 3 % 512 by omega,
          show P / 512 / 512 % 512 = P / 512 ^ 2 % 512 by omega,
          show P / 512 % 512 = P / 512 ^ 1 % 512 by omega] at hprune
        exact hprune.mono (fun _ hm => hm) (fun _ _ hq => hq.since hframe)

/-- **A 2MB page is unmapped.** -/
theorem unmapHugeWith_yields {paddr v : Nat} (notHuge wrong : String) (h : Inv A root s T)
    (hfull : Full T) :
    Yields L (unmapHugeWith notHuge wrong A.checkedKfree root paddr v) s
      (OrClash fun _ => WrongHuge T (pageNo v / 512) paddr)
      (fun _ s' => Holds A root T s T.small (Function.update T.huge (pageNo v / 512) 0) s') := by
  have hP := pageNo_lt v
  obtain ⟨P, hdef⟩ : ∃ P, P = pageNo v := ⟨_, rfl⟩
  unfold unmapHugeWith
  rw [virtToPml4Idx_eq, virtToPdptIdx_eq, virtToPdIdx_eq, ← hdef]
  rw [← hdef] at hP
  obtain ⟨hroot, hidx⟩ := h.root_above hP
  rw [hidx]
  refine descend_yields h (by omega) hroot (fun hnone => ?_) (fun pdpt hpdpt => ?_)
  · exact Holds.rfl_huge h hfull (h.shape.huge_of_none (by omega) (Nat.le_refl 3) hnone)
  have hpdpt' : T.dir (2 + 1) (P / 512 ^ 2 / 512) = some pdpt := by rwa [key_div]
  rw [h.addr hpdpt]
  refine descend_yields h (Nat.le_refl 2) hpdpt' (fun hnone => ?_) (fun pd hpd => ?_)
  · exact Holds.rfl_huge h hfull (h.shape.huge_of_none (Nat.le_refl 2) (by omega) hnone)
  have hpd' : T.dir (1 + 1) (P / 512 ^ 1 / 512) = some pd := by rwa [key_div]
  rw [h.addr hpd]
  refine Yields.bind_edits (h.load hpd') ?_
  rw [Nat.pow_one] at hpd' ⊢
  cases hd1 : T.dir 1 (P / 512) with
  | some pt =>
    -- a PT, which has a page
    have hal := h.shape.aligned hd1
    rw [Tables.entry_table (Nat.le_refl 1) hd1]
    refine Yields.ite_neg (tablePte_present hal) (Yields.bind_edits (h.follow hpd' hd1) ?_)
    refine Yields.ite_pos (tablePte_not_huge hal) (Yields.panic_bind (Or.inr (Or.inl ?_)))
    obtain ⟨i, hi, hne⟩ := hfull (by omega) hd1
    exact ⟨_, by omega, hne⟩
  | none =>
    rw [Tables.entry_leaf hd1]
    by_cases hzero : T.huge (P / 512) = 0
    · rw [hzero]
      exact Yields.ite_pos (Nat.zero_and _) (Yields.pure (Holds.rfl_huge h hfull hzero))
    · obtain ⟨hpres, hmark⟩ := h.shape.huge_present hzero
      refine Yields.ite_neg hpres (Yields.bind_edits (h.load hpd') ?_)
      rw [Tables.entry_leaf hd1]
      refine Yields.ite_neg hmark (Yields.bind_edits (h.load hpd') ?_)
      rw [Tables.entry_leaf hd1]
      by_cases hwrong : T.huge (P / 512) &&& pteAddrMask ≠ paddr
      · exact Yields.ite_pos hwrong (Yields.panic_bind (Or.inr (Or.inr ⟨hzero, hwrong⟩)))
      · refine Yields.ite_neg hwrong ?_
        obtain ⟨hinv, hframe⟩ := h.writeHuge (x := 0) hpd' hd1 (fun hx => absurd rfl hx)
        refine Yields.bind_edits
          (Edits.p2vStore h.view (h.stored hpd' (Nat.mod_lt _ (by omega)))) ?_
        have hprune := prunePd_yields (B := fun _ => WrongHuge T (P / 512) paddr) hinv hpd'
          (show T.dir 3 (P / 512 / 512 / 512) = some pdpt by
            rwa [← key_div, ← key_div, Nat.pow_one] at hpdpt) (hfull.setHuge 0) (by omega)
        rw [show P / 512 / 512 / 512 = P / 512 ^ 3 % 512 by omega,
          show P / 512 / 512 % 512 = P / 512 ^ 2 % 512 by omega] at hprune
        exact hprune.mono (fun _ hm => hm) (fun _ _ hq => hq.since hframe)

/-! ## The loops -/

/-- The leaves `f` without those of rounds `i` to `i + left`. -/
def wipe (key : Nat → Nat) : Nat → Nat → (Nat → Nat) → Nat → Nat
  | 0, _, f => f
  | left + 1, i, f => wipe key left (i + 1) (Function.update f (key i) 0)

theorem wipe_of_hit {key : Nat → Nat} {j : Nat} (left : Nat) :
    ∀ {i : Nat} {f : Nat → Nat}, i ≤ j → j < i + left → wipe key left i f (key j) = 0 := by
  have hzero : ∀ (left : Nat) {i k : Nat} {f : Nat → Nat}, f k = 0 → wipe key left i f k = 0 := by
    intro left
    induction left with
    | zero => exact fun hf => hf
    | succ left ih =>
      intro i k f hf
      refine ih ?_
      by_cases hk : k = key i
      · rw [hk, Function.update_self]
      · rwa [Function.update_of_ne hk]
  induction left with
  | zero => exact fun h1 h2 => by omega
  | succ left ih =>
    intro i f h1 h2
    rcases Nat.eq_or_lt_of_le h1 with rfl | hlt
    · exact hzero left (Function.update_self _ _ _)
    · exact ih hlt (by omega)

theorem wipe_of_miss {key : Nat → Nat} {k : Nat} (left : Nat) :
    ∀ {i : Nat} {f : Nat → Nat}, (∀ j, i ≤ j → j < i + left → k ≠ key j) →
      wipe key left i f k = f k := by
  induction left with
  | zero => exact fun _ => rfl
  | succ left ih =>
    intro i f hmiss
    show wipe key left (i + 1) (Function.update f (key i) 0) k = f k
    rw [ih (fun j h1 h2 => hmiss j (by omega) (by omega)),
      Function.update_of_ne (hmiss i (Nat.le_refl _) (by omega))]

/-- The number of the 4KB page of round `j`. -/
def smallKey (v j : Nat) : Nat := pageNo ((v + j * pageSize) % 2 ^ 64)

/-- The number of the 2MB page of round `j`. -/
def hugeKey (v j : Nat) : Nat := pageNo ((v + j * hugePageSize) % 2 ^ 64) / 512

/-- What is wrong after a round was wrong before it. -/
theorem wrong_of_update {f : Nat → Nat} {k x : Nat} {c : Prop}
    (h : c ∨ Function.update f i 0 k ≠ 0 ∧ Function.update f i 0 k &&& pteAddrMask ≠ x) :
    c ∨ f k ≠ 0 ∧ f k &&& pteAddrMask ≠ x := by
  by_cases hk : k = i
  · subst hk
    exact Or.inl (h.resolve_right (fun hc => hc.1 (Function.update_self _ _ _)))
  · rwa [Function.update_of_ne hk] at h

/-- **The 4KB loop** returns with its pages unmapped, all others as they were and no empty table,
unless one of its pages is not what it was said to be. -/
theorem unmapSmallLoop_yields {p v : Nat} (left : Nat) :
    ∀ {s : KState} {T : Tables} {i : Nat}, Inv A root s T → Full T →
      Yields L (unmapLoop (unmapSmallAt A.checkedKfree root) pageSize p v left i) s
        (OrClash fun _ => ∃ j, i ≤ j ∧ j < i + left ∧
          WrongSmall T (smallKey v j) ((p + j * pageSize) % 2 ^ 64))
        (fun _ s' => Holds A root T s (wipe (smallKey v) left i T.small) T.huge s') := by
  induction left with
  | zero => exact fun h hfull => Yields.pure ⟨_, h, hfull, Frame.refl _ _, rfl, rfl⟩
  | succ left ih =>
    intro s T i h hfull
    unfold unmapLoop
    refine ((unmapSmallWith_yields _ _ h hfull).mono
      (fun _ hm => hm.imp_right fun hw => ⟨i, Nat.le_refl _, by omega, hw⟩) (fun _ _ hq => hq)).bind
        (fun _ s₁ => ?_)
    rintro ⟨T₁, h₁, hfull₁, hframe, hsmall, hhuge⟩
    refine (ih h₁ hfull₁).mono (fun _ hm => ?_) (fun _ s' hq => ?_)
    · refine hm.imp_right ?_
      rintro ⟨j, h1, h2, hw⟩
      unfold WrongSmall at hw
      rw [hsmall, hhuge] at hw
      exact ⟨j, by omega, by omega, wrong_of_update hw⟩
    · have hq' := hq.since hframe
      rw [hsmall, hhuge] at hq'
      exact hq'

/-- **The 2MB loop.** -/
theorem unmapHugeLoop_yields {p v : Nat} (left : Nat) :
    ∀ {s : KState} {T : Tables} {i : Nat}, Inv A root s T → Full T →
      Yields L (unmapLoop (unmapHugeAt A.checkedKfree root) hugePageSize p v left i) s
        (OrClash fun _ => ∃ j, i ≤ j ∧ j < i + left ∧
          WrongHuge T (hugeKey v j) ((p + j * hugePageSize) % 2 ^ 64))
        (fun _ s' => Holds A root T s T.small (wipe (hugeKey v) left i T.huge) s') := by
  induction left with
  | zero => exact fun h hfull => Yields.pure ⟨_, h, hfull, Frame.refl _ _, rfl, rfl⟩
  | succ left ih =>
    intro s T i h hfull
    unfold unmapLoop
    refine ((unmapHugeWith_yields _ _ h hfull).mono
      (fun _ hm => hm.imp_right fun hw => ⟨i, Nat.le_refl _, by omega, hw⟩) (fun _ _ hq => hq)).bind
        (fun _ s₁ => ?_)
    rintro ⟨T₁, h₁, hfull₁, hframe, hsmall, hhuge⟩
    refine (ih h₁ hfull₁).mono (fun _ hm => ?_) (fun _ s' hq => ?_)
    · refine hm.imp_right ?_
      rintro ⟨j, h1, h2, hw⟩
      unfold WrongHuge at hw
      rw [hsmall, hhuge] at hw
      exact ⟨j, by omega, by omega, wrong_of_update hw⟩
    · have hq' := hq.since hframe
      rw [hsmall, hhuge] at hq'
      exact hq'

/-! ## The calls -/

/-- **`unmap_pages` without `PTE_HUGE_PAGE`.** -/
theorem unmapPages_small {flags p v n : Nat} (h : Inv A root s T) (hfull : Full T)
    (hmark : flags &&& pteHugePage = 0) :
    Yields L (unmapPages A.checkedKfree root p v flags n) s
      (OrClash fun _ => ∃ j, j < n ∧
        WrongSmall T (smallKey v j) ((alignDown p pageSize + j * pageSize) % 2 ^ 64))
      (fun _ s' => Holds A root T s (wipe (smallKey v) n 0 T.small) T.huge s') := by
  unfold unmapPages
  by_cases hn : n = 0
  · subst hn
    exact Yields.ite_pos rfl (Yields.pure ⟨T, h, hfull, Frame.refl T s, rfl, rfl⟩)
  · refine Yields.ite_neg hn (Yields.ite_neg (not_not.mpr hmark) ?_)
    refine (unmapSmallLoop_yields n h hfull).mono (fun _ hm => ?_) (fun _ _ hq => hq)
    refine hm.imp_right ?_
    rintro ⟨j, -, hlt, hw⟩
    exact ⟨j, by omega, hw⟩

/-- **`unmap_pages` with `PTE_HUGE_PAGE`.** -/
theorem unmapPages_huge {flags p v n : Nat} (h : Inv A root s T) (hfull : Full T)
    (hmark : flags &&& pteHugePage ≠ 0) :
    Yields L (unmapPages A.checkedKfree root p v flags n) s
      (OrClash fun _ => ∃ j, j < n ∧
        WrongHuge T (hugeKey v j) ((alignDown p hugePageSize + j * hugePageSize) % 2 ^ 64))
      (fun _ s' => Holds A root T s T.small (wipe (hugeKey v) n 0 T.huge) s') := by
  unfold unmapPages
  by_cases hn : n = 0
  · subst hn
    exact Yields.ite_pos rfl (Yields.pure ⟨T, h, hfull, Frame.refl T s, rfl, rfl⟩)
  · refine Yields.ite_neg hn (Yields.ite_pos hmark ?_)
    refine (unmapHugeLoop_yields n h hfull).mono (fun _ hm => ?_) (fun _ _ hq => hq)
    refine hm.imp_right ?_
    rintro ⟨j, -, hlt, hw⟩
    exact ⟨j, by omega, hw⟩

end Mmu
end MikroKernel
