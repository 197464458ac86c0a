import MikroKernel.Proof.Mmu.Tables

/-!
# `map_pages`

A page is mapped by making the tables on its way from the root that are missing, and writing its
leaf. The code finds the tables through its cursor; `Cursor.At` is what keeps the cursor right from
one page to the next. Between the making of a table and the writing of the leaf there are empty
tables, all on the way to the page (`FullBut`); afterwards there are none (`Full`).

A call returns unless the page allocator has nothing left: where it panics, an allocation before the
panic had returned `NULL`.
-/

set_option autoImplicit false

namespace MikroKernel
namespace Mmu

variable {L : Layout} {A : PhysAlloc L} {s : KState} {root : Nat} {T T' : Tables}
  {l k K t u i : Nat}

/-! ## Making a table -/

def allocFailures : List String :=
  ["Failed to allocate 4KiB page for PDPT", "Failed to allocate 4KiB page for PD",
    "Failed to allocate 4KiB page for PT"]

/-! With the assertion that the allocator has memory left, the code is the same but for the
alarm. -/

section

variable {alarm : Stop} {x y : Nat → MikroKernel.K Nat} [hxy : ∀ n, Guards alarm (x n) (y n)]

instance (msg : String) (entry : Nat) :
    Guards alarm (wireTable x msg entry) (wireTable y msg entry) := by
  unfold wireTable
  dsimp only
  infer_instance

instance (pml4t idx : Nat) (c : Cursor) :
    Guards alarm (enterPml4t x pml4t idx c) (enterPml4t y pml4t idx c) := by
  unfold enterPml4t
  infer_instance

instance (idx : Nat) (c : Cursor) : Guards alarm (enterPdpt x idx c) (enterPdpt y idx c) := by
  unfold enterPdpt
  infer_instance

instance (idx : Nat) (c : Cursor) : Guards alarm (enterPd x idx c) (enterPd y idx c) := by
  unfold enterPd
  infer_instance

instance (pml4t flags left v p : Nat) (c : Cursor) :
    Guards alarm (mapSmallLoop x pml4t flags left v p c)
        (mapSmallLoop y pml4t flags left v p c) := by
  induction left generalizing v p c with
  | zero => exact Guards.refl _
  | succ left ih =>
    unfold mapSmallLoop
    infer_instance

instance (pml4t flags left v p : Nat) (c : Cursor) :
    Guards alarm (mapHugeLoop x pml4t flags left v p c) (mapHugeLoop y pml4t flags left v p c) := by
  induction left generalizing v p c with
  | zero => exact Guards.refl _
  | succ left ih =>
    unfold mapHugeLoop
    infer_instance

instance (pml4t p v flags n : Nat) :
    Guards alarm (mapPages x pml4t p v flags n) (mapPages y pml4t p v flags n) := by
  unfold mapPages
  infer_instance

end

/-- `T'` has a table at `(l, k)`, and is `T` otherwise. -/
structure Wired (T T' : Tables) (l k t : Nat) : Prop where
  dir : T'.dir l k = some t
  small : T'.small = T.small
  huge : T'.huge = T.huge
  keep : ∀ {l' K' v}, T.dir l' K' = some v → T'.dir l' K' = some v
  only : ∀ {l' K'}, ¬ (l' = l ∧ K' = k) → T'.dir l' K' = T.dir l' K'

/-- A call of the page allocator does not touch the tables. -/
theorem Inv.allocated {s₁ : KState} (h : Inv A root s T) (hok : A.Ok s₁)
    (hf : AllocFrame A.managed s.blocks s s₁) (hsub : ∀ b ∈ s.blocks, b ∈ s₁.blocks) :
    Inv A root s₁ T := by
  refine ⟨h.shape, ?_, fun ht => hsub _ (h.block ht), hok, hf.offset ▸ h.view⟩
  intro l K t ht i hi
  rw [← h.entries ht i hi]
  by_contra hne
  exact (hf.mem _ _ hne).2 ⟨_, h.block ht, (entryAddr_inside t hi).1, (entryAddr_inside t hi).2⟩

/-- The memory with the frame `t` zeroed and `entry` leading to it. -/
def wiredMem (m : Mem) (t entry : Nat) : Mem :=
  (m.zero t pageSize).set entry .pte (tablePte t)

theorem wiredMem_ne {m : Mem} {entry a : Nat} {f : Field} (h1 : ¬ (t ≤ a ∧ a < t + pageSize))
    (h2 : a ≠ entry) :
    wiredMem m t entry a f = m a f := by
  unfold wiredMem
  rw [Mem.set_ne (Or.inl h2), Mem.zero_of_not_mem (by omega)]

/-- One block more is a table's. -/
theorem owns_setDir (hnone : T.dir l k = none) (b : Block) :
    Owns (T.setDir l k (some t)) b ↔ b = ⟨t, pageSize⟩ ∨ Owns T b := by
  constructor
  · rintro ⟨l', K', hd, hlen⟩
    rcases Tables.setDir_eq_some hd with ⟨-, -, e⟩ | ⟨-, hold⟩
    · rw [Option.some.injEq] at e
      exact Or.inl (by rw [e, ← hlen])
    · exact Or.inr ⟨l', K', hold, hlen⟩
  · rintro (rfl | ⟨l', K', hd, hlen⟩)
    · exact ⟨l, k, Tables.setDir_self _, rfl⟩
    · refine ⟨l', K', ?_, hlen⟩
      rw [Tables.setDir_ne, hd]
      rintro ⟨rfl, rfl⟩
      rw [hnone] at hd
      exact absurd hd (by simp)

/-- In memory the new table is empty, its entry leads to it, and the other tables are as before. -/
theorem Inv.wired_entries {m : Mem} (h : Inv A root s T) (hl : 1 ≤ l) (hl3 : l ≤ 3)
    (hnone : T.dir l k = none) (hu : T.dir (l + 1) (k / 512) = some u)
    (hm : ∀ {l' K' t'}, T.dir l' K' = some t' → ∀ j, j < 512 →
      m (entryAddr t' j) .pte = T.entry l' (K' * 512 + j))
    (hout : ∀ {l' K' t' j}, T.dir l' K' = some t' → j < 512 →
      ¬ (t ≤ entryAddr t' j ∧ entryAddr t' j < t + pageSize))
    {l' K' t' : Nat} (ht' : (T.setDir l k (some t)).dir l' K' = some t') {j : Nat} (hj : j < 512) :
    wiredMem m t (entryAddr u (k % 512)) (entryAddr t' j) .pte
        = (T.setDir l k (some t)).entry l' (K' * 512 + j) := by
  have hk := Nat.mod_lt k (show 0 < 512 by omega)
  rcases Tables.setDir_eq_some ht' with ⟨rfl, rfl, e⟩ | ⟨-, hold⟩
  · -- the new table
    rw [Option.some.injEq] at e
    subst e
    have hin := entryAddr_inside t hj
    have hne : entryAddr t j ≠ entryAddr u (K' % 512) := fun he => hout hu hk (he ▸ hin)
    unfold wiredMem
    rw [Mem.set_ne (Or.inl hne), Mem.zero_of_mem hin.1 hin.2, Tables.setDir_entry (by omega) hl]
    refine (h.shape.entry_of_missing hl hl3 ?_).symm
    rwa [show (K' * 512 + j) / 512 = K' by omega]
  · by_cases heq : entryAddr t' j = entryAddr u (k % 512)
    · obtain ⟨rfl, rfl, rfl⟩ := h.shape.entryAddr_inj hold hu hj hk heq
      unfold wiredMem
      rw [heq, Mem.set_self, Nat.mul_comm, Nat.div_add_mod,
        Tables.entry_table hl (Tables.setDir_self _)]
    · rw [wiredMem_ne (hout hold hj) heq, hm hold j hj,
        Tables.setDir_entry _ (h.shape.level hold).1]
      rintro ⟨rfl, hkey⟩
      exact Tables.entry_ne hu hold hk hj heq ⟨rfl, by omega⟩

/-- **A fresh frame becomes a table**: it is zeroed and the entry that leads there written. -/
theorem Inv.wire {s₁ : KState} (h : Inv A root s T) (hl : 1 ≤ l) (hl3 : l ≤ 3)
    (hnone : T.dir l k = none) (hu : T.dir (l + 1) (k / 512) = some u)
    (hleaf : l = 1 → T.huge k = 0) (hok : A.Ok s₁) (hf : AllocFrame A.managed s.blocks s s₁)
    (hdvd : pageSize ∣ t) (hblocks : s₁.blocks = ⟨t, pageSize⟩ :: s.blocks) :
    Inv A root { s₁ with mem := wiredMem s₁.mem t (entryAddr u (k % 512)) }
        (T.setDir l k (some t)) ∧
      Frame A T (T.setDir l k (some t)) s
        { s₁ with mem := wiredMem s₁.mem t (entryAddr u (k % 512)) } := by
  have h₁ := h.allocated hok hf (fun b hb => by rw [hblocks]; exact List.mem_cons_of_mem _ hb)
  have hmem : (⟨t, pageSize⟩ : Block) ∈ s₁.blocks := by
    rw [hblocks]
    exact List.mem_cons_self
  have hapart : ∀ b ∈ s.blocks, Block.Apart ⟨t, pageSize⟩ b := by
    have := A.ok_apart hok
    rw [hblocks] at this
    exact (List.pairwise_cons.mp this).1
  -- no cell of an old table is in the new frame
  have hout : ∀ {l' K' t' j}, T.dir l' K' = some t' → j < 512 →
      ¬ (t ≤ entryAddr t' j ∧ entryAddr t' j < t + pageSize) := by
    intro l' K' t' j ht' hj
    have hap := hapart _ (h.block ht')
    have hin := entryAddr_inside t' hj
    simp only [Block.Apart] at hap
    omega
  have hnew : ∀ l' K', T.dir l' K' ≠ some t := fun l' K' ht' =>
    hout ht' (show 0 < 512 by omega) (entryAddr_inside t (by omega))
  have hcell := entryAddr_inside u (Nat.mod_lt k (show 0 < 512 by omega))
  refine ⟨⟨h.shape.wire hl hl3 hnone hu hleaf hdvd hnew, ?_, ?_, ?_, h₁.view⟩, hf.offset, hf.free,
    hf.lock, ?_, ?_⟩
  · exact fun ht' j hj => h.wired_entries hl hl3 hnone hu h₁.entries hout ht' hj
  · intro l' K' t' ht'
    rcases Tables.setDir_eq_some ht' with ⟨-, -, e⟩ | ⟨-, hold⟩
    · rw [Option.some.injEq] at e
      exact e ▸ hmem
    · exact h₁.block hold
  · refine A.ok_frame hok h₁.view (fun _ hfree => hfree) rfl (fun a f hne _ => ?_)
    by_cases ha : t ≤ a ∧ a < t + pageSize
    · exact ⟨_, hmem, ha.1, ha.2⟩
    · by_cases hentry : a = entryAddr u (k % 512)
      · rw [hentry]
        exact ⟨_, h₁.block hu, hcell.1, hcell.2⟩
      · exact absurd (wiredMem_ne ha hentry) hne
  · intro b
    show b ∈ s₁.blocks ∧ _ ↔ _
    rw [hblocks, List.mem_cons, owns_setDir hnone]
    constructor
    · rintro ⟨rfl | hb, ho⟩
      · exact absurd (Or.inl rfl) ho
      · exact ⟨hb, fun h' => ho (Or.inr h')⟩
    · rintro ⟨hb, ho⟩
      refine ⟨Or.inr hb, ?_⟩
      rintro (rfl | h')
      · have hap := hapart _ hb
        simp only [Block.Apart] at hap
        unfold pageSize at hap
        omega
      · exact ho h'
  · intro a f hne
    by_cases ha : t ≤ a ∧ a < t + pageSize
    · refine ⟨((A.ok_blocks hok _ hmem).2 a ha.1 ha.2).2, fun b hb _ hin => ?_⟩
      have hap := hapart b hb
      simp only [Block.Apart] at hap
      omega
    · by_cases hentry : a = entryAddr u (k % 512)
      · rw [hentry]
        exact h.cell_apart hu hcell.1 hcell.2
      · obtain ⟨h1, h2⟩ := hf.mem a f (fun he => hne ((wiredMem_ne ha hentry).trans he))
        exact ⟨h1, fun b hb _ hin => h2 ⟨b, hb, hin⟩⟩

/-- **`wireTable`** leads to the table of entry `k`, made if it was missing. -/
theorem wireTable_yields (msg : String) (hmsg : msg ∈ allocFailures) (h : Inv A root s T)
    (hl : 1 ≤ l) (hl3 : l ≤ 3) (hu : T.dir (l + 1) (k / 512) = some u)
    (hleaf : l = 1 → T.huge k = 0) :
    Tied L nullAlarm (· ∈ allocFailures) (wireTable (orHalt A.kmalloc) msg (entryAddr u (k % 512)))
        (wireTable A.kmalloc msg (entryAddr u (k % 512))) s (fun t s' =>
      ∃ T', Inv A root s' T' ∧ Frame A T T' s s' ∧ Wired T T' l k t) := by
  have hstored := h.stored hu (Nat.mod_lt k (show 0 < 512 by omega))
  unfold wireTable
  refine Tied.bind_edits (h.load hu) ?_
  cases hd : T.dir l k with
  | some t =>
    rw [Tables.entry_table hl hd]
    refine Tied.ite_neg (tablePte_present (h.shape.aligned hd)) ?_
    refine Tied.bind_edits (h.follow hu hd) (Tied.pure ?_)
    rw [h.addr hd]
    exact ⟨T, h, Frame.refl T s, hd, rfl, rfl, fun hv => hv, fun _ => rfl⟩
  | none =>
    have hzero : T.entry (l + 1) k = 0 := by
      rcases Nat.eq_or_lt_of_le hl with rfl | hlt
      · rw [Tables.entry_leaf hd, hleaf rfl]
      · exact Tables.entry_none hlt hd
    rw [hzero]
    refine Tied.ite_pos (Nat.zero_and _) ?_
    obtain ⟨t, s₁, hrun, hok, hf, hcase⟩ := A.kmalloc_spec h.ok (show 0 ≤ 10 by omega)
    rw [show pageSize * 2 ^ 0 = 4096 from rfl] at hrun hcase
    rcases hcase with ⟨rfl, -⟩ | ⟨ht0, hdvd, hblocks⟩
    · refine Or.inr ⟨msg, ?_, hmsg, ?_⟩
      · rw [K.bind_ok hrun]
        rfl
      · rw [K.bind_apply, orHalt_null hrun]
    · obtain ⟨hinv, hframe⟩ := h.wire hl hl3 hd hu hleaf hok hf hdvd hblocks
      have hview : View s₁.physMapOffset := hf.offset ▸ h.view
      have hphys : L.phys t = true := (A.ok_blocks hok ⟨t, 4096⟩ (by rw [hblocks]; simp)).2 t
        (Nat.le_refl _) (by show t < t + 4096; omega) |>.1
      have hu' : (T.setDir l k (some t)).dir (l + 1) (k / 512) = some u := by
        rw [Tables.setDir_ne (by omega), hu]
      refine Tied.bind (Tied.ret hrun (Q := fun a s' => a = t ∧ s' = s₁) ⟨rfl, rfl⟩) ?_
      rintro _ _ ⟨rfl, rfl⟩
      refine Tied.ite_neg ht0 ?_
      -- the frame is zeroed, then the entry written
      refine Tied.bind_edits (Edits.directmapP2v _) ?_
      refine Tied.bind_edits (Edits.memsetZero_p2v hview (Or.inl hphys)) ?_
      refine Tied.bind_edits (Edits.p2vStore hview hstored) ?_
      refine Tied.bind_edits (hinv.follow hu' (Tables.setDir_self _)) (Tied.pure ?_)
      rw [hinv.addr (Tables.setDir_self _)]
      refine ⟨_, hinv, hframe, Tables.setDir_self _, rfl, rfl, fun hv => ?_, fun hne => ?_⟩
      · rw [Tables.setDir_ne, hv]
        rintro ⟨rfl, rfl⟩
        rw [hd] at hv
        exact absurd hv (by simp)
      · exact Tables.setDir_ne hne

/-! ## The way to a page -/

/-- The page number of an address, as the four indices spell it. -/
def pageNo (v : Nat) : Nat := v / 2 ^ 12 % 2 ^ 36

theorem pageNo_lt (v : Nat) : pageNo v < 2 ^ 36 := Nat.mod_lt _ (by omega)

theorem virtToPml4Idx_eq (v : Nat) : virtToPml4Idx v = pageNo v / 512 ^ 3 := by
  unfold virtToPml4Idx pageNo
  omega

theorem virtToPdptIdx_eq (v : Nat) : virtToPdptIdx v = pageNo v / 512 ^ 2 % 512 := by
  unfold virtToPdptIdx pageNo
  omega

theorem virtToPdIdx_eq (v : Nat) : virtToPdIdx v = pageNo v / 512 ^ 1 % 512 := by
  unfold virtToPdIdx pageNo
  omega

theorem virtToPtIdx_eq (v : Nat) : virtToPtIdx v = pageNo v % 512 := by
  unfold virtToPtIdx pageNo
  omega

/-- Every table has an entry, but for those on the way to `P`. -/
def FullBut (P : Nat) (T : Tables) : Prop :=
  ∀ ⦃l K t⦄, l ≤ 3 → T.dir l K = some t →
    (∃ i, i < 512 ∧ T.entry l (K * 512 + i) ≠ 0) ∨ K = P / 512 ^ l

/-- Every table but the root has an entry. -/
def Full (T : Tables) : Prop :=
  ∀ ⦃l K t⦄, l ≤ 3 → T.dir l K = some t → ∃ i, i < 512 ∧ T.entry l (K * 512 + i) ≠ 0

/-- `T'` has the leaves of `T`, and more tables only on the way to `P`, above level `low`. -/
structure Grows (P low : Nat) (T T' : Tables) : Prop where
  small : T'.small = T.small
  huge : T'.huge = T.huge
  keep : ∀ {l K t}, T.dir l K = some t → T'.dir l K = some t
  only : ∀ {l K}, ¬ (low ≤ l ∧ K = P / 512 ^ l) → T'.dir l K = T.dir l K

variable {P low : Nat} {c : Cursor}

theorem Grows.refl (P low : Nat) (T : Tables) : Grows P low T T :=
  ⟨rfl, rfl, fun h => h, fun _ => rfl⟩

theorem Grows.trans {T₁ T₂ T₃ : Tables} (h : Grows P low T₁ T₂) (h' : Grows P low T₂ T₃) :
    Grows P low T₁ T₃ :=
  ⟨h'.small.trans h.small, h'.huge.trans h.huge, fun hd => h'.keep (h.keep hd),
    fun hne => (h'.only hne).trans (h.only hne)⟩

theorem Wired.grows (h : Wired T T' l (P / 512 ^ l) t) (hlow : low ≤ l) : Grows P low T T' :=
  ⟨h.small, h.huge, h.keep, fun hne => h.only (by rintro ⟨rfl, rfl⟩; exact hne ⟨hlow, rfl⟩)⟩

/-- An entry that was there is still there. -/
theorem Grows.entry_ne_zero (h : Grows P low T T') (hs : Shape root T') (hl : 1 ≤ l)
    (hne : T.entry l k ≠ 0) : T'.entry l k ≠ 0 := by
  rcases Nat.eq_or_lt_of_le hl with rfl | hlt
  · show T'.small k ≠ 0
    rw [h.small]
    exact hne
  · obtain ⟨j, rfl⟩ : ∃ j, l = j + 1 := ⟨l - 1, by omega⟩
    cases hd : T.dir j k with
    | some t => exact hs.entry_ne_zero (h.keep hd)
    | none =>
      rcases Nat.eq_or_lt_of_le (show 1 ≤ j by omega) with rfl | hj
      · rw [Tables.entry_leaf hd, ← h.huge] at hne
        rwa [Tables.entry_leaf (hs.huge_none hne)]
      · exact absurd (Tables.entry_none hj hd) hne

theorem Grows.fullBut (h : Grows P low T T') (hs : Shape root T') (hf : Full T) : FullBut P T' := by
  intro l K t hl hd
  by_cases hpath : low ≤ l ∧ K = P / 512 ^ l
  · exact Or.inr hpath.2
  · rw [h.only hpath] at hd
    obtain ⟨i, hi, hne⟩ := hf hl hd
    have hl1 : 1 ≤ l := (hs.level (h.keep hd)).1
    exact Or.inl ⟨i, hi, h.entry_ne_zero hs hl1 hne⟩

/-- The key one level up. -/
theorem key_div (P l : Nat) : P / 512 ^ l / 512 = P / 512 ^ (l + 1) := by
  rw [Nat.div_div_eq_div_mul, ← Nat.pow_succ]

/-- Where an entry leads on the way to `P`, its table is not empty. -/
theorem nonempty_of_child (hs : Shape root T) (hd : T.dir l (P / 512 ^ l) = some t) :
    ∃ i, i < 512 ∧ T.entry (l + 1) (P / 512 ^ (l + 1) * 512 + i) ≠ 0 := by
  refine ⟨P / 512 ^ l % 512, Nat.mod_lt _ (by omega), ?_⟩
  rw [← key_div, Nat.mul_comm, Nat.div_add_mod]
  exact hs.entry_ne_zero hd

/-! ## The cursor -/

/-- The indices the cursor holds lead to the tables it holds. -/
def Good (T : Tables) (c : Cursor) : Prop :=
  c.pml4tIdx < 512 → T.dir 3 c.pml4tIdx = some c.pdpt ∧
    (c.pdptIdx < 512 → T.dir 2 (c.pml4tIdx * 512 + c.pdptIdx) = some c.pd ∧
      (c.pdIdx < 512 →
        T.dir 1 ((c.pml4tIdx * 512 + c.pdptIdx) * 512 + c.pdIdx) = some c.pt))

theorem Good.start (T : Tables) : Good T Cursor.start := fun h => absurd h (by decide)

theorem Good.grows (h : Good T c) (hg : Grows P low T T') : Good T' c := fun h4 =>
  ⟨hg.keep (h h4).1, fun h3 => ⟨hg.keep ((h h4).2 h3).1,
    fun h2 => hg.keep (((h h4).2 h3).2 h2)⟩⟩

/-- The tables after some of the code for page `P` has run. -/
structure Reached (A : PhysAlloc L) (root P low : Nat) (T : Tables) (s : KState) (c : Cursor)
    (s' : KState) (T' : Tables) : Prop where
  inv : Inv A root s' T'
  frame : Frame A T T' s s'
  grows : Grows P low T T'
  good : Good T' c

theorem enterPml4t_yields (low : Nat) (h : Inv A root s T) (hc : Good T c) (hP : P < 2 ^ 36)
    (hlow : low ≤ 3) :
    Tied L nullAlarm (· ∈ allocFailures) (enterPml4t (orHalt A.kmalloc) root (P / 512 ^ 3) c)
        (enterPml4t A.kmalloc root (P / 512 ^ 3) c) s (fun c' s' =>
      (∃ T', Reached A root P low T s c' s' T') ∧ c'.pml4tIdx = P / 512 ^ 3) := by
  have hidx : P / 512 ^ 3 < 512 := by omega
  unfold enterPml4t
  by_cases hne : P / 512 ^ 3 ≠ c.pml4tIdx
  · refine Tied.ite_pos hne ?_
    have hroot : T.dir (3 + 1) (P / 512 ^ 3 / 512) = some root := by
      rw [show P / 512 ^ 3 / 512 = 0 by omega]
      exact h.root_dir
    have hwire := wireTable_yields "Failed to allocate 4KiB page for PDPT" (by decide) h
      (show 1 ≤ 3 by omega) (Nat.le_refl 3) hroot (by omega)
    rw [Nat.mod_eq_of_lt hidx] at hwire
    refine hwire.bind (fun t s' => ?_)
    rintro ⟨T', hinv, hframe, hw⟩
    refine Tied.pure ⟨⟨T', hinv, hframe, hw.grows hlow, fun _ => ⟨hw.dir, ?_⟩⟩, rfl⟩
    exact fun h3 => absurd h3 (show ¬ noIdx < 512 by decide)
  · refine Tied.ite_neg hne (Tied.pure ⟨⟨T, h, Frame.refl T s, Grows.refl P low T, hc⟩, ?_⟩)
    exact (not_not.mp hne).symm

/-- The two indices in the cursor and the third make the key of the next level. -/
theorem key_eq (P l : Nat) : P / 512 ^ (l + 1) * 512 + P / 512 ^ l % 512 = P / 512 ^ l := by
  rw [← key_div, Nat.mul_comm, Nat.div_add_mod]

theorem enterPdpt_yields (low : Nat) (h : Inv A root s T) (hc : Good T c) (hP : P < 2 ^ 36)
    (hlow : low ≤ 2) (h4 : c.pml4tIdx = P / 512 ^ 3) :
    Tied L nullAlarm (· ∈ allocFailures) (enterPdpt (orHalt A.kmalloc) (P / 512 ^ 2 % 512) c)
        (enterPdpt A.kmalloc (P / 512 ^ 2 % 512) c) s (fun c' s' =>
      (∃ T', Reached A root P low T s c' s' T') ∧ c'.pml4tIdx = P / 512 ^ 3 ∧
        c'.pdptIdx = P / 512 ^ 2 % 512) := by
  have hidx : c.pml4tIdx < 512 := by omega
  have hpdpt := (hc hidx).1
  unfold enterPdpt
  by_cases hne : P / 512 ^ 2 % 512 ≠ c.pdptIdx
  · refine Tied.ite_pos hne ?_
    rw [h4] at hpdpt
    have hdir : T.dir (2 + 1) (P / 512 ^ 2 / 512) = some c.pdpt := by rw [key_div]; exact hpdpt
    refine (wireTable_yields "Failed to allocate 4KiB page for PD" (by decide) h
      (show 1 ≤ 2 by omega) (by omega) hdir (by omega)).bind (fun t s' => ?_)
    rintro ⟨T', hinv, hframe, hw⟩
    refine Tied.pure ⟨⟨T', hinv, hframe, hw.grows hlow, fun _ => ⟨?_, fun _ => ⟨?_, ?_⟩⟩⟩, h4, rfl⟩
    · show T'.dir 3 c.pml4tIdx = some c.pdpt
      rw [h4]
      exact hw.keep hpdpt
    · show T'.dir 2 (c.pml4tIdx * 512 + P / 512 ^ 2 % 512) = some t
      rw [h4, key_eq]
      exact hw.dir
    · exact fun h2 => absurd h2 (show ¬ noIdx < 512 by decide)
  · refine Tied.ite_neg hne
      (Tied.pure ⟨⟨T, h, Frame.refl T s, Grows.refl P low T, hc⟩, h4, ?_⟩)
    exact (not_not.mp hne).symm

theorem enterPd_yields (low : Nat) (h : Inv A root s T) (hc : Good T c) (hP : P < 2 ^ 36)
    (hlow : low ≤ 1) (h4 : c.pml4tIdx = P / 512 ^ 3) (h3 : c.pdptIdx = P / 512 ^ 2 % 512)
    (hleaf : T.huge (P / 512 ^ 1) = 0) :
    Tied L nullAlarm (· ∈ allocFailures) (enterPd (orHalt A.kmalloc) (P / 512 ^ 1 % 512) c)
        (enterPd A.kmalloc (P / 512 ^ 1 % 512) c) s (fun c' s' =>
      ∃ T', Reached A root P low T s c' s' T' ∧ T'.dir 1 (P / 512 ^ 1) = some c'.pt) := by
  have hidx4 : c.pml4tIdx < 512 := by omega
  have hidx3 : c.pdptIdx < 512 := by omega
  have hpd := ((hc hidx4).2 hidx3).1
  rw [h4, h3, key_eq] at hpd
  unfold enterPd
  by_cases hne : P / 512 ^ 1 % 512 ≠ c.pdIdx
  · refine Tied.ite_pos hne ?_
    have hdir : T.dir (1 + 1) (P / 512 ^ 1 / 512) = some c.pd := by rw [key_div]; exact hpd
    refine (wireTable_yields "Failed to allocate 4KiB page for PT" (by decide) h
      (Nat.le_refl 1) (by omega) hdir (fun _ => hleaf)).bind (fun t s' => ?_)
    rintro ⟨T', hinv, hframe, hw⟩
    refine Tied.pure ⟨T', ⟨hinv, hframe, hw.grows hlow,
      fun _ => ⟨hw.keep (hc hidx4).1, fun _ => ⟨?_, fun _ => ?_⟩⟩⟩, hw.dir⟩
    · exact hw.keep ((hc hidx4).2 hidx3).1
    · show T'.dir 1 ((c.pml4tIdx * 512 + c.pdptIdx) * 512 + P / 512 ^ 1 % 512) = some t
      rw [h4, h3, key_eq, key_eq]
      exact hw.dir
  · have heq := (not_not.mp hne).symm
    refine Tied.ite_neg hne
      (Tied.pure ⟨T, ⟨h, Frame.refl T s, Grows.refl P low T, hc⟩, ?_⟩)
    have := ((hc hidx4).2 hidx3).2 (by omega)
    rwa [h4, h3, key_eq, heq, key_eq] at this

/-! ## The leaf -/

/-- The tables with a 4KB page mapped. -/
def Tables.setSmall (T : Tables) (P x : Nat) :
    Tables := { T with small := Function.update T.small P x }

/-- The tables with a 2MB page mapped. -/
def Tables.setHuge (T : Tables) (Q x : Nat) :
    Tables := { T with huge := Function.update T.huge Q x }

theorem setSmall_entry {x l' k' : Nat} (h : ¬ (l' = 1 ∧ k' = P)) :
    (T.setSmall P x).entry l' k' = T.entry l' k' := by
  unfold Tables.entry Tables.setSmall
  by_cases h1 : l' = 1
  · rw [if_pos h1, if_pos h1]
    exact Function.update_of_ne (fun hk => h ⟨h1, hk⟩) _ _
  · rw [if_neg h1, if_neg h1]

theorem setHuge_entry {Q x l' k' : Nat} (h : ¬ (l' = 2 ∧ k' = Q)) :
    (T.setHuge Q x).entry l' k' = T.entry l' k' := by
  unfold Tables.entry Tables.setHuge
  by_cases h1 : l' = 1
  · rw [if_pos h1, if_pos h1]
  · rw [if_neg h1, if_neg h1]
    cases T.dir (l' - 1) k' with
    | some t => rfl
    | none =>
      by_cases h2 : l' = 2
      · simp only [if_pos h2]
        rw [Function.update_of_ne (fun hk => h ⟨h2, hk⟩)]
      · simp only [if_neg h2]

/-- A 4KB leaf is zero, or present with its table. -/
theorem Shape.setSmall {x : Nat} (h : Shape root T) (ht : T.dir 1 (P / 512) = some t)
    (hx : x ≠ 0 → x &&& ptePresent ≠ 0) : Shape root (T.setSmall P x) := by
  refine ⟨h.root, h.level, h.parent, h.inj, h.aligned, ?_, h.huge_table, h.huge_none, ?_,
    h.huge_present⟩
  · intro P' hP'
    by_cases he : P' = P
    · subst he
      exact ⟨t, ht⟩
    · exact h.small_table (by simpa [Tables.setSmall, Function.update_of_ne he] using hP')
  · intro P' hP'
    by_cases he : P' = P
    · subst he
      simp only [Tables.setSmall, Function.update_self] at hP' ⊢
      exact hx hP'
    · simp only [Tables.setSmall, Function.update_of_ne he] at hP' ⊢
      exact h.small_present hP'

/-- A 2MB leaf is zero, or present and marked, with its table and no table below. -/
theorem Shape.setHuge {Q x : Nat} (h : Shape root T) (ht : T.dir 2 (Q / 512) = some t)
    (hnone : T.dir 1 Q = none)
    (hx : x ≠ 0 → x &&& ptePresent ≠ 0 ∧ x &&& pteHugePage ≠ 0) : Shape root (T.setHuge Q x) := by
  refine ⟨h.root, h.level, h.parent, h.inj, h.aligned, h.small_table, ?_, ?_, h.small_present, ?_⟩
  · intro Q' hQ'
    by_cases he : Q' = Q
    · subst he
      exact ⟨t, ht⟩
    · exact h.huge_table (by simpa [Tables.setHuge, Function.update_of_ne he] using hQ')
  · intro Q' hQ'
    by_cases he : Q' = Q
    · subst he
      exact hnone
    · exact h.huge_none (by simpa [Tables.setHuge, Function.update_of_ne he] using hQ')
  · intro Q' hQ'
    by_cases he : Q' = Q
    · subst he
      simp only [Tables.setHuge, Function.update_self] at hQ' ⊢
      exact hx hQ'
    · simp only [Tables.setHuge, Function.update_of_ne he] at hQ' ⊢
      exact h.huge_present hQ'

/-- **Writing a 4KB leaf.** -/
theorem Inv.writeSmall {x : Nat} (h : Inv A root s T) (ht : T.dir 1 (P / 512) = some t)
    (hx : x ≠ 0 → x &&& ptePresent ≠ 0) :
    Inv A root { s with mem := s.mem.set (entryAddr t (P % 512)) .pte x } (T.setSmall P x) ∧
      Frame A T (T.setSmall P x) s
        { s with mem := s.mem.set (entryAddr t (P % 512)) .pte x } := by
  have hkey : P / 512 * 512 + P % 512 = P := by omega
  refine h.write ht (Nat.mod_lt _ (by omega)) (h.shape.setSmall ht hx) rfl ?_ ?_
  · rw [hkey]
    exact Function.update_self _ _ _
  · intro l' k' _ hne
    rw [hkey] at hne
    exact setSmall_entry hne

/-- **Writing a 2MB leaf.** -/
theorem Inv.writeHuge {Q x : Nat} (h : Inv A root s T) (ht : T.dir 2 (Q / 512) = some t)
    (hnone : T.dir 1 Q = none)
    (hx : x ≠ 0 → x &&& ptePresent ≠ 0 ∧ x &&& pteHugePage ≠ 0) :
    Inv A root { s with mem := s.mem.set (entryAddr t (Q % 512)) .pte x } (T.setHuge Q x) ∧
      Frame A T (T.setHuge Q x) s
        { s with mem := s.mem.set (entryAddr t (Q % 512)) .pte x } := by
  have hkey : Q / 512 * 512 + Q % 512 = Q := by omega
  refine h.write ht (Nat.mod_lt _ (by omega)) (h.shape.setHuge ht hnone hx) rfl ?_ ?_
  · rw [hkey]
    exact (Tables.entry_leaf (show (T.setHuge Q x).dir 1 Q = none from hnone)).trans
      (Function.update_self _ _ _)
  · intro l' k' _ hne
    rw [hkey] at hne
    exact setHuge_entry hne

/-- The tables above a table are there. -/
theorem Shape.above (h : Shape root T) (hl : l ≤ 3) (hd : T.dir l (P / 512 ^ l) = some t) :
    ∃ u, T.dir (l + 1) (P / 512 ^ (l + 1)) = some u := by
  rw [← key_div]
  exact h.parent hd hl

/-- With its 4KB leaf written, the way to `P` has no empty table. -/
theorem FullBut.setSmall {x : Nat} (hf : FullBut P T) (hs : Shape root T)
    (ht : T.dir 1 (P / 512 ^ 1) = some t) (hx : x ≠ 0) : Full (T.setSmall P x) := by
  obtain ⟨u, hu⟩ := hs.above (by omega) ht
  have hkeep : ∀ {l k}, T.entry l k ≠ 0 → (T.setSmall P x).entry l k ≠ 0 := by
    intro l k hne
    by_cases hc : l = 1 ∧ k = P
    · obtain ⟨rfl, rfl⟩ := hc
      show Function.update T.small k x k ≠ 0
      rwa [Function.update_self]
    · rwa [setSmall_entry hc]
  intro l K v hl hd
  rcases hf hl hd with ⟨i, hi, hne⟩ | rfl
  · exact ⟨i, hi, hkeep hne⟩
  · obtain rfl | rfl | rfl : l = 1 ∨ l = 2 ∨ l = 3 := by
      have := (hs.level hd).1
      omega
    · refine ⟨P % 512, Nat.mod_lt _ (by omega), ?_⟩
      rw [show P / 512 ^ 1 * 512 + P % 512 = P by omega]
      show Function.update T.small P x P ≠ 0
      rwa [Function.update_self]
    · obtain ⟨i, hi, hne⟩ := nonempty_of_child hs ht
      exact ⟨i, hi, hkeep hne⟩
    · obtain ⟨i, hi, hne⟩ := nonempty_of_child hs hu
      exact ⟨i, hi, hkeep hne⟩

/-- With its 2MB leaf written, the way to `P` has no empty table. -/
theorem FullBut.setHuge {x : Nat} (hf : FullBut P T) (hs : Shape root T)
    (ht : T.dir 2 (P / 512 ^ 2) = some t) (hnone : T.dir 1 (P / 512 ^ 1) = none) (hx : x ≠ 0) :
    Full (T.setHuge (P / 512 ^ 1) x) := by
  have hleaf : (T.setHuge (P / 512 ^ 1) x).entry 2 (P / 512 ^ 1) = x :=
    (Tables.entry_leaf (show (T.setHuge (P / 512 ^ 1) x).dir 1 _ = none from hnone)).trans
      (Function.update_self _ _ _)
  have hkeep : ∀ {l k}, T.entry l k ≠ 0 → (T.setHuge (P / 512 ^ 1) x).entry l k ≠ 0 := by
    intro l k hne
    by_cases hc : l = 2 ∧ k = P / 512 ^ 1
    · obtain ⟨rfl, rfl⟩ := hc
      rwa [hleaf]
    · rwa [setHuge_entry hc]
  intro l K v hl hd
  rcases hf hl hd with ⟨i, hi, hne⟩ | rfl
  · exact ⟨i, hi, hkeep hne⟩
  · obtain rfl | rfl | rfl : l = 1 ∨ l = 2 ∨ l = 3 := by
      have := (hs.level hd).1
      omega
    · exact absurd (hnone.symm.trans hd) (by simp)
    · refine ⟨P / 512 ^ 1 % 512, Nat.mod_lt _ (by omega), ?_⟩
      rw [key_eq P 1, hleaf]
      exact hx
    · obtain ⟨i, hi, hne⟩ := nonempty_of_child hs ht
      exact ⟨i, hi, hkeep hne⟩

/-! ## The loops -/

/-- The leaves `f`, with those of the `n` pages from `base` on now for the memory from `paddr`
on. -/
def spread (base n size paddr flags : Nat) (f : Nat → Nat) : Nat → Nat := fun k =>
  if base ≤ k ∧ k < base + n then (paddr + (k - base) * size) % 2 ^ 64 ||| flags else f k

theorem spread_zero (base size paddr flags : Nat) (f : Nat → Nat) :
    spread base 0 size paddr flags f = f := by
  funext k
  exact if_neg (by omega)

/-- One page, and then the others. -/
theorem spread_succ {base n size paddr flags : Nat} {f : Nat → Nat} (hp : paddr < 2 ^ 64) :
    spread (base + 1) n size ((paddr + size) % 2 ^ 64) flags
      (Function.update f base (paddr ||| flags)) = spread base (n + 1) size paddr flags f := by
  funext k
  unfold spread
  by_cases hk : k = base
  · subst hk
    rw [if_neg (by omega), if_pos (by omega), Function.update_self, Nat.sub_self, Nat.zero_mul,
      Nat.add_zero, Nat.mod_eq_of_lt hp]
  · by_cases hin : base + 1 ≤ k ∧ k < base + 1 + n
    · rw [if_pos hin, if_pos (by omega), Nat.mod_add_mod, Nat.add_assoc, Nat.add_comm size,
        ← Nat.succ_mul, show (k - (base + 1)).succ = k - base by omega]
    · rw [if_neg hin, if_neg (by omega), Function.update_of_ne hk]

/-- The tables are as a call that returned leaves them, with these leaves. -/
def Holds (A : PhysAlloc L) (root : Nat) (T : Tables) (s : KState) (small huge : Nat → Nat)
    (s' : KState) : Prop :=
  ∃ T', Inv A root s' T' ∧ Full T' ∧ Frame A T T' s s' ∧ T'.small = small ∧ T'.huge = huge

theorem Holds.since {T₁ : Tables} {s₁ s' : KState} {small huge : Nat → Nat}
    (hf : Frame A T T₁ s s₁) (h : Holds A root T₁ s₁ small huge s') :
    Holds A root T s small huge s' := by
  obtain ⟨T', hinv, hfull, hframe, hs, hh⟩ := h
  exact ⟨T', hinv, hfull, hf.trans hframe, hs, hh⟩

/-- The next 4KB page has the next number. -/
theorem pageNo_next {v : Nat} (h : pageNo v + 1 < 2 ^ 36) :
    pageNo ((v + pageSize) % 2 ^ 64) = pageNo v + 1 := by
  unfold pageNo pageSize at *
  omega

/-- The next 2MB page has the next number. -/
theorem hugeNo_next {v : Nat} (h : pageNo v / 512 ^ 1 + 1 < 2 ^ 27) :
    pageNo ((v + hugePageSize) % 2 ^ 64) / 512 ^ 1 = pageNo v / 512 ^ 1 + 1 := by
  unfold pageNo hugePageSize at *
  omega

/-- The leaf of a page has the marks of its flags. -/
theorem leaf_mark {p flags b : Nat} (hf : flags &&& b ≠ 0) : (p ||| flags) &&& b ≠ 0 := by
  rw [Nat.and_or_distrib_right]
  exact fun h => hf (Nat.or_eq_zero_iff.mp h).2

/-- **The loop of the 4KB pages** returns with its pages mapped, all others as they were and no
empty table, unless the allocator ran out. -/
theorem mapSmallLoop_yields {flags : Nat} (hflags : flags &&& ptePresent ≠ 0) (left : Nat) :
    ∀ {s : KState} {T : Tables} {v p P : Nat} {c : Cursor}, Inv A root s T → Full T → Good T c →
      p < 2 ^ 64 → (0 < left → pageNo v = P) → P + left ≤ 2 ^ 36 →
      (∀ P', P ≤ P' → P' < P + left → T.huge (P' / 512) = 0) →
      Tied L nullAlarm (· ∈ allocFailures) (mapSmallLoop (orHalt A.kmalloc) root flags left v p c)
        (mapSmallLoop A.kmalloc root flags left v p c) s
        (fun _ s' => Holds A root T s (spread P left pageSize p flags T.small) T.huge s') := by
  induction left with
  | zero =>
    intro s T v p P c h hfull _ _ _ _ _
    rw [spread_zero]
    exact Tied.pure ⟨T, h, hfull, Frame.refl T s, rfl, rfl⟩
  | succ left ih =>
    intro s T v p P c h hfull hc hp hv hwrap hhuge
    obtain rfl := hv (by omega)
    have hP := pageNo_lt v
    unfold mapSmallLoop
    rw [virtToPml4Idx_eq, virtToPdptIdx_eq, virtToPdIdx_eq, virtToPtIdx_eq]
    -- the way to the page
    refine (enterPml4t_yields 1 h hc hP (by omega)).bind (fun c₁ s₁ => ?_)
    rintro ⟨⟨T₁, h₁⟩, h4⟩
    refine (enterPdpt_yields 1 h₁.inv h₁.good hP (by omega) h4).bind (fun c₂ s₂ => ?_)
    rintro ⟨⟨T₂, h₂⟩, h4', h3⟩
    have hg₂ := h₁.grows.trans h₂.grows
    have hf₂ := h₁.frame.trans h₂.frame
    have hleaf : T₂.huge (pageNo v / 512 ^ 1) = 0 := by
      rw [hg₂.huge]
      exact hhuge _ (Nat.le_refl _) (by omega)
    refine (enterPd_yields 1 h₂.inv h₂.good hP (by omega) h4' h3 hleaf).bind (fun c₃ s₃ => ?_)
    rintro ⟨T₃, h₃, hpt⟩
    have hg₃ := hg₂.trans h₃.grows
    -- its leaf
    have hpres : (p ||| flags) &&& ptePresent ≠ 0 := leaf_mark hflags
    obtain ⟨hinv, hframe⟩ := h₃.inv.writeSmall hpt (fun _ => hpres)
    have hfull' := (hg₃.fullBut h₃.inv.shape hfull).setSmall h₃.inv.shape hpt (ne_zero_of_and hpres)
    have hf := (hf₂.trans h₃.frame).trans hframe
    refine Tied.bind_edits (Edits.p2vStore h₃.inv.view
      (h₃.inv.stored hpt (Nat.mod_lt _ (by omega)))) ?_
    -- the other pages
    refine (ih hinv hfull' h₃.good (Nat.mod_lt _ (by omega))
      (fun hpos => pageNo_next (by omega)) (by omega) ?_).mono (fun _ hm => hm)
      (fun _ s' hq => ?_)
    · intro P' h1 h2
      show T₃.huge (P' / 512) = 0
      rw [hg₃.huge]
      exact hhuge P' (by omega) (by omega)
    · have hq' := hq.since hf
      rw [show (T₃.setSmall (pageNo v) (p ||| flags)).small
        = Function.update T.small (pageNo v) (p ||| flags) by rw [← hg₃.small]; rfl,
        spread_succ hp, show (T₃.setSmall (pageNo v) (p ||| flags)).huge = T.huge from hg₃.huge]
        at hq'
      exact hq'

/-- **The loop of the 2MB pages.** -/
theorem mapHugeLoop_yields {flags : Nat} (hflags : flags &&& ptePresent ≠ 0)
    (hmark : flags &&& pteHugePage ≠ 0) (left : Nat) :
    ∀ {s : KState} {T : Tables} {v p Q : Nat} {c : Cursor}, Inv A root s T → Full T → Good T c →
      p < 2 ^ 64 → (0 < left → pageNo v / 512 ^ 1 = Q) → Q + left ≤ 2 ^ 27 →
      (∀ Q', Q ≤ Q' → Q' < Q + left → T.dir 1 Q' = none) →
      Tied L nullAlarm (· ∈ allocFailures) (mapHugeLoop (orHalt A.kmalloc) root flags left v p c)
        (mapHugeLoop A.kmalloc root flags left v p c) s
        (fun _ s' => Holds A root T s T.small (spread Q left hugePageSize p flags T.huge) s') := by
  induction left with
  | zero =>
    intro s T v p Q c h hfull _ _ _ _ _
    rw [spread_zero]
    exact Tied.pure ⟨T, h, hfull, Frame.refl T s, rfl, rfl⟩
  | succ left ih =>
    intro s T v p Q c h hfull hc hp hv hwrap hnone
    obtain rfl := hv (by omega)
    have hP := pageNo_lt v
    unfold mapHugeLoop
    rw [virtToPml4Idx_eq, virtToPdptIdx_eq, virtToPdIdx_eq]
    refine (enterPml4t_yields 2 h hc hP (by omega)).bind (fun c₁ s₁ => ?_)
    rintro ⟨⟨T₁, h₁⟩, h4⟩
    refine (enterPdpt_yields 2 h₁.inv h₁.good hP (by omega) h4).bind (fun c₂ s₂ => ?_)
    rintro ⟨⟨T₂, h₂⟩, h4', h3⟩
    have hg := h₁.grows.trans h₂.grows
    have hpd : T₂.dir 2 (pageNo v / 512 ^ 2) = some c₂.pd := by
      have := ((h₂.good (by omega)).2 (by omega)).1
      rwa [h4', h3, key_eq] at this
    have hdir1 : ∀ Q', T₂.dir 1 Q' = T.dir 1 Q' := fun Q' => hg.only (by omega)
    have hnone' : T₂.dir 1 (pageNo v / 512 ^ 1) = none := by
      rw [hdir1]
      exact hnone _ (Nat.le_refl _) (by omega)
    have hpres : (p ||| flags) &&& ptePresent ≠ 0 := leaf_mark hflags
    have hbit : (p ||| flags) &&& pteHugePage ≠ 0 := leaf_mark hmark
    have hkey : pageNo v / 512 ^ 1 / 512 = pageNo v / 512 ^ 2 := key_div _ 1
    obtain ⟨hinv, hframe⟩ := h₂.inv.writeHuge (hkey ▸ hpd) hnone' (fun _ => ⟨hpres, hbit⟩)
    have hfull' := (hg.fullBut h₂.inv.shape hfull).setHuge h₂.inv.shape hpd hnone'
      (ne_zero_of_and hpres)
    have hf := (h₁.frame.trans h₂.frame).trans hframe
    refine Tied.bind_edits (Edits.p2vStore h₂.inv.view
      (h₂.inv.stored hpd (Nat.mod_lt _ (by omega)))) ?_
    refine (ih hinv hfull' h₂.good (Nat.mod_lt _ (by omega))
      (fun hpos => hugeNo_next (by omega)) (by omega) ?_).mono (fun _ hm => hm)
      (fun _ s' hq => ?_)
    · intro Q' h1 h2
      show T₂.dir 1 Q' = none
      rw [hdir1]
      exact hnone Q' (by omega) (by omega)
    · have hq' := hq.since hf
      rw [show (T₂.setHuge (pageNo v / 512 ^ 1) (p ||| flags)).huge
        = Function.update T.huge (pageNo v / 512 ^ 1) (p ||| flags) by rw [← hg.huge]; rfl,
        spread_succ hp, show (T₂.setHuge (pageNo v / 512 ^ 1) (p ||| flags)).small = T.small
          from hg.small] at hq'
      exact hq'

/-! ## The calls -/

theorem alignDown_of_dvd {p size : Nat} (h : size ∣ p) :
    alignDown p size = p := Nat.div_mul_cancel h

theorem alignDown_le (p size : Nat) : alignDown p size ≤ p := Nat.div_mul_le_self p size

/-- **`map_pages` without `PTE_HUGE_PAGE`.** -/
theorem mapPages_small {flags p v n : Nat} (h : Inv A root s T) (hfull : Full T)
    (hflags : flags &&& ptePresent ≠ 0) (hmark : flags &&& pteHugePage = 0) (hp : p < 2 ^ 64)
    (hwrap : pageNo v + n ≤ 2 ^ 36)
    (hhuge : ∀ P', pageNo v ≤ P' → P' < pageNo v + n → T.huge (P' / 512) = 0) :
    Tied L nullAlarm (· ∈ allocFailures) (mapPages (orHalt A.kmalloc) root p v flags n)
        (mapPages A.kmalloc root p v flags n) s (fun _ s' =>
      Holds A root T s (spread (pageNo v) n pageSize (alignDown p pageSize) flags T.small)
          T.huge s') := by
  unfold mapPages
  by_cases hn : n = 0
  · subst hn
    rw [spread_zero]
    exact Tied.ite_pos rfl (Tied.pure ⟨T, h, hfull, Frame.refl T s, rfl, rfl⟩)
  · refine Tied.ite_neg hn (Tied.ite_neg (not_not.mpr hmark) ?_)
    exact mapSmallLoop_yields hflags n h hfull (Good.start T)
      (Nat.lt_of_le_of_lt (alignDown_le p pageSize) hp) (fun _ => rfl) hwrap hhuge

/-- **`map_pages` with `PTE_HUGE_PAGE`.** The frame is not rounded. -/
theorem mapPages_huge {flags p v n : Nat} (h : Inv A root s T) (hfull : Full T)
    (hflags : flags &&& ptePresent ≠ 0) (hmark : flags &&& pteHugePage ≠ 0)
    (hp : p < 2 ^ 64) (hwrap : pageNo v / 512 + n ≤ 2 ^ 27)
    (hnone : ∀ Q', pageNo v / 512 ≤ Q' → Q' < pageNo v / 512 + n → T.dir 1 Q' = none) :
    Tied L nullAlarm (· ∈ allocFailures) (mapPages (orHalt A.kmalloc) root p v flags n)
        (mapPages A.kmalloc root p v flags n) s (fun _ s' =>
      Holds A root T s T.small (spread (pageNo v / 512) n hugePageSize p flags T.huge) s') := by
  unfold mapPages
  by_cases hn : n = 0
  · subst hn
    rw [spread_zero]
    exact Tied.ite_pos rfl (Tied.pure ⟨T, h, hfull, Frame.refl T s, rfl, rfl⟩)
  · refine Tied.ite_neg hn (Tied.ite_pos hmark ?_)
    exact mapHugeLoop_yields hflags hmark n h hfull (Good.start T) hp (fun _ => rfl) hwrap hnone

end Mmu
end MikroKernel
