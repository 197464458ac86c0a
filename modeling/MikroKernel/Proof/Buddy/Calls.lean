import MikroKernel.Proof.Buddy.Refine

/-!
# `buddy_kalloc` and `buddy_kfree` compute the heap operations

The critical sections one after the other. Between two sections of one call the block in hand is
owned by the call itself: it is on no list, and the partition counts it among the owned blocks.
That is the loop invariant of the split (`splitLoop_edits`) and of the merge
(`mergeLoop_writes`), and it is why the sections compose.
-/

set_option autoImplicit false

namespace MikroKernel
namespace Buddy

open Chain

variable {L : Layout} {m : Mem} {base size np : Nat} {h : Heap} {own : Multiset Chunk}
    {R : Nat → Prop}

/-- `R` has all that an allocation writes: the list heads, the bitmap and the free blocks. -/
structure Writes (L : Layout) (h : Heap) (R : Nat → Prop) : Prop where
  head : ∀ k, k ≤ 10 → R (listHead L k)
  byte : ∀ p, p < 2 ^ 32 → R (bitmapByte L p)
  free : ∀ k, k ≤ 10 → ∀ c ∈ h.free k, ∀ a, c ≤ a → a < c + chunkBytes k → R a

theorem writes_all : Writes L h (fun _ => True) :=
  ⟨fun _ _ => trivial, fun _ _ => trivial, fun _ _ _ _ _ _ _ => trivial⟩

theorem Writes.block (hw : Writes L h R) {k c : Nat} (hk : k ≤ 10) (hc : c ∈ h.free k) : R c :=
  hw.free k hk c hc c (Nat.le_refl c) (Nat.lt_add_of_pos_right (chunkBytes_pos k))

/-- It has still after a block of it is put on a list. -/
theorem Writes.push (hw : Writes L h R) {k c : Nat} (hc : ∀ a, c ≤ a → a < c + chunkBytes k → R a) :
    Writes L (h.push k c) R := by
  refine ⟨hw.head, hw.byte, fun j hj b hb a h1 h2 => ?_⟩
  by_cases hjk : j = k
  · subst hjk
    rw [show (h.push j c).free j = c :: h.free j from Function.update_self _ _ _] at hb
    rcases List.mem_cons.mp hb with rfl | hb
    · exact hc a h1 h2
    · exact hw.free j hj b hb a h1 h2
  · rw [show (h.push k c).free j = h.free j from Function.update_of_ne hjk _ _] at hb
    exact hw.free j hj b hb a h1 h2

theorem Writes.drop (hw : Writes L h R) (k c : Nat) : Writes L (h.drop k c) R := by
  refine ⟨hw.head, hw.byte, fun j hj b hb => hw.free j hj b ?_⟩
  by_cases hjk : j = k
  · subst hjk
    rw [show (h.drop j c).free j = (h.free j).erase c from Function.update_self _ _ _] at hb
    exact List.mem_of_mem_erase hb
  · rwa [show (h.drop k c).free j = h.free j from Function.update_of_ne hjk _ _] at hb

/-! ## The pop section -/

theorem Managed.top_lt (hm : Managed L base size) {a n : Nat} (h1 : base ≤ a) (hn : 0 < n)
    (h2 : a + n ≤ base + size) : a + n < 2 ^ 64 := by
  have := L.phys_lt _ (hm.phys (a + n - 1) (by omega) (by omega))
  unfold physTop at this
  omega

theorem splitLoop_edits {off c order level : Nat} (hv : View off) (hr : Rep L m base np h)
    (hp : Packed (Usable L) h.free (⟨c, level⟩ ::ₘ own)) (hle : order ≤ level) (hw : Writes L h R)
    (hc : ∀ a, c ≤ a → a < c + chunkBytes level → R a) :
    ∃ m', Edits L off (splitLoop (L.kernelEnd + metadataSize) c order level) m () m' ∧
      Rep L m' base np (Heap.split c order level h) ∧ OnlyIn R m m' := by
  induction level generalizing m h with
  | zero => exact ⟨m, Edits.pure (), hr, OnlyIn.refl m⟩
  | succ level ih =>
    unfold splitLoop Heap.split
    by_cases hlt : level + 1 > order
    · have hk := (hp.aligned ⟨c, level + 1⟩ (by simp)).1
      have hhalf := hp.halve
      rw [Multiset.cons_swap] at hhalf
      -- the address of the upper half does not wrap
      have htop := hp.top_lt (c := ⟨c, level + 1⟩) (by simp)
      have haddr : (c + chunkBytes level) % 2 ^ 64 = c + chunkBytes level := by
        simp only [chunkBytes_succ] at htop
        exact Nat.mod_eq_of_lt (by omega)
      have hpos := chunkBytes_pos level
      rw [chunkBytes_succ] at hc
      obtain ⟨m₁, hm₁, hr₁, ho₁⟩ := pushHead_writes hv (Nat.le_of_succ_le hk) hr hhalf
        (hw.head level (Nat.le_of_succ_le hk)) (hc _ (Nat.le_add_right _ _) (by omega))
        (fun a ha => hw.block (Nat.le_of_succ_le hk) ha)
      have hstep : Edits L off (splitStep (L.kernelEnd + metadataSize) c (level + 1)) m () m₁ := by
        show Edits L off (pushHead (L.kernelEnd + metadataSize) ((c + chunkBytes level) % 2 ^ 64)
          level) m () m₁
        rw [haddr]
        exact hm₁
      have hp₁ : Packed (Usable L) (h.push level (c + chunkBytes level)).free
          (⟨c, level⟩ ::ₘ own) := hhalf.give (Nat.le_of_succ_le hk)
      have hw₁ : Writes L (h.push level (c + chunkBytes level)) R :=
        hw.push (fun a h1 h2 => hc a (by omega) (by omega))
      obtain ⟨m₂, hm₂, hr₂, ho₂⟩ := ih hr₁ hp₁ (by omega) hw₁ (fun a h1 h2 => hc a h1 (by omega))
      rw [if_pos hlt, if_pos hlt]
      exact ⟨m₂, Edits.bind hstep hm₂, hr₂, ho₁.trans ho₂⟩
    · rw [if_neg hlt, if_neg hlt]
      exact ⟨m, Edits.pure (), hr, OnlyIn.refl m⟩

theorem popSection_empty {off idx : Nat} (order : Nat) (hk : idx ≤ 10) (hr : Rep L m base np h)
    (hl : h.free idx = []) : Edits L off (popSection idx order) m 0 m := by
  have hhead : m (listHead L idx) .ptr = 0 := by rw [(hr.lists idx hk).1, hl]; rfl
  refine Edits.bind (Edits.of_eq (fun s => rfl)) ?_
  refine Edits.bind (Edits.load (image_metadata L) hr.freeListsPtr) ?_
  refine Edits.bind (Edits.load (image_listHead L hk) hhead) ?_
  exact Edits.ite_pos rfl (Edits.pure 0)

/-- The section on a list with a block: pop it, split it down to the order asked for. -/
theorem popSection_writes {off idx order c : Nat} {l : List Nat} (hv : View off)
    (hk : idx ≤ 10) (hle : order ≤ idx) (hr : Rep L m base np h)
    (hp : Packed (Usable L) h.free own) (hl : h.free idx = c :: l) (hw : Writes L h R) :
    ∃ m', Edits L off (popSection idx order) m c m' ∧
      Rep L m' base np (Heap.split c order idx (h.drop idx c)) ∧ OnlyIn R m m' := by
  have hmem : c ∈ h.free idx := by rw [hl]; simp
  have hc : L.Stored c := Or.inl (hp.free_phys hk hmem)
  have himg := image_listHead L hk
  obtain ⟨hhead, hlink⟩ := hr.lists idx hk
  rw [hl] at hhead hlink
  have hnext : m c .chunkNext = first l := hlink.2.2.1
  have hfirst : first l ≠ 0 → first l ∈ h.free idx := fun h0 => by
    rw [hl]
    exact List.mem_cons_of_mem _ (first_mem (fun hnil => h0 (by rw [hnil]; rfl)))
  have hpopped : OnlyIn R m (popMem L m idx c (first l)) :=
    (((OnlyIn.refl m).set (hw.head idx hk)).linkBack (fun h0 => hw.block hk (hfirst h0))).set
      (hw.block hk hmem)
  obtain ⟨m₂, hm₂, hr₂, ho₂⟩ :=
    splitLoop_edits hv (hr.pop hk hp hl) (hp.take hk hmem) hle (hw.drop idx c)
    (hw.free idx hk c hmem)
  refine ⟨m₂, ?_, hr₂, hpopped.trans ho₂⟩
  refine Edits.bind (Edits.of_eq (fun s => rfl)) ?_
  refine Edits.bind (Edits.load (image_metadata L) hr.freeListsPtr) ?_
  refine Edits.bind (Edits.load himg hhead) (Edits.ite_neg hlink.1 ?_)
  refine Edits.bind (Edits.load himg hhead) ?_
  refine Edits.bind (Edits.p2vLoad hv hc hnext) (Edits.bind (Edits.store himg) ?_)
  refine Edits.linkBack hv hc ((Mem.set_ne (Or.inr (by decide))).trans hnext) ?_ ?_
  · exact fun h0 => Or.inl (hp.free_phys hk (hfirst h0))
  · exact Edits.bind (Edits.p2vStore hv hc) (Edits.bind hm₂ (Edits.pure c))

theorem popSection_edits {off idx order c : Nat} {l : List Nat} (hv : View off)
    (hk : idx ≤ 10) (hle : order ≤ idx) (hr : Rep L m base np h)
    (hp : Packed (Usable L) h.free own) (hl : h.free idx = c :: l) :
    ∃ m', Edits L off (popSection idx order) m c m' ∧
      Rep L m' base np (Heap.split c order idx (h.drop idx c)) := by
  obtain ⟨m', hedit, hrep, -⟩ := popSection_writes hv hk hle hr hp hl writes_all
  exact ⟨m', hedit, hrep⟩

/-! ## The bitmap -/

theorem xor_bit (x i : Nat) : x ^^^ 1 <<< i = x ^^^ 2 ^ i := by rw [Nat.one_shiftLeft]

theorem bit_value (x i : Nat) : x >>> i &&& 1 = if x.testBit i then 1 else 0 := by
  rw [Nat.testBit_eq_decide_div_mod_eq, Nat.and_one_is_mod, Nat.shiftRight_eq_div_pow]
  have := Nat.mod_two_eq_zero_or_one (x / 2 ^ i)
  rcases this with h | h <;> simp [h]

theorem Rep.toggle {p v : Nat} (hp : p < 2 ^ 32) (hr : Rep L m base np h)
    (hv : v = m (bitmapByte L p) .byte ^^^ 1 <<< (p % 8)) :
    Rep L (m.set (bitmapByte L p) .byte v) base np (h.flip p) := by
  refine ⟨?_, ?_, ?_, ?_, ?_, ?_, ?_⟩
  · rw [Mem.set_ne (Or.inr (by decide))]; exact hr.freeListsPtr
  · rw [Mem.set_ne (Or.inr (by decide))]; exact hr.bitmapPtr
  · rw [Mem.set_ne (Or.inr (by decide))]; exact hr.baseAddress
  · rw [Mem.set_ne (Or.inr (by decide))]; exact hr.maxOrder
  · intro k hk
    rw [Mem.set_ne (Or.inr (by decide))]; exact hr.offsets k hk
  · intro k hk
    obtain ⟨hhead, hlink⟩ := hr.lists k hk
    refine ⟨?_, hlink.congr (fun a _ => Mem.set_ne (Or.inr (by decide)))
      (fun a _ => Mem.set_ne (Or.inr (by decide)))⟩
    rw [Mem.set_ne (Or.inr (by decide))]
    exact hhead
  · intro q hq
    show bitOf L (m.set (bitmapByte L p) .byte v) q = Function.update h.bit p (!h.bit p) q
    unfold bitOf
    by_cases hbyte : bitmapByte L q = bitmapByte L p
    · -- the same byte: the bit changes when the position is the same too
      have hdiv : q / 8 = p / 8 := by unfold bitmapByte at hbyte; omega
      have hold := hr.bits q hq
      unfold bitOf at hold
      rw [hbyte] at hold
      rw [hbyte, Mem.set_self, hv, xor_bit, Nat.testBit_xor, hold, Nat.testBit_two_pow]
      by_cases hqp : q = p
      · subst hqp
        simp
      · have hmod : p % 8 ≠ q % 8 := by omega
        rw [Function.update_of_ne hqp]
        simp [hmod]
    · have hqp : q ≠ p := fun hqp => hbyte (by rw [hqp])
      rw [Mem.set_ne (Or.inl hbyte), Function.update_of_ne hqp]
      exact hr.bits q hq

/-- A state in which a call can start: one of the two views, and nobody in `buddy_lock`. -/
structure Ready (s : KState) : Prop where
  view : View s.physMapOffset
  free : (s.lock .buddyLock).Free

theorem Ready.quiet {s s' : KState} (h : Ready s) (hq : Quiet s s') : Ready s' :=
  ⟨by rw [hq.offset]; exact h.view, hq.free _ h.free⟩

/-- `toggle_bitmap` flips the pair's bit and returns its new value. -/
theorem toggleBitmap_writes {s : KState} {c k : Nat} (hs : Ready s) (hk : k ≤ 10)
    (hr : Rep L s.mem base np h) (hw : ∀ p, p < 2 ^ 32 → R (bitmapByte L p)) :
    ∃ m', Returns L (toggleBitmap c k) s (if h.bit (pairPos base np c k) then 0 else 1) m' ∧
      Rep L m' base np (h.flip (pairPos base np c k)) ∧ OnlyIn R s.mem m' := by
  have hpos := pairPos_lt base np c k
  have hrep := hr.toggle hpos rfl
  refine ⟨_, ?_, hrep, (OnlyIn.refl _).set (hw _ hpos)⟩
  refine Returns.bind_edits (Edits.of_eq (fun s => rfl)) ?_
  refine Returns.bind_edits (Edits.load (image_metadata L) hr.bitmapPtr) ?_
  refine Returns.bind_edits (Edits.load (image_metadata L) hr.baseAddress) ?_
  refine Returns.bind_edits (Edits.load (image_orderOffset L hk) (hr.offsets k hk)) ?_
  refine Edits.locked hs.free ?_
  refine Edits.bind (Edits.load (image_bitmap L hpos) rfl) ?_
  refine Edits.bind (Edits.store (image_bitmap L hpos)) ?_
  refine Edits.bind (Edits.load (image_bitmap L hpos) (Mem.set_self _ _ _ _)) ?_
  -- the new value is the flipped bit
  have hbit := hrep.bits _ hpos
  unfold bitOf at hbit
  rw [Mem.set_self] at hbit
  rw [show (if h.bit (pairPos base np c k) then 0 else 1)
    = (s.mem (bitmapByte L (pairPos base np c k)) .byte ^^^ 1 <<< (pairPos base np c k % 8))
      >>> (pairPos base np c k % 8) &&& 1 by
    rw [bit_value, hbit]
    simp only [Heap.flip, Function.update_self]
    cases h.bit (pairPos base np c k) <;> rfl]
  exact Edits.pure _

theorem toggleBitmap_returns {s : KState} {c k : Nat} (hs : Ready s) (hk : k ≤ 10)
    (hr : Rep L s.mem base np h) :
    ∃ m', Returns L (toggleBitmap c k) s (if h.bit (pairPos base np c k) then 0 else 1) m' ∧
      Rep L m' base np (h.flip (pairPos base np c k)) := by
  obtain ⟨m', hret, hrep, -⟩ := toggleBitmap_writes (R := fun _ => True) hs hk hr
    (fun _ _ => trivial)
  exact ⟨m', hret, hrep⟩

/-! ## The order of a request -/

/-- The order the loops at the head of both calls select. -/
def orderOf (size : Nat) : Nat := (orderLoop size 64 0).getD 0

/-- The loop stops at the least order that will do. The shifted page size is a 64-bit value up to
order 51. -/
theorem orderLoop_some {size j : Nat} (hs : size ≤ chunkBytes j) (hj : j ≤ 51) :
    ∀ {fuel k : Nat}, k ≤ j → j < k + fuel →
      ∃ r, orderLoop size fuel k = some r ∧ size ≤ chunkBytes r ∧
        ∀ i, k ≤ i → i < r → chunkBytes i < size := by
  intro fuel
  induction fuel with
  | zero => intro k hkj hf; omega
  | succ fuel ih =>
    intro k hkj hf
    have hlt : chunkBytes k < 2 ^ 64 := by
      rw [chunkBytes_eq]
      exact Nat.pow_lt_pow_right (by omega) (by omega)
    unfold orderLoop
    rw [show 2 ^ k * pageSize % 2 ^ 64 = chunkBytes k from Nat.mod_eq_of_lt hlt]
    by_cases hgt : size > chunkBytes k
    · rw [if_pos hgt]
      have hne : k ≠ j := by
        rintro rfl
        omega
      obtain ⟨r, hr, hsr, hleast⟩ := ih (k := k + 1) (by omega) (by omega)
      refine ⟨r, hr, hsr, fun i hki hir => ?_⟩
      rcases Nat.eq_or_lt_of_le hki with rfl | hlt
      · exact hgt
      · exact hleast i hlt hir
    · rw [if_neg hgt]
      exact ⟨k, rfl, by omega, fun i h1 h2 => by omega⟩

theorem orderOf_some {size : Nat} (hs : size ≤ 2 ^ 63) :
    orderLoop size 64 0 = some (orderOf size) ∧ size ≤ chunkBytes (orderOf size) ∧
      ∀ i, i < orderOf size → chunkBytes i < size := by
  have htop : chunkBytes 51 = 2 ^ 63 := chunkBytes_eq 51
  obtain ⟨r, hr, hsr, hleast⟩ := orderLoop_some (hs.trans (Nat.le_of_eq htop.symm)) (Nat.le_refl 51)
    (Nat.zero_le 51) (show 51 < 0 + 64 by omega)
  have hof : orderOf size = r := by unfold orderOf; rw [hr]; rfl
  rw [hof]
  exact ⟨hr, hsr, fun i hi => hleast i (Nat.zero_le i) hi⟩

theorem orderOf_spec {size : Nat} (hs : size ≤ chunkBytes 10) :
    orderLoop size 64 0 = some (orderOf size) ∧ orderOf size ≤ 10 ∧
      size ≤ chunkBytes (orderOf size) := by
  obtain ⟨hr, hsr, hleast⟩ := orderOf_some (show size ≤ 2 ^ 63 by rw [chunkBytes_ten] at hs; omega)
  refine ⟨hr, ?_, hsr⟩
  by_contra hgt
  have := hleast 10 (by omega)
  omega

theorem selectOrder_edits {off size : Nat} (hs : size ≤ 2 ^ 63) :
    Edits L off (selectOrder size) m (orderOf size) m := by
  unfold selectOrder
  rw [(orderOf_some hs).1]
  exact Edits.pure _

theorem le_of_four_mb {size : Nat} (hs : size ≤ chunkBytes 10) : size ≤ 2 ^ 63 := by
  rw [chunkBytes_ten] at hs
  omega

theorem orderOf_chunkBytes {k : Nat} (hk : k ≤ 10) : orderOf (chunkBytes k) = k := by
  obtain ⟨-, hle, hleast⟩ := orderOf_some (le_of_four_mb (chunkBytes_le hk))
  by_contra hne
  rcases Nat.lt_or_gt_of_ne hne with hlt | hgt
  · have h1 := chunkBytes_le (show orderOf (chunkBytes k) + 1 ≤ k from hlt)
    have h2 := chunkBytes_pos (orderOf (chunkBytes k))
    rw [chunkBytes_succ] at h1
    omega
  · have := hleast k hgt
    omega

/-- The order of a free: larger blocks than the largest are taken for one of these. -/
def freeOrder (size : Nat) : Nat := if orderOf size > 10 then 10 else orderOf size

theorem freeOrder_le (size : Nat) : freeOrder size ≤ 10 := by
  unfold freeOrder
  split <;> omega

theorem freeOrder_eq {size : Nat} (hs : size ≤ chunkBytes 10) : freeOrder size = orderOf size :=
  if_neg (by have := (orderOf_spec hs).2.1; omega)

/-! ## The calls -/

theorem kallocLoop_returns {order : Nat} (hp : Packed (Usable L) h.free own) (hw : Writes L h R) :
    ∀ {n idx : Nat} {s : KState}, Ready s → Rep L s.mem base np h → order ≤ idx → idx + n = 11 →
      ∃ m', Returns L (kallocLoop order n idx) s
          (Heap.alloc (pairPos base np) order n idx h).1 m' ∧
        Rep L m' base np (Heap.alloc (pairPos base np) order n idx h).2 ∧ OnlyIn R s.mem m'
  | 0, _, s, _, hr, _, _ => ⟨s.mem, Returns.pure 0, hr, OnlyIn.refl _⟩
  | n + 1, idx, s, hs, hr, hle, hn => by
    unfold kallocLoop Heap.alloc
    cases hl : h.free idx with
    | nil =>
      have hsec : Returns L (locked .buddyLock (popSection idx order)) s 0 s.mem :=
        Edits.locked hs.free (popSection_empty order (by omega) hr hl)
      obtain ⟨s₁, hrun, hmem, hq⟩ := hsec
      obtain ⟨m', hret, hr', ho⟩ := kallocLoop_returns hp hw (hs.quiet hq)
        (by rw [hmem]; exact hr) (show order ≤ idx + 1 by omega) (show idx + 1 + n = 11 by omega)
      rw [hmem] at ho
      refine ⟨m', ?_, hr', ho⟩
      obtain ⟨s₂, hrun₂, hmem₂, hq₂⟩ := hret
      refine ⟨s₂, ?_, hmem₂, hq.trans hq₂⟩
      rw [K.bind_ok hrun, if_pos rfl]
      exact hrun₂
    | cons c l =>
      obtain ⟨m₁, hedit, hr₁, ho₁⟩ := popSection_writes hs.view (by omega) hle hr hp hl hw
      obtain ⟨s₁, hrun, hmem, hq⟩ := Edits.locked hs.free hedit
      rw [← hmem] at hr₁ ho₁
      obtain ⟨m₂, hret, hr₂, ho₂⟩ := toggleBitmap_writes (c := c) (hs.quiet hq)
        (show order ≤ 10 by omega) hr₁ hw.byte
      obtain ⟨s₂, hrun₂, hmem₂, hq₂⟩ := hret
      have hc0 : c ≠ 0 := by
        have hlink := (hr.lists idx (by omega)).2
        rw [hl] at hlink
        exact hlink.1
      refine ⟨m₂, ⟨s₂, ?_, hmem₂, hq.trans hq₂⟩, hr₂, ho₁.trans ho₂⟩
      rw [K.bind_ok hrun, if_neg hc0, K.bind_ok hrun₂]
      rfl

/-- **`buddy_kalloc` returns, and computes `Heap.alloc`** on the heap that memory holds. It writes
the metadata and free blocks. -/
theorem buddyKalloc_writes {s : KState} {sz : Nat} (hs : Ready s) (hsz : sz ≤ chunkBytes 10)
    (hr : Rep L s.mem base np h) (hp : Packed (Usable L) h.free own) (hw : Writes L h R) :
    ∃ m', Returns L (buddyKalloc sz) s
        (Heap.alloc (pairPos base np) (orderOf sz) (11 - orderOf sz) (orderOf sz) h).1 m' ∧
      Rep L m' base np
        (Heap.alloc (pairPos base np) (orderOf sz) (11 - orderOf sz) (orderOf sz) h).2 ∧
            OnlyIn R s.mem m' := by
  have h10 := (orderOf_spec hsz).2.1
  obtain ⟨m', hret, hr', ho⟩ := kallocLoop_returns hp hw hs hr (Nat.le_refl _)
    (show orderOf sz + (11 - orderOf sz) = 11 by omega)
  refine ⟨m', ?_, hr', ho⟩
  refine Returns.bind_edits (Edits.of_eq (fun s => rfl)) ?_
  refine Returns.bind_edits (selectOrder_edits (le_of_four_mb hsz)) ?_
  refine Returns.bind_edits (Edits.load (image_metadata L) hr.maxOrder) ?_
  rw [if_neg (by omega)]
  exact hret

theorem buddyKalloc_returns {s : KState} {sz : Nat} (hs : Ready s) (hsz : sz ≤ chunkBytes 10)
    (hr : Rep L s.mem base np h) (hp : Packed (Usable L) h.free own) :
    ∃ m', Returns L (buddyKalloc sz) s
        (Heap.alloc (pairPos base np) (orderOf sz) (11 - orderOf sz) (orderOf sz) h).1 m' ∧
      Rep L m' base np
        (Heap.alloc (pairPos base np) (orderOf sz) (11 - orderOf sz) (orderOf sz) h).2 := by
  obtain ⟨m', hret, hrep, -⟩ := buddyKalloc_writes hs hsz hr hp writes_all
  exact ⟨m', hret, hrep⟩

/-- A loop that gets to a shift of 64 bits does not return. -/
theorem orderLoop_none {sz : Nat} (hsz : 2 ^ 63 < sz) : ∀ fuel k, orderLoop sz fuel k = none
  | 0, _ => rfl
  | fuel + 1, k => by
    have hle : 2 ^ k * pageSize % 2 ^ 64 ≤ 2 ^ 63 := by
      have hpow : 2 ^ k * pageSize = 2 ^ (12 + k) := chunkBytes_eq k
      rw [hpow]
      by_cases hk : 12 + k < 64
      · exact (Nat.mod_le _ _).trans (Nat.pow_le_pow_right (by omega) (by omega))
      · rw [Nat.mod_eq_zero_of_dvd (Nat.pow_dvd_pow 2 (by omega))]
        omega
    unfold orderLoop
    rw [if_pos (by omega)]
    exact orderLoop_none hsz fuel (k + 1)

/-- A request for more than 4MB gets nothing. -/
theorem buddyKalloc_larger {sz : Nat} {s : KState} (hr : Rep L s.mem base np h)
    (hgt : chunkBytes 10 < sz) (h63 : sz ≤ 2 ^ 63) : buddyKalloc sz L s = .ok (0, s) := by
  have hsel := (orderOf_some h63).2.1
  have h10 : 10 < orderOf sz := by
    by_contra hle
    have := chunkBytes_le (show orderOf sz ≤ 10 by omega)
    omega
  unfold buddyKalloc
  rw [K.bind_ok (kernelEnd_apply L s), K.bind_ok (selectOrder_edits h63 s rfl rfl),
    K.bind_ok (Edits.load (image_metadata L) hr.maxOrder s rfl rfl), if_pos h10]
  rfl

theorem selectOrder_stop {sz : Nat} {s : KState} (hsz : 2 ^ 63 < sz) :
    selectOrder sz L s = .error .shift := by
  unfold selectOrder
  rw [orderLoop_none hsz]
  rfl

theorem buddyKalloc_stop {sz : Nat} {s : KState} (hsz : 2 ^ 63 < sz) :
    buddyKalloc sz L s = .error .shift := by
  unfold buddyKalloc
  rw [K.bind_ok (kernelEnd_apply L s), K.bind_apply, selectOrder_stop hsz]

/-- A request that gets a block is one of at most 4MB. -/
theorem buddyKalloc_le {sz p : Nat} {s s₁ : KState} (hr : Rep L s.mem base np h)
    (hrun : buddyKalloc sz L s = .ok (p, s₁)) (hp : p ≠ 0) : sz ≤ chunkBytes 10 := by
  by_contra hgt
  by_cases h63 : sz ≤ 2 ^ 63
  · rw [buddyKalloc_larger hr (by omega) h63] at hrun
    exact hp (Prod.mk.inj (Except.ok.inj hrun)).1.symm
  · rw [buddyKalloc_stop (by omega)] at hrun
    exact absurd hrun (by simp)

theorem Writes.flip (hw : Writes L h R) (p : Nat) :
    Writes L (h.flip p) R := ⟨hw.head, hw.byte, hw.free⟩

/-- The block a merge makes is of two blocks of `R`. -/
theorem Writes.parent {c k : Nat} (hw : Writes L h R) (hk : k ≤ 10) (hdvd : chunkBytes k ∣ c)
    (hon : sibling c k ∈ h.free k) (hc : ∀ a, c ≤ a → a < c + chunkBytes k → R a) :
    ∀ a, parent c k ≤ a → a < parent c k + chunkBytes (k + 1) → R a := by
  intro a h1 h2
  have hsib := hw.free k hk _ hon
  rw [chunkBytes_succ] at h2
  rcases pair_cases hdvd with ⟨h3, h4, -⟩ | ⟨h3, h4, -⟩
  all_goals
    by_cases ha : c ≤ a ∧ a < c + chunkBytes k
    · exact hc a ha.1 ha.2
    · exact hsib a (by omega) (by omega)

theorem mergeLoop_writes :
    ∀ {n c k : Nat} {s : KState} {h : Heap}, Ready s → Rep L s.mem base np h →
      Packed (Usable L) h.free (⟨c, k⟩ ::ₘ own) → k + n = 10 →
      MergeSound (pairPos base np) (fun j a => a ∈ h.free j) n h.bit c k →
      Writes L h R → (∀ a, c ≤ a → a < c + chunkBytes k → R a) →
      ∃ m', Returns L (mergeLoop n c k) s
          ((Heap.merge (pairPos base np) n c k h).1.addr,
            (Heap.merge (pairPos base np) n c k h).1.order) m' ∧
        Rep L m' base np (Heap.merge (pairPos base np) n c k h).2 ∧ OnlyIn R s.mem m' ∧
        Writes L (Heap.merge (pairPos base np) n c k h).2 R ∧
        R (Heap.merge (pairPos base np) n c k h).1.addr
  | 0, c, k, s, _, _, hr, _, _, _, hw, hc =>
    ⟨s.mem, Returns.pure _, hr, OnlyIn.refl _, hw,
      hc c (Nat.le_refl c) (Nat.lt_add_of_pos_right (chunkBytes_pos k))⟩
  | n + 1, c, k, s, h, hs, hr, hp, hn, hsound, hw, hc => by
    obtain ⟨m₁, hret, hr₁, ho₁⟩ := toggleBitmap_writes (c := c) hs (show k ≤ 10 by omega) hr hw.byte
    obtain ⟨s₁, hrun, hmem, hq⟩ := hret
    unfold mergeLoop Heap.merge
    rw [← hmem] at hr₁
    by_cases hbit : h.bit (pairPos base np c k) = false
    · refine ⟨m₁, ⟨s₁, ?_, hmem, hq⟩, ?_⟩
      · rw [K.bind_ok hrun, if_pos (by simp [hbit]), if_pos hbit]
        rfl
      · rw [if_pos hbit]
        exact ⟨hmem ▸ hr₁, ho₁, hw.flip _,
          hc c (Nat.le_refl c) (Nat.lt_add_of_pos_right (chunkBytes_pos k))⟩
    · rw [if_neg hbit]
      have htrue : h.bit (pairPos base np c k) = true := by simpa using hbit
      obtain ⟨hon, hrest⟩ := hsound htrue
      have hs₁ := hs.quiet hq
      -- the sibling leaves its list and is joined with the block in hand
      have hedit := unlinkSection_edits (c := c) hs₁.view (show k ≤ 10 by omega) hr₁ hp hon
      have ho₂ := unlinkMem_only (R := R) (b := sibling c k) (show k ≤ 10 by omega) hr₁ hon
        (hw.head k (by omega))
        (fun a ha => hw.block (by omega) ha)
      obtain ⟨s₂, hrun₂, hmem₂, hq₂⟩ := Edits.locked hs₁.free hedit
      have hr₂ := hr₁.unlink (show k ≤ 10 by omega) hp hon
      rw [← hmem₂] at hr₂ ho₂
      have htake := hp.take (by omega) hon
      rw [Multiset.cons_swap] at htake
      have hjoin : Packed (Usable L)
          ((h.flip (pairPos base np c k)).drop k (sibling c k)).free
          (⟨parent c k, k + 1⟩ ::ₘ own) := htake.join (by omega)
      have hsound' : MergeSound (pairPos base np)
          (fun j a => a ∈ ((h.flip (pairPos base np c k)).drop k (sibling c k)).free j) n
          ((h.flip (pairPos base np c k)).drop k (sibling c k)).bit (parent c k) (k + 1) := by
        refine hrest.mono (fun j a hj _ ha => ?_)
        show a ∈ Function.update h.free k ((h.free k).erase (sibling c k)) j
        rwa [Function.update_of_ne (by omega)]
      obtain ⟨m₃, hret₃, hr₃, ho₃, hw₃, hR₃⟩ :=
        mergeLoop_writes (hs₁.quiet hq₂) hr₂ hjoin (by omega) hsound' ((hw.flip _).drop k _)
          (hw.parent (by omega) (hp.aligned ⟨c, k⟩ (by simp)).2 hon hc)
      obtain ⟨s₃, hrun₃, hmem₃, hq₃⟩ := hret₃
      refine ⟨m₃, ⟨s₃, ?_, hmem₃, (hq.trans hq₂).trans hq₃⟩, hr₃,
        (hmem ▸ ho₁).trans (ho₂.trans ho₃), hw₃, hR₃⟩
      rw [K.bind_ok hrun, if_neg (by simp [htrue])]
      exact (K.bind_ok hrun₂).trans hrun₃

/-- The merge loop and the insertion after it. -/
theorem mergeInsert_writes {s : KState} {c k : Nat} (hs : Ready s)
    (hk : k ≤ 10) (hr : Rep L s.mem base np h)
    (hp : Packed (Usable L) h.free (⟨c, k⟩ ::ₘ own))
    (hsound : MergeSound (pairPos base np) (fun j a => a ∈ h.free j) (10 - k) h.bit c k)
    (hw : Writes L h R) (hc : ∀ a, c ≤ a → a < c + chunkBytes k → R a) :
    ∃ m', Returns L (do
        let joined ← mergeLoop (10 - k) c k
        locked .buddyLock (insertSection joined.1 joined.2)) s () m' ∧
      Rep L m' base np
        ((Heap.merge (pairPos base np) (10 - k) c k h).2.push
          (Heap.merge (pairPos base np) (10 - k) c k h).1.order
          (Heap.merge (pairPos base np) (10 - k) c k h).1.addr) ∧ OnlyIn R s.mem m' := by
  obtain ⟨m₁, ⟨s₁, hrun, hmem, hq⟩, hr₁, ho₁, hw₁, hR₁⟩ :=
    mergeLoop_writes hs hr hp (by omega) hsound hw hc
  have hp₁ := hp.merge (by omega) hsound
  have hs₁ := hs.quiet hq
  have h10 : (Heap.merge (pairPos base np) (10 - k) c k h).1.order ≤ 10 :=
    Heap.merge_order.2.trans (by omega)
  rw [← hmem] at hr₁ ho₁
  obtain ⟨m₂, hedit, hr₂, ho₂⟩ := pushHead_writes hs₁.view h10 hr₁ hp₁ (hw₁.head _ h10) hR₁
    (fun a ha => hw₁.block h10 ha)
  have hins : Edits L s₁.physMapOffset (insertSection
      (Heap.merge (pairPos base np) (10 - k) c k h).1.addr
      (Heap.merge (pairPos base np) (10 - k) c k h).1.order) s₁.mem () m₂ := by
    refine Edits.bind (Edits.of_eq (fun s => rfl)) ?_
    exact Edits.bind (Edits.load (image_metadata L) hr₁.freeListsPtr) hedit
  obtain ⟨s₂, hrun₂, hmem₂, hq₂⟩ := Edits.locked hs₁.free hins
  exact ⟨m₂, ⟨s₂, (K.bind_ok hrun).trans hrun₂, hmem₂, hq.trans hq₂⟩, hr₂, ho₁.trans ho₂⟩

/-- `buddy_kfree` of an owned block returns, for every size the order loop gets to the end of. -/
theorem buddyKfree_writes {s : KState} {c sz : Nat} (hs : Ready s) (hsz0 : sz ≠ 0)
    (hsz : sz ≤ 2 ^ 63) (hr : Rep L s.mem base np h)
    (hp : Packed (Usable L) h.free (⟨c, freeOrder sz⟩ ::ₘ own))
    (hsound : MergeSound (pairPos base np) (fun j a => a ∈ h.free j) (10 - freeOrder sz) h.bit c
      (freeOrder sz)) (hw : Writes L h R) (hc : ∀ a, c ≤ a → a < c + chunkBytes (freeOrder sz) →
        R a) :
    ∃ m', Returns L (buddyKfree c sz) s () m' ∧
      Rep L m' base np (Heap.release (pairPos base np) c (freeOrder sz) h) ∧ OnlyIn R s.mem m' := by
  have h10 := freeOrder_le sz
  have hc0 : c ≠ 0 := (hp.usable (c := ⟨c, freeOrder sz⟩) (by simp)).1
  have hnot : ¬ (c = 0 ∨ sz = 0) := by rintro (h0 | h0) <;> contradiction
  unfold buddyKfree Heap.release
  rw [if_neg hnot]
  by_cases he : freeOrder sz = 10
  · -- the loop does not run, its toggle is made before it
    rw [if_pos he]
    obtain ⟨m₁, ⟨s₁, hrun, hmem, hq⟩, hr₁, ho₁⟩ := toggleBitmap_writes (c := c) hs h10 hr hw.byte
    have hsound₁ : MergeSound (pairPos base np)
        (fun j a => a ∈ (h.flip (pairPos base np c (freeOrder sz))).free j) (10 - freeOrder sz)
        (h.flip (pairPos base np c (freeOrder sz))).bit c (freeOrder sz) := by
      rw [he]
      trivial
    rw [← hmem] at hr₁ ho₁
    obtain ⟨m₂, ⟨s₂, hrun₂, hmem₂, hq₂⟩, hr₂, ho₂⟩ :=
      mergeInsert_writes (hs.quiet hq) h10 hr₁ hp hsound₁ (hw.flip _) hc
    refine ⟨m₂, ?_, hr₂, ho₁.trans ho₂⟩
    refine Returns.bind_edits (Edits.of_eq (fun s => rfl)) ?_
    refine Returns.bind_edits (selectOrder_edits hsz) ?_
    refine Returns.bind_edits (Edits.load (image_metadata L) hr.maxOrder) ?_
    refine ⟨s₂, ?_, hmem₂, hq.trans hq₂⟩
    show (do
      if freeOrder sz = 10 then do
        let _ ← toggleBitmap c (freeOrder sz)
      let joined ← mergeLoop (10 - freeOrder sz) c (freeOrder sz)
      locked .buddyLock (insertSection joined.1 joined.2) : K Unit) L s = _
    rw [if_pos he, K.bind_ok hrun]
    exact hrun₂
  · rw [if_neg he]
    obtain ⟨m₂, hret, hr₂, ho₂⟩ := mergeInsert_writes hs h10 hr hp hsound hw hc
    refine ⟨m₂, ?_, hr₂, ho₂⟩
    refine Returns.bind_edits (Edits.of_eq (fun s => rfl)) ?_
    refine Returns.bind_edits (selectOrder_edits hsz) ?_
    refine Returns.bind_edits (Edits.load (image_metadata L) hr.maxOrder) ?_
    show Returns L (do
      if freeOrder sz = 10 then do
        let _ ← toggleBitmap c (freeOrder sz)
      let joined ← mergeLoop (10 - freeOrder sz) c (freeOrder sz)
      locked .buddyLock (insertSection joined.1 joined.2) : K Unit) s () m₂
    rw [if_neg he]
    exact hret

theorem buddyKfree_frees {s : KState} {c sz : Nat} (hs : Ready s) (hsz0 : sz ≠ 0)
    (hsz : sz ≤ 2 ^ 63) (hr : Rep L s.mem base np h)
    (hp : Packed (Usable L) h.free (⟨c, freeOrder sz⟩ ::ₘ own))
    (hsound : MergeSound (pairPos base np) (fun j a => a ∈ h.free j) (10 - freeOrder sz) h.bit c
      (freeOrder sz)) :
    ∃ m', Returns L (buddyKfree c sz) s () m' ∧
      Rep L m' base np (Heap.release (pairPos base np) c (freeOrder sz) h) := by
  obtain ⟨m', hret, hrep, -⟩ :=
    buddyKfree_writes hs hsz0 hsz hr hp hsound writes_all (fun _ _ _ => trivial)
  exact ⟨m', hret, hrep⟩

/-- **`buddy_kfree` of an owned block returns, and computes `Heap.release`**, when the merges it
decides on are sound. -/
theorem buddyKfree_returns {s : KState} {c sz : Nat} (hs : Ready s)
    (hsz0 : sz ≠ 0) (hsz : sz ≤ chunkBytes 10) (hr : Rep L s.mem base np h)
    (hp : Packed (Usable L) h.free (⟨c, orderOf sz⟩ ::ₘ own))
    (hsound : MergeSound (pairPos base np) (fun j a => a ∈ h.free j) (10 - orderOf sz) h.bit c
      (orderOf sz)) :
    ∃ m', Returns L (buddyKfree c sz) s () m' ∧
      Rep L m' base np (Heap.release (pairPos base np) c (orderOf sz) h) := by
  rw [← freeOrder_eq hsz] at hp hsound ⊢
  exact buddyKfree_frees hs hsz0 (le_of_four_mb hsz) hr hp hsound

end Buddy
end MikroKernel
