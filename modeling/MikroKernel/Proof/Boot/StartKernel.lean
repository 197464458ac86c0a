import MikroKernel.Proof.Boot.Bss
import MikroKernel.Proof.Vm.Booted
import MikroKernel.Proof.Vm.Erased

/-!
# Boot, from uninitialised memory

Two results about `start_kernel` together. From two states that differ only in `.bss`, and agree
there on `kernel_rb_root` and `s_fb_virt`, it does the same (`startKernel_eq`). And from a state
with no tree it leaves the tree of what it mapped, with the real allocator under it
(`startKernel_yields`).
-/

set_option autoImplicit false

namespace MikroKernel
namespace Boot

open Vm Buddy Ghost

variable {L : Layout} {B : BootStatics} {I : BootInput} {s t : KState} {base size fuel : Nat}

/-- Beside `buddyAlloc`, `buddy_kalloc` runs the same. -/
instance (hm : Linkable L base size) (n : Nat) :
    Unaware erased L (buddyKalloc n) ((buddyAlloc L base size hm).kmalloc n) :=
  inferInstanceAs (Unaware erased L (buddyKalloc n) (recordedKalloc n))

/-! ## The allocators are ready -/

/-- Nothing is hidden, and there is no tree. -/
def noTree (B : BootStatics) : Mask where
  hidden _ _ := False
  loose _ := False
  held m := m B.kernelRbRoot .ptr = 0
  blocks b c := c = b

/-- The lists are known, too. -/
def noTreeYet (L : Layout) (B : BootStatics) : Mask :=
  { noTree B with
    held := fun m => m B.kernelRbRoot .ptr = 0 ∧
      m L.kernelEnd .freeListsPtr = L.kernelEnd + metadataSize }

/-- `__init_buddy` stores to no variable of `.bss`. -/
theorem initBuddy_root {s' : KState} (hB : InBss L B) (hroot : s.mem B.kernelRbRoot .ptr = 0)
    (hrun : initBuddy I.entries L s = .ok ((), s')) : s'.mem B.kernelRbRoot .ptr = 0 := by
  have hbare : Bare L B (noTree B) := ⟨fun _ _ h => absurd h id, fun _ _ _ heq hm => heq.trans hm⟩
  have hbare' : Bare L B (noTreeYet L B) :=
    ⟨fun _ _ h => absurd h id, fun _ _ hlists heq hm => ⟨heq.trans hm.1, hlists.trans hm.2⟩⟩
  have hopen := hbare.buddyOpen
  have hopen' := hbare'.buddyOpen
  have hlists := hbare'.lists hB (fun _ h => h.2)
  have hbehind := hbare'.behind hB
  have hinit : Alike L (Masked (noTree B)) (initBuddy I.entries) (initBuddy I.entries)
      (fun _ => Masked (noTreeYet L B)) :=
    alike_initBuddy I.entries rfl rfl (fun _ h => absurd h id)
      (fun m hm => ⟨(Mem.set_ne (Or.inr (by decide))).trans hm, Mem.set_self _ _ _ _⟩)
  have hstart : Masked (noTree B) s s :=
    ⟨fun _ _ _ => rfl, hroot, fun _ _ => rfl, rfl, rfl, rfl, rfl⟩
  obtain ⟨t', -, h⟩ := hinit.returned hstart hrun
  exact h.held.1

/-- `__init_slab` writes to its caches, and its lock is free. -/
theorem initSlab_ready (hB : InBss L B) (s : KState) :
    ∃ m, initSlab B.slabCaches L s
        = .ok (.ok, { s with lock := Function.update s.lock .slabLock Spinlock.init, mem := m }) ∧
      (∀ a f, m a f ≠ s.mem a f → B.slabCaches ≤ a ∧ a < B.slabCaches + cacheSize * 8) ∧
      m B.kernelRbRoot .ptr = s.mem B.kernelRbRoot .ptr := by
  obtain ⟨m, hedit, hframe, hspare, -⟩ := Slab.initSlabLoop_edits s.physMapOffset
    (m := s.mem) hB.caches
    (show 4 ≤ 4 by omega) (show 4 + 8 = 12 by omega)
  refine ⟨m, ?_, fun a f hne => ?_, hspare _ _ rfl⟩
  · rw [Slab.initSlab_eq]
    exact hedit _ rfl rfl
  · by_contra hout
    refine hne (hframe a f ?_)
    unfold slabCache
    omega

/-- **What `__init_mmu` needs** is there when the allocators are initialised. -/
theorem ready (hB : InBss L B) (hm : Linkable L base size) {m : Mem}
    (hbooked : Booked L base size { s with blocks := [] })
    (hframe : ∀ a f, m a f ≠ s.mem a f → B.slabCaches ≤ a ∧ a < B.slabCaches + cacheSize * 8)
    (hroot : m B.kernelRbRoot .ptr = 0) :
    Ready (buddyAlloc L base size hm) B.toStatics
      { s with
        lock := Function.update s.lock .slabLock Spinlock.init, mem := m, blocks := [] } := by
  have hout : ∀ {a}, L.image a = true → a < L.kernelEnd → ¬ Realm L base size a := by
    rintro a himg hlt (⟨hle, -⟩ | hlaid)
    · omega
    · exact phys_ne_image (hm.laid hlaid).2 himg rfl
  have hview : View s.physMapOffset := by
    obtain ⟨free, howned⟩ := hbooked.owned
    exact howned.ready.view
  refine ⟨hbooked.frame hm hview (fun hfree => ?_) rfl (fun a f hne hrealm => ?_), hview, ?_,
    ⟨hB.pml4, hB.root, hB.pml4_root, hout hB.pml4 hB.pml4_lt, hout hB.root hB.root_lt,
      hB.pml4_cache, hB.root_cache⟩, hB.vmaCache, fun a h1 h2 => ?_, hroot⟩
  · show (Function.update s.lock .slabLock Spinlock.init .buddyLock).Free
    rw [Function.update_of_ne (by decide)]
    exact hfree
  · obtain ⟨h1, h2⟩ := hframe a f hne
    have hle := hB.caches_le
    have himg := hB.caches (a - B.slabCaches) (by omega)
    rw [Nat.add_sub_cancel' h1] at himg
    exact absurd hrealm (hout himg (by omega))
  · show (Function.update s.lock .slabLock Spinlock.init .slabLock).Free
    rw [Function.update_self]
    rfl
  · have hle := hB.vmaCache_le
    have himg := hB.vmaCache (a - B.vmaCache) (by omega)
    rw [Nat.add_sub_cancel' h1] at himg
    exact hout himg (by omega)

theorem variable_fb (hB : InBss L B) (hm : Linkable L base size) :
    Variable (buddyAlloc L base size hm) B.toStatics B.fbVirt := by
  refine ⟨hB.fb, ?_, hB.fb_pml4, hB.fb_root, hB.fb_cache⟩
  rintro (⟨hle, -⟩ | hlaid)
  · have := hB.fb_lt
    omega
  · exact phys_ne_image (hm.laid hlaid).2 hB.fb rfl

/-! ## What boot leaves -/

/-- The tables have what `__init_mmu` mapped, with the stack at some `p`, and the tree has the VMAs
of that. -/
def Mapped (L : Layout) (B : BootStatics) (I : BootInput) (m : Mem) : Prop :=
  ∃ p tree, Rb.IsTree L B.kernelRbRoot (startOrder m) m tree ∧
    Made (bootCalls I.symbols p I.entries I.vbe.toVbeHandoff) [] (tree.toList.map (range m)) ∧
    ∀ v, Mmu.walk m (m B.kernelPml4t .ptr) v =
      (bootCalls I.symbols p I.entries I.vbe.toVbeHandoff).foldl Mmu.PageMap.map (fun _ => none)
        (Mmu.pageNo v)

theorem mapped_of_booted {A : KernelAlloc L}
    (h : Booted A B.toStatics I.symbols I.entries I.vbe.toVbeHandoff s) :
    Mapped L B I s.mem := by
  obtain ⟨pml4, p, areas, -, -, hshows, hmade⟩ := h
  have hwalk := hshows.walk_eq
  obtain ⟨-, tree, live, T, hspace, -, hareas⟩ := hshows
  refine ⟨p, tree, hspace.tree, hareas ▸ hmade, fun v => ?_⟩
  rw [show s.mem B.kernelPml4t .ptr = pml4 from hspace.pml4_eq]
  exact hwalk v

/-- `__init_phys_kmalloc` does what the two allocators do, and prints. -/
theorem initPhysKmalloc_returns {s₁ s₂ : KState} (hB : InBss L B)
    (hbuddy : initBuddy I.entries L s = .ok ((), s₁)) (hslab : initSlab B.slabCaches L s₁
      = .ok (.ok, s₂)) : ∃ shown, initPhysKmalloc B I L s = .ok (shown, s₂) := by
  obtain ⟨table, htable⟩ :=
    Draws.returns I.vbe (vesaPrintMmap I.font B.fbVirt I.vbe I.entries 0 17 0) hB.fb s
  obtain ⟨line₁, hline₁⟩ :=
    Draws.returns I.vbe (println B I "Initialized buddy allocation..." 1 0) hB.fb s₁
  obtain ⟨line₂, hline₂⟩ :=
    Draws.returns I.vbe (println B I "Initialized slab allocator caches..." 2 0) hB.fb s₂
  obtain ⟨line₃, hline₃⟩ :=
    Draws.returns I.vbe (println B I "Allocator initialisation success" 3 0) hB.fb s₂
  have h₁ : initBuddyShown B I L s = .ok (table ++ line₁, s₁) := by
    unfold initBuddyShown
    rw [K.bind_ok htable, K.bind_ok hbuddy, K.bind_ok hline₁]
    rfl
  have h₂ : initSlabShown B I L s₁ = .ok ((.ok, line₂), s₂) := by
    unfold initSlabShown
    rw [K.bind_ok hslab, if_pos rfl, K.bind_ok hline₂]
    rfl
  refine ⟨table ++ line₁ ++ line₂ ++ line₃, ?_⟩
  unfold initPhysKmalloc
  rw [K.bind_ok h₁, K.bind_ok h₂]
  have hok : ¬ (Status.ok, line₂).1 ≠ Status.ok := fun h => h rfl
  rw [if_neg hok]
  exact K.bind_ok hline₃

/-- `__init_mmu` over `buddy_kalloc`: the run with books, and from it the run without. -/
theorem initMmu_mapped (hB : InBss L B) (hM : Machine I.symbols I.entries I.vbe.toVbeHandoff)
    (hm : Linkable L base size)
    (h : Ready (buddyAlloc L base size hm) B.toStatics { s with blocks := [] })
    (hfuel : 3 * I.entries.length + 8 ≤ fuel) :
    Tied L nullAlarm (· ∈ bootFailures)
      (initMmu fuel (orHalt buddyKalloc) B.toStatics B.fbVirt I.symbols I.entries
        I.vbe.toVbeHandoff)
      (initMmu fuel buddyKalloc B.toStatics B.fbVirt I.symbols I.entries I.vbe.toVbeHandoff) s
      (fun _ s' => Mapped L B I s'.mem) := by
  have hbooks := initMmu_yields h hM (variable_fb hB hm) hfuel
  have hmasked : Masked erased s { s with blocks := [] } :=
    ⟨fun _ _ _ => rfl, trivial, fun _ _ => rfl, rfl, rfl, rfl, trivial⟩
  refine (Ghost.tied hmasked hbooks).mono (fun _ h => h) ?_
  rintro a s' ⟨t', hbooted, hmem⟩
  rw [← hmem]
  exact mapped_of_booted hbooted

/-- **Boot maps what it should**, where `kernel_rb_root` happens to be `NULL`, or panics after an
allocation that returned `NULL`. -/
theorem startKernel_yields (hB : InBss L B) (hM : Machine I.symbols I.entries I.vbe.toVbeHandoff)
    (hrange : managedRange L.kernelEnd I.entries = (base, size))
    (hphys : ∀ p, base ≤ p → p < base + size % 2 ^ 54 → L.phys p = true) (hv : View s.physMapOffset)
    (hroot : s.mem B.kernelRbRoot .ptr = 0) (hfuel : 3 * I.entries.length + 8 ≤ fuel) :
    Tied L nullAlarm (· ∈ bootFailures) (startKernel B I (orHalt buddyKalloc) fuel)
      (startKernel B I buddyKalloc fuel) s (fun _ s' => Mapped L B I s'.mem) := by
  have hm := linkable_of_range hrange hphys
  obtain ⟨s₁, hbuddy, hbooked⟩ := initBuddy_booked hrange hphys hv
  obtain ⟨m, hslab, hframe, hroot'⟩ := initSlab_ready hB s₁
  obtain ⟨hello, hhello⟩ := Draws.returns I.vbe (khello B I) hB.fb s
  obtain ⟨allocator, hallocator⟩ := initPhysKmalloc_returns hB hbuddy hslab
  have hready := ready hB hm hbooked hframe (hroot'.trans (initBuddy_root hB hroot hbuddy))
  unfold startKernel
  refine Tied.bind_ok hhello (Tied.bind_ok hallocator ?_)
  refine Tied.bind (initMmu_mapped hB hM hm hready hfuel) (fun rsp s' h => ?_)
  exact Tied.pure h

/-! ## Two boots -/

/-- **Boot and `.bss`**: two machines that differ in `.bss` boot alike, and to the right tree, if
`kernel_rb_root` is `NULL` in both and `s_fb_virt` the same, and such that `get_fb` is the
framebuffer. They write the same to the framebuffer only if it is in the same place for both. -/
theorem boot_of_bss (hB : InBss L B) (hM : Machine I.symbols I.entries I.vbe.toVbeHandoff)
    (hrange : managedRange L.kernelEnd I.entries = (base, size))
    (hphys : ∀ p, base ≤ p → p < base + size % 2 ^ 54 → L.phys p = true) (hv : View s.physMapOffset)
    (hfuel : 3 * I.entries.length + 8 ≤ fuel) (h : SameButBss B s t) :
    (s.mem B.kernelRbRoot .ptr = 0 → t.mem B.kernelRbRoot .ptr = 0 →
      framebuffer B.fbVirt I.vbe s.mem = I.vbe.framebufferAddress →
      t.mem B.fbVirt .ptr = s.mem B.fbVirt .ptr →
      startKernel B I buddyKalloc fuel L t = startKernel B I buddyKalloc fuel L s ∧
      Yields L (startKernel B I buddyKalloc fuel) s
        (fun msg => msg ∈ bootFailures ∧
          ReturnedNull L buddyKalloc (fun kmalloc => startKernel B I kmalloc fuel) s)
        (fun _ s' => Mapped L B I s'.mem)) ∧
    (0 < I.vbe.heightPx → 0 < I.vbe.widthPx → ∀ shown rsp rsp' s' t',
      startKernel B I buddyKalloc fuel L s = .ok ((shown, rsp), s') →
      startKernel B I buddyKalloc fuel L t = .ok ((shown, rsp'), t') →
      framebuffer B.fbVirt I.vbe t.mem % 2 ^ 64 = framebuffer B.fbVirt I.vbe s.mem % 2 ^ 64) := by
  refine ⟨fun hs ht _ hfb => ⟨?_, ?_⟩, fun hheight hwidth shown rsp rsp' s' t' hrun hrun' => ?_⟩
  · exact startKernel_eq hB h fuel (ht.trans hs.symm) hfb
  · exact startKernel_yields hB hM hrange hphys hv hs hfuel
  · have hfirst := startKernel_shows hB.fb hheight hwidth hrun
    have hfirst' := startKernel_shows hB.fb hheight hwidth hrun'
    rw [hfirst] at hfirst'
    exact congrArg Pixel.addr (Option.some.inj hfirst'.symm)

/-- The variables at the start of the image. -/
def smallBss : BootStatics where
  toStatics := smallStatics
  slabCaches := kernelImageStart + 0x100
  fbVirt := kernelImageStart + 0x1000

/-- 4MB of memory, and a screen of 512 by 2. -/
def smallInput : BootInput where
  font i := [0x36, 0x04, 0, 16].getD i 0
  symbols := smallSymbols
  entries := [⟨0x400000, 0x400000, 1⟩]
  vbe := ⟨smallHandoff, 512⟩

theorem smallLayout_image {x : Nat} (h1 : kernelImageStart ≤ x) (h2 : x < 0xFFFFFFFF80200000) :
    smallLayout.image x = true :=
  decide_eq_true ⟨h1, Nat.lt_of_lt_of_le h2 (Nat.le_add_right _ _)⟩

theorem smallBss_placed : InBss smallLayout smallBss where
  pml4 := by decide
  root := by decide
  fb := by decide
  caches i hi := by
    refine smallLayout_image ?_ ?_ <;> unfold smallBss kernelImageStart <;> simp only
    · omega
    · unfold cacheSize at hi
      omega
  vmaCache i hi := by
    refine smallLayout_image ?_ ?_ <;> unfold smallBss smallStatics kernelImageStart <;> simp only
    · omega
    · unfold cacheSize at hi
      omega
  pml4_lt := by decide
  root_lt := by decide
  fb_lt := by decide
  caches_le := by decide
  vmaCache_le := by decide
  pml4_root := by decide
  fb_pml4 := by decide
  fb_root := by decide
  pml4_cache := by decide
  root_cache := by decide
  fb_cache := by decide

theorem smallInput_machine :
    Machine smallInput.symbols smallInput.entries smallInput.vbe.toVbeHandoff where
  linked := smallMachine.linked
  table := by
    refine ⟨List.pairwise_singleton _ _, fun e he _ => ?_⟩
    rw [List.mem_singleton.mp he]
    decide
  handoff := smallMachine.handoff
  apart e he _ p hp hfb := by
    rw [List.mem_singleton.mp he] at hp
    have h1 : p < 0x800000 := hp.2
    have h2 : 0x10000000 ≤ p := hfb.1
    omega

theorem smallInput_range :
    managedRange smallLayout.kernelEnd smallInput.entries = (0x400000, 0x400000) := by
  decide

/-- RAM contained something where `kernel_pml4t` and the locks are. -/
def dirtyState : KState :=
  { bootState with
    mem := bootState.mem.set smallBss.kernelPml4t .ptr 0xDEAD000
    lock := fun _ => ⟨7, 0, 0, 0⟩ }

/-- Another place of `.bss` has another content. -/
def stored (a x : Nat) : KState := { bootState with mem := bootState.mem.set a .ptr x }

theorem SameButBss.of_set {a x : Nat} (h : Bss smallBss a .ptr) (lock : LockId → Spinlock) :
    SameButBss smallBss bootState
      { bootState with mem := bootState.mem.set a .ptr x, lock := lock } :=
  ⟨fun b f hb => Mem.set_ne (by by_contra hc; push Not at hc; exact hb (hc.1 ▸ hc.2 ▸ h)), rfl,
    rfl, rfl, rfl⟩

/-- A run on the small machine, for evaluation. -/
def returns (s : KState) : Bool :=
  (startKernel smallBss smallInput buddyKalloc 11 smallLayout s).toOption.isSome

theorem returns_iff {s : KState} : returns s = true ↔
    ∃ shown rsp s', startKernel smallBss smallInput buddyKalloc 11 smallLayout s
    = .ok ((shown, rsp), s') := by
  unfold returns
  cases startKernel smallBss smallInput buddyKalloc 11 smallLayout s with
  | error e => simp [Except.toOption]
  | ok q => exact ⟨fun _ => ⟨q.1.1, q.1.2, q.2, rfl⟩, fun _ => rfl⟩

theorem boot_of_bss_dirty : ∃ shown rsp s',
    startKernel smallBss smallInput buddyKalloc 11 smallLayout bootState = .ok ((shown, rsp), s') ∧
    startKernel smallBss smallInput buddyKalloc 11 smallLayout dirtyState = .ok ((shown, rsp), s') ∧
    Mapped smallLayout smallBss smallInput s'.mem := by
  obtain ⟨shown, rsp, s', hrun⟩ := returns_iff.mp (show returns bootState = true by decide +kernel)
  obtain ⟨heq, hyields⟩ := (boot_of_bss smallBss_placed smallInput_machine smallInput_range
    (fun p h1 h2 => decide_eq_true ⟨h1, h2⟩) (Or.inl rfl) (show 3 * 1 + 8 ≤ 11 by decide)
    (SameButBss.of_set (Or.inl ⟨rfl, Or.inr (Or.inl rfl)⟩) dirtyState.lock)).1 rfl rfl rfl rfl
  exact ⟨shown, rsp, s', hrun, heq.trans hrun, hyields.of_ok hrun⟩

/-- **Boot reads `.bss`**: from one `s_fb_virt` to another it writes elsewhere, and from a
`kernel_rb_root` that is no pointer it does not return. -/
theorem boot_reads_bss :
    (∃ t shown shown' rsp rsp' s' t', SameButBss smallBss bootState t ∧
      startKernel smallBss smallInput buddyKalloc 11 smallLayout bootState
      = .ok ((shown, rsp), s') ∧
      startKernel smallBss smallInput buddyKalloc 11 smallLayout t = .ok ((shown', rsp'), t') ∧
      shown ≠ shown') ∧
    ∃ t, SameButBss smallBss bootState t ∧
      ∀ r, startKernel smallBss smallInput buddyKalloc 11 smallLayout t ≠ .ok r := by
  obtain ⟨shown, rsp, s', hrun⟩ := returns_iff.mp (show returns bootState = true by decide +kernel)
  obtain ⟨shown', rsp', t', hrun'⟩ := returns_iff.mp
    (show returns (stored smallBss.fbVirt 0xB8000) = true by decide +kernel)
  refine ⟨⟨_, shown, shown', rsp, rsp', s', t', ?_, hrun, hrun', ?_⟩,
    stored smallBss.kernelRbRoot 0x1000, ?_, ?_⟩
  · exact SameButBss.of_set (Or.inl ⟨rfl, Or.inr (Or.inr rfl)⟩) _
  · rintro rfl
    have hfirst := startKernel_shows smallBss_placed.fb (by decide) (by decide) hrun
    have hfirst' := startKernel_shows smallBss_placed.fb (by decide) (by decide) hrun'
    rw [hfirst] at hfirst'
    exact absurd (congrArg Pixel.addr (Option.some.inj hfirst')) (by decide)
  · exact SameButBss.of_set (Or.inl ⟨rfl, Or.inl rfl⟩) _
  · rintro ⟨⟨shown, rsp⟩, s'⟩ hrun
    have hstops : returns (stored smallBss.kernelRbRoot 0x1000) = false := by decide +kernel
    rw [returns_iff.mpr ⟨shown, rsp, s', hrun⟩] at hstops
    exact absurd hstops (by decide)

end Boot
end MikroKernel
