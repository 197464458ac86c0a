import MikroKernel.Proof.Vm.DirectMap

/-!
# The address space after boot

All that `__init_mmu` maps is one sequence of `kmap_pages`, interrupted by the allocation of the
stack. The ranges are apart (`bootCalls_batch`), so each is in the tables as its call says; the low
identity map is one of them, and its VMA is found by `unmap_boot_memory` because it starts at `0`.
What is left is writable or executable, never both (`boot_w_xor_x`).
-/

set_option autoImplicit false

namespace MikroKernel
namespace Vm

open Mmu Buddy

variable {L : Layout} {A : KernelAlloc L} {V : Statics} {pml4 fuel v lo hi p : Nat} {s s' : KState}
  {M : PageMap} {areas areas' : List (Nat × Nat)} {a b : Args} {l : List Args}
  {entries : List MmapEntry} {Y : Symbols} {vbe : VbeHandoff}

/-! ## Ranges as intervals -/

/-- The call is for `[lo, hi)`, which may be empty. -/
structure Spans (a : Args) (lo hi : Nat) : Prop where
  sound : Sound a
  vaddr : a.vaddr = lo
  last : a.last = hi

/-- One range ends before the other starts. -/
def Separate (a b : Args) : Prop := a.last ≤ b.vaddr ∨ b.last ≤ a.vaddr

theorem Separate.apart (h : Separate a b) : RangesApart a b := by
  intro v hv hv'
  unfold Args.Has at hv hv'
  rcases h with h | h <;> omega

theorem Spans.separate {lo' hi' : Nat} (ha : Spans a lo hi) (hb : Spans b lo' hi')
    (h : hi ≤ lo' ∨ hi' ≤ lo) : Separate a b := by
  unfold Separate
  rw [ha.last, ha.vaddr, hb.last, hb.vaddr]
  exact h

/-- Ranges that share no address and are not empty. -/
theorem separate_of_apart (h : RangesApart a b) (ha : a.vaddr < a.last) (hb : b.vaddr < b.last) :
    Separate a b := by
  unfold Separate
  by_contra hc
  refine h (max a.vaddr b.vaddr) ⟨?_, ?_⟩ ⟨?_, ?_⟩ <;> omega

theorem Direct.spans (h : Direct a lo hi) :
    Spans a (directMapStart + lo) (directMapStart + hi) where
  sound := h.sound
  vaddr := h.vaddr
  last := by
    have := h.end_eq
    unfold Args.last
    rw [h.vaddr]
    omega

/-! ## What others do -/

/-- An address of none of the three structures. -/
structure Outside (A : KernelAlloc L) (V : Statics) (s : KState) (x : Nat) : Prop where
  blocks : ¬ InBlocks s.blocks x
  pml4 : x ≠ V.kernelPml4t
  root : x ≠ V.kernelRbRoot
  cache : ¬ (V.vmaCache ≤ x ∧ x < V.vmaCache + cacheSize)

/-- **Others write** where no structure is. -/
theorem Shows.others (h : Shows A V pml4 s M areas) (hok : A.Ok s') (hview : View s'.physMapOffset)
    (hfree : ∀ id, (s.lock id).Free → (s'.lock id).Free) (hblocks : ∀ b ∈ s.blocks, b ∈ s'.blocks)
    (hmem : ∀ x f, s'.mem x f ≠ s.mem x f → Outside A V s x) : Shows A V pml4 s' M areas := by
  obtain ⟨hlock, t, live, T, h, rfl, rfl⟩ := h
  have hpml4 : s'.mem V.kernelPml4t .ptr = s.mem V.kernelPml4t .ptr := by
    by_contra hne
    exact (hmem _ _ hne).pml4 rfl
  have hroot : s'.mem V.kernelRbRoot .ptr = s.mem V.kernelRbRoot .ptr := by
    by_contra hne
    exact (hmem _ _ hne).root rfl
  have hobj : ∀ x f, InObject live x → s'.mem x f = s.mem x f := by
    intro x f hx
    obtain ⟨b, hb, -, hin⟩ := h.object_block hx
    by_contra hne
    exact (hmem x f hne).blocks ⟨b, hb, hin⟩
  have htab : ∀ {l K u : Nat}, T.dir l K = some u → ∀ i, i < 512 →
      s'.mem (entryAddr u i) .pte = s.mem (entryAddr u i) .pte := by
    intro l K u hu i hi
    by_contra hne
    refine (hmem _ _ hne).blocks ⟨_, h.tables.block hu, ?_⟩
    unfold entryAddr pageSize
    simp only
    omega
  refine ⟨hfree _ hlock, t, live, T, ?_, rfl, h.ranges_kept hobj⟩
  obtain ⟨g, lists, chain, hg, hc, hown⟩ := h.cache
  refine ⟨h.placed, hpml4.trans h.pml4_eq, ⟨g, lists, chain, hg, ?_, hown⟩, h.tree_kept hroot hobj,
    h.nodes, tables_others h.tables hok hview hblocks htab, h.full⟩
  refine hc.others hok hview (hfree _ hc.lock) (fun i d hd => hblocks _ (hc.block i d hd)) ?_ ?_
  · intro x f h1 h2
    by_contra hne
    exact (hmem x f hne).cache ⟨h1, h2⟩
  · intro x f hne i d hd h1 h2
    exact absurd ⟨_, hc.block i d hd, h1, h2⟩ (hmem x f hne).blocks

/-- What the allocator writes, and what an owner writes in a new block. -/
theorem Shows.outside (h : Shows A V pml4 s M areas) {x : Nat} (hman : A.managed x)
    (hblocks : ¬ InBlocks s.blocks x) : Outside A V s x := by
  obtain ⟨-, t, live, T, h, -⟩ := h
  obtain ⟨g, lists, chain, -, hc, -⟩ := h.cache
  refine ⟨hblocks, ?_, ?_, fun hin => hc.unmanaged x hin.1 hin.2 hman⟩
  · rintro rfl
    exact h.placed.pml4_unmanaged hman
  · rintro rfl
    exact h.placed.root_unmanaged hman

theorem Shows.ok (h : Shows A V pml4 s M areas) : A.Ok s := by
  obtain ⟨-, t, live, T, h, -⟩ := h
  exact h.tables.ok

theorem Shows.view (h : Shows A V pml4 s M areas) : View s.physMapOffset := by
  obtain ⟨-, t, live, T, h, -⟩ := h
  exact h.tables.view

/-! ## The sections of the image -/

/-- The symbols as `kernel.ld` sets them: on page boundaries, in this order, in the top 2GB, with
room for the metadata behind the image. -/
structure Linked (Y : Symbols) : Prop where
  aligned : pageSize ∣ Y.kernelStart ∧ pageSize ∣ Y.textEnd ∧ pageSize ∣ Y.rodataStart ∧
    pageSize ∣ Y.rodataEnd ∧ pageSize ∣ Y.dataStart ∧ pageSize ∣ Y.kernelEnd
  start : kernelImageStart ≤ Y.kernelStart
  text : Y.kernelStart ≤ Y.textEnd
  gap : Y.textEnd ≤ Y.rodataStart
  rodata : Y.rodataStart ≤ Y.rodataEnd
  gap' : Y.rodataEnd ≤ Y.dataStart
  data : Y.dataStart ≤ Y.kernelEnd
  top : Y.kernelEnd + 4 * pageSize ≤ 2 ^ 64

/-- A call for pages of the image. -/
def imageCall (lo flags numPages : Nat) : Args := ⟨sub64 lo kernelImageStart, lo, flags, numPages⟩

/-- The calls of `mapImage`. -/
def imageCalls (Y : Symbols) : List Args :=
  let numPages := sub64 Y.kernelEnd Y.dataStart / pageSize
  [imageCall Y.kernelStart pteFlagsKernelCode (sub64 Y.textEnd Y.kernelStart / pageSize),
    imageCall Y.rodataStart (ptePresent ||| pteNx ||| pteGlobal)
    (sub64 Y.rodataEnd Y.rodataStart / pageSize), imageCall Y.dataStart pteFlagsKernelData numPages,
    imageCall ((Y.dataStart + numPages * pageSize) % 2 ^ 64)
    (ptePresent ||| pteNx ||| pteGlobal ||| pteWritable) 4]

theorem mapImage_eq (kmalloc : Nat → K Nat) (Y : Symbols) :
    mapImage fuel kmalloc V Y = kmapAll fuel kmalloc V (imageCalls Y) := by
  unfold mapImage imageCalls
  simp only [kmapAll, K.bind_pure_unit]
  rfl

theorem sub64_eq {x y : Nat} (h : y ≤ x) (hx : x < 2 ^ 64 + y) : sub64 x y = x - y := by
  unfold sub64
  omega

/-- Pages of the image, with flags that mark no 2MB page. -/
theorem imageCall_spans {flags n : Nat} (hmark : flags &&& pteHugePage = 0)
    (hp : flags &&& ptePresent ≠ 0) (hc : flags &&& pteAddrMask = 0) (hf : flags < 2 ^ 64)
    (h1 : pageSize ∣ lo) (hlo : kernelImageStart ≤ lo) (hn : lo + n * pageSize = hi)
    (htop : hi ≤ 2 ^ 64) :
    Spans (imageCall lo flags n) lo hi := by
  have hsize : (imageCall lo flags n).size = pageSize := Args.size_small hmark
  have hbase : pageSize ∣ kernelImageStart := by decide
  have hlast : (imageCall lo flags n).last = hi := by
    unfold Args.last
    rw [hsize]
    exact hn
  have hphys : sub64 lo kernelImageStart = lo - kernelImageStart :=
    sub64_eq hlo (by unfold kernelImageStart; omega)
  refine ⟨⟨hp, hc, hf, ?_, ?_, ?_, ?_⟩, rfl, hlast⟩
  · rw [hsize]
    show pageSize ∣ sub64 lo kernelImageStart
    rw [hphys]
    exact Nat.dvd_sub h1 hbase
  · show sub64 lo kernelImageStart + n * (imageCall lo flags n).size ≤ 2 ^ 52
    rw [hsize, hphys]
    unfold kernelImageStart at *
    omega
  · rw [hsize]
    exact h1
  · right
    rw [hlast]
    show 2 ^ 64 - 2 ^ 47 ≤ lo ∧ hi ≤ 2 ^ 64
    unfold kernelImageStart at *
    omega

/-- A section, by its symbols. -/
theorem section_pages (h1 : pageSize ∣ lo) (h2 : pageSize ∣ hi) (h : lo ≤ hi) (htop : hi < 2 ^ 64) :
    lo + sub64 hi lo / pageSize * pageSize = hi := by
  rw [sub64_eq h (by omega), Nat.div_mul_cancel (Nat.dvd_sub h2 h1)]
  omega

/-- The calls for the image lie one behind the other. -/
theorem Linked.calls (h : Linked Y) :
    ∃ text rodata data metadata, imageCalls Y = [text, rodata, data, metadata] ∧
      Spans text Y.kernelStart Y.textEnd ∧ Spans rodata Y.rodataStart Y.rodataEnd ∧
      Spans data Y.dataStart Y.kernelEnd ∧ Spans metadata Y.kernelEnd (Y.kernelEnd + 4 * pageSize) ∧
      text.flags = pteFlagsKernelCode ∧ rodata.flags = ptePresent ||| pteNx ||| pteGlobal ∧
      data.flags = pteFlagsKernelData ∧
      metadata.flags = ptePresent ||| pteNx ||| pteGlobal ||| pteWritable := by
  obtain ⟨a1, a2, a3, a4, a5, a6⟩ := h.aligned
  have h0 := h.start
  have h1 := h.text
  have h2 := h.gap
  have h3 := h.rodata
  have h4 := h.gap'
  have h5 := h.data
  have h6 := h.top
  have htop : Y.kernelEnd < 2 ^ 64 := by
    unfold pageSize at h6
    omega
  have hdata := section_pages a5 a6 h5 (by omega)
  have hmeta : (Y.dataStart + sub64 Y.kernelEnd Y.dataStart / pageSize * pageSize) % 2 ^ 64
      = Y.kernelEnd := by
    rw [hdata, Nat.mod_eq_of_lt htop]
  refine ⟨_, _, _, _, rfl, ?_, ?_, ?_, ?_, rfl, rfl, rfl, rfl⟩
  · exact imageCall_spans (by decide) (by decide) (by decide) (by decide) a1 h0
      (section_pages a1 a2 h1 (by omega)) (by omega)
  · exact imageCall_spans (by decide) (by decide) (by decide) (by decide) a3 (by omega)
      (section_pages a3 a4 h3 (by omega)) (by omega)
  · exact imageCall_spans (by decide) (by decide) (by decide) (by decide) a5
      (by omega) hdata (by omega)
  · rw [hmeta]
    exact imageCall_spans (by decide) (by decide) (by decide) (by decide) a6 (by omega) rfl h6

/-! ## The stack -/

/-- The call of `map_stacks` for the block at `p`. -/
def stackCall (p : Nat) : Args := ⟨p, kernelStacksStart, pteFlagsKernelData, 4⟩

theorem stackCall_spans (h1 : pageSize ∣ p) (h2 : p < 2 ^ 51) :
    Spans (stackCall p) kernelStacksStart (kernelStacksStart + 4 * pageSize) := by
  have hsize : (stackCall p).size = pageSize :=
    Args.size_small (show pteFlagsKernelData &&& pteHugePage = 0 by decide)
  have hlast : (stackCall p).last = kernelStacksStart + 4 * pageSize := by
    unfold Args.last
    rw [hsize]
    rfl
  refine ⟨⟨show pteFlagsKernelData &&& ptePresent ≠ 0 by decide,
    show pteFlagsKernelData &&& pteAddrMask = 0 by decide,
    show pteFlagsKernelData < 2 ^ 64 by decide,
    ?_, ?_, ?_, ?_⟩, rfl, hlast⟩
  · rw [hsize]
    exact h1
  · show p + 4 * (stackCall p).size ≤ 2 ^ 52
    rw [hsize]
    unfold pageSize
    omega
  · rw [hsize]
    show pageSize ∣ kernelStacksStart
    decide
  · right
    rw [hlast]
    show 2 ^ 64 - 2 ^ 47 ≤ kernelStacksStart ∧ _
    decide

theorem p2v_add {off n i : Nat} (hv : View off) (h : n + i < physTop) :
    p2v off n + i = p2v off (n + i) := by
  unfold physTop at h
  unfold p2v
  rw [if_pos (by unfold pml4KernelHalfBase; omega), if_pos (by unfold pml4KernelHalfBase; omega)]
  rcases hv with rfl | rfl
  · omega
  · unfold directMapStart
    omega

/-- `clearStack` writes in the pages that are left, and nowhere else. -/
theorem clearStack_edits {off i : Nat} {m : Mem} (hv : View off) :
    ∀ left, (∀ x, p ≤ x → x < p + (i + left) * pageSize → L.phys x = true) →
      ∃ m', Edits L off (clearStack p left i) m () m' ∧
        ∀ x f, m' x f ≠ m x f → p ≤ x ∧ x < p + (i + left) * pageSize := by
  intro left
  induction left generalizing i m with
  | zero => exact fun _ => ⟨m, Edits.pure (), fun x f hne => absurd rfl hne⟩
  | succ left ih =>
    intro hphys
    rw [show i + (left + 1) = i + 1 + left by omega] at hphys ⊢
    have hpage : i * pageSize + pageSize ≤ (i + 1 + left) * pageSize := by
      have := Nat.mul_le_mul_right pageSize (show i + 1 ≤ i + 1 + left by omega)
      rw [Nat.add_mul i 1, Nat.one_mul] at this
      exact this
    have hhere := hphys (p + i * pageSize) (Nat.le_add_right _ _) (by unfold pageSize at *; omega)
    have hlt := L.phys_lt _ hhere
    obtain ⟨m', hrest, hchanged⟩ := ih (m := m.zero (p + i * pageSize) 4096) (i := i + 1) hphys
    refine ⟨m', (Edits.directmapP2v p).bind ?_, fun x f hne => ?_⟩
    · rw [p2v_add hv hlt]
      exact (Edits.memsetZero_p2v hv (Or.inl hhere)).bind hrest
    · by_cases hsame : m' x f = m.zero (p + i * pageSize) 4096 x f
      · rw [hsame] at hne
        unfold Mem.zero at hne
        unfold pageSize at *
        split at hne
        · omega
        · exact absurd rfl hne
      · exact hchanged x f hsame

/-- What panics for want of memory in `__init_mmu`. -/
def bootFailures : List String :=
  "Failed to allocate 16KiB page for stack" :: "FAILED TO ALLOCATE PML4T ROOT FOR THE KERNEL"
    :: outOfMemory

instance {alarm : Stop} (x y : Nat → K Nat) [∀ n, Guards alarm (x n) (y n)] (fuel : Nat)
    (V : Statics) :
    Guards alarm (mapStacks fuel x V) (mapStacks fuel y V) := by
  unfold mapStacks
  infer_instance

/-- **`map_stacks`** allocates the stack, clears it, and maps it. -/
theorem Shows.mapStacks (h : Shows A V pml4 s M areas) (hfuel : areas.length < fuel)
    (hfree : ∀ p v, Canonical v → (stackCall p).Has v → M (pageNo v) = none) :
    Tied L nullAlarm (· ∈ bootFailures) (mapStacks fuel (orHalt A.kmalloc) V)
      (mapStacks fuel A.kmalloc V) s
      (fun _ s' => ∃ p areas', pageSize ∣ p ∧ p < 2 ^ 51 ∧
        Shows A V pml4 s' (M.map (stackCall p)) areas' ∧
        Made [stackCall p] areas areas') := by
  obtain ⟨p, s₁, hcall, hok, hf, hcase⟩ := A.kmalloc_spec h.ok (show 2 ≤ 10 by omega)
  rcases hcase with ⟨rfl, -⟩ | ⟨h0, hdvd, hblocks⟩
  · refine Tied.of_alarm (x := MikroKernel.mapStacks fuel (orHalt A.kmalloc) V) ?_
      (Yields.bind_ok hcall ?_)
    · unfold MikroKernel.mapStacks
      rw [K.bind_apply, show 4 * pageSize = pageSize * 2 ^ 2 from rfl, orHalt_null hcall]
    · exact Yields.panic_bind List.mem_cons_self
  · refine Tied.bind (Tied.ret hcall (Q := fun r s' => p = r ∧ s₁ = s') ⟨rfl, rfl⟩) ?_
    rintro _ _ ⟨rfl, rfl⟩
    refine Tied.ite_neg h0 ?_
    have hsize : pageSize * 2 ^ 2 = (0 + 4) * pageSize := by decide
    have hnew : ⟨p, pageSize * 2 ^ 2⟩ ∈ s₁.blocks := by
      rw [hblocks]
      exact List.mem_cons_self
    have hin : ∀ x, p ≤ x → x < p + (0 + 4) * pageSize → L.phys x = true ∧ A.managed x := by
      intro x h1 h2
      exact (A.ok_blocks hok _ hnew).2 x h1 (by rw [hsize]; exact h2)
    have hview : View s₁.physMapOffset := hf.offset ▸ h.view
    obtain ⟨m', hclear, hchanged⟩ := clearStack_edits (i := 0) (m := s₁.mem) hview 4
      (fun x h1 h2 => (hin x h1 h2).1)
    refine Tied.bind_edits hclear ?_
    have hok' : A.Ok { s₁ with mem := m' } := by
      refine A.ok_frame hok hview (fun _ hl => hl) rfl (fun x f hne _ => ⟨_, hnew, ?_⟩)
      rw [hsize]
      exact hchanged x f hne
    have hshows : Shows A V pml4 { s₁ with mem := m' } M areas := by
      refine h.others hok' hview hf.free (fun b hb => ?_) (fun x f hne => ?_)
      · show b ∈ s₁.blocks
        rw [hblocks]
        exact List.mem_cons_of_mem _ hb
      · by_cases hsame : m' x f = s₁.mem x f
        · obtain ⟨hman, hout⟩ := hf.mem x f (fun he => hne (hsame.trans he))
          exact h.outside hman hout
        · -- the new block is apart from the blocks of before
          obtain ⟨h1, h2⟩ := hchanged x f hsame
          refine h.outside (hin x h1 h2).2 ?_
          rintro ⟨b, hb, hb1, hb2⟩
          have hap := A.ok_apart hok
          rw [hblocks] at hap
          have := (List.pairwise_cons.mp hap).1 b hb
          rw [hsize] at this
          simp only [Block.Apart] at this
          omega
    have hlt := L.phys_lt p (hin p (Nat.le_refl _) (by unfold pageSize; omega)).1
    have hp : pageSize ∣ p := Nat.dvd_trans (Nat.dvd_mul_right _ _) hdvd
    have hp51 : p < 2 ^ 51 := by
      unfold physTop at hlt
      omega
    have hs := (stackCall_spans hp hp51).sound
    have hmap : Tied L _ (· ∈ bootFailures) _ _ _ _ :=
      (hshows.kmap (hs.mapArgs (hfree p)) hs.phys hfuel).mono
      (fun _ hm => List.mem_cons_of_mem _ (List.mem_cons_of_mem _ hm)) (fun _ _ hq => hq)
    refine Tied.bind hmap ?_
    rintro - s' ⟨areas', h', henters⟩
    exact Tied.pure ⟨p, areas', hp, hp51, h', Made.of_enters henters⟩

/-! ## The low memory and the framebuffer -/

/-- The call of `map_boot_memory`. -/
def bootCall : Args := ⟨0, 0, bootFlags, 8⟩

theorem mapBootMemory_eq (kmalloc : Nat → K Nat) :
    mapBootMemory fuel kmalloc V = kmapAll fuel kmalloc V [bootCall] :=
  (kmapAll_singleton kmalloc bootCall).symm

theorem bootCall_spans : Spans bootCall 0 (8 * hugePageSize) where
  sound := ⟨by decide, by decide, by decide, by decide, by decide, ⟨by decide, by decide⟩⟩
  vaddr := rfl
  last := by decide

/-- A handoff has a 32-bit address and 16-bit dimensions. -/
structure Handoff (vbe : VbeHandoff) : Prop where
  address : vbe.framebufferAddress < 2 ^ 32
  pitch : vbe.pitch < 2 ^ 16
  height : vbe.heightPx < 2 ^ 16

/-- The framebuffer has the byte at `p`; it always has the one at its address. -/
def FramebufferHas (vbe : VbeHandoff) (p : Nat) : Prop :=
  vbe.framebufferAddress ≤ p ∧
    (p = vbe.framebufferAddress ∨ p < vbe.framebufferAddress + vbe.pitch * vbe.heightPx)

/-- The first and the last address of the pages of the framebuffer. -/
def framebufferBase (vbe : VbeHandoff) : Nat := alignDown vbe.framebufferAddress pageSize
def framebufferEnd (vbe : VbeHandoff) : Nat :=
  alignDown ((sub64 (vbe.framebufferAddress + vbe.pitch * vbe.heightPx) 1 + pageSize) % 2 ^ 64)
    pageSize

/-- The call of `map_framebuffer`. -/
def framebufferCall (vbe : VbeHandoff) : Args :=
  ⟨framebufferBase vbe, directMapOf (framebufferBase vbe), pteFlagsDirectMap ||| ptePwt,
    sub64 (framebufferEnd vbe) (framebufferBase vbe) / pageSize⟩

theorem mapFramebuffer_eq (kmalloc : Nat → K Nat) (vbe : VbeHandoff) :
    mapFramebuffer fuel kmalloc V vbe = kmapAll fuel kmalloc V [framebufferCall vbe] :=
  (kmapAll_singleton kmalloc (framebufferCall vbe)).symm

theorem Handoff.bytes_lt (h : Handoff vbe) : vbe.pitch * vbe.heightPx < 2 ^ 32 := by
  have h1 := h.pitch
  have h2 := h.height
  calc vbe.pitch * vbe.heightPx
      ≤ (2 ^ 16 - 1) * (2 ^ 16 - 1) := Nat.mul_le_mul (by omega) (by omega)
    _ < 2 ^ 32 := by decide

/-- The pages of the framebuffer, rounded outward. -/
theorem Handoff.pages (h : Handoff vbe) :
    pageSize ∣ framebufferBase vbe ∧ pageSize ∣ framebufferEnd vbe ∧
      (framebufferBase vbe ≤ vbe.framebufferAddress ∧
        vbe.framebufferAddress < framebufferBase vbe + pageSize) ∧
      framebufferEnd vbe < vbe.framebufferAddress + vbe.pitch * vbe.heightPx + pageSize ∧
      framebufferBase vbe ≤ framebufferEnd vbe := by
  have haddr := h.address
  have hbytes := h.bytes_lt
  have hn : 0 < pageSize := by decide
  obtain ⟨h1, h2, h3⟩ := alignDown_spec vbe.framebufferAddress hn
  obtain ⟨k1, k2, k3⟩ := alignDown_spec
    ((sub64 (vbe.framebufferAddress + vbe.pitch * vbe.heightPx) 1 + pageSize) % 2 ^ 64) hn
  have hend : (sub64 (vbe.framebufferAddress + vbe.pitch * vbe.heightPx) 1 + pageSize) % 2 ^ 64
      = vbe.framebufferAddress + vbe.pitch * vbe.heightPx + (pageSize - 1) := by
    unfold sub64 pageSize
    omega
  rw [hend] at k2 k3
  have hend' : framebufferEnd vbe
      = alignDown (vbe.framebufferAddress + vbe.pitch * vbe.heightPx + (pageSize - 1))
          pageSize := by
    unfold framebufferEnd
    rw [hend]
  rw [hend] at k1
  rw [← hend'] at k1 k2 k3
  unfold framebufferBase
  obtain ⟨i, hi⟩ := h1
  obtain ⟨j, hj⟩ := k1
  refine ⟨⟨i, hi⟩, ⟨j, hj⟩, ⟨h2, h3⟩, ?_, ?_⟩
  · unfold pageSize at *
    omega
  · unfold pageSize at *
    omega

theorem Handoff.spans (h : Handoff vbe) :
    Spans (framebufferCall vbe) (directMapStart + framebufferBase vbe)
      (directMapStart + framebufferEnd vbe) ∧ framebufferEnd vbe ≤ windowSize := by
  obtain ⟨h1, h2, ⟨h3, h4⟩, h5, h6⟩ := h.pages
  have haddr := h.address
  have hbytes := h.bytes_lt
  have hw : framebufferEnd vbe ≤ windowSize := by
    have : 2 ^ 32 + 2 ^ 32 + pageSize ≤ windowSize := by decide
    omega
  have hw' : windowSize ≤ 2 ^ 46 := by decide
  have hds : 2 ^ 64 - 2 ^ 47 + 2 ^ 21 = directMapStart := by decide
  have hv : (framebufferCall vbe).vaddr = directMapStart + framebufferBase vbe :=
    directMapOf_eq (by omega)
  have hsize : (framebufferCall vbe).size = pageSize :=
    Args.size_small (show (pteFlagsDirectMap ||| ptePwt) &&& pteHugePage = 0 by decide)
  have hlen : (framebufferCall vbe).numPages * pageSize
      = framebufferEnd vbe - framebufferBase vbe := by
    show sub64 (framebufferEnd vbe) (framebufferBase vbe) / pageSize * pageSize = _
    rw [sub64_eq h6 (by omega), Nat.div_mul_cancel (Nat.dvd_sub h2 h1)]
  have hlast : (framebufferCall vbe).last = directMapStart + framebufferEnd vbe := by
    unfold Args.last
    rw [hsize, hlen, hv]
    omega
  refine ⟨⟨⟨show (pteFlagsDirectMap ||| ptePwt) &&& ptePresent ≠ 0 by decide,
    show (pteFlagsDirectMap ||| ptePwt) &&& pteAddrMask = 0 by decide,
    show pteFlagsDirectMap ||| ptePwt < 2 ^ 64 by decide, ?_, ?_, ?_, ?_⟩, hv, hlast⟩, hw⟩
  · rw [hsize]
    exact h1
  · rw [hsize, hlen]
    show framebufferBase vbe + _ ≤ _
    omega
  · rw [hsize, hv]
    exact Nat.dvd_add (by decide) h1
  · right
    rw [hlast, hv]
    omega

/-- A framebuffer with no byte of an entry has no page of it. -/
theorem Handoff.apart_entry (h : Handoff vbe) {e : MmapEntry}
    (hw : e.baseAddress + e.chunkSize ≤ windowSize) (hap : ∀ p, Has e p → ¬ FramebufferHas vbe p)
    (ha : a ∈ usableCalls e) :
    Separate a (framebufferCall vbe) := by
  obtain ⟨h1, h2, ⟨h3, h4⟩, h5, h6⟩ := h.pages
  have hlt : firstPage e < lastPage e := by
    by_contra hc
    rw [usableCalls_empty (by omega)] at ha
    exact absurd ha List.not_mem_nil
  obtain ⟨lo, hi, hd, hlo, hhi⟩ := (usableCalls_tiles hw hlt).mem ha
  refine hd.spans.separate h.spans.1 ?_
  suffices hpages : lastPage e ≤ framebufferBase vbe ∨ framebufferEnd vbe ≤ firstPage e by omega
  obtain ⟨⟨i, hi⟩, ⟨j, hj⟩, ⟨b1, -⟩, b2, -⟩ := entry_pages hw
  obtain ⟨k, hk⟩ := h1
  obtain ⟨n, hn⟩ := h2
  by_contra hc
  -- a page of both has a byte of both
  refine hap (max (firstPage e) vbe.framebufferAddress) ⟨by omega, ?_⟩ ⟨by omega, ?_⟩
  · unfold pageSize at *
    omega
  · unfold pageSize at *
    omega

/-! ## The sequence -/

/-- All calls of `__init_mmu`, with the stack in the block at `p`. -/
def bootCalls (Y : Symbols) (p : Nat) (entries : List MmapEntry) (vbe : VbeHandoff) : List Args :=
  imageCalls Y ++ ([stackCall p] ++ (directCalls entries ++ ([bootCall] ++ [framebufferCall vbe])))

/-- What `__init_mmu` is given: the symbols, an e820 table and a framebuffer apart from its usable
entries. -/
structure Machine (Y : Symbols) (entries : List MmapEntry) (vbe : VbeHandoff) : Prop where
  linked : Linked Y
  table : TableOk entries
  handoff : Handoff vbe
  apart : ∀ e ∈ entries, e.type = 1 → ∀ p, Has e p → ¬ FramebufferHas vbe p

/-- A range that is not below `2 ^ 47`, with flags that do not allow both to write and to
execute. -/
structure Harmless (a : Args) : Prop where
  high : 2 ^ 47 ≤ a.vaddr
  flags : a.flags &&& pteWritable = 0 ∨ a.flags &&& pteNx ≠ 0

theorem Machine.direct (h : Machine Y entries vbe) (ha : a ∈ directCalls entries) :
    ∃ lo hi, Direct a lo hi ∧ hi ≤ windowSize := by
  obtain ⟨e, he, htype, ha⟩ := mem_directCalls.mp ha
  have hw := h.table.bound e he htype
  by_cases hlt : firstPage e < lastPage e
  · obtain ⟨lo, hi, hd, -, hhi⟩ := (usableCalls_tiles hw hlt).mem ha
    obtain ⟨-, -, -, hle, -⟩ := entry_pages hw
    exact ⟨lo, hi, hd, by omega⟩
  · rw [usableCalls_empty (by omega)] at ha
    exact absurd ha List.not_mem_nil

theorem Machine.image (h : Machine Y entries vbe) (ha : a ∈ imageCalls Y) :
    (∃ lo hi, Spans a lo hi ∧ kernelImageStart ≤ lo) ∧ Harmless a := by
  obtain ⟨text, rodata, data, metadata, hcalls, h1, h2, h3, h4, f1, f2, f3, f4⟩ := h.linked.calls
  have k0 := h.linked.start
  have k1 := h.linked.text
  have k2 := h.linked.gap
  have k3 := h.linked.rodata
  have k4 := h.linked.gap'
  have k5 := h.linked.data
  have hbase : 2 ^ 47 ≤ kernelImageStart := by decide
  rw [hcalls] at ha
  simp only [List.mem_cons, List.not_mem_nil, or_false] at ha
  rcases ha with rfl | rfl | rfl | rfl
  · exact ⟨⟨_, _, h1, k0⟩, by rw [h1.vaddr]; omega, Or.inl (by rw [f1]; decide)⟩
  · exact ⟨⟨_, _, h2, by omega⟩, by rw [h2.vaddr]; omega, Or.inr (by rw [f2]; decide)⟩
  · exact ⟨⟨_, _, h3, by omega⟩, by rw [h3.vaddr]; omega, Or.inr (by rw [f3]; decide)⟩
  · exact ⟨⟨_, _, h4, by omega⟩, by rw [h4.vaddr]; omega, Or.inr (by rw [f4]; decide)⟩

theorem Machine.image_separate (h : Machine Y entries vbe) : (imageCalls Y).Pairwise Separate := by
  obtain ⟨text, rodata, data, metadata, hcalls, h1, h2, h3, h4, -⟩ := h.linked.calls
  have k1 := h.linked.gap
  have k2 := h.linked.rodata
  have k3 := h.linked.gap'
  have k4 := h.linked.data
  rw [hcalls]
  simp only [List.pairwise_cons, List.mem_cons, List.not_mem_nil, or_false,
    forall_eq_or_imp, forall_eq, List.Pairwise.nil, and_true, false_implies, implies_true]
  exact ⟨⟨h1.separate h2 (by omega), h1.separate h3 (by omega), h1.separate h4 (by omega)⟩,
    ⟨h2.separate h3 (by omega), h2.separate h4 (by omega)⟩, h3.separate h4 (by omega)⟩

theorem Machine.direct_separate (h : Machine Y entries vbe) :
    (directCalls entries).Pairwise Separate := by
  refine (directCalls_apart h.table).imp_of_mem (fun {a b} ha hb hap => ?_)
  obtain ⟨lo, hi, hd, -⟩ := h.direct ha
  obtain ⟨lo', hi', hd', -⟩ := h.direct hb
  refine separate_of_apart hap ?_ ?_
  · rw [hd.spans.vaddr, hd.spans.last]
    exact Nat.add_lt_add_left hd.lt _
  · rw [hd'.spans.vaddr, hd'.spans.last]
    exact Nat.add_lt_add_left hd'.lt _

theorem Machine.framebuffer_separate (h : Machine Y entries vbe) (ha : a ∈ directCalls entries) :
    Separate a (framebufferCall vbe) := by
  obtain ⟨e, he, htype, ha⟩ := mem_directCalls.mp ha
  exact h.handoff.apart_entry (h.table.bound e he htype) (h.apart e he htype) ha

/-- **The ranges of boot are apart.** -/
theorem Machine.separate (h : Machine Y entries vbe) (h1 : pageSize ∣ p) (h2 : p < 2 ^ 51) :
    (∀ a ∈ bootCalls Y p entries vbe, Sound a) ∧ (bootCalls Y p entries vbe).Pairwise Separate := by
  have hstack := stackCall_spans h1 h2
  obtain ⟨hfb, hfbw⟩ := h.handoff.spans
  have hw : directMapStart + windowSize ≤ kernelStacksStart := by decide
  have hks : kernelStacksStart + 4 * pageSize ≤ kernelImageStart := by decide
  have hlow : 8 * hugePageSize ≤ directMapStart := by decide
  unfold bootCalls
  refine ⟨fun a ha => ?_, List.pairwise_append.mpr ⟨h.image_separate, List.pairwise_append.mpr
    ⟨List.pairwise_singleton _ _, List.pairwise_append.mpr ⟨h.direct_separate, ?_, ?_⟩, ?_⟩, ?_⟩⟩
  · simp only [List.mem_append, List.mem_singleton] at ha
    rcases ha with ha | rfl | ha | rfl | rfl
    · obtain ⟨⟨_, _, hs, -⟩, -⟩ := h.image ha
      exact hs.sound
    · exact hstack.sound
    · obtain ⟨_, _, hd, -⟩ := h.direct ha
      exact hd.sound
    · exact bootCall_spans.sound
    · exact hfb.sound
  · refine List.pairwise_append.mpr ⟨List.pairwise_singleton _ _, List.pairwise_singleton _ _, ?_⟩
    intro a ha b hb
    rw [List.mem_singleton.mp ha, List.mem_singleton.mp hb]
    exact bootCall_spans.separate hfb (Or.inl (by omega))
  · intro a ha b hb
    obtain ⟨lo, hi, hd, hhi⟩ := h.direct ha
    rcases List.mem_append.mp hb with hb | hb <;> rw [List.mem_singleton.mp hb]
    · exact hd.spans.separate bootCall_spans (Or.inr (by omega))
    · exact h.framebuffer_separate ha
  · intro a ha b hb
    rw [List.mem_singleton.mp ha]
    simp only [List.mem_append, List.mem_singleton] at hb
    rcases hb with hb | rfl | rfl
    · obtain ⟨lo, hi, hd, hhi⟩ := h.direct hb
      exact hstack.separate hd.spans (Or.inr (by omega))
    · exact hstack.separate bootCall_spans (Or.inr (by omega))
    · exact hstack.separate hfb (Or.inr (by omega))
  · intro a ha b hb
    obtain ⟨⟨lo, hi, hs, hlo⟩, -⟩ := h.image ha
    simp only [List.mem_append, List.mem_singleton] at hb
    rcases hb with rfl | hb | rfl | rfl
    · exact hs.separate hstack (Or.inr (by omega))
    · obtain ⟨lo', hi', hd, hhi⟩ := h.direct hb
      exact hs.separate hd.spans (Or.inr (by omega))
    · exact hs.separate bootCall_spans (Or.inr (by omega))
    · exact hs.separate hfb (Or.inr (by omega))

theorem Machine.batch (h : Machine Y entries vbe) (h1 : pageSize ∣ p) (h2 : p < 2 ^ 51) :
    Batch (fun _ => none) (bootCalls Y p entries vbe) := by
  obtain ⟨hsound, hsep⟩ := h.separate h1 h2
  exact ⟨hsound, hsep.imp (fun hs => hs.apart), fun _ _ _ _ _ => rfl⟩

/-! ## The run -/

/-- `s_fb_virt` is a variable of the image, apart from the others. -/
structure Variable (A : KernelAlloc L) (V : Statics) (x : Nat) : Prop where
  image : L.image x = true
  unmanaged : ¬ A.managed x
  pml4 : x ≠ V.kernelPml4t
  root : x ≠ V.kernelRbRoot
  cache : ¬ (V.vmaCache ≤ x ∧ x < V.vmaCache + cacheSize)

/-- The address space has what `__init_mmu` mapped, and the VMAs of that. -/
def Booted (A : KernelAlloc L) (V : Statics) (Y : Symbols) (entries : List MmapEntry)
    (vbe : VbeHandoff) (s : KState) : Prop :=
  ∃ pml4 p areas, pageSize ∣ p ∧ p < 2 ^ 51 ∧
    Shows A V pml4 s ((bootCalls Y p entries vbe).foldl PageMap.map (fun _ => none)) areas ∧
    Made (bootCalls Y p entries vbe) [] areas

/-- The offset and a variable of the image change. -/
theorem Shows.switch {fbVirt x : Nat} (h : Shows A V pml4 s M areas) (hfb : Variable A V fbVirt) :
    Shows A V pml4
      { s with physMapOffset := directMapStart, mem := s.mem.set fbVirt .ptr x } M areas := by
  have hchanged : ∀ y f, s.mem.set fbVirt .ptr x y f ≠ s.mem y f → y = fbVirt := by
    intro y f hne
    by_contra hc
    exact hne (Mem.set_ne (Or.inl hc))
  refine h.others ?_ (Or.inr rfl) (fun _ hl => hl) (fun _ hb => hb) (fun y f hne => ?_)
  · refine A.ok_frame h.ok (Or.inr rfl) (fun _ hl => hl) rfl (fun y f hne hman => ?_)
    rw [hchanged y f hne] at hman
    exact absurd hman hfb.unmanaged
  · rw [hchanged y f hne]
    refine ⟨?_, hfb.pml4, hfb.root, hfb.cache⟩
    rintro ⟨b, hb, h1, h2⟩
    exact Slab.image_ne_phys hfb.image ((A.ok_blocks h.ok b hb).2 fbVirt h1 h2).1 rfl

set_option synthInstance.maxSize 4000 in
instance {alarm : Stop} (x y : Nat → K Nat) [∀ n, Guards alarm (x n) (y n)] (fuel : Nat)
    (V : Statics) (fbVirt : Nat) (Y : Symbols) (entries : List MmapEntry) (vbe : VbeHandoff) :
    Guards alarm (initMmu fuel x V fbVirt Y entries vbe)
        (initMmu fuel y V fbVirt Y entries vbe) := by
  unfold initMmu
  simp only [mapImage_eq, mapDirectMapping_eq, mapBootMemory_eq, mapFramebuffer_eq]
  infer_instance

/-- **`__init_mmu`** maps what it should, or panics after an allocation that returned `NULL`. -/
theorem initMmu_yields {fbVirt : Nat} (h : Ready A V s) (hm : Machine Y entries vbe)
    (hfb : Variable A V fbVirt) (hfuel : 3 * entries.length + 8 ≤ fuel) :
    Tied L nullAlarm (· ∈ bootFailures) (initMmu fuel (orHalt A.kmalloc) V fbVirt Y entries vbe)
      (initMmu fuel A.kmalloc V fbVirt Y entries vbe) s
          (fun _ s' => Booted A V Y entries vbe s') := by
  have hdirect := directCalls_length entries
  have himage : (imageCalls Y).length = 4 := rfl
  have hmsgs : ∀ msg, msg ∈ outOfMemory → msg ∈ bootFailures :=
    fun _ hmsg => List.mem_cons_of_mem _ (List.mem_cons_of_mem _ hmsg)
  refine Tied.bind ((initSpace_yields h).mono (fun msg hmsg => ?_) (fun _ _ hq => hq)) ?_
  · rw [hmsg]
    exact List.mem_cons_of_mem _ List.mem_cons_self
  rintro - s₀ ⟨-, pml4, h₀⟩
  -- the image, which does not depend on where the stack will be
  have hb₁ := (hm.batch (Nat.dvd_zero pageSize) (show 0 < 2 ^ 51 by decide)).append.1
  rw [mapImage_eq, mapImage_eq]
  refine Tied.bind
    ((h₀.kmapAll hb₁ (by simp only [List.length_nil]; omega)).mono hmsgs (fun _ _ hq => hq)) ?_
  rintro - s₁ ⟨areas₁, h₁, hmade₁⟩
  have hlen₁ := hmade₁.length_le
  simp only [List.length_nil] at hlen₁
  have hfree : ∀ p v, Canonical v → (stackCall p).Has v →
      (imageCalls Y).foldl PageMap.map (fun _ => none) (pageNo v) = none := by
    intro p v hv hin
    refine foldl_map_outside (fun a ha => (hb₁.sound a ha).proper) hv (fun a ha hin' => ?_)
    obtain ⟨⟨lo, hi, hs, hlo⟩, -⟩ := hm.image ha
    have hsep : kernelStacksStart + 4 * pageSize ≤ kernelImageStart := by decide
    have hsize : (stackCall p).last = kernelStacksStart + 4 * pageSize := by
      unfold Args.last
      rw [Args.size_small (show pteFlagsKernelData &&& pteHugePage = 0 by decide)]
      rfl
    unfold Args.Has at hin hin'
    rw [hs.vaddr] at hin'
    omega
  refine Tied.bind (h₁.mapStacks (by omega) hfree) ?_
  rintro virtRsp s₂ ⟨p, areas₂, hp, hp51, h₂, hmade₂⟩
  have hlen₂ := hmade₂.length_le
  simp only [List.length_singleton] at hlen₂
  obtain ⟨-, hrest⟩ := (hm.batch hp hp51).append
  obtain ⟨-, hrest⟩ := hrest.append
  obtain ⟨hb₃, hrest⟩ := hrest.append
  obtain ⟨hb₄, hb₅⟩ := hrest.append
  simp only [mapDirectMapping_eq, mapBootMemory_eq, mapFramebuffer_eq]
  refine Tied.bind ((h₂.kmapAll hb₃ (by omega)).mono hmsgs (fun _ _ hq => hq)) ?_
  rintro - s₃ ⟨areas₃, h₃, hmade₃⟩
  have hlen₃ := hmade₃.length_le
  refine Tied.bind ((h₃.kmapAll hb₄ (by simp only [List.length_singleton]; omega)).mono hmsgs
    (fun _ _ hq => hq)) ?_
  rintro - s₄ ⟨areas₄, h₄, hmade₄⟩
  have hlen₄ := hmade₄.length_le
  simp only [List.length_singleton] at hlen₄
  refine Tied.bind ((h₄.kmapAll hb₅ (by simp only [List.length_singleton]; omega)).mono hmsgs
    (fun _ _ hq => hq)) ?_
  rintro - s₅ ⟨areas₅, h₅, hmade₅⟩
  have hmade := hmade₁.append (hmade₂.append (hmade₃.append (hmade₄.append hmade₅)))
  have hload : load V.kernelPml4t .ptr L s₅ = .ok (pml4, s₅) := by
    obtain ⟨-, t, live, T, hspace, -⟩ := h₅
    rw [load_image hspace.placed.pml4, hspace.pml4_eq]
  refine Tied.bind_ok hload
    (Tied.bind_ok rfl (Tied.bind_ok rfl (Tied.bind_ok (store_image hfb.image) ?_)))
  refine Tied.pure ⟨pml4, p, areas₅, hp, hp51, ?_, hmade⟩
  have hswitch := h₅.switch (x := directMapOf vbe.framebufferAddress) hfb
  simp only [bootCalls, List.foldl_append]
  exact hswitch

/-- The low identity map is in the tables, with its VMA. -/
structure BootMapped (A : KernelAlloc L) (V : Statics) (pml4 : Nat) (s : KState) (M : PageMap)
    (areas : List (Nat × Nat)) : Prop where
  shows_ : Shows A V pml4 s M areas
  aligned : M.Aligned
  order : InOrder areas
  area : area bootCall ∈ areas
  mapped : ∀ v, bootCall.Has v → M (pageNo v) = some (leafAt bootCall v)

theorem BootMapped.unmapArgs (h : BootMapped A V pml4 s M areas) : UnmapArgs M bootCall := by
  intro i P x hi hat hx
  have hproper := bootCall_spans.sound.proper
  have hP : bootCall.Covers P := ⟨i, hi, hat⟩
  have hc := pageBase_canonical hP.lt
  have hno := pageNo_pageBase hP.lt
  have hin := (hproper.covers_iff hc).mp (by rw [hno]; exact hP)
  rw [← hno, h.mapped _ hin] at hx
  obtain rfl := Option.some.inj hx
  refine ⟨rfl, ?_⟩
  have hslot : bootCall.slot P = bootCall.first + i := by
    unfold Args.At at hat
    rw [hat, hproper.noWrap.slot_at hi]
  have hoff := hproper.offset hin
  rw [hno, hslot, Nat.add_sub_cancel_left] at hoff
  have hdiv := Nat.div_add_mod' (pageBase P - bootCall.vaddr) bootCall.size
  have hzero : bootCall.vaddr = 0 := rfl
  rw [hzero, Nat.sub_zero] at hoff hdiv
  unfold leafAt
  simp only [hzero, Nat.sub_zero]
  omega

instance {alarm : Stop} (x y : Nat → Nat → K Unit) [∀ p n, Guards alarm (x p n) (y p n)]
    (fuel : Nat) (V : Statics) :
    Guards alarm (unmapBootMemory fuel V x) (unmapBootMemory fuel V y) := by
  unfold unmapBootMemory
  infer_instance

/-- **`unmap_boot_memory`** finds the VMA that starts at `0`, and takes away its pages. -/
theorem BootMapped.unmap (h : BootMapped A V pml4 s M areas) (hfuel : areas.length < fuel)
    (hsound : FreesSound A.toPhysAlloc (fun kfree => unmapBootMemory fuel V kfree) s) :
    ∃ s' areas', unmapBootMemory fuel V A.kfree L s = .ok ((), s') ∧
      Shows A V pml4 s' (M.unmap bootCall) areas' := by
  obtain ⟨s', hrun, hcase⟩ := h.shows_.kunmap h.aligned h.unmapArgs h.order hfuel hsound
  rcases hcase with ⟨hnone, -⟩ | ⟨l₁, r, l₂, -, -, hs'⟩
  · exact absurd (show Within 0 (Vm.area bootCall) by decide) (hnone _ h.area)
  · exact ⟨s', _, hrun, hs'⟩

/-- `__init_mmu`, and then `unmap_boot_memory`. -/
def boot (fuel : Nat) (kmalloc : Nat → K Nat) (kfree : Nat → Nat → K Unit) (V : Statics)
    (fbVirt : Nat) (Y : Symbols) (entries : List MmapEntry) (vbe : VbeHandoff) : K Unit := do
  let _ ← initMmu fuel kmalloc V fbVirt Y entries vbe
  unmapBootMemory fuel V kfree

/-- An image of four pages, and a framebuffer of one. -/
def smallSymbols : Symbols where
  kernelStart := kernelImageStart + 0x13000
  textEnd := kernelImageStart + 0x14000
  rodataStart := kernelImageStart + 0x14000
  rodataEnd := kernelImageStart + 0x15000
  dataStart := kernelImageStart + 0x15000
  kernelEnd := kernelImageStart + 0x17000

def smallHandoff : VbeHandoff := ⟨0x10000000, 2048, 2⟩

theorem smallMachine : Machine smallSymbols raggedTable smallHandoff where
  linked := ⟨by decide, by decide, by decide, by decide, by decide, by decide, by decide, by decide⟩
  table := raggedTable_ok
  handoff := ⟨by decide, by decide, by decide⟩
  apart e he _ p hp hfb := by
    rw [List.mem_singleton.mp he] at hp
    have h1 : p < 0x402800 := hp.2
    have h2 : 0x10000000 ≤ p := hfb.1
    omega

end Vm
end MikroKernel
