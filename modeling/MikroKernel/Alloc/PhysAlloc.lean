import MikroKernel.Machine.Guard

/-!
# What the rest of the kernel relies on in the page allocator

`kmem_cache_grow` and the page-table code call the buddy allocator through two functions. What
they need of it is the usual contract, stated here once: an allocation of `2 ^ k` pages returns
`NULL` or a block that is aligned to its own size and apart from every block handed out and not yet
taken back, and neither call touches a block in somebody's hands. `PageSource` and `PhysAlloc` are
functions with that contract. `firstFit` is a `PageSource` on a machine of its own; the real
allocator is a `PhysAlloc` (`Buddy.buddyPages`), and that is where `sound` comes from: `buddy_kfree`
keeps the contract only if it merges with free blocks.

The blocks handed out are the ghost `KState.blocks`. `Ok` is the allocator's own invariant; it
may speak of the memory the allocator manages, so long as that memory is not handed out.
-/

set_option autoImplicit false

namespace MikroKernel

/-- Address `a` is inside a block of the list. -/
def InBlocks (bs : List Block) (a : Nat) : Prop := ∃ b ∈ bs, b.addr ≤ a ∧ a < b.addr + b.len

def Block.Apart (b c : Block) : Prop := b.addr + b.len ≤ c.addr ∨ c.addr + c.len ≤ b.addr

instance (b c : Block) : Decidable (b.Apart c) := inferInstanceAs (Decidable (_ ∨ _))

instance : Std.Symm Block.Apart := ⟨fun _ _ h => Or.symm h⟩

/-- What a call of the allocator leaves alone: the offset, the other locks, and all memory that is
not its own or is in the hands of the owners of `keep`. -/
structure AllocFrame (managed : Nat → Prop) (keep : List Block) (s s' : KState) : Prop where
  offset : s'.physMapOffset = s.physMapOffset
  lock : ∀ id, id ≠ .buddyLock → s'.lock id = s.lock id
  free : ∀ id, (s.lock id).Free → (s'.lock id).Free
  mem : ∀ a f, s'.mem a f ≠ s.mem a f → managed a ∧ ¬ InBlocks keep a

/-- The allocating half, which is all `kmem_cache_grow` uses. -/
structure PageSource (L : Layout) where
  kmalloc : Nat → K Nat
  /-- the addresses the allocator deals with: its metadata and the memory it hands out -/
  managed : Nat → Prop
  Ok : KState → Prop
  ok_blocks : ∀ {s}, Ok s → ∀ b ∈ s.blocks, b.addr ≠ 0 ∧
    ∀ a, b.addr ≤ a → a < b.addr + b.len → L.phys a = true ∧ managed a
  ok_apart : ∀ {s}, Ok s → s.blocks.Pairwise Block.Apart
  /-- what others do outside the allocator's memory, or to the blocks they own, is no matter -/
  ok_frame : ∀ {s s'}, Ok s → View s'.physMapOffset →
    (∀ id, (s.lock id).Free → (s'.lock id).Free) → s'.blocks = s.blocks →
    (∀ a f, s'.mem a f ≠ s.mem a f → managed a → InBlocks s.blocks a) → Ok s'
  kmalloc_spec : ∀ {s k}, Ok s → k ≤ 10 → ∃ p s',
    kmalloc (pageSize * 2 ^ k) L s = .ok (p, s') ∧ Ok s' ∧ AllocFrame managed s.blocks s s' ∧
    (p = 0 ∧ s'.blocks = s.blocks ∨
      p ≠ 0 ∧ pageSize * 2 ^ k ∣ p ∧ s'.blocks = ⟨p, pageSize * 2 ^ k⟩ :: s.blocks)

/-! ## First fit -/

namespace FirstFit

/-- The first multiple of `n` in the range with room for `n` bytes apart from `bs`, or `0`. -/
def pick (base size : Nat) (bs : List Block) (n : Nat) : Nat :=
  (((List.range (size / n + 1)).map fun i => (base / n + i) * n).find? fun p =>
    p ≠ 0 ∧ base ≤ p ∧ p + n ≤ base + size ∧ ∀ b ∈ bs, Block.Apart ⟨p, n⟩ b).getD 0

theorem pick_spec (base size : Nat) (bs : List Block) (n : Nat) :
    pick base size bs n = 0 ∨ (n ∣ pick base size bs n ∧ base ≤ pick base size bs n ∧
      pick base size bs n + n ≤ base + size ∧
      ∀ b ∈ bs, Block.Apart ⟨pick base size bs n, n⟩ b) := by
  unfold pick
  cases hf : ((List.range (size / n + 1)).map fun i => (base / n + i) * n).find? fun p =>
    p ≠ 0 ∧ base ≤ p ∧ p + n ≤ base + size ∧ ∀ b ∈ bs, Block.Apart ⟨p, n⟩ b with
  | none => exact Or.inl rfl
  | some p =>
    have hp := List.find?_some hf
    simp only [decide_eq_true_eq] at hp
    obtain ⟨i, -, rfl⟩ := List.mem_map.mp (List.mem_of_find?_eq_some hf)
    exact Or.inr ⟨Nat.dvd_mul_left n _, hp.2⟩

def kmalloc (base size n : Nat) : K Nat := fun _ s =>
  let p := pick base size s.blocks n
  .ok (p, { s with blocks := if p = 0 then s.blocks else ⟨p, n⟩ :: s.blocks })

structure Ok (base size : Nat) (s : KState) : Prop where
  inside : ∀ b ∈ s.blocks, base ≤ b.addr ∧ b.addr + b.len ≤ base + size
  apart : s.blocks.Pairwise Block.Apart

end FirstFit

/-- **A source with the contract**, over a range of installed memory. It keeps its books in the
ghost and touches no memory. -/
def firstFit (L : Layout) (base size : Nat) (h0 : base ≠ 0)
    (hphys : ∀ a, base ≤ a → a < base + size → L.phys a = true) : PageSource L where
  kmalloc := FirstFit.kmalloc base size
  managed a := base ≤ a ∧ a < base + size
  Ok := FirstFit.Ok base size
  ok_blocks := by
    intro s h b hb
    have := h.inside b hb
    exact ⟨by omega, fun a h1 h2 => ⟨hphys a (by omega) (by omega), by omega, by omega⟩⟩
  ok_apart := fun h => h.apart
  ok_frame := by
    intro s s' h _ _ hb _
    exact ⟨hb ▸ h.inside, hb ▸ h.apart⟩
  kmalloc_spec := by
    intro s k h _
    obtain ⟨p, hp⟩ : ∃ p, p = FirstFit.pick base size s.blocks (pageSize * 2 ^ k) := ⟨_, rfl⟩
    have hspec := FirstFit.pick_spec base size s.blocks (pageSize * 2 ^ k)
    refine ⟨p, _, by unfold FirstFit.kmalloc; rw [← hp], ?_, ?_, ?_⟩
    · by_cases h0 : p = 0
      · simp only [h0, if_true]
        exact ⟨h.inside, h.apart⟩
      · simp only [h0, if_false]
        rw [← hp] at hspec
        obtain ⟨-, h1, h2, h3⟩ := hspec.resolve_left h0
        refine ⟨fun b hb => ?_, List.pairwise_cons.mpr ⟨h3, h.apart⟩⟩
        rcases List.mem_cons.mp hb with rfl | hb
        · exact ⟨h1, h2⟩
        · exact h.inside b hb
    · exact ⟨rfl, fun _ _ => rfl, fun _ hf => hf, fun a f hne => absurd rfl hne⟩
    · by_cases h0 : p = 0
      · exact Or.inl ⟨h0, by simp [h0]⟩
      · rw [← hp] at hspec
        exact Or.inr ⟨h0, (hspec.resolve_left h0).1, by simp [h0]⟩

/-! ## The freeing half -/

/-- A page allocator, by its contract. -/
structure PhysAlloc (L : Layout) extends PageSource L where
  kfree : Nat → Nat → K Unit
  /-- giving back `n` bytes at `p` in this state merges them with free blocks only -/
  sound : KState → Nat → Nat → Bool
  kfree_spec : ∀ {s p n}, Ok s → ⟨p, n⟩ ∈ s.blocks → sound s p n = true →
    ∃ s', kfree p n L s = .ok ((), s') ∧ Ok s' ∧
      AllocFrame managed (s.blocks.erase ⟨p, n⟩) s s' ∧ s'.blocks = s.blocks.erase ⟨p, n⟩

/-! ## Calls that come back empty-handed -/

abbrev nullAlarm : Stop := .panic "phys_kmalloc returned NULL"

/-- `phys_kmalloc` with the assertion that it has memory left. -/
def orHalt (kmalloc : Nat → K Nat) (n : Nat) : K Nat := do
  let p ← kmalloc n
  if p = 0 then K.stop nullAlarm
  pure p

/-- In the run of `x` from `s`, written over the allocating function, a request was answered `NULL`:
with the assertion in place it stops there. -/
def ReturnedNull {α : Type} (L : Layout) (kmalloc : Nat → K Nat) (x : (Nat → K Nat) → K α)
    (s : KState) : Prop := x (orHalt kmalloc) L s = .error nullAlarm

theorem orHalt_null {L : Layout} {kmalloc : Nat → K Nat} {n : Nat} {s s' : KState}
    (h : kmalloc n L s = .ok (0, s')) : orHalt kmalloc n L s = .error nullAlarm := by
  unfold orHalt
  rw [K.bind_ok h]
  rfl

theorem orHalt_some {L : Layout} {kmalloc : Nat → K Nat} {n p : Nat} {s s' : KState}
    (h : kmalloc n L s = .ok (p, s')) (hp : p ≠ 0) : orHalt kmalloc n L s = .ok (p, s') := by
  unfold orHalt
  rw [K.bind_ok h, if_neg hp]
  rfl

instance orHalt_guards (kmalloc : Nat → K Nat) (n : Nat) :
    Guards nullAlarm (orHalt kmalloc n) (kmalloc n) := by
  refine ⟨fun L s => ?_⟩
  cases h : kmalloc n L s with
  | error e => exact Or.inr (by unfold orHalt; rw [K.bind_apply, h])
  | ok r =>
    obtain ⟨p, s'⟩ := r
    by_cases hp : p = 0
    · subst hp
      exact Or.inl (orHalt_null h)
    · exact Or.inr (orHalt_some h hp).symm

/-- `kmalloc` has the contract of the allocator, where it does not panic. -/
class Serves {L : Layout} (A : PageSource L) (kmalloc : Nat → K Nat) : Prop where
  spec : ∀ {s k}, A.Ok s → k ≤ 10 →
    Yields L (kmalloc (pageSize * 2 ^ k)) s (fun _ => True) (fun p s' =>
      A.Ok s' ∧ AllocFrame A.managed s.blocks s s' ∧ (p = 0 ∧ s'.blocks = s.blocks ∨
        p ≠ 0 ∧ pageSize * 2 ^ k ∣ p ∧ s'.blocks = ⟨p, pageSize * 2 ^ k⟩ :: s.blocks))

instance {L : Layout} (A : PageSource L) : Serves A A.kmalloc := by
  refine ⟨fun hok hk => ?_⟩
  obtain ⟨p, s', hrun, hspec⟩ := A.kmalloc_spec hok hk
  exact Yields.ret hrun hspec

instance {L : Layout} (A : PageSource L) : Serves A (orHalt A.kmalloc) := by
  refine ⟨fun hok hk => ?_⟩
  obtain ⟨p, s', hrun, hspec⟩ := A.kmalloc_spec hok hk
  by_cases hp : p = 0
  · subst hp
    exact Or.inr ⟨_, orHalt_null hrun, trivial⟩
  · exact Yields.ret (orHalt_some hrun hp) hspec

/-! ## Calls whose frees are sound -/

abbrev clashAlarm : Stop := .panic "phys_kfree merges a block in use"

/-- The alarm, or a message that `B` allows. -/
abbrev OrClash (B : String → Prop) (msg : String) : Prop := .panic msg = clashAlarm ∨ B msg

/-- `phys_kfree` with the assertion that it merges with free blocks only. -/
def PhysAlloc.checkedKfree {L : Layout} (A : PhysAlloc L) (p n : Nat) : K Unit := fun L s =>
  if A.sound s p n then A.kfree p n L s else .error clashAlarm

/-- In the run of `x` from `s`, written over the freeing function, every block given back merges
with free blocks only: the assertion is never raised. -/
def FreesSound {α : Type} {L : Layout} (A : PhysAlloc L) (x : (Nat → Nat → K Unit) → K α)
    (s : KState) : Prop := x A.checkedKfree L s ≠ .error clashAlarm

/-- A run that returns with the assertion in place raised no alarm. -/
theorem freesSound_of_ok {α : Type} {L : Layout} {A : PhysAlloc L} {x : (Nat → Nat → K Unit) → K α}
    {s : KState} {r : α × KState} (h : x A.checkedKfree L s = .ok r) : FreesSound A x s := by
  unfold FreesSound
  rw [h]
  simp

instance checkedKfree_guards {L : Layout} (A : PhysAlloc L) (p n : Nat) :
    Guards clashAlarm (A.checkedKfree p n) (A.kfree p n) := by
  refine ⟨fun L' s => ?_⟩
  unfold PhysAlloc.checkedKfree
  split
  · exact Or.inr rfl
  · exact Or.inl rfl

/-- A checked free of a block that was handed out keeps the contract, or raises the alarm. -/
theorem PhysAlloc.checkedKfree_spec {L : Layout} (A : PhysAlloc L) {s : KState} {p n : Nat}
    (hok : A.Ok s) (hmem : ⟨p, n⟩ ∈ s.blocks) :
    A.checkedKfree p n L s = .error clashAlarm ∨
      ∃ s', A.checkedKfree p n L s = .ok ((), s') ∧ A.Ok s' ∧
        AllocFrame A.managed (s.blocks.erase ⟨p, n⟩) s s' ∧ s'.blocks = s.blocks.erase ⟨p, n⟩ := by
  unfold PhysAlloc.checkedKfree
  by_cases hs : A.sound s p n = true
  · obtain ⟨s', hrun, hrest⟩ := A.kfree_spec hok hmem hs
    exact Or.inr ⟨s', by rw [if_pos hs]; exact hrun, hrest⟩
  · exact Or.inl (if_neg hs)

instance {α : Type} {L : Layout} (A : PhysAlloc L) (x : (Nat → Nat → K Unit) → K α) (s : KState) :
    Decidable (FreesSound A x s) :=
  inferInstanceAs (Decidable (¬ _))

end MikroKernel
