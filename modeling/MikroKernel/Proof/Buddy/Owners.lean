import MikroKernel.Proof.Buddy.Regions
import MikroKernel.Proof.Buddy.Runs

/-!
# Runs from whatever range there is

The range `__init_buddy` ends up with may start at 0, may end in a ragged tail, and may be of any
size. The blocks on the lists and the blocks handed out are in it all the same, aligned and apart,
from the initialisation on (`Owned`). A call may ask for any size here: a request for 0 bytes gets a
page, which cannot be given back, and one for more than 4MB gets nothing.
-/

set_option autoImplicit false

namespace MikroKernel
namespace Buddy

open Run Chain Tiling

variable {L : Layout} {base size : Nat}

/-! ## The range -/

/-- `__init_buddy` ran and left this range, of installed memory, and nothing is allocated. -/
structure Began (L : Layout) (entries : List MmapEntry) (base size : Nat) (c : Client) : Prop where
  range : managedRange L.kernelEnd entries = (base, size)
  phys : ∀ p, base ≤ p → p < base + size % 2 ^ 54 → L.phys p = true
  init : ∃ s₀ : KState, View s₀.physMapOffset ∧ initBuddy entries L s₀ = .ok ((), c.s)
  none : c.live = []

/-- An address of a block that is laid out and not lost. -/
def Laid (base size p : Nat) : Prop := p ≠ 0 ∧ base ≤ p ∧ p < base + size % 2 ^ 54

theorem linkable_of_range {entries : List MmapEntry}
    (hrange : managedRange L.kernelEnd entries = (base, size)) (hphys : ∀ p, base ≤ p →
      p < base + size % 2 ^ 54 → L.phys p = true) : Linkable L base size := by
  obtain ⟨hbase, hlt, hsize⟩ := managedRange_whole L.kernelEnd entries
  rw [hrange] at hbase hlt hsize
  refine ⟨hbase, hsize, hphys, ?_⟩
  by_cases h0 : size % 2 ^ 54 = 0
  · rw [h0]
    exact hlt
  · have h := L.phys_lt _ (hphys (base + size % 2 ^ 54 - 1) (by omega) (by omega))
    unfold physTop at h
    omega

theorem Linkable.laid (hm : Linkable L base size) {p : Nat} (hp : Laid base size p) : Usable L p :=
  ⟨hp.1, hm.phys p hp.2.1 hp.2.2⟩

theorem Packed.of_laid {free : Nat → List Nat} {own : Multiset Chunk}
    (hp : Packed (Laid base size) free own) (hm : Linkable L base size) :
    Packed (Usable L) free own :=
  ⟨hp.packs.mono (fun _ => hm.laid), hp.aligned⟩

/-- **What is laid out is packed**: at most the row that starts at 0 is lost. -/
theorem packed_laid (hb : chunkBytes 10 ∣ base) (hd : pageSize ∣ size) :
    Packed (Laid base size) (laid base size) 0 := by
  obtain ⟨rest, hrest⟩ :
    ∃ rest, rest = freeChunks (rows (digit (size / pageSize % 2 ^ 42)) 10 base) := ⟨_, rfl⟩
  have hle : freeChunks (laid base size) ≤ rest := by
    rw [hrest]
    refine Finset.sum_le_sum (fun k _ => Multiset.map_le_map (Multiset.coe_le.mpr ?_))
    unfold laid kept
    split
    · exact List.nil_subperm
    · exact List.Subperm.refl _
  have hne : ∀ c ∈ freeChunks (laid base size), c.addr ≠ 0 := by
    intro c hc
    obtain ⟨hk, hmem⟩ := mem_freeChunks.mp hc
    unfold laid at hmem
    rw [rows_eq hk] at hmem
    exact kept_ne_zero hmem
  refine ⟨?_, fun c hc => ?_⟩
  · rw [add_zero]
    have hpacks := (hrest ▸ (tiles_laid hd).packs).le hle
    refine ⟨hpacks.pos, fun c hc p hp => ⟨?_, hpacks.inside c hc p hp⟩, hpacks.once⟩
    have := hne c hc
    have := hp.1
    omega
  · rw [add_zero] at hc
    exact rows_aligned (Nat.le_refl 10) hb (hrest ▸ Multiset.mem_of_le hle hc)

/-! ## Steps -/

/-- One step: a call with any size that returns, or what is written between calls. A free merges
only with blocks that are on the lists. -/
inductive Call (L : Layout) (base size : Nat) : Client → Client → Prop
  | kalloc {c c' : Client} {sz : Nat} : c.kalloc L sz = some c' → Call L base size c c'
  | kfree {c c' : Client} {r : Request} : (r.size ≠ 0 → SoundFree L base size c.s.mem r) →
      c.kfree L r = some c' → Call L base size c c'
  | others {c : Client} {s' : KState} : View s'.physMapOffset → (s'.lock .buddyLock).Free →
      (∀ a f, s'.mem a f ≠ c.s.mem a f → Writable L base size c.live a) →
      Call L base size c ⟨s', c.live⟩

/-- The lists and the blocks handed out are in the range, aligned and apart. -/
structure Owned (L : Layout) (base size : Nat) (c : Client) (free : Nat → List Nat) : Prop where
  ready : Ready c.s
  rep : Rep L c.s.mem base (size / pageSize) ⟨free, bitOf L c.s.mem⟩
  packed : Packed (Laid base size) free (liveChunks c.live)
  sizes : ∀ r ∈ c.live, r.size ≤ chunkBytes 10

theorem Began.linkable {entries : List MmapEntry} {c : Client} (h : Began L entries base size c) :
    Linkable L base size := linkable_of_range h.range h.phys

theorem Owned.start {entries : List MmapEntry} {c : Client} (h : Began L entries base size c) :
    Owned L base size c (laid base size) := by
  have hm := h.linkable
  obtain ⟨s₀, hv, hinit⟩ := h.init
  obtain ⟨s', hrun, hoff, hfree, hrep, -⟩ := initBuddyAt_laid hv hm
  rw [initBuddy_eq, h.range, hrun] at hinit
  obtain rfl : s' = c.s := (Prod.mk.inj (Except.ok.inj hinit)).2
  refine ⟨⟨by rw [hoff]; exact hv, hfree⟩, hrep, ?_, ?_⟩
  · rw [h.none]
    exact packed_laid hm.base_dvd hm.size_dvd
  · rw [h.none]
    exact fun r hr => absurd hr (by simp)

/-- **Allocation keeps the invariant**, for every size. -/
theorem Owned.kalloc {c c' : Client} {free : Nat → List Nat} {sz : Nat} (hm : Linkable L base size)
    (h : Owned L base size c free) (hcall : c.kalloc L sz = some c') :
    ∃ free', Owned L base size c' free' := by
  by_cases hsz : sz ≤ chunkBytes 10
  · obtain ⟨r, hreq, hlive, hready, hrep⟩ :=
      Client.kalloc_rep h.ready h.rep (h.packed.of_laid hm) hsz hcall
    have h10 := (orderOf_spec hsz).2.1
    rcases Heap.alloc_cases (h := ⟨free, bitOf L c.s.mem⟩) (pairPos base (size / pageSize))
      (orderOf sz)
      (show orderOf sz + (11 - orderOf sz) = 11 by omega) with ⟨heq, -⟩ | ⟨a, j, h1, h2, h3, -, heq⟩
    · rw [heq] at hreq
      rw [hreq, if_pos rfl] at hlive
      rw [hreq] at hrep
      refine ⟨free, hready, hrep.normalize, ?_, ?_⟩
      · rw [hlive]
        exact h.packed
      · rw [hlive]
        exact h.sizes
    · have hsplit := (h.packed.take h2 h3).split (h := (⟨free, bitOf L c.s.mem⟩ : Heap).drop j a) h1
      have ha0 : a ≠ 0 := (hsplit.packs.inside ⟨a, orderOf sz⟩ (by simp) a
        ⟨Nat.le_refl _, Nat.lt_add_of_pos_right (chunkBytes_pos _)⟩).1
      rw [heq] at hreq
      rw [hreq, if_neg ha0] at hlive
      rw [hreq] at hrep
      refine ⟨_, hready, hrep.normalize, ?_, ?_⟩
      · rw [hlive]
        exact hsplit
      · rw [hlive]
        exact List.forall_mem_cons.mpr ⟨hsz, h.sizes⟩
  · unfold Client.kalloc at hcall
    by_cases h63 : sz ≤ 2 ^ 63
    · rw [buddyKalloc_larger h.rep (by omega) h63] at hcall
      obtain rfl := Option.some.inj hcall
      exact ⟨free, h⟩
    · rw [buddyKalloc_stop (by omega)] at hcall
      exact absurd hcall (by simp)

/-- What a free of 0 bytes does. -/
theorem buddyKfree_zero (chunk : Nat) (L : Layout) (s : KState) :
    buddyKfree chunk 0 L s = .ok ((), s) := by
  unfold buddyKfree
  rw [if_pos (Or.inr rfl)]
  rfl

/-- A live block and the bits on its way up, as the free sees them. -/
theorem Owned.merges {c : Client} {free : Nat → List Nat} {r : Request}
    (h : Owned L base size c free) (hr : r ∈ c.live) (hsound : SoundFree L base size c.s.mem r) :
    Packed (Laid base size) free (⟨r.addr, orderOf r.size⟩ ::ₘ liveChunks (c.live.erase r)) ∧
      MergeSound (pairPos base (size / pageSize)) (fun j a => a ∈ free j) (10 - orderOf r.size)
        (bitOf L c.s.mem) r.addr (orderOf r.size) := by
  refine ⟨?_, hsound.mono (fun j a _ hj ha => (onList_iff h.rep (by omega)).mp ha)⟩
  have hp := h.packed
  rw [liveChunks_erase hr] at hp
  exact hp

/-- **A free with sound merges keeps the invariant**; one of 0 bytes gives nothing back. -/
theorem Owned.kfree {c c' : Client} {free : Nat → List Nat} {r : Request}
    (hm : Linkable L base size) (h : Owned L base size c free)
    (hsound : r.size ≠ 0 → SoundFree L base size c.s.mem r) (hcall : c.kfree L r = some c') :
    ∃ free', Owned L base size c' free' := by
  have hr := Client.kfree_mem hcall
  have hsz := h.sizes r hr
  have hsizes : ∀ x ∈ c.live.erase r, x.size ≤ chunkBytes 10 :=
    fun x hx => h.sizes x (List.mem_of_mem_erase hx)
  unfold Client.kfree at hcall
  rw [if_pos hr] at hcall
  by_cases h0 : r.size = 0
  · rw [h0, buddyKfree_zero] at hcall
    obtain rfl := Option.some.inj hcall
    have hp := h.packed
    rw [liveChunks_erase hr] at hp
    exact ⟨free, h.ready, h.rep, hp.le (Multiset.le_cons_self _ _), hsizes⟩
  · obtain ⟨hp, hs⟩ := h.merges hr (hsound h0)
    obtain ⟨m', ⟨s', hrun, hmem, hq⟩, hrep⟩ :=
      buddyKfree_returns h.ready h0 hsz h.rep (hp.of_laid hm) hs
    rw [hrun] at hcall
    obtain rfl := Option.some.inj hcall
    rw [← hmem] at hrep
    exact ⟨_, h.ready.quiet hq, hrep.normalize,
      Packed.release (h := ⟨free, bitOf L c.s.mem⟩) (orderOf_spec hsz).2.1 hp hs, hsizes⟩

theorem Owned.kfree_returns {c : Client} {free : Nat → List Nat} {r : Request}
    (hm : Linkable L base size) (h : Owned L base size c free) (hr : r ∈ c.live)
    (hsound : r.size ≠ 0 → SoundFree L base size c.s.mem r) :
    ∃ s', buddyKfree r.addr r.size L c.s = .ok ((), s') := by
  by_cases h0 : r.size = 0
  · rw [h0]
    exact ⟨c.s, buddyKfree_zero _ _ _⟩
  · obtain ⟨hp, hs⟩ := h.merges hr (hsound h0)
    obtain ⟨m', ⟨s', hrun, -, -⟩, -⟩ :=
      buddyKfree_returns h.ready h0 (h.sizes r hr) h.rep (hp.of_laid hm) hs
    exact ⟨s', hrun⟩

theorem Owned.others {c : Client} {free : Nat → List Nat} {s' : KState} (hm : Linkable L base size)
    (h : Owned L base size c free) (hv : View s'.physMapOffset) (hlock : (s'.lock .buddyLock).Free)
    (hw : ∀ a f, s'.mem a f ≠ c.s.mem a f → Writable L base size c.live a) :
    Owned L base size ⟨s', c.live⟩ free := by
  have hmod := Nat.mod_le size (2 ^ 54)
  obtain ⟨hrep, -⟩ := h.rep.others h.packed
    (fun p hp => ⟨hp.2.1, Nat.lt_of_lt_of_le hp.2.2 (Nat.add_le_add_left hmod base),
      (hm.laid hp).2⟩) hw
  exact ⟨⟨hv, hlock⟩, hrep, h.packed, h.sizes⟩

/-- Every request returns that does not make the order loop shift by 64. -/
theorem Owned.kalloc_returns {c : Client} {free : Nat → List Nat} {sz : Nat}
    (hm : Linkable L base size) (h : Owned L base size c free) (h63 : sz ≤ 2 ^ 63) :
    ∃ p s', buddyKalloc sz L c.s = .ok (p, s') := by
  by_cases hsz : sz ≤ chunkBytes 10
  · obtain ⟨m', ⟨s', hrun, -, -⟩, -⟩ := buddyKalloc_returns h.ready hsz h.rep (h.packed.of_laid hm)
    exact ⟨_, s', hrun⟩
  · exact ⟨0, c.s, buddyKalloc_larger h.rep (by omega) h63⟩

/-- **So it is in every state reached.** -/
theorem Owned.run {entries : List MmapEntry} {c c' : Client} (hbegan : Began L entries base size c)
    (hrun : Reaches (Call L base size) c c') : ∃ free, Owned L base size c' free := by
  have hm := hbegan.linkable
  refine hrun.invariant (fun c => ∃ free, Owned L base size c free) ⟨_, Owned.start hbegan⟩ ?_
  rintro a b - ⟨free, h⟩ hstep
  cases hstep with
  | kalloc hcall => exact h.kalloc hm hcall
  | kfree hsound hcall => exact h.kfree hm hsound hcall
  | others hv hlock hw => exact ⟨free, h.others hm hv hlock hw⟩

end Buddy
end MikroKernel
