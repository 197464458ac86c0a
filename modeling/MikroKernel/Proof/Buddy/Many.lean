import MikroKernel.Lib.Interleave
import MikroKernel.Proof.Buddy.Race

/-!
# The buddy allocator on many CPUs

Any number of CPUs call `buddy_kalloc` and `buddy_kfree`, a critical section at a time and in any
order (`Pc.act`). A block on its way between a list and a client is in the hands of one CPU, and the
pages are shared out between the lists, the live blocks and the hands.

**Allocation needs no help**: a pop and its splits are one section, and the toggle that follows
touches no list. So is the way of a free up to its unlink section, which trusts a bit that was read
in an earlier section. What must be true there is that the sibling is on its list (`Trusted`), and
with that the pages stay shared out in every interleaving (`shared_out_of_interleaving`).
-/

set_option autoImplicit false

namespace MikroKernel
namespace Buddy
namespace Many

open Run Chain Tiling Interleave
open Race (Freeing)

/-! ## The machine -/

/-- Where a CPU is. -/
inductive Pc
  | idle
  /-- in `buddy_kalloc(size)`, about to look at list `idx` -/
  | looking (size idx : Nat)
  /-- it has popped a block and is about to toggle the bit -/
  | marking (size chunk : Nat)
  /-- in `buddy_kfree` -/
  | freeing (a : Freeing)
deriving DecidableEq, Repr

/-- What a CPU does next: a call, or the next section of the call it is in. -/
inductive Op
  | kalloc (size : Nat)
  | kfree (r : Request)
  | go
deriving DecidableEq, Repr

/-- The next section of a call. -/
def Pc.next (L : Layout) (c : Client) : Pc → Option (Client × Pc)
  | .idle => none
  | .looking size idx =>
    match locked .buddyLock (popSection idx (orderOf size)) L c.s with
    | .ok (chunk, s') =>
      if chunk = 0 then some (⟨s', c.live⟩, if idx < 10 then .looking size (idx + 1) else .idle)
      else some (⟨s', c.live⟩, .marking size chunk)
    | .error _ => none
  | .marking size chunk =>
    match toggleBitmap chunk (orderOf size) L c.s with
    | .ok (_, s') => some (⟨s', ⟨chunk, size⟩ :: c.live⟩, .idle)
    | .error _ => none
  | .freeing (.done _ _) => some (c, .idle)
  | .freeing a =>
    let c' := Race.Config.free L ⟨c.s, a, .larger⟩
    some (⟨c'.s, c.live⟩, .freeing c'.a)

/-- One move of a CPU. The calls are those the allocator is made for: up to 4MB, and a free is of a
live block, with its size. -/
def Pc.act (L : Layout) (c : Client) (pc : Pc) : Op → Option (Client × Pc)
  | .kalloc size =>
    if pc = .idle ∧ 1 ≤ size ∧ size ≤ 0x400000 then some (c, .looking size (orderOf size)) else none
  | .kfree r =>
    if pc = .idle ∧ r ∈ c.live then
      some (⟨c.s, c.live.erase r⟩, .freeing (.toggle r.addr (orderOf r.size)))
    else none
  | .go => pc.next L c

/-- A CPU moves, or what is nobody's but the owners' is written. -/
inductive Move (L : Layout) (base size : Nat) : Client → Pc → Client → Pc → Prop
  | act {c c' : Client} {pc pc' : Pc} {op : Op} : pc.act L c op = some (c', pc') →
      Move L base size c pc c' pc'
  | write {c : Client} {s' : KState} {pc : Pc} : View s'.physMapOffset → (s'.lock .buddyLock).Free →
      (∀ a f, s'.mem a f ≠ c.s.mem a f → Writable L base size c.live a) →
      Move L base size c pc ⟨s', c.live⟩ pc

variable {ι : Type} {L : Layout} {base size : Nat}

/-- The bit is right: at an unlink section the sibling is on the list of its order. -/
def Trusted (L : Layout) (c : Config ι Client Pc) (i : ι) : Prop :=
  ∀ x k, c.thread i = .freeing (.unlink x k) → k < 10 ∧ OnList L c.shared.s.mem k (sibling x k)

/-- A turn of a CPU. -/
abbrev Turn [DecidableEq ι] (L : Layout) (base size : Nat) (ok : Config ι Client Pc → ι → Prop) :
    Config ι Client Pc → Config ι Client Pc → Prop :=
  Interleave.Step (Move L base size) ok

/-- The block in a CPU's hands. -/
def Pc.held : Pc → Multiset Chunk
  | .marking size chunk => {⟨chunk, orderOf size⟩}
  | .freeing a => a.own
  | _ => 0

/-! ## The machine is the code -/

section Alone

variable {c : Client} {s' : KState} {sz p : Nat}

/-- Moves of one CPU. -/
abbrev Moves (L : Layout) (base size : Nat) : Client × Pc → Client × Pc → Prop :=
  Reaches fun x y : Client × Pc => Move L base size x.1 x.2 y.1 y.2

theorem next_moves {pc : Pc} {y : Client × Pc} (h : pc.next L c = some y) :
    Moves L base size (c, pc) y := by
  have hact : pc.act L c .go = some y := h
  exact Relation.ReflTransGen.single (.act hact)

/-- The loop over the lists, and the toggle behind it. -/
theorem kallocLoop_moves : ∀ {n idx : Nat} {s : KState}, idx + n = 11 → 0 < n →
    kallocLoop (orderOf sz) n idx L s = .ok (p, s') →
    Moves L base size (⟨s, c.live⟩, .looking sz idx)
      (⟨s', if p = 0 then c.live else ⟨p, sz⟩ :: c.live⟩, .idle)
  | 0, _, _, _, hpos, _ => absurd hpos (Nat.lt_irrefl 0)
  | n + 1, idx, s, hn, _, hrun => by
    unfold kallocLoop at hrun
    obtain ⟨chunk, s₁, hpop, hrest⟩ := K.bind_eq_ok.mp hrun
    have hnext : (Pc.looking sz idx).next L ⟨s, c.live⟩
        = if chunk = 0 then some (⟨s₁, c.live⟩, if idx < 10 then .looking sz (idx + 1) else .idle)
          else some (⟨s₁, c.live⟩, .marking sz chunk) := by
      unfold Pc.next
      simp only [hpop]
    by_cases h0 : chunk = 0
    · rw [if_pos h0] at hnext hrest
      refine (next_moves hnext).trans ?_
      by_cases hlast : idx < 10
      · rw [if_pos hlast]
        exact kallocLoop_moves (by omega) (by omega) hrest
      · -- that was the last list
        obtain rfl : n = 0 := by omega
        obtain ⟨rfl, rfl⟩ := Prod.mk.inj (Except.ok.inj hrest)
        rw [if_neg hlast, if_pos rfl]
    · rw [if_neg h0] at hnext hrest
      refine (next_moves hnext).trans ?_
      obtain ⟨bit, s₂, htoggle, hret⟩ := K.bind_eq_ok.mp hrest
      obtain ⟨rfl, rfl⟩ := Prod.mk.inj (Except.ok.inj hret)
      rw [if_neg h0]
      refine next_moves ?_
      unfold Pc.next
      simp only [htoggle]

/-- **A CPU alone runs `buddy_kalloc`.** -/
theorem kalloc_moves {np : Nat} {h : Heap} (hr : Rep L c.s.mem base np h) (h1 : 1 ≤ sz)
    (h2 : sz ≤ 0x400000) (hrun : buddyKalloc sz L c.s = .ok (p, s')) :
    Moves L base size (c, .idle) (⟨s', if p = 0 then c.live else ⟨p, sz⟩ :: c.live⟩, .idle) := by
  have hsz := le_four_mb h2
  have h10 := (orderOf_spec hsz).2.1
  have hedit : Edits L c.s.physMapOffset (selectOrder sz) c.s.mem (orderOf sz) c.s.mem :=
    selectOrder_edits (le_of_four_mb hsz)
  have hsel := hedit c.s rfl rfl
  have hmax : load L.kernelEnd .maxOrder L c.s = .ok (10, c.s) :=
    Edits.load (image_metadata L) hr.maxOrder c.s rfl rfl
  unfold buddyKalloc at hrun
  simp only [K.bind_apply, kernelEnd_apply, hsel, hmax,
    if_neg (show ¬ orderOf sz > 10 by omega)] at hrun
  have hcall : Pc.idle.act L c (.kalloc sz) = some (c, .looking sz (orderOf sz)) :=
    if_pos ⟨rfl, h1, h2⟩
  exact (Relation.ReflTransGen.single (.act hcall)).trans
    (kallocLoop_moves (n := 10 + 1 - orderOf sz) (by omega) (by omega) hrun)

/-- The sections of a free, one after the other. -/
theorem free_moves (live : List Request) : ∀ (n : Nat) (x : Race.Config), x.b = .larger →
    Moves L base size (⟨x.s, live⟩, .freeing x.a)
      (⟨(x.run L 0 (List.replicate n .freeing)).s, live⟩,
        .freeing (x.run L 0 (List.replicate n .freeing)).a)
  | 0, _, _ => Relation.ReflTransGen.refl
  | n + 1, ⟨s, a, b⟩, hb => by
    obtain rfl : b = .larger := hb
    by_cases hdone : ∃ y k, a = .done y k
    · -- a CPU that is done stays where it is
      obtain ⟨y, k, rfl⟩ := hdone
      rw [Race.run_stays rfl]
    · refine Relation.ReflTransGen.trans (b := (⟨(Race.Config.free L ⟨s, a, .larger⟩).s, live⟩,
        .freeing (Race.Config.free L ⟨s, a, .larger⟩).a)) (next_moves ?_) ?_
      · cases a with
        | done y k => exact absurd ⟨y, k, rfl⟩ hdone
        | toggle _ _ | unlink _ _ | insert _ _ | stopped _ => rfl
      · rw [List.replicate_succ, Race.run_cons]
        refine free_moves live n (Race.Config.free L ⟨s, a, .larger⟩) ?_
        unfold Race.Config.free
        split
        all_goals first
          | rfl
          | (split <;> rfl)

/-- **A CPU alone runs `buddy_kfree`.** -/
theorem kfree_moves {np : Nat} {h : Heap} {r : Request} (hr : Rep L c.s.mem base np h)
    (hmem : r ∈ c.live) (haddr : r.addr ≠ 0) (h1 : 1 ≤ r.size) (h2 : r.size ≤ 0x400000)
    (hrun : buddyKfree r.addr r.size L c.s = .ok ((), s')) :
    Moves L base size (c, .idle) (⟨s', c.live.erase r⟩, .idle) := by
  obtain ⟨n, hends⟩ : ∃ n, Race.Ends (buddyKfree r.addr r.size L c.s)
      (Race.Config.run L 0 ⟨c.s, .toggle r.addr (orderOf r.size), .larger⟩
          (List.replicate n .freeing)) :=
    Race.kfree_alone (c := ⟨c.s, .toggle r.addr (orderOf r.size), .larger⟩) hr (by omega)
      (le_four_mb h2) haddr rfl
  rw [hrun] at hends
  obtain ⟨hs, y, k, hdone⟩ := hends
  have hcall : Pc.idle.act L c (.kfree r)
      = some (⟨c.s, c.live.erase r⟩, .freeing (.toggle r.addr (orderOf r.size))) :=
        if_pos ⟨rfl, hmem⟩
  have hmoves : Moves L base size _ _ := free_moves (c.live.erase r) n
    ⟨c.s, .toggle r.addr (orderOf r.size), .larger⟩ rfl
  rw [hs, hdone] at hmoves
  exact (Relation.ReflTransGen.single (.act hcall)).trans (hmoves.trans (next_moves rfl))

end Alone

/-! ## Every turn keeps the pages shared out -/

/-- The lists, the live blocks and what the CPUs have in their hands make up the range. -/
structure Inv (L : Layout) (base size : Nat) (c : Client) (inHand : Multiset Chunk) : Prop where
  ready : Ready c.s
  sizes : ∀ r ∈ c.live, 1 ≤ r.size ∧ r.size ≤ 0x400000
  lists : ∃ h, Rep L c.s.mem base (size / pageSize) h ∧
    Partition base size h.free (inHand + liveChunks c.live)

/-- A place a CPU can be in. -/
def Pc.Fine : Pc → Prop
  | .idle => True
  | .looking sz idx => (1 ≤ sz ∧ sz ≤ 0x400000) ∧ orderOf sz ≤ idx ∧ idx ≤ 10
  | .marking sz _ => 1 ≤ sz ∧ sz ≤ 0x400000
  | .freeing a => ∀ e, a ≠ .stopped e

variable {c : Client} {rest : Multiset Chunk}

/-- A pop takes a block off the lists, and puts what it splits off back. -/
theorem Inv.look {sz idx : Nat} (hm : Managed L base size) (h : Inv L base size c rest)
    (hle : orderOf sz ≤ idx) (hidx : idx ≤ 10) :
    ∃ chunk s', locked .buddyLock (popSection idx (orderOf sz)) L c.s = .ok (chunk, s') ∧
      (chunk = 0 ∧ Inv L base size ⟨s', c.live⟩ rest ∨
        chunk ≠ 0 ∧ Inv L base size ⟨s', c.live⟩ (⟨chunk, orderOf sz⟩ ::ₘ rest)) := by
  obtain ⟨heap, hrep, hpart⟩ := h.lists
  cases hl : heap.free idx with
  | nil =>
    obtain ⟨s', hrun, hmem, hq⟩ :=
      Edits.locked h.ready.free (popSection_empty (orderOf sz) hidx hrep hl)
    exact ⟨0, s', hrun, Or.inl ⟨rfl, h.ready.quiet hq, h.sizes, heap, hmem ▸ hrep, hpart⟩⟩
  | cons x l =>
    have hx : x ∈ heap.free idx := by rw [hl]; exact List.mem_cons_self
    obtain ⟨m', hedit, hrep'⟩ :=
      popSection_edits h.ready.view hidx hle hrep (hpart.usable hm.paged) hl
    obtain ⟨s', hrun, rfl, hq⟩ := Edits.locked h.ready.free hedit
    refine ⟨x, s', hrun, Or.inr ⟨(hrep.lists idx hidx).2.ne_zero x hx, h.ready.quiet hq, h.sizes,
      _, hrep', ?_⟩⟩
    rw [Multiset.cons_add]
    exact Partition.split (h := heap.drop idx x) (hpart.take hidx hx) hle

/-- A toggle moves no block. -/
theorem Inv.toggle {x k : Nat} (h : Inv L base size c rest) (hk : k ≤ 10) :
    ∃ bit s', toggleBitmap x k L c.s = .ok (bit, s') ∧ Inv L base size ⟨s', c.live⟩ rest := by
  obtain ⟨heap, hrep, hpart⟩ := h.lists
  obtain ⟨m', ⟨s', hrun, rfl, hq⟩, hrep'⟩ := toggleBitmap_returns (c := x) h.ready hk hrep
  exact ⟨_, s', hrun, h.ready.quiet hq, h.sizes, _, hrep', hpart⟩

/-- A section of a free, with the sibling on its list where it is unlinked. -/
theorem Inv.free {a : Freeing} (hm : Managed L base size) (h : Inv L base size c (a.own + rest))
    (hfine : (Pc.freeing a).Fine)
    (hon : ∀ x k, a = .unlink x k → k < 10 ∧ OnList L c.s.mem k (sibling x k)) :
    Inv L base size ⟨(Race.Config.free L ⟨c.s, a, .larger⟩).s, c.live⟩
        ((Race.Config.free L ⟨c.s, a, .larger⟩).a.own + rest) ∧
      (Pc.freeing (Race.Config.free L ⟨c.s, a, .larger⟩).a).Fine := by
  obtain ⟨heap, hrep, hpart⟩ := h.lists
  rw [add_assoc] at hpart
  have hheld : Race.Held L base size 0 (rest + liveChunks c.live) ⟨c.s, a, .larger⟩ heap := by
    refine ⟨hm, Nat.zero_le 10, h.ready, hrep, ?_⟩
    rw [show Race.Allocating.own 0 .larger = 0 from rfl, Multiset.zero_add]
    exact hpart
  obtain ⟨heap', hheld', hb, hmove⟩ := hheld.frees (fun x k hx =>
    ⟨(hon x k hx).1, (onList_iff hrep (by have := (hon x k hx).1; omega)).mp (hon x k hx).2⟩)
  have hpart' := hheld'.partition
  rw [hb, show Race.Allocating.own 0 .larger = 0 from rfl, Multiset.zero_add, ← add_assoc] at hpart'
  refine ⟨⟨hheld'.ready, h.sizes, heap', hheld'.rep, hpart'⟩, ?_⟩
  -- no section stops
  rintro e he
  generalize (Race.Config.free L ⟨c.s, a, .larger⟩).a = a' at hmove he
  cases hmove with
  | unlink hk _ =>
    unfold Freeing.loop at he
    split at he <;> exact Freeing.noConfusion he
  | stopped => exact hfine _ rfl
  | merge _ _ | keep _ _ | insert _ | done => exact Freeing.noConfusion he

/-- What the owners write is on no list and in nobody's hands. -/
theorem Inv.write {s' : KState} {inHand : Multiset Chunk} (hm : Managed L base size)
    (h : Inv L base size c inHand) (hv : View s'.physMapOffset) (hlock : (s'.lock .buddyLock).Free)
    (hw : ∀ a f, s'.mem a f ≠ c.s.mem a f → Writable L base size c.live a) :
    Inv L base size ⟨s', c.live⟩ inHand := by
  obtain ⟨heap, hrep, hpart⟩ := h.lists
  have hpacked : Packed (fun p => base ≤ p ∧ p < base + size) heap.free (liveChunks c.live) :=
    hpart.packed.le (Multiset.le_add_left _ _)
  obtain ⟨hrep', -⟩ :=
    Rep.others hrep.normalize hpacked (fun p hp => ⟨hp.1, hp.2, hm.phys p hp.1 hp.2⟩) hw
  exact ⟨⟨hv, hlock⟩, h.sizes, _, hrep', hpart⟩

/-- **A move of a CPU keeps the pages shared out**, whatever the others have in their hands. -/
theorem Inv.move {c' : Client} {pc pc' : Pc} (hm : Managed L base size)
    (h : Inv L base size c (pc.held + rest)) (hfine : pc.Fine)
    (hon : ∀ x k, pc = .freeing (.unlink x k) → k < 10 ∧ OnList L c.s.mem k (sibling x k))
    (hmove : Move L base size c pc c' pc') : pc'.Fine ∧ Inv L base size c' (pc'.held + rest) := by
  cases hmove with
  | write hv hlock hw => exact ⟨hfine, h.write hm hv hlock hw⟩
  | act hact =>
    rename_i op
    cases op with
    | kalloc sz =>
      simp only [Pc.act] at hact
      split at hact
      case isFalse => exact absurd hact (by simp)
      case isTrue hcall =>
        obtain ⟨rfl, hsz⟩ := hcall
        obtain ⟨rfl, rfl⟩ := Prod.mk.inj (Option.some.inj hact)
        exact ⟨⟨hsz, Nat.le_refl _, (orderOf_spec (le_four_mb hsz.2)).2.1⟩, h⟩
    | kfree r =>
      simp only [Pc.act] at hact
      split at hact
      case isFalse => exact absurd hact (by simp)
      case isTrue hcall =>
        obtain ⟨rfl, hr⟩ := hcall
        obtain ⟨rfl, rfl⟩ := Prod.mk.inj (Option.some.inj hact)
        obtain ⟨heap, hrep, hpart⟩ := h.lists
        refine ⟨fun _ => Freeing.noConfusion, h.ready,
          fun x hx => h.sizes x (List.mem_of_mem_erase hx), heap, hrep, ?_⟩
        -- the block goes from the client to the CPU
        rw [liveChunks_erase hr] at hpart
        simp only [Pc.held, Freeing.own, Multiset.zero_add, Multiset.singleton_add,
          Multiset.cons_add, Multiset.add_cons] at hpart ⊢
        exact hpart
    | go =>
      simp only [Pc.act] at hact
      cases pc with
      | idle => exact absurd hact (by simp [Pc.next])
      | looking sz idx =>
        obtain ⟨hsz, hle, hidx⟩ := hfine
        simp only [Pc.held, Multiset.zero_add] at h
        obtain ⟨chunk, s', hrun, hcase⟩ := h.look hm hle hidx
        simp only [Pc.next, hrun] at hact
        rcases hcase with ⟨rfl, hinv⟩ | ⟨h0, hinv⟩
        · rw [if_pos rfl] at hact
          obtain ⟨rfl, rfl⟩ := Prod.mk.inj (Option.some.inj hact)
          by_cases hlast : idx < 10
          · rw [if_pos hlast]
            refine ⟨⟨hsz, by omega, by omega⟩, ?_⟩
            simpa only [Pc.held, Multiset.zero_add] using hinv
          · rw [if_neg hlast]
            refine ⟨trivial, ?_⟩
            simpa only [Pc.held, Multiset.zero_add] using hinv
        · rw [if_neg h0] at hact
          obtain ⟨rfl, rfl⟩ := Prod.mk.inj (Option.some.inj hact)
          refine ⟨hsz, ?_⟩
          simpa only [Pc.held, Multiset.singleton_add] using hinv
      | marking sz chunk =>
        obtain ⟨bit, s', hrun, hinv⟩ := h.toggle (x := chunk)
          (orderOf_spec (le_four_mb hfine.2)).2.1
        simp only [Pc.next, hrun] at hact
        obtain ⟨rfl, rfl⟩ := Prod.mk.inj (Option.some.inj hact)
        obtain ⟨heap, hrep, hpart⟩ := hinv.lists
        refine ⟨trivial, hinv.ready, List.forall_mem_cons.mpr ⟨hfine, hinv.sizes⟩, heap, hrep, ?_⟩
        -- the block goes from the CPU to the client
        simp only [Pc.held, Multiset.singleton_add, Multiset.cons_add, Multiset.zero_add] at hpart ⊢
        rw [liveChunks_cons, Multiset.add_cons]
        exact hpart
      | freeing a =>
        have hstep := h.free hm hfine (fun x k hx => hon x k (by rw [hx]))
        cases a with
        | done x k =>
          obtain ⟨rfl, rfl⟩ := Prod.mk.inj (Option.some.inj hact)
          exact ⟨trivial, h⟩
        | toggle _ _ | unlink _ _ | insert _ _ =>
          obtain ⟨rfl, rfl⟩ := Prod.mk.inj (Option.some.inj hact)
          exact ⟨hstep.2, hstep.1⟩
        | stopped e => exact absurd rfl (hfine e)

/-! ## Whole runs -/

variable [Fintype ι] {x y : Config ι Client Pc}

/-- `__init_buddy` ran, and no CPU is in a call. -/
structure Start (L : Layout) (entries : List MmapEntry) (base size : Nat) (x : Config ι Client Pc) :
    Prop where
  init : Buddy.Start L entries base size x.shared
  idle : ∀ i, x.thread i = .idle

/-- How many CPUs have address `p` in their hands. -/
def inHands (thread : ι → Pc) (p : Nat) : Nat :=
  ∑ i, (thread i).held.countP (Covers Chunk.addr Chunk.len p)

/-- **Each managed page is in exactly one place**: in a block on a list, in a live block, or in the
hands of one CPU. -/
def SharedOut (L : Layout) (base size : Nat) (x : Config ι Client Pc) : Prop :=
  ∃ free : Nat → List Nat, (∀ k, k ≤ 10 → FreeList L x.shared.s.mem k (free k)) ∧
    ∀ p, base ≤ p → p < base + size → holders free x.shared.live p + inHands x.thread p = 1

theorem Inv.sharedOut (h : Inv L base size x.shared (hands Pc.held x.thread)) :
    SharedOut L base size x := by
  obtain ⟨heap, hrep, hpart⟩ := h.lists
  refine ⟨heap.free, hrep.lists, fun p h1 h2 => ?_⟩
  have honce := hpart.tiles.once p h1 h2
  have hsum :
      inHands x.thread p = (hands Pc.held x.thread).countP (Covers Chunk.addr Chunk.len p) := by
    unfold inHands hands
    rw [← Multiset.coe_countPAddMonoidHom, map_sum]
  rw [holders_eq, hsum, ← Multiset.countP_add]
  rw [show freeChunks heap.free + liveChunks x.shared.live + hands Pc.held x.thread
    = freeChunks heap.free + (hands Pc.held x.thread + liveChunks x.shared.live) by abel]
  exact honce

theorem Inv.of_start {entries : List MmapEntry} (h : Start L entries base size x) :
    Inv L base size x.shared (hands Pc.held x.thread) := by
  obtain ⟨hinv, -⟩ := Buddy.Inv.start h.init
  rw [hands_zero (fun i => by rw [h.idle i]; rfl)]
  refine ⟨hinv.ready, hinv.sizes, _, hinv.rep, ?_⟩
  rw [Multiset.zero_add]
  exact hinv.partition

variable [DecidableEq ι]

theorem Inv.run {entries : List MmapEntry} (h : Start L entries base size x)
    (hrun : Reaches (Turn L base size (Trusted L)) x y) :
    Inv L base size y.shared (hands Pc.held y.thread) ∧ ∀ i, (y.thread i).Fine :=
  reaches_framed (Inv L base size) Pc.Fine
    (fun _ _ _ _ hok hfine hinv hmove => hinv.move h.init.managed hfine hok hmove) hrun
    (Inv.of_start h) (fun i => by rw [h.idle i]; trivial)

/-- A CPU in a call has a next section to run. -/
theorem Inv.goes (hm : Managed L base size) {pc : Pc} (h : Inv L base size c (pc.held + rest))
    (hfine : pc.Fine) (hbusy : pc ≠ .idle) : ∃ r, pc.next L c = some r := by
  cases pc with
  | idle => exact absurd rfl hbusy
  | looking sz idx =>
    simp only [Pc.held, Multiset.zero_add] at h
    obtain ⟨chunk, s', hrun, -⟩ := h.look hm hfine.2.1 hfine.2.2
    simp only [Pc.next, hrun]
    split <;> exact ⟨_, rfl⟩
  | marking sz chunk =>
    obtain ⟨bit, s', hrun, -⟩ := h.toggle (x := chunk) (orderOf_spec (le_four_mb hfine.2)).2.1
    simp only [Pc.next, hrun]
    exact ⟨_, rfl⟩
  | freeing a => cases a <;> exact ⟨_, rfl⟩

/-- **Every interleaving of any number of CPUs keeps the pages shared out**, if at each unlink
section the sibling is on its list. Two live blocks, two blocks in the hands of CPUs, or one of each
do not overlap. Every CPU in a call has a next section, which does not wait for ever; and it does
not fault either, if the sibling is on its list in case it is an unlink section. -/
theorem shared_out_of_interleaving {entries : List MmapEntry} (h : Start L entries base size x)
    (hrun : Reaches (Turn L base size (Trusted L)) x y) :
    SharedOut L base size y ∧
    (∀ i j, i ≠ j → ∀ a ∈ (y.thread i).held, ∀ b ∈ (y.thread j).held,
      a.addr + a.len ≤ b.addr ∨ b.addr + b.len ≤ a.addr) ∧
    (∀ i, ∀ a ∈ (y.thread i).held, ∀ r ∈ y.shared.live,
      a.addr + a.len ≤ r.addr ∨ r.addr + chunkBytes (orderOf r.size) ≤ a.addr) ∧
    (∀ i, y.thread i ≠ .idle → ∃ c' pc', (y.thread i).next L y.shared = some (c', pc') ∧
      (Trusted L y i → ∀ e, pc' ≠ .freeing (.stopped e))) := by
  obtain ⟨hinv, hfine⟩ := Inv.run h hrun
  refine ⟨hinv.sharedOut, ?_, ?_, ?_⟩
  · intro i j hij a ha b hb
    obtain ⟨heap, -, hpart⟩ := hinv.lists
    obtain ⟨rest, hrest⟩ : ∃ rest, hands Pc.held y.thread
        = (y.thread i).held + ((y.thread j).held + rest) := held_add_held hij
    obtain ⟨A, hA⟩ := Multiset.exists_cons_of_mem ha
    obtain ⟨B, hB⟩ := Multiset.exists_cons_of_mem hb
    have hpacks := hpart.tiles.packs
    rw [hrest, hA, hB] at hpacks
    simp only [Multiset.cons_add, Multiset.add_cons] at hpacks
    exact hpacks.apart.symm
  · intro i a ha r hr
    obtain ⟨heap, -, hpart⟩ := hinv.lists
    obtain ⟨A, hA⟩ := Multiset.exists_cons_of_mem ha
    have hpacks := hpart.tiles.packs
    rw [hands_eq i, hA, liveChunks_erase hr] at hpacks
    simp only [Multiset.cons_add, Multiset.add_cons] at hpacks
    rw [Multiset.cons_swap] at hpacks
    exact hpacks.apart
  · intro i hbusy
    rw [hands_eq i] at hinv
    obtain ⟨⟨c', pc'⟩, hnext⟩ := hinv.goes h.init.managed (hfine i) hbusy
    have hact : (y.thread i).act L y.shared .go = some (c', pc') := hnext
    refine ⟨c', pc', hnext, fun htrust e he => ?_⟩
    obtain ⟨hfine', -⟩ := hinv.move h.init.managed (hfine i) htrust (.act hact)
    subst he
    exact hfine' e rfl

/-! ## Two CPUs on the small machine -/

/-- The block is the only one on list `k`. -/
def Alone (L : Layout) (m : Mem) (k a : Nat) : Prop :=
  m (listHead L k) .ptr = a ∧ a ≠ 0 ∧ m a .chunkPrev = 0 ∧ m a .chunkNext = 0

instance (L : Layout) (m : Mem) (k a : Nat) : Decidable (Alone L m k a) :=
  inferInstanceAs (Decidable (_ ∧ _))

theorem Alone.onList {m : Mem} {k a : Nat} (h : Alone L m k a) : OnList L m k a :=
  ⟨[a], ⟨h.1, h.2.1, h.2.2.1, h.2.2.2, trivial⟩, List.mem_singleton_self a⟩

/-- A sibling that is about to be unlinked is alone on its list. -/
def Pc.Clear (L : Layout) (m : Mem) : Pc → Prop
  | .freeing (.unlink a k) => k < 10 ∧ Alone L m k (sibling a k)
  | _ => True

instance (L : Layout) (m : Mem) : ∀ pc : Pc, Decidable (pc.Clear L m)
  | .freeing (.unlink _ _) => inferInstanceAs (Decidable (_ ∧ _))
  | .idle | .looking _ _ | .marking _ _ => .isTrue trivial
  | .freeing (.toggle _ _) | .freeing (.insert _ _) | .freeing (.done _ _)
  | .freeing (.stopped _) => .isTrue trivial

/-- The CPUs move as the schedule says. -/
def play (L : Layout) : List (Bool × Op) → Config Bool Client Pc → Option (Config Bool Client Pc)
  | [], x => some x
  | (i, op) :: sched, x =>
    if (x.thread i).Clear L x.shared.s.mem then
      ((x.thread i).act L x.shared op).bind fun (c, pc) => play L sched (x.put i c pc)
    else none

theorem play_runs : ∀ {sched : List (Bool × Op)} {x y : Config Bool Client Pc},
    play L sched x = some y → Reaches (Turn L base size (Trusted L)) x y
  | [], _, _, h => by
    obtain rfl := Option.some.inj h
    exact Relation.ReflTransGen.refl
  | (i, op) :: sched, x, y, h => by
    unfold play at h
    obtain ⟨hclear, h⟩ := Option.ite_none_right_eq_some.mp h
    obtain ⟨⟨c, pc⟩, hact, hrest⟩ := Option.bind_eq_some_iff.mp h
    refine Relation.ReflTransGen.head (.turn (fun a k ha => ?_) (.act hact)) (play_runs hrest)
    rw [ha] at hclear
    exact ⟨hclear.1, hclear.2.onList⟩

/-- One CPU takes 2MB of the one block of 4MB and frees them. Between the toggle and the unlinking
of the other half a second CPU comes for 2MB, and looks at list 9 when that half is off it: it gets
nothing there, and nothing on list 10. -/
def halves : List (Bool × Op) :=
  [(false, .kalloc 0x200000), (false, .go), (false, .go), (false, .go),
    (false, .kfree ⟨0x400000, 0x200000⟩), (false, .go), (true, .kalloc 0x200000), (false, .go),
    (true, .go)]

theorem halves_play :
    ((booted.bind fun c => play smallLayout halves ⟨c, fun _ => .idle⟩).map fun y =>
    (y.thread false, y.thread true, y.shared.live))
    = some (.freeing (.insert 0x400000 10), .looking 0x200000 10, []) := by
  decide +kernel

theorem shared_out_of_interleaving_halves : ∃ x y : Config Bool Client Pc,
    Start smallLayout smallTable 0x400000 0x400000 x ∧
    Reaches (Turn smallLayout 0x400000 0x400000 (Trusted smallLayout)) x y ∧
    y.thread false = .freeing (.insert 0x400000 10) ∧ y.thread true = .looking 0x200000 10 ∧
    SharedOut smallLayout 0x400000 0x400000 y ∧
    ∃ c' pc', (y.thread false).next smallLayout y.shared = some (c', pc') ∧
      ∀ e, pc' ≠ .freeing (.stopped e) := by
  obtain ⟨y, hplay, hres⟩ := Option.map_eq_some_iff.mp halves_play
  obtain ⟨c, hc, hplay⟩ := Option.bind_eq_some_iff.mp hplay
  have hstart : Start smallLayout smallTable 0x400000 0x400000
      (⟨c, fun _ => .idle⟩ : Config Bool Client Pc) := ⟨booted_start hc, fun _ => rfl⟩
  obtain ⟨h0, h1⟩ := Prod.mk.inj hres
  obtain ⟨hshared, -, -, hgoes⟩ := shared_out_of_interleaving hstart (play_runs hplay)
  obtain ⟨c', pc', hnext, hruns⟩ := hgoes false (by rw [h0]; exact Pc.noConfusion)
  refine ⟨_, y, hstart, play_runs hplay, h0, (Prod.mk.inj h1).1, hshared, c', pc', hnext, hruns ?_⟩
  intro a k ha
  rw [h0] at ha
  exact absurd ha (by simp)

end Many
end Buddy
end MikroKernel
