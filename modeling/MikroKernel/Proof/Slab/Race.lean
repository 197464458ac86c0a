import MikroKernel.Proof.Slab.Runs

/-!
# Two CPUs in `kmem_cache_kalloc`

`kmem_cache_kalloc` gives up `slab_lock` around the growth and does not look at the lists again
when it has it back: the second section takes whatever is first on `free_slabs`. Here two CPUs run
the call on one cache, one of its atomic pieces at a time: the first section, the growth, the
second section (`Config.step`). A schedule says whose turn it is.

The second section expects the slab its own growth has put on the list. **The other CPU's first
section may take that slab in between**, and then `free_slabs` is empty and the second section pops
from `container_of` of the list's own sentinel, which is the address of the cache
(`second_section_pops_sentinel`). That is the only way to go wrong: `Claimed` holds of a complete
schedule if and only if no first section runs between the other CPU's successful growth and its
second section (`claimed_iff_calm`).
-/

set_option autoImplicit false

namespace MikroKernel
namespace Slab
namespace Race

/-! ## The machine -/

inductive Cpu
  | boot | other
deriving DecidableEq, Repr

/-- The CPU this one races with. -/
def Cpu.rival : Cpu → Cpu
  | .boot => .other
  | .other => .boot

/-- Where a CPU is in `kmem_cache_kalloc`. -/
inductive Pc
  | start
  /-- the first section found no slab and released the lock -/
  | mustGrow
  /-- `kmem_cache_grow` returned -/
  | grown (status : Status)
  | returned (ptr : Nat)
  | stopped (why : Stop)
deriving DecidableEq, Repr

/-- The machine, the slabs of the cache, and the two CPUs. -/
structure Config where
  s : KState
  slabs : List Nat
  pc : Cpu → Pc

def Config.goto (c : Config) (i : Cpu) (pc : Pc) : Config :=
  { c with pc := Function.update c.pc i pc }

/-- The next atomic piece of CPU `i`. -/
def Config.step (L : Layout) (pages : Nat → K Nat) (cache : Nat) (c : Config) (i : Cpu) : Config :=
  match c.pc i with
  | .start =>
    match locked .slabLock (firstSection cache) L c.s with
    | .ok (some ptr, s') => { c with s := s' }.goto i (.returned ptr)
    | .ok (none, s') => { c with s := s' }.goto i .mustGrow
    | .error e => c.goto i (.stopped e)
  | .mustGrow =>
    match kmemCacheGrow pages cache L c.s with
    | .ok (status, s') =>
      { c with s := s', slabs := taken c.s s' ++ c.slabs }.goto i (.grown status)
    | .error e => c.goto i (.stopped e)
  | .grown status =>
    match locked .slabLock (secondSection cache status) L c.s with
    | .ok (ptr, s') => { c with s := s' }.goto i (.returned ptr)
    | .error e => c.goto i (.stopped e)
  | .returned _ => c
  | .stopped _ => c

def Config.run (L : Layout) (pages : Nat → K Nat) (cache : Nat) (c : Config) (sched : List Cpu) :
    Config :=
  sched.foldl (Config.step L pages cache) c

/-- `P` holds of each turn of a schedule. -/
def Along (L : Layout) (pages : Nat → K Nat) (cache : Nat) (P : Config → Cpu → Prop) :
    Config → List Cpu → Prop
  | _, [] => True
  | c, i :: sched => P c i ∧ Along L pages cache P (c.step L pages cache i) sched

instance Along.decidable (L : Layout) (pages : Nat → K Nat) (cache : Nat)
    (P : Config → Cpu → Prop) [∀ c i, Decidable (P c i)] :
    ∀ (c : Config) (sched : List Cpu), Decidable (Along L pages cache P c sched)
  | _, [] => isTrue trivial
  | c, i :: sched =>
    have := Along.decidable L pages cache P (c.step L pages cache i) sched
    inferInstanceAs (Decidable (P c i ∧ Along L pages cache P (c.step L pages cache i) sched))

/-- A CPU alone runs the call, three pieces at most. -/
theorem run_alone (L : Layout) (pages : Nat → K Nat) (cache : Nat) (c : Config) (i : Cpu)
    (hi : c.pc i = .start) :
    match kmemCacheKalloc pages cache L c.s with
    | .ok (ptr, s') => (c.run L pages cache [i, i, i]).s = s' ∧
        (c.run L pages cache [i, i, i]).pc i = .returned ptr
    | .error e => (c.run L pages cache [i, i, i]).pc i = .stopped e := by
  unfold kmemCacheKalloc Config.run
  simp only [List.foldl_cons, List.foldl_nil, K.bind_apply]
  -- piece by piece; a CPU that is done stays where it is
  cases h₁ : locked .slabLock (firstSection cache) L c.s with
  | error e => simp [Config.step, Config.goto, hi, h₁]
  | ok r =>
    obtain ⟨found, s₁⟩ := r
    cases found with
    | some ptr => simp [Config.step, Config.goto, hi, h₁]
    | none =>
      simp only [K.bind_apply]
      cases h₂ : kmemCacheGrow pages cache L s₁ with
      | error e => simp [Config.step, Config.goto, hi, h₁, h₂]
      | ok r =>
        obtain ⟨status, s₂⟩ := r
        cases h₃ : locked .slabLock (secondSection cache status) L s₂ with
        | error e => simp [Config.step, Config.goto, hi, h₁, h₂, h₃]
        | ok r => simp [Config.step, Config.goto, hi, h₁, h₂, h₃]

/-! ## What is claimed of a schedule -/

/-- The descriptor the second section would take now. -/
def Config.desc (L : Layout) (cache : Nat) (c : Config) : Option Nat :=
  match grownSlab cache L c.s with
  | .ok (d, _) => some d
  | .error _ => none

/-- When CPU `i` pops after a successful growth, it pops from a slab of the cache with a free
slot. -/
def PopsFromSlab (L : Layout) (cache : Nat) (c : Config) (i : Cpu) : Prop :=
  c.pc i = .grown .ok → ∃ d ∈ c.slabs, c.desc L cache = some d ∧ c.s.mem d .freeList ≠ 0

/-- The CPUs do not get the same object. -/
def Distinct (c : Config) : Prop :=
  ∀ ptr, c.pc .boot = .returned ptr → c.pc .other = .returned ptr → ptr = 0

def Claimed (L : Layout) (pages : Nat → K Nat) (cache : Nat) (c : Config) (sched : List Cpu) :
    Prop :=
  Along L pages cache (PopsFromSlab L cache) c sched ∧ Distinct (c.run L pages cache sched)

/-- The condition: a first section does not run while the other CPU is between a successful growth
and its second section. -/
def Calm (c : Config) (i : Cpu) : Prop := c.pc i = .start → c.pc i.rival ≠ .grown .ok

instance (c : Config) (i : Cpu) : Decidable (Calm c i) := inferInstanceAs (Decidable (_ → _))

/-- Both CPUs are at the start of the call, on a valid cache. -/
structure Valid {L : Layout} (A : PageSource L) (cache : Nat) (c : Config) : Prop where
  start : ∀ i, c.pc i = .start
  cache : ∃ g live lists chain, Inv A cache g ⟨c.s, live, c.slabs⟩ lists chain

/-- Neither CPU has a piece left to run. -/
def Finished (c : Config) : Prop :=
  ∀ i, (∃ ptr, c.pc i = .returned ptr) ∨ ∃ e, c.pc i = .stopped e

/-! ## Calm turns -/

variable {L : Layout} {A : PageSource L} {g : Geometry} {cache : Nat} {c : Config} {i : Cpu}
  {lists : SlabList → List Nat} {chain : Nat → List Nat} {live : List Nat}

theorem Cpu.rival_ne (i : Cpu) : i.rival ≠ i := by cases i <;> decide

@[simp] theorem Cpu.rival_rival (i : Cpu) : i.rival.rival = i := by cases i <;> rfl

/-- A slab on `free_slabs` is being waited for. -/
def Pc.waits (pc : Pc) : Nat := if pc = .grown .ok then 1 else 0

/-- What holds between calm turns: the cache is valid, there is a free slab for each CPU that has
grown it, and while the other CPU has not started, no more than that. -/
structure Phase (A : PageSource L) (cache : Nat) (g : Geometry) (c : Config)
    (live : List Nat) (lists : SlabList → List Nat) (chain : Nat → List Nat) : Prop where
  inv : Inv A cache g ⟨c.s, live, c.slabs⟩ lists chain
  returned : ∀ i ptr, c.pc i = .returned ptr → ptr ≠ 0 → ptr ∈ live
  distinct : ∀ i ptr, c.pc i = .returned ptr → c.pc i.rival = .returned ptr → ptr = 0
  room : ∀ i, (c.pc i).waits + (c.pc i.rival).waits ≤ (lists .freeSlabs).length
  empty : ∀ i, c.pc i = .mustGrow → c.pc i.rival = .start → candidates lists = []
  single : ∀ i, c.pc i = .grown .ok → c.pc i.rival = .start →
    ∃ p, lists .partialSlabs = [] ∧ lists .freeSlabs = [p]

theorem Valid.phase (h : Valid A cache c) :
    ∃ g live lists chain, Phase A cache g c live lists chain := by
  obtain ⟨g, live, lists, chain, hinv⟩ := h.cache
  refine ⟨g, live, lists, chain, hinv, ?_, ?_, ?_, ?_, ?_⟩ <;> intro i <;>
    simp [h.start, Pc.waits]

/-- One CPU moves on: what is left to check. -/
theorem Phase.goto {s' : KState} {slabs' live' : List Nat} {lists' : SlabList → List Nat}
    {chain' : Nat → List Nat} {pc : Pc} (h : Phase A cache g c live lists chain)
    (hinv : Inv A cache g ⟨s', live', slabs'⟩ lists' chain') (hlive : ∀ o ∈ live, o ∈ live')
    (hstart : pc ≠ .start)
    (hret : ∀ ptr, pc = .returned ptr → ptr ≠ 0 → ptr ∈ live' ∧ ptr ∉ live)
    (hroom : pc.waits + (c.pc i.rival).waits ≤ (lists' .freeSlabs).length)
    (hempty : pc = .mustGrow → c.pc i.rival = .start → candidates lists' = [])
    (hsingle : pc = .grown .ok → c.pc i.rival = .start →
      ∃ p, lists' .partialSlabs = [] ∧ lists' .freeSlabs = [p]) :
    Phase A cache g (Config.goto ⟨s', slabs', c.pc⟩ i pc) live' lists' chain' := by
  have hself : (Config.goto ⟨s', slabs', c.pc⟩ i pc).pc i = pc := Function.update_self _ _ _
  have hrival : (Config.goto ⟨s', slabs', c.pc⟩ i pc).pc i.rival = c.pc i.rival :=
    Function.update_of_ne i.rival_ne _ _
  have hcases : ∀ j : Cpu, j = i ∨ j = i.rival := by
    intro j
    cases i <;> cases j <;> simp [Cpu.rival]
  refine ⟨hinv, ?_, ?_, ?_, ?_, ?_⟩ <;> intro j <;> rcases hcases j with rfl | rfl
  · rw [hself]
    exact fun ptr hp h0 => (hret ptr hp h0).1
  · rw [hrival]
    exact fun ptr hp h0 => hlive _ (h.returned _ ptr hp h0)
  · rw [hself, hrival]
    intro ptr hp hq
    by_contra h0
    exact (hret ptr hp h0).2 (h.returned _ ptr hq h0)
  · rw [Cpu.rival_rival, hself, hrival]
    intro ptr hq hp
    by_contra h0
    exact (hret ptr hp h0).2 (h.returned _ ptr hq h0)
  · rw [hself, hrival]
    exact hroom
  · rw [Cpu.rival_rival, hself, hrival, Nat.add_comm]
    exact hroom
  · rw [hself, hrival]
    exact hempty
  · rw [Cpu.rival_rival, hself]
    exact fun _ hs => absurd hs hstart
  · rw [hself, hrival]
    exact hsingle
  · rw [Cpu.rival_rival, hself]
    exact fun _ hs => absurd hs hstart

/-- A pop from a free slab leaves the other free ones. -/
theorem popped_free {m m' : Mem} {d o : Nat} {lists' : SlabList → List Nat}
    {chain' : Nat → List Nat} (hm : CacheMem L m g cache lists chain live)
    (h : Popped L g cache lists chain live m d o m' lists' chain') (hd : d ∈ lists .freeSlabs) :
    (lists' .freeSlabs).length + 1 = (lists .freeSlabs).length := by
  obtain ⟨j, hj, hiff⟩ := h.home
  have hnd := hm.lists_ok.nodup .freeSlabs
  have hperm : (lists' .freeSlabs).Perm ((lists .freeSlabs).erase d) := by
    refine (List.perm_ext_iff_of_nodup (h.mem.lists_ok.nodup _) (hnd.erase d)).mpr (fun e => ?_)
    rw [hiff, hnd.mem_erase_iff]
    simp [Ne.symm hj]
  rw [hperm.length_eq, List.length_erase_of_mem hd]
  have := List.length_pos_of_mem hd
  omega

/-- The cache after a pop. -/
theorem inv_popped {s' : KState} {m' : Mem} {d o : Nat} {slabs : List Nat}
    {lists' : SlabList → List Nat} {chain' : Nat → List Nat} {s : KState}
    (h : Inv A cache g ⟨s, live, slabs⟩ lists chain)
    (hpop : Popped L g cache lists chain live s.mem d o m' lists' chain') (hm : s'.mem = m')
    (hq : Quiet s s') : Inv A cache g ⟨s', o :: live, slabs⟩ lists' chain' := by
  refine ⟨(h.cache.popped hpop.listed hpop hm hq).1, h.nodup, fun e => ?_⟩
  rw [hpop.slabs]
  exact h.slabs e

/-- The popped object is new. -/
theorem popped_new {m m' : Mem} {d o : Nat} {lists' : SlabList → List Nat}
    {chain' : Nat → List Nat} (h : Popped L g cache lists chain live m d o m' lists' chain') :
    ∀ ptr, Pc.returned o = .returned ptr → ptr ≠ 0 → ptr ∈ o :: live ∧ ptr ∉ live := by
  intro ptr hp _
  cases hp
  exact ⟨by simp, (List.nodup_cons.mp h.mem.live_nodup).1⟩

/-- **A first section** with the other CPU not waiting for a slab. -/
theorem Phase.first (h : Phase A cache g c live lists chain) (hi : c.pc i = .start)
    (hcalm : c.pc i.rival ≠ .grown .ok) :
    ∃ live' lists' chain', Phase A cache g (c.step L A.kmalloc cache i) live' lists' chain' := by
  have hzero : (c.pc i.rival).waits = 0 := if_neg hcalm
  have hci := h.inv.cache
  unfold Config.step
  rw [hi]
  cases hc : candidates lists with
  | cons d ds =>
    obtain ⟨o, m', lists', chain', hedit, hpop⟩ := firstSection_some hci.view hci.mem hc
    obtain ⟨s', hrun, hm, hq⟩ := Edits.locked hci.lock hedit
    refine ⟨o :: live, lists', chain', ?_⟩
    simp only [hrun]
    refine h.goto (inv_popped h.inv hpop hm hq) (fun _ ho => List.mem_cons_of_mem _ ho)
      Pc.noConfusion (popped_new hpop) ?_ Pc.noConfusion Pc.noConfusion
    rw [hzero]
    exact Nat.zero_le _
  | nil =>
    obtain ⟨s', hrun, hm, hq⟩ := Edits.locked hci.lock (firstSection_none hci.mem hc)
    refine ⟨live, lists, chain, ?_⟩
    simp only [hrun]
    refine h.goto ⟨hci.quiet hm hq, h.inv.nodup, h.inv.slabs⟩ (fun _ ho => ho) Pc.noConfusion
      (fun _ hp => Pc.noConfusion hp) ?_ (fun _ _ => hc) Pc.noConfusion
    rw [hzero]
    exact Nat.zero_le _

/-- **A growth** adds a free slab, or nothing. -/
theorem Phase.grow (h : Phase A cache g c live lists chain) (hi : c.pc i = .mustGrow) :
    ∃ live' lists' chain', Phase A cache g (c.step L A.kmalloc cache i) live' lists' chain' := by
  have hroom := h.room i
  have hzero : Pc.mustGrow.waits = 0 := rfl
  rw [hi, hzero, Nat.zero_add] at hroom
  obtain ⟨st, s', hrun, -, hcase⟩ := kmemCacheGrow_returns h.inv.cache
  unfold Config.step
  rw [hi]
  simp only [hrun]
  rcases hcase with ⟨rfl, hblocks, hci, -⟩ | ⟨rfl, p, hfresh, hblocks, -, hci⟩
  · refine ⟨live, lists, chain, ?_⟩
    rw [taken_eq [] 0 hblocks]
    refine h.goto ⟨hci, h.inv.nodup, h.inv.slabs⟩ (fun _ ho => ho) Pc.noConfusion
      (fun _ hp => Pc.noConfusion hp) ?_ Pc.noConfusion (fun hp => by simp at hp)
    rw [show (Pc.grown .error).waits = 0 from rfl]
    omega
  · refine ⟨live, Function.update lists .freeSlabs (p :: lists .freeSlabs),
      Function.update chain p (g.slots p), ?_⟩
    rw [taken_eq [p] g.bytes hblocks]
    refine h.goto ⟨hci, ?_, fun e => ?_⟩ (fun _ ho => ho) Pc.noConfusion
      (fun _ hp => Pc.noConfusion hp) ?_ Pc.noConfusion (fun _ hrival => ?_)
    · refine List.nodup_cons.mpr ⟨fun hp => ?_, h.inv.nodup⟩
      obtain ⟨k, hk⟩ := (h.inv.slabs p).mp hp
      exact hfresh k hk
    · simp only [List.cons_append, List.nil_append, List.mem_cons, mem_added hfresh]
      constructor
      · rintro (rfl | he)
        · exact ⟨.freeSlabs, Or.inl ⟨rfl, rfl⟩⟩
        · obtain ⟨k, hk⟩ := (h.inv.slabs e).mp he
          exact ⟨k, Or.inr ⟨fun hep => hfresh k (hep ▸ hk), hk⟩⟩
      · rintro ⟨k, ⟨rfl, -⟩ | ⟨-, he⟩⟩
        · exact Or.inl rfl
        · exact Or.inr ((h.inv.slabs e).mpr ⟨k, he⟩)
    · rw [Function.update_self, List.length_cons, show (Pc.grown .ok).waits = 1 from rfl]
      omega
    · have hnone := h.empty i hi hrival
      unfold candidates at hnone
      rw [List.append_eq_nil_iff] at hnone
      refine ⟨p, ?_, ?_⟩
      · rw [Function.update_of_ne SlabList.noConfusion]
        exact hnone.1
      · rw [Function.update_self, hnone.2]

/-- **A second section** finds a free slab. -/
theorem Phase.second (h : Phase A cache g c live lists chain) {st : Status}
    (hi : c.pc i = .grown st) :
    PopsFromSlab L cache c i ∧
    ∃ live' lists' chain', Phase A cache g (c.step L A.kmalloc cache i) live' lists' chain' := by
  have hci := h.inv.cache
  have hroom := h.room i
  rw [hi] at hroom
  unfold Config.step PopsFromSlab
  rw [hi]
  cases st with
  | error =>
    obtain ⟨s', hrun, hm, hq⟩ := Edits.locked hci.lock (secondSection_error (L := L) cache)
    refine ⟨fun hp => by simp at hp, live, lists, chain, ?_⟩
    simp only [hrun]
    refine h.goto ⟨hci.quiet hm hq, h.inv.nodup, h.inv.slabs⟩ (fun _ ho => ho) Pc.noConfusion
      (fun ptr hp h0 => ?_) ?_ Pc.noConfusion Pc.noConfusion
    · cases hp
      exact absurd rfl h0
    · rw [show (Pc.returned 0).waits = 0 from rfl]
      omega
  | ok =>
    rw [show (Pc.grown .ok).waits = 1 from rfl] at hroom
    obtain ⟨d, ds, hfree⟩ : ∃ d ds, lists .freeSlabs = d :: ds := by
      cases hl : lists .freeSlabs with
      | nil => rw [hl] at hroom; simp at hroom
      | cons d ds => exact ⟨d, ds, rfl⟩
    have hd : d ∈ lists .freeSlabs := by rw [hfree]; simp
    obtain ⟨o, m', lists', chain', hedit, hpop⟩ := secondSection_ok hci.view hci.mem hfree
    obtain ⟨s', hrun, hm, hq⟩ := Edits.locked hci.lock hedit
    refine ⟨fun _ => ⟨d, (h.inv.slabs d).mpr ⟨_, hd⟩, ?_, ?_⟩, o :: live, lists', chain', ?_⟩
    · have himg : L.image (freeSlabs cache) = true := hci.mem.lists_ok.sentinel .freeSlabs
      unfold Config.desc grownSlab
      rw [K.bind_ok (load_image himg)]
      simp only [K.pure_apply]
      rw [show c.s.mem (freeSlabs cache) .listNext = slabNode d from hci.mem.next_of_cons hfree,
        nodeSlab_slabNode (hci.mem.desc_phys hd)]
    · have hs := hci.mem.slab _ d hd
      obtain ⟨x, rest, hx⟩ := List.exists_cons_of_ne_nil (List.ne_nil_of_mem hpop.slot)
      rw [hx] at hs
      rw [hs.head]
      exact hs.thread.1
    · simp only [hrun]
      refine h.goto (inv_popped h.inv hpop hm hq) (fun _ ho => List.mem_cons_of_mem _ ho)
        Pc.noConfusion (popped_new hpop) ?_ Pc.noConfusion Pc.noConfusion
      have := popped_free hci.mem hpop hd
      rw [show (Pc.returned o).waits = 0 from rfl]
      omega

/-- **A calm turn** keeps the phase, and pops from a slab if it pops. -/
theorem Phase.step (h : Phase A cache g c live lists chain) (hcalm : Calm c i) :
    PopsFromSlab L cache c i ∧
    ∃ live' lists' chain', Phase A cache g (c.step L A.kmalloc cache i) live' lists' chain' := by
  cases hi : c.pc i with
  | start =>
    refine ⟨fun hp => ?_, h.first hi (hcalm hi)⟩
    rw [hi] at hp
    exact Pc.noConfusion hp
  | mustGrow =>
    refine ⟨fun hp => ?_, h.grow hi⟩
    rw [hi] at hp
    exact Pc.noConfusion hp
  | grown st => exact h.second hi
  | returned ptr =>
    refine ⟨fun hp => ?_, live, lists, chain, ?_⟩
    · rw [hi] at hp
      exact Pc.noConfusion hp
    · unfold Config.step
      rw [hi]
      exact h
  | stopped e =>
    refine ⟨fun hp => ?_, live, lists, chain, ?_⟩
    · rw [hi] at hp
      exact Pc.noConfusion hp
    · unfold Config.step
      rw [hi]
      exact h

/-- A calm schedule. -/
theorem Phase.claimed : ∀ {sched : List Cpu} {c : Config} {live : List Nat}
    {lists : SlabList → List Nat} {chain : Nat → List Nat}, Phase A cache g c live lists chain →
    Along L A.kmalloc cache Calm c sched → Claimed L A.kmalloc cache c sched
  | [], _, _, _, _, h, _ => ⟨trivial, h.distinct .boot⟩
  | _ :: _, _, _, _, _, h, hcalm => by
    obtain ⟨hpop, live', lists', chain', h'⟩ := h.step hcalm.1
    have hrest := h'.claimed hcalm.2
    exact ⟨⟨hpop, hrest.1⟩, hrest.2⟩

/-! ## A turn that is not calm -/

/-- `free_slabs` is empty and CPU `i` is about to pop from it; the other CPU is done. -/
structure Stranded (L : Layout) (cache : Nat) (c : Config) (i : Cpu) : Prop where
  grown : c.pc i = .grown .ok
  done : ∃ ptr, c.pc i.rival = .returned ptr
  image : ∀ j, j < cacheSize → L.image (cache + j) = true
  empty : c.s.mem (freeSlabs cache) .listNext = freeSlabs cache
  phys : ∀ d ∈ c.slabs, L.phys d = true

/-- `container_of` of the sentinel is the cache, which is no slab. -/
theorem Stranded.not_pops (h : Stranded L cache c i) : ¬ PopsFromSlab L cache c i := by
  intro hp
  obtain ⟨d, hd, hdesc, -⟩ := hp h.grown
  have himg : L.image (freeSlabs cache) = true := h.image 24 (by decide)
  have hlt := L.image_lt _ himg
  unfold Config.desc grownSlab at hdesc
  rw [K.bind_ok (load_image himg)] at hdesc
  simp only [K.pure_apply, Option.some.injEq, h.empty] at hdesc
  have : cache = d := by
    rw [← hdesc]
    unfold nodeSlab sub64 freeSlabs
    unfold freeSlabs at hlt
    omega
  exact image_ne_phys (h.image 0 (by decide)) (h.phys d hd) this

/-- The stranded CPU pops in the end. -/
theorem Stranded.not_along (h : Stranded L cache c i) : ∀ (sched : List Cpu),
    Finished (c.run L A.kmalloc cache sched) →
    ¬ Along L A.kmalloc cache (PopsFromSlab L cache) c sched
  | [], hfin, _ => by
    rcases hfin i with ⟨ptr, hp⟩ | ⟨e, hp⟩ <;>
      · have hgrown := h.grown
        rw [show c.pc i = _ from hp] at hgrown
        exact Pc.noConfusion hgrown
  | j :: sched, hfin, halong => by
    by_cases hj : j = i
    · subst hj
      exact h.not_pops halong.1
    · have hrival : j = i.rival := by
        revert hj
        cases i <;> cases j <;> simp [Cpu.rival]
      obtain ⟨ptr, hptr⟩ := h.done
      have hstay : c.step L A.kmalloc cache j = c := by
        unfold Config.step
        rw [hrival, hptr]
      have hrest := halong.2
      rw [hstay] at hrest
      refine h.not_along sched ?_ hrest
      rw [← hstay]
      exact hfin

/-- **A first section in the window** takes the slab the other CPU has grown. -/
theorem Phase.stranded (h : Phase A cache g c live lists chain) (hi : c.pc i = .start)
    (hrival : c.pc i.rival = .grown .ok) :
    Stranded L cache (c.step L A.kmalloc cache i) i.rival := by
  have hci := h.inv.cache
  obtain ⟨p, hpart, hfree⟩ := h.single i.rival hrival (by rwa [Cpu.rival_rival])
  have hc : candidates lists = [p] := by
    unfold candidates
    rw [hpart, hfree]
    rfl
  obtain ⟨o, m', lists', chain', hedit, hpop⟩ := firstSection_some hci.view hci.mem hc
  obtain ⟨s', hrun, hm, hq⟩ := Edits.locked hci.lock hedit
  have hinv := inv_popped h.inv hpop hm hq
  have hlen := popped_free hci.mem hpop (by rw [hfree]; simp)
  have hnil : lists' .freeSlabs = [] := by
    rw [hfree] at hlen
    exact List.length_eq_zero_iff.mp (by simpa using hlen)
  have hstep : c.step L A.kmalloc cache i = Config.goto ⟨s', c.slabs, c.pc⟩ i (.returned o) := by
    unfold Config.step
    rw [hi]
    simp only [hrun]
  rw [hstep]
  refine ⟨?_, ⟨o, ?_⟩, hci.mem.image, hinv.cache.mem.next_of_nil hnil, fun d hd => ?_⟩
  · show Function.update c.pc i _ i.rival = _
    rw [Function.update_of_ne i.rival_ne, hrival]
  · rw [Cpu.rival_rival]
    exact Function.update_self _ _ _
  · obtain ⟨k, hk⟩ := (hinv.slabs d).mp hd
    exact hinv.cache.mem.desc_phys hk

/-- A complete schedule whose pops are sound is calm. -/
theorem Phase.calm_of_along : ∀ {sched : List Cpu} {c : Config} {live : List Nat}
    {lists : SlabList → List Nat} {chain : Nat → List Nat}, Phase A cache g c live lists chain →
    Finished (c.run L A.kmalloc cache sched) →
    Along L A.kmalloc cache (PopsFromSlab L cache) c sched → Along L A.kmalloc cache Calm c sched
  | [], _, _, _, _, _, _, _ => trivial
  | i :: sched, c, _, _, _, h, hfin, halong => by
    have hcalm : Calm c i := by
      intro hi hrival
      exact (h.stranded hi hrival).not_along sched hfin halong.2
    obtain ⟨-, live', lists', chain', h'⟩ := h.step hcalm
    exact ⟨hcalm, h'.calm_of_along hfin halong.2⟩

/-- **The claim holds of a complete schedule iff no first section runs in the other CPU's window**,
between its successful growth and its second section. A calm schedule need not be complete. -/
theorem claimed_iff_calm (h : Valid A cache c) (sched : List Cpu) :
    (Along L A.kmalloc cache Calm c sched → Claimed L A.kmalloc cache c sched) ∧
    (Finished (c.run L A.kmalloc cache sched) →
      (Claimed L A.kmalloc cache c sched ↔ Along L A.kmalloc cache Calm c sched)) := by
  obtain ⟨g, live, lists, chain, hphase⟩ := h.phase
  refine ⟨hphase.claimed, fun hfin => ⟨fun hc => ?_, hphase.claimed⟩⟩
  exact hphase.calm_of_along hfin hc.1

/-! ## Schedules on the small machine -/

/-- The new cache of the small machine, both CPUs about to allocate. -/
def raceStart : Option Config := smallCache.map fun c => ⟨c.s, c.slabs, fun _ => .start⟩

theorem raceStart_valid (h : raceStart = some c) : Valid smallSource 0xFFFFFFFF80100000 c := by
  obtain ⟨client, hclient, rfl⟩ := Option.map_eq_some_iff.mp h
  obtain ⟨g, hinv⟩ := Inv.start (smallCache_start hclient)
  exact ⟨fun _ => rfl, g, client.live, _, _, hinv⟩

/-- One CPU has grown the cache when the other's first section runs. -/
theorem raceStart_window : (raceStart.map fun c =>
      let c := c.run smallLayout smallSource.kmalloc 0xFFFFFFFF80100000 [.boot, .boot, .other]
      (c.pc .boot, c.slabs, c.desc smallLayout 0xFFFFFFFF80100000))
    = some (.grown .ok, [0x400000], some 0xFFFFFFFF80100000) := by
  decide +kernel

/-- **The second section pops from the sentinel**: the CPU that grew the cache computes the address
of the cache itself as its descriptor. -/
theorem second_section_pops_sentinel : ∃ c : Config, Valid smallSource 0xFFFFFFFF80100000 c ∧
    ¬ Claimed smallLayout smallSource.kmalloc 0xFFFFFFFF80100000 c
      [.boot, .boot, .other, .boot] := by
  obtain ⟨c, hc, hres⟩ := Option.map_eq_some_iff.mp raceStart_window
  obtain ⟨hpc, hres⟩ := Prod.mk.inj hres
  obtain ⟨hslabs, hdesc⟩ := Prod.mk.inj hres
  refine ⟨c, raceStart_valid hc, ?_⟩
  rintro ⟨⟨-, -, -, hpop, -⟩, -⟩
  obtain ⟨d, hd, hd', -⟩ := hpop hpc
  have h1 : d = 0x400000 := by
    have : d ∈ [0x400000] := hslabs ▸ hd
    simpa using this
  have h2 : some d = some 0xFFFFFFFF80100000 := hd'.symm.trans hdesc
  rw [h1] at h2
  exact absurd h2 (by decide)

/-- Both CPUs grow the cache before either pops. -/
theorem raceStart_turns : (raceStart.map fun c =>
      (decide (Along smallLayout smallSource.kmalloc 0xFFFFFFFF80100000 Calm c
        [.boot, .other, .boot, .other, .boot, .other]),
        (c.run smallLayout smallSource.kmalloc 0xFFFFFFFF80100000
          [.boot, .other, .boot, .other, .boot, .other]).pc .boot))
    = some (true, .returned 0x402030) := by
  decide +kernel

theorem claimed_iff_calm_turns : ∃ c : Config, Valid smallSource 0xFFFFFFFF80100000 c ∧
    (c.run smallLayout smallSource.kmalloc 0xFFFFFFFF80100000
      [.boot, .other, .boot, .other, .boot, .other]).pc .boot = .returned 0x402030 ∧
    Claimed smallLayout smallSource.kmalloc 0xFFFFFFFF80100000 c
      [.boot, .other, .boot, .other, .boot, .other] := by
  obtain ⟨c, hc, hres⟩ := Option.map_eq_some_iff.mp raceStart_turns
  obtain ⟨hcalm, hpc⟩ := Prod.mk.inj hres
  exact ⟨c, raceStart_valid hc, hpc,
    (claimed_iff_calm (raceStart_valid hc) _).1 (of_decide_eq_true hcalm)⟩

end Race
end Slab
end MikroKernel
