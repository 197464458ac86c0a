import MikroKernel.Proof.Slab.Race
import MikroKernel.Proof.Vm.Agree

/-!
# Two CPUs in `kunmap_pages`

`kunmap_pages` looks the VMA up before it takes `kernel_page_lock`, and does not look again under
it. Here two CPUs run the call on addresses of one VMA, one atomic piece at a time: the lookup, and
the section under the lock. The VMAs given to `kmem_cache_kfree` are kept in the ghost `freed`.

**If one CPU looks up while the other is between its lookup and its section, both hold the same
VMA**, and the second section takes out of the tree and frees what the first has freed
(`section_uses_freed_vma`). That is the only way to go wrong: `claimed_iff_calm_lookups`.
-/

set_option autoImplicit false

namespace MikroKernel
namespace Vm
namespace Race

open RedBlack RedBlack.RBTree
open Slab.Race (Cpu)

/-! ## The machine -/

/-- Where a CPU is in `kunmap_pages`. -/
inductive Pc
  | start
  /-- the lookup found a VMA, and the lock is not taken yet -/
  | found (vma : Nat)
  | returned
  | stopped (why : Stop)
deriving DecidableEq, Repr

structure Config where
  s : KState
  freed : List Nat
  pc : Cpu → Pc

def Config.goto (c : Config) (i : Cpu) (pc : Pc) : Config :=
  { c with pc := Function.update c.pc i pc }

section

variable {L : Layout} (fuel : Nat) (A : KernelAlloc L) (V : Statics) (args : Cpu → Mmu.Args)

/-- The section up to `kmem_cache_kfree`. -/
def enterSection (vma : Nat) : K Unit := do
  spinlockAcquire .kernelPageLock
  takeOut fuel V vma

/-- The rest of the section. -/
def leaveSection (a : Mmu.Args) : K Unit := do
  unmapPages A.kfree (← load V.kernelPml4t .ptr) a.paddr a.vaddr a.flags a.numPages
  spinlockRelease .kernelPageLock

/-- The next atomic piece of CPU `i`. A CPU that panics in `unmap_pages` keeps the lock; of what
`unmap_pages` had written by then nothing is kept here, as it is in page tables, and no piece that
can still run reads these. -/
def Config.step (c : Config) (i : Cpu) : Config :=
  match c.pc i with
  | .start =>
    match rbFindVma fuel V.kernelRbRoot (args i).vaddr L c.s with
    | .ok (vma, s') => { c with s := s' }.goto i (if vma = 0 then .returned else .found vma)
    | .error e => c.goto i (.stopped e)
  | .found vma =>
    match enterSection fuel V vma L c.s with
    | .ok (_, s₁) =>
      match leaveSection A V (args i) L s₁ with
      | .ok (_, s₂) => { c with s := s₂, freed := vma :: c.freed }.goto i .returned
      | .error e => { c with s := s₁, freed := vma :: c.freed }.goto i (.stopped e)
    | .error e => c.goto i (.stopped e)
  | .returned => c
  | .stopped _ => c

def Config.run (c : Config) (sched : List Cpu) : Config := sched.foldl (Config.step fuel A V args) c

/-- `P` holds of each turn of a schedule. -/
def Along (P : Config → Cpu → Prop) : Config → List Cpu → Prop
  | _, [] => True
  | c, i :: sched => P c i ∧ Along P (c.step fuel A V args i) sched

instance Along.decidable (P : Config → Cpu → Prop) [∀ c i, Decidable (P c i)] :
    ∀ (c : Config) (sched : List Cpu), Decidable (Along fuel A V args P c sched)
  | _, [] => isTrue trivial
  | c, i :: sched =>
    have := Along.decidable P (c.step fuel A V args i) sched
    inferInstanceAs (Decidable (P c i ∧ Along fuel A V args P (c.step fuel A V args i) sched))

end

variable {L : Layout} {A : KernelAlloc L} {V : Statics} {args : Cpu → Mmu.Args} {fuel : Nat}
  {c : Config} {i : Cpu}

/-- A CPU alone runs the call, two pieces at most. -/
theorem run_alone (c : Config) (i : Cpu) (hi : c.pc i = .start) :
    match kunmap fuel A.kfree V (args i) L c.s with
    | .ok (_, s') =>
      (c.run fuel A V args [i, i]).s = s' ∧ (c.run fuel A V args [i, i]).pc i = .returned
    | .error e => (c.run fuel A V args [i, i]).pc i = .stopped e := by
  unfold kunmap kunmapPages Config.run
  simp only [List.foldl_cons, List.foldl_nil, K.bind_apply]
  cases h₁ : rbFindVma fuel V.kernelRbRoot (args i).vaddr L c.s with
  | error e => simp [Config.step, Config.goto, hi, h₁]
  | ok r =>
    obtain ⟨vma, s₁⟩ := r
    by_cases h0 : vma = 0
    · simp [Config.step, Config.goto, hi, h₁, h0]
    · have hsplit :
        locked .kernelPageLock (unmapSection fuel A.kfree V vma (args i).paddr (args i).vaddr
          (args i).flags (args i).numPages) = (do
            enterSection fuel V vma
            leaveSection A V (args i)) := by
        rw [unmapSection_eq]
        simp only [locked, enterSection, leaveSection, K.bind_assoc']
        rfl
      simp only [if_neg h0, hsplit, K.bind_apply]
      cases h₂ : enterSection fuel V vma L s₁ with
      | error e => simp [Config.step, Config.goto, hi, h₁, h0, h₂]
      | ok r =>
        obtain ⟨⟨⟩, s₂⟩ := r
        cases h₃ : leaveSection A V (args i) L s₂ with
        | error e => simp [Config.step, Config.goto, hi, h₁, h0, h₂, h₃]
        | ok r => simp [Config.step, Config.goto, hi, h₁, h0, h₂, h₃]

/-! ## What is claimed of a schedule -/

/-- When CPU `i` gets into its section, its VMA has not been freed. -/
def UsesLive (c : Config) (i : Cpu) : Prop :=
  ∀ vma, c.pc i = .found vma → (c.s.lock .kernelPageLock).Free → vma ∉ c.freed

/-- No VMA is used after it was freed, and none is freed twice. -/
def Claimed (fuel : Nat) (A : KernelAlloc L) (V : Statics) (args : Cpu → Mmu.Args) (c : Config)
    (sched : List Cpu) : Prop :=
  Along fuel A V args UsesLive c sched ∧ (c.run fuel A V args sched).freed.Nodup

/-- The CPU is between its lookup and its section. -/
def Pc.holds : Pc → Bool
  | .found _ => true
  | _ => false

/-- The condition: no lookup runs while the other CPU is between its lookup and its section. -/
def CalmLookup (c : Config) (i : Cpu) : Prop := c.pc i = .start → (c.pc i.rival).holds = false

instance (c : Config) (i : Cpu) : Decidable (CalmLookup c i) := inferInstanceAs (Decidable (_ → _))

/-- Neither CPU has a piece left to run. -/
def Finished (c : Config) : Prop := ∀ i, c.pc i = .returned ∨ ∃ e, c.pc i = .stopped e

/-- A consistent address space, and a VMA that both addresses are in. Each call, were it alone,
would merge the tables it gives back with free blocks only. -/
structure Setting (fuel : Nat) (A : KernelAlloc L) (V : Statics) (args : Cpu → Mmu.Args)
    (s : KState) (pml4 : Nat) (t : RBTree Nat) (live : List Nat) (T : Mmu.Tables) (x : Nat) :
    Prop where
  space : Space A V pml4 s t live T
  lock : (s.lock .kernelPageLock).Free
  apart : Apart s.mem t.toList
  node : x ∈ t.toList
  inside : ∀ i, Contains s.mem (args i).vaddr x
  sound : ∀ i, FreesSound A.toPhysAlloc (fun kfree => kunmap fuel kfree V (args i)) s
  fuel_gt : t.toList.length < fuel

/-- Both CPUs are at the start of the call. -/
structure Valid (fuel : Nat) (A : KernelAlloc L) (V : Statics) (args : Cpu → Mmu.Args)
    (c : Config) : Prop where
  start : ∀ i, c.pc i = .start
  freed : c.freed = []
  setting : ∃ pml4 t live T x, Setting fuel A V args c.s pml4 t live T x

/-- The calls name the pages as they are mapped. -/
def Named (A : KernelAlloc L) (V : Statics) (args : Cpu → Mmu.Args) (s : KState) : Prop :=
  ∀ i T, Mmu.Inv A.toPhysAlloc (s.mem V.kernelPml4t .ptr) s T → ¬ (args i).Wrong T

/-! ## Turns -/

variable {s : KState} {pml4 x : Nat} {t : RBTree Nat} {live : List Nat} {T : Mmu.Tables}

/-- An address is in one VMA only. -/
theorem contains_unique {m : Mem} {l : List Nat} {addr y z : Nat} (h : Apart m l)
    (hy : y ∈ l) (hz : z ∈ l) (hiny : Contains m addr y) (hinz : Contains m addr z) : y = z := by
  by_contra hne
  have hsymm : Std.Symm (fun a b => m (vmaOf a) .vmaEnd ≤ m (vmaOf b) .vmaStart ∨
      m (vmaOf b) .vmaEnd ≤ m (vmaOf a) .vmaStart) := ⟨fun _ _ => Or.symm⟩
  have hor := (List.Pairwise.imp (fun {a b} hab => Or.inl (b := m (vmaOf b) .vmaEnd ≤
    m (vmaOf a) .vmaStart) hab) h).forall hy hz hne
  unfold Contains at hiny hinz
  omega

/-- **The lookup finds the VMA** and changes nothing. -/
theorem Setting.lookup (h : Setting fuel A V args s pml4 t live T x) (i : Cpu) :
    rbFindVma fuel V.kernelRbRoot (args i).vaddr L s = .ok (vmaOf x, s) ∧ vmaOf x ≠ 0 := by
  have hheight := height_le_length t
  have hfuel := h.fuel_gt
  obtain ⟨r, hedit, hfound⟩ := findVma_spec (args i).vaddr h.space.view h.space.tree
    (fun y hy => h.space.stored_vma hy) h.apart (show t.height ≤ fuel by omega)
  have h0 : vmaOf x ≠ 0 := by
    obtain ⟨b, hb, -, hbin⟩ := h.space.object_block (h.space.node_object h.node).2
    have := (A.ok_blocks h.space.tables.ok b hb).1
    omega
  rcases hfound with ⟨-, hnone⟩ | ⟨y, hy, rfl, hin⟩
  · exact absurd (h.inside i) (hnone x h.node)
  · obtain rfl := contains_unique h.apart hy h.node hin (h.inside i)
    exact ⟨hedit s rfl rfl, h0⟩

/-- The address space without the VMA. -/
def Gone (fuel : Nat) (A : KernelAlloc L) (V : Statics) (args : Cpu → Mmu.Args) (s : KState) :
    Prop :=
  ∃ pml4 t live T, Space A V pml4 s t live T ∧ Apart s.mem t.toList ∧ t.toList.length < fuel ∧
    ∀ i, ∀ y ∈ t.toList, ¬ Contains s.mem (args i).vaddr y

/-- The lookup finds nothing any more. -/
theorem Gone.lookup (h : Gone fuel A V args s) (i : Cpu) :
    rbFindVma fuel V.kernelRbRoot (args i).vaddr L s = .ok (0, s) := by
  obtain ⟨pml4, t, live, T, hspace, hapart, hfuel, hnone⟩ := h
  have hheight := height_le_length t
  obtain ⟨r, hedit, hfound⟩ := findVma_spec (args i).vaddr hspace.view hspace.tree
    (fun y hy => hspace.stored_vma hy) hapart (show t.height ≤ fuel by omega)
  rcases hfound with ⟨rfl, -⟩ | ⟨y, hy, -, hin⟩
  · exact hedit s rfl rfl
  · exact absurd hin (hnone i y hy)

/-- The VMAs that are left, with their ranges as before. -/
theorem Setting.gone {s' : KState} {t' : RBTree Nat} {live' l₁ l₂ : List Nat} {T' : Mmu.Tables}
    (h : Setting fuel A V args s pml4 t live T x) (hl : t.toList = l₁ ++ x :: l₂)
    (hspace : Space A V pml4 s' t' live' T') (hl' : t'.toList = l₁ ++ l₂)
    (hranges : t'.toList.map (range s'.mem) = (l₁ ++ l₂).map (range s.mem)) :
    Gone fuel A V args s' := by
  have hperm : ∀ y ∈ l₁ ++ l₂, y ∈ t.toList := by
    intro y hy
    rw [hl]
    exact List.perm_middle.mem_iff.mpr (List.mem_cons_of_mem _ hy)
  have hsame : ∀ y ∈ l₁ ++ l₂, range s'.mem y = range s.mem y := by
    rw [hl'] at hranges
    exact List.map_inj_left.mp hranges
  have hnd := h.space.tree.at_.nodup
  have hap := h.apart
  have hlen := h.fuel_gt
  rw [hl] at hnd hap hlen
  refine ⟨pml4, t', live', T', hspace, ?_, ?_, fun i y hy hin => ?_⟩
  · rw [hl']
    have hsub : Apart s.mem (l₁ ++ l₂) :=
      List.Pairwise.sublist (List.Sublist.append_left (List.sublist_cons_self _ _) _) hap
    refine List.Pairwise.imp_of_mem (fun {a b} ha hb hle => ?_) hsub
    have h1 := congrArg Prod.snd (hsame a ha)
    have h2 := congrArg Prod.fst (hsame b hb)
    simp only [range] at h1 h2
    rwa [h1, h2]
  · rw [hl', List.length_append]
    simp only [List.length_append, List.length_cons] at hlen
    omega
  · rw [hl'] at hy
    have hin' : Contains s.mem (args i).vaddr y := by
      have h1 := hsame y hy
      simp only [range, Prod.mk.injEq] at h1
      unfold Contains at hin ⊢
      rwa [h1.1, h1.2] at hin
    have hyx := contains_unique h.apart (hperm y hy) h.node hin' (h.inside i)
    exact (List.nodup_cons.mp (List.nodup_middle.mp hnd)).1 (hyx ▸ hy)

/-- The tables given back in the section that comes first. -/
theorem Setting.sound_section (h : Setting fuel A V args s pml4 t live T x) (i : Cpu) {s₁ : KState}
    (htake : takeOut fuel V (vmaOf x) L (s.acquired .kernelPageLock) = .ok ((), s₁))
    (hload : load V.kernelPml4t .ptr L s₁ = .ok (pml4, s₁)) :
    (args i).Sound A.toPhysAlloc pml4 s₁ := by
  obtain ⟨hlookup, h0⟩ := h.lookup i
  have hsound := h.sound i
  dsimp only [FreesSound, kunmap, kunmapPages] at hsound
  replace hsound := K.calm_rest hsound hlookup
  rw [if_neg h0] at hsound
  replace hsound := K.calm_locked h.lock hsound
  rw [unmapSection_eq] at hsound
  replace hsound := K.calm_rest hsound htake
  exact K.calm_rest hsound hload

/-- **The section** of the CPU that comes first: it returns with the lock free, or it panics because
the call does not name the pages as they are. -/
theorem Setting.section_ (h : Setting fuel A V args s pml4 t live T x) (i : Cpu) :
    ∃ s₁, enterSection fuel V (vmaOf x) L s = .ok ((), s₁) ∧ Gone fuel A V args s₁ ∧
      ((∃ s₂, leaveSection A V (args i) L s₁ = .ok ((), s₂) ∧ Gone fuel A V args s₂ ∧
          (s₂.lock .kernelPageLock).Free) ∨
        ∃ e, leaveSection A V (args i) L s₁ = .error e ∧ (args i).Wrong T) := by
  have hheight := height_le_length t
  have hfuel := h.fuel_gt
  obtain ⟨s₁, t', l₁, l₂, htake, h₁, hlock, hl, hl', hranges⟩ :=
    h.space.acquired.takeOut h.node (show t.height < fuel by omega)
  refine ⟨s₁, ?_, h.gone hl h₁ hl' hranges, ?_⟩
  · unfold enterSection
    rw [K.bind_ok (spinlockAcquire_free h.lock)]
    exact htake
  · have hload : load V.kernelPml4t .ptr L s₁ = .ok (pml4, s₁) :=
      Edits.load h₁.placed.pml4 h₁.pml4_eq s₁ rfl rfl
    unfold leaveSection
    rw [K.bind_ok hload]
    rcases Mmu.unmap_yields (args i) h₁.tables h₁.full (h.sound_section i htake hload) with
      ⟨⟨⟩, s₂, hrun, T', hinv, hfull, hframe, -⟩ | ⟨msg, hrun, hw⟩
    · have h₂ := h₁.retable hinv hfull hframe
      unfold Mmu.Args.unmap at hrun
      refine Or.inl ⟨s₂.released .kernelPageLock, ?_, ?_, ?_⟩
      · rw [K.bind_ok hrun]
        rfl
      · refine h.gone hl h₂.released hl' ?_
        rw [KState.released_mem, h₁.ranges_kept (fun a f ha => h₁.objects_kept hframe f ha),
          hranges]
        rfl
      · exact KState.released_free h.lock
          ((hframe.lock _ (by decide)).trans (hlock _ (by decide)))
    · unfold Mmu.Args.unmap at hrun
      exact Or.inr ⟨.panic msg, by rw [K.bind_apply, hrun], hw⟩

/-! ## Calm schedules -/

theorem forall_cpu {P : Cpu → Prop} (i : Cpu) (hi : P i) (hr : P i.rival) : ∀ j, P j := by
  intro j
  cases i <;> cases j
  · exact hi
  · exact hr
  · exact hr
  · exact hi

theorem goto_self (c : Config) (i : Cpu) (pc : Pc) : (c.goto i pc).pc i = pc :=
  Function.update_self _ _ _

theorem goto_rival (c : Config) (i : Cpu) (pc : Pc) : (c.goto i pc).pc i.rival = c.pc i.rival :=
  Function.update_of_ne i.rival_ne _ _

/-- What holds between calm turns: at first nothing has changed and one CPU at most has looked up;
then the VMA is gone and nobody holds it. -/
inductive Phase (fuel : Nat) (A : KernelAlloc L) (V : Statics) (args : Cpu → Mmu.Args) (s : KState)
    (x : Nat) (c : Config) : Prop
  | before : c.s = s → c.freed = [] → (∀ i, c.pc i = .start ∨ c.pc i = .found (vmaOf x)) →
      (∀ i, (c.pc i).holds = true → c.pc i.rival = .start) → Phase fuel A V args s x c
  | after : Gone fuel A V args c.s → c.freed = [vmaOf x] → (∀ i, (c.pc i).holds = false) →
      Phase fuel A V args s x c

/-- A turn with a lookup, at first. -/
theorem Setting.step_lookup (h : Setting fuel A V args s pml4 t live T x) (hs : c.s = s)
    (hi : c.pc i = .start) : c.step fuel A V args i = c.goto i (.found (vmaOf x)) := by
  obtain ⟨hrun, h0⟩ := h.lookup i
  subst hs
  unfold Config.step
  rw [hi]
  simp only [hrun, if_neg h0]

/-- A turn with a section, at first. -/
theorem Setting.step_section (h : Setting fuel A V args s pml4 t live T x) (hs : c.s = s)
    (hi : c.pc i = .found (vmaOf x)) :
    ∃ s' pc, c.step fuel A V args i = Config.goto ⟨s', vmaOf x :: c.freed, c.pc⟩ i pc ∧
      Gone fuel A V args s' ∧ pc.holds = false ∧ pc ≠ .start ∧
      (¬ (args i).Wrong T → pc = .returned ∧ (s'.lock .kernelPageLock).Free) := by
  obtain ⟨s₁, henter, hgone, ⟨s₂, hleave, hgone₂, hfree⟩ | ⟨e, hleave, hw⟩⟩ := h.section_ i
    <;> subst hs
  · refine ⟨s₂, .returned, ?_, hgone₂, rfl, Pc.noConfusion, fun _ => ⟨rfl, hfree⟩⟩
    unfold Config.step
    rw [hi]
    simp only [henter, hleave]
  · refine ⟨s₁, .stopped e, ?_, hgone, rfl, Pc.noConfusion, fun hn => absurd hw hn⟩
    unfold Config.step
    rw [hi]
    simp only [henter, hleave]

/-- **A calm turn** keeps the phase, and uses a VMA that is live if it uses one. -/
theorem Phase.step (h : Setting fuel A V args s pml4 t live T x) (hp : Phase fuel A V args s x c)
    (hcalm : CalmLookup c i) :
    UsesLive c i ∧ Phase fuel A V args s x (c.step fuel A V args i) := by
  cases hp with
  | before hs hfreed hpcs hone =>
    refine ⟨fun vma _ _ => by simp [hfreed], ?_⟩
    rcases hpcs i with hi | hi
    · have hrival : c.pc i.rival = .start := by
        rcases hpcs i.rival with hr | hr
        · exact hr
        · have := hcalm hi
          rw [hr] at this
          exact absurd this (by simp [Pc.holds])
      rw [h.step_lookup hs hi]
      refine .before hs hfreed (forall_cpu i (Or.inr (goto_self _ _ _)) (Or.inl ?_))
        (forall_cpu i (fun _ => ?_) ?_)
      · rw [goto_rival, hrival]
      · rw [goto_rival, hrival]
      · rw [goto_rival, hrival]
        exact fun hf => absurd hf (by simp [Pc.holds])
    · obtain ⟨s', pc, hstep, hgone, hpc, -⟩ := h.step_section hs hi
      rw [hstep]
      refine .after hgone (by simp [Config.goto, hfreed]) (forall_cpu i ?_ ?_)
      · rw [goto_self]
        exact hpc
      · rw [goto_rival, show c.pc i.rival = .start from hone i (by rw [hi]; rfl)]
        rfl
  | after hgone hfreed hpcs =>
    have hnone := hpcs i
    cases hi : c.pc i with
    | start =>
      refine ⟨fun vma hv => ?_, ?_⟩
      · rw [hi] at hv
        exact Pc.noConfusion hv
      · have hstep : c.step fuel A V args i = c.goto i .returned := by
          unfold Config.step
          rw [hi]
          simp only [hgone.lookup i, if_true]
        rw [hstep]
        refine .after hgone hfreed (forall_cpu i ?_ ?_)
        · rw [goto_self]
          rfl
        · rw [goto_rival]
          exact hpcs _
    | found vma =>
      rw [hi] at hnone
      exact absurd hnone (by simp [Pc.holds])
    | returned =>
      refine ⟨fun vma hv => ?_, ?_⟩
      · rw [hi] at hv
        exact Pc.noConfusion hv
      · unfold Config.step
        rw [hi]
        exact .after hgone hfreed hpcs
    | stopped e =>
      refine ⟨fun vma hv => ?_, ?_⟩
      · rw [hi] at hv
        exact Pc.noConfusion hv
      · unfold Config.step
        rw [hi]
        exact .after hgone hfreed hpcs

/-- A calm schedule. -/
theorem Phase.claimed (h : Setting fuel A V args s pml4 t live T x) :
    ∀ {sched : List Cpu} {c : Config}, Phase fuel A V args s x c →
      Along fuel A V args CalmLookup c sched → Claimed fuel A V args c sched
  | [], c, hp, _ => by
    refine ⟨trivial, ?_⟩
    show c.freed.Nodup
    cases hp with
    | before _ hfreed => simp [hfreed]
    | after _ hfreed => simp [hfreed]
  | _ :: _, _, hp, hcalm => by
    obtain ⟨huse, hp'⟩ := hp.step h hcalm.1
    have hrest := Phase.claimed h hp' hcalm.2
    exact ⟨⟨huse, hrest.1⟩, hrest.2⟩

/-! ## A lookup in the other CPU's window -/

/-- CPU `i` is about to enter its section with a VMA that was freed. -/
structure Stale (x : Nat) (c : Config) (i : Cpu) : Prop where
  found : c.pc i = .found (vmaOf x)
  done : c.pc i.rival = .returned
  free : (c.s.lock .kernelPageLock).Free
  freed : vmaOf x ∈ c.freed

/-- It enters in the end. -/
theorem Stale.not_along (h : Stale x c i) : ∀ (sched : List Cpu),
    Finished (c.run fuel A V args sched) → ¬ Along fuel A V args UsesLive c sched
  | [], hfin, _ => by
    rcases hfin i with hp | ⟨e, hp⟩ <;>
      · have hf := h.found
        rw [show c.pc i = _ from hp] at hf
        exact Pc.noConfusion hf
  | j :: sched, hfin, halong => by
    by_cases hj : j = i
    · subst hj
      exact halong.1 _ h.found h.free h.freed
    · have hrival : j = i.rival := by
        revert hj
        cases i <;> cases j <;> simp [Cpu.rival]
      have hstay : c.step fuel A V args j = c := by
        unfold Config.step
        rw [hrival, h.done]
      have hrest := halong.2
      rw [hstay] at hrest
      refine h.not_along sched ?_ hrest
      rw [← hstay]
      exact hfin

/-- **Both CPUs hold the VMA**: whoever comes second uses it after it was freed. -/
theorem Setting.not_along (h : Setting fuel A V args s pml4 t live T x) (hs : c.s = s)
    (hboth : ∀ i, c.pc i = .found (vmaOf x)) (hnamed : ∀ i, ¬ (args i).Wrong T) :
    ∀ (sched : List Cpu), Finished (c.run fuel A V args sched) →
      ¬ Along fuel A V args UsesLive c sched
  | [], hfin, _ => by
    rcases hfin .boot with hp | ⟨e, hp⟩ <;>
      · have hf := hboth .boot
        rw [show c.pc .boot = _ from hp] at hf
        exact Pc.noConfusion hf
  | i :: sched, hfin, halong => by
    obtain ⟨s', pc, hstep, -, -, -, hret⟩ := h.step_section hs (hboth i)
    obtain ⟨rfl, hfree⟩ := hret (hnamed i)
    have hstale : Stale x (c.step fuel A V args i) i.rival := by
      rw [hstep]
      refine ⟨?_, ?_, hfree, List.mem_cons_self⟩
      · rw [goto_rival]
        exact hboth _
      · rw [Slab.Race.Cpu.rival_rival, goto_self]
    exact hstale.not_along sched hfin halong.2

/-- A complete schedule that uses live VMAs is calm. -/
theorem Phase.calm_of_along (h : Setting fuel A V args s pml4 t live T x)
    (hnamed : ∀ i, ¬ (args i).Wrong T) :
    ∀ {sched : List Cpu} {c : Config}, Phase fuel A V args s x c →
      Finished (c.run fuel A V args sched) → Along fuel A V args UsesLive c sched →
      Along fuel A V args CalmLookup c sched
  | [], _, _, _, _ => trivial
  | i :: sched, c, hp, hfin, halong => by
    have hcalm : CalmLookup c i := by
      intro hi
      by_contra hholds
      cases hp with
      | after _ _ hpcs => exact hholds (hpcs i.rival)
      | before hs hfreed hpcs hone =>
        have hrival : c.pc i.rival = .found (vmaOf x) := by
          rcases hpcs i.rival with hr | hr
          · exact absurd (by rw [hr]; rfl) hholds
          · exact hr
        have hstep := h.step_lookup hs hi
        refine h.not_along (c := c.step fuel A V args i) ?_ (forall_cpu i ?_ ?_) hnamed sched hfin
          halong.2
        · rw [hstep]
          exact hs
        · rw [hstep, goto_self]
        · rw [hstep, goto_rival, hrival]
    exact ⟨hcalm, Phase.calm_of_along h hnamed (hp.step h hcalm).2 hfin halong.2⟩

theorem Valid.phase (h : Valid fuel A V args c) : Phase fuel A V args c.s x c := by
  refine .before rfl h.freed (fun i => Or.inl (h.start i)) (fun i hh => ?_)
  rw [h.start i] at hh
  exact absurd hh (by simp [Pc.holds])

/-- **The claim holds of every calm schedule**, and where the calls name the pages as they are
mapped, of no other complete one. -/
theorem claimed_iff_calm_lookups (h : Valid fuel A V args c) (sched : List Cpu) :
    (Along fuel A V args CalmLookup c sched → Claimed fuel A V args c sched) ∧
    (Named A V args c.s → Finished (c.run fuel A V args sched) →
      (Claimed fuel A V args c sched ↔ Along fuel A V args CalmLookup c sched)) := by
  obtain ⟨pml4, t, live, T, x, hset⟩ := h.setting
  have hphase : Phase fuel A V args c.s x c := h.phase
  refine ⟨Phase.claimed hset hphase, fun hnamed hfin => ⟨fun hc => ?_, Phase.claimed hset hphase⟩⟩
  refine Phase.calm_of_along hset (fun i => ?_) hphase hfin hc.1
  exact hnamed i T (by rw [hset.space.pml4_eq]; exact hset.space.tables)

/-! ## Schedules on the small machine -/

/-- Two pages are mapped, and both CPUs are about to unmap them. -/
def raceStart : Option Config := (smallRun twoPages).map fun x => ⟨x.2.1, [], fun _ => .start⟩

theorem raceStart_valid (h : raceStart = some c) :
    Valid 4 smallKernelAlloc smallStatics (fun _ => twoPages) c := by
  obtain ⟨⟨s, s₁, s₂⟩, hrun, rfl⟩ := Option.map_eq_some_iff.mp h
  obtain ⟨-, -, hchecked, -⟩ := smallRun_calls hrun
  obtain ⟨pml4, -, hagrees⟩ := smallRun_agrees hrun
  obtain ⟨hlock, t, live, T, hspace, -, hareas⟩ := hagrees.shows_
  obtain ⟨x, hx, hrange⟩ := List.map_eq_singleton_iff.mp hareas
  refine ⟨fun _ => rfl, rfl, pml4, t, live, T, x, hspace, hlock, ?_, by simp [hx], fun _ => ?_,
    fun _ => freesSound_of_ok hchecked, by simp [hx]⟩
  · rw [hx]
    exact List.pairwise_singleton _ _
  · simp only [range, Prod.mk.injEq] at hrange
    unfold Contains
    rw [hrange.1, hrange.2]
    decide

/-- Both look up, and one goes through its section. -/
theorem raceStart_window : (raceStart.map fun c =>
      let c := c.run 4 smallKernelAlloc smallStatics (fun _ => twoPages) [.boot, .other, .boot]
      (c.pc .other, c.freed, decide ((c.s.lock .kernelPageLock).ticket
        = (c.s.lock .kernelPageLock).serving)))
    = some (.found 0x401028, [0x401028], true) := by
  decide +kernel

/-- **A VMA is freed twice**: the second CPU enters its section with the VMA that the first has
freed. -/
theorem section_uses_freed_vma : ∃ c : Config,
    Valid 4 smallKernelAlloc smallStatics (fun _ => twoPages) c ∧
    ¬ Claimed 4 smallKernelAlloc smallStatics (fun _ => twoPages) c [.boot, .other, .boot,
      .other] := by
  obtain ⟨c, hc, hres⟩ := Option.map_eq_some_iff.mp raceStart_window
  obtain ⟨hpc, hres⟩ := Prod.mk.inj hres
  obtain ⟨hfreed, hlock⟩ := Prod.mk.inj hres
  refine ⟨c, raceStart_valid hc, ?_⟩
  rintro ⟨⟨-, -, -, huse, -⟩, -⟩
  have hlock' := of_decide_eq_true hlock
  have hmem : 0x401028 ∈ (c.run 4 smallKernelAlloc smallStatics (fun _ => twoPages)
      [.boot, .other, .boot]).freed := by
    rw [hfreed]
    exact List.mem_singleton_self _
  exact huse _ hpc hlock' hmem

/-- One CPU after the other. -/
theorem raceStart_turns : (raceStart.map fun c =>
      (decide (Along 4 smallKernelAlloc smallStatics (fun _ => twoPages) CalmLookup c
        [.boot, .boot, .other, .other]),
        (c.run 4 smallKernelAlloc smallStatics (fun _ => twoPages)
          [.boot, .boot, .other, .other]).freed))
    = some (true, [0x401028]) := by
  decide +kernel

theorem claimed_iff_calm_lookups_turns : ∃ c : Config,
    Valid 4 smallKernelAlloc smallStatics (fun _ => twoPages) c ∧
    (c.run 4 smallKernelAlloc smallStatics (fun _ => twoPages) [.boot, .boot, .other, .other]).freed
      = [0x401028] ∧
    Claimed 4 smallKernelAlloc smallStatics (fun _ => twoPages) c [.boot, .boot, .other,
        .other] := by
  obtain ⟨c, hc, hres⟩ := Option.map_eq_some_iff.mp raceStart_turns
  obtain ⟨hcalm, hfreed⟩ := Prod.mk.inj hres
  exact ⟨c, raceStart_valid hc, hfreed,
    (claimed_iff_calm_lookups (raceStart_valid hc) _).1 (of_decide_eq_true hcalm)⟩

end Race
end Vm
end MikroKernel
