import MikroKernel.Lib.Run
import MikroKernel.Machine.Spinlock

/-!
# The ticket lock under every interleaving

`spinlocks.asm` on `n` CPUs. A CPU moves one atomic piece at a time (`step`), in any order with
the others: save the flags and mask interrupts, draw a ticket, compare, store the flags in the
lock, and on the way out load them back, serve the next ticket, restore. The counters are the
16-bit ones of `Spinlock`, so a run may wrap them any number of times.

**What is proved** (`ticketLock_safe`): one CPU at a time between its successful comparison and
the increment of `serving`; the CPUs pass the comparison in the order of their draws; what a
release restores is what the matching acquire saved.

The proof keeps three logs the machine does not have: who drew, who entered, who left. Their
lengths `D`, `E`, `R` are the unbounded values of the counters, and the invariant says

* `ticket = D` and `serving = R` modulo `2 ^ 16`;
* entries are a prefix of draws, and `E` is `R` or `R + 1`;
* the draws from `R` on belong to different CPUs, each spinning or holding with exactly that
  draw number.

The last clause bounds `D - R` by the number of CPUs, below `2 ^ 16`, and that is why a 16-bit
comparison that succeeds names the true front of the queue.
-/

set_option autoImplicit false

namespace MikroKernel
namespace TicketLock

open Run

/-! ## The machine -/

/-- Where a CPU is, with the registers that are live there: `rdx` holds saved flags, `ax` the
drawn ticket. -/
inductive Pc
  | outside
  | saved (rdx : Nat)
  | spinning (rdx ax : Nat)
  | locked (rdx : Nat)
  | inside
  | releasing (rdx : Nat)
  | served (rdx : Nat)
deriving DecidableEq, Repr

/-- One CPU. `savedFlags` and `turn` are ghosts: the flags at the last `pushfq`, and the number
of the last draw. -/
structure Cpu where
  pc : Pc
  flags : Nat
  apicId : Nat
  savedFlags : Nat
  turn : Nat
deriving DecidableEq, Repr

/-- The lock, the CPUs, and the logs of draws, of successful comparisons and of increments of
`serving`. -/
structure State (n : Nat) where
  lk : Spinlock
  cpu : Fin n → Cpu
  draws : List (Fin n)
  entries : List (Fin n)
  exits : List (Fin n)

/-- The atomic pieces. `work` is everything a CPU does outside the two routines that can change
its own flags. -/
inductive Act
  | save | draw | compare | enter | work (flags : Nat) | loadFlags | serve | restore
deriving DecidableEq, Repr

variable {n : Nat}

/-- Replace one CPU. -/
def State.setCpu (s : State n) (i : Fin n) (c : Cpu) : State n :=
  { s with cpu := Function.update s.cpu i c }

/-- One piece of one CPU; `none` when the CPU is not at it. -/
def step (s : State n) (i : Fin n) (a : Act) : Option (State n) :=
  let c := s.cpu i
  match a, c.pc with
  | .save, .outside =>
      some (s.setCpu i { c with pc := .saved c.flags, savedFlags := c.flags, flags := cli c.flags })
  | .draw, .saved rdx =>
      let (ax, lk) := s.lk.xadd
      some { (s.setCpu i { c with pc := .spinning rdx ax, turn := s.draws.length }) with
        lk := lk, draws := s.draws ++ [i] }
  | .compare, .spinning rdx ax =>
      if s.lk.serving = ax then
        some { (s.setCpu i { c with pc := .locked rdx }) with entries := s.entries ++ [i] }
      -- `pause; jmp .spin`
      else some s
  | .enter, .locked rdx =>
      some { (s.setCpu i { c with pc := .inside }) with lk := s.lk.enter rdx c.apicId }
  | .work f, .outside => some (s.setCpu i { c with flags := f })
  | .work f, .inside => some (s.setCpu i { c with flags := f })
  | .loadFlags, .inside => some (s.setCpu i { c with pc := .releasing s.lk.rflags })
  | .serve, .releasing rdx =>
      some { (s.setCpu i { c with pc := .served rdx }) with
        lk := s.lk.serve, exits := s.exits ++ [i] }
  | .restore, .served rdx => some (s.setCpu i { c with pc := .outside, flags := rdx })
  | _, _ => none

/-- Some CPU makes some move. -/
def Step (s s' : State n) : Prop := ∃ i a, step s i a = some s'

/-- A whole schedule. -/
def run (s : State n) : List (Fin n × Act) → Option (State n)
  | [] => some s
  | (i, a) :: rest => (step s i a).bind fun s' => run s' rest

theorem reaches_run {s : State n} : ∀ {l : List (Fin n × Act)} {s' t : State n},
    Reaches Step s s' → run s' l = some t → Reaches Step s t
  | [], _, _, hr, h => by
    rw [run, Option.some.injEq] at h
    exact h ▸ hr
  | (i, a) :: rest, _, _, hr, h => by
    obtain ⟨u, hu, ht⟩ := Option.bind_eq_some_iff.mp h
    exact reaches_run (hr.tail ⟨i, a, hu⟩) ht

/-- After `spinlock_init`, every CPU outside, with any flags. -/
def Init (s : State n) : Prop :=
  s.lk = Spinlock.init ∧ (∀ i, (s.cpu i).pc = .outside) ∧
    s.draws = [] ∧ s.entries = [] ∧ s.exits = []

/-- Between the successful comparison and the increment of `serving`. -/
def Pc.Critical : Pc → Prop
  | .locked _ | .inside | .releasing _ => True
  | _ => False

/-! ## The invariant -/

/-- What holds of CPU `i` when it is at a given place, in the lengths of the three logs. The
flags that a release will restore are in `rdx`, then in the lock, and in `rdx` again on the way
out. -/
def PcOk (s : State n) (i : Fin n) (c : Cpu) : Pc → Prop
  | .outside => True
  | .saved rdx => rdx = c.savedFlags
  | .spinning rdx ax => rdx = c.savedFlags ∧ ax = c.turn % 2 ^ 16 ∧
      s.entries.length ≤ c.turn ∧ s.draws[c.turn]? = some i
  | .locked rdx => rdx = c.savedFlags ∧ c.turn = s.exits.length ∧
      s.entries.length = s.exits.length + 1 ∧ s.draws[c.turn]? = some i
  | .inside => s.lk.rflags = c.savedFlags ∧ c.turn = s.exits.length ∧
      s.entries.length = s.exits.length + 1 ∧ s.draws[c.turn]? = some i
  | .releasing rdx => rdx = c.savedFlags ∧ c.turn = s.exits.length ∧
      s.entries.length = s.exits.length + 1 ∧ s.draws[c.turn]? = some i
  | .served rdx => rdx = c.savedFlags

def CpuOk (s : State n) (i : Fin n) : Prop := PcOk s i (s.cpu i) (s.cpu i).pc

/-- The invariant of the lock. -/
structure Inv (s : State n) : Prop where
  ticket : s.lk.ticket = s.draws.length % 2 ^ 16
  serving : s.lk.serving = s.exits.length % 2 ^ 16
  entered : s.entries <+: s.draws
  exited : s.exits.length ≤ s.entries.length
  pending : ∀ d i, s.exits.length ≤ d → s.draws[d]? = some i → (s.cpu i).turn = d ∧
    ((s.cpu i).pc.Critical ∨ ∃ rdx ax, (s.cpu i).pc = .spinning rdx ax)
  cpus : ∀ i, CpuOk s i

/-- The clause of a CPU whose place is known. -/
theorem Inv.at {s : State n} (h : Inv s) {i : Fin n} {p : Pc} (hpc : (s.cpu i).pc = p) :
    PcOk s i (s.cpu i) p := hpc ▸ h.cpus i

theorem Inv.of_init {s : State n} (h : Init s) : Inv s := by
  obtain ⟨hlk, hpc, hd, he, hx⟩ := h
  refine ⟨by rw [hlk, hd]; rfl, by rw [hlk, hx]; rfl, by rw [he]; exact List.nil_prefix,
    by simp [hx], ?_, ?_⟩
  · intro d i _ hdi
    rw [hd] at hdi
    exact absurd hdi (by simp)
  · intro i
    rw [CpuOk, hpc i]
    trivial

/-- **The queue is no longer than the number of CPUs**: each pending draw is some CPU's last. -/
theorem Inv.pending_le {s : State n} (h : Inv s) : s.draws.length ≤ s.exits.length + n := by
  have hnodup : (s.draws.drop s.exits.length).Nodup := by
    rw [List.nodup_iff_getElem?_ne_getElem?]
    intro a b hab hb heq
    rw [List.length_drop] at hb
    rw [List.getElem?_drop, List.getElem?_drop] at heq
    obtain ⟨i, hi⟩ : ∃ i, s.draws[s.exits.length + b]? = some i :=
      ⟨_, List.getElem?_eq_getElem (by omega)⟩
    have h1 := (h.pending _ i (by omega) (heq.trans hi)).1
    have h2 := (h.pending _ i (by omega) hi).1
    omega
  have hcard := hnodup.length_le_card
  rw [List.length_drop, Fintype.card_fin] at hcard
  omega

/-- A CPU in the critical section is the one that drew number `R`. -/
theorem Inv.critical {s : State n} (h : Inv s) {i : Fin n} (hc : (s.cpu i).pc.Critical) :
    s.entries.length = s.exits.length + 1 ∧ s.draws[s.exits.length]? = some i := by
  cases hpc : (s.cpu i).pc with
  | locked _ | inside | releasing _ =>
    have hi := h.at hpc
    exact ⟨hi.2.2.1, hi.2.1 ▸ hi.2.2.2⟩
  | outside | saved _ | spinning _ _ | served _ =>
    rw [hpc] at hc
    exact absurd hc (by simp [Pc.Critical])

/-- **A comparison that succeeds names the front of the queue.** The two numbers agree modulo
`2 ^ 16` and are less than `2 ^ 16` apart. -/
theorem Inv.front {s : State n} (h : Inv s) (hn : n ≤ 65535) {i : Fin n} {rdx ax : Nat}
    (hpc : (s.cpu i).pc = .spinning rdx ax) (hs : s.lk.serving = ax) :
    (s.cpu i).turn = s.exits.length ∧ s.entries.length = s.exits.length ∧
      s.draws[s.entries.length]? = some i := by
  obtain ⟨-, hax, hle, hd⟩ := h.at hpc
  have hlt : (s.cpu i).turn < s.draws.length := (List.getElem?_eq_some_iff.mp hd).1
  have hser := h.serving
  have hex := h.exited
  have hpend := h.pending_le
  have hturn : (s.cpu i).turn = s.exits.length := by omega
  have hent : s.entries.length = s.exits.length := by omega
  refine ⟨hturn, hent, ?_⟩
  rw [hent, ← hturn]
  exact hd

/-! ## One step keeps it

Each piece changes one CPU and at most one log, so what is owed is the moved CPU's clause and,
for the others, that the lengths they mention still fit. -/

/-- The other CPUs do not notice a move that leaves the logs and the lock's flags alone. -/
theorem CpuOk.congr {s t : State n} {j : Fin n} (h : CpuOk s j) (hc : t.cpu j = s.cpu j)
    (hd : t.draws = s.draws) (he : t.entries = s.entries) (hx : t.exits = s.exits)
    (hf : t.lk.rflags = s.lk.rflags) : CpuOk t j := by
  unfold CpuOk at h ⊢
  rw [hc]
  cases hpc : (s.cpu j).pc with
  | outside => trivial
  | saved _ | spinning _ _ | locked _ | inside | releasing _ | served _ =>
    rw [hpc] at h
    simpa only [PcOk, hd, he, hx, hf] using h

/-- A move that only replaces one CPU keeps the invariant, provided the CPU stays in the same
part of the protocol. -/
theorem Inv.setCpu {s : State n} (h : Inv s) {i : Fin n} {c : Cpu}
    (hturn : c.turn = (s.cpu i).turn)
    (hpc : (s.cpu i).pc.Critical ∨ (∃ rdx ax, (s.cpu i).pc = .spinning rdx ax) →
      c.pc.Critical ∨ ∃ rdx ax, c.pc = .spinning rdx ax)
    (hok : CpuOk (s.setCpu i c) i) : Inv (s.setCpu i c) := by
  refine ⟨h.ticket, h.serving, h.entered, h.exited, ?_, ?_⟩
  · intro d j hle hdj
    have hp := h.pending d j hle hdj
    by_cases hij : j = i
    · subst hij
      simp only [State.setCpu, Function.update_self]
      exact ⟨hturn.trans hp.1, hpc hp.2⟩
    · simpa only [State.setCpu, Function.update_of_ne hij] using hp
  · intro j
    by_cases hij : j = i
    · subst hij; exact hok
    · exact (h.cpus j).congr
        (by simp only [State.setCpu, Function.update_of_ne hij]) rfl rfl rfl rfl

theorem Inv.draw {s : State n} (h : Inv s) {i : Fin n} {rdx : Nat}
    (hpc : (s.cpu i).pc = .saved rdx) {s' : State n} (hs : step s i .draw = some s') : Inv s' := by
  unfold step at hs
  simp only [hpc, Spinlock.xadd, State.setCpu, Option.some.injEq] at hs
  subst hs
  have hsaved : rdx = (s.cpu i).savedFlags := h.at hpc
  have hlen := h.entered.length_le
  refine ⟨?_, h.serving, h.entered.trans (List.prefix_append _ _), h.exited, ?_, ?_⟩
  · simp only [List.length_append, List.length_singleton, h.ticket]
    omega
  · intro d j hle hdj
    by_cases hlast : d = s.draws.length
    · subst hlast
      rw [List.getElem?_concat_length, Option.some.injEq] at hdj
      subst hdj
      simp
    · have hdj' : s.draws[d]? = some j := by
        have hlt : d < (s.draws ++ [i]).length := (List.getElem?_eq_some_iff.mp hdj).1
        rw [List.length_append, List.length_singleton] at hlt
        rwa [List.getElem?_append_left (by omega)] at hdj
      have hp := h.pending d j hle hdj'
      -- `i` is not pending: it has saved its flags and not drawn yet
      have hij : j ≠ i := by
        rintro rfl
        rw [hpc] at hp
        simp [Pc.Critical] at hp
      simpa only [Function.update_of_ne hij] using hp
  · intro j
    by_cases hij : j = i
    · subst hij
      simp only [CpuOk, Function.update_self]
      exact ⟨hsaved, h.ticket, hlen, List.getElem?_concat_length⟩
    · have hj := h.cpus j
      have hgrow : ∀ (d : Nat) (k : Fin n), s.draws[d]? = some k →
          (s.draws ++ [i])[d]? = some k := by
        intro d k hdk
        rw [List.getElem?_append_left (List.getElem?_eq_some_iff.mp hdk).1]
        exact hdk
      unfold CpuOk at hj ⊢
      simp only [Function.update_of_ne hij]
      cases hpj : (s.cpu j).pc with
      | outside | saved _ | served _ => rw [hpj] at hj; exact hj
      | spinning _ _ | locked _ | inside | releasing _ =>
        rw [hpj] at hj
        exact ⟨hj.1, hj.2.1, hj.2.2.1, hgrow _ _ hj.2.2.2⟩

theorem Inv.compare {s : State n} (h : Inv s) (hn : n ≤ 65535) {i : Fin n} {rdx ax : Nat}
    (hpc : (s.cpu i).pc = .spinning rdx ax) {s' : State n}
    (hs : step s i .compare = some s') : Inv s' := by
  unfold step at hs
  simp only [hpc, State.setCpu] at hs
  split at hs
  case isFalse =>
    rw [Option.some.injEq] at hs
    exact hs ▸ h
  case isTrue hserve =>
    obtain ⟨hturn, hent, hfront⟩ := h.front hn hpc hserve
    have hsaved : rdx = (s.cpu i).savedFlags := (h.at hpc).1
    rw [Option.some.injEq] at hs
    subst hs
    refine ⟨h.ticket, h.serving, ?_, ?_, ?_, ?_⟩
    · -- the entry log grows by the draw that comes next
      obtain ⟨t, ht⟩ := h.entered
      rw [← ht, List.getElem?_append_right (Nat.le_refl _), Nat.sub_self] at hfront
      cases t with
      | nil => exact absurd hfront (by simp)
      | cons k rest =>
        simp only [List.getElem?_cons_zero, Option.some.injEq] at hfront
        subst hfront
        exact ⟨rest, by rw [← ht]; simp⟩
    · simp only [List.length_append, List.length_singleton]
      exact Nat.le_succ_of_le h.exited
    · intro d j hle hdj
      have hp := h.pending d j hle hdj
      by_cases hij : j = i
      · subst hij
        simp only [Function.update_self]
        exact ⟨hp.1, Or.inl trivial⟩
      · simpa only [Function.update_of_ne hij] using hp
    · intro j
      by_cases hij : j = i
      · subst hij
        simp only [CpuOk, Function.update_self, PcOk, List.length_append, List.length_singleton]
        refine ⟨hsaved, hturn, by omega, ?_⟩
        rw [hturn, ← hent]
        exact hfront
      · have hj := h.cpus j
        unfold CpuOk at hj ⊢
        simp only [Function.update_of_ne hij]
        cases hpj : (s.cpu j).pc with
        | outside | saved _ | served _ => rw [hpj] at hj; exact hj
        | spinning _ _ =>
          rw [hpj] at hj
          obtain ⟨h1, h2, h3, h4⟩ := hj
          refine ⟨h1, h2, ?_, h4⟩
          -- two spinning CPUs have different numbers, and `i` has the smallest
          have hne : (s.cpu j).turn ≠ s.entries.length := by
            intro heq
            rw [heq, hfront, Option.some.injEq] at h4
            exact hij h4.symm
          simp only [List.length_append, List.length_singleton]
          omega
        | locked _ | inside | releasing _ =>
          have hcrit := h.critical (i := j) (by rw [hpj]; trivial)
          omega

theorem Inv.serve {s : State n} (h : Inv s) {i : Fin n} {rdx : Nat}
    (hpc : (s.cpu i).pc = .releasing rdx) {s' : State n}
    (hs : step s i .serve = some s') : Inv s' := by
  obtain ⟨hE, hR⟩ := h.critical (i := i) (by rw [hpc]; trivial)
  have hi := h.at hpc
  unfold step at hs
  simp only [hpc, State.setCpu, Spinlock.serve, Option.some.injEq] at hs
  subst hs
  refine ⟨h.ticket, ?_, h.entered, ?_, ?_, ?_⟩
  · simp only [List.length_append, List.length_singleton, h.serving]
    omega
  · simp only [List.length_append, List.length_singleton]
    omega
  · intro d j hle hdj
    simp only [List.length_append, List.length_singleton] at hle
    have hp := h.pending d j (by omega) hdj
    -- `i` drew number `R`, so it is not among the later draws
    have hij : j ≠ i := by
      rintro rfl
      have h1 := hp.1
      have h2 := hi.2.1
      omega
    simpa only [Function.update_of_ne hij] using hp
  · intro j
    by_cases hij : j = i
    · subst hij
      simp only [CpuOk, Function.update_self]
      exact hi.1
    · have hj := h.cpus j
      unfold CpuOk at hj ⊢
      simp only [Function.update_of_ne hij]
      cases hpj : (s.cpu j).pc with
      | outside | saved _ | served _ | spinning _ _ => rw [hpj] at hj; exact hj
      | locked _ | inside | releasing _ =>
        have hcrit := (h.critical (i := j) (by rw [hpj]; trivial)).2
        rw [hR, Option.some.injEq] at hcrit
        exact absurd hcrit.symm hij

/-- The moves inside the critical section that touch the lock: the store of the flags. -/
theorem Inv.enter {s : State n} (h : Inv s) {i : Fin n} {rdx : Nat}
    (hpc : (s.cpu i).pc = .locked rdx) {s' : State n}
    (hs : step s i .enter = some s') : Inv s' := by
  obtain ⟨-, hR⟩ := h.critical (i := i) (by rw [hpc]; trivial)
  have hi := h.at hpc
  unfold step at hs
  simp only [hpc, State.setCpu, Spinlock.enter, Option.some.injEq] at hs
  subst hs
  refine ⟨h.ticket, h.serving, h.entered, h.exited, ?_, ?_⟩
  · intro d j hle hdj
    have hp := h.pending d j hle hdj
    by_cases hij : j = i
    · subst hij
      simp only [Function.update_self]
      exact ⟨hp.1, Or.inl trivial⟩
    · simpa only [Function.update_of_ne hij] using hp
  · intro j
    by_cases hij : j = i
    · subst hij
      simp only [CpuOk, Function.update_self]
      exact hi
    · have hj := h.cpus j
      unfold CpuOk at hj ⊢
      simp only [Function.update_of_ne hij]
      cases hpj : (s.cpu j).pc with
      | outside | saved _ | served _ | spinning _ _ => rw [hpj] at hj; exact hj
      | locked _ | inside | releasing _ =>
        have hcrit := (h.critical (i := j) (by rw [hpj]; trivial)).2
        rw [hR, Option.some.injEq] at hcrit
        exact absurd hcrit.symm hij

/-- **Every piece of every CPU keeps the invariant.** -/
theorem Inv.step {s s' : State n} (h : Inv s) (hn : n ≤ 65535) (hs : Step s s') : Inv s' := by
  obtain ⟨i, a, hs⟩ := hs
  cases hpc : (s.cpu i).pc with
  | outside =>
    unfold TicketLock.step at hs
    cases a <;> simp only [hpc, Option.some.injEq, reduceCtorEq] at hs
    case save =>
      subst hs
      exact h.setCpu rfl (by rw [hpc]; simp [Pc.Critical])
        (by simp only [CpuOk, State.setCpu, Function.update_self, PcOk])
    case work f =>
      subst hs
      exact h.setCpu rfl (by rw [hpc]; exact id)
        (by simp only [CpuOk, State.setCpu, Function.update_self, PcOk])
  | saved rdx =>
    cases a
    case draw => exact h.draw hpc hs
    all_goals
      unfold TicketLock.step at hs
      simp only [hpc, reduceCtorEq] at hs
  | spinning rdx ax =>
    cases a
    case compare => exact h.compare hn hpc hs
    all_goals
      unfold TicketLock.step at hs
      simp only [hpc, reduceCtorEq] at hs
  | locked rdx =>
    cases a
    case enter => exact h.enter hpc hs
    all_goals
      unfold TicketLock.step at hs
      simp only [hpc, reduceCtorEq] at hs
  | inside =>
    have hi := h.at hpc
    unfold TicketLock.step at hs
    cases a <;> simp only [hpc, Option.some.injEq, reduceCtorEq] at hs
    case work f =>
      subst hs
      exact h.setCpu rfl (by rw [hpc]; exact id)
        (by simpa only [CpuOk, State.setCpu, Function.update_self, PcOk] using hi)
    case loadFlags =>
      subst hs
      exact h.setCpu rfl (fun _ => Or.inl trivial)
        (by simpa only [CpuOk, State.setCpu, Function.update_self, PcOk] using hi)
  | releasing rdx =>
    cases a
    case serve => exact h.serve hpc hs
    all_goals
      unfold TicketLock.step at hs
      simp only [hpc, reduceCtorEq] at hs
  | served rdx =>
    unfold TicketLock.step at hs
    cases a <;> simp only [hpc, Option.some.injEq, reduceCtorEq] at hs
    case restore =>
      subst hs
      exact h.setCpu rfl (by rw [hpc]; simp [Pc.Critical])
        (by simp only [CpuOk, State.setCpu, Function.update_self, PcOk])

theorem Inv.reaches {s₀ s : State n} (hn : n ≤ 65535) (h₀ : Init s₀) (hr : Reaches Step s₀ s) :
    Inv s :=
  hr.invariant Inv (Inv.of_init h₀) fun _ _ _ ha hab => ha.step hn hab

/-! ## The theorem -/

/-- **Mutual exclusion, arrival order and flag restoration**, in every state any interleaving
reaches. -/
theorem ticketLock_safe (hn : n ≤ 65535) (s₀ s : State n) (h₀ : Init s₀)
    (hr : Reaches Step s₀ s) :
    (∀ i j, (s.cpu i).pc.Critical → (s.cpu j).pc.Critical → i = j) ∧
      s.entries <+: s.draws ∧
      ∀ i s', step s i .restore = some s' → (s'.cpu i).flags = (s.cpu i).savedFlags := by
  have h := Inv.reaches hn h₀ hr
  refine ⟨?_, h.entered, ?_⟩
  · intro i j hi hj
    have h1 := (h.critical hi).2
    have h2 := (h.critical hj).2
    rw [h1, Option.some.injEq] at h2
    exact h2
  · intro i s' hs
    cases hpc : (s.cpu i).pc with
    | served rdx =>
      have hi := h.at hpc
      unfold step at hs
      simp only [hpc, State.setCpu, Option.some.injEq] at hs
      subst hs
      simpa only [Function.update_self, PcOk] using hi
    | outside | saved _ | spinning _ _ | locked _ | inside | releasing _ =>
      unfold TicketLock.step at hs
      simp only [hpc, reduceCtorEq] at hs

/-- Two CPUs outside a fresh lock. -/
def twoCpus : State 2 where
  lk := Spinlock.init
  cpu _ := ⟨.outside, 0x202, 0, 0, 0⟩
  draws := []
  entries := []
  exits := []

/-- One of them waits while the other changes its flags inside and leaves. -/
def handover : List (Fin 2 × Act) :=
  [(0, .save), (0, .draw), (1, .save), (1, .draw), (0, .compare), (1, .compare), (0, .enter),
    (0, .work 0x2), (0, .loadFlags), (0, .serve), (1, .compare)]

theorem ticketLock_safe_handover : ∃ s, run twoCpus handover = some s ∧
    (∀ i j, (s.cpu i).pc.Critical → (s.cpu j).pc.Critical → i = j) ∧
    s.entries <+: s.draws ∧
    ∀ i s', step s i .restore = some s' → (s'.cpu i).flags = (s.cpu i).savedFlags := by
  obtain ⟨s, hs⟩ : ∃ s, run twoCpus handover = some s := ⟨_, rfl⟩
  exact ⟨s, hs, ticketLock_safe (by decide) twoCpus s ⟨rfl, fun _ => rfl, rfl, rfl, rfl⟩
    (reaches_run .refl hs)⟩

end TicketLock
end MikroKernel
