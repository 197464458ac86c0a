import MikroKernel.Lib.LeadsTo
import MikroKernel.Proof.TicketLock

/-!
# Nobody waits for ever at the ticket lock

`TicketLock` says what no interleaving does. This is about what an endless one does, provided that
no CPU stops in the middle: one that is in the lock's code or between the two calls makes its next
move some time (`Endless.fair`), so critical sections end as well.

A CPU that spins has a number, and the one whose number is served goes through the lock one place
after the other (`Pc.stage`) until it serves the next number (`served_next`). So the distance
shrinks to nothing, and the CPU is in (`spinning_enters`), after at most as many others as there
are. Nobody has to call again for that, and nobody can be overtaken by a CPU that draws later.
-/

set_option autoImplicit false

namespace MikroKernel
namespace TicketLock

open Run

variable {n : Nat} {s s' : State n} {i j : Fin n} {a : Act}

/-! ## What a move does to a place -/

/-- How far it is to the way out. -/
def Pc.stage : Pc → Nat
  | .outside => 0
  | .served _ => 1
  | .releasing _ => 2
  | .inside => 3
  | .locked _ => 4
  | .spinning _ _ => 5
  | .saved _ => 6

theorem step_other (hs : step s i a = some s') (hj : j ≠ i) : s'.cpu j = s.cpu j := by
  unfold step at hs
  cases a <;> cases hpc : (s.cpu i).pc <;>
    simp only [hpc, State.setCpu, Spinlock.xadd, Option.some.injEq, reduceCtorEq] at hs
  case compare.spinning rdx ax =>
    split at hs <;> obtain rfl := Option.some.inj hs
    · exact Function.update_of_ne hj _ _
    · rfl
  all_goals
    subst hs
    exact Function.update_of_ne hj _ _

/-- Only a CPU on its way out serves the next number. -/
theorem step_exits (hs : step s i a = some s') :
    s'.exits = s.exits ∨ (∃ rdx, (s.cpu i).pc = .releasing rdx) ∧ s'.exits = s.exits ++ [i] := by
  unfold step at hs
  cases a <;> cases hpc : (s.cpu i).pc <;>
    simp only [hpc, State.setCpu, Spinlock.xadd, Option.some.injEq, reduceCtorEq] at hs
  case compare.spinning rdx ax =>
    left
    split at hs <;> obtain rfl := Option.some.inj hs <;> rfl
  case serve.releasing rdx =>
    subst hs
    exact Or.inr ⟨⟨rdx, rfl⟩, rfl⟩
  all_goals
    subst hs
    exact Or.inl rfl

/-- Draws are only added. -/
theorem step_draws (hs : step s i a = some s') : ∃ more, s'.draws = s.draws ++ more := by
  unfold step at hs
  cases a <;> cases hpc : (s.cpu i).pc <;>
    simp only [hpc, State.setCpu, Spinlock.xadd, Option.some.injEq, reduceCtorEq] at hs
  case compare.spinning rdx ax =>
    split at hs <;> obtain rfl := Option.some.inj hs <;> exact ⟨[], (List.append_nil _).symm⟩
  case draw.saved rdx =>
    subst hs
    exact ⟨[i], rfl⟩
  all_goals
    subst hs
    exact ⟨[], (List.append_nil _).symm⟩

/-- A CPU that spins compares. -/
theorem step_spinning {rdx ax : Nat} (hpc : (s.cpu i).pc = .spinning rdx ax)
    (hs : step s i a = some s') :
    s.lk.serving = ax ∧ (s'.cpu i).pc = .locked rdx ∧ (s'.cpu i).turn = (s.cpu i).turn ∨
      s.lk.serving ≠ ax ∧ s' = s := by
  unfold step at hs
  cases a <;> simp only [hpc, State.setCpu, reduceCtorEq] at hs
  split at hs
  case isTrue hserve =>
    obtain rfl := Option.some.inj hs
    refine Or.inl ⟨hserve, ?_, ?_⟩ <;> simp only [Function.update_self]
  case isFalse hserve => exact Or.inr ⟨hserve, (Option.some.inj hs).symm⟩

/-- Elsewhere a move is a stage, unless it is work. -/
theorem step_stage (hs : step s i a = some s') (hout : (s.cpu i).pc ≠ .outside)
    (hspin : ∀ rdx ax, (s.cpu i).pc ≠ .spinning rdx ax) :
    (∃ f, a = .work f) ∧ (s'.cpu i).pc = (s.cpu i).pc ∨
      (∀ f, a ≠ .work f) ∧ (s'.cpu i).pc.stage + 1 = (s.cpu i).pc.stage := by
  unfold step at hs
  cases a <;> cases hpc : (s.cpu i).pc <;>
    simp only [hpc, State.setCpu, Spinlock.xadd, Option.some.injEq, reduceCtorEq] at hs
  case compare.spinning rdx ax => exact absurd hpc (hspin rdx ax)
  case save.outside | work.outside => exact absurd hpc hout
  case work.inside f =>
    subst hs
    exact Or.inl ⟨⟨f, rfl⟩, by simp only [Function.update_self]⟩
  all_goals
    subst hs
    exact Or.inr ⟨fun f => Act.noConfusion, by simp only [Function.update_self]; rfl⟩

/-! ## Endless schedules -/

/-- A schedule that goes on for ever, from a new lock. A CPU that is in the lock's code or inside
the critical section, and stays out of `outside`, makes a move there some time that is not work. -/
structure Endless (run : ℕ → State n) (who : ℕ → Fin n × Act) : Prop where
  start : Init (run 0)
  step : ∀ k, step (run k) (who k).1 (who k).2 = some (run (k + 1))
  fair : ∀ i k, (∀ j, k ≤ j → ((run j).cpu i).pc ≠ .outside) →
    ∃ j, k ≤ j ∧ (who j).1 = i ∧ ∀ f, (who j).2 ≠ .work f

variable {run : ℕ → State n} {who : ℕ → Fin n × Act}

theorem Endless.inv (h : Endless run who) (hn : n ≤ 65535) (k : ℕ) : Inv (run k) := by
  induction k with
  | zero => exact Inv.of_init h.start
  | succ k ih => exact ih.step hn ⟨_, _, h.step k⟩

/-- What CPU `i` does when it does not work. -/
def Moves (who : ℕ → Fin n × Act) (i : Fin n) (k : ℕ) : Prop :=
  (who k).1 = i ∧ ∀ f, (who k).2 ≠ .work f

/-- CPU `i` spins with number `d`, and the `r`-th number is served. -/
structure Waits (i : Fin n) (d r : ℕ) (s : State n) : Prop where
  spins : ∃ rdx ax, (s.cpu i).pc = .spinning rdx ax
  turn : (s.cpu i).turn = d
  served : s.exits.length = r

/-- The comparison of a CPU with a later number fails. -/
theorem Waits.later {d r : ℕ} (hw : Waits i d r s) (h : Inv s) (hn : n ≤ 65535) (hlt : r < d)
    (hs : step s i a = some s') : s' = s := by
  obtain ⟨rdx, ax, hpc⟩ := hw.spins
  rcases step_spinning hpc hs with ⟨hserve, -⟩ | ⟨-, heq⟩
  · have hturn := (h.front hn hpc hserve).1
    have := hw.turn
    have := hw.served
    omega
  · exact heq

/-- The CPU that has the number, and the rest as it is. -/
def Front (i j : Fin n) (d r : ℕ) (s : State n) : Prop := Waits i d r s ∧ s.draws[r]? = some j

theorem Front.place {d r : ℕ} (hf : Front i j d r s) (h : Inv s) : (s.cpu j).turn = r ∧
    ((s.cpu j).pc.Critical ∨ ∃ rdx ax, (s.cpu j).pc = .spinning rdx ax) :=
  h.pending r j (Nat.le_of_eq hf.1.served) hf.2

/-- A move of anybody brings the CPU in front on, or leaves it where it is and is no move of its
own. -/
theorem Front.step {d r : ℕ} {k : Fin n} (hf : Front i j d r s) (h : Inv s) (hn : n ≤ 65535)
    (hlt : r < d) (hs : step s k a = some s') :
    Waits i d (r + 1) s' ∨ Front i j d r s' ∧ (s'.cpu j).pc.stage < (s.cpu j).pc.stage ∨
      Front i j d r s' ∧ (s'.cpu j).pc.stage = (s.cpu j).pc.stage ∧
      ¬ (k = j ∧ ∀ f, a ≠ .work f) := by
  obtain ⟨hw, hd⟩ := hf
  obtain ⟨hturn, hplace⟩ := Front.place ⟨hw, hd⟩ h
  have hji : j ≠ i := by
    rintro rfl
    have := hw.turn
    omega
  have hd' : s'.draws[r]? = some j := by
    obtain ⟨more, hmore⟩ := step_draws hs
    rw [hmore, List.getElem?_append_left (List.getElem?_eq_some_iff.mp hd).1]
    exact hd
  by_cases hkj : k = j
  · subst hkj
    have hi := step_other hs hji.symm
    have hwaits : ∀ r', s'.exits.length = r' → Waits i d r' s' := fun r' hr' =>
      ⟨by rw [hi]; exact hw.spins, by rw [hi]; exact hw.turn, hr'⟩
    have hmoved : (s'.cpu k).pc.stage < (s.cpu k).pc.stage → Waits i d (r + 1) s' ∨
        Front i k d r s' ∧ (s'.cpu k).pc.stage < (s.cpu k).pc.stage := by
      intro hstage
      rcases step_exits hs with hx | ⟨-, hx⟩
      · exact Or.inr ⟨⟨hwaits r (by rw [hx, hw.served]), hd'⟩, hstage⟩
      · exact Or.inl
          (hwaits (r + 1) (by rw [hx, List.length_append, List.length_singleton, hw.served]))
    by_cases hspin : ∃ rdx ax, (s.cpu k).pc = .spinning rdx ax
    · obtain ⟨rdx, ax, hpc⟩ := hspin
      rcases step_spinning hpc hs with ⟨-, hpc', -⟩ | ⟨hserve, -⟩
      · rw [← or_assoc]
        exact Or.inl (hmoved (by rw [hpc, hpc']; exact Nat.lt_succ_self 4))
      · -- its number is the one that is served
        obtain ⟨-, hax, -, -⟩ := h.at hpc
        exact absurd (by rw [h.serving, hax, hturn, hw.served]) hserve
    · have hcrit := hplace.resolve_right hspin
      have hout : (s.cpu k).pc ≠ .outside := fun hpc => by
        rw [hpc] at hcrit
        exact hcrit
      rcases step_stage hs hout (fun rdx ax hpc => hspin ⟨rdx, ax, hpc⟩) with
        ⟨⟨f, rfl⟩, hpc⟩ | ⟨-, hstage⟩
      · -- it worked
        refine Or.inr (Or.inr ⟨⟨hwaits r ?_, hd'⟩, congrArg Pc.stage hpc, fun hno => hno.2 f rfl⟩)
        rcases step_exits hs with hx | ⟨⟨rdx, hrel⟩, -⟩
        · rw [hx, hw.served]
        · unfold TicketLock.step at hs
          simp only [hrel, reduceCtorEq] at hs
      · rw [← or_assoc]
        exact Or.inl (hmoved (by omega))
  · have hj := step_other hs (Ne.symm hkj)
    refine Or.inr (Or.inr ⟨⟨?_, hd'⟩, by rw [hj], fun hno => hkj hno.1⟩)
    by_cases hki : k = i
    · subst hki
      rw [hw.later h hn hlt hs]
      exact hw
    · have hi := step_other hs (Ne.symm hki)
      refine ⟨by rw [hi]; exact hw.spins, by rw [hi]; exact hw.turn, ?_⟩
      rcases step_exits hs with hx | ⟨⟨rdx, hrel⟩, -⟩
      · rw [hx, hw.served]
      · -- who is on the way out has the number
        have hfront := (h.critical (i := k) (by rw [hrel]; trivial)).2
        rw [hw.served, hd] at hfront
        exact absurd (Option.some.inj hfront).symm hkj

/-- **The CPU whose number is served comes to the end**, and the others wait with it. -/
theorem Endless.served_next (h : Endless run who) (hn : n ≤ 65535) {d r : ℕ} (hlt : r < d) :
    LeadsTo run (Waits i d r) (Waits i d (r + 1)) := by
  intro k hw
  -- who has the number
  obtain ⟨rdx, ax, hpc⟩ := hw.spins
  obtain ⟨-, -, -, hd⟩ := (h.inv hn k).at hpc
  have hlen := (List.getElem?_eq_some_iff.mp hd).1
  have hturn := hw.turn
  obtain ⟨j, hj⟩ : ∃ j, (run k).draws[r]? = some j := ⟨_, List.getElem?_eq_getElem (by omega)⟩
  have hlead : LeadsTo run (Front i j d r) (Waits i d (r + 1)) := by
    refine LeadsTo.measure (fun s => (s.cpu j).pc.stage) (fun m => ?_)
    refine LeadsTo.ensures (Moves who j) (fun l hl => ?_) (fun l hl hmove => ?_) (fun l hl => ?_)
    · rcases hl.1.step (h.inv hn l) hn hlt (h.step l) with hq | ⟨hf, hstage⟩ | ⟨hf, hstage, -⟩
      · exact Or.inr (Or.inl hq)
      · exact Or.inr (Or.inr ⟨hf, hl.2 ▸ hstage⟩)
      · exact Or.inl ⟨hf, hl.2 ▸ hstage⟩
    · rcases hl.1.step (h.inv hn l) hn hlt (h.step l) with hq | ⟨hf, hstage⟩ | ⟨-, -, hno⟩
      · exact Or.inl hq
      · exact Or.inr ⟨hf, hl.2 ▸ hstage⟩
      · exact absurd hmove hno
    · refine h.fair j l (fun l' hl' hout => ?_)
      obtain ⟨-, hcrit | ⟨rdx, ax, hpc⟩⟩ := (hl l' hl').1.place (h.inv hn l')
      · rw [hout] at hcrit
        exact hcrit
      · rw [hout] at hpc
        exact Pc.noConfusion hpc
  exact hlead k ⟨hw, hj⟩

/-- The distance shrinks to nothing. -/
theorem Endless.waits_front (h : Endless run who) (hn : n ≤ 65535) {d : ℕ} :
    LeadsTo run (fun s => ∃ r, r ≤ d ∧ Waits i d r s) (Waits i d d) := by
  refine LeadsTo.measure (fun s => d - s.exits.length) (fun m k hk => ?_)
  obtain ⟨⟨r, hle, hw⟩, hm⟩ := hk
  rcases Nat.eq_or_lt_of_le hle with rfl | hlt
  · exact ⟨k, Nat.le_refl k, Or.inl hw⟩
  · obtain ⟨j, hkj, hj⟩ := h.served_next hn hlt k hw
    refine ⟨j, hkj, Or.inr ⟨⟨r + 1, hlt, hj⟩, ?_⟩⟩
    have h1 := hw.served
    have h2 := hj.served
    omega

/-- CPU `i` has passed the comparison, as the `d`-th. -/
def Passed (i : Fin n) (d : ℕ) (s : State n) : Prop :=
  (∃ rdx, (s.cpu i).pc = .locked rdx) ∧ s.entries.length = d + 1

/-- The CPU in front compares and passes. -/
theorem Endless.front_passes (h : Endless run who) (hn : n ≤ 65535) {d : ℕ} :
    LeadsTo run (Waits i d d) (Passed i d) := by
  have hpass : ∀ k, Waits i d d (run k) → (who k).1 = i → Passed i d (run (k + 1)) := by
    intro k hw hwho
    obtain ⟨rdx, ax, hpc⟩ := hw.spins
    have hinv := h.inv hn k
    have hs := h.step k
    rw [hwho] at hs
    rcases step_spinning hpc hs with ⟨-, hpc', hturn⟩ | ⟨hserve, -⟩
    · obtain ⟨-, hexit, hent, -⟩ := (h.inv hn (k + 1)).at hpc'
      have := hw.turn
      exact ⟨⟨rdx, hpc'⟩, by omega⟩
    · obtain ⟨-, hax, -, -⟩ := hinv.at hpc
      exact absurd (by rw [hinv.serving, hax, hw.turn, hw.served]) hserve
  refine LeadsTo.ensures (Moves who i) (fun k hw => ?_) (fun k hw hmove => hpass k hw hmove.1)
    (fun k hw => ?_)
  · by_cases hwho : (who k).1 = i
    · exact Or.inr (hpass k hw hwho)
    · -- the others do not change its number, and nobody is on the way out
      have hs := h.step k
      have hi := step_other hs (Ne.symm hwho)
      refine Or.inl ⟨by rw [hi]; exact hw.spins, by rw [hi]; exact hw.turn, ?_⟩
      rcases step_exits hs with hx | ⟨⟨rdx, hrel⟩, -⟩
      · rw [hx, hw.served]
      · obtain ⟨rdx', ax, hpc⟩ := hw.spins
        obtain ⟨-, -, -, hd⟩ := (h.inv hn k).at hpc
        have hfront := ((h.inv hn k).critical (i := (who k).1) (by rw [hrel]; trivial)).2
        rw [hw.served, ← hw.turn, hd] at hfront
        exact absurd (Option.some.inj hfront).symm hwho
  · refine h.fair i k (fun j hj hout => ?_)
    obtain ⟨rdx, ax, hpc⟩ := (hw j hj).spins
    rw [hout] at hpc
    exact Pc.noConfusion hpc

/-- **A CPU that spins gets in**, and on the way no more enter than there are CPUs. -/
theorem Endless.spinning_enters (h : Endless run who) (hn : n ≤ 65535) {k : ℕ} {rdx ax : Nat}
    (hpc : ((run k).cpu i).pc = .spinning rdx ax) :
    ∃ j, k ≤ j ∧ (∃ rdx, ((run j).cpu i).pc = .locked rdx) ∧
      (run j).entries.length ≤ (run k).entries.length + n := by
  have hinv := h.inv hn k
  obtain ⟨-, -, hle, hd⟩ := hinv.at hpc
  have hlen := (List.getElem?_eq_some_iff.mp hd).1
  have hpend := hinv.pending_le
  have hex := hinv.exited
  obtain ⟨j, hkj, hj, hent⟩ := ((h.waits_front hn).trans (h.front_passes hn)) k
    ⟨_, Nat.le_trans hex hle, ⟨⟨rdx, ax, hpc⟩, rfl, rfl⟩⟩
  exact ⟨j, hkj, hj, by omega⟩

/-- At a place where it neither spins nor is outside, a CPU moves on. -/
theorem Endless.moves_on (h : Endless run who) (m : ℕ) (h0 : m ≠ 0) (h5 : m ≠ 5) :
    LeadsTo run (fun s => (s.cpu i).pc.stage = m) (fun s => (s.cpu i).pc.stage < m) := by
  have hout : ∀ {s : State n}, (s.cpu i).pc.stage = m → (s.cpu i).pc ≠ .outside := by
    intro s hm hpc
    rw [hpc] at hm
    exact h0 hm.symm
  have hspin : ∀ {s : State n}, (s.cpu i).pc.stage = m →
      ∀ rdx ax, (s.cpu i).pc ≠ .spinning rdx ax := by
    intro s hm rdx ax hpc
    rw [hpc] at hm
    exact h5 hm.symm
  refine LeadsTo.ensures (Moves who i) (fun k hm => ?_) (fun k hm hmove => ?_)
    (fun k hm => h.fair i k (fun j hj => hout (hm j hj)))
  · have hs := h.step k
    by_cases hwho : (who k).1 = i
    · rw [hwho] at hs
      rcases step_stage hs (hout hm) (hspin hm) with ⟨-, hpc⟩ | ⟨-, hstage⟩
      · exact Or.inl (by rw [hpc]; exact hm)
      · exact Or.inr (by omega)
    · exact Or.inl (by rw [step_other hs (Ne.symm hwho)]; exact hm)
  · have hs := h.step k
    rw [hmove.1] at hs
    rcases step_stage hs (hout hm) (hspin hm) with ⟨⟨f, hf⟩, -⟩ | ⟨-, hstage⟩
    · exact absurd hf (hmove.2 f)
    · omega

/-- A CPU gets out again, from wherever it is. -/
theorem Endless.gets_out (h : Endless run who) (hn : n ≤ 65535) (i : Fin n) (k : ℕ) :
    ∃ j, k ≤ j ∧ ((run j).cpu i).pc = .outside := by
  have hlead : LeadsTo run (fun _ => True) (fun s => (s.cpu i).pc = .outside) := by
    refine LeadsTo.measure (fun s => (s.cpu i).pc.stage) (fun m k hk => ?_)
    have hm := hk.2
    cases hpc : ((run k).cpu i).pc with
    | outside => exact ⟨k, Nat.le_refl k, Or.inl hpc⟩
    | spinning rdx ax =>
      obtain ⟨j, hkj, ⟨rdx', hlocked⟩, -⟩ := h.spinning_enters hn hpc
      refine ⟨j, hkj, Or.inr ⟨trivial, ?_⟩⟩
      rw [hpc] at hm
      rw [hlocked, ← hm]
      exact Nat.lt_succ_self 4
    | saved _ | locked _ | inside | releasing _ | served _ =>
      obtain ⟨j, hkj, hj⟩ := h.moves_on (i := i) m (by rw [← hm, hpc]; exact Nat.succ_ne_zero _)
        (by rw [← hm, hpc]; simp [Pc.stage]) k hm
      exact ⟨j, hkj, Or.inr ⟨trivial, hj⟩⟩
  exact hlead k trivial

/-- **Nobody waits for ever**: in an endless schedule in which no CPU stops in the middle, a CPU
that has drawn a number gets in, no more entering meanwhile than there are CPUs, and every CPU that
called gets out again. -/
theorem ticketLock_fair (hn : n ≤ 65535) (h : Endless run who) :
    (∀ i k rdx ax, ((run k).cpu i).pc = .spinning rdx ax →
      ∃ j, k ≤ j ∧ (∃ rdx, ((run j).cpu i).pc = .locked rdx) ∧
        (run j).entries.length ≤ (run k).entries.length + n) ∧
    ∀ i k, ∃ j, k ≤ j ∧ ((run j).cpu i).pc = .outside :=
  ⟨fun _ _ _ _ hpc => h.spinning_enters hn hpc, fun i k => h.gets_out hn i k⟩

/-! ## One that is endless -/

/-- Both CPUs go through the lock, and then one of them works for ever. -/
def twice (k : ℕ) : Fin 2 × Act :=
  let first : Fin 2 := ⟨0, Nat.zero_lt_two⟩
  let second : Fin 2 := ⟨1, Nat.one_lt_two⟩
  let leave := [(first, .restore), (second, .enter), (second, .loadFlags), (second, .serve),
    (second, .restore)]
  (handover ++ leave).getD k (first, .work 0x2)

def twiceRun : ℕ → State 2
  | 0 => twoCpus
  | k + 1 => (step (twiceRun k) (twice k).1 (twice k).2).getD (twiceRun k)

theorem twiceRun_first : ∀ k, k < 16 → (step (twiceRun k) (twice k).1 (twice k).2).isSome
    = true := by
  decide +kernel

theorem twice_later {k : ℕ} (hk : 16 ≤ k) : twice k = (0, .work 0x2) := by
  unfold twice
  simp only [List.getD_eq_getElem?_getD]
  rw [List.getElem?_eq_none (by simpa [handover] using hk), Option.getD_none]
  rfl

theorem twiceRun_later {k : ℕ} (hk : 16 ≤ k) : ∀ i, ((twiceRun k).cpu i).pc = .outside := by
  induction k, hk using Nat.le_induction with
  | base => decide +kernel
  | succ k hk ih =>
    intro i
    have hs : step (twiceRun k) (twice k).1 (twice k).2
        = some ((twiceRun k).setCpu 0 { (twiceRun k).cpu 0 with flags := 0x2 }) := by
      rw [twice_later hk]
      unfold step
      simp only [ih 0]
    unfold twiceRun
    rw [hs, Option.getD_some]
    by_cases hi : i = 0
    · subst hi
      simp only [State.setCpu, Function.update_self]
      exact ih 0
    · simp only [State.setCpu, Function.update_of_ne hi]
      exact ih i

theorem twiceRun_endless : Endless twiceRun twice where
  start := ⟨rfl, fun _ => rfl, rfl, rfl, rfl⟩
  step k := by
    have hsome : (step (twiceRun k) (twice k).1 (twice k).2).isSome = true := by
      by_cases hk : k < 16
      · exact twiceRun_first k hk
      · rw [twice_later (by omega)]
        unfold step
        simp only [twiceRun_later (show 16 ≤ k by omega) 0]
        rfl
    obtain ⟨s, hs⟩ := Option.isSome_iff_exists.mp hsome
    rw [hs]
    show some s = some ((step (twiceRun k) (twice k).1 (twice k).2).getD (twiceRun k))
    rw [hs, Option.getD_some]
  fair i k hnever :=
    absurd (twiceRun_later (Nat.le_max_right k 16) i) (hnever _ (Nat.le_max_left k 16))

theorem ticketLock_fair_twice : ((twiceRun 4).cpu 1).pc = .spinning 0x202 1 ∧
    ∃ j, 4 ≤ j ∧ (∃ rdx, ((twiceRun j).cpu 1).pc = .locked rdx) ∧
      (twiceRun j).entries.length ≤ (twiceRun 4).entries.length + 2 :=
  ⟨by decide +kernel,
    (ticketLock_fair (by decide) twiceRun_endless).1 1 4 0x202 1 (by decide +kernel)⟩

end TicketLock
end MikroKernel
