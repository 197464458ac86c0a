import MikroKernel.Interrupt.Isr

/-!
# The stack

The way into a handler is pushes and the way out is pops, of the CPU, of a stub and of
`isr_common_handler`, 23 words in all. None of them looks at what the others pushed. So pushes are
taken together: a list of values pushed one after the other (`pushedAll`) leaves them on the stack
in reverse, and nothing else in memory changes (`words_pushedAll`, `pushedAll_outside`). Two lists
one after the other are one list (`pushedAll_append`), which is how the three parts of the way in
become one frame.

Pops read the words that are there, whoever has written them (`execAll_pops`, `iretq_eq`). A handler
may have changed its frame, and then the CPU goes on with what is in it.

A push can fail in one way: the page below is not writable. `Room` says how many words that cannot
happen for, and `Poppable` the same of pops. Both also keep the stack pointer from wrapping, so that
its arithmetic is that of numbers.
-/

set_option autoImplicit false

namespace MikroKernel
namespace Core

open Bytes

variable {c : Core} {v : BitVec 64} {k n : Nat}

/-- There is room for `k` more words. -/
def Room (c : Core) (k : Nat) : Prop :=
  8 * k ≤ c.rsp.toNat ∧ c.Writable (c.rsp.toNat - 8 * k) (8 * k)

/-- The CPU after a push. -/
def pushed (v : BitVec 64) (c : Core) : Core :=
  { c with mem := put c.mem (c.rsp - 8).toNat 8 v.toNat, rsp := c.rsp - 8 }

/-- The CPU after pushes, the first value first. -/
def pushedAll : List (BitVec 64) → Core → Core
  | [], c => c
  | v :: vs, c => pushedAll vs (pushed v c)

/-- The arithmetic of a push, once it is known not to wrap. -/
theorem toNat_sub_eight {r : BitVec 64} (h : 8 ≤ r.toNat) : (r - 8).toNat = r.toNat - 8 := by
  bv_omega

theorem Room.eight (h : c.Room (k + 1)) : 8 ≤ c.rsp.toNat := by
  have := h.1
  omega

/-- A push with room for it. -/
theorem push_eq (h : c.Room (k + 1)) (v : BitVec 64) : c.push v = some (pushed v c) := by
  have hsp := toNat_sub_eight h.eight
  have hw : c.Writable (c.rsp - 8).toNat 8 := fun i hi => by
    have := h.2 (8 * k + i) (by omega)
    rwa [show c.rsp.toNat - 8 * (k + 1) + (8 * k + i) = (c.rsp - 8).toNat + i by
      have := h.1
      omega] at this
  unfold push
  exact if_pos hw

/-- A push uses up one word of the room. -/
theorem Room.pushed (h : c.Room (k + 1)) (v : BitVec 64) : (pushed v c).Room k := by
  have hsp : (Core.pushed v c).rsp.toNat = c.rsp.toNat - 8 := toNat_sub_eight h.eight
  have h1 := h.1
  refine ⟨by omega, fun i hi => ?_⟩
  rw [hsp, show c.rsp.toNat - 8 - 8 * k + i = c.rsp.toNat - 8 * (k + 1) + i by omega]
  exact h.2 i (by omega)

theorem Room.mono (h : c.Room n) (hk : k ≤ n) : c.Room k := by
  have h1 := h.1
  refine ⟨by omega, fun i hi => ?_⟩
  have := h.2 (8 * (n - k) + i) (by omega)
  rwa [show c.rsp.toNat - 8 * n + (8 * (n - k) + i) = c.rsp.toNat - 8 * k + i by omega] at this

theorem Room.pushedAll : ∀ {vs : List (BitVec 64)} {c : Core}, c.Room (vs.length + k) →
    (pushedAll vs c).Room k
  | [], _, h => h.mono (Nat.le_add_left _ _)
  | v :: vs, _, h => by
    rw [List.length_cons, show vs.length + 1 + k = vs.length + k + 1 by omega] at h
    exact (h.pushed v).pushedAll

/-- The stack pointer goes down a word for each value. -/
theorem rsp_pushedAll : ∀ {vs : List (BitVec 64)} {c : Core}, c.Room vs.length →
    (pushedAll vs c).rsp.toNat = c.rsp.toNat - 8 * vs.length
  | [], _, _ => rfl
  | v :: vs, c, h => by
    have hsp : (pushed v c).rsp.toNat = c.rsp.toNat - 8 := toNat_sub_eight (Room.eight h)
    unfold Core.pushedAll
    rw [rsp_pushedAll (h.pushed v), hsp, List.length_cons]
    omega

/-- **The pushes of the CPU** do not fail where there is room for all of them. -/
theorem pushes_eq : ∀ {vs : List (BitVec 64)} {c : Core}, c.Room vs.length →
    pushes vs c = some (pushedAll vs c)
  | [], _, _ => rfl
  | v :: vs, c, h => by
    unfold pushes
    rw [push_eq h, Option.bind_eq_bind, Option.bind_some, pushes_eq (h.pushed v)]
    rfl

/-- Only memory and the stack pointer change. -/
theorem pushedAll_eq : ∀ (vs : List (BitVec 64)) (c : Core),
    pushedAll vs c = { c with mem := (pushedAll vs c).mem, rsp := (pushedAll vs c).rsp }
  | [], _ => rfl
  | v :: vs, c => by
    unfold Core.pushedAll
    rw [pushedAll_eq vs]
    rfl

theorem pushedAll_append : ∀ (vs ws : List (BitVec 64)) (c : Core),
    pushedAll (vs ++ ws) c = pushedAll ws (pushedAll vs c)
  | [], _, _ => rfl
  | v :: vs, ws, c => pushedAll_append vs ws (pushed v c)

/-- What is not on the stack plays no part. -/
theorem pushedAll_with (cs : BitVec 16) (rip rflags : BitVec 64) :
    ∀ (vs : List (BitVec 64)) (c : Core),
    pushedAll vs { c with cs := cs, rip := rip, rflags := rflags }
      = { pushedAll vs c with cs := cs, rip := rip, rflags := rflags }
  | [], _ => rfl
  | v :: vs, c => pushedAll_with cs rip rflags vs (pushed v c)

/-- Memory off the stack is as it was, below the new stack pointer and above the old one. -/
theorem pushedAll_outside : ∀ {vs : List (BitVec 64)} {c : Core} {a : Nat}, c.Room vs.length →
    a < c.rsp.toNat - 8 * vs.length ∨ c.rsp.toNat ≤ a → (pushedAll vs c).mem a = c.mem a
  | [], _, _, _, _ => rfl
  | v :: vs, c, a, h, ha => by
    have hsp : (pushed v c).rsp.toNat = c.rsp.toNat - 8 := toNat_sub_eight (Room.eight h)
    have h8 := Room.eight h
    have hlen := h.1
    rw [List.length_cons] at ha hlen
    have hone : (pushed v c).mem a = c.mem a := put_outside (by
      rw [toNat_sub_eight h8]
      omega)
    unfold Core.pushedAll
    rw [pushedAll_outside (h.pushed v) (by rw [hsp]; omega), hone]

/-- The top `n` words of the stack. -/
def words (c : Core) (n : Nat) : List Nat := fields c.mem c.rsp.toNat (List.replicate n 8)

/-- A push puts its value on top. -/
theorem words_pushed (h : 8 ≤ c.rsp.toNat) (v : BitVec 64) (n : Nat) :
    (pushed v c).words (n + 1) = v.toNat :: c.words n := by
  have hsp := toNat_sub_eight h
  unfold words
  rw [List.replicate_succ]
  show fields (put c.mem (c.rsp - 8).toNat 8 v.toNat) (c.rsp - 8).toNat (8 :: List.replicate n 8)
    = _
  rw [fields_put_below, Nat.mod_eq_of_lt (show v.toNat < 256 ^ 8 from v.isLt), hsp,
    Nat.sub_add_cancel h]

/-- **The values are on the stack**, the last one on top, and what was there is below them. -/
theorem words_pushedAll : ∀ {vs : List (BitVec 64)} {c : Core} {n : Nat}, c.Room vs.length →
    (pushedAll vs c).words (vs.length + n) = (vs.map BitVec.toNat).reverse ++ c.words n
  | [], c, n, _ => by
    rw [List.length_nil, Nat.zero_add]
    rfl
  | v :: vs, c, n, h => by
    have h8 : 8 ≤ c.rsp.toNat := Room.eight h
    have hrest := words_pushedAll (n := n + 1) (h.pushed v)
    rw [words_pushed h8] at hrest
    unfold Core.pushedAll
    rw [List.length_cons, show vs.length + 1 + n = vs.length + (n + 1) by omega, hrest]
    simp

/-! ## Pops -/

/-- Word `i` of the stack. -/
def word (c : Core) (i : Nat) : BitVec 64 := BitVec.ofNat 64 (get c.mem (c.rsp.toNat + 8 * i) 8)

/-- `n` words of the stack can be read, and the stack pointer can move over them. -/
def Poppable (c : Core) (n : Nat) : Prop :=
  c.rsp.toNat + 8 * n < 2 ^ 64 ∧ c.Mapped c.rsp.toNat (8 * n)

theorem toNat_add_eight {r : BitVec 64} (h : r.toNat + 8 < 2 ^ 64) :
    (r + 8).toNat = r.toNat + 8 := by
  bv_omega

theorem Poppable.mono (h : c.Poppable n) (hk : k ≤ n) : c.Poppable k := by
  have h1 := h.1
  exact ⟨by omega, fun i hi => h.2 i (by omega)⟩

/-- A pop reads the word on top. -/
theorem pop_eq (h : c.Poppable (n + 1)) : c.pop = some (c.word 0, { c with rsp := c.rsp + 8 }) := by
  have hload : c.load c.rsp.toNat 8 = some (get c.mem c.rsp.toNat 8) :=
    if_pos fun i hi => h.2 i (by omega)
  unfold pop
  rw [hload]
  rfl

theorem pop_bind {α : Type} (h : c.Poppable (n + 1)) (f : BitVec 64 × Core → Option α) :
    c.pop >>= f = f (c.word 0, { c with rsp := c.rsp + 8 }) := by
  rw [pop_eq h]
  rfl

theorem Poppable.popped (h : c.Poppable (n + 1)) : Poppable { c with rsp := c.rsp + 8 } n := by
  have h1 := h.1
  have hsp := toNat_add_eight (r := c.rsp) (by omega)
  refine ⟨?_, fun i hi => ?_⟩
  · show (c.rsp + 8).toNat + 8 * n < 2 ^ 64
    omega
  · show c.access ((c.rsp + 8).toNat + i) ≠ .none
    rw [hsp, Nat.add_assoc]
    exact h.2 (8 + i) (by omega)

/-- After a pop the next word is on top. -/
theorem word_popped (h : c.Poppable (n + 1)) (i : Nat) :
    word { c with rsp := c.rsp + 8 } i = c.word (i + 1) := by
  have h1 := h.1
  have hsp := toNat_add_eight (r := c.rsp) (by omega)
  unfold word
  rw [hsp, show c.rsp.toNat + 8 + 8 * i = c.rsp.toNat + 8 * (i + 1) by omega]

/-- The registers after pops into them, the words of the stack being given. -/
def popRegs : List Reg → (Nat → BitVec 64) → (Reg → BitVec 64) → Reg → BitVec 64
  | [], _, reg => reg
  | r :: rs, word, reg => popRegs rs (fun i => word (i + 1)) (Function.update reg r (word 0))

/-- **A list of pops** gives each register its word. The same register may be popped twice, and then
the later word stays. -/
theorem execAll_pops : ∀ {rs : List Reg} {c : Core}, c.Poppable rs.length →
    execAll (rs.map .pop) c
      = some { c with
        reg := popRegs rs c.word c.reg, rsp := c.rsp + BitVec.ofNat 64 (8 * rs.length) }
  | [], c, _ => by
    show some c = _
    simp [popRegs]
  | r :: rs, c, h => by
    have hone : (Instr.pop r).exec c
        = some (Core.setReg { c with rsp := c.rsp + 8 } r (c.word 0)) :=
      pop_bind h _
    have hpop :
      Poppable (Core.setReg { c with rsp := c.rsp + 8 } r (c.word 0)) rs.length := h.popped
    have hwords : (Core.setReg { c with rsp := c.rsp + 8 } r (c.word 0)).word
        = fun i => c.word (i + 1) :=
      funext (word_popped h)
    rw [List.map_cons]
    unfold execAll
    rw [hone, Option.bind_eq_bind, Option.bind_some, execAll_pops hpop, hwords]
    -- one word and the rest of them are all of them
    have hsp : c.rsp + 8 + BitVec.ofNat 64 (8 * rs.length)
        = c.rsp + BitVec.ofNat 64 (8 * (rs.length + 1)) := by
      rw [BitVec.add_assoc]
      congr 1
      bv_omega
    rw [List.length_cons, ← hsp]
    rfl

/-- `iretq` takes the five words that the stack has on top. -/
theorem iretq_eq (h : c.Poppable 5) (hcs : c.LoadsCode ((c.word 1).setWidth 16).toNat)
    (hss : c.LoadsStack ((c.word 4).setWidth 16).toNat) :
    c.iretq = some { c with
      rip := c.word 0, cs := (c.word 1).setWidth 16, rflags := c.word 2, rsp := c.word 3,
      ss := (c.word 4).setWidth 16 } := by
  have h1 := h.popped
  have h2 := h1.popped
  have h3 := h2.popped
  have h4 := h3.popped
  unfold iretq
  refine (pop_bind h _).trans ((pop_bind h1 _).trans ((pop_bind h2 _).trans ((pop_bind h3 _).trans
    ((pop_bind h4 _).trans ?_))))
  simp only [word_popped h, word_popped h1, word_popped h2, word_popped h3]
  exact if_neg (not_or.mpr ⟨not_not.mpr hcs, not_not.mpr hss⟩)

/-- Further up the stack. -/
theorem toNat_add_words {r : BitVec 64} {k : Nat} (h : r.toNat + 8 * k < 2 ^ 64) :
    (r + BitVec.ofNat 64 (8 * k)).toNat = r.toNat + 8 * k := by
  bv_omega

theorem Poppable.add (h : c.Poppable (k + n)) :
    Poppable { c with rsp := c.rsp + BitVec.ofNat 64 (8 * k) } n := by
  have h1 := h.1
  have hsp := toNat_add_words (r := c.rsp) (k := k) (by omega)
  refine ⟨?_, fun i hi => ?_⟩
  · show (c.rsp + BitVec.ofNat 64 (8 * k)).toNat + 8 * n < 2 ^ 64
    omega
  · show c.access ((c.rsp + BitVec.ofNat 64 (8 * k)).toNat + i) ≠ .none
    rw [hsp, Nat.add_assoc]
    exact h.2 (8 * k + i) (by omega)

theorem word_add (h : c.rsp.toNat + 8 * k < 2 ^ 64) (i : Nat) :
    word { c with rsp := c.rsp + BitVec.ofNat 64 (8 * k) } i = c.word (k + i) := by
  have hsp := toNat_add_words (r := c.rsp) (k := k) h
  unfold word
  rw [hsp, Nat.add_assoc, Nat.mul_add]

end Core
end MikroKernel
