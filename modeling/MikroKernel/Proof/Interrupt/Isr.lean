import MikroKernel.Lib.Bits
import MikroKernel.Proof.Interrupt.Idt
import MikroKernel.Proof.Interrupt.Stack

/-!
# From an exception to `isr_dispatch`, and back

The way in has three parts, and each part pushes: the CPU the frame of `iretq`, the stub what the
CPU did not push and the number of the exception, `isr_common_handler` the registers. None of them
reads what is there, so the three lists one after the other are one list, `frameValues`, and the
state at the first instruction of `isr_dispatch` can be written down (`entered`,
`raiseException_eq`). What `isr_dispatch` is handed is a pointer to that list, which C reads as a
`registers_t` of the code that was interrupted (`exception_dispatched`). For this the stubs have to
agree with the CPU on which exceptions have an error code, all 32 of them (`isrCode_eq`).

The way back is the pops, and it trusts the stack: the CPU goes on with what the frame says, whoever
wrote it (`isrReturn_eq`). A handler that leaves the frame alone is therefore not noticed
(`exception_resumes`). The code segment is the one thing no frame helps with: where the GDT has none
at `0x08`, nothing can be delivered at all (`deliver_none`).

The stack pointer is aligned by the CPU before the frame is pushed, so the interrupted one need not
be aligned. 22 words and a return address make `rsp + 8` a multiple of 16 at the call, as the ABI
wants.
-/

set_option autoImplicit false

namespace MikroKernel
namespace Interrupt

open Bytes MikroKernel.Core

variable {I : IdtImage} {b : Board} {c c' : Core} {i : Fin 32} {code ret : BitVec 64}

/-! ## The way in -/

/-- The CPU rounds the stack pointer down to 16 bytes. -/
theorem toNat_aligned (c : Core) : c.aligned.rsp.toNat = c.rsp.toNat / 16 * 16 := by
  have h := Bits.and_high_mask (k := 4) c.rsp.isLt (by decide)
  unfold Core.aligned
  rw [BitVec.toNat_and]
  exact h

/-- The CPU accepts every entry: an interrupt gate, or for the breakpoint a trap gate. -/
theorem handlerGate_valid (I : IdtImage) (i : Fin 32) : (handlerGate I i).Valid := by
  refine ⟨rfl, rfl, ?_⟩
  unfold handlerGate
  by_cases h : i.val = 3
  · exact Or.inr (if_pos h)
  · exact Or.inl (if_neg h)

/-- What a delivery sets, besides the stack. -/
def inHandler (I : IdtImage) (i : Fin 32) (c : Core) : Core :=
  { c.aligned with cs := 0x08, rip := I.isrStubs i, rflags := c.handlerFlags (handlerGate I i) }

/-- The delivery of an exception, the table being installed. -/
theorem deliver_eq (h : Installed I b) (hmap : b.cpu.Mapped (I.idt.toNat + 16 * i) 16)
    (hcs : b.cpu.LoadsCode 0x08) (hroom : b.cpu.aligned.Room (b.cpu.exceptionFrame i code).length) :
    b.cpu.deliver i code
        = some (pushedAll (b.cpu.exceptionFrame i code) (inHandler I i b.cpu)) := by
  have hlimit : ¬ b.cpu.idtr.limit.toNat < 16 * (i : Nat) + 15 := by
    rw [h.loaded]
    show ¬ 4095 < _
    omega
  have hload : b.cpu.load (b.cpu.idtr.base.toNat + 16 * i) 16
      = some (get b.cpu.mem (I.idt.toNat + 16 * i) 16) := by
    rw [h.loaded]
    exact if_pos hmap
  have hgate : gateOf (get b.cpu.mem (I.idt.toNat + 16 * i) 16) = handlerGate I i := h.gates i
  -- the limit, the load of the gate, its checks and the pushes, in the order of the CPU
  unfold deliver
  rw [if_neg hlimit, hload, Option.bind_eq_bind, Option.bind_some]
  simp only [hgate]
  rw [if_pos ⟨handlerGate_valid I i, hcs⟩, pushes_eq hroom, Option.bind_eq_bind, Option.bind_some]
  have hrip : BitVec.ofNat 64 (handlerGate I i).offset = I.isrStubs i := by
    rw [show (handlerGate I i).offset = (I.isrStubs i).toNat from rfl, BitVec.ofNat_toNat,
      BitVec.setWidth_eq]
  have hwith := pushedAll_with 0x08 (I.isrStubs i) (b.cpu.handlerFlags (handlerGate I i))
    (b.cpu.exceptionFrame i code) b.cpu.aligned
  unfold inHandler
  rw [hrip, hwith]
  rfl

/-- No code segment, no handler. -/
theorem deliver_none (h : Installed I b) (hcs : ¬ b.cpu.LoadsCode 0x08) :
    b.cpu.deliver i code = none := by
  have hgate : gateOf (get b.cpu.mem (I.idt.toNat + 16 * i) 16) = handlerGate I i := h.gates i
  unfold deliver Core.load
  split
  · rfl
  · rw [h.loaded]
    split
    · rw [Option.bind_eq_bind, Option.bind_some]
      simp only [hgate]
      exact if_neg fun hv => hcs hv.2
    · rfl

/-- The stub of a handler is found, since no two handlers are in one place. -/
theorem stubAt_isrStubs (i : Fin 32) : stubAt I (I.isrStubs i) = some (isrCode i) := by
  have hfind : (List.finRange 32).find? (fun j => I.isrStubs j = I.isrStubs i) = some i := by
    rw [List.find?_eq_some_iff_getElem]
    refine ⟨by simp, i, by simp, by simp, fun j hj => ?_⟩
    simp only [List.getElem_finRange, Fin.cast_mk, Bool.not_eq_true', decide_eq_false_iff_not]
    intro he
    have := I.distinct he
    rw [← this] at hj
    exact absurd hj (lt_irrefl _)
  unfold stubAt
  rw [hfind]
  rfl

/-- A stub is pushes of constants. -/
theorem execAll_pushImm : ∀ {vs : List (BitVec 64)} {c : Core}, c.Room vs.length →
    execAll (vs.map .pushImm) c = some (pushedAll vs c)
  | [], _, _ => rfl
  | v :: vs, c, h => by
    rw [List.map_cons]
    unfold execAll
    rw [show (Instr.pushImm v).exec c = c.push v from rfl, push_eq h, Option.bind_eq_bind,
      Option.bind_some, execAll_pushImm (h.pushed v)]
    rfl

/-- The registers are pushed as they are when the first push comes: a push changes none of them. -/
theorem execAll_push : ∀ {rs : List Reg} {c : Core}, c.Room rs.length →
    execAll (rs.map .push) c = some (pushedAll (rs.map c.reg) c)
  | [], _, _ => rfl
  | r :: rs, c, h => by
    rw [List.map_cons]
    unfold execAll
    rw [show (Instr.push r).exec c = c.push (c.reg r) from rfl, push_eq h, Option.bind_eq_bind,
      Option.bind_some, execAll_push (h.pushed _)]
    rfl

/-- What stub `i` pushes. -/
def stubValues (i : Fin 32) : List (BitVec 64) :=
  (if PushesCode i then [] else [0]) ++ [BitVec.ofNat 64 i]

/-- **Each stub pushes its own number**, behind a zero where the CPU pushes no error code. -/
theorem isrCode_eq (i : Fin 32) : isrCode i = (stubValues i).map .pushImm := by
  revert i
  decide

/-- The error code that a handler is shown. -/
def shownCode (i : Fin 32) (code : BitVec 64) : BitVec 64 := if PushesCode i then code else 0

/-- All that is on the stack when `isr_dispatch` is called, in the order in which it came there. -/
def frameValues (c : Core) (i : Fin 32) (code : BitVec 64) : List (BitVec 64) :=
  [c.ss.setWidth 64, c.rsp, c.rflags, c.cs.setWidth 64, c.rip, shownCode i code, BitVec.ofNat 64 i]
    ++ savedRegs.map c.reg

/-- The three parts of the way in make one frame. With an error code of the CPU or a zero of the
stub, the words are at the same places. -/
theorem frameValues_eq (c : Core) (i : Fin 32) (code : BitVec 64) :
    c.exceptionFrame i code ++ stubValues i ++ savedRegs.map c.reg = frameValues c i code := by
  unfold exceptionFrame stubValues frameValues shownCode
  split <;> rfl

/-- `isr_dispatch` is called with `vs` on the stack. -/
def calledWith (ret : BitVec 64) (vs : List (BitVec 64)) (c : Core) : Core :=
  pushed ret ((pushedAll vs c).setReg .rdi (pushedAll vs c).rsp)

/-- The CPU at the first instruction of `isr_dispatch`. -/
def entered (I : IdtImage) (ret : BitVec 64) (i : Fin 32) (code : BitVec 64) (c : Core) : Core :=
  calledWith ret (frameValues c i code) (inHandler I i c)

theorem pushedAll_reg (vs : List (BitVec 64)) (c : Core) : (pushedAll vs c).reg = c.reg := by
  rw [pushedAll_eq]

theorem pushedAll_rip (vs : List (BitVec 64)) (c : Core) : (pushedAll vs c).rip = c.rip := by
  rw [pushedAll_eq]

theorem setReg_self (c : Core) (r : Reg) (v : BitVec 64) : (c.setReg r v).reg r = v := by
  unfold Core.setReg
  exact Function.update_self (f := c.reg) r v

theorem room_setReg {r : Reg} {v : BitVec 64} {k : Nat} (h : c.Room k) : (c.setReg r v).Room k := h

theorem exec_movRsp (r : Reg) (c : Core) : (Instr.movRsp r).exec c = some (c.setReg r c.rsp) := rfl

theorem pushedAll_access (vs : List (BitVec 64)) (c : Core) :
    (pushedAll vs c).access = c.access := by
  rw [pushedAll_eq]

theorem calledWith_access (ret : BitVec 64) (vs : List (BitVec 64)) (c : Core) :
    (calledWith ret vs c).access = c.access := pushedAll_access vs c

theorem entered_access (I : IdtImage) (ret : BitVec 64) (i : Fin 32) (code : BitVec 64) (c : Core) :
    (entered I ret i code c).access = c.access := calledWith_access ret (frameValues c i code)
      (inHandler I i c)

/-- `isr_common_handler` up to the call. -/
theorem isrEntry_eq (h : c.Room (savedRegs.length + 1)) :
    isrEntry ret c = some (calledWith ret (savedRegs.map c.reg) c) := by
  have hrest : (pushedAll (savedRegs.map c.reg) c).Room 1 :=
    Room.pushedAll (by rwa [List.length_map])
  unfold isrEntry
  rw [execAll_push (h.mono (Nat.le_succ _)), Option.bind_eq_bind, Option.bind_some,
    exec_movRsp, Option.bind_some]
  exact push_eq (room_setReg hrest) ret

/-- **Every exception reaches `isr_dispatch`**, in the state that `entered` says. The room that is
asked for is the frame and the return address; each part of the way takes its own off it. -/
theorem raiseException_eq (h : Installed I b) (hmap : b.cpu.Mapped (I.idt.toNat + 16 * i) 16)
    (hcs : b.cpu.LoadsCode 0x08) (hroom : b.cpu.aligned.Room 23) :
    raiseException I ret i code b.cpu = some (entered I ret i code b.cpu) := by
  have hlen : (b.cpu.exceptionFrame i code).length
      + ((stubValues i).length + (savedRegs.length + 1)) = 23 := by
    unfold exceptionFrame stubValues
    split <;> rfl
  have hin : (inHandler I i b.cpu).Room
      ((b.cpu.exceptionFrame i code).length
          + ((stubValues i).length + (savedRegs.length + 1))) := by
    rw [hlen]
    exact hroom
  have hstub := hin.pushedAll
  have hsave := hstub.pushedAll
  unfold raiseException
  rw [deliver_eq h hmap hcs (hin.mono (Nat.le_add_right _ _)), Option.bind_eq_bind,
    Option.bind_some, pushedAll_rip, show (inHandler I i b.cpu).rip = I.isrStubs i from rfl,
    stubAt_isrStubs, Option.bind_eq_bind, Option.bind_some, isrCode_eq,
    execAll_pushImm (hstub.mono (Nat.le_add_right _ _)), Option.bind_some, isrEntry_eq hsave,
    pushedAll_reg, pushedAll_reg, show (inHandler I i b.cpu).reg = b.cpu.reg from rfl]
  unfold entered calledWith
  rw [← pushedAll_append, ← pushedAll_append, ← List.append_assoc, frameValues_eq]

/-! ## What `isr_dispatch` finds -/

/-- The `registers_t` of a CPU that exception `i` interrupts. -/
def shownRegisters (c : Core) (i : Fin 32) (code : BitVec 64) : Registers :=
  { r15 := c.reg .r15, r14 := c.reg .r14, r13 := c.reg .r13, r12 := c.reg .r12, r11 := c.reg .r11,
    r10 := c.reg .r10
    r9 := c.reg .r9, r8 := c.reg .r8, rbp := c.reg .rbp, rdi := c.reg .rdi, rsi := c.reg .rsi,
      rdx := c.reg .rdx
    rcx := c.reg .rcx, rbx := c.reg .rbx, rax := c.reg .rax
    vec := BitVec.ofNat 64 i, errorCode := shownCode i code
    rip := c.rip, cs := c.cs.setWidth 64, rflags := c.rflags, rsp := c.rsp, ss := c.ss.setWidth 64 }

/-- A `registers_t` depends on its 22 words. -/
theorem ofWords_congr {f g : Nat → BitVec 64} (h : ∀ k < 22, f k = g k) :
    Registers.ofWords f = Registers.ofWords g := by
  unfold Registers.ofWords
  simp only [h 0 (by decide), h 1 (by decide), h 2 (by decide), h 3 (by decide), h 4 (by decide),
    h 5 (by decide), h 6 (by decide), h 7 (by decide), h 8 (by decide), h 9 (by decide),
    h 10 (by decide), h 11 (by decide), h 12 (by decide), h 13 (by decide), h 14 (by decide),
    h 15 (by decide), h 16 (by decide), h 17 (by decide), h 18 (by decide), h 19 (by decide),
    h 20 (by decide), h 21 (by decide)]

section Called

variable {vs : List (BitVec 64)}

/-- `rdi` points at the last word pushed before the call. -/
theorem calledWith_rdi (h : c.Room (vs.length + 1)) :
    ((calledWith ret vs c).reg .rdi).toNat = c.rsp.toNat - 8 * vs.length := by
  have hreg : (calledWith ret vs c).reg .rdi = (pushedAll vs c).rsp := by
    show ((pushedAll vs c).setReg .rdi (pushedAll vs c).rsp).reg .rdi = _
    exact setReg_self _ _ _
  rw [hreg, rsp_pushedAll (h.mono (Nat.le_succ _))]

/-- The return address is one word further down. -/
theorem calledWith_rsp (h : c.Room (vs.length + 1)) :
    (calledWith ret vs c).rsp.toNat = c.rsp.toNat - 8 * (vs.length + 1) := by
  have hsp := rsp_pushedAll (h.mono (Nat.le_succ _))
  have h1 := h.1
  have h8 : 8 ≤ (pushedAll vs c).rsp.toNat := by omega
  refine (toNat_sub_eight h8).trans ?_
  omega

/-- The call writes its return address only. -/
theorem calledWith_mem (h : c.Room (vs.length + 1)) {a : Nat}
    (ha : a < c.rsp.toNat - 8 * (vs.length + 1) ∨ c.rsp.toNat - 8 * vs.length ≤ a) :
    (calledWith ret vs c).mem a = (pushedAll vs c).mem a := by
  have hrsp : (calledWith ret vs c).rsp.toNat = c.rsp.toNat - 8 * (vs.length + 1) :=
    calledWith_rsp h
  have h1 := h.1
  refine put_outside (a := (calledWith ret vs c).rsp.toNat) ?_
  rw [hrsp]
  omega

/-- Memory off the stack is as it was before the way in. -/
theorem calledWith_outside (h : c.Room (vs.length + 1)) {a : Nat}
    (ha : a < c.rsp.toNat - 8 * (vs.length + 1) ∨ c.rsp.toNat ≤ a) :
    (calledWith ret vs c).mem a = c.mem a := by
  rw [calledWith_mem h (by omega), pushedAll_outside (h.mono (Nat.le_succ _)) (by omega)]

/-- What was pushed last is the first word at `rdi`. -/
theorem calledWith_word (h : c.Room (vs.length + 1)) {k : Nat} (hk : k < vs.length) :
    BitVec.ofNat 64
      (get (calledWith ret vs c).mem (((calledWith ret vs c).reg .rdi).toNat + 8 * k) 8)
      = vs.reverse.getD k 0 := by
  have hroom := h.mono (Nat.le_succ _)
  have hwords := words_pushedAll (n := 0) hroom
  unfold words at hwords
  rw [Nat.add_zero, rsp_pushedAll hroom] at hwords
  -- word `k` of what lies at the stack pointer, counted from the top
  have hval := getElem?_fields (pushedAll vs c).mem 8 (c.rsp.toNat - 8 * vs.length) vs.length k hk
  rw [hwords, show fields _ _ (List.replicate 0 8) = [] from rfl,
    List.append_nil, ← List.map_reverse, List.getElem?_map] at hval
  obtain ⟨v, hv, hget⟩ := Option.map_eq_some_iff.mp hval
  rw [calledWith_rdi h, get_congr fun a h1 _ => calledWith_mem h (Or.inr (by omega)), ← hget,
    List.getD_eq_getElem?_getD, hv, BitVec.ofNat_toNat, BitVec.setWidth_eq]
  rfl

end Called

/-- Interrupts stay on in the handler of the breakpoint only. -/
theorem handlerFlags_if (c : Core) (i : Fin 32) :
    (c.handlerFlags (handlerGate I i)).getLsbD 9 = (c.rflags.getLsbD 9 && decide (i = 3)) := by
  unfold handlerFlags handlerGate clearedFlags interruptFlag
  by_cases h : i = 3
  · subst h
    simp
  · have hv : i.val ≠ 3 := fun hv => h (Fin.ext hv)
    simp [h, hv]

/-- What `rdi` points at is a `registers_t` of the interrupted CPU. -/
theorem entered_registers (h : c.aligned.Room 23) :
    registersAt (entered I ret i code c).mem ((entered I ret i code c).reg .rdi).toNat
        = shownRegisters c i code := by
  have hin : (inHandler I i c).Room ((frameValues c i code).length + 1) := h
  exact ofWords_congr fun k hk => @calledWith_word (inHandler I i c) ret
    (frameValues c i code) hin k hk

/-- **`isr_dispatch` is given the interrupted CPU.** Behind `__init_idt`, whatever else the kernel
has done: if the CPU finds its code segment in the GDT, exception `i` arrives at `isr_dispatch`,
which is called by the ABI, with a `registers_t` of what was interrupted, and nothing but free stack
has been written. If it does not, no handler runs. The interrupt controllers stay masked, with their
vectors behind those of the exceptions. -/
theorem exception_dispatched {b₀ : Board} (hrun : Run.Reaches (KernelStep I) (initIdt I b₀) b)
    (i : Fin 32) (code ret : BitVec 64) (hmap : b.cpu.Mapped (I.idt.toNat + 16 * i) 16)
    (hroom : b.cpu.aligned.Room 23) :
    (b.cpu.LoadsCode 0x08 → ∃ c, raiseException I ret i code b.cpu = some c ∧
      registersAt c.mem (c.reg .rdi).toNat = shownRegisters b.cpu i code ∧
      (c.rsp.toNat + 8) % 16 = 0 ∧
      c.rflags.getLsbD 9 = (b.cpu.rflags.getLsbD 9 && decide (i = 3)) ∧
      ∀ a, a < c.rsp.toNat ∨ b.cpu.rsp.toNat ≤ a → c.mem a = b.cpu.mem a) ∧
    (¬ b.cpu.LoadsCode 0x08 → raiseException I ret i code b.cpu = none) ∧
    b.master = ⟨[], 0x20, 0x04, 0x01, 0xFF⟩ ∧ b.slave = ⟨[], 0x28, 0x02, 0x01, 0xFF⟩ := by
  have h := Installed.run hrun
  have hin : (inHandler I i b.cpu).Room ((frameValues b.cpu i code).length + 1) := hroom
  have h184 : 184 ≤ b.cpu.aligned.rsp.toNat := hroom.1
  have halign := toNat_aligned b.cpu
  have hrsp : (entered I ret i code b.cpu).rsp.toNat = b.cpu.aligned.rsp.toNat - 184 :=
    calledWith_rsp hin
  refine ⟨fun hcs => ⟨entered I ret i code b.cpu, raiseException_eq h hmap hcs hroom, ?_, ?_, ?_,
    ?_⟩, fun hcs => ?_, h.master, h.slave⟩
  · exact entered_registers hroom
  · omega
  · have hflags : (entered I ret i code b.cpu).rflags = b.cpu.handlerFlags (handlerGate I i) := by
      show (pushedAll (frameValues b.cpu i code) (inHandler I i b.cpu)).rflags = _
      rw [pushedAll_eq]
      rfl
    rw [hflags]
    exact handlerFlags_if b.cpu i
  · intro a ha
    rw [hrsp] at ha
    refine (calledWith_outside hin ?_ : _ = (inHandler I i b.cpu).mem a)
    show a < b.cpu.aligned.rsp.toNat - 184 ∨ b.cpu.aligned.rsp.toNat ≤ a
    omega
  · unfold raiseException
    rw [deliver_none h hcs]
    rfl

/-! ## The way back -/

/-- The last register pushed is the first one popped, so each gets its own word. -/
theorem popRegs_savedRegs (word : Nat → BitVec 64) (reg : Reg → BitVec 64) :
    popRegs savedRegs.reverse word reg = (Registers.ofWords word).reg := by
  funext r
  cases r <;> rfl

/-- The end of `isr_common_handler`: the registers are popped, and the vector and the error code are
skipped. -/
theorem isrReturn_of_pops {d : Core}
    (hpops : execAll restoreRegs c = some { d with rsp := d.rsp + BitVec.ofNat 64 (8 * 15) })
    (h : d.Poppable 22) (hcs : d.LoadsCode ((d.word 18).setWidth 16).toNat)
    (hss : d.LoadsStack ((d.word 21).setWidth 16).toNat) :
    isrReturn c = some { d with
      rip := d.word 17, cs := (d.word 18).setWidth 16, rflags := d.word 19, rsp := d.word 20,
      ss := (d.word 21).setWidth 16 } := by
  have h17 : Poppable { d with rsp := d.rsp + BitVec.ofNat 64 (8 * 17) } 5 :=
    Poppable.add (k := 17) h
  have hword := word_add (c := d) (k := 17) (by have := h.1; omega)
  -- fifteen words are popped and two are skipped, so the five of `iretq` are those from 17 on
  have hskip : d.rsp + BitVec.ofNat 64 (8 * 15) + 16 = d.rsp + BitVec.ofNat 64 (8 * 17) := by
    rw [BitVec.add_assoc]
    rfl
  have hiretq := iretq_eq h17 (by rw [hword]; exact hcs) (by rw [hword]; exact hss)
  rw [hword, hword, hword, hword, hword] at hiretq
  unfold isrReturn
  rw [hpops, Option.bind_eq_bind, Option.bind_some,
    show (Instr.addRsp 16).exec { d with rsp := d.rsp + BitVec.ofNat 64 (8 * 15) }
      = some { d with rsp := d.rsp + BitVec.ofNat 64 (8 * 15) + 16 } from rfl, Option.bind_some,
        hskip, hiretq]

/-- **The CPU goes on with what the frame says**, whoever has written it. -/
theorem isrReturn_eq {r : Registers} (h : c.Poppable 22) (hr : registersAt c.mem c.rsp.toNat = r)
    (hcs : c.LoadsCode (r.cs.setWidth 16).toNat) (hss : c.LoadsStack (r.ss.setWidth 16).toNat) :
    isrReturn c = some { c with
      reg := r.reg, rip := r.rip, cs := r.cs.setWidth 16, rflags := r.rflags, rsp := r.rsp,
      ss := r.ss.setWidth 16 } := by
  have hpops := @execAll_pops savedRegs.reverse c (h.mono (by decide))
  rw [popRegs_savedRegs] at hpops
  subst hr
  exact isrReturn_of_pops (d := { c with reg := (Registers.ofWords c.word).reg }) hpops h hcs hss

/-- The return of a handler that has taken its return address from the stack, has left the frame as
it was given, and has not changed what the CPU needs to go back. -/
structure HandlerReturns (c c' : Core) (cs ss : BitVec 16) : Prop where
  rsp : c'.rsp.toNat = c.rsp.toNat + 8
  frame : ∀ a, c.rsp.toNat + 8 ≤ a → a < c.rsp.toNat + 8 + 176 → c'.mem a = c.mem a
  mapped : c'.Mapped (c.rsp.toNat + 8) 176
  code : c'.LoadsCode cs.toNat
  stack : c'.LoadsStack ss.toNat

/-- **A handler that returns is not noticed**: the interrupted code goes on with all its
registers. -/
theorem exception_resumes {b₀ : Board} (hrun : Run.Reaches (KernelStep I) (initIdt I b₀) b)
    (i : Fin 32) (code ret : BitVec 64) (hmap : b.cpu.Mapped (I.idt.toNat + 16 * i) 16)
    (hroom : b.cpu.aligned.Room 23) (hcs : b.cpu.LoadsCode 0x08) :
    ∃ c, raiseException I ret i code b.cpu = some c ∧
      ∀ c', HandlerReturns c c' b.cpu.cs b.cpu.ss → isrReturn c' = some { c' with
        reg := b.cpu.reg, rip := b.cpu.rip, cs := b.cpu.cs, rflags := b.cpu.rflags,
            rsp := b.cpu.rsp, ss := b.cpu.ss } := by
  have hin : (inHandler I i b.cpu).Room ((frameValues b.cpu i code).length + 1) := hroom
  have h184 : 184 ≤ b.cpu.aligned.rsp.toNat := hroom.1
  have halign := toNat_aligned b.cpu
  have hlt := b.cpu.rsp.isLt
  have hrsp : (entered I ret i code b.cpu).rsp.toNat = b.cpu.aligned.rsp.toNat - 184 :=
    calledWith_rsp hin
  have hrdi : ((entered I ret i code b.cpu).reg .rdi).toNat = b.cpu.aligned.rsp.toNat - 176 :=
    calledWith_rdi hin
  refine ⟨entered I ret i code b.cpu, raiseException_eq (Installed.run hrun) hmap hcs hroom,
    fun c' hc' => ?_⟩
  have hsp := hc'.rsp
  -- the frame is still the one that was built
  have hframe : registersAt c'.mem c'.rsp.toNat = shownRegisters b.cpu i code := by
    rw [← entered_registers hroom, hrdi]
    unfold registersAt
    refine ofWords_congr fun k hk => ?_
    rw [hsp,
      show (entered I ret i code b.cpu).rsp.toNat + 8 = b.cpu.aligned.rsp.toNat - 176 by omega,
      get_congr fun a h1 h2 => hc'.frame a (by omega) (by omega)]
  -- it is 22 words long, and `ret` has taken the return address off
  have hpop : c'.Poppable 22 := by
    refine ⟨by omega, ?_⟩
    rw [hsp]
    exact hc'.mapped
  have hreg : (shownRegisters b.cpu i code).reg = b.cpu.reg := by
    funext r
    cases r <;> rfl
  -- a segment register is pushed as a word, and its low half is popped
  have hseg : ∀ s : BitVec 16, (s.setWidth 64).setWidth 16 = s := fun s => by
    rw [BitVec.setWidth_setWidth_of_le _ (by decide), BitVec.setWidth_eq]
  have hret := isrReturn_eq hpop hframe
  rw [hreg] at hret
  simp only [shownRegisters, hseg] at hret
  exact hret hc'.code hc'.stack

/-! ## A small board -/

/-- The handlers stand 16 bytes apart. -/
def smallIdt : IdtImage where
  idt := 0xFFFFFFFF80020000
  idtr := 0xFFFFFFFF80021000
  isrStubs i := 0xFFFFFFFF80001000 + BitVec.ofNat 64 (16 * i)
  distinct i j h := by
    have := (BitVec.add_right_inj _).mp h
    have := congrArg BitVec.toNat this
    simp only [BitVec.toNat_ofNat] at this
    exact Fin.ext (by omega)
  fits := by decide
  apart := by decide

/-- The GDT of the bootloader is at `0x8000`, and the stack at `0x90000`, not aligned. -/
def smallBoard : Board where
  cpu :=
    { mem := putFields (fun _ => 0) 0x8008 [(8, 0x00209A0000000000), (8, 0x0000920000000000)]
      access := fun _ => .write
      reg := fun r => BitVec.ofNat 64 (savedRegs.idxOf r)
      rsp := 0x90008, rip := 0xFFFFFFFF80002000, rflags := 0x202, cs := 0x08, ss := 0x10
      gdtr := ⟨23, 0x8000⟩, idtr := ⟨0, 0⟩ }
  master := ⟨[], 0x08, 0, 0, 0⟩
  slave := ⟨[], 0x70, 0, 0, 0⟩

/-- The small board, with the table installed twice. -/
def smallReady : Board := reloadIdtVirtual smallIdt (initIdt smallIdt smallBoard)

theorem smallReady_run :
    Run.Reaches (KernelStep smallIdt) (initIdt smallIdt smallBoard) smallReady :=
  Relation.ReflTransGen.single .reload

theorem smallReady_room : smallReady.cpu.aligned.Room 23 := ⟨by decide, fun _ _ => rfl⟩

theorem smallReady_code : smallReady.cpu.LoadsCode 0x08 := by
  decide +kernel

theorem smallReady_mapped (a n : Nat) : smallReady.cpu.Mapped a n :=
  fun _ _ => (by decide : Access.write ≠ .none)

/-- A page fault, whose error code the CPU pushes. -/
theorem exception_dispatched_pageFault :
    ∃ c, raiseException smallIdt 0 14 2 smallReady.cpu = some c ∧
    registersAt c.mem (c.reg .rdi).toNat = shownRegisters smallReady.cpu 14 2 := by
  obtain ⟨c, hraise, hregs, -⟩ :=
    (exception_dispatched smallReady_run 14 2 0 (smallReady_mapped _ _) smallReady_room).1
      smallReady_code
  exact ⟨c, hraise, hregs⟩

/-- A handler that returns at once. -/
theorem returns_at_once {c : Core} {cs ss : BitVec 16} (hrsp : c.rsp.toNat + 8 < 2 ^ 64)
    (hmapped : c.access = fun _ => .write) (hcode : c.LoadsCode cs.toNat)
    (hstack : c.LoadsStack ss.toNat) :
    HandlerReturns c { c with rsp := c.rsp + 8 } cs ss := by
  refine ⟨toNat_add_eight hrsp, fun _ _ _ => rfl, fun i _ => ?_, hcode, hstack⟩
  show c.access _ ≠ _
  rw [hmapped]
  exact Access.noConfusion

theorem smallReady_returns {c : Core} (h : raiseException smallIdt 0 3 0 smallReady.cpu = some c) :
    HandlerReturns c { c with rsp := c.rsp + 8 } 0x08 0x10 := by
  have hc := @raiseException_eq smallIdt smallReady 3 0 0 (Installed.run smallReady_run)
    (smallReady_mapped _ _)
    smallReady_code smallReady_room
  obtain rfl := Option.some.inj (hc.symm.trans h)
  exact returns_at_once (by decide +kernel) (entered_access _ _ _ _ _) (by decide +kernel)
    (by decide +kernel)

/-- A breakpoint, and the stack pointer that was not aligned comes back. -/
theorem exception_resumes_breakpoint :
    ∃ c c', raiseException smallIdt 0 3 0 smallReady.cpu = some c ∧
    isrReturn { c with rsp := c.rsp + 8 } = some c' ∧ c'.reg = smallReady.cpu.reg ∧
    c'.rsp = 0x90008 := by
  obtain ⟨c, hraise, hret⟩ :=
    exception_resumes smallReady_run 3 0 0 (smallReady_mapped _ _) smallReady_room smallReady_code
  exact ⟨c, _, hraise, hret _ (smallReady_returns hraise), rfl, rfl⟩

end Interrupt
end MikroKernel
