import MikroKernel.Interrupt.Idt

/-!
# `idt_common.asm`

Each of the 32 handlers is a stub of one or two pushes that jumps to `isr_common_handler`. The stubs
differ in one point that has to be right 32 times: for some exceptions the CPU pushes an error code,
for the others the stub pushes a zero in its place, and only then do all of them lead to one frame.
So every stub is here by its name, as the list of its instructions, and the comparison with what
the CPU does is a theorem (`isrCode_eq`).

`isr_common_handler` saves fifteen registers, calls `isr_dispatch` with a pointer to all that is on
the stack, and undoes it. The call is C code, so the handler is in two parts: what runs up to the
first instruction of `isr_dispatch` is `isrEntry`, what runs from its return on is `isrReturn`. The
structure that C sees, `registers_t`, is the words of the stack by their positions.
-/

set_option autoImplicit false

namespace MikroKernel

/-! ## Instructions -/

/-- The instructions that the handlers are made of. The jumps and the call are no data: a stub goes
on in `isr_common_handler`, and the call is a push. -/
inductive Instr
  | pushImm (v : BitVec 64)
  | push (r : Reg)
  | pop (r : Reg)
  /-- `mov r, rsp` -/
  | movRsp (r : Reg)
  /-- `add rsp, n` -/
  | addRsp (n : BitVec 64)
deriving DecidableEq, Repr

def Instr.exec : Instr → Core → Option Core
  | .pushImm v, c => c.push v
  | .push r, c => c.push (c.reg r)
  | .pop r, c => do
      let (v, c) ← c.pop
      return c.setReg r v
  | .movRsp r, c => some (c.setReg r c.rsp)
  | .addRsp n, c => some { c with rsp := c.rsp + n }

def execAll : List Instr → Core → Option Core
  | [], c => some c
  | i :: rest, c => i.exec c >>= execAll rest

/-! ## The stubs -/

/-- A stub for an exception without an error code. -/
def plainStub (vec : BitVec 64) : List Instr := [.pushImm 0x00, .pushImm vec]

/-- A stub for an exception with an error code: the CPU has pushed it. -/
def codeStub (vec : BitVec 64) : List Instr := [.pushImm vec]

def isr0 : List Instr := plainStub 0x00
def isr1 : List Instr := plainStub 0x01
def isr2 : List Instr := plainStub 0x02
def isr3 : List Instr := plainStub 0x03
def isr4 : List Instr := plainStub 0x04
def isr5 : List Instr := plainStub 0x05
def isr6 : List Instr := plainStub 0x06
def isr7 : List Instr := plainStub 0x07
def isr8 : List Instr := codeStub 0x08
def isr9 : List Instr := plainStub 0x09
def isr10 : List Instr := codeStub 0x0A
def isr11 : List Instr := codeStub 0x0B
def isr12 : List Instr := codeStub 0x0C
def isr13 : List Instr := codeStub 0x0D
def isr14 : List Instr := codeStub 0x0E
def isr15 : List Instr := plainStub 0x0F
def isr16 : List Instr := plainStub 0x10
def isr17 : List Instr := codeStub 0x11
def isr18 : List Instr := plainStub 0x12
def isr19 : List Instr := plainStub 0x13
def isr20 : List Instr := plainStub 0x14
def isr21 : List Instr := codeStub 0x15
def isr22 : List Instr := plainStub 0x16
def isr23 : List Instr := plainStub 0x17
def isr24 : List Instr := plainStub 0x18
def isr25 : List Instr := plainStub 0x19
def isr26 : List Instr := plainStub 0x1A
def isr27 : List Instr := plainStub 0x1B
def isr28 : List Instr := plainStub 0x1C
def isr29 : List Instr := codeStub 0x1D
def isr30 : List Instr := codeStub 0x1E
def isr31 : List Instr := plainStub 0x1F

/-- The code behind the labels of `isr_stubs`. -/
def isrCode : Fin 32 → List Instr :=
  ![isr0, isr1, isr2, isr3, isr4, isr5, isr6, isr7, isr8, isr9, isr10, isr11, isr12, isr13, isr14,
    isr15, isr16, isr17, isr18, isr19, isr20, isr21, isr22, isr23, isr24, isr25, isr26, isr27,
    isr28, isr29, isr30, isr31]

/-! ## `isr_common_handler` -/

open Reg

/-- The registers that `isr_common_handler` saves, in the order of its pushes. -/
def savedRegs : List Reg := [rax, rbx, rcx, rdx, rsi, rdi, rbp, r8, r9, r10, r11, r12,
      r13, r14, r15]

/-- `isr_common_handler` up to the first instruction of `isr_dispatch`. The call pushes its return
address. -/
def isrEntry (ret : BitVec 64) (c : Core) : Option Core := do
  let c ← execAll (savedRegs.map .push) c
  let c ← (Instr.movRsp rdi).exec c
  c.push ret

/-- The pops of `isr_common_handler`, written out as in the source. That they are the pushes
backwards is what the way back needs, and nothing the assembler checks. -/
def restoreRegs : List Instr :=
  [.pop r15, .pop r14, .pop r13, .pop r12, .pop r11, .pop r10, .pop r9, .pop r8, .pop rbp,
    .pop rdi, .pop rsi, .pop rdx, .pop rcx, .pop rbx, .pop rax]

/-- `isr_common_handler` from the return of `isr_dispatch` on: the registers, then over the vector
and the error code, which `iretq` does not expect. -/
def isrReturn (c : Core) : Option Core := do
  let c ← execAll restoreRegs c
  let c ← (Instr.addRsp 16).exec c
  c.iretq

/-! ## From the exception to `isr_dispatch` -/

/-- The stub at an address, if there is one: the CPU jumps to what the gate says. -/
def stubAt (I : IdtImage) (rip : BitVec 64) : Option (List Instr) :=
  ((List.finRange 32).find? fun i => I.isrStubs i = rip).map isrCode

/-- Exception `vec`, up to the first instruction of `isr_dispatch`. There is none where the CPU
cannot deliver it, or finds no stub where the gate leads. -/
def raiseException (I : IdtImage) (ret : BitVec 64) (vec : Nat) (code : BitVec 64) (c : Core) :
    Option Core := do
  let c ← c.deliver vec code
  let stub ← stubAt I c.rip
  let c ← execAll stub c
  isrEntry ret c

/-- `registers_t`, in the order of the structure, which is the order of the stack from its top. -/
structure Registers where
  (r15 r14 r13 r12 r11 r10 r9 r8 rbp rdi rsi rdx rcx rbx rax : BitVec 64)
  (vec errorCode : BitVec 64)
  (rip cs rflags rsp ss : BitVec 64)
deriving DecidableEq, Repr

/-- A `registers_t` by its words. -/
def Registers.ofWords (u64 : Nat → BitVec 64) : Registers :=
  { r15 := u64 0, r14 := u64 1, r13 := u64 2, r12 := u64 3, r11 := u64 4, r10 := u64 5,
    r9 := u64 6, r8 := u64 7
    rbp := u64 8, rdi := u64 9, rsi := u64 10, rdx := u64 11, rcx := u64 12, rbx := u64 13,
      rax := u64 14
    vec := u64 15, errorCode := u64 16
    rip := u64 17, cs := u64 18, rflags := u64 19, rsp := u64 20, ss := u64 21 }

/-- The `registers_t` at `p`. -/
def registersAt (m : Bytes.Ram) (p : Nat) : Registers :=
  .ofWords fun i => BitVec.ofNat 64 (Bytes.get m (p + 8 * i) 8)

/-- The general registers of a `registers_t`. -/
def Registers.reg (r : Registers) : Reg → BitVec 64
  | .rax =>
    r.rax | .rbx => r.rbx | .rcx => r.rcx | .rdx => r.rdx | .rsi => r.rsi | .rdi =>
    r.rdi | .rbp => r.rbp
  | .r8 => r.r8 | .r9 => r.r9 | .r10 => r.r10 | .r11 => r.r11 | .r12 => r.r12 | .r13 =>
    r.r13 | .r14 => r.r14
  | .r15 => r.r15

end MikroKernel
