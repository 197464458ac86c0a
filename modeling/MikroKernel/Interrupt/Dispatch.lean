import MikroKernel.Boot.Screen
import MikroKernel.Interrupt.Isr

/-!
# `isr_dispatch.c`

The C half of every handler. `isr_dispatch` prints what happened and halts: every case ends in
`while (1) hlt`, so it never returns, and what it leaves behind is on the screen. Here it is a
function that returns what it writes to the framebuffer before it halts, in order, as the
functions of `Boot/Screen.lean` do.

It reads two words of the frame, the vector and the error code, and one register of the CPU, `cr2`,
which `mov_rax_cr2` fetches and which is an argument here. The other words of `registers_t` are
there for the way back, which no case takes. `pf_handler` clears the lower half of the screen first
and the text comes last, so the order of the stores matters: a later one covers an earlier one.
-/

set_option autoImplicit false

namespace MikroKernel

open Boot

/-- The text of each case, as the source has it. The default case is out of reach: the stubs push
no vector from 32 on (`isrCode_eq`). -/
def exceptionText : Nat → String
  | 0 => "#DE  Divide Error, vector: 0x00"
  | 1 => "#DB  Debug, vector: 0x01"
  | 2 => "NMI  Non-Maskable Interrupt, vector: 0x02"
  | 3 => "#BP  Breakpoint, vector: 0x03"
  | 4 => "#OF  Overflow, vector: 0x04"
  | 5 => "#BR  BOUND Range Exceeded, vector: 0x05"
  | 6 => "#UD  Invalid Opcode, vector: 0x06"
  | 7 => "#NM  Device Not Available, vector: 0x07"
  | 8 => "#DF  Double Fault, vector: 0x08"
  | 9 => "Coprocessor Segment Overrun, vector: 0x09"
  | 10 => "#TS  Invalid TSS, vector: 0x0A"
  | 11 => "#NP  Segment Not Present, vector: 0x0B"
  | 12 => "#SS  Stack-Segment Fault, vector: 0x0C"
  | 13 => "#GP  General Protection fault, vector: 0x0D"
  | 14 => "#PF  Page Fault, vector: 0x0E"
  | 15 => "Reserved, vector: 0x0F"
  | 16 => "#MF  x87 FPU Error, vector: 0x10"
  | 17 => "#AC  Alignment Check, vector: 0x11"
  | 18 => "#MC  Machine Check, vector: 0x12"
  | 19 => "#XM  SIMD Floating-Point Exception, vector: 0x13"
  | 20 => "#VE  Virtualization Exception, vector: 0x14"
  | 21 => "#CP  Control Protection, vector: 0x15"
  | 22 => "Reserved, vector: 0x16"
  | 23 => "Reserved, vector: 0x17"
  | 24 => "Reserved, vector: 0x18"
  | 25 => "Reserved, vector: 0x19"
  | 26 => "Reserved, vector: 0x1A"
  | 27 => "Reserved, vector: 0x1B"
  | 28 => "#HV  Hypervisor Injection Exception, vector: 0x1C"
  | 29 => "#VC  VMM Communication Exception, vector: 0x1D"
  | 30 => "#SX  Security Exception, vector: 0x1E"
  | 31 => "Reserved, vector: 0x1F"
  | _ => "Unhandled Interrupt"

variable (font : Nat → Nat) (fbVirt : Nat) (vbe : VbeInfo)

/-- `pf_handler(regs)`, with what `mov_rax_cr2` returns. -/
def pfHandler (regs : Registers) (cr2 : BitVec 64) : K (List Pixel) := do
  let cleared ← vesaClearLowerHalf font fbVirt vbe
  let vaddr ← vesaPrintVirtAddr font fbVirt vbe cr2.toNat (vesaLastRow - 2) 0
  return cleared ++ vaddr ++
    (← vesaPrintVirtAddr font fbVirt vbe regs.errorCode.toNat (vesaLastRow - 1) 0)

/-- `isr_dispatch(regs)`. The vector selects a text. Two cases write more: for a general protection
fault the error code after the text, for a page fault the address and the error code before it. -/
def isrDispatch (regs : Registers) (cr2 : BitVec 64) : K (List Pixel) :=
  let println := vesaNtPrintln font fbVirt vbe (bytes (exceptionText regs.vec.toNat)) vesaLastRow 0
  match regs.vec.toNat with
  | 13 => do
      let text ← println
      return text ++ (← vesaPrintVirtAddr font fbVirt vbe regs.errorCode.toNat (vesaLastRow - 2) 0)
  | 14 => do
      let debug ← pfHandler font fbVirt vbe regs cr2
      return debug ++ (← println)
  | _ => println

end MikroKernel
