import MikroKernel.Lib.Bytes

/-!
# The processor, as far as exceptions go

What the code of `idt.c` and `idt_common.asm` relies on of an x86-64 CPU in ring 0: registers, the
stack, a memory of bytes behind page tables, the delivery of an exception through the IDT and the
GDT, and `iretq`. Memory is what there is at linear addresses, and `access` what the page tables in
force allow there. An access they do not allow gives `none`, as does everything else that the CPU
refuses: what comes then is another exception.

RF is left out, and so is the interrupt stack table: a gate that asks for it is refused.
-/

set_option autoImplicit false

namespace MikroKernel

open Bytes

/-- The general registers, without the stack pointer. -/
inductive Reg
  | rax | rbx | rcx | rdx | rsi | rdi | rbp | r8 | r9 | r10 | r11 | r12 | r13 | r14 | r15
deriving DecidableEq, Repr

/-- What a page allows. -/
inductive Access
  | none | read | write
deriving DecidableEq, Repr

/-- `GDTR` or `IDTR`. -/
structure TableReg where
  limit : BitVec 16
  base : BitVec 64
deriving DecidableEq, Repr

/-- A CPU, with the memory that it sees. -/
structure Core where
  mem : Ram
  access : Nat → Access
  reg : Reg → BitVec 64
  rsp : BitVec 64
  rip : BitVec 64
  rflags : BitVec 64
  cs : BitVec 16
  ss : BitVec 16
  gdtr : TableReg
  idtr : TableReg

namespace Core

/-! ## Memory and the stack -/

/-- The `n` bytes from `a` can be read. -/
def Mapped (c : Core) (a n : Nat) : Prop := ∀ i < n, c.access (a + i) ≠ .none

/-- The `n` bytes from `a` can be written. -/
def Writable (c : Core) (a n : Nat) : Prop := ∀ i < n, c.access (a + i) = .write

instance (c : Core) (a n : Nat) : Decidable (c.Mapped a n) :=
  inferInstanceAs (Decidable (∀ i < n, _))

instance (c : Core) (a n : Nat) : Decidable (c.Writable a n) :=
  inferInstanceAs (Decidable (∀ i < n, _))

def load (c : Core) (a n : Nat) : Option Nat := if c.Mapped a n then some (get c.mem a n) else none

def push (c : Core) (v : BitVec 64) : Option Core :=
  let sp := c.rsp - 8
  if c.Writable sp.toNat 8 then some { c with mem := put c.mem sp.toNat 8 v.toNat, rsp := sp }
    else none

def pushes : List (BitVec 64) → Core → Option Core
  | [], c => some c
  | v :: vs, c => c.push v >>= pushes vs

def pop (c : Core) : Option (BitVec 64 × Core) := do
  let v ← c.load c.rsp.toNat 8
  return (BitVec.ofNat 64 v, { c with rsp := c.rsp + 8 })

def setReg (c : Core) (r : Reg) (v : BitVec 64) :
    Core := { c with reg := Function.update c.reg r v }

/-! ## Descriptors -/

/-- The `n` bits of `x` from `lo`. -/
def bits (x lo n : Nat) : Nat := x / 2 ^ lo % 2 ^ n

theorem bits_above {x y k lo n : Nat} (hx : x < 2 ^ k) (h : k ≤ lo) :
    bits (x + 2 ^ k * y) lo n = bits y (lo - k) n := by
  have hlo : 2 ^ lo = 2 ^ k * 2 ^ (lo - k) := by rw [← pow_add, Nat.add_sub_cancel' h]
  unfold bits
  rw [hlo, ← Nat.div_div_eq_div_mul, Nat.add_mul_div_left _ _ (Nat.two_pow_pos k),
    Nat.div_eq_of_lt hx, Nat.zero_add]

theorem bits_below {x y k lo n : Nat} (h : lo + n ≤ k) :
    bits (x + 2 ^ k * y) lo n = bits x lo n := by
  have hk : 2 ^ k * y = 2 ^ lo * (2 ^ n * (2 ^ (k - lo - n) * y)) := by
    rw [← Nat.mul_assoc, ← Nat.mul_assoc, ← pow_add, ← pow_add,
      show lo + n + (k - lo - n) = k by omega]
  unfold bits
  rw [hk, Nat.add_mul_div_left _ _ (Nat.two_pow_pos lo), Nat.add_mul_mod_self_left]

theorem bits_all {x n : Nat} (h : x < 2 ^ n) : bits x 0 n = x := by
  unfold bits
  rw [pow_zero, Nat.div_one, Nat.mod_eq_of_lt h]

/-- An IDT entry of 16 bytes. -/
structure Gate where
  offset : Nat
  selector : Nat
  ist : Nat
  type : Nat
  dpl : Nat
  present : Bool
deriving DecidableEq, Repr

/-- How the CPU reads an IDT entry. -/
def gateOf (x : Nat) : Gate where
  offset := bits x 0 16 + 2 ^ 16 * bits x 48 16 + 2 ^ 32 * bits x 64 32
  selector := bits x 16 16
  ist := bits x 32 3
  type := bits x 40 5
  dpl := bits x 45 2
  present := bits x 47 1 = 1

/-- `0xE` is an interrupt gate, `0xF` a trap gate. -/
def Gate.Valid (g : Gate) : Prop := g.present = true ∧ g.ist = 0 ∧ (g.type = 0xE ∨ g.type = 0xF)

instance (g : Gate) : Decidable g.Valid := inferInstanceAs (Decidable (_ ∧ _ ∧ _))

/-- A present 64-bit code segment of ring 0. -/
def CodeDescriptor (d : Nat) : Prop := bits d 43 5 = 0b10011 ∧ bits d 53 2 = 0b01

/-- A present data segment of ring 0 that can be written. -/
def StackDescriptor (d : Nat) : Prop := bits d 43 5 = 0b10010 ∧ bits d 41 1 = 1

instance (d : Nat) : Decidable (CodeDescriptor d) := inferInstanceAs (Decidable (_ ∧ _))

instance (d : Nat) : Decidable (StackDescriptor d) := inferInstanceAs (Decidable (_ ∧ _))

/-- The descriptor that a selector of ring 0 names in the GDT; there is none for the null
selector. -/
def descriptor (c : Core) (sel : Nat) : Option Nat :=
  if sel < 8 ∨ bits sel 0 3 ≠ 0 ∨ c.gdtr.limit.toNat < sel + 7 then none
  else c.load (c.gdtr.base.toNat + sel) 8

/-- The selector can be loaded into `CS`. -/
def LoadsCode (c : Core) (sel : Nat) : Prop := ∃ d ∈ c.descriptor sel, CodeDescriptor d

/-- The selector can be loaded into `SS`. -/
def LoadsStack (c : Core) (sel : Nat) : Prop := ∃ d ∈ c.descriptor sel, StackDescriptor d

instance (c : Core) (sel : Nat) : Decidable (c.LoadsCode sel) :=
  inferInstanceAs (Decidable (∃ d ∈ _, _))

instance (c : Core) (sel : Nat) : Decidable (c.LoadsStack sel) :=
  inferInstanceAs (Decidable (∃ d ∈ _, _))

/-! ## Exceptions -/

/-- The exceptions that come with an error code. -/
def PushesCode (vec : Nat) : Prop := vec ∈ [8, 10, 11, 12, 13, 14, 17, 21, 29, 30]

instance (vec : Nat) : Decidable (PushesCode vec) := inferInstanceAs (Decidable (_ ∈ _))

/-- TF, NT and VM. -/
def clearedFlags : BitVec 64 := 0x24100

/-- IF. -/
def interruptFlag : BitVec 64 := 0x200

/-- What the CPU pushes for exception `vec`. -/
def exceptionFrame (c : Core) (vec : Nat) (code : BitVec 64) : List (BitVec 64) :=
  [c.ss.setWidth 64, c.rsp, c.rflags, c.cs.setWidth 64, c.rip] ++ if PushesCode vec
    then [code] else []

/-- The flags in a handler behind gate `g`. -/
def handlerFlags (c : Core) (g : Gate) : BitVec 64 :=
  if g.type = 0xE then c.rflags &&& ~~~clearedFlags &&& ~~~interruptFlag
    else c.rflags &&& ~~~clearedFlags

/-- The stack pointer as a delivery aligns it. -/
def aligned (c : Core) : Core := { c with rsp := c.rsp &&& ~~~0xF }

/-- Exception `vec` is delivered: the CPU is at the handler's first instruction. -/
def deliver (c : Core) (vec : Nat) (code : BitVec 64) : Option Core :=
  if c.idtr.limit.toNat < 16 * vec + 15 then none
  else do
    let g := gateOf (← c.load (c.idtr.base.toNat + 16 * vec) 16)
    if g.Valid ∧ c.LoadsCode g.selector then
      let pushed ← pushes (c.exceptionFrame vec code) c.aligned
      return { pushed with
        cs := BitVec.ofNat 16 g.selector, rip := BitVec.ofNat 64 g.offset,
          rflags := c.handlerFlags g }
    else none

/-- `iretq`, to ring 0. -/
def iretq (c : Core) : Option Core := do
  let (rip, c) ← c.pop
  let (cs, c) ← c.pop
  let (rflags, c) ← c.pop
  let (rsp, c) ← c.pop
  let (ss, c) ← c.pop
  if ¬ c.LoadsCode (cs.setWidth 16).toNat ∨ ¬ c.LoadsStack (ss.setWidth 16).toNat then none
  return { c with
    rip := rip, cs := cs.setWidth 16, rflags := rflags, rsp := rsp, ss := ss.setWidth 16 }

end Core
end MikroKernel
