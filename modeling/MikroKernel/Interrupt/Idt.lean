import MikroKernel.Machine.Cpu

/-!
# `idt.c`

The source writes the IDT as an array of packed structures, field by field. The CPU never sees that
structure: it reads sixteen bytes at a multiple of sixteen and takes them apart its own way
(`gateOf`). So the table is bytes here, which both sides can be told in terms of, and that the two
layouts are the same is a theorem and not a convention (`gateOf_idtSetGate`).

`__init_idt` and `_reload_idt_virtual` write the same 32 entries. The first writes four of them one
by one, since the breakpoint has a type of its own, and the rest in a loop; the second has the loop
only. The variable `idtr` is ten packed bytes as well: the limit and the base that `lidt` loads.

The two interrupt controllers take what is written to their ports one word after the other: a
command word with bit 4 opens an initialisation, and the words that it announced follow at the odd
port, whatever else they would mean there. That is why the last two writes of `__init_idt` are masks
and the six before them are not.
-/

set_option autoImplicit false

namespace MikroKernel

open Bytes

/-- Where the linker has put `idt`, `idtr` and the handlers. The facts are the linker's: the
handlers are different places, the table does not run past the top of the address space, and the
two variables do not overlap. -/
structure IdtImage where
  idt : BitVec 64
  idtr : Nat
  isrStubs : Fin 32 → BitVec 64
  distinct : Function.Injective isrStubs
  fits : idt.toNat + 4096 ≤ 2 ^ 64
  apart : idtr + 10 ≤ idt.toNat ∨ idt.toNat + 4096 ≤ idtr

/-! ## The interrupt controllers -/

/-- The words that an 8259A waits for once it is initialised. -/
inductive Icw
  | vectorBase | cascade | mode
deriving DecidableEq, Repr

/-- An 8259A: the words it still waits for, and the ones it has been given. -/
structure Pic where
  awaited : List Icw
  vectorBase : BitVec 8
  cascade : BitVec 8
  mode : BitVec 8
  mask : BitVec 8
deriving DecidableEq, Repr

/-- A write to the even port. With bit 4 it starts the initialisation. -/
def Pic.command (p : Pic) (v : BitVec 8) : Pic :=
  if v.getLsbD 4 then
    { p with
      awaited := .vectorBase :: ((if v.getLsbD 1 then [] else [.cascade]) ++ if v.getLsbD 0
        then [.mode] else [])
      mode := 0
      mask := 0 }
  else p

/-- A write to the odd port: the next word of the initialisation, or the mask. -/
def Pic.data (p : Pic) (v : BitVec 8) : Pic :=
  match p.awaited with
  | .vectorBase :: rest => { p with awaited := rest, vectorBase := v &&& 0xF8 }
  | .cascade :: rest => { p with awaited := rest, cascade := v }
  | .mode :: rest => { p with awaited := rest, mode := v }
  | [] => { p with mask := v }

/-- The CPU and the interrupt controllers. -/
structure Board where
  cpu : Core
  master : Pic
  slave : Pic

/-- `outb(port, v)`. -/
def Board.outb (b : Board) (port : BitVec 16) (v : BitVec 8) : Board :=
  if port = 0x20 then { b with master := b.master.command v }
  else if port = 0x21 then { b with master := b.master.data v }
  else if port = 0xA0 then { b with slave := b.slave.command v }
  else if port = 0xA1 then { b with slave := b.slave.data v }
  else b

/-! ## The table -/

/-- `idt_set_gate(num, base, sel, flags)`: the seven fields of `idt_entry` in the order of the
structure, each of its own width. The address of the handler is in three pieces. -/
def idtSetGate (idt : Nat) (num : BitVec 8) (base : BitVec 64) (sel : BitVec 16) (flags : BitVec 8)
    (m : Ram) : Ram :=
  putFields m (idt + 16 * num.toNat)
    [(2, (base &&& 0xFFFF).toNat), (2, sel.toNat), (1, 0x00), (1, flags.toNat),
      (2, ((base >>> 16) &&& 0xFFFF).toNat), (4, ((base >>> 32) &&& 0xFFFFFFFF).toNat),
      (4, 0x00000000)]

/-- `idt_load(idtr)`, which is `lidt`: the register gets what the ten bytes say. -/
def idtLoad (idtr : Nat) (c : Core) : Core :=
  { c with idtr := ⟨BitVec.ofNat 16 (get c.mem idtr 2), BitVec.ofNat 64 (get c.mem (idtr + 2) 8)⟩ }

variable (I : IdtImage)

/-- One round of a loop over `isr_stubs`. -/
def installStub (flags : Fin 32 → BitVec 8) (m : Ram) (i : Fin 32) : Ram :=
  idtSetGate I.idt.toNat (BitVec.ofNat 8 i) (I.isrStubs i) 0x08 (flags i) m

/-- `__init_idt()`, in the order of the source: the variable `idtr`, the entries, the two
controllers, and `lidt` last. -/
def initIdt (b : Board) : Board :=
  let m := put b.cpu.mem I.idtr 2 (4096 - 1)
  let m := put m (I.idtr + 2) 8 I.idt.toNat
  let m := idtSetGate I.idt.toNat 0 (I.isrStubs 0) 0x08 0x8e m
  let m := idtSetGate I.idt.toNat 1 (I.isrStubs 1) 0x08 0x8e m
  let m := idtSetGate I.idt.toNat 2 (I.isrStubs 2) 0x08 0x8e m
  let m := idtSetGate I.idt.toNat 3 (I.isrStubs 3) 0x08 0x8f m
  let m := ((List.finRange 32).drop 4).foldl (installStub I fun _ => 0x8e) m
  let b := { b with cpu := { b.cpu with mem := m } }
  -- both controllers: vectors from 0x20 and 0x28, the cascade on line 2, 8086 mode, all lines
  -- masked
  let b := b.outb 0x20 0x11
  let b := b.outb 0xA0 0x11
  let b := b.outb 0x21 0x20
  let b := b.outb 0xA1 0x28
  let b := b.outb 0x21 0x04
  let b := b.outb 0xA1 0x02
  let b := b.outb 0x21 0x01
  let b := b.outb 0xA1 0x01
  let b := b.outb 0x21 0xFF
  let b := b.outb 0xA1 0xFF
  { b with cpu := idtLoad I.idtr b.cpu }

/-- `_reload_idt_virtual()`: base and entries again, now that the image is mapped where it is
linked. The limit stays. -/
def reloadIdtVirtual (b : Board) : Board :=
  let m := put b.cpu.mem (I.idtr + 2) 8 I.idt.toNat
  let m := (List.finRange 32).foldl (installStub I fun i => if i = 3 then 0x8f else 0x8e) m
  let b := { b with cpu := { b.cpu with mem := m } }
  { b with cpu := idtLoad I.idtr b.cpu }

end MikroKernel
