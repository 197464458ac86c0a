import Mathlib.Data.BitVec

/-!
# `mikroBootldr-stg2-x86.asm` — `.load_mmap_BIOS`

The loop that asks the BIOS for the memory map. The BIOS is a list of replies, one for each
`int 0x15`; what the loop passes in (`EAX`, `ECX`, `EDX` and the continuation in `EBX`) does not
bear on it. Memory is the 64 KiB of segment 0, with the writer of each byte beside its value: the
entries have no bound here, and what the loader stores after them is told apart from them.
-/

set_option autoImplicit false

namespace MikroKernel.Boot

/-- The `'SMAP'` signature. -/
def smap : BitVec 32 := 0x534D4150

/-- What `int 0x15` with `EAX = 0xE820` returns: the carry flag, three registers, and the entry. -/
structure Reply where
  carry : Bool
  eax : BitVec 32
  ebx : BitVec 32
  ecx : BitVec 32
  entry : Fin 24 → BitVec 8

/-- The BIOS writes an entry only when carry is clear and `EAX` is `'SMAP'`. -/
def Reply.Writes (r : Reply) : Prop := r.carry = false ∧ r.eax = smap

instance (r : Reply) : Decidable r.Writes := inferInstanceAs (Decidable (_ ∧ _))

/-- A byte of segment 0 and who wrote it last. -/
inductive Cell where
  | before (b : BitVec 8)
  | bios (r : Reply) (i : Fin 24)
  | loader (b : BitVec 8)

def Cell.byte : Cell → BitVec 8
  | .before b => b
  | .bios r i => r.entry i
  | .loader b => b

/-- The entry counter, the offset of the next slot, and segment 0. -/
structure E820 where
  bp : BitVec 16
  di : BitVec 16
  mem : BitVec 16 → Cell

/-- `int 0x15`: the entry goes to `ES:DI`, whose offset has 16 bits. -/
def E820.int15 (s : E820) (r : Reply) : E820 :=
  if r.Writes then
    { s with mem := fun a => if h : (a - s.di).toNat < 24 then .bios r ⟨(a - s.di).toNat, h⟩
      else s.mem a }
  else s

/-- `.e820_done`: `inc bp`, then `mov word [0x7000], bp`. -/
def E820.done (s : E820) : E820 :=
  let bp := s.bp + 1
  { s with
    bp := bp
    mem := fun a =>
      if a = 0x7000 then .loader (bp.truncate 8)
      else if a = 0x7001 then .loader ((bp >>> 8).truncate 8)
      else s.mem a }

/-- `.e820_loop`; `none` where the replies end before the loop does. -/
def e820Loop : List Reply → E820 → Option E820
  | [], _ => none
  | r :: rest, s =>
    let s := s.int15 r
    if r.carry then some s.done                                     -- jc .e820_done
    else if r.eax ≠ smap then some s.done                           -- jne .e820_done
    else if r.ebx = 0 then some s.done                              -- jz .e820_done
    else if r.ecx = 0 then e820Loop rest s                          -- je .e820_loop
    else e820Loop rest { s with bp := s.bp + 1, di := s.di + 24 }

/-- `.load_mmap_BIOS`. -/
def loadMmapBios (replies : List Reply) (mem : BitVec 16 → Cell) : Option E820 :=
  e820Loop replies { bp := 0, di := 0x5000, mem }

/-- `mmap_entry_count`, the word at `0x7000`. -/
def mmapEntryCount (mem : BitVec 16 → Cell) : Nat :=
  (mem 0x7000).byte.toNat + 256 * (mem 0x7001).byte.toNat

/-- Byte `i` of `mmap_bios_entries[j]`, which start at `0x5000`. -/
def slot (j i : Nat) : BitVec 16 := BitVec.ofNat 16 (0x5000 + 24 * j + i)

end MikroKernel.Boot
