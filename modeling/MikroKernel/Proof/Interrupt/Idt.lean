import MikroKernel.Interrupt.Isr
import MikroKernel.Lib.Run

/-!
# The interrupt descriptor table

`idt_set_gate` stores a gate in seven fields, and the CPU reads sixteen bytes and cuts them up by
its own layout. A gate is therefore compared as one number: `get_idtSetGate` says what number the
fields come to, and `gateOf_idtSetGate` what the CPU takes from it.

`Installed` is what the rest of the kernel relies on. The register points at the table, each of the
32 entries leads to its handler, in ring 0 and with interrupts off but for the breakpoint, and the
controllers are masked. **It holds from the return of `__init_idt` on**, `Installed.run`: what the
kernel does later is either `_reload_idt_virtual`, which writes the entries again, or something that
leaves the table, the variable `idtr` and the controllers alone.

The first four entries of `__init_idt` are written one by one. With the loop behind them they are
one loop over all handlers, which is how the proof sees them, so both functions are one lemma
(`gateAt_installStubs`).
-/

set_option autoImplicit false

namespace MikroKernel
namespace Interrupt

open Bytes MikroKernel.Core

variable {I : IdtImage} {m m' : Ram} {c c' : Core} {b b' : Board}

/-- A stored gate as one number: the fields one above the other, each cut to its width. The masks
and shifts of the source take the address apart; here they are divisions. -/
theorem get_idtSetGate (idt : Nat) (num : BitVec 8) (base : BitVec 64) (sel : BitVec 16)
    (flags : BitVec 8) (m : Ram) :
    get (idtSetGate idt num base sel flags m) (idt + 16 * num.toNat) 16
      = base.toNat % 2 ^ 16 + 2 ^ 16 * (sel.toNat + 2 ^ 16 * (0 + 2 ^ 8 * (flags.toNat
        + 2 ^ 8 * (base.toNat / 2 ^ 16 % 2 ^ 16 + 2 ^ 16 * (base.toNat / 2 ^ 32 % 2 ^ 32))))) := by
  have hlow : (base &&& 0xFFFF).toNat = base.toNat % 2 ^ 16 := by
    rw [BitVec.toNat_and]
    exact Nat.and_two_pow_sub_one_eq_mod base.toNat 16
  have hmid : ((base >>> 16) &&& 0xFFFF).toNat = base.toNat / 2 ^ 16 % 2 ^ 16 := by
    rw [BitVec.toNat_and, BitVec.toNat_ushiftRight, Nat.shiftRight_eq_div_pow]
    exact Nat.and_two_pow_sub_one_eq_mod _ 16
  have hhigh : ((base >>> 32) &&& 0xFFFFFFFF).toNat = base.toNat / 2 ^ 32 % 2 ^ 32 := by
    rw [BitVec.toNat_and, BitVec.toNat_ushiftRight, Nat.shiftRight_eq_div_pow]
    exact Nat.and_two_pow_sub_one_eq_mod _ 32
  have hs := sel.isLt
  have hf := flags.isLt
  refine (get_putFields m (idt + 16 * num.toNat) _).trans ?_
  simp only [join, hlow, hmid, hhigh]
  omega

/-- The CPU reads what `idt_set_gate` was given. -/
theorem gateOf_idtSetGate (idt : Nat) (num : BitVec 8) (base : BitVec 64) (sel : BitVec 16)
    (flags : BitVec 8) (m : Ram) :
    gateOf (get (idtSetGate idt num base sel flags m) (idt + 16 * num.toNat) 16) =
      { offset := base.toNat, selector := sel.toNat, ist := 0, type := Core.bits flags.toNat 0 5,
        dpl := Core.bits flags.toNat 5 2, present := Core.bits flags.toNat 7 1 = 1 } := by
  have hb := base.isLt
  have hs := sel.isLt
  have hf := flags.isLt
  have hl : base.toNat % 2 ^ 16 < 2 ^ 16 := Nat.mod_lt _ (by decide)
  have hm : base.toNat / 2 ^ 16 % 2 ^ 16 < 2 ^ 16 := Nat.mod_lt _ (by decide)
  have hh : base.toNat / 2 ^ 32 % 2 ^ 32 < 2 ^ 32 := Nat.mod_lt _ (by decide)
  rw [get_idtSetGate]
  unfold gateOf
  simp (disch := omega) only [bits_above, bits_below, bits_all, Nat.reduceSub]
  rw [Gate.mk.injEq]
  exact ⟨by omega, rfl, rfl, rfl, rfl, rfl⟩

/-- A gate is sixteen bytes, and no others are written. -/
theorem idtSetGate_outside {idt a : Nat} {num : BitVec 8} {base : BitVec 64} {sel : BitVec 16}
    {flags : BitVec 8} (h : a < idt + 16 * num.toNat ∨ idt + 16 * num.toNat + 16 ≤ a) :
    idtSetGate idt num base sel flags m a = m a :=
  putFields_outside h

/-! ## The handlers' entries -/

/-- The IDT entry `i` in memory, as the CPU reads it. -/
def gateAt (I : IdtImage) (m : Ram) (i : Fin 32) : Gate := gateOf (get m (I.idt.toNat + 16 * i) 16)

/-- What the entry of handler `i` is meant to say: ring 0, and a trap gate for the breakpoint
only. -/
def handlerGate (I : IdtImage) (i : Fin 32) : Gate :=
  { offset := (I.isrStubs i).toNat, selector := 0x08, ist := 0,
    type := if i.val = 3 then 0xF else 0xE, dpl := 0, present := true }

/-- The entry depends on its own bytes only. -/
theorem gateAt_congr {i : Fin 32}
    (h : ∀ a, I.idt.toNat + 16 * i ≤ a → a < I.idt.toNat + 16 * i + 16 → m' a = m a) :
    gateAt I m' i = gateAt I m i := by
  unfold gateAt
  rw [get_congr h]

theorem toNat_vector (i : Fin 32) : (BitVec.ofNat 8 i).toNat = i := by
  rw [BitVec.toNat_ofNat, Nat.mod_eq_of_lt (by omega)]

/-- Written with its flags, an entry says what it is meant to. -/
theorem gateAt_idtSetGate (i : Fin 32) {flags : BitVec 8}
    (hflags : flags = if i = 3 then 0x8f else 0x8e) :
    gateAt I (idtSetGate I.idt.toNat (BitVec.ofNat 8 i) (I.isrStubs i) 0x08 flags m) i
        = handlerGate I i := by
  have h := gateOf_idtSetGate I.idt.toNat (BitVec.ofNat 8 i) (I.isrStubs i) 0x08 flags m
  rw [toNat_vector] at h
  unfold gateAt handlerGate
  rw [h, hflags]
  by_cases h3 : i = 3
  · subst h3
    rfl
  · have hv : i.val ≠ 3 := fun hv => h3 (Fin.ext hv)
    rw [if_neg h3, if_neg hv]
    rfl

/-- The other entries are as they were. -/
theorem gateAt_idtSetGate_other {i j : Fin 32} {flags : BitVec 8} (h : i ≠ j) :
    gateAt I (idtSetGate I.idt.toNat (BitVec.ofNat 8 j) (I.isrStubs j) 0x08 flags m) i
        = gateAt I m i := by
  have hne : (i : Nat) ≠ j := fun he => h (Fin.ext he)
  refine gateAt_congr fun a h1 h2 => idtSetGate_outside ?_
  rw [toNat_vector]
  omega

/-- A loop over `isr_stubs` writes the entries it comes to. -/
theorem gateAt_installStubs {flags : Fin 32 → BitVec 8} :
    ∀ (l : List (Fin 32)) (m : Ram) (i : Fin 32),
    (∀ j ∈ l, flags j = if j = 3 then 0x8f else 0x8e) →
    gateAt I (l.foldl (installStub I flags) m) i = if i ∈ l then handlerGate I i else gateAt I m i
  | [], _, _, _ => by simp
  | j :: l, m, i, hflags => by
    rw [List.foldl_cons, gateAt_installStubs l _ i fun k hk => hflags k (List.mem_cons_of_mem _ hk)]
    by_cases hl : i ∈ l
    · rw [if_pos hl, if_pos (List.mem_cons_of_mem _ hl)]
    · rw [if_neg hl]
      by_cases hij : i = j
      · subst hij
        rw [if_pos List.mem_cons_self]
        exact gateAt_idtSetGate i (hflags i List.mem_cons_self)
      · rw [if_neg (List.not_mem_cons_of_ne_of_not_mem hij hl)]
        exact gateAt_idtSetGate_other hij

/-- The loops write the first 32 entries of the table and nothing else. -/
theorem installStubs_outside {flags : Fin 32 → BitVec 8} {a : Nat}
    (h : a < I.idt.toNat ∨ I.idt.toNat + 512 ≤ a) :
    ∀ (l : List (Fin 32)) (m : Ram), l.foldl (installStub I flags) m a = m a
  | [], _ => rfl
  | j :: l, m => by
    rw [List.foldl_cons, installStubs_outside h l]
    refine idtSetGate_outside ?_
    rw [toNat_vector]
    omega

/-! ## From `__init_idt` on -/

/-- The table is in force, its entries lead to the handlers, and no interrupt comes from the
controllers. -/
structure Installed (I : IdtImage) (b : Board) : Prop where
  loaded : b.cpu.idtr = ⟨4095, I.idt⟩
  limit : get b.cpu.mem I.idtr 2 = 4095
  gates : ∀ i, gateAt I b.cpu.mem i = handlerGate I i
  master : b.master = ⟨[], 0x20, 0x04, 0x01, 0xFF⟩
  slave : b.slave = ⟨[], 0x28, 0x02, 0x01, 0xFF⟩

@[simp] theorem outb_cpu (b : Board) (port : BitVec 16) (v : BitVec 8) :
    (b.outb port v).cpu = b.cpu := by
  unfold Board.outb
  split_ifs <;> rfl

/-- `lidt` of the variable `idtr`, once the entries are written. -/
theorem idtLoad_written (hlimit : get m I.idtr 2 = 4095)
    (hm : ∀ a, a < I.idt.toNat ∨ I.idt.toNat + 512 ≤ a → m' a = put m (I.idtr + 2) 8 I.idt.toNat a)
    (c : Core) : get m' I.idtr 2 = 4095 ∧ (idtLoad I.idtr { c with mem := m' }).idtr
    = ⟨4095, I.idt⟩ := by
  have hapart := I.apart
  have hlim : get m' I.idtr 2 = 4095 := by
    rw [← hlimit, get_congr fun a h1 h2 => hm a (by omega), get_put_other (by omega)]
  have hbase : get m' (I.idtr + 2) 8 = I.idt.toNat := by
    rw [get_congr fun a h1 h2 => hm a (by omega), get_put_word]
  refine ⟨hlim, ?_⟩
  unfold idtLoad
  rw [hlim, hbase, BitVec.ofNat_toNat, BitVec.setWidth_eq]
  rfl

/-- **`__init_idt` installs the table**, whatever was in memory and in the controllers before. -/
theorem initIdt_installed (b : Board) : Installed I (initIdt I b) := by
  have hapart := I.apart
  -- the first four entries and the loop behind them are one loop over all handlers
  obtain ⟨m, hm, hcpu⟩ : ∃ m, m = (List.finRange 32).foldl (installStub I fun i => if i = 3
    then 0x8f else 0x8e)
      (put (put b.cpu.mem I.idtr 2 4095) (I.idtr + 2) 8 I.idt.toNat) ∧
      (initIdt I b).cpu = idtLoad I.idtr { b.cpu with mem := m } := ⟨_, rfl, by
    unfold initIdt
    simp only [outb_cpu]
    rfl⟩
  have hout : ∀ a, a < I.idt.toNat ∨ I.idt.toNat + 512 ≤ a →
      m a = put (put b.cpu.mem I.idtr 2 4095) (I.idtr + 2) 8 I.idt.toNat a := fun a ha => by
    rw [hm]
    exact installStubs_outside ha _ _
  obtain ⟨hlimit, hloaded⟩ := idtLoad_written (get_put _ _ _ _) hout b.cpu
  -- the controllers are two runs of five words each, which compute
  refine ⟨?_, ?_, fun i => ?_, rfl, rfl⟩
  · rw [hcpu]
    exact hloaded
  · rw [hcpu]
    exact hlimit
  · rw [hcpu]
    show gateAt I m i = _
    rw [hm, gateAt_installStubs _ _ _ fun _ _ => rfl, if_pos (List.mem_finRange i)]

/-- **`_reload_idt_virtual` keeps it.** It does not write the limit, which is still the one that
`__init_idt` stored. -/
theorem reloadIdtVirtual_installed (h : Installed I b) : Installed I (reloadIdtVirtual I b) := by
  have hout := fun a ha => @installStubs_outside I (fun i => if i = 3 then 0x8f
    else 0x8e) a ha (List.finRange 32)
    (put b.cpu.mem (I.idtr + 2) 8 I.idt.toNat)
  obtain ⟨hlimit, hloaded⟩ := idtLoad_written h.limit hout b.cpu
  refine ⟨hloaded, hlimit, fun i => ?_, h.master, h.slave⟩
  show gateAt I (List.foldl _ _ _) i = _
  rw [gateAt_installStubs _ _ _ fun _ _ => rfl, if_pos (List.mem_finRange i)]

/-- What happens behind `__init_idt`: the entries are written again, or something else is done,
which leaves the handlers' entries, the variable `idtr`, the register and the controllers alone. -/
inductive KernelStep (I : IdtImage) : Board → Board → Prop
  | reload {b : Board} : KernelStep I b (reloadIdtVirtual I b)
  | other {b b' : Board} :
      (∀ a, I.idtr ≤ a ∧ a < I.idtr + 10 ∨ I.idt.toNat ≤ a ∧ a < I.idt.toNat + 512 →
        b'.cpu.mem a = b.cpu.mem a) →
      b'.cpu.idtr = b.cpu.idtr → b'.master = b.master → b'.slave = b.slave → KernelStep I b b'

/-- One step keeps the table installed. -/
theorem Installed.step (h : Installed I b) (hstep : KernelStep I b b') : Installed I b' := by
  cases hstep with
  | reload => exact reloadIdtVirtual_installed h
  | other hmem hidtr hmaster hslave =>
    refine ⟨hidtr.trans h.loaded, ?_, fun i => ?_, hmaster.trans h.master, hslave.trans h.slave⟩
    · rw [← h.limit]
      exact get_congr fun a h1 h2 => hmem a (Or.inl ⟨h1, by omega⟩)
    · rw [← h.gates i]
      exact gateAt_congr fun a h1 h2 => hmem a (Or.inr ⟨by omega, by omega⟩)

/-- **The table is installed from `__init_idt` on.** -/
theorem Installed.run (hrun : Run.Reaches (KernelStep I) (initIdt I b) b') : Installed I b' :=
  hrun.invariant (Installed I) (initIdt_installed b) fun _ _ _ h hstep => h.step hstep

end Interrupt
end MikroKernel
