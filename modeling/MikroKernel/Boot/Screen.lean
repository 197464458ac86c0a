import MikroKernel.Vm.Boot

/-!
# `vesa_graphics_lib.c` — what boot writes to the screen

The framebuffer is device memory: the kernel stores to it and never loads from it. So a function
that prints returns its stores, in order. Of the kernel's own memory it reads `s_fb_virt`, through
`get_fb`. A wrong value there shows in the addresses stored to; what else is at these addresses is
not followed, so what is said of a boot to its end (`boot_of_bss`) is for contents of `s_fb_virt`
with which `get_fb` is the framebuffer. The handoff is the copy `s_vbe_info`, and the font a file in
the image, by its bytes.

Rows and columns are computed in 32 bits. One reduction at the end of `pixelAddr` is the same.
-/

set_option autoImplicit false

namespace MikroKernel.Boot

/-- A 32-bit store to the framebuffer. -/
structure Pixel where
  addr : Nat
  color : Nat
deriving DecidableEq, Repr

/-- `boot_vbe_handoff`, with the width that only printing reads. -/
structure VbeInfo extends VbeHandoff where
  widthPx : Nat

/-- A C string, by its bytes. -/
def bytes (s : String) : List Nat := s.toList.map Char.toNat

/-! ## The font -/

section Font

variable (font : Nat → Nat)

/-- A `uint32_t` of the header. -/
def headerWord (i : Nat) : Nat :=
  font i + 2 ^ 8 * font (i + 1) + 2 ^ 16 * font (i + 2) + 2 ^ 24 * font (i + 3)

/-- `is_psf2()`. -/
def isPsf2 : Bool := font 0 = 0x72 ∧ font 1 = 0xB5

/-- `psf_charheight()`: `height` of a `psf2_hdr`, `charsize` of a `psf1_hdr`. -/
def psfCharheight : Nat := if isPsf2 font then headerWord font 24 else font 3

/-- `psf_glyph(c)`, by its offset in the file. -/
def psfGlyph (c : Nat) : Nat :=
  if isPsf2 font then headerWord font 8 + c * headerWord font 20 % 2 ^ 32 else 4 + c * font 3

end Font

/-! ## Pixels -/

/-- `&fb[y * pitch_in_pixels + x]`. -/
def pixelAddr (fb pitchInPixels y x : Nat) : Nat :=
  (fb + 4 * ((y * pitchInPixels + x) % 2 ^ 32)) % 2 ^ 64

section

variable (font : Nat → Nat) (fbVirt : Nat) (vbe : VbeInfo)

/-- `get_fb(vbe_md)`, with the variable `s_fb_virt` at `fbVirt`. -/
def getFb : K Nat := do
  if (← load fbVirt .ptr) ≠ 0 then load fbVirt .ptr
  else return vbe.framebufferAddress

/-- `vbe_black_screen()`. -/
def vbeBlackScreen : K (List Pixel) := do
  let fb ← getFb fbVirt vbe
  return (List.range vbe.heightPx).flatMap fun y => (List.range vbe.widthPx).map fun x =>
    ⟨pixelAddr fb (vbe.pitch / 4) y x, 0x00000000⟩

/-- `VESA_LAST_ROW`. -/
def vesaLastRow : Nat := 83

/-- `vesa_clear_lower_half()`. -/
def vesaClearLowerHalf : K (List Pixel) := do
  let fb ← getFb fbVirt vbe
  let halfRowPx := (vesaLastRow / 2 + 1) * psfCharheight font % 2 ^ 32
  return (List.range' halfRowPx (vbe.heightPx - halfRowPx)).flatMap fun y =>
      (List.range vbe.widthPx).map fun x =>
    ⟨pixelAddr fb (vbe.pitch / 4) y x, 0x00000000⟩

/-- The two inner loops of `vesa_nt_println`: one character. -/
def glyphPixels (fb glyph row curCol : Nat) : List Pixel :=
  (List.range (psfCharheight font)).flatMap fun r => (List.range 8).map fun c =>
    ⟨pixelAddr fb (vbe.pitch / 4) (row * psfCharheight font + r) (curCol * 8 + c),
      if font (glyph + r) &&& 0x80 >>> c ≠ 0 then 0x00FFFFFF else 0x00000000⟩

/-- `vesa_nt_println(nt_s, row, col)`. -/
def vesaNtPrintln (ntS : List Nat) (row col : Nat) : K (List Pixel) := do
  let fb ← getFb fbVirt vbe
  return (ntS.takeWhile (· ≠ 0)).zipIdx.flatMap fun (ch, i) =>
    glyphPixels font vbe fb (psfGlyph font ch) row (col + i)

/-- `uint64_to_hex(val, buf)`. -/
def uint64ToHex (val : Nat) : List Nat :=
  bytes "0x" ++ (List.range 16).map fun i => (bytes "0123456789ABCDEF").getD
    ((val >>> (60 - i * 4)) &&& 0xF) 0

/-- `vesa_print_virt_addr(addr, row, col)`. It has the loop of `uint64_to_hex` once more. -/
def vesaPrintVirtAddr (addr row col : Nat) : K (List Pixel) :=
  vesaNtPrintln font fbVirt vbe (uint64ToHex addr) row col

/-- `mmap_type_str(type)`. -/
def mmapTypeStr : Nat → String
  | 1 => "Usable RAM  "
  | 2 => "Reserved    "
  | 3 => "ACPI Reclaim"
  | 4 => "ACPI NVS    "
  | 5 => "Bad Memory  "
  | _ => "Unknown     "

/-- `idx_buf`. -/
def idxBuf (i : Nat) : List Nat := [(48 + i / 10) % 2 ^ 8, (48 + i % 10) % 2 ^ 8]

/-- One round of the loop of `vesa_print_mmap`. -/
def printEntry (e : MmapEntry) (i row col : Nat) : K (List Pixel) := do
  let idx ← vesaNtPrintln font fbVirt vbe (idxBuf i) row col
  let base ← vesaNtPrintln font fbVirt vbe (bytes "Base:") row (col + 3)
  let baseHex ← vesaNtPrintln font fbVirt vbe (uint64ToHex e.baseAddress) row (col + 8)
  let size ← vesaNtPrintln font fbVirt vbe (bytes "Size:") row (col + 27)
  let sizeHex ← vesaNtPrintln font fbVirt vbe (uint64ToHex e.chunkSize) row (col + 32)
  let type ← vesaNtPrintln font fbVirt vbe (bytes "Type:") row (col + 51)
  let typeStr ← vesaNtPrintln font fbVirt vbe (bytes (mmapTypeStr e.type)) row (col + 56)
  return idx ++ base ++ baseHex ++ size ++ sizeHex ++ type ++ typeStr

/-- `vesa_print_mmap(row, col)`, over the entries from `i` on. -/
def vesaPrintMmap : List MmapEntry → Nat → Nat → Nat → K (List Pixel)
  | [], _, _, _ => pure []
  | e :: rest, i, row, col => do
      let entry ← printEntry font fbVirt vbe e i row col
      return entry ++ (← vesaPrintMmap rest (i + 1) (row + 1) col)

end

end MikroKernel.Boot
