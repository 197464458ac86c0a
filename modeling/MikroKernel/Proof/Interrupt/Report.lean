import MikroKernel.Interrupt.Dispatch
import MikroKernel.Proof.Boot.Console
import MikroKernel.Proof.Interrupt.Isr

/-!
# What an exception leaves on the screen

A kernel that has met an exception halts, and what is on the screen is all that is left to go by.
Every case of `isr_dispatch` puts its text in the last row. A general protection fault and a page
fault show their error code as well, and the page fault the address. These rows lie below each
other, so none of them covers another (`Report`), and the clearing of the lower half comes before
what is printed there. **This is proved from the exception on** (`exception_reported`): the vector
and the error code that the text shows are those of the frame the CPU pushed.

The second question is what can be read off it (`report_tells`). If no two characters of the font
look the same, two screens that are equal in every pixel are of the same exception, with the same
error code and address where these are shown. For the texts this needs that none of the 32 begins
with another, since a row shows a text and says nothing of what follows it (`exceptionText_begins`);
for the numbers, that hexadecimal digits of a fixed width are read back (`hexValue_uint64ToHex`).

Both are about the pixels, not about the list of the stores: `draw` makes the stores in order, so a
later one covers an earlier one.
-/

set_option autoImplicit false

namespace MikroKernel
namespace Interrupt

open Boot MikroKernel.Core

variable {font : Nat → Nat} {vbe : VbeInfo} {fb fbVirt : Nat} {L : Layout} {s : KState}
    {m : Nat → Nat}

/-- The screen has `VESA_LAST_ROW`, and room for the longest text. -/
structure Roomy (font : Nat → Nat) (vbe : VbeInfo) : Prop where
  rows : (vesaLastRow + 1) * psfCharheight font ≤ vbe.heightPx
  cols : 50 * 8 ≤ vbe.widthPx
  small : vbe.heightPx < 2 ^ 32

/-- The longest text has 50 characters. -/
theorem exceptionText_length : ∀ i : Fin 32, (bytes (exceptionText i)).length ≤ 50 := by
  decide +kernel

/-- The characters that fonts have glyphs for. -/
def Printable (text : List Nat) : Prop := ∀ ch ∈ text, 32 ≤ ch ∧ ch < 127

instance (text : List Nat) : Decidable (Printable text) :=
  inferInstanceAs (Decidable (∀ ch ∈ text, _))

/-- The texts are made of characters that fonts have. -/
theorem exceptionText_printable : ∀ i : Fin 32, Printable (bytes (exceptionText i)) := by
  decide +kernel

theorem hexDigit_printable : ∀ d < 16, 32 ≤ (bytes "0123456789ABCDEF").getD d 0 ∧
    (bytes "0123456789ABCDEF").getD d 0 < 127 := by
  decide

/-- So are numbers: `0x` and sixteen digits. -/
theorem uint64ToHex_printable (val : Nat) : Printable (uint64ToHex val) := by
  intro ch hch
  unfold uint64ToHex at hch
  rcases List.mem_append.mp hch with h | h
  · have hprefix : ∀ ch ∈ bytes "0x", 32 ≤ ch ∧ ch < 127 := by decide
    exact hprefix ch h
  · obtain ⟨i, -, rfl⟩ := List.mem_map.mp h
    exact hexDigit_printable _ (nibble_lt _ _)

theorem Printable.noNul {text : List Nat} (h : Printable text) : 0 ∉ text := fun h0 => by
  have := (h 0 h0).1
  omega

/-- A text that is no longer than the longest fits into every row that is printed. -/
theorem Roomy.fits (h : Roomy font vbe) {text : List Nat} {row : Nat} (hrow : row ≤ vesaLastRow)
    (hp : Printable text) (hlen : text.length ≤ 50) : TextFits font vbe text row 0 := by
  have hrows := h.rows
  have hcols := h.cols
  refine ⟨hp.noNul, le_trans (Nat.mul_le_mul_right _ (Nat.succ_le_succ hrow)) hrows, by omega⟩

theorem Roomy.fits_text (h : Roomy font vbe) (i : Fin 32) :
    TextFits font vbe (bytes (exceptionText i)) vesaLastRow 0 :=
  h.fits le_rfl (exceptionText_printable i) (exceptionText_length i)

theorem Roomy.fits_hex (h : Roomy font vbe) (val : Nat) {row : Nat} (hrow : row ≤ vesaLastRow) :
    TextFits font vbe (uint64ToHex val) row 0 :=
  h.fits hrow (uint64ToHex_printable val) (by rw [length_uint64ToHex]; decide)

/-! ## What is stored -/

/-- What is to be seen after exception `i`: its text, and what belongs to it. -/
structure Report (font : Nat → Nat) (vbe : VbeInfo) (fb : Nat) (m m' : Nat → Nat) (i : Fin 32)
    (code cr2 : BitVec 64) : Prop where
  text : Shows font vbe fb m' (bytes (exceptionText i)) vesaLastRow 0
  gpCode : i = 13 → Shows font vbe fb m' (uint64ToHex code.toNat) (vesaLastRow - 2) 0
  pfAddr : i = 14 → Shows font vbe fb m' (uint64ToHex cr2.toNat) (vesaLastRow - 2) 0
  pfCode : i = 14 → Shows font vbe fb m' (uint64ToHex code.toNat) (vesaLastRow - 1) 0
  above : ∀ y x, y < halfLine font → y < vbe.heightPx → x < vbe.widthPx →
    m' (pixelOf vbe fb y x) = m (pixelOf vbe fb y x)
  outside : ∀ a, a < fb ∨ fb + 4 * (vbe.pitch / 4 * vbe.heightPx) ≤ a → m' a = m a

/-- The stores of `pf_handler`. -/
def pfPixels (font : Nat → Nat) (vbe : VbeInfo) (fb : Nat) (code cr2 : BitVec 64) : List Pixel :=
  clearPixels font vbe fb ++ printlnPixels font vbe fb (uint64ToHex cr2.toNat) (vesaLastRow - 2) 0
    ++ printlnPixels font vbe fb (uint64ToHex code.toNat) (vesaLastRow - 1) 0

/-- The stores of `isr_dispatch`, in order: the page fault prints its text last, all others
first. -/
def dispatchPixels (font : Nat → Nat) (vbe : VbeInfo) (fb : Nat) (i : Fin 32)
    (code cr2 : BitVec 64) : List Pixel :=
  let text := printlnPixels font vbe fb (bytes (exceptionText i)) vesaLastRow 0
  if i.val = 13 then text ++ printlnPixels font vbe fb (uint64ToHex code.toNat) (vesaLastRow - 2) 0
  else if i.val = 14 then pfPixels font vbe fb code cr2 ++ text
  else text

section Stores

variable {regs : Registers}

/-- The cases that print their text and nothing else. -/
theorem isrDispatch_other (himg : L.image fbVirt = true) {v : Nat} (hvec : regs.vec.toNat = v)
    (h13 : v ≠ 13) (h14 : v ≠ 14) (cr2 : BitVec 64) (s : KState) :
    isrDispatch font fbVirt vbe regs cr2 L s
      = .ok (printlnPixels font vbe (framebuffer fbVirt vbe s.mem) (bytes (exceptionText v))
          vesaLastRow 0, s) := by
  unfold isrDispatch
  rw [hvec]
  split
  · exact absurd rfl h13
  · exact absurd rfl h14
  · exact vesaNtPrintln_eq himg _ _ _ _

/-- The general protection fault. -/
theorem isrDispatch_gp (himg : L.image fbVirt = true) (hvec : regs.vec.toNat = 13) (cr2 : BitVec 64)
    (s : KState) :
    isrDispatch font fbVirt vbe regs cr2 L s
      = .ok (dispatchPixels font vbe (framebuffer fbVirt vbe s.mem) 13 regs.errorCode cr2, s) := by
  have hprint := fun text row => @vesaNtPrintln_eq font vbe fbVirt L himg text row 0 s
  unfold isrDispatch vesaPrintVirtAddr
  rw [hvec]
  exact (K.bind_ok (hprint _ _)).trans (K.bind_ok (hprint _ _))

/-- `pf_handler` reads the framebuffer pointer three times, and nobody has changed it. -/
theorem pfHandler_eq (himg : L.image fbVirt = true) (cr2 : BitVec 64) (s : KState) :
    pfHandler font fbVirt vbe regs cr2 L s
        = .ok (pfPixels font vbe (framebuffer fbVirt vbe s.mem) regs.errorCode cr2, s) := by
  have hprint := fun text row => @vesaNtPrintln_eq font vbe fbVirt L himg text row 0 s
  unfold pfHandler vesaPrintVirtAddr
  rw [K.bind_ok (vesaClearLowerHalf_eq himg s), K.bind_ok (hprint _ _), K.bind_ok (hprint _ _)]
  rfl

/-- The page fault. -/
theorem isrDispatch_pf (himg : L.image fbVirt = true) (hvec : regs.vec.toNat = 14) (cr2 : BitVec 64)
    (s : KState) :
    isrDispatch font fbVirt vbe regs cr2 L s
      = .ok (dispatchPixels font vbe (framebuffer fbVirt vbe s.mem) 14 regs.errorCode cr2, s) := by
  unfold isrDispatch
  rw [hvec]
  exact (K.bind_ok (pfHandler_eq himg cr2 s)).trans (K.bind_ok (vesaNtPrintln_eq himg _ _ _ _))

/-- `isr_dispatch` returns nothing here, but it has made its stores. -/
theorem isrDispatch_eq (himg : L.image fbVirt = true) {i : Fin 32}
    (hvec : regs.vec = BitVec.ofNat 64 i) (cr2 : BitVec 64) (s : KState) :
    isrDispatch font fbVirt vbe regs cr2 L s
      = .ok (dispatchPixels font vbe (framebuffer fbVirt vbe s.mem) i regs.errorCode cr2, s) := by
  have hnat : regs.vec.toNat = i := by
    rw [hvec, BitVec.toNat_ofNat, Nat.mod_eq_of_lt (by omega)]
  by_cases h13 : i.val = 13
  · obtain rfl : i = 13 := Fin.ext h13
    exact isrDispatch_gp himg hnat cr2 s
  · by_cases h14 : i.val = 14
    · obtain rfl : i = 14 := Fin.ext h14
      exact isrDispatch_pf himg hnat cr2 s
    · rw [isrDispatch_other himg hnat h13 h14]
      unfold dispatchPixels
      rw [if_neg h13, if_neg h14]

end Stores

/-! ## What is seen -/

/-- The screen has room for what `pf_handler` and the text of the exception need. -/
theorem Roomy.half_lt (h : Roomy font vbe) : halfLine font < 2 ^ 32 := by
  have hrows := h.rows
  have hsmall := h.small
  have hle : halfLine font ≤ (vesaLastRow + 1) * psfCharheight font :=
    Nat.mul_le_mul_right _ (by decide)
  omega

/-- The rows that the cases print in are all in the lower half. -/
theorem halfLine_le {row : Nat} (h : vesaLastRow / 2 + 1 ≤ row) :
    halfLine font ≤ row * psfCharheight font :=
  Nat.mul_le_mul_right _ h

section Screen

variable {code cr2 : BitVec 64} {i : Fin 32}

/-- What is above the lower half stays, when a text is printed below. -/
theorem draw_println_above (h : Console vbe fb) {text : List Nat} {row : Nat}
    (hfits : TextFits font vbe text row 0) (hrow : vesaLastRow / 2 + 1 ≤ row) (m : Nat → Nat)
    {y x : Nat} (hhalf : y < halfLine font) (hy : y < vbe.heightPx) (hx : x < vbe.widthPx) :
    draw (printlnPixels font vbe fb text row 0) m (pixelOf vbe fb y x)
        = m (pixelOf vbe fb y x) := by
  have hle := @halfLine_le font row hrow
  rw [draw_println h hfits m hy hx, if_neg]
  rintro ⟨hge, -⟩
  omega

/-- **The stores of `isr_dispatch` are a report**, on any screen with room, whatever was on it. A
row that is printed stays through the rows printed after it, and through nothing else does it have
to. -/
theorem report_dispatch (h : Console vbe fb) (hroom : Roomy font vbe) (m : Nat → Nat) :
    Report font vbe fb m (draw (dispatchPixels font vbe fb i code cr2) m) i code cr2 := by
  have htext := hroom.fits_text i
  have hcode1 : TextFits font vbe (uint64ToHex code.toNat) (vesaLastRow - 1) 0 :=
    hroom.fits_hex _ (by decide)
  have hcode2 : TextFits font vbe (uint64ToHex code.toNat) (vesaLastRow - 2) 0 :=
    hroom.fits_hex _ (by decide)
  have hcr2 : TextFits font vbe (uint64ToHex cr2.toNat) (vesaLastRow - 2) 0 :=
    hroom.fits_hex _ (by decide)
  unfold dispatchPixels pfPixels
  by_cases h13 : i.val = 13
  · rw [if_pos h13, draw_append]
    have h14 : i ≠ 14 := fun he => by rw [he] at h13; exact absurd h13 (by decide)
    -- the text comes first here, and the code is two rows above it
    refine ⟨?_, fun _ => ?_, fun he => absurd he h14, fun he => absurd he h14, ?_, ?_⟩
    · exact (shows_println h htext m).println h htext hcode2 (by decide)
    · exact shows_println h hcode2 _
    · intro y x hhalf hy hx
      rw [draw_println_above h hcode2 (by decide) _ hhalf hy hx,
        draw_println_above h htext (by decide) _ hhalf hy hx]
    · intro a ha
      rw [draw_println_outside h hcode2 _ ha, draw_println_outside h htext _ ha]
  · rw [if_neg h13]
    by_cases h14 : i.val = 14
    · rw [if_pos h14]
      simp only [draw_append]
      -- the lower half is cleared, then the address, the code and the text
      refine ⟨?_, fun he => absurd (congrArg Fin.val he) h13, fun _ => ?_, fun _ => ?_, ?_, ?_⟩
      · exact shows_println h htext _
      · exact ((shows_println h hcr2 _).println h hcr2 hcode1 (by decide)).println h hcr2
          htext (by decide)
      · exact (shows_println h hcode1 _).println h hcode1 htext (by decide)
      · intro y x hhalf hy hx
        rw [draw_println_above h htext (by decide) _ hhalf hy hx,
          draw_println_above h hcode1 (by decide) _ hhalf hy hx,
          draw_println_above h hcr2 (by decide) _ hhalf hy hx, draw_clear h hroom.half_lt _ hy hx,
          if_neg (by omega)]
      · intro a ha
        rw [draw_println_outside h htext _ ha, draw_println_outside h hcode1 _ ha,
          draw_println_outside h hcr2 _ ha, draw_clear_outside h hroom.half_lt _ ha]
    · rw [if_neg h14]
      refine ⟨?_, fun he => absurd (congrArg Fin.val he) h13,
        fun he => absurd (congrArg Fin.val he) h14, fun he => absurd (congrArg Fin.val he) h14, ?_,
        ?_⟩
      · exact shows_println h htext _
      · intro y x hhalf hy hx
        exact draw_println_above h htext (by decide) _ hhalf hy hx
      · intro a ha
        exact draw_println_outside h htext _ ha

end Screen

/-- **What went wrong is on the screen.** Behind `__init_idt`, an exception whose handler runs is
reported: its text is in the last row, a general protection fault and a page fault have their error
code above it, and a page fault the address as well. The upper half of the screen stays as it was,
and so does all that is not framebuffer. -/
theorem exception_reported {I : IdtImage} {b₀ b : Board}
    (hrun : Run.Reaches (KernelStep I) (initIdt I b₀) b) (i : Fin 32) (code ret cr2 : BitVec 64)
    (hmap : b.cpu.Mapped (I.idt.toNat + 16 * i) 16) (hroom : b.cpu.aligned.Room 23)
    (hcs : b.cpu.LoadsCode 0x08) (himg : L.image fbVirt = true)
    (hconsole : Console vbe (framebuffer fbVirt vbe s.mem)) (hscreen : Roomy font vbe)
    (m : Nat → Nat) :
    ∃ c ps, raiseException I ret i code b.cpu = some c ∧
      isrDispatch font fbVirt vbe (registersAt c.mem (c.reg .rdi).toNat) cr2 L s = .ok (ps, s) ∧
      Report font vbe (framebuffer fbVirt vbe s.mem) m (draw ps m) i code cr2 := by
  have hregs := @entered_registers I b.cpu i code ret hroom
  have hdispatch := @isrDispatch_eq font vbe fbVirt L (shownRegisters b.cpu i code) himg i rfl cr2 s
  have hreport : Report font vbe (framebuffer fbVirt vbe s.mem) m
      (draw (dispatchPixels font vbe (framebuffer fbVirt vbe s.mem) i (shownCode i code) cr2) m)
      i (shownCode i code) cr2 :=
    report_dispatch hconsole hscreen m
  -- both exceptions whose code is printed have one
  have hcode : ∀ j : Fin 32, PushesCode j → i = j → shownCode i code = code :=
    fun j hj he => he ▸ if_pos hj
  refine ⟨entered I ret i code b.cpu, _, raiseException_eq (Installed.run hrun) hmap hcs hroom,
    by rw [hregs]; exact hdispatch,
    ⟨hreport.text, fun he => ?_, hreport.pfAddr, fun he => ?_, hreport.above, hreport.outside⟩⟩
  · have hgp := hreport.gpCode he
    rw [hcode 13 (by decide) he] at hgp ⊢
    exact hgp
  · have hpf := hreport.pfCode he
    rw [hcode 14 (by decide) he] at hpf ⊢
    exact hpf

/-! ## What it tells -/

/-- No two characters look the same. -/
def Legible (font : Nat → Nat) : Prop := ∀ ch < 127, 32 ≤ ch → ∀ ch' < 127, 32 ≤ ch' →
  (∀ r < psfCharheight font, ∀ c < 8, glyphColor font ch r c = glyphColor font ch' r c) → ch = ch'

section Legible

variable {text text' : List Nat} {row : Nat}

/-- Where two texts are shown in one place, they have the same character at each position of
both. -/
theorem sameChar_of_shows (hfont : Legible font) (hs : Shows font vbe fb m text row 0)
    (hs' : Shows font vbe fb m text' row 0) (hp : Printable text) (hp' : Printable text')
    {k ch ch' : Nat} (hk : text[k]? = some ch) (hk' : text'[k]? = some ch') :
    ch = ch' := by
  have hch := hp _ (List.mem_of_getElem? hk)
  have hch' := hp' _ (List.mem_of_getElem? hk')
  refine hfont ch hch.2 hch.1 ch' hch'.2 hch'.1 fun r hr c hc => ?_
  rw [← hs k ch hk r hr c hc, hs' k ch' hk' r hr c hc]

/-- Of two texts at one place, one begins with the other. -/
theorem begins_of_shows (hfont : Legible font) (hs : Shows font vbe fb m text row 0)
    (hs' : Shows font vbe fb m text' row 0) (hp : Printable text) (hp' : Printable text')
    (hle : text.length ≤ text'.length) : text <+: text' := by
  rw [List.prefix_iff_getElem?]
  intro k hk
  rw [List.getElem?_eq_getElem (by omega)]
  exact congrArg some (sameChar_of_shows hfont hs hs' hp hp' (List.getElem?_eq_getElem hk)
    (List.getElem?_eq_getElem (by omega))).symm

/-- Numbers all have the same length, so the whole number is known. -/
theorem hex_of_shows (hfont : Legible font) {v v' : Nat} (hv : v < 2 ^ 64) (hv' : v' < 2 ^ 64)
    (hs : Shows font vbe fb m (uint64ToHex v) row 0)
    (hs' : Shows font vbe fb m (uint64ToHex v') row 0) : v = v' := by
  have hlen : (uint64ToHex v).length = (uint64ToHex v').length := by
    rw [length_uint64ToHex, length_uint64ToHex]
  have heq :=
    (begins_of_shows hfont hs hs' (uint64ToHex_printable v) (uint64ToHex_printable v')
      hlen.le).eq_of_length hlen
  rw [← hexValue_uint64ToHex hv, heq, hexValue_uint64ToHex hv']

/-- The same for a register. -/
theorem bitVec_of_shows (hfont : Legible font) {v v' : BitVec 64}
    (hs : Shows font vbe fb m (uint64ToHex v.toNat) row 0)
    (hs' : Shows font vbe fb m (uint64ToHex v'.toNat) row 0) : v = v' :=
  BitVec.eq_of_toNat_eq (hex_of_shows hfont v.isLt v'.isLt hs hs')

end Legible

/-- No text of an exception begins with that of another one. -/
theorem exceptionText_begins : ∀ i j : Fin 32, bytes (exceptionText i) <+: bytes (exceptionText j) →
    i = j := by
  decide +kernel

/-- The same is seen on a framebuffer elsewhere. -/
theorem shows_elsewhere {fb' : Nat} {m' : Nat → Nat} {text : List Nat} {row : Nat}
    (hfits : TextFits font vbe text row 0) (hsame : ∀ y x, y < vbe.heightPx → x < vbe.widthPx →
      m (pixelOf vbe fb y x) = m' (pixelOf vbe fb' y x))
    (hs : Shows font vbe fb m text row 0) : Shows font vbe fb' m' text row 0 := by
  intro k ch hk r hr c hc
  obtain ⟨hy, hx⟩ := hfits.pixel_lt hk hr hc
  rw [← hsame _ _ hy hx]
  exact hs k ch hk r hr c hc

/-- **The screen tells exceptions apart**: from equal screens one reads the same exception, the same
error code of a general protection fault, and the same error code and address of a page fault. -/
theorem report_tells (hfont : Legible font) (hscreen : Roomy font vbe) {fb' : Nat}
    {m₀ m₀' m' : Nat → Nat} {i j : Fin 32} {code code' cr2 cr2' : BitVec 64}
    (hr : Report font vbe fb m₀ m i code cr2) (hr' : Report font vbe fb' m₀' m' j code' cr2')
    (hsame : ∀ y x, y < vbe.heightPx → x < vbe.widthPx →
      m (pixelOf vbe fb y x) = m' (pixelOf vbe fb' y x)) :
    i = j ∧ (i = 13 ∨ i = 14 → code = code') ∧ (i = 14 → cr2 = cr2') := by
  -- the shorter of the two texts begins the longer one, so they are one text
  have hij : i = j := by
    have htext := shows_elsewhere (hscreen.fits_text i) hsame hr.text
    rcases Nat.le_total (bytes (exceptionText i)).length (bytes (exceptionText j)).length with
      hle | hle
    · exact exceptionText_begins i j
        (begins_of_shows hfont htext hr'.text (exceptionText_printable i)
        (exceptionText_printable j) hle)
    · exact (exceptionText_begins j i
        (begins_of_shows hfont hr'.text htext (exceptionText_printable j)
        (exceptionText_printable i) hle)).symm
  subst hij
  have hhex := fun (v : BitVec 64) (row : Nat) (hrow : row ≤ vesaLastRow) =>
    @shows_elsewhere font vbe fb m fb' m' (uint64ToHex v.toNat) row
      (hscreen.fits_hex v.toNat hrow) hsame
  refine ⟨rfl, fun h => ?_, fun h14 => ?_⟩
  · rcases h with h13 | h14
    · exact bitVec_of_shows hfont (hhex _ _ (by decide) (hr.gpCode h13)) (hr'.gpCode h13)
    · exact bitVec_of_shows hfont (hhex _ _ (by decide) (hr.pfCode h14)) (hr'.pfCode h14)
  · exact bitVec_of_shows hfont (hhex _ _ (by decide) (hr.pfAddr h14)) (hr'.pfAddr h14)

/-! ## A small screen -/

/-- One line a character: its code. -/
def smallFont (a : Nat) : Nat := if a < 3 then 0 else if a = 3 then 1 else a - 4

/-- A screen of 400 by 84. -/
def smallScreen : VbeInfo where
  framebufferAddress := 0xE0000000
  pitch := 1600
  heightPx := 84
  widthPx := 400

theorem smallScreen_console : Console smallScreen 0xE0000000 := ⟨by decide, by decide, by decide⟩

theorem smallScreen_roomy : Roomy smallFont smallScreen := ⟨by decide, by decide, by decide⟩

/-- The first line of a character, read as a number. -/
def readLine (color : Nat → Nat) : Nat :=
  (List.range 8).foldl (fun v c => 2 * v + if color c = 0 then 0 else 1) 0

theorem smallFont_readLine : ∀ ch < 127, readLine (glyphColor smallFont ch 0) = ch := by
  decide +kernel

/-- The first line of a character tells it from the others. -/
theorem smallFont_legible : Legible smallFont := by
  intro ch h _ ch' h' _ heq
  rw [← smallFont_readLine ch h, ← smallFont_readLine ch' h']
  unfold readLine
  refine List.foldl_ext _ _ _ fun v c hc => ?_
  rw [heq 0 (by decide) c (List.mem_range.mp hc)]

/-- A page fault of the small board, on the small screen. -/
theorem exception_reported_pageFault :
    ∃ c ps, raiseException smallIdt 0 14 2 smallReady.cpu = some c ∧
    isrDispatch smallFont 0xFFFFFFFF80003000 smallScreen (registersAt c.mem (c.reg .rdi).toNat)
    0x1000 smallLayout bootState
      = .ok (ps, bootState) ∧
    Shows smallFont smallScreen 0xE0000000 (draw ps fun _ => 0)
        (bytes "#PF  Page Fault, vector: 0x0E") vesaLastRow 0 := by
  obtain ⟨c, ps, hraise, hrun, hreport⟩ :=
    @exception_reported smallFont smallScreen 0xFFFFFFFF80003000
    smallLayout bootState smallIdt smallBoard smallReady smallReady_run 14 2 0 0x1000
      (smallReady_mapped _ _)
    smallReady_room smallReady_code (by decide) smallScreen_console smallScreen_roomy fun _ => 0
  exact ⟨c, ps, hraise, hrun, hreport.text⟩

/-- A fault before the framebuffer is moved, and one behind it. -/
theorem same_moved (y x : Nat) (hy : y < smallScreen.heightPx) (hx : x < smallScreen.widthPx) :
    draw (dispatchPixels smallFont smallScreen 0xE0000000 13 5 0) (fun _ => 0)
      (pixelOf smallScreen 0xE0000000 y x)
      = draw (dispatchPixels smallFont smallScreen 0xFFFF800000000000 13 5 0) (fun _ => 0)
          (pixelOf smallScreen 0xFFFF800000000000 y x) := by
  have htext := smallScreen_roomy.fits_text 13
  have hcode :
      TextFits smallFont smallScreen (uint64ToHex (5 : BitVec 64).toNat) (vesaLastRow - 2) 0 :=
    smallScreen_roomy.fits_hex _ (by decide)
  have hmoved : Console smallScreen 0xFFFF800000000000 := ⟨by decide, by decide, by decide⟩
  have h13 : (13 : Fin 32).val = 13 := rfl
  unfold dispatchPixels
  rw [if_pos h13, if_pos h13, draw_append, draw_append,
    draw_println smallScreen_console hcode _ hy hx, draw_println smallScreen_console htext _ hy hx,
    draw_println hmoved hcode _ hy hx, draw_println hmoved htext _ hy hx]

/-- Two reports of one fault, on screens that are the same: the code that is read is the code there
was. -/
theorem report_tells_moved : ∃ m m' : Nat → Nat,
    Report smallFont smallScreen 0xE0000000 (fun _ => 0) m 13 5 0 ∧
    Report smallFont smallScreen 0xFFFF800000000000 (fun _ => 0) m' 13 5 0 ∧
    (∀ y x, y < smallScreen.heightPx → x < smallScreen.widthPx →
      m (pixelOf smallScreen 0xE0000000 y x) = m' (pixelOf smallScreen 0xFFFF800000000000 y x)) ∧
    ∀ code : BitVec 64, Report smallFont smallScreen 0xFFFF800000000000 (fun _ => 0) m' 13 code 0 →
        code = 5 := by
  have hreport : Report smallFont smallScreen 0xE0000000 (fun _ => 0) _ 13 5 0 :=
    report_dispatch smallScreen_console smallScreen_roomy fun _ => 0
  have hmoved : Report smallFont smallScreen 0xFFFF800000000000 (fun _ => 0) _ 13 5 0 :=
    report_dispatch ⟨by decide, by decide, by decide⟩ smallScreen_roomy fun _ => 0
  refine ⟨_, _, hreport, hmoved, same_moved, fun code hcode => ?_⟩
  exact ((report_tells smallFont_legible smallScreen_roomy hreport hcode same_moved).2.1
    (Or.inl rfl)).symm

end Interrupt
end MikroKernel
