import MikroKernel.Proof.Boot.Screen
import Mathlib.Data.List.TakeWhile

/-!
# What is on the screen

The framebuffer as memory: stores change it one after the other (`draw`), and the last one counts.
On a screen whose lines fit (`Console`), a printed text takes exactly its cells: every pixel of them
is as the font has it, and every other one is as before (`draw_println`).
-/

set_option autoImplicit false

namespace MikroKernel
namespace Boot

/-! ## Stores -/

/-- The framebuffer after stores. -/
def draw : List Pixel → (Nat → Nat) → Nat → Nat
  | [], m => m
  | p :: ps, m => draw ps (Function.update m p.addr p.color)

section Draw

variable {ps : List Pixel} {m : Nat → Nat} {a k : Nat}

theorem draw_append :
    ∀ (ps qs : List Pixel) (m : Nat → Nat), draw (ps ++ qs) m = draw qs (draw ps m)
  | [], _, _ => rfl
  | _ :: ps, qs, _ => draw_append ps qs _

theorem draw_missed : ∀ {ps : List Pixel} {m : Nat → Nat}, (∀ p ∈ ps, p.addr ≠ a) →
    draw ps m a = m a
  | [], _, _ => rfl
  | p :: ps, m, h => by
    unfold draw
    rw [draw_missed fun q hq => h q (List.mem_cons_of_mem _ hq),
      Function.update_of_ne (h p List.mem_cons_self).symm]

/-- Where all stores agree, their order does not matter. -/
theorem draw_hit : ∀ {ps : List Pixel} {m : Nat → Nat}, (∃ p ∈ ps, p.addr = a) →
    (∀ p ∈ ps, p.addr = a → p.color = k) → draw ps m a = k
  | [], _, hex, _ => by simp at hex
  | p :: ps, m, hex, h => by
    unfold draw
    by_cases hrest : ∃ q ∈ ps, q.addr = a
    · exact draw_hit hrest fun q hq => h q (List.mem_cons_of_mem _ hq)
    · obtain ⟨q, hq, ha⟩ := hex
      obtain rfl : q = p := by
        rcases List.mem_cons.mp hq with rfl | hq
        · rfl
        · exact absurd ⟨q, hq, ha⟩ hrest
      rw [draw_missed fun r hr hra => hrest ⟨r, hr, hra⟩, ← ha, Function.update_self]
      exact h q hq ha

end Draw

/-! ## The screen -/

variable {font : Nat → Nat} {vbe : VbeInfo} {fb fbVirt : Nat} {L : Layout} {s : KState}

/-- The lines of the screen lie in the framebuffer, and their addresses do not wrap. -/
structure Console (vbe : VbeInfo) (fb : Nat) : Prop where
  line : vbe.widthPx ≤ vbe.pitch / 4
  index : vbe.pitch / 4 * vbe.heightPx ≤ 2 ^ 32
  fits : fb + 4 * (vbe.pitch / 4 * vbe.heightPx) ≤ 2 ^ 64

/-- The address of a pixel. -/
def pixelOf (vbe : VbeInfo) (fb y x : Nat) : Nat := fb + 4 * (y * (vbe.pitch / 4) + x)

variable {y x y' x' row col : Nat}

theorem Console.index_lt (h : Console vbe fb) (hy : y < vbe.heightPx) (hx : x < vbe.widthPx) :
    y * (vbe.pitch / 4) + x < vbe.pitch / 4 * vbe.heightPx := by
  have hline := h.line
  have hrows : (y + 1) * (vbe.pitch / 4) ≤ vbe.heightPx * (vbe.pitch / 4) :=
    Nat.mul_le_mul_right _ hy
  rw [Nat.add_mul, Nat.mul_comm vbe.heightPx] at hrows
  omega

theorem Console.pixelAddr_eq (h : Console vbe fb) (hy : y < vbe.heightPx) (hx : x < vbe.widthPx) :
    pixelAddr fb (vbe.pitch / 4) y x = pixelOf vbe fb y x := by
  have hlt := h.index_lt hy hx
  have h1 := h.index
  have h2 := h.fits
  unfold pixelAddr pixelOf
  rw [Nat.mod_eq_of_lt (show y * (vbe.pitch / 4) + x < 2 ^ 32 by omega),
    Nat.mod_eq_of_lt (by omega)]

/-- Two pixels of the screen have two addresses. -/
theorem Console.pixelOf_inj (h : Console vbe fb) (hx : x < vbe.widthPx) (hx' : x' < vbe.widthPx)
    (heq : pixelOf vbe fb y x = pixelOf vbe fb y' x') : y = y' ∧ x = x' := by
  have hline := h.line
  unfold pixelOf at heq
  have hidx : y * (vbe.pitch / 4) + x = y' * (vbe.pitch / 4) + x' := by omega
  have hdiv : ∀ {z w : Nat}, w < vbe.widthPx → (z * (vbe.pitch / 4) + w) / (vbe.pitch / 4) = z :=
      fun {z w} hw => by
    rw [Nat.mul_comm, Nat.mul_add_div (by omega), Nat.div_eq_of_lt (by omega), Nat.add_zero]
  have hy : y = y' := by
    rw [← hdiv (z := y) hx, hidx, hdiv hx']
  subst hy
  exact ⟨rfl, by omega⟩

/-! ## Printed text -/

/-- The stores of `vesa_nt_println`. -/
def printlnPixels (font : Nat → Nat) (vbe : VbeInfo) (fb : Nat) (text : List Nat) (row col : Nat) :
    List Pixel :=
  (text.takeWhile (· ≠ 0)).zipIdx.flatMap fun (ch, i) => glyphPixels font vbe fb (psfGlyph font ch)
    row (col + i)

theorem vesaNtPrintln_eq (himg : L.image fbVirt = true) (text : List Nat) (row col : Nat)
    (s : KState) :
    vesaNtPrintln font fbVirt vbe text row col L s
      = .ok (printlnPixels font vbe (framebuffer fbVirt vbe s.mem) text row col, s) := by
  unfold vesaNtPrintln
  rw [K.bind_ok (Draws.getFb_eq himg s)]
  rfl

/-- How the font has a pixel of a character. -/
def glyphColor (font : Nat → Nat) (ch r c : Nat) : Nat :=
  if font (psfGlyph font ch + r) &&& 0x80 >>> c ≠ 0 then 0x00FFFFFF else 0x00000000

/-- The text has its cells on the screen, and no NUL in it. -/
structure TextFits (font : Nat → Nat) (vbe : VbeInfo) (text : List Nat) (row col : Nat) : Prop where
  noNul : 0 ∉ text
  rows : (row + 1) * psfCharheight font ≤ vbe.heightPx
  cols : (col + text.length) * 8 ≤ vbe.widthPx

theorem mem_printlnPixels {text : List Nat} {p : Pixel} (hnul : 0 ∉ text) :
    p ∈ printlnPixels font vbe fb text row col ↔ ∃ i ch r c, text[i]? = some ch ∧
      r < psfCharheight font ∧ c < 8 ∧
      p = ⟨pixelAddr fb (vbe.pitch / 4) (row * psfCharheight font + r) ((col + i) * 8 + c),
        glyphColor font ch r c⟩ := by
  have htake : text.takeWhile (· ≠ 0) = text := by
    rw [List.takeWhile_eq_self_iff]
    intro ch hch
    have hne : ch ≠ 0 := fun h0 => hnul (h0 ▸ hch)
    simpa using hne
  unfold printlnPixels glyphPixels
  rw [htake]
  simp only [List.mem_flatMap, List.mem_map, List.mem_range, Prod.exists,
    List.mem_zipIdx_iff_getElem?]
  constructor
  · rintro ⟨ch, i, hi, r, hr, c, hc, rfl⟩
    exact ⟨i, ch, r, c, hi, hr, hc, rfl⟩
  · rintro ⟨i, ch, r, c, hi, hr, hc, rfl⟩
    exact ⟨ch, i, hi, r, hr, c, hc, rfl⟩

/-- **A printed text is what the font makes of it, and nothing else.** -/
theorem draw_println {text : List Nat} (h : Console vbe fb) (hfits : TextFits font vbe text row col)
    (m : Nat → Nat) (hy : y < vbe.heightPx) (hx : x < vbe.widthPx) :
    draw (printlnPixels font vbe fb text row col) m (pixelOf vbe fb y x) =
      if row * psfCharheight font ≤ y ∧ y < (row + 1) * psfCharheight font ∧ col ≤ x / 8 ∧
        x / 8 < col + text.length then
        glyphColor font (text.getD (x / 8 - col) 0) (y - row * psfCharheight font) (x % 8)
      else m (pixelOf vbe fb y x) := by
  have hrows := hfits.rows
  have hcols := hfits.cols
  -- a store to this address is one to this pixel
  have hpixel : ∀ p ∈ printlnPixels font vbe fb text row col, p.addr = pixelOf vbe fb y x →
      ∃ i ch r c, text[i]? = some ch ∧ r < psfCharheight font ∧ c < 8 ∧
      y = row * psfCharheight font + r ∧
        x = (col + i) * 8 + c ∧ p.color = glyphColor font ch r c := by
    intro p hp ha
    obtain ⟨i, ch, r, c, hi, hr, hc, rfl⟩ := (mem_printlnPixels hfits.noNul).mp hp
    obtain ⟨hlen, -⟩ := List.getElem?_eq_some_iff.mp hi
    have hyr : row * psfCharheight font + r < vbe.heightPx := by
      rw [Nat.add_mul, Nat.one_mul] at hrows
      omega
    have hxc : (col + i) * 8 + c < vbe.widthPx := by omega
    change pixelAddr fb (vbe.pitch / 4) _ _ = _ at ha
    rw [h.pixelAddr_eq hyr hxc] at ha
    obtain ⟨hye, hxe⟩ := h.pixelOf_inj hxc hx ha
    exact ⟨i, ch, r, c, hi, hr, hc, hye.symm, hxe.symm, rfl⟩
  split
  · rename_i hin
    obtain ⟨h1, h2, h3, h4⟩ := hin
    rw [Nat.add_mul, Nat.one_mul] at h2
    have hi : text[x / 8 - col]? = some (text.getD (x / 8 - col) 0) := by
      rw [List.getD_eq_getElem?_getD, List.getElem?_eq_getElem (by omega)]
      rfl
    refine draw_hit ⟨⟨pixelOf vbe fb y x, glyphColor font (text.getD (x / 8 - col) 0)
      (y - row * psfCharheight font) (x % 8)⟩, (mem_printlnPixels hfits.noNul).mpr
      ⟨x / 8 - col, _, y - row * psfCharheight font, x % 8, hi, by omega, by omega, ?_⟩, rfl⟩ ?_
    · rw [show row * psfCharheight font + (y - row * psfCharheight font) = y by omega,
        show (col + (x / 8 - col)) * 8 + x % 8 = x by omega, h.pixelAddr_eq hy hx]
    · intro p hp ha
      obtain ⟨i, ch, r, c, hi', hr, hc, hye, hxe, hcolor⟩ := hpixel p hp ha
      obtain rfl : i = x / 8 - col := by omega
      rw [hi] at hi'
      obtain rfl := Option.some.inj hi'
      rw [hcolor, show y - row * psfCharheight font = r by omega, show x % 8 = c by omega]
  · rename_i hout
    refine draw_missed fun p hp ha => hout ?_
    obtain ⟨i, ch, r, c, hi, hr, hc, hye, hxe, -⟩ := hpixel p hp ha
    obtain ⟨hlen, -⟩ := List.getElem?_eq_some_iff.mp hi
    rw [Nat.add_mul, Nat.one_mul]
    omega

/-- The cells from `(row, col)` on show the text. -/
def Shows (font : Nat → Nat) (vbe : VbeInfo) (fb : Nat) (m : Nat → Nat) (text : List Nat)
    (row col : Nat) : Prop :=
  ∀ i ch, text[i]? = some ch → ∀ r < psfCharheight font, ∀ c < 8,
    m (pixelOf vbe fb (row * psfCharheight font + r) ((col + i) * 8 + c)) = glyphColor font ch r c

section Text

variable {text text' : List Nat} {m : Nat → Nat} {row' col' : Nat}

theorem TextFits.pixel_lt (h : TextFits font vbe text row col) {i ch r c : Nat}
    (hi : text[i]? = some ch) (hr : r < psfCharheight font) (hc : c < 8) :
    row * psfCharheight font + r < vbe.heightPx ∧ (col + i) * 8 + c < vbe.widthPx := by
  have hrows := h.rows
  have hcols := h.cols
  obtain ⟨hlen, -⟩ := List.getElem?_eq_some_iff.mp hi
  rw [Nat.add_mul, Nat.one_mul] at hrows
  omega

theorem shows_println (h : Console vbe fb) (hfits : TextFits font vbe text row col)
    (m : Nat → Nat) :
    Shows font vbe fb (draw (printlnPixels font vbe fb text row col) m) text row col := by
  intro i ch hi r hr c hc
  obtain ⟨hy, hx⟩ := hfits.pixel_lt hi hr hc
  obtain ⟨hlen, hget⟩ := List.getElem?_eq_some_iff.mp hi
  rw [draw_println h hfits m hy hx, if_pos (by rw [Nat.add_mul, Nat.one_mul]; omega)]
  rw [show ((col + i) * 8 + c) / 8 - col = i by omega, show ((col + i) * 8 + c) % 8 = c by omega,
    Nat.add_sub_cancel_left, List.getD_eq_getElem?_getD, hi]
  rfl

/-- A text in another row stays. -/
theorem Shows.println (hs : Shows font vbe fb m text row col) (h : Console vbe fb)
    (hfits : TextFits font vbe text row col) (hfits' : TextFits font vbe text' row' col')
    (hne : row ≠ row') :
    Shows font vbe fb (draw (printlnPixels font vbe fb text' row' col') m) text row col := by
  intro i ch hi r hr c hc
  obtain ⟨hy, hx⟩ := hfits.pixel_lt hi hr hc
  rw [draw_println h hfits' m hy hx, if_neg, hs i ch hi r hr c hc]
  rintro ⟨h1, h2, -⟩
  rcases Nat.lt_or_gt_of_ne hne with hlt | hlt
  · have := Nat.mul_le_mul_right (psfCharheight font) (Nat.succ_le_of_lt hlt)
    rw [Nat.succ_mul] at this
    omega
  · have := Nat.mul_le_mul_right (psfCharheight font) (Nat.succ_le_of_lt hlt)
    rw [Nat.succ_mul] at this
    rw [Nat.add_mul, Nat.one_mul] at h2
    omega

/-- Nothing outside the framebuffer is written. -/
theorem draw_println_outside (h : Console vbe fb) (hfits : TextFits font vbe text row col)
    (m : Nat → Nat) {a : Nat} (ha : a < fb ∨ fb + 4 * (vbe.pitch / 4 * vbe.heightPx) ≤ a) :
    draw (printlnPixels font vbe fb text row col) m a = m a := by
  refine draw_missed fun p hp hpa => ?_
  obtain ⟨i, ch, r, c, hi, hr, hc, rfl⟩ := (mem_printlnPixels hfits.noNul).mp hp
  obtain ⟨hy, hx⟩ := hfits.pixel_lt hi hr hc
  have hlt := h.index_lt hy hx
  change pixelAddr fb (vbe.pitch / 4) _ _ = a at hpa
  rw [h.pixelAddr_eq hy hx] at hpa
  unfold pixelOf at hpa
  omega

end Text

/-! ## The lower half -/

/-- The first line of the lower half. -/
def halfLine (font : Nat → Nat) : Nat := (vesaLastRow / 2 + 1) * psfCharheight font

/-- The stores of `vesa_clear_lower_half`. -/
def clearPixels (font : Nat → Nat) (vbe : VbeInfo) (fb : Nat) : List Pixel :=
  (List.range' (halfLine font % 2 ^ 32) (vbe.heightPx - halfLine font % 2 ^ 32)).flatMap fun y =>
    (List.range vbe.widthPx).map fun x => ⟨pixelAddr fb (vbe.pitch / 4) y x, 0x00000000⟩

theorem vesaClearLowerHalf_eq (himg : L.image fbVirt = true) (s : KState) :
    vesaClearLowerHalf font fbVirt vbe L s
        = .ok (clearPixels font vbe (framebuffer fbVirt vbe s.mem), s) := by
  unfold vesaClearLowerHalf
  rw [K.bind_ok (Draws.getFb_eq himg s)]
  rfl

theorem mem_clearPixels {p : Pixel} (hhalf : halfLine font < 2 ^ 32) : p ∈ clearPixels font vbe fb ↔
    ∃ y x, halfLine font ≤ y ∧ y < vbe.heightPx ∧ x < vbe.widthPx ∧
    p = ⟨pixelAddr fb (vbe.pitch / 4) y x, 0⟩ := by
  unfold clearPixels
  rw [Nat.mod_eq_of_lt hhalf]
  simp only [List.mem_flatMap, List.mem_map, List.mem_range, List.mem_range'_1]
  constructor
  · rintro ⟨y, ⟨h1, h2⟩, x, hx, rfl⟩
    exact ⟨y, x, h1, by omega, hx, rfl⟩
  · rintro ⟨y, x, h1, h2, hx, rfl⟩
    exact ⟨y, ⟨h1, by omega⟩, x, hx, rfl⟩

theorem draw_clear (h : Console vbe fb) (hhalf : halfLine font < 2 ^ 32) (m : Nat → Nat)
    (hy : y < vbe.heightPx) (hx : x < vbe.widthPx) :
    draw (clearPixels font vbe fb) m (pixelOf vbe fb y x) =
      if halfLine font ≤ y then 0 else m (pixelOf vbe fb y x) := by
  split
  · rename_i hle
    refine draw_hit ⟨⟨pixelOf vbe fb y x, 0⟩, (mem_clearPixels hhalf).mpr ⟨y, x, hle, hy, hx, ?_⟩,
      rfl⟩ ?_
    · rw [h.pixelAddr_eq hy hx]
    · intro p hp _
      obtain ⟨_, _, -, -, -, rfl⟩ := (mem_clearPixels hhalf).mp hp
      rfl
  · rename_i hle
    refine draw_missed fun p hp ha => hle ?_
    obtain ⟨y', x', h1, h2, h3, rfl⟩ := (mem_clearPixels hhalf).mp hp
    change pixelAddr fb (vbe.pitch / 4) _ _ = _ at ha
    rw [h.pixelAddr_eq h2 h3] at ha
    obtain ⟨rfl, -⟩ := h.pixelOf_inj h3 hx ha
    exact h1

theorem draw_clear_outside (h : Console vbe fb) (hhalf : halfLine font < 2 ^ 32)
    (m : Nat → Nat) {a : Nat} (ha : a < fb ∨ fb + 4 * (vbe.pitch / 4 * vbe.heightPx) ≤ a) :
    draw (clearPixels font vbe fb) m a = m a := by
  refine draw_missed fun p hp hpa => ?_
  obtain ⟨y', x', -, h2, h3, rfl⟩ := (mem_clearPixels hhalf).mp hp
  have hlt := h.index_lt h2 h3
  change pixelAddr fb (vbe.pitch / 4) _ _ = a at hpa
  rw [h.pixelAddr_eq h2 h3] at hpa
  unfold pixelOf at hpa
  omega

/-! ## Numbers -/

/-- The number that `uint64_to_hex` has written: the 16 digits behind `0x`. -/
def hexValue (text : List Nat) : Nat :=
  (text.drop 2).foldl (fun v ch => 16 * v + (bytes "0123456789ABCDEF").idxOf ch) 0

theorem length_uint64ToHex (val : Nat) : (uint64ToHex val).length = 18 := by
  unfold uint64ToHex
  rw [List.length_append, List.length_map, List.length_range]
  rfl

theorem hexDigit_idxOf :
    ∀ d < 16, (bytes "0123456789ABCDEF").idxOf ((bytes "0123456789ABCDEF").getD d 0) = d := by
  decide

theorem nibble_lt (v k : Nat) : (v >>> k) &&& 0xF < 16 :=
  Nat.lt_of_le_of_lt Nat.and_le_right (by decide)

/-- The digits so far are the high end of the number. -/
theorem foldl_nibbles {val : Nat} (h : val < 2 ^ 64) : ∀ n ≤ 16,
    (List.range n).foldl (fun v i => 16 * v + ((val >>> (60 - i * 4)) &&& 0xF)) 0
    = val / 2 ^ (64 - 4 * n)
  | 0, _ => (Nat.div_eq_of_lt h).symm
  | n + 1, hn => by
    rw [List.range_succ, List.foldl_append, foldl_nibbles h n (by omega), List.foldl_cons,
      List.foldl_nil, Nat.shiftRight_eq_div_pow, show (0xF : Nat) = 2 ^ 4 - 1 from rfl,
      Nat.and_two_pow_sub_one_eq_mod, show 64 - 4 * n = 60 - n * 4 + 4 by omega,
      show 64 - 4 * (n + 1) = 60 - n * 4 by omega, pow_add,
      ← Nat.div_div_eq_div_mul]
    omega

/-- **What `uint64_to_hex` writes is the number.** -/
theorem hexValue_uint64ToHex {val : Nat} (h : val < 2 ^ 64) : hexValue (uint64ToHex val) = val := by
  have hdrop : (uint64ToHex val).drop 2
      = (List.range 16).map fun i => (bytes "0123456789ABCDEF").getD
        ((val >>> (60 - i * 4)) &&& 0xF) 0 := rfl
  unfold hexValue
  rw [hdrop, List.foldl_map]
  simp only [hexDigit_idxOf _ (nibble_lt _ _)]
  rw [foldl_nibbles h 16 le_rfl]
  exact Nat.div_one val

end Boot
end MikroKernel
