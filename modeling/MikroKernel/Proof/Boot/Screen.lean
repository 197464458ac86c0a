import MikroKernel.Boot.StartKernel

/-!
# What is drawn, and where

Code that prints reads one variable of the kernel, `s_fb_virt`, and changes none. What it stores is
a function of where the framebuffer is. `Draws` is a class, so that this follows from how the code
is put together.
-/

set_option autoImplicit false

namespace MikroKernel
namespace Boot

variable {α β : Type} {L : Layout} {fbVirt : Nat} {vbe : VbeInfo} {s s' : KState}

/-- Where the framebuffer is, for `get_fb`. -/
def framebuffer (fbVirt : Nat) (vbe : VbeInfo) (m : Mem) : Nat :=
  if m fbVirt .ptr ≠ 0 then m fbVirt .ptr else vbe.framebufferAddress

/-- It returns, changes nothing, and what it returns depends on where the framebuffer is. -/
class Draws (L : Layout) (fbVirt : Nat) (vbe : VbeInfo) (x : K α) : Prop where
  drawn : L.image fbVirt = true →
    ∃ g : Nat → α, ∀ s, x L s = .ok (g (framebuffer fbVirt vbe s.mem), s)

namespace Draws

instance pure (a : α) : Draws L fbVirt vbe (Pure.pure a) := ⟨fun _ => ⟨fun _ => a, fun _ => rfl⟩⟩

instance bind (x : K α) (f : α → K β) [hx : Draws L fbVirt vbe x]
    [hf : ∀ a, Draws L fbVirt vbe (f a)] :
    Draws L fbVirt vbe (x >>= f) := by
  refine ⟨fun himg => ?_⟩
  obtain ⟨g, hg⟩ := hx.drawn himg
  have hrest := fun a => (hf a).drawn himg
  choose h hh using hrest
  exact ⟨fun fb => h (g fb) fb, fun s => by rw [K.bind_ok (hg s), hh]⟩

theorem getFb_eq (himg : L.image fbVirt = true) (s : KState) :
    getFb fbVirt vbe L s = .ok (framebuffer fbVirt vbe s.mem, s) := by
  have hload : load fbVirt .ptr L s = .ok (s.mem fbVirt .ptr, s) := by
    unfold load Layout.resolve
    rw [if_pos himg]
  unfold getFb framebuffer
  rw [K.bind_ok hload]
  split
  · exact hload
  · rfl

instance : Draws L fbVirt vbe (getFb fbVirt vbe) := ⟨fun himg => ⟨id, getFb_eq himg⟩⟩

instance : Draws L fbVirt vbe (vbeBlackScreen fbVirt vbe) := by
  unfold vbeBlackScreen
  infer_instance

variable (font : Nat → Nat)

instance (ntS : List Nat) (row col : Nat) :
    Draws L fbVirt vbe (vesaNtPrintln font fbVirt vbe ntS row col) := by
  unfold vesaNtPrintln
  infer_instance

instance (e : MmapEntry) (i row col : Nat) :
    Draws L fbVirt vbe (printEntry font fbVirt vbe e i row col) := by
  unfold printEntry
  infer_instance

instance (entries : List MmapEntry) (i row col : Nat) :
    Draws L fbVirt vbe (vesaPrintMmap font fbVirt vbe entries i row col) := by
  induction entries generalizing i row with
  | nil => exact Draws.pure []
  | cons e rest ih =>
    unfold vesaPrintMmap
    infer_instance

variable (B : BootStatics) (I : BootInput)

instance (text : String) (row col : Nat) : Draws L B.fbVirt I.vbe (println B I text row col) := by
  unfold println
  infer_instance

instance : Draws L B.fbVirt I.vbe (khello B I) := by
  unfold khello
  infer_instance

theorem returns (vbe : VbeInfo) (x : K α) [hx : Draws L fbVirt vbe x] (himg : L.image fbVirt = true)
    (s : KState) :
    ∃ a, x L s = .ok (a, s) := by
  obtain ⟨g, hg⟩ := hx.drawn himg
  exact ⟨_, hg s⟩

end Draws

/-- What is drawn first is the first pixel of the screen, if there is one. -/
theorem khello_head {B : BootStatics} {I : BootInput} {shown : List Pixel}
    (himg : L.image B.fbVirt = true) (hheight : 0 < I.vbe.heightPx) (hwidth : 0 < I.vbe.widthPx)
    (hrun : khello B I L s = .ok (shown, s')) :
    shown.head? = some ⟨framebuffer B.fbVirt I.vbe s.mem % 2 ^ 64, 0⟩ := by
  obtain ⟨cleared, s₁, h₁, h₂⟩ := K.bind_eq_ok.mp hrun
  obtain ⟨text, s₂, -, h₃⟩ := K.bind_eq_ok.mp h₂
  obtain ⟨hshown, -⟩ := Prod.mk.inj (Except.ok.inj h₃)
  unfold vbeBlackScreen at h₁
  rw [K.bind_ok (Draws.getFb_eq himg s)] at h₁
  obtain ⟨hcleared, -⟩ := Prod.mk.inj (Except.ok.inj h₁)
  obtain ⟨height, hh⟩ := Nat.exists_eq_succ_of_ne_zero (Nat.pos_iff_ne_zero.mp hheight)
  obtain ⟨width, hw⟩ := Nat.exists_eq_succ_of_ne_zero (Nat.pos_iff_ne_zero.mp hwidth)
  rw [← hshown, ← hcleared, hh, hw, List.range_succ_eq_map, List.range_succ_eq_map]
  simp [pixelAddr]

/-- **The screen tells**: runs that write the same to the framebuffer have it in the same place. -/
theorem startKernel_shows {B : BootStatics} {I : BootInput} {kmalloc : Nat → K Nat} {fuel rsp : Nat}
    {shown : List Pixel}
    (himg : L.image B.fbVirt = true) (hheight : 0 < I.vbe.heightPx) (hwidth : 0 < I.vbe.widthPx)
    (hrun : startKernel B I kmalloc fuel L s = .ok ((shown, rsp), s')) :
    shown.head? = some ⟨framebuffer B.fbVirt I.vbe s.mem % 2 ^ 64, 0⟩ := by
  obtain ⟨hello, s₁, h₁, h₂⟩ := K.bind_eq_ok.mp hrun
  obtain ⟨allocator, s₂, -, h₃⟩ := K.bind_eq_ok.mp h₂
  obtain ⟨sp, s₃, -, h₄⟩ := K.bind_eq_ok.mp h₃
  have hhead := khello_head himg hheight hwidth h₁
  obtain ⟨hshown, -⟩ := Prod.mk.inj (Except.ok.inj h₄)
  obtain ⟨rfl, -⟩ := Prod.mk.inj hshown
  rw [List.head?_append, hhead]
  rfl

end Boot
end MikroKernel
