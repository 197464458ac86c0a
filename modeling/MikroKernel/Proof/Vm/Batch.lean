import MikroKernel.Proof.Mmu.Rights
import MikroKernel.Proof.Vm.Ranges
import MikroKernel.Proof.Vm.Calls

/-!
# Sequences of `kmap_pages`

The boot code maps range after range. Where the ranges are apart and nothing was mapped in them,
each is mapped as its call says and the rest is as before (`Shows.kmapAll`), and no call comes upon
a page of the other size in its way (`CleanRun`).
-/

set_option autoImplicit false

namespace MikroKernel
namespace Vm

open Mmu

variable {L : Layout} {A : KernelAlloc L} {V : Statics} {pml4 fuel v : Nat} {s s' : KState}
  {M : PageMap} {areas : List (Nat × Nat)} {a b : Args} {l : List Args}

/-! ## The map after a sequence -/

/-- What is asked of a call, but for the range to be free. -/
structure Sound (a : Args) : Prop where
  present : a.flags &&& ptePresent ≠ 0
  clear : a.flags &&& pteAddrMask = 0
  flags_lt : a.flags < 2 ^ 64
  frames : a.size ∣ a.paddr
  phys : a.paddr + a.numPages * a.size ≤ 2 ^ 52
  proper : a.Proper

theorem Sound.mapArgs (h : Sound a) (hfree : ∀ v, Canonical v → a.Has v → M (pageNo v) = none) :
    MapArgs (M · ≠ none) a := by
  have hlt : a.paddr < 2 ^ 64 := by
    have := h.phys
    omega
  exact ⟨h.present, h.clear, h.flags_lt, h.frames, hlt, h.proper.noWrap,
    fun P hP => fresh_of_addresses h.proper hfree hP⟩

/-- The translation that a call gives to an address of its range. -/
def leafAt (a : Args) (v : Nat) : Leaf :=
  ⟨a.paddr + (v - a.vaddr) / a.size * a.size, a.flags, a.size⟩

theorem map_at (h : a.Proper) (hv : Canonical v) :
    M.map a (pageNo v) = if a.Has v then some (leafAt a v) else M (pageNo v) := by
  unfold PageMap.map
  by_cases hin : a.Has v
  · rw [if_pos hin, if_pos ((h.covers_iff hv).mpr hin)]
    have hoff := h.offset hin
    obtain ⟨q, hq⟩ := h.aligned
    have hmod : v % a.size = (v - a.vaddr) % a.size := by
      obtain ⟨d, hd⟩ := Nat.exists_eq_add_of_le hin.1
      rw [hd, Nat.add_sub_cancel_left, hq, Nat.mul_add_mod]
    have hdiv := Nat.div_add_mod' (v - a.vaddr) a.size
    unfold leafAt
    rw [show (a.slot (pageNo v) - a.first) * a.size = (v - a.vaddr) / a.size * a.size by omega]
  · rw [if_neg hin, if_neg (fun hc => hin ((h.covers_iff hv).mp hc))]

/-- The ranges share no address. -/
def RangesApart (a b : Args) : Prop := ∀ v, a.Has v → ¬ b.Has v

theorem foldl_map_outside (hl : ∀ a ∈ l, a.Proper) (hv : Canonical v) (hout : ∀ a ∈ l, ¬ a.Has v) :
    l.foldl PageMap.map M (pageNo v) = M (pageNo v) := by
  induction l generalizing M with
  | nil => rfl
  | cons b l ih =>
    rw [List.foldl_cons, ih (fun a ha => hl a (List.mem_cons_of_mem _ ha))
      (fun a ha => hout a (List.mem_cons_of_mem _ ha)), map_at (hl b List.mem_cons_self) hv,
      if_neg (hout b List.mem_cons_self)]

theorem foldl_map_inside (hl : ∀ a ∈ l, a.Proper) (hap : l.Pairwise RangesApart) (hv : Canonical v)
    (ha : a ∈ l) (hin : a.Has v) : l.foldl PageMap.map M (pageNo v) = some (leafAt a v) := by
  induction l generalizing M with
  | nil => exact absurd ha List.not_mem_nil
  | cons b l ih =>
    obtain ⟨hbl, hap⟩ := List.pairwise_cons.mp hap
    rw [List.foldl_cons]
    rcases List.mem_cons.mp ha with rfl | ha
    · rw [foldl_map_outside (fun a ha => hl a (List.mem_cons_of_mem _ ha)) hv
        (fun b hb => hbl b hb v hin), map_at (hl a List.mem_cons_self) hv, if_pos hin]
    · exact ih (fun a ha => hl a (List.mem_cons_of_mem _ ha)) hap ha

/-- One call of `kmap_pages` after another. -/
def kmapAll (fuel : Nat) (kmalloc : Nat → K Nat) (V : Statics) : List Args → K Unit
  | [] => pure ()
  | a :: l => do
      kmap fuel kmalloc V a
      kmapAll fuel kmalloc V l

theorem kmapAll_guards {alarm : Stop} (x y : Nat → K Nat) [∀ n, Guards alarm (x n) (y n)]
    (fuel : Nat) (V : Statics) (l : List Args) :
    Guards alarm (kmapAll fuel x V l) (kmapAll fuel y V l) := by
  induction l with
  | nil => exact Guards.refl _
  | cons a l ih =>
    unfold kmapAll
    infer_instance

instance {alarm : Stop} (x y : Nat → K Nat) [∀ n, Guards alarm (x n) (y n)] (fuel : Nat)
    (V : Statics) (l : List Args) : Guards alarm (kmapAll fuel x V l) (kmapAll fuel y V l) :=
  kmapAll_guards x y fuel V l

theorem kmapAll_append (kmalloc : Nat → K Nat) (l₁ l₂ : List Args) :
    kmapAll fuel kmalloc V (l₁ ++ l₂)
        = (do kmapAll fuel kmalloc V l₁; kmapAll fuel kmalloc V l₂) := by
  induction l₁ with
  | nil => rfl
  | cons a l₁ ih =>
    simp only [List.cons_append, kmapAll, ih]
    rw [K.bind_assoc']

/-- Ranges that can be mapped one after the other. -/
structure Batch (M : PageMap) (l : List Args) : Prop where
  sound : ∀ a ∈ l, Sound a
  apart : l.Pairwise RangesApart
  free : ∀ a ∈ l, ∀ v, Canonical v → a.Has v → M (pageNo v) = none

/-- What a sequence of calls makes of the VMAs: the old ones stay, a new one is of one of its
ranges, and one starts where each range does. -/
structure Made (l : List Args) (areas areas' : List (Nat × Nat)) : Prop where
  kept : ∀ r ∈ areas, r ∈ areas'
  new : ∀ r ∈ areas', r ∈ areas ∨ ∃ a ∈ l, r = area a
  starts : ∀ a ∈ l, ∃ r ∈ areas', r.1 = a.vaddr
  length_le : areas'.length ≤ areas.length + l.length

theorem Made.refl (areas : List (Nat × Nat)) : Made [] areas areas :=
  ⟨fun _ hr => hr, fun _ hr => Or.inl hr, fun _ ha => absurd ha List.not_mem_nil, Nat.le_refl _⟩

theorem Made.of_enters {areas' : List (Nat × Nat)} (h : Enters (area a) areas areas') :
    Made [a] areas areas' := by
  have hlen := h.length_le
  rcases h with ⟨⟨q, hq, he⟩, rfl⟩ | ⟨-, l₁, l₂, rfl, rfl⟩
  · refine ⟨fun _ hr => hr, fun _ hr => Or.inl hr, fun b hb => ⟨q, hq, ?_⟩, hlen⟩
    rw [he, List.mem_singleton.mp hb]
    rfl
  · refine ⟨fun r hr => List.perm_middle.mem_iff.mpr (List.mem_cons_of_mem _ hr), fun r hr => ?_,
      fun b hb => ⟨area a, by simp, ?_⟩, hlen⟩
    · rcases List.mem_cons.mp (List.perm_middle.mem_iff.mp hr) with rfl | hr
      · exact Or.inr ⟨a, List.mem_singleton_self a, rfl⟩
      · exact Or.inl hr
    · rw [List.mem_singleton.mp hb]
      rfl

theorem Made.append {l₁ l₂ : List Args} {areas₁ areas₂ : List (Nat × Nat)}
    (h₁ : Made l₁ areas areas₁) (h₂ : Made l₂ areas₁ areas₂) : Made (l₁ ++ l₂) areas areas₂ := by
  refine ⟨fun r hr => h₂.kept r (h₁.kept r hr), fun r hr => ?_, fun b hb => ?_, ?_⟩
  · rcases h₂.new r hr with hr | ⟨b, hb, rfl⟩
    · rcases h₁.new r hr with hr | ⟨b, hb, rfl⟩
      · exact Or.inl hr
      · exact Or.inr ⟨b, List.mem_append_left _ hb, rfl⟩
    · exact Or.inr ⟨b, List.mem_append_right _ hb, rfl⟩
  · rcases List.mem_append.mp hb with hb | hb
    · obtain ⟨r, hr, he⟩ := h₁.starts b hb
      exact ⟨r, h₂.kept r hr, he⟩
    · exact h₂.starts b hb
  · have := h₁.length_le
    have := h₂.length_le
    rw [List.length_append]
    omega

theorem Batch.head (h : Batch M (a :: l)) : MapArgs (M · ≠ none) a :=
  (h.sound a List.mem_cons_self).mapArgs (h.free a List.mem_cons_self)

theorem Batch.tail (h : Batch M (a :: l)) : Batch (M.map a) l := by
  obtain ⟨hal, hap⟩ := List.pairwise_cons.mp h.apart
  refine ⟨fun b hb => h.sound b (List.mem_cons_of_mem _ hb), hap, fun b hb v hv hin => ?_⟩
  rw [map_at (h.sound a List.mem_cons_self).proper hv, if_neg (fun ha => hal b hb v ha hin)]
  exact h.free b (List.mem_cons_of_mem _ hb) v hv hin

/-- The calls of a batch can be made in two parts. -/
theorem Batch.append {l₁ l₂ : List Args} (h : Batch M (l₁ ++ l₂)) :
    Batch M l₁ ∧ Batch (l₁.foldl PageMap.map M) l₂ := by
  obtain ⟨hap₁, hap₂, hap⟩ := List.pairwise_append.mp h.apart
  refine ⟨⟨fun a ha => h.sound a (List.mem_append_left _ ha), hap₁,
      fun a ha => h.free a (List.mem_append_left _ ha)⟩,
    ⟨fun a ha => h.sound a (List.mem_append_right _ ha), hap₂, fun a ha v hv hin => ?_⟩⟩
  rw [foldl_map_outside (fun b hb => (h.sound b (List.mem_append_left _ hb)).proper) hv
    (fun b hb hin' => hap b hb a ha v hin' hin)]
  exact h.free a (List.mem_append_right _ ha) v hv hin

/-- **A sequence of calls** maps its ranges, unless memory runs out. -/
theorem Shows.kmapAll (h : Shows A V pml4 s M areas) (hb : Batch M l)
    (hfuel : areas.length + l.length ≤ fuel) :
    Tied L nullAlarm (· ∈ outOfMemory) (kmapAll fuel (orHalt A.kmalloc) V l)
      (kmapAll fuel A.kmalloc V l)
      s (fun _ s' => ∃ areas', Shows A V pml4 s' (l.foldl PageMap.map M) areas' ∧
          Made l areas areas') := by
  induction l generalizing s M areas with
  | nil => exact Tied.pure ⟨areas, h, Made.refl areas⟩
  | cons a l ih =>
    simp only [List.length_cons] at hfuel ⊢
    refine Tied.bind (h.kmap hb.head (hb.sound a List.mem_cons_self).phys (by omega)) ?_
    rintro - s₁ ⟨areas₁, h₁, henters⟩
    have hlen := henters.length_le
    refine (ih h₁ hb.tail (by omega)).mono (fun _ hm => hm) ?_
    rintro - s' ⟨areas', h', hmade⟩
    exact ⟨areas', h', (Made.of_enters henters).append hmade⟩

/-! ## No page of the other size in the way -/

/-- The PD entry on the way to an address, if there is a PD. -/
def pdSlot (m : Mem) (root v : Nat) : Option Nat := (path m root v)[2]?

/-- A call for 2MB pages finds empty PD entries; one for 4KB pages finds no 2MB leaf. -/
def Clean (m : Mem) (root : Nat) (a : Args) : Prop :=
  ∀ v, a.Has v → ∀ x, pdSlot m root v = some x →
    if a.flags &&& pteHugePage ≠ 0 then x = 0 else x &&& pteHugePage = 0

/-- Each call of the sequence finds its way clean. -/
def CleanRun (fuel : Nat) (A : KernelAlloc L) (V : Statics) (root : Nat) : List Args → KState → Prop
  | [], _ => True
  | a :: l, s => Clean s.mem root a ∧
      ∀ s', kmap fuel A.kmalloc V a L s = .ok ((), s') → CleanRun fuel A V root l s'

/-- A PD entry holds a leaf or nothing, or leads to a PT. -/
theorem pdSlot_eq {x : Nat} {T : Tables} (h : Inv A.toPhysAlloc pml4 s T)
    (hx : pdSlot s.mem pml4 v = some x) :
    (T.dir 1 (pageNo v / 512) = none ∧ x = T.huge (pageNo v / 512)) ∨
      ∃ pt, T.dir 1 (pageNo v / 512) = some pt ∧ x = tablePte pt := by
  unfold pdSlot at hx
  rw [h.path_eq] at hx
  unfold Tables.path at hx
  cases hd3 : T.dir 3 (pageNo v / 512 ^ 3) with
  | none =>
    rw [hd3] at hx
    exact absurd hx (by simp)
  | some pdpt =>
    rw [hd3] at hx
    cases hd2 : T.dir 2 (pageNo v / 512 ^ 2) with
    | none =>
      rw [hd2] at hx
      exact absurd hx (by simp)
    | some pd =>
      rw [hd2] at hx
      cases hd1 : T.dir 1 (pageNo v / 512) with
      | none =>
        rw [hd1] at hx
        exact Or.inl ⟨rfl, (Option.some.inj hx).symm⟩
      | some pt =>
        rw [hd1] at hx
        exact Or.inr ⟨pt, rfl, (Option.some.inj hx).symm⟩

theorem proper_canonical (h : a.Proper) (hv : a.Has v) : Canonical v := by
  have hside := h.side
  unfold Args.Has at hv
  unfold Canonical
  omega

/-- **The way to a free range is clean.** -/
theorem Shows.clean (h : Shows A V pml4 s M areas) (ha : a.Proper)
    (hfree : ∀ v, Canonical v → a.Has v → M (pageNo v) = none) : Clean s.mem pml4 a := by
  obtain ⟨-, t, live, T, h, rfl, -⟩ := h
  intro v hv x hx
  have hc := proper_canonical ha hv
  obtain ⟨hhuge, -⟩ := Tables.lookup_eq_none.mp (hfree v hc hv)
  rcases pdSlot_eq h.tables hx with ⟨-, rfl⟩ | ⟨pt, hpt, rfl⟩
  · rw [hhuge]
    split
    · rfl
    · exact Nat.zero_and _
  · by_cases hmark : a.flags &&& pteHugePage ≠ 0
    · -- the PT has a page, and the page is in the range
      obtain ⟨i, hi, hne⟩ := h.full (by omega) hpt
      have hslot : (pageNo v / 512 * 512 + i) / 512 = pageNo v / 512 := by omega
      have hcov : a.Covers (pageNo v / 512 * 512 + i) := by
        have := ha.noWrap.covers_iff.mp ((ha.covers_iff hc).mpr hv)
        rw [ha.noWrap.covers_iff]
        rwa [a.slot_huge hmark, hslot, ← a.slot_huge hmark]
      have := not_not.mp (fresh_of_addresses ha hfree hcov)
      exact absurd (Tables.lookup_eq_none.mp this).2 hne
    · rw [if_neg hmark]
      exact tablePte_not_huge (h.tables.shape.aligned hpt)

/-- So is the way of each call of a sequence. -/
theorem Shows.cleanRun (h : Shows A V pml4 s M areas) (hb : Batch M l)
    (hfuel : areas.length + l.length ≤ fuel) : CleanRun fuel A V pml4 l s := by
  induction l generalizing s M areas with
  | nil => trivial
  | cons a l ih =>
    simp only [List.length_cons] at hfuel
    have hs := hb.sound a List.mem_cons_self
    refine ⟨h.clean hs.proper (hb.free a List.mem_cons_self), fun s' hrun => ?_⟩
    obtain ⟨areas₁, h₁, henters⟩ := (h.kmap hb.head hs.phys (by omega)).of_ok hrun
    have hlen := henters.length_le
    exact ih h₁ hb.tail (by omega)

end Vm
end MikroKernel
