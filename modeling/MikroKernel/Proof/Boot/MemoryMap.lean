import MikroKernel.Boot.MemoryMap
import Mathlib.Tactic

/-!
# The count of memory-map entries

`.e820_done` adds one to the counter whichever way the loop was left. The addition stands for the
last entry, which left the loop before it was counted; where the last reply brought no entry, or an
empty one, the count is one too many.
-/

set_option autoImplicit false

namespace MikroKernel.Boot

/-- The reply ends the loop, by any of its three exits. -/
def Reply.Stops (r : Reply) : Prop := r.carry = true ∨ r.eax ≠ smap ∨ r.ebx = 0

/-- An entry that the BIOS wrote and that is not empty. -/
def Reply.Fills (r : Reply) : Prop := r.Writes ∧ r.ecx ≠ 0

instance (r : Reply) : Decidable r.Fills := inferInstanceAs (Decidable (_ ∧ _))

/-- The non-empty entries the BIOS wrote, in reply order. -/
def filled (replies : List Reply) : List Reply := replies.filter (fun r => decide r.Fills)

/-- The word at `0x7000` counts the non-empty entries, and they lie in the slots `0..count-1`. -/
structure CountExact (replies : List Reply) (s : E820) : Prop where
  count : mmapEntryCount s.mem = (filled replies).length
  slots : ∀ j r, (filled replies)[j]? = some r → ∀ i : Fin 24, s.mem (slot j i) = .bios r i

/-! ## One reply that does not end the loop -/

/-- What the loop does with a reply that does not end it. -/
def E820.advance (s : E820) (r : Reply) : E820 :=
  if r.ecx = 0 then s.int15 r else { s.int15 r with bp := s.bp + 1, di := s.di + 24 }

@[simp] theorem E820.int15_bp (s : E820) (r : Reply) : (s.int15 r).bp = s.bp := by
  unfold E820.int15
  split <;> rfl

@[simp] theorem E820.int15_di (s : E820) (r : Reply) : (s.int15 r).di = s.di := by
  unfold E820.int15
  split <;> rfl

theorem Reply.writes_of_not_stops {r : Reply} (h : ¬ r.Stops) : r.Writes := by
  simp only [Reply.Stops, not_or, Bool.not_eq_true, ne_eq, not_not] at h
  exact ⟨h.1, h.2.1⟩

theorem e820Loop_advance {r : Reply} (h : ¬ r.Stops) (rest : List Reply) (s : E820) :
    e820Loop (r :: rest) s = e820Loop rest (s.advance r) := by
  simp only [Reply.Stops, not_or, Bool.not_eq_true, ne_eq, not_not] at h
  obtain ⟨hcarry, heax, hebx⟩ := h
  simp only [e820Loop, hcarry, heax, E820.advance, Bool.false_eq_true, if_false, ne_eq,
    not_true_eq_false, hebx, E820.int15_bp, E820.int15_di]
  split <;> rfl

theorem e820Loop_done {r : Reply} (h : r.Stops) (s : E820) :
    e820Loop [r] s = some (s.int15 r).done := by
  simp only [e820Loop]
  obtain h | h | h := h
  · simp only [h, if_true]
  · simp only [h, ne_eq, not_false_eq_true, if_true, ite_self]
  · simp only [h, if_true, ite_self]

/-- The whole loop: the replies before the last one move on, the last one leaves. -/
theorem e820Loop_eq {replies : List Reply} {last : Reply} (h : ∀ r ∈ replies, ¬ r.Stops)
    (hlast : last.Stops) (s : E820) :
    e820Loop (replies ++ [last]) s = some ((replies.foldl E820.advance s).int15 last).done := by
  induction replies generalizing s with
  | nil => exact e820Loop_done hlast s
  | cons r rest ih =>
    rw [List.cons_append, e820Loop_advance (h r (List.mem_cons_self ..)), List.foldl_cons]
    exact ih (fun r hr => h r (List.mem_cons_of_mem _ hr)) _

/-! ## What the replies leave -/

/-- After the entries `es` were counted: the counter, the next slot, and the slots before it. -/
structure Stored (es : List Reply) (s : E820) : Prop where
  bp : s.bp = BitVec.ofNat 16 es.length
  di : s.di = slot es.length 0
  slots : es.length ≤ 341 → ∀ j r, es[j]? = some r → ∀ i : Fin 24, s.mem (slot j i) = .bios r i

theorem slot_toNat {j i : Nat} (hj : j ≤ 341) (hi : i < 24) :
    (slot j i).toNat = 0x5000 + 24 * j + i := by
  rw [slot, BitVec.toNat_ofNat]
  exact Nat.mod_eq_of_lt (by omega)

/-- A slot below the next one is left alone. -/
theorem slot_apart {j k i : Nat} (hjk : j < k) (hk : k ≤ 341) (hi : i < 24) :
    ¬ (slot j i - slot k 0).toNat < 24 := by
  rw [BitVec.toNat_sub, slot_toNat (by omega) hi, slot_toNat hk (by omega)]
  rw [Nat.mod_eq_of_lt (by omega)]
  omega

/-- The next slot takes the entry byte by byte. -/
theorem slot_self {k i : Nat} (hk : k ≤ 341) (hi : i < 24) : (slot k i - slot k 0).toNat = i := by
  rw [BitVec.toNat_sub, slot_toNat hk hi, slot_toNat hk (by omega)]
  omega

/-- `add di, 24`. -/
theorem slot_next (k : Nat) : slot k 0 + 24 = slot (k + 1) 0 := by
  apply BitVec.eq_of_toNat_eq
  have h24 : (24 : BitVec 16).toNat = 24 := rfl
  simp only [slot, BitVec.toNat_add, BitVec.toNat_ofNat, h24]
  omega

variable {es : List Reply} {s : E820} {r : Reply}

/-- The entry lands in the next slot, and the slots before it keep theirs. -/
theorem Stored.int15_slots (h : Stored es s) (hr : r.Writes) (hlen : es.length ≤ 340)
    (j : Nat) (e : Reply) (he : (es ++ [r])[j]? = some e) (i : Fin 24) :
    (s.int15 r).mem (slot j i) = .bios e i := by
  simp only [E820.int15, hr, if_true, h.di]
  rcases Nat.lt_or_ge j es.length with hj | hj
  · rw [dif_neg (slot_apart hj (by omega) i.isLt)]
    rw [List.getElem?_append_left hj] at he
    exact h.slots (by omega) j e he i
  · have hje : j = es.length := by
      have := (List.getElem?_eq_some_iff.mp he).1
      simp only [List.length_append, List.length_singleton] at this
      omega
    subst hje
    have hself := slot_self (k := es.length) (i := i) (by omega) i.isLt
    rw [dif_pos (by rw [hself]; exact i.isLt)]
    rw [List.getElem?_append_right (le_refl _), Nat.sub_self] at he
    cases he
    congr 1
    exact Fin.ext hself

/-- An entry that is not counted is written past the counted ones. -/
theorem Stored.int15 (h : Stored es s) : Stored es (s.int15 r) where
  bp := by rw [E820.int15_bp, h.bp]
  di := by rw [E820.int15_di, h.di]
  slots hlen j e he i := by
    have hj := (List.getElem?_eq_some_iff.mp he).1
    unfold E820.int15
    split
    · simp only [h.di]
      rw [dif_neg (slot_apart hj hlen i.isLt)]
      exact h.slots hlen j e he i
    · exact h.slots hlen j e he i

theorem Stored.advance (h : Stored es s) (hr : ¬ r.Stops) :
    Stored (es ++ filled [r]) (s.advance r) := by
  have hw := Reply.writes_of_not_stops hr
  unfold E820.advance
  split
  case isTrue hecx =>
    have hnil : filled [r] = [] := by simp [filled, Reply.Fills, hecx]
    rw [hnil, List.append_nil]
    exact h.int15
  case isFalse hecx =>
    have hone : filled [r] = [r] := by
      have hf : r.Fills := ⟨hw, hecx⟩
      simp [filled, hf]
    rw [hone]
    refine ⟨?_, ?_, ?_⟩
    · simp only [h.bp, List.length_append, List.length_singleton, BitVec.ofNat_add]
      rfl
    · rw [h.di, slot_next, List.length_append, List.length_singleton]
    · intro hlen j e he i
      simp only [List.length_append, List.length_singleton] at hlen
      exact h.int15_slots hw (by omega) j e he i

theorem filled_cons (r : Reply) (rest : List Reply) :
    filled (r :: rest) = filled [r] ++ filled rest := by
  simp only [filled, ← List.filter_append, List.singleton_append]

theorem filled_append (as bs : List Reply) : filled (as ++ bs) = filled as ++ filled bs :=
  List.filter_append ..

/-- Over any number of replies that do not end the loop. -/
theorem Stored.run {replies : List Reply} (h : Stored es s) (hrs : ∀ r ∈ replies, ¬ r.Stops) :
    Stored (es ++ filled replies) (replies.foldl E820.advance s) := by
  induction replies generalizing es s with
  | nil => simpa [filled] using h
  | cons r rest ih =>
    rw [filled_cons, ← List.append_assoc, List.foldl_cons]
    exact ih (h.advance (hrs r (List.mem_cons_self ..)))
      (fun r hr => hrs r (List.mem_cons_of_mem _ hr))

theorem stored_start (mem : BitVec 16 → Cell) : Stored [] { bp := 0, di := 0x5000, mem } where
  bp := rfl
  di := rfl
  slots _ j r hj := by cases hj

/-! ## The stored word -/

theorem E820.done_count (s : E820) : mmapEntryCount s.done.mem = (s.bp + 1).toNat := by
  have h0 : s.done.mem 0x7000 = .loader ((s.bp + 1).truncate 8) := by simp [E820.done]
  have h1 : s.done.mem 0x7001 = .loader (((s.bp + 1) >>> 8).truncate 8) := by simp [E820.done]
  simp only [mmapEntryCount, h0, h1, Cell.byte, BitVec.truncate_eq_setWidth, BitVec.toNat_setWidth,
    BitVec.toNat_ushiftRight, Nat.shiftRight_eq_div_pow]
  have := (s.bp + 1).isLt
  omega

/-- A slot below the 342nd ends before the count word. -/
theorem E820.done_slot (s : E820) {j i : Nat} (hj : j ≤ 340) (hi : i < 24) :
    s.done.mem (slot j i) = s.mem (slot j i) := by
  have hslot := slot_toNat (j := j) (by omega) hi
  have hlow : slot j i ≠ 0x7000 := by
    intro h
    rw [h, show (0x7000 : BitVec 16).toNat = 0x7000 from rfl] at hslot
    omega
  have hhigh : slot j i ≠ 0x7001 := by
    intro h
    rw [h, show (0x7001 : BitVec 16).toNat = 0x7001 from rfl] at hslot
    omega
  simp only [E820.done]
  rw [if_neg hlow, if_neg hhigh]

/-- The ninth byte of the 342nd slot is the low byte of the count. -/
theorem slot_count : slot 341 8 = 0x7000 := by decide

theorem E820.done_loader (s : E820) : s.done.mem 0x7000 = .loader ((s.bp + 1).truncate 8) := by
  simp [E820.done]

/-! ## When the count is exact -/

variable {replies : List Reply} {last : Reply}

/-- Whichever way the loop is left, the count is one more than the entries counted on the way. -/
theorem loadMmapBios_count (hrs : ∀ r ∈ replies, ¬ r.Stops) (hlast : last.Stops)
    (mem : BitVec 16 → Cell) :
    ∃ t, Stored (filled replies) t ∧ loadMmapBios (replies ++ [last]) mem
      = some (t.int15 last).done ∧
      mmapEntryCount (t.int15 last).done.mem = ((filled replies).length + 1) % 2 ^ 16 := by
  have hstored :
      Stored (filled replies) (replies.foldl E820.advance { bp := 0, di := 0x5000, mem }) := by
    simpa using (stored_start mem).run hrs
  refine ⟨_, hstored, e820Loop_eq hrs hlast _, ?_⟩
  have hone : (1 : BitVec 16).toNat = 1 := rfl
  rw [E820.done_count, E820.int15_bp, hstored.bp]
  simp only [BitVec.toNat_add, BitVec.toNat_ofNat, hone]
  omega

/-- The count is exact if and only if the last reply leaves by `EBX = 0` with an entry that is not
empty, and the entries fit below the count word. -/
theorem countExact_iff (hrs : ∀ r ∈ replies, ¬ r.Stops) (hlast : last.Stops)
    (mem : BitVec 16 → Cell) :
    (∃ s, loadMmapBios (replies ++ [last]) mem = some s ∧ CountExact (replies ++ [last]) s) ↔
      last.ebx = 0 ∧ last.Fills ∧ (filled (replies ++ [last])).length ≤ 341 := by
  obtain ⟨t, hstored, hloop, hcount⟩ := loadMmapBios_count hrs hlast mem
  constructor
  · rintro ⟨s, hs, hexact⟩
    rw [hloop] at hs
    cases hs
    have hc := hexact.count
    rw [hcount, filled_append] at hc
    by_cases hf : last.Fills
    · have hone : filled [last] = [last] := by simp [filled, hf]
      have hebx : last.ebx = 0 := by
        obtain h | h | h := hlast
        · rw [hf.1.1] at h; cases h
        · exact absurd hf.1.2 h
        · exact h
      refine ⟨hebx, hf, ?_⟩
      -- a 342nd entry would lie across the word at `0x7000`
      by_contra hlen
      obtain ⟨r, hr⟩ : ∃ r, (filled (replies ++ [last]))[341]? = some r :=
        ⟨_, List.getElem?_eq_getElem (by omega)⟩
      have hslot := hexact.slots 341 r hr 8
      rw [show ((8 : Fin 24) : Nat) = 8 from rfl, slot_count, E820.done_loader] at hslot
      cases hslot
    · have hnil : filled [last] = [] := by simp [filled, hf]
      rw [hnil, List.append_nil] at hc
      omega
  · rintro ⟨hebx, hf, hlen⟩
    have hone : filled [last] = [last] := by simp [filled, hf]
    rw [filled_append, hone, List.length_append, List.length_singleton] at hlen
    refine ⟨_, hloop, ?_, ?_⟩
    · rw [hcount, filled_append, hone, List.length_append, List.length_singleton]
      omega
    · intro j r hj i
      rw [filled_append, hone] at hj
      have hlt := (List.getElem?_eq_some_iff.mp hj).1
      rw [List.length_append, List.length_singleton] at hlt
      rw [E820.done_slot _ (by omega) i.isLt]
      exact hstored.int15_slots hf.1 (by omega) j r hj i

/-- A reply with an entry of zeros. -/
def plainReply (carry : Bool) (ebx ecx : BitVec 32) : Reply :=
  { carry, eax := smap, ebx, ecx, entry := fun _ => 0 }

/-- Two entries, the second with `EBX = 0`: the count is right. -/
theorem countExact_iff_two : ∃ s,
    loadMmapBios [plainReply false 1 24, plainReply false 0 24] (fun _ => .before 0) = some s ∧
      CountExact [plainReply false 1 24, plainReply false 0 24] s := by
  have hgoes : ∀ r ∈ [plainReply false 1 24], ¬ r.Stops := by simp [plainReply, Reply.Stops]
  have hstops : (plainReply false 0 24).Stops := .inr (.inr rfl)
  exact (countExact_iff hgoes hstops (fun _ => .before 0)).mpr ⟨rfl, by decide, by decide⟩

/-- One entry, then the carry flag: the count is two, and the second slot was never written. -/
theorem carry_counted :
    (¬ (plainReply false 1 24).Stops ∧ (plainReply true 0 0).Stops) ∧
      (filled [plainReply false 1 24, plainReply true 0 0]).length = 1 ∧
      ∃ s, loadMmapBios [plainReply false 1 24, plainReply true 0 0] (fun _ => .before 0) = some s ∧
        mmapEntryCount s.mem = 2 ∧ s.mem (slot 1 0) = .before 0 ∧
        ¬ CountExact [plainReply false 1 24, plainReply true 0 0] s := by
  refine ⟨⟨?_, .inl rfl⟩, by decide, _, rfl, by decide, rfl, ?_⟩
  · rintro (h | h | h)
    · cases h
    · exact h rfl
    · cases h
  · intro h
    have hcount := h.count
    revert hcount
    decide

end MikroKernel.Boot
