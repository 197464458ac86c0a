import Mathlib.Tactic

/-!
# Little-endian numbers in memory

A memory of bytes, and numbers of any width in it. A packed record is a list of widths: its fields
lie one behind the other (`fields`). A number over the whole record is put together from its fields
(`get_add`), so a reader that cuts a record up in another way than its writer still gets what was
written.
-/

set_option autoImplicit false

namespace Bytes

/-- Bytes by their addresses. -/
abbrev Ram := ℕ → BitVec 8

variable {m m' : Ram} {a b n k v w : ℕ} {ws : List ℕ}

/-! ## One number -/

/-- The number in the `n` bytes from `a`. -/
def get (m : Ram) (a : ℕ) : ℕ → ℕ
  | 0 => 0
  | n + 1 => (m a).toNat + 256 * get m (a + 1) n

theorem get_succ (m : Ram) (a n : ℕ) : get m a (n + 1) = (m a).toNat + 256 * get m (a + 1) n := rfl

/-- The `n` low bytes of `v`, stored from `a`. -/
def put (m : Ram) (a n v : ℕ) : Ram := fun b =>
  if a ≤ b ∧ b < a + n then BitVec.ofNat 8 (v / 256 ^ (b - a)) else m b

theorem put_outside (h : b < a ∨ a + n ≤ b) : put m a n v b = m b := if_neg (by omega)

theorem get_congr : ∀ {a n : ℕ}, (∀ b, a ≤ b → b < a + n → m' b = m b) → get m' a n = get m a n
  | _, 0, _ => rfl
  | a, n + 1, h => by
    rw [get_succ, get_succ, h a le_rfl (by omega),
      get_congr fun b h1 h2 => h b (by omega) (by omega)]

/-- A number is read in two parts. -/
theorem get_add (m : Ram) : ∀ a n k : ℕ, get m a (n + k) = get m a n + 256 ^ n * get m (a + n) k
  | a, 0, k => by simp [get]
  | a, n + 1, k => by
    rw [show n + 1 + k = n + k + 1 by omega, get_succ, get_succ, get_add m (a + 1) n k,
      show a + 1 + n = a + (n + 1) by omega, pow_succ]
    ring

/-- The part of a stored number that lies `i` bytes in. -/
theorem get_put_part (i : ℕ) : ∀ k, i + k ≤ n → get (put m a n v) (a + i) k = v / 256 ^ i % 256 ^ k
  | 0, _ => by rw [pow_zero, Nat.mod_one]; rfl
  | k + 1, h => by
    have hbyte : put m a n v (a + i) = BitVec.ofNat 8 (v / 256 ^ i) := by
      unfold put
      rw [if_pos ⟨by omega, by omega⟩, Nat.add_sub_cancel_left]
    have hrest := get_put_part (i + 1) k (by omega)
    rw [get_succ, hbyte, BitVec.toNat_ofNat, Nat.add_assoc, hrest,
      pow_succ 256 i, ← Nat.div_div_eq_div_mul,
      show 256 ^ (k + 1) = 256 * 256 ^ k by rw [pow_succ, Nat.mul_comm], Nat.mod_mul]

theorem get_put (m : Ram) (a n v : ℕ) : get (put m a n v) a n = v % 256 ^ n := by
  have h := get_put_part (m := m) (a := a) (n := n) (v := v) 0 n (by omega)
  rwa [pow_zero, Nat.div_one, Nat.add_zero] at h

/-- A register, stored and read back. -/
theorem get_put_word (m : Ram) (a : ℕ) (v : BitVec 64) : get (put m a 8 v.toNat) a 8 = v.toNat := by
  rw [get_put]
  exact Nat.mod_eq_of_lt v.isLt

theorem get_put_other (h : b + k ≤ a ∨ a + n ≤ b) : get (put m a n v) b k = get m b k :=
  get_congr fun _ h1 h2 => put_outside (by omega)

/-! ## Records -/

/-- The fields of a packed record at `a`. -/
def fields (m : Ram) : ℕ → List ℕ → List ℕ
  | _, [] => []
  | a, w :: ws => get m a w :: fields m (a + w) ws

theorem fields_cons (m : Ram) (a w : ℕ) (ws : List ℕ) :
    fields m a (w :: ws) = get m a w :: fields m (a + w) ws := rfl

/-- The fields of an array. -/
theorem getElem?_fields (m : Ram) (w : ℕ) : ∀ (a n i : ℕ), i < n →
    (fields m a (List.replicate n w))[i]? = some (get m (a + w * i) w)
  | a, n + 1, 0, _ => rfl
  | a, n + 1, i + 1, h => by
    rw [List.replicate_succ, fields_cons, List.getElem?_cons_succ,
      getElem?_fields m w (a + w) n i (by omega), Nat.mul_succ, Nat.add_assoc, Nat.add_comm w]

/-- The fields of a packed record at `a`, stored in order: widths and values. -/
def putFields : Ram → ℕ → List (ℕ × ℕ) → Ram
  | m, _, [] => m
  | m, a, (w, v) :: fs => putFields (put m a w v) (a + w) fs

/-- The length of a record. -/
def span (fs : List (ℕ × ℕ)) : ℕ := (fs.map Prod.fst).sum

theorem putFields_outside : ∀ {m : Ram} {a b : ℕ} {fs : List (ℕ × ℕ)}, b < a ∨ a + span fs ≤ b →
    putFields m a fs b = m b
  | _, _, _, [], _ => rfl
  | m, a, b, (w, v) :: fs, h => by
    have hspan : span ((w, v) :: fs) = w + span fs := by simp [span]
    rw [hspan] at h
    unfold putFields
    rw [putFields_outside (by omega), put_outside (by omega)]

theorem fields_congr : ∀ {a : ℕ} {ws : List ℕ}, (∀ b, a ≤ b → b < a + ws.sum → m' b = m b) →
    fields m' a ws = fields m a ws
  | _, [], _ => rfl
  | a, w :: ws, h => by
    rw [List.sum_cons] at h
    rw [fields_cons, fields_cons, get_congr fun b h1 h2 => h b h1 (by omega),
      fields_congr fun b h1 h2 => h b (by omega) (by omega)]

/-- The number over a whole record. -/
def join : List (ℕ × ℕ) → ℕ
  | [] => 0
  | (w, v) :: fs => v % 256 ^ w + 256 ^ w * join fs

theorem get_putFields :
    ∀ (m : Ram) (a : ℕ) (fs : List (ℕ × ℕ)), get (putFields m a fs) a (span fs) = join fs
  | _, _, [] => rfl
  | m, a, (w, v) :: fs => by
    have hfirst : get (putFields (put m a w v) (a + w) fs) a w = v % 256 ^ w := by
      rw [← get_put m a w v]
      exact get_congr fun b _ h2 => putFields_outside (Or.inl h2)
    have hspan : span ((w, v) :: fs) = w + span fs := by simp [span]
    unfold putFields join
    rw [hspan, get_add, hfirst, get_putFields]

/-- A number stored right below a record becomes its first field. -/
theorem fields_put_below (m : Ram) (a w v : ℕ) (ws : List ℕ) :
    fields (put m a w v) a (w :: ws) = v % 256 ^ w :: fields m (a + w) ws := by
  rw [fields_cons, get_put, fields_congr fun b h1 _ => put_outside (Or.inr h1)]

end Bytes
