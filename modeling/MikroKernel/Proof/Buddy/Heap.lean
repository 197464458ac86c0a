import MikroKernel.Alloc.Buddy
import MikroKernel.Lib.Bits
import MikroKernel.Lib.Tiling

/-!
# The buddy allocator without memory

What `buddy_kalloc` and `buddy_kfree` do to eleven lists of block addresses and a table of
bits, and what that does to the partition of the managed range. `Refine.lean` shows that the
code computes these functions on the lists and bits that memory represents.

**The partition** (`Partition`) counts the free blocks and the blocks in somebody's hands: every
address of the range lies in exactly one. Allocation keeps it from any state. A free keeps it
when each merge it decides on joins the block with a sibling that is really on the list of that
order (`MergeSound`); the bit it goes by says so only if it was kept up to date.

Of the partition the code needs only that the blocks are aligned and apart (`Packed`).
-/

set_option autoImplicit false

namespace MikroKernel
namespace Buddy

open Tiling

/-- A block by its address and order. -/
structure Chunk where
  addr : Nat
  order : Nat
deriving DecidableEq, Repr

def Chunk.len (c : Chunk) : Nat := chunkBytes c.order

/-- The allocator's lists and bits. -/
structure Heap where
  free : Nat → List Nat
  bit : Nat → Bool

/-! ## Block arithmetic -/

theorem chunkBytes_eq (k : Nat) : chunkBytes k = 2 ^ (12 + k) := by
  unfold chunkBytes pageSize
  rw [show (0x1000 : Nat) = 2 ^ 12 from rfl, ← Nat.pow_add, Nat.add_comm]

theorem chunkBytes_pos (k : Nat) : 0 < chunkBytes k := by
  rw [chunkBytes_eq]
  exact Nat.two_pow_pos _

theorem chunkBytes_succ (k : Nat) : chunkBytes (k + 1) = chunkBytes k + chunkBytes k := by
  rw [chunkBytes_eq, chunkBytes_eq, show 12 + (k + 1) = 12 + k + 1 from rfl, Nat.pow_succ]
  omega

theorem chunkBytes_dvd {j k : Nat} (h : j ≤ k) : chunkBytes j ∣ chunkBytes k := by
  rw [chunkBytes_eq, chunkBytes_eq]
  exact Nat.pow_dvd_pow 2 (by omega)

theorem chunkBytes_le {j k : Nat} (h : j ≤ k) : chunkBytes j ≤ chunkBytes k :=
  Nat.le_of_dvd (chunkBytes_pos k) (chunkBytes_dvd h)

theorem chunkBytes_ten : chunkBytes 10 = 4194304 := by
  rw [chunkBytes_eq]
  norm_num

/-- The other block of the pair, by the source's `^`. -/
def sibling (c k : Nat) : Nat := c ^^^ chunkBytes k

/-- The lower of the two, where the joined block starts. -/
def parent (c k : Nat) : Nat := if sibling c k < c then sibling c k else c

theorem sibling_eq {c k : Nat} (h : chunkBytes k ∣ c) :
    sibling c k = if c / chunkBytes k % 2 = 0 then c + chunkBytes k else c - chunkBytes k := by
  unfold sibling
  rw [chunkBytes_eq] at h ⊢
  exact Bits.xor_two_pow h

/-- A block and its sibling are neighbours, and the lower one is aligned for the next order. -/
theorem pair_cases {c k : Nat} (h : chunkBytes k ∣ c) :
    (parent c k = c ∧ sibling c k = c + chunkBytes k ∧ chunkBytes (k + 1) ∣ c) ∨
    (parent c k = sibling c k ∧ c = sibling c k + chunkBytes k ∧
      chunkBytes (k + 1) ∣ sibling c k) := by
  obtain ⟨q, rfl⟩ := h
  have hpos := chunkBytes_pos k
  have hs := sibling_eq (c := chunkBytes k * q) (k := k) ⟨q, rfl⟩
  rw [Nat.mul_div_cancel_left q hpos] at hs
  unfold parent
  rcases Nat.even_or_odd' q with ⟨r, hr | hr⟩
  · left
    rw [if_pos (by omega)] at hs
    refine ⟨?_, hs, r, ?_⟩
    · rw [hs, if_neg (by omega)]
    · rw [chunkBytes_succ, hr]
      ring
  · right
    rw [if_neg (by omega)] at hs
    have hle : chunkBytes k ≤ chunkBytes k * q := Nat.le_mul_of_pos_right _ (by omega)
    refine ⟨?_, by omega, r, ?_⟩
    · rw [if_pos (by omega)]
    · rw [hs, hr, chunkBytes_succ]
      have : chunkBytes k * (2 * r + 1) = (chunkBytes k + chunkBytes k) * r + chunkBytes k := by
        ring
      omega

theorem parent_dvd {c k : Nat} (h : chunkBytes k ∣ c) : chunkBytes (k + 1) ∣ parent c k := by
  rcases pair_cases h with ⟨hp, _, hd⟩ | ⟨hp, _, hd⟩ <;> rw [hp] <;> exact hd

/-! ## The blocks on the lists -/

/-- All free blocks, each with the order of its list. -/
def freeChunks (free : Nat → List Nat) : Multiset Chunk :=
  ∑ k ∈ Finset.range 11, ((free k : Multiset Nat).map (Chunk.mk · k))

variable {free : Nat → List Nat}

theorem mem_freeChunks {c : Chunk} :
    c ∈ freeChunks free ↔ c.order ≤ 10 ∧ c.addr ∈ free c.order := by
  unfold freeChunks
  rw [Multiset.mem_sum]
  constructor
  · rintro ⟨k, hk, hc⟩
    obtain ⟨a, ha, rfl⟩ := Multiset.mem_map.mp hc
    exact ⟨Nat.le_of_lt_succ (Finset.mem_range.mp hk), Multiset.mem_coe.mp ha⟩
  · rintro ⟨hk, ha⟩
    exact ⟨c.order, Finset.mem_range.mpr (by omega),
      Multiset.mem_map.mpr ⟨c.addr, Multiset.mem_coe.mpr ha, rfl⟩⟩

/-- One list changes, the others stay. -/
theorem freeChunks_update (free : Nat → List Nat) {k : Nat} (hk : k ≤ 10) (l : List Nat) :
    freeChunks (Function.update free k l) + (free k : Multiset Nat).map (Chunk.mk · k)
      = freeChunks free + (l : Multiset Nat).map (Chunk.mk · k) := by
  have hmem : k ∈ Finset.range 11 := Finset.mem_range.mpr (by omega)
  unfold freeChunks
  rw [← Finset.add_sum_erase _ _ hmem, ← Finset.add_sum_erase _ _ hmem, Function.update_self]
  have hrest : ∑ j ∈ (Finset.range 11).erase k,
      ((Function.update free k l j : List Nat) : Multiset Nat).map (Chunk.mk · j)
        = ∑ j ∈ (Finset.range 11).erase k, ((free j : Multiset Nat).map (Chunk.mk · j)) := by
    refine Finset.sum_congr rfl (fun j hj => ?_)
    rw [Function.update_of_ne (Finset.ne_of_mem_erase hj)]
  rw [hrest]
  abel

theorem freeChunks_cons (free : Nat → List Nat) {k b : Nat} (hk : k ≤ 10) :
    freeChunks (Function.update free k (b :: free k)) = ⟨b, k⟩ ::ₘ freeChunks free := by
  have h := freeChunks_update free hk (b :: free k)
  rw [← Multiset.cons_coe, Multiset.map_cons, Multiset.add_cons, ← Multiset.cons_add] at h
  exact add_right_cancel h

theorem freeChunks_erase {k b : Nat} (hk : k ≤ 10) (hb : b ∈ free k) :
    ⟨b, k⟩ ::ₘ freeChunks (Function.update free k ((free k).erase b)) = freeChunks free := by
  have h := freeChunks_cons (Function.update free k ((free k).erase b)) (b := b) hk
  rw [← h, Function.update_self, Function.update_idem]
  -- the list with `b` moved to its front has the same blocks
  have h2 := freeChunks_update free hk (b :: (free k).erase b)
  have hperm : ((b :: (free k).erase b : List Nat) : Multiset Nat) = (free k : Multiset Nat) :=
    Multiset.coe_eq_coe.mpr (List.perm_cons_erase hb).symm
  rw [hperm] at h2
  exact add_right_cancel h2

/-! ## The partition -/

/-- Every address of the managed range is in exactly one block, free or owned, and every block
is aligned to its own size. -/
structure Partition (base size : Nat) (free : Nat → List Nat) (own : Multiset Chunk) : Prop where
  tiles : Tiles Chunk.addr Chunk.len base size (freeChunks free + own)
  aligned : ∀ c ∈ freeChunks free + own, c.order ≤ 10 ∧ chunkBytes c.order ∣ c.addr

variable {base size : Nat} {own : Multiset Chunk}

/-- Only the multiset of all blocks matters: it may be shared out differently. -/
theorem Partition.reown {free' : Nat → List Nat} {own' : Multiset Chunk}
    (h : Partition base size free own) (heq : freeChunks free' + own' = freeChunks free + own) :
    Partition base size free' own' :=
  ⟨heq ▸ h.tiles, fun c hc => h.aligned c (heq ▸ hc)⟩

/-- A block leaves its list and is owned. -/
theorem Partition.take {k b : Nat} (h : Partition base size free own) (hk : k ≤ 10)
    (hb : b ∈ free k) :
    Partition base size (Function.update free k ((free k).erase b)) (⟨b, k⟩ ::ₘ own) := by
  refine h.reown ?_
  rw [← freeChunks_erase hk hb, Multiset.add_cons, Multiset.cons_add]

/-- An owned block goes to the head of its list. -/
theorem Partition.give {k b : Nat} (h : Partition base size free (⟨b, k⟩ ::ₘ own))
    (hk : k ≤ 10) : Partition base size (Function.update free k (b :: free k)) own := by
  refine h.reown ?_
  rw [freeChunks_cons free hk, Multiset.add_cons, Multiset.cons_add]

/-- The halves of an aligned block are aligned. -/
theorem halve_aligned {k b : Nat} {F : Multiset Chunk}
    (ha : ∀ c ∈ F + (⟨b, k + 1⟩ ::ₘ own), c.order ≤ 10 ∧ chunkBytes c.order ∣ c.addr) :
    ∀ c ∈ F + (⟨b, k⟩ ::ₘ ⟨b + chunkBytes k, k⟩ ::ₘ own),
      c.order ≤ 10 ∧ chunkBytes c.order ∣ c.addr := by
  obtain ⟨hk, hd⟩ := ha ⟨b, k + 1⟩ (by simp)
  have hdk : chunkBytes k ∣ b := Nat.dvd_trans (chunkBytes_dvd (Nat.le_succ k)) hd
  rw [Multiset.add_cons] at ha
  intro c hc
  rw [Multiset.add_cons, Multiset.add_cons] at hc
  rcases Multiset.mem_cons.mp hc with rfl | hc
  · exact ⟨Nat.le_of_succ_le hk, hdk⟩
  · rcases Multiset.mem_cons.mp hc with rfl | hc
    · exact ⟨Nat.le_of_succ_le hk, Nat.dvd_add hdk (Nat.dvd_refl _)⟩
    · exact ha c (Multiset.mem_cons_of_mem hc)

/-- The block a pair makes up is aligned. -/
theorem join_aligned {k b : Nat} {F : Multiset Chunk} (hk : k < 10)
    (ha : ∀ c ∈ F + (⟨b, k⟩ ::ₘ ⟨sibling b k, k⟩ ::ₘ own),
      c.order ≤ 10 ∧ chunkBytes c.order ∣ c.addr) :
    ∀ c ∈ F + (⟨parent b k, k + 1⟩ ::ₘ own), c.order ≤ 10 ∧ chunkBytes c.order ∣ c.addr := by
  have hd : chunkBytes k ∣ b := (ha ⟨b, k⟩ (by simp)).2
  rw [Multiset.add_cons, Multiset.add_cons] at ha
  intro c hc
  rw [Multiset.add_cons] at hc
  rcases Multiset.mem_cons.mp hc with rfl | hc
  · exact ⟨hk, parent_dvd hd⟩
  · exact ha c (by simp [hc])

theorem Partition.halve {k b : Nat} (h : Partition base size free (⟨b, k + 1⟩ ::ₘ own)) :
    Partition base size free (⟨b, k⟩ ::ₘ ⟨b + chunkBytes k, k⟩ ::ₘ own) := by
  obtain ⟨ht, ha⟩ := h
  rw [Multiset.add_cons] at ht
  refine ⟨?_, halve_aligned ha⟩
  rw [Multiset.add_cons, Multiset.add_cons]
  exact ht.cut rfl rfl (chunkBytes_succ k) (chunkBytes_pos k) (chunkBytes_pos k)

/-- An owned pair is joined at the lower address. -/
theorem Partition.join {k b : Nat} (hk : k < 10)
    (h : Partition base size free (⟨b, k⟩ ::ₘ ⟨sibling b k, k⟩ ::ₘ own)) :
    Partition base size free (⟨parent b k, k + 1⟩ ::ₘ own) := by
  obtain ⟨ht, ha⟩ := h
  have hd : chunkBytes k ∣ b := (ha ⟨b, k⟩ (by simp)).2
  refine ⟨?_, join_aligned hk ha⟩
  rw [Multiset.add_cons, Multiset.add_cons] at ht
  rw [Multiset.add_cons]
  rcases pair_cases hd with ⟨hp, hs, -⟩ | ⟨hp, hs, -⟩
  · rw [hp]
    exact ht.join rfl hs (chunkBytes_succ k)
  · rw [Multiset.cons_swap] at ht
    rw [hp]
    exact ht.join rfl hs (chunkBytes_succ k)

theorem Partition.inside {c : Chunk} (h : Partition base size free own)
    (hc : c ∈ freeChunks free + own) :
    base ≤ c.addr ∧ c.addr + chunkBytes c.order ≤ base + size := h.tiles.inside c hc

/-! ## Blocks that are apart -/

/-- The blocks, free or owned, lie in `R`, are aligned to their sizes and share no address. -/
structure Packed (R : Nat → Prop) (free : Nat → List Nat) (own : Multiset Chunk) : Prop where
  packs : Packs Chunk.addr Chunk.len R (freeChunks free + own)
  aligned : ∀ c ∈ freeChunks free + own, c.order ≤ 10 ∧ chunkBytes c.order ∣ c.addr

theorem Partition.packed (h : Partition base size free own) :
    Packed (fun p => base ≤ p ∧ p < base + size) free own := ⟨h.tiles.packs, h.aligned⟩

variable {R : Nat → Prop}

theorem Packed.reown {free' : Nat → List Nat} {own' : Multiset Chunk} (h : Packed R free own)
    (heq : freeChunks free' + own' = freeChunks free + own) : Packed R free' own' :=
  ⟨heq ▸ h.packs, fun c hc => h.aligned c (heq ▸ hc)⟩

theorem Packed.le {own' : Multiset Chunk} (h : Packed R free own) (hle : own' ≤ own) :
    Packed R free own' := by
  have hall : freeChunks free + own' ≤ freeChunks free + own := add_le_add_right hle _
  exact ⟨h.packs.le hall, fun c hc => h.aligned c (Multiset.mem_of_le hall hc)⟩

theorem Packed.take {k b : Nat} (h : Packed R free own) (hk : k ≤ 10) (hb : b ∈ free k) :
    Packed R (Function.update free k ((free k).erase b)) (⟨b, k⟩ ::ₘ own) := by
  refine h.reown ?_
  rw [← freeChunks_erase hk hb, Multiset.add_cons, Multiset.cons_add]

theorem Packed.give {k b : Nat} (h : Packed R free (⟨b, k⟩ ::ₘ own)) (hk : k ≤ 10) :
    Packed R (Function.update free k (b :: free k)) own := by
  refine h.reown ?_
  rw [freeChunks_cons free hk, Multiset.add_cons, Multiset.cons_add]

theorem Packed.halve {k b : Nat} (h : Packed R free (⟨b, k + 1⟩ ::ₘ own)) :
    Packed R free (⟨b, k⟩ ::ₘ ⟨b + chunkBytes k, k⟩ ::ₘ own) := by
  obtain ⟨ht, ha⟩ := h
  rw [Multiset.add_cons] at ht
  refine ⟨?_, halve_aligned ha⟩
  rw [Multiset.add_cons, Multiset.add_cons]
  exact ht.cut rfl rfl (chunkBytes_succ k) (chunkBytes_pos k) (chunkBytes_pos k)

theorem Packed.join {k b : Nat} (hk : k < 10)
    (h : Packed R free (⟨b, k⟩ ::ₘ ⟨sibling b k, k⟩ ::ₘ own)) :
    Packed R free (⟨parent b k, k + 1⟩ ::ₘ own) := by
  obtain ⟨ht, ha⟩ := h
  have hd : chunkBytes k ∣ b := (ha ⟨b, k⟩ (by simp)).2
  refine ⟨?_, join_aligned hk ha⟩
  rw [Multiset.add_cons, Multiset.add_cons] at ht
  rw [Multiset.add_cons]
  rcases pair_cases hd with ⟨hp, hs, -⟩ | ⟨hp, hs, -⟩
  · rw [hp]
    exact ht.join rfl hs (chunkBytes_succ k)
  · rw [Multiset.cons_swap] at ht
    rw [hp]
    exact ht.join rfl hs (chunkBytes_succ k)

/-- Two free blocks at one address are one block. -/
theorem Packed.free_inj {a j k : Nat} (h : Packed R free own) (hj : j ≤ 10) (hk : k ≤ 10)
    (haj : a ∈ free j) (hak : a ∈ free k) : j = k := by
  have hb : (⟨a, j⟩ : Chunk) ∈ freeChunks free + own :=
    Multiset.mem_add.mpr (Or.inl (mem_freeChunks.mpr ⟨hj, haj⟩))
  have hc : (⟨a, k⟩ : Chunk) ∈ freeChunks free + own :=
    Multiset.mem_add.mpr (Or.inl (mem_freeChunks.mpr ⟨hk, hak⟩))
  have heq := h.packs.eq_of_covers (p := a) hb hc
    ⟨Nat.le_refl _, Nat.lt_add_of_pos_right (chunkBytes_pos j)⟩
    ⟨Nat.le_refl _, Nat.lt_add_of_pos_right (chunkBytes_pos k)⟩
  exact congrArg Chunk.order heq

/-- An owned block is apart from every free one. -/
theorem Packed.own_apart {c : Chunk} {a k : Nat} (h : Packed R free own) (hc : c ∈ own)
    (hk : k ≤ 10) (ha : a ∈ free k) :
    a + chunkBytes k ≤ c.addr ∨ c.addr + chunkBytes c.order ≤ a := by
  obtain ⟨own', rfl⟩ := Multiset.exists_cons_of_mem hc
  have ht := h.packs
  rw [← freeChunks_erase hk ha, Multiset.add_cons, Multiset.cons_add, Multiset.cons_swap] at ht
  exact ht.apart

theorem Packed.own_not_free {b j k : Nat} (h : Packed R free (⟨b, j⟩ ::ₘ own)) (hk : k ≤ 10) :
    b ∉ free k := by
  intro hb
  have hpos := chunkBytes_pos j
  have hpos' := chunkBytes_pos k
  rcases h.own_apart (Multiset.mem_cons_self _ _) hk hb with hle | hle
  · exact absurd hle (by simp only; omega)
  · exact absurd hle (by simp only; omega)

theorem Packed.nodup {k : Nat} (h : Packed R free own) (hk : k ≤ 10) : (free k).Nodup := by
  rw [List.nodup_iff_count_le_one]
  intro a
  by_contra hcount
  have ha : a ∈ free k := List.count_pos_iff.mp (by omega)
  have ha' : a ∈ (free k).erase a := List.count_pos_iff.mp (by rw [List.count_erase_self]; omega)
  have h' := h.take hk ha
  exact h'.own_not_free hk (by rw [Function.update_self]; exact ha')

/-! So it is for the blocks of a partition. -/

theorem Partition.own_apart {c : Chunk} {a k : Nat} (h : Partition base size free own)
    (hc : c ∈ own) (hk : k ≤ 10) (ha : a ∈ free k) :
    a + chunkBytes k ≤ c.addr ∨ c.addr + chunkBytes c.order ≤ a := h.packed.own_apart hc hk ha

theorem Partition.own_not_free {b j k : Nat} (h : Partition base size free (⟨b, j⟩ ::ₘ own))
    (hk : k ≤ 10) : b ∉ free k := h.packed.own_not_free hk

theorem Partition.nodup {k : Nat} (h : Partition base size free own) (hk : k ≤ 10) :
    (free k).Nodup := h.packed.nodup hk

/-! ## The two operations

`pos c k` is the bit position of the pair a block of order `k` at `c` belongs to. -/

namespace Heap

def push (h : Heap) (k b : Nat) : Heap :=
  { h with free := Function.update h.free k (b :: h.free k) }

def drop (h : Heap) (k b : Nat) : Heap :=
  { h with free := Function.update h.free k ((h.free k).erase b) }

def flip (h : Heap) (p : Nat) : Heap :=
  { h with bit := Function.update h.bit p (!h.bit p) }

@[simp] theorem flip_free (h : Heap) (p : Nat) : (h.flip p).free = h.free := rfl

@[simp] theorem push_bit (h : Heap) (k b : Nat) : (h.push k b).bit = h.bit := rfl

@[simp] theorem drop_bit (h : Heap) (k b : Nat) : (h.drop k b).bit = h.bit := rfl

/-- The upper halves of a block at `c`, from the given level down to `order`, go to their
lists. -/
def split (c order : Nat) : Nat → Heap → Heap
  | 0, h => h
  | level + 1, h =>
      if level + 1 > order then split c order level (h.push level (c + chunkBytes level)) else h

variable (pos : Nat → Nat → Nat)

/-- `buddy_kalloc` once the order is known, with `n` lists to look at from `idx` on. -/
def alloc (order : Nat) : Nat → Nat → Heap → Nat × Heap
  | 0, _, h => (0, h)
  | n + 1, idx, h =>
      match h.free idx with
      | [] => alloc order n (idx + 1) h
      | c :: _ => (c, (split c order idx (h.drop idx c)).flip (pos c order))

/-- The merge loop of `buddy_kfree`, with `n` orders to go. -/
def merge : Nat → Nat → Nat → Heap → Chunk × Heap
  | 0, c, k, h => (⟨c, k⟩, h)
  | n + 1, c, k, h =>
      if h.bit (pos c k) = false then (⟨c, k⟩, h.flip (pos c k))
      else merge n (parent c k) (k + 1) ((h.flip (pos c k)).drop k (sibling c k))

/-- `buddy_kfree` once the order is known. -/
def release (c order : Nat) (h : Heap) : Heap :=
  let r := merge pos (10 - order) c order (if order = 10 then h.flip (pos c order) else h)
  r.2.push r.1.order r.1.addr

end Heap

/-- **The merges a free decides on are sound**: going up from the block, as long as the pair's
bit is set, the sibling is on the free list of that order. The bits are those the loop sees, with
its own earlier toggles in them; the lists are those before the call. -/
def MergeSound (pos : Nat → Nat → Nat) (onList : Nat → Nat → Prop) :
    Nat → (Nat → Bool) → Nat → Nat → Prop
  | 0, _, _, _ => True
  | n + 1, bit, c, k =>
      bit (pos c k) = true → onList k (sibling c k) ∧
        MergeSound pos onList n (Function.update bit (pos c k) (!bit (pos c k)))
        (parent c k) (k + 1)

/-- Whether they are can be computed. -/
instance MergeSound.decidable (pos : Nat → Nat → Nat) (onList : Nat → Nat → Prop)
    [∀ k a, Decidable (onList k a)] : ∀ (n : Nat) (bit : Nat → Bool) (c k : Nat),
      Decidable (MergeSound pos onList n bit c k)
  | 0, _, _, _ => .isTrue trivial
  | n + 1, bit, c, k =>
      have := MergeSound.decidable pos onList n (Function.update bit (pos c k) (!bit (pos c k)))
        (parent c k) (k + 1)
      inferInstanceAs
        (Decidable (bit (pos c k) = true → onList k (sibling c k) ∧
          MergeSound pos onList n (Function.update bit (pos c k) (!bit (pos c k)))
            (parent c k) (k + 1)))

/-- Lists of smaller orders do not matter. -/
theorem MergeSound.mono {pos : Nat → Nat → Nat} {P Q : Nat → Nat → Prop} :
    ∀ {n : Nat} {bit : Nat → Bool} {c k : Nat}, MergeSound pos P n bit c k →
      (∀ j a, k ≤ j → j < k + n → P j a → Q j a) → MergeSound pos Q n bit c k
  | 0, _, _, _, _, _ => trivial
  | n + 1, _, _, k, h, hPQ => fun hbit =>
      ⟨hPQ k _ (Nat.le_refl k) (by omega) (h hbit).1,
        (h hbit).2.mono (fun j a hj hn => hPQ j a (by omega) (by omega))⟩

/-! ## What they do to the partition -/

variable {h : Heap} {pos : Nat → Nat → Nat}

/-- A split puts upper halves on their lists, one at a time. -/
theorem Heap.split_keeps {P : (Nat → List Nat) → Chunk → Prop} {c order : Nat}
    (hhalf : ∀ {free level}, P free ⟨c, level + 1⟩ →
      P (Function.update free level ((c + chunkBytes level) :: free level)) ⟨c, level⟩) :
    ∀ {level : Nat} {h : Heap}, P h.free ⟨c, level⟩ → order ≤ level →
      P (Heap.split c order level h).free ⟨c, order⟩
  | 0, _, hp, hle => by
    obtain rfl : order = 0 := by omega
    exact hp
  | level + 1, h, hp, hle => by
    unfold Heap.split
    split
    · exact Heap.split_keeps hhalf (h := h.push level (c + chunkBytes level)) (hhalf hp) (by omega)
    · obtain rfl : order = level + 1 := by omega
      exact hp

theorem Heap.split_bit {c order : Nat} :
    ∀ {level : Nat} {h : Heap}, (Heap.split c order level h).bit = h.bit
  | 0, _ => rfl
  | level + 1, h => by
    unfold Heap.split
    split
    · exact Heap.split_bit
    · rfl

theorem Heap.split_self (c order : Nat) : ∀ (h : Heap), Heap.split c order order h = h := by
  intro h
  cases order with
  | zero => rfl
  | succ order =>
    unfold Heap.split
    exact if_neg (by omega)

theorem Partition.split {c order level : Nat} (hp : Partition base size h.free (⟨c, level⟩ ::ₘ own))
    (hle : order ≤ level) :
    Partition base size (Heap.split c order level h).free (⟨c, order⟩ ::ₘ own) := by
  refine Heap.split_keeps (P := fun free b => Partition base size free (b ::ₘ own)) ?_ hp hle
  intro free level hp
  have hk := (hp.aligned ⟨c, level + 1⟩ (by simp)).1
  have hhalf := hp.halve
  rw [Multiset.cons_swap] at hhalf
  exact hhalf.give (Nat.le_of_succ_le hk)

theorem Packed.split {c order level : Nat} (hp : Packed R h.free (⟨c, level⟩ ::ₘ own))
    (hle : order ≤ level) : Packed R (Heap.split c order level h).free (⟨c, order⟩ ::ₘ own) := by
  refine Heap.split_keeps (P := fun free b => Packed R free (b ::ₘ own)) ?_ hp hle
  intro free level hp
  have hk := (hp.aligned ⟨c, level + 1⟩ (by simp)).1
  have hhalf := hp.halve
  rw [Multiset.cons_swap] at hhalf
  exact hhalf.give (Nat.le_of_succ_le hk)

/-- What an allocation takes from the lists: a block of the first list that has one. -/
theorem Heap.alloc_cases (pos : Nat → Nat → Nat) (order : Nat) : ∀ {n idx : Nat}, idx + n = 11 →
    (Heap.alloc pos order n idx h = (0, h) ∧ ∀ j, idx ≤ j → j ≤ 10 → h.free j = []) ∨
    ∃ c j, idx ≤ j ∧ j ≤ 10 ∧ c ∈ h.free j ∧ (∀ i, idx ≤ i → i < j → h.free i = []) ∧
      Heap.alloc pos order n idx h
      = (c, (Heap.split c order j (h.drop j c)).flip (pos c order)) := by
  intro n
  induction n with
  | zero => exact fun {idx} hn => Or.inl ⟨rfl, fun j h1 h2 => by omega⟩
  | succ n ih =>
    intro idx hn
    unfold Heap.alloc
    cases hl : h.free idx with
    | cons c rest =>
      exact Or.inr ⟨c, idx, Nat.le_refl _, by omega, by rw [hl]; exact List.mem_cons_self,
        fun i h1 h2 => by omega, rfl⟩
    | nil =>
      rcases ih (show idx + 1 + n = 11 by omega) with ⟨heq, hnone⟩ | ⟨c, j, h1, h2, h3, hfirst, heq⟩
      · refine Or.inl ⟨heq, fun j h1 h2 => ?_⟩
        rcases Nat.eq_or_lt_of_le h1 with rfl | hlt
        · exact hl
        · exact hnone j hlt h2
      · refine Or.inr ⟨c, j, by omega, h2, h3, fun i hi1 hi2 => ?_, heq⟩
        rcases Nat.eq_or_lt_of_le hi1 with rfl | hlt
        · exact hl
        · exact hfirst i hlt hi2

/-- **Allocation keeps the partition**: the block returned is owned, or there was none. -/
theorem Partition.alloc {order n idx : Nat} (hp : Partition base size h.free own)
    (hle : order ≤ idx) (hn : idx + n = 11) :
    (Heap.alloc pos order n idx h = (0, h) ∧ ∀ j, idx ≤ j → j ≤ 10 → h.free j = []) ∨
    ∃ c j, idx ≤ j ∧ j ≤ 10 ∧ c ∈ h.free j ∧ (∀ i, idx ≤ i → i < j → h.free i = []) ∧
      Heap.alloc pos order n idx h
        = (c, (Heap.split c order j (h.drop j c)).flip (pos c order)) ∧
      Partition base size (Heap.alloc pos order n idx h).2.free (⟨c, order⟩ ::ₘ own) := by
  rcases Heap.alloc_cases (h := h) pos order hn with hnone | ⟨c, j, h1, h2, h3, hfirst, heq⟩
  · exact Or.inl hnone
  · refine Or.inr ⟨c, j, h1, h2, h3, hfirst, heq, ?_⟩
    rw [heq]
    exact (hp.take h2 h3).split (h := h.drop j c) (Nat.le_trans hle h1)

/-- A free takes siblings off their lists, one at a time. -/
theorem Heap.merge_keeps {P : (Nat → List Nat) → Chunk → Prop}
    (hjoin : ∀ {free c k}, k < 10 → sibling c k ∈ free k → P free ⟨c, k⟩ →
      P (Function.update free k ((free k).erase (sibling c k))) ⟨parent c k, k + 1⟩) :
    ∀ {n c k : Nat} {h : Heap}, P h.free ⟨c, k⟩ → k + n = 10 →
      MergeSound pos (fun j a => a ∈ h.free j) n h.bit c k →
      P (Heap.merge pos n c k h).2.free (Heap.merge pos n c k h).1
  | 0, _, _, _, hp, _, _ => hp
  | n + 1, c, k, h, hp, hn, hs => by
    unfold Heap.merge
    split
    · exact hp
    · rename_i hbit
      obtain ⟨hon, hrest⟩ := hs (by simpa using hbit)
      refine Heap.merge_keeps hjoin (h := (h.flip (pos c k)).drop k (sibling c k))
        (hjoin (by omega) hon hp) (by omega) (hrest.mono ?_)
      intro j a hj hj' ha
      show a ∈ Function.update h.free k ((h.free k).erase (sibling c k)) j
      rwa [Function.update_of_ne (by omega)]

/-- **A free with sound merges keeps the partition.** -/
theorem Partition.merge {n c k : Nat} (hp : Partition base size h.free (⟨c, k⟩ ::ₘ own))
    (hn : k + n = 10) (hs : MergeSound pos (fun j a => a ∈ h.free j) n h.bit c k) :
    Partition base size (Heap.merge pos n c k h).2.free ((Heap.merge pos n c k h).1 ::ₘ own) := by
  refine Heap.merge_keeps (P := fun free b => Partition base size free (b ::ₘ own)) ?_ hp hn hs
  intro free c k hk hon hp
  have htake := hp.take (by omega) hon
  rw [Multiset.cons_swap] at htake
  exact htake.join hk

theorem Packed.merge {n c k : Nat} (hp : Packed R h.free (⟨c, k⟩ ::ₘ own)) (hn : k + n = 10)
    (hs : MergeSound pos (fun j a => a ∈ h.free j) n h.bit c k) :
    Packed R (Heap.merge pos n c k h).2.free ((Heap.merge pos n c k h).1 ::ₘ own) := by
  refine Heap.merge_keeps (P := fun free b => Packed R free (b ::ₘ own)) ?_ hp hn hs
  intro free c k hk hon hp
  have htake := hp.take (by omega) hon
  rw [Multiset.cons_swap] at htake
  exact htake.join hk

theorem Heap.merge_order : ∀ {n c k : Nat} {h : Heap},
    k ≤ (Heap.merge pos n c k h).1.order ∧ (Heap.merge pos n c k h).1.order ≤ k + n
  | 0, _, _, _ => ⟨Nat.le_refl _, Nat.le_refl _⟩
  | n + 1, c, k, h => by
    unfold Heap.merge
    split
    · exact ⟨Nat.le_refl _, Nat.le_add_right _ _⟩
    · have ih := Heap.merge_order (n := n) (c := parent c k) (k := k + 1)
        (h := (h.flip (pos c k)).drop k (sibling c k))
      exact ⟨Nat.le_of_succ_le ih.1, ih.2.trans (by omega)⟩

/-- The toggle before the loop is made at the largest order only, where there is nothing to
merge. -/
theorem MergeSound.entry {c k : Nat}
    (hs : MergeSound pos (fun j a => a ∈ h.free j) (10 - k) h.bit c k) :
    MergeSound pos (fun j a => a ∈ (if k = 10 then h.flip (pos c k) else h).free j) (10 - k)
      (if k = 10 then h.flip (pos c k) else h).bit c k := by
  split
  · rename_i h10
    rw [h10]
    trivial
  · exact hs

theorem Heap.entry_free (h : Heap) (pos : Nat → Nat → Nat) (c k : Nat) :
    (if k = 10 then h.flip (pos c k) else h).free = h.free := by
  split <;> rfl

theorem Partition.release {c order : Nat} (horder : order ≤ 10)
    (hp : Partition base size h.free (⟨c, order⟩ ::ₘ own))
    (hs : MergeSound pos (fun j a => a ∈ h.free j) (10 - order) h.bit c order) :
    Partition base size (Heap.release pos c order h).free own := by
  rw [← Heap.entry_free h pos c order] at hp
  exact (hp.merge (by omega) hs.entry).give (Heap.merge_order.2.trans (by omega))

theorem Packed.release {c order : Nat} (horder : order ≤ 10)
    (hp : Packed R h.free (⟨c, order⟩ ::ₘ own))
    (hs : MergeSound pos (fun j a => a ∈ h.free j) (10 - order) h.bit c order) :
    Packed R (Heap.release pos c order h).free own := by
  rw [← Heap.entry_free h pos c order] at hp
  exact (hp.merge (by omega) hs.entry).give (Heap.merge_order.2.trans (by omega))

end Buddy
end MikroKernel
