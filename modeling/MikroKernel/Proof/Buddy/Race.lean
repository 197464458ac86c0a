import MikroKernel.Proof.Buddy.Runs

/-!
# `buddy_kfree` against `buddy_kalloc`

`buddy_kfree` decides to merge in one critical section (the toggle) and unlinks the sibling in
another, and `buddy_kalloc` pops a block in one section and toggles its bit in another. Here CPU A
frees a block while CPU B allocates one from the list of its own order, a section at a time
(`Config.step`). A schedule says whose turn it is.

The bit that A reads is about lists as they were when the bit was written. **B may have the sibling
by the time A unlinks it**: because B popped it and has not toggled its bit yet when A reads it, or
because B pops it after A has read the bit. A then unlinks a block that is on no list, and puts B's
block back on a list as a part of its own (`merge_takes_allocated_block`). `Clash` lists these
turns, and `claimed_iff_no_clash` says that they are the only ones.
-/

set_option autoImplicit false

namespace MikroKernel
namespace Buddy
namespace Race

open Chain Tiling

/-! ## The machine -/

inductive Cpu
  | freeing | allocating
deriving DecidableEq, Repr

/-- Where CPU A is in `buddy_kfree`, with the block in hand and its order. -/
inductive Freeing
  /-- about to toggle the bit of the pair -/
  | toggle (chunk order : Nat)
  /-- has read 0, about to unlink the sibling -/
  | unlink (chunk order : Nat)
  | insert (chunk order : Nat)
  | done (chunk order : Nat)
  | stopped (why : Stop)
deriving DecidableEq, Repr

/-- Where CPU B is in `buddy_kalloc`, with the block it got. -/
inductive Allocating
  | pop
  | toggle (chunk : Nat)
  | done (chunk : Nat)
  /-- its own list was empty, it goes on to the lists above -/
  | larger
  | stopped (why : Stop)
deriving DecidableEq, Repr

def Allocating.block : Allocating → Option Nat
  | .toggle b => some b
  | .done b => some b
  | _ => none

structure Config where
  s : KState
  a : Freeing
  b : Allocating

/-- The loop condition of `buddy_kfree`. -/
def Freeing.loop (chunk order : Nat) : Freeing :=
  if order < 10 then .toggle chunk order else .insert chunk order

/-- The next critical section of CPU A. At order 10 the bit is toggled and not looked at. -/
def Config.free (L : Layout) (c : Config) : Config :=
  match c.a with
  | .toggle x k =>
    match toggleBitmap x k L c.s with
    | .ok (bit, s') =>
      { c with s := s', a := if k < 10 ∧ bit = 0 then .unlink x k else .insert x k }
    | .error e => { c with a := .stopped e }
  | .unlink x k =>
    match locked .buddyLock (unlinkSection (x ^^^ chunkBytes k) x k) L c.s with
    | .ok (joined, s') => { c with s := s', a := .loop joined (k + 1) }
    | .error e => { c with a := .stopped e }
  | .insert x k =>
    match locked .buddyLock (insertSection x k) L c.s with
    | .ok ((), s') => { c with s := s', a := .done x k }
    | .error e => { c with a := .stopped e }
  | .done _ _ => c
  | .stopped _ => c

/-- The next critical section of CPU B, which asks for a block of the given order. -/
def Config.allocate (L : Layout) (order : Nat) (c : Config) : Config :=
  match c.b with
  | .pop =>
    match locked .buddyLock (popSection order order) L c.s with
    | .ok (chunk, s') => { c with s := s', b := if chunk = 0 then .larger else .toggle chunk }
    | .error e => { c with b := .stopped e }
  | .toggle x =>
    match toggleBitmap x order L c.s with
    | .ok (_, s') => { c with s := s', b := .done x }
    | .error e => { c with b := .stopped e }
  | .done _ => c
  | .larger => c
  | .stopped _ => c

def Config.step (L : Layout) (order : Nat) (c : Config) : Cpu → Config
  | .freeing => c.free L
  | .allocating => c.allocate L order

def Config.run (L : Layout) (order : Nat) (c : Config) (sched : List Cpu) : Config :=
  sched.foldl (Config.step L order) c

/-- `P` holds of each turn of a schedule. -/
def Along (L : Layout) (order : Nat) (P : Config → Cpu → Prop) : Config → List Cpu → Prop
  | _, [] => True
  | c, i :: sched => P c i ∧ Along L order P (c.step L order i) sched

instance Along.decidable (L : Layout) (order : Nat) (P : Config → Cpu → Prop)
    [∀ c i, Decidable (P c i)] :
    ∀ (c : Config) (sched : List Cpu), Decidable (Along L order P c sched)
  | _, [] => isTrue trivial
  | c, i :: sched =>
    have := Along.decidable L order P (c.step L order i) sched
    inferInstanceAs (Decidable (P c i ∧ Along L order P (c.step L order i) sched))

/-! ## The machine is the code

A CPU that is alone runs the call. -/

section Alone

variable {L : Layout} {order x k : Nat} {c : Config} {s' : KState} {e : Stop}

theorem run_cons (c : Config) (i : Cpu) (sched : List Cpu) :
    c.run L order (i :: sched) = (c.step L order i).run L order sched := rfl

theorem free_toggle {bit : Nat} (ha : c.a = .toggle x k)
    (hrun : toggleBitmap x k L c.s = .ok (bit, s')) :
    c.free L = ⟨s', if k < 10 ∧ bit = 0 then .unlink x k else .insert x k, c.b⟩ := by
  unfold Config.free
  rw [ha]
  simp only [hrun]

theorem free_unlink {joined : Nat} (ha : c.a = .unlink x k)
    (hrun : locked .buddyLock (unlinkSection (x ^^^ chunkBytes k) x k) L c.s = .ok (joined, s')) :
    c.free L = ⟨s', .loop joined (k + 1), c.b⟩ := by
  unfold Config.free
  rw [ha]
  simp only [hrun]

theorem free_insert (ha : c.a = .insert x k)
    (hrun : locked .buddyLock (insertSection x k) L c.s = .ok ((), s')) :
    c.free L = ⟨s', .done x k, c.b⟩ := by
  unfold Config.free
  rw [ha]
  simp only [hrun]

/-- CPU A makes no more turns. -/
theorem run_stays (hstay : c.free L = c) :
    ∀ n, c.run L order (List.replicate n .freeing) = c := by
  intro n
  induction n with
  | zero => rfl
  | succ n ih =>
    rw [List.replicate_succ, run_cons]
    show (c.free L).run L order _ = c
    rw [hstay, ih]

/-- A call ended with `r`, and CPU A is where it has to be then. -/
def Ends (r : Except Stop (Unit × KState)) (c : Config) : Prop :=
  match r with
  | .ok (_, s') => c.s = s' ∧ ∃ y k, c.a = .done y k
  | .error e => c.a = .stopped e

theorem ends_error (hfree : c.free L = ⟨c.s, .stopped e, c.b⟩) (n : Nat) :
    Ends (.error e) (c.run L order (List.replicate (n + 1) .freeing)) := by
  rw [List.replicate_succ, run_cons]
  show Ends (.error e) ((c.free L).run L order _)
  rw [hfree, run_stays rfl]
  rfl

theorem insert_alone (ha : c.a = .insert x k) (n : Nat) :
    Ends (locked .buddyLock (insertSection x k) L c.s)
      (c.run L order (List.replicate (n + 1) .freeing)) := by
  cases hrun : locked .buddyLock (insertSection x k) L c.s with
  | error e =>
    refine ends_error ?_ n
    unfold Config.free
    rw [ha]
    simp only [hrun]
  | ok r =>
    obtain ⟨⟨⟩, s'⟩ := r
    rw [List.replicate_succ, run_cons]
    show Ends _ ((c.free L).run L order _)
    rw [free_insert ha hrun, run_stays rfl]
    exact ⟨rfl, x, k, rfl⟩

/-- The merge loop: two sections a round, and the insertion. -/
theorem merge_alone : ∀ {n x k : Nat} {c : Config}, k + n = 10 → c.a = .loop x k →
    Ends ((do
      let joined ← mergeLoop n x k
      locked .buddyLock (insertSection joined.1 joined.2)) L c.s)
      (c.run L order (List.replicate (2 * n + 1) .freeing))
  | 0, x, k, c, hk, ha => by
    unfold Freeing.loop at ha
    rw [if_neg (show ¬ k < 10 by omega)] at ha
    exact insert_alone ha 0
  | n + 1, x, k, c, hk, ha => by
    have hlt : k < 10 := by omega
    unfold Freeing.loop at ha
    rw [if_pos hlt] at ha
    rw [show 2 * (n + 1) + 1 = 2 * n + 1 + 1 + 1 by omega]
    unfold mergeLoop
    simp only [K.bind_apply]
    cases ht : toggleBitmap x k L c.s with
    | error e =>
      refine ends_error ?_ _
      unfold Config.free
      rw [ha]
      simp only [ht]
    | ok r =>
      obtain ⟨bit, s₁⟩ := r
      rw [List.replicate_succ, run_cons]
      show Ends _ ((c.free L).run L order _)
      rw [free_toggle ha ht]
      by_cases hbit : bit = 0
      · -- the sibling is unlinked, and the loop goes on with the joined block
        rw [if_pos ⟨hlt, hbit⟩]
        simp only [hbit, ne_eq, not_true_eq_false, if_false, K.bind_apply]
        cases hu : locked .buddyLock (unlinkSection (x ^^^ chunkBytes k) x k) L s₁ with
        | error e =>
          refine ends_error ?_ _
          unfold Config.free
          simp only [hu]
        | ok r =>
          obtain ⟨joined, s₂⟩ := r
          rw [List.replicate_succ, run_cons]
          show Ends _ (Config.run L order (Config.free L ⟨s₁, .unlink x k, c.b⟩) _)
          rw [free_unlink (c := ⟨s₁, .unlink x k, c.b⟩) rfl hu]
          exact merge_alone (c := ⟨s₂, .loop joined (k + 1), c.b⟩) (by omega) rfl
      · rw [if_neg (fun h => hbit h.2)]
        simp only [ne_eq, hbit, not_false_eq_true, if_true]
        exact insert_alone (c := ⟨s₁, .insert x k, c.b⟩) rfl (2 * n + 1)

/-- **CPU A alone runs `buddy_kfree`.** -/
theorem kfree_alone {base np sz addr : Nat} {h : Heap} (hr : Rep L c.s.mem base np h)
    (hsz0 : sz ≠ 0) (hsz : sz ≤ chunkBytes 10) (haddr : addr ≠ 0)
    (ha : c.a = .toggle addr (orderOf sz)) :
    ∃ n, Ends (buddyKfree addr sz L c.s) (c.run L order (List.replicate n .freeing)) := by
  have h10 := (orderOf_spec hsz).2.1
  have hnot : ¬ (addr = 0 ∨ sz = 0) := by rintro (h0 | h0) <;> contradiction
  have hedit : Edits L c.s.physMapOffset (selectOrder sz) c.s.mem (orderOf sz) c.s.mem :=
    selectOrder_edits (le_of_four_mb hsz)
  have hsel := hedit c.s rfl rfl
  have hmax : load L.kernelEnd .maxOrder L c.s = .ok (10, c.s) :=
    Edits.load (image_metadata L) hr.maxOrder c.s rfl rfl
  unfold buddyKfree
  rw [if_neg hnot]
  simp only [K.bind_apply, kernelEnd_apply, hsel, hmax, if_neg (show ¬ orderOf sz > 10 by omega)]
  by_cases he : orderOf sz = 10
  · -- the loop does not run
    refine ⟨2, ?_⟩
    rw [he] at ha ⊢
    simp only [if_true, K.bind_apply, Nat.sub_self, mergeLoop]
    cases ht : toggleBitmap addr 10 L c.s with
    | error e =>
      refine ends_error ?_ _
      unfold Config.free
      rw [ha]
      simp only [ht]
    | ok r =>
      obtain ⟨bit, s₁⟩ := r
      rw [List.replicate_succ, run_cons]
      show Ends _ ((c.free L).run L order _)
      rw [free_toggle ha ht, if_neg (fun h => absurd h.1 (by omega))]
      exact insert_alone (c := ⟨s₁, .insert addr 10, c.b⟩) rfl 0
  · refine ⟨2 * (10 - orderOf sz) + 1, ?_⟩
    rw [if_neg he]
    refine merge_alone (by omega) ?_
    unfold Freeing.loop
    rw [if_pos (by omega), ha]

/-- **CPU B alone runs `buddy_kalloc`**, when the list of the order has a block. -/
theorem kalloc_alone {base np sz : Nat} {h : Heap} (hr : Rep L c.s.mem base np h)
    (hsz : sz ≤ chunkBytes 10) (hb : c.b = .pop)
    (hpop : ((c.allocate L (orderOf sz)).b) ≠ .larger) :
    match buddyKalloc sz L c.s with
    | .ok (p, s') => c.run L (orderOf sz) [.allocating, .allocating] = ⟨s', c.a, .done p⟩
    | .error e => (c.run L (orderOf sz) [.allocating, .allocating]).b = .stopped e := by
  have h10 := (orderOf_spec hsz).2.1
  have hedit : Edits L c.s.physMapOffset (selectOrder sz) c.s.mem (orderOf sz) c.s.mem :=
    selectOrder_edits (le_of_four_mb hsz)
  have hsel := hedit c.s rfl rfl
  have hmax : load L.kernelEnd .maxOrder L c.s = .ok (10, c.s) :=
    Edits.load (image_metadata L) hr.maxOrder c.s rfl rfl
  show match buddyKalloc sz L c.s with
    | .ok (p, s') => (c.allocate L (orderOf sz)).allocate L (orderOf sz) = ⟨s', c.a, .done p⟩
    | .error e => ((c.allocate L (orderOf sz)).allocate L (orderOf sz)).b = .stopped e
  unfold buddyKalloc
  simp only [K.bind_apply, kernelEnd_apply, hsel, hmax, if_neg (show ¬ orderOf sz > 10 by omega),
    show 10 + 1 - orderOf sz = 10 - orderOf sz + 1 by omega, kallocLoop]
  unfold Config.allocate at hpop ⊢
  rw [hb] at hpop ⊢
  cases hrun : locked .buddyLock (popSection (orderOf sz) (orderOf sz)) L c.s with
  | error e => rfl
  | ok r =>
    obtain ⟨chunk, s₁⟩ := r
    simp only [hrun] at hpop ⊢
    by_cases h0 : chunk = 0
    · exact absurd (if_pos h0) hpop
    · simp only [if_neg h0, K.bind_apply]
      cases ht : toggleBitmap chunk (orderOf sz) L s₁ <;> simp only [K.pure_apply]

end Alone

/-! ## What is claimed of a schedule -/

/-- When A runs its unlink section, the sibling is on the free list of that order. -/
def UnlinksFree (L : Layout) (c : Config) (i : Cpu) : Prop :=
  i = .freeing → ∀ x k, c.a = .unlink x k → OnList L c.s.mem k (sibling x k)

/-- The block B got and the block A inserted are disjoint. -/
def Disjoint (order : Nat) (c : Config) : Prop :=
  ∀ x k b, c.a = .done x k → c.b.block = some b → x + chunkBytes k ≤ b ∨ b + chunkBytes order ≤ x

def Claimed (L : Layout) (order : Nat) (c : Config) (sched : List Cpu) : Prop :=
  Along L order (UnlinksFree L) c sched ∧ Disjoint order (c.run L order sched)

/-- The turns that go wrong, with `m₀` the memory when the calls start. A finds the bit of its pair
set, while B has the sibling or the bit was clear at the start. (B's toggle at order 10 can set it
in a range of more than 2^44 bytes, where positions wrap around.) B pops the sibling that A is about
to unlink, or the block that A has inserted. -/
def Clash (L : Layout) (base size order : Nat) (m₀ : Mem) (c : Config) : Cpu → Prop
  | .freeing =>
    match c.a with
    | .toggle x k => k < 10 ∧ bitOf L c.s.mem (pairPos base (size / pageSize) x k) = true ∧
        (bitOf L m₀ (pairPos base (size / pageSize) x k) = false ∨
          k = order ∧ c.b.block = some (sibling x k))
    | _ => False
  | .allocating =>
    c.b = .pop ∧
    match c.a with
    | .unlink x k => k = order ∧ c.s.mem (listHead L k) .ptr = sibling x k
    | .done _ k => k = order
    | _ => False

instance Clash.decidable (L : Layout) (base size order : Nat) (m₀ : Mem) (c : Config) :
    ∀ i, Decidable (Clash L base size order m₀ c i)
  | .freeing => by
    unfold Clash
    cases c.a <;> exact inferInstance
  | .allocating => by
    unfold Clash
    cases c.a <;> exact inferInstance

/-- The calls start: A is to free a block that is on no list, B to allocate one, and the bits are
right. -/
structure Valid (L : Layout) (base size order : Nat) (r : Chunk) (c : Config) : Prop where
  managed : Managed L base size
  order_le : order ≤ 10
  ready : Ready c.s
  lists : ∃ h rest, Rep L c.s.mem base (size / pageSize) h ∧
    Partition base size h.free (r ::ₘ rest)
  bits : BitsExact L c.s.mem base size
  free : c.a = .toggle r.addr r.order
  alloc : c.b = .pop

/-- Both calls have returned, and B has a block of the order it asked for. -/
def Finished (c : Config) : Prop := (∃ x k, c.a = .done x k) ∧ ∃ b, c.b = .done b

/-! ## What a turn does to the lists -/

variable {L : Layout} {base size order : Nat} {c : Config} {h : Heap} {rest : Multiset Chunk}

/-- The block a CPU has in hand. -/
def Freeing.own : Freeing → Multiset Chunk
  | .toggle x k => {⟨x, k⟩}
  | .unlink x k => {⟨x, k⟩}
  | .insert x k => {⟨x, k⟩}
  | _ => 0

def Allocating.own (order : Nat) : Allocating → Multiset Chunk
  | .toggle b => {⟨b, order⟩}
  | .done b => {⟨b, order⟩}
  | _ => 0

/-- The lists of `h`, the blocks in hand and the rest partition the range, and memory holds the
lists. -/
structure Held (L : Layout) (base size order : Nat) (rest : Multiset Chunk) (c : Config)
    (h : Heap) : Prop where
  managed : Managed L base size
  order_le : order ≤ 10
  ready : Ready c.s
  rep : Rep L c.s.mem base (size / pageSize) h
  partition : Partition base size h.free (c.a.own + (c.b.own order + rest))

/-- What a turn of B does. -/
inductive Allocates (base size order : Nat) : Allocating → Heap → Allocating → Heap → Prop
  | empty {h : Heap} : h.free order = [] → Allocates base size order .pop h .larger h
  | pop {h : Heap} {x : Nat} {l : List Nat} : h.free order = x :: l →
      Allocates base size order .pop h (.toggle x) (h.drop order x)
  | toggle {h : Heap} {x : Nat} : Allocates base size order (.toggle x) h (.done x)
      (h.flip (pairPos base (size / pageSize) x order))
  | done {h : Heap} {x : Nat} : Allocates base size order (.done x) h (.done x) h
  | larger {h : Heap} : Allocates base size order .larger h .larger h
  | stopped {h : Heap} {e : Stop} : Allocates base size order (.stopped e) h (.stopped e) h

/-- What a turn of A does, when the sibling it unlinks is on its list. -/
inductive Frees (base size : Nat) : Freeing → Heap → Freeing → Heap → Prop
  | merge {h : Heap} {x k : Nat} : k < 10 →
      h.bit (pairPos base (size / pageSize) x k) = true →
      Frees base size (.toggle x k) h (.unlink x k) (h.flip (pairPos base (size / pageSize) x k))
  | keep {h : Heap} {x k : Nat} : k ≤ 10 →
      ¬ (k < 10 ∧ h.bit (pairPos base (size / pageSize) x k) = true) →
      Frees base size (.toggle x k) h (.insert x k) (h.flip (pairPos base (size / pageSize) x k))
  | unlink {h : Heap} {x k : Nat} : k < 10 → sibling x k ∈ h.free k →
      Frees base size (.unlink x k) h (.loop (parent x k) (k + 1)) (h.drop k (sibling x k))
  | insert {h : Heap} {x k : Nat} : k ≤ 10 →
    Frees base size (.insert x k) h (.done x k) (h.push k x)
  | done {h : Heap} {x k : Nat} : Frees base size (.done x k) h (.done x k) h
  | stopped {h : Heap} {e : Stop} : Frees base size (.stopped e) h (.stopped e) h

theorem Held.allocates (hc : Held L base size order rest c h) :
    ∃ h', Held L base size order rest (c.allocate L order) h' ∧ (c.allocate L order).a = c.a ∧
      Allocates base size order c.b h (c.allocate L order).b h' := by
  obtain ⟨hm, hle, hs, hr, hp⟩ := hc
  obtain ⟨s, a, b⟩ := c
  simp only at hs hr hp ⊢
  cases b with
  | pop =>
    simp only [Allocating.own, Multiset.zero_add] at hp
    cases hl : h.free order with
    | nil =>
      obtain ⟨s', hrun, hmem, hq⟩ := Edits.locked hs.free (popSection_empty order hle hr hl)
      have hstep : Config.allocate L order ⟨s, a, .pop⟩ = ⟨s', a, .larger⟩ := by
        simp only [Config.allocate, hrun, if_true]
      rw [hstep]
      refine ⟨h, ⟨hm, hle, hs.quiet hq, hmem ▸ hr, ?_⟩, rfl, .empty hl⟩
      simpa only [Allocating.own, Multiset.zero_add] using hp
    | cons x l =>
      have hx : x ∈ h.free order := by rw [hl]; exact List.mem_cons_self
      obtain ⟨m', hedit, hr'⟩ :=
        popSection_edits hs.view hle (Nat.le_refl _) hr (hp.usable hm.paged) hl
      obtain ⟨s', hrun, hmem, hq⟩ := Edits.locked hs.free hedit
      have hx0 : x ≠ 0 := (hr.lists order hle).2.ne_zero x hx
      have hstep : Config.allocate L order ⟨s, a, .pop⟩ = ⟨s', a, .toggle x⟩ := by
        simp only [Config.allocate, hrun, if_neg hx0]
      -- nothing is split
      have hsplit : Heap.split x order order (h.drop order x) = h.drop order x := by
        cases order with
        | zero => rfl
        | succ n => unfold Heap.split; rw [if_neg (Nat.lt_irrefl _)]
      rw [hsplit, ← hmem] at hr'
      rw [hstep]
      refine ⟨h.drop order x, ⟨hm, hle, hs.quiet hq, hr', ?_⟩, rfl, .pop hl⟩
      simp only [Allocating.own, Multiset.singleton_add, Multiset.add_cons]
      exact hp.take hle hx
  | toggle x =>
    obtain ⟨m', ⟨s', hrun, hmem, hq⟩, hr'⟩ := toggleBitmap_returns (c := x) hs hle hr
    have hstep : Config.allocate L order ⟨s, a, .toggle x⟩ = ⟨s', a, .done x⟩ := by
      simp only [Config.allocate, hrun]
    rw [hstep]
    rw [← hmem] at hr'
    exact ⟨_, ⟨hm, hle, hs.quiet hq, hr', hp⟩, rfl, .toggle⟩
  | done x => exact ⟨h, ⟨hm, hle, hs, hr, hp⟩, rfl, .done⟩
  | larger => exact ⟨h, ⟨hm, hle, hs, hr, hp⟩, rfl, .larger⟩
  | stopped e => exact ⟨h, ⟨hm, hle, hs, hr, hp⟩, rfl, .stopped⟩

theorem Freeing.own_loop (x k : Nat) : (Freeing.loop x k).own = {⟨x, k⟩} := by
  unfold Freeing.loop
  split <;> rfl

theorem Held.frees (hc : Held L base size order rest c h)
    (hon : ∀ x k, c.a = .unlink x k → k < 10 ∧ sibling x k ∈ h.free k) :
    ∃ h', Held L base size order rest (c.free L) h' ∧ (c.free L).b = c.b ∧
      Frees base size c.a h (c.free L).a h' := by
  obtain ⟨hm, hle, hs, hr, hp⟩ := hc
  obtain ⟨s, a, b⟩ := c
  simp only at hs hr hp hon ⊢
  cases a with
  | toggle x k =>
    have hk : k ≤ 10 := (hp.aligned ⟨x, k⟩ (by simp [Freeing.own])).1
    obtain ⟨m', ⟨s', hrun, hmem, hq⟩, hr'⟩ := toggleBitmap_returns (c := x) hs hk hr
    rw [free_toggle rfl hrun]
    rw [← hmem] at hr'
    by_cases hbit : k < 10 ∧ h.bit (pairPos base (size / pageSize) x k) = true
    · have hret : k < 10 ∧ (if h.bit (pairPos base (size / pageSize) x k) then 0 else 1) = 0 :=
        ⟨hbit.1, by rw [hbit.2]; rfl⟩
      rw [if_pos hret]
      exact ⟨_, ⟨hm, hle, hs.quiet hq, hr', hp⟩, rfl, .merge hbit.1 hbit.2⟩
    · have hret : ¬ (k < 10 ∧ (if h.bit (pairPos base (size / pageSize) x k) then 0 else 1) = 0) :=
        fun hh => hbit ⟨hh.1, by simpa using hh.2⟩
      rw [if_neg hret]
      exact ⟨_, ⟨hm, hle, hs.quiet hq, hr', hp⟩, rfl, .keep hk hbit⟩
  | unlink x k =>
    obtain ⟨hk, hmem⟩ := hon x k rfl
    have hedit := unlinkSection_edits (c := x) hs.view (by omega) hr (hp.usable hm.paged) hmem
    obtain ⟨s', hrun, hmem', hq⟩ := Edits.locked hs.free hedit
    rw [free_unlink rfl hrun]
    have hr' := hr.unlink (by omega) (hp.usable hm.paged) hmem
    rw [← hmem'] at hr'
    refine ⟨_, ⟨hm, hle, hs.quiet hq, hr', ?_⟩, rfl, .unlink hk hmem⟩
    have htake := hp.take (by omega) hmem
    simp only [Freeing.own, Multiset.singleton_add] at htake
    rw [Multiset.cons_swap] at htake
    show Partition base size _ ((Freeing.loop (parent x k) (k + 1)).own + _)
    rw [Freeing.own_loop, Multiset.singleton_add]
    exact htake.join hk
  | insert x k =>
    have hk : k ≤ 10 := (hp.aligned ⟨x, k⟩ (by simp [Freeing.own])).1
    simp only [Freeing.own, Multiset.singleton_add] at hp
    obtain ⟨m', hedit, hr'⟩ := pushHead_edits hs.view hk hr (hp.usable hm.paged)
    have hins : Edits L s.physMapOffset (insertSection x k) s.mem () m' := by
      refine Edits.bind (Edits.of_eq (fun s => rfl)) ?_
      exact Edits.bind (Edits.load (image_metadata L) hr.freeListsPtr) hedit
    obtain ⟨s', hrun, hmem, hq⟩ := Edits.locked hs.free hins
    rw [free_insert rfl hrun]
    refine ⟨_, ⟨hm, hle, hs.quiet hq, hmem.symm ▸ hr', ?_⟩, rfl, .insert hk⟩
    simp only [Freeing.own, Multiset.zero_add]
    exact hp.give hk
  | done x k => exact ⟨h, ⟨hm, hle, hs, hr, hp⟩, rfl, .done⟩
  | stopped e => exact ⟨h, ⟨hm, hle, hs, hr, hp⟩, rfl, .stopped⟩

/-! ## Turns without a clash -/

variable {h₀ : Heap} {r : Chunk}

/-- A is going up from block `r` and has come to `x`, of order `k`: the lists from there on are
those of the start, less the block B has popped. -/
structure Rising (order : Nat) (h₀ h : Heap) (r : Chunk) (b : Option Nat) (x k : Nat) : Prop where
  contains : x ≤ r.addr ∧ r.addr < x + chunkBytes k
  sub : ∀ i, i ≤ 10 → ∀ y ∈ h.free i, y ∈ h₀.free i
  lists : ∀ i, k ≤ i → i ≤ 10 → ∀ y ∈ h₀.free i, y ∈ h.free i ∨ i = order ∧ b = some y

/-- The state the calls started in. -/
structure Began (base size : Nat) (h₀ : Heap) (r : Chunk) : Prop where
  bits : BitInv base size h₀
  partition : ∃ rest, Partition base size h₀.free (r ::ₘ rest)

/-- What holds between turns that do not clash. -/
structure Phase (L : Layout) (base size order : Nat) (h₀ : Heap) (r : Chunk)
    (rest : Multiset Chunk) (c : Config) (h : Heap) : Prop where
  held : Held L base size order rest c h
  rising : ∀ x k, c.a = .toggle x k ∨ c.a = .unlink x k → Rising order h₀ h r c.b.block x k
  sibling : ∀ x k, c.a = .unlink x k → k < 10 ∧ sibling x k ∈ h.free k
  head : ∀ x k, c.a = .done x k → c.b = .pop → k ≤ 10 ∧ ∃ l, h.free k = x :: l
  disjoint : Disjoint order c
  free_runs : ∀ e, c.a ≠ .stopped e
  alloc_runs : ∀ e, c.b ≠ .stopped e

theorem Valid.phase (hc : Valid L base size order r c) :
    ∃ h rest, Rep L c.s.mem base (size / pageSize) h ∧ Began base size h r ∧
      Phase L base size order h r rest c h := by
  obtain ⟨hm, hle, hs, ⟨h, rest, hr, hp⟩, hbits, ha, hb⟩ := hc
  obtain ⟨s, a, b⟩ := c
  simp only at ha hb
  subst ha hb
  refine ⟨h, rest, hr, ⟨(bitsExact_iff hr).mp hbits, rest, hp⟩, ⟨hm, hle, hs, hr, ?_⟩,
    ?_, ?_, ?_, ?_, ?_, ?_⟩
  · simpa only [Freeing.own, Allocating.own, Multiset.zero_add, Multiset.singleton_add] using hp
  · rintro x k (heq | heq)
    · cases heq
      exact ⟨⟨Nat.le_refl _, Nat.lt_add_of_pos_right (chunkBytes_pos _)⟩, fun _ _ _ hy => hy,
        fun _ _ _ _ hy => Or.inl hy⟩
    · cases heq
  · intro x k heq
    cases heq
  · intro x k heq
    cases heq
  · intro x k b heq
    cases heq
  · exact fun _ => Freeing.noConfusion
  · exact fun _ => Allocating.noConfusion

/-- The block A has come to was on no list when the calls started, nor was any other that contains
the block A frees. -/
theorem Began.not_free (hbegan : Began base size h₀ r) {x k : Nat} (hk : k ≤ 10)
    (hx : x ≤ r.addr ∧ r.addr < x + chunkBytes k) : x ∉ h₀.free k := by
  obtain ⟨rest, hp⟩ := hbegan.partition
  intro hfree
  have hpos := chunkBytes_pos r.order
  rcases hp.own_apart (Multiset.mem_cons_self _ _) hk hfree with hle | hle
  · omega
  · omega

/-- The sibling was on its list when the calls started iff the bit of the pair was set. -/
theorem Phase.sibling_iff (hphase : Phase L base size order h₀ r rest c h)
    (hbegan : Began base size h₀ r) {x k : Nat} (ha : c.a = .toggle x k) (hk : k < 10) :
    h₀.bit (pairPos base (size / pageSize) x k) = true ↔ Buddy.sibling x k ∈ h₀.free k := by
  have hp := hphase.held.partition
  have hmem : (⟨x, k⟩ : Chunk) ∈ freeChunks h.free + (c.a.own + (c.b.own order + rest)) := by
    rw [ha]
    simp [Freeing.own]
  obtain ⟨h1, h2⟩ := hp.inside hmem
  obtain ⟨hiff, -⟩ := hbegan.bits.at_block hphase.held.managed hk (hp.aligned _ hmem).2 h1 h2
  have hnot := hbegan.not_free (Nat.le_of_lt hk) (hphase.rising x k (Or.inl ha)).contains
  rw [hiff, xor_def]
  constructor
  · rintro (⟨hin, -⟩ | ⟨hin, -⟩)
    · exact absurd hin hnot
    · exact hin
  · exact fun hin => Or.inr ⟨hin, hnot⟩

theorem mem_drop {k x i y : Nat} (hne : i ≠ k ∨ y ≠ x) (hy : y ∈ h.free i) :
    y ∈ (h.drop k x).free i := by
  show y ∈ Function.update h.free k ((h.free k).erase x) i
  by_cases hi : i = k
  · subst hi
    rw [Function.update_self]
    exact (List.mem_erase_of_ne (hne.resolve_left (fun h => h rfl))).mpr hy
  · rwa [Function.update_of_ne hi]

theorem mem_of_mem_drop {k x i y : Nat} (hy : y ∈ (h.drop k x).free i) : y ∈ h.free i := by
  change y ∈ Function.update h.free k ((h.free k).erase x) i at hy
  by_cases hi : i = k
  · subst hi
    rw [Function.update_self] at hy
    exact List.mem_of_mem_erase hy
  · rwa [Function.update_of_ne hi] at hy

/-- B's pop is the one difference to the lists of the start. -/
theorem Rising.allocates {b b' : Allocating} {h' : Heap} {x k : Nat}
    (hr : Rising order h₀ h r b.block x k) (hmove : Allocates base size order b h b' h') :
    Rising order h₀ h' r b'.block x k := by
  cases hmove with
  | empty _ => exact hr
  | pop hl =>
    rename_i y l
    refine ⟨hr.contains, fun i hi z hz => hr.sub i hi z (mem_of_mem_drop hz), ?_⟩
    intro i hki hi z hz
    rcases hr.lists i hki hi z hz with hin | ⟨-, hb⟩
    · by_cases hcase : i = order ∧ z = y
      · exact Or.inr ⟨hcase.1, by rw [hcase.2]; rfl⟩
      · exact Or.inl (mem_drop (by tauto) hin)
    · exact absurd hb (by simp [Allocating.block])
  | toggle => exact ⟨hr.contains, hr.sub, hr.lists⟩
  | done => exact hr
  | larger => exact hr
  | stopped => exact hr

theorem mem_own {b : Nat} (own : Multiset Chunk) (hblock : c.b.block = some b) :
    (⟨b, order⟩ : Chunk) ∈ own + (c.b.own order + rest) := by
  cases hb : c.b <;> simp_all [Allocating.block, Allocating.own]

/-- **A turn of B** that does not clash. -/
theorem Phase.allocate {m₀ : Mem} (hphase : Phase L base size order h₀ r rest c h)
    (hcalm : ¬ Clash L base size order m₀ c .allocating) :
    ∃ h', Phase L base size order h₀ r rest (c.allocate L order) h' := by
  obtain ⟨h', hheld, ha, hmove⟩ := hphase.held.allocates
  have hle := hphase.held.order_le
  refine ⟨h', hheld, ?_, ?_, ?_, ?_, ?_, ?_⟩
  · intro x k hk
    rw [ha] at hk
    exact (hphase.rising x k hk).allocates hmove
  · intro x k hk
    rw [ha] at hk
    obtain ⟨hlt, hin⟩ := hphase.sibling x k hk
    refine ⟨hlt, ?_⟩
    generalize hb : c.b = b at hmove
    generalize (c.allocate L order).b = b' at hmove
    cases hmove with
    | pop hl =>
      -- the head of the list is not the sibling
      refine mem_drop ?_ hin
      by_contra hcase
      have hko : k = order := by tauto
      subst hko
      refine hcalm ⟨hb, ?_⟩
      rw [hk]
      refine ⟨rfl, ?_⟩
      rw [(hphase.held.rep.lists k hle).1, hl]
      show _ = Buddy.sibling x k
      tauto
    | empty _ => exact hin
    | toggle => exact hin
    | done => exact hin
    | larger => exact hin
    | stopped => exact hin
  · intro x k _ hpop
    rw [hpop] at hmove
    generalize c.b = b at hmove
    cases hmove
  · intro x k b hdone hblock
    rw [ha] at hdone
    have hown : (⟨b, order⟩ : Chunk) ∈ (c.allocate L order).a.own +
        ((c.allocate L order).b.own order + rest) := mem_own _ hblock
    generalize hb : c.b = b₀ at hmove
    generalize hb' : (c.allocate L order).b = b' at hmove
    rw [hb'] at hblock
    cases hmove with
    | pop hl =>
      -- A's block is still on its list, which is another one
      obtain ⟨hk, l, hhead⟩ := hphase.head x k hdone hb
      have hne : k ≠ order := by
        intro hko
        exact hcalm ⟨hb, by rw [hdone]; exact hko⟩
      have hin : x ∈ h.free k := by
        rw [hhead]
        exact List.mem_cons_self
      exact hheld.partition.own_apart hown hk (mem_drop (Or.inl hne) hin)
    | empty _ => simp [Allocating.block] at hblock
    | toggle => exact hphase.disjoint x k b hdone (by rw [hb]; exact hblock)
    | done => exact hphase.disjoint x k b hdone (by rw [hb]; exact hblock)
    | larger => simp [Allocating.block] at hblock
    | stopped => simp [Allocating.block] at hblock
  · rw [ha]
    exact hphase.free_runs
  · intro e heq
    rw [heq] at hmove
    generalize hb : c.b = b at hmove
    cases hmove
    exact hphase.alloc_runs e hb

/-- The joined block contains what its lower or upper half contains. -/
theorem contains_parent {x k y : Nat} (hd : chunkBytes k ∣ x)
    (hx : x ≤ y ∧ y < x + chunkBytes k) :
    parent x k ≤ y ∧ y < parent x k + chunkBytes (k + 1) := by
  have hsucc := chunkBytes_succ k
  rcases pair_cases hd with ⟨hp, hs, -⟩ | ⟨hp, hs, -⟩
  · omega
  · omega

section Arrive

variable {x k : Nat}

theorem Phase.of_toggle (hheld : Held L base size order rest c h) (ha : c.a = .toggle x k)
    (hrise : Rising order h₀ h r c.b.block x k) (hb : ∀ e, c.b ≠ .stopped e) :
    Phase L base size order h₀ r rest c h := by
  refine ⟨hheld, ?_, ?_, ?_, ?_, ?_, hb⟩ <;> intro y
  · rw [ha]
    rintro i (heq | heq)
    · cases heq
      exact hrise
    · cases heq
  all_goals
    rw [ha]
    simp

theorem Phase.of_unlink (hheld : Held L base size order rest c h) (ha : c.a = .unlink x k)
    (hrise : Rising order h₀ h r c.b.block x k) (hk : k < 10)
    (hin : Buddy.sibling x k ∈ h.free k) (hb : ∀ e, c.b ≠ .stopped e) :
    Phase L base size order h₀ r rest c h := by
  refine ⟨hheld, ?_, ?_, ?_, ?_, ?_, hb⟩ <;> intro y
  · rw [ha]
    rintro i (heq | heq)
    · cases heq
    · cases heq
      exact hrise
  · rw [ha]
    intro i heq
    cases heq
    exact ⟨hk, hin⟩
  all_goals
    rw [ha]
    simp

theorem Phase.of_insert (hheld : Held L base size order rest c h) (ha : c.a = .insert x k)
    (hb : ∀ e, c.b ≠ .stopped e) : Phase L base size order h₀ r rest c h := by
  refine ⟨hheld, ?_, ?_, ?_, ?_, ?_, hb⟩ <;> intro y
  · rw [ha]
    rintro i (heq | heq) <;> cases heq
  all_goals
    rw [ha]
    simp

theorem Phase.of_done (hheld : Held L base size order rest c h) (ha : c.a = .done x k)
    (hhead : c.b = .pop → k ≤ 10 ∧ ∃ l, h.free k = x :: l)
    (hdisj : ∀ b, c.b.block = some b → x + chunkBytes k ≤ b ∨ b + chunkBytes order ≤ x)
    (hb : ∀ e, c.b ≠ .stopped e) : Phase L base size order h₀ r rest c h := by
  refine ⟨hheld, ?_, ?_, ?_, ?_, ?_, hb⟩ <;> intro y
  · rw [ha]
    rintro i (heq | heq) <;> cases heq
  · rw [ha]
    intros
    contradiction
  · rw [ha]
    intro i heq
    cases heq
    exact hhead
  · intro i b heq
    rw [ha] at heq
    cases heq
    exact hdisj b
  · rw [ha]
    exact Freeing.noConfusion

end Arrive

/-- A finds the bit set, and neither was it clear at the start nor has B the sibling. -/
theorem Phase.sibling_free {m₀ : Mem} {x k : Nat} (hphase : Phase L base size order h₀ r rest c h)
    (hbegan : Began base size h₀ r) (hr₀ : Rep L m₀ base (size / pageSize) h₀)
    (hcalm : ¬ Clash L base size order m₀ c .freeing) (ha : c.a = .toggle x k) (hk : k < 10)
    (hbit : h.bit (pairPos base (size / pageSize) x k) = true) :
    Buddy.sibling x k ∈ h.free k := by
  have hpos := pairPos_lt base (size / pageSize) x k
  have hnow : bitOf L c.s.mem (pairPos base (size / pageSize) x k) = true := by
    rw [hphase.held.rep.bits _ hpos, hbit]
  unfold Clash at hcalm
  rw [ha] at hcalm
  have hold : h₀.bit (pairPos base (size / pageSize) x k) = true := by
    by_contra hclear
    refine hcalm ⟨hk, hnow, Or.inl ?_⟩
    rw [hr₀.bits _ hpos]
    simpa using hclear
  have hstart := (hphase.sibling_iff hbegan ha hk).mp hold
  rcases (hphase.rising x k (Or.inl ha)).lists k (Nat.le_refl k) (Nat.le_of_lt hk) _ hstart
    with hin | hcase
  · exact hin
  · exact absurd ⟨hk, hnow, Or.inr hcase⟩ hcalm

/-- **A turn of A** that does not clash. -/
theorem Phase.free {m₀ : Mem} (hphase : Phase L base size order h₀ r rest c h)
    (hbegan : Began base size h₀ r) (hr₀ : Rep L m₀ base (size / pageSize) h₀)
    (hcalm : ¬ Clash L base size order m₀ c .freeing) :
    ∃ h', Phase L base size order h₀ r rest (c.free L) h' := by
  obtain ⟨h', hheld, hb, hmove⟩ := hphase.held.frees hphase.sibling
  have hruns : ∀ e, (c.free L).b ≠ .stopped e := by
    rw [hb]
    exact hphase.alloc_runs
  generalize ha : c.a = a at hmove
  generalize ha' : (c.free L).a = a' at hmove
  refine ⟨h', ?_⟩
  cases hmove with
  | merge hk hbit =>
    have hrise := hphase.rising _ _ (Or.inl ha)
    rw [← hb] at hrise
    exact .of_unlink hheld ha' ⟨hrise.contains, hrise.sub, hrise.lists⟩ hk
      (hphase.sibling_free hbegan hr₀ hcalm ha hk hbit) hruns
  | keep hk hbit => exact .of_insert hheld ha' hruns
  | unlink hk hin =>
    rename_i x k
    have hrise := hphase.rising x k (Or.inr ha)
    rw [← hb] at hrise
    have hd : chunkBytes k ∣ x := by
      refine (hphase.held.partition.aligned ⟨x, k⟩ ?_).2
      rw [ha]
      simp [Freeing.own]
    unfold Freeing.loop at ha'
    split at ha'
    · refine .of_toggle hheld ha' ⟨contains_parent hd hrise.contains,
        fun j hj z hz => hrise.sub j hj z (mem_of_mem_drop hz), ?_⟩ hruns
      -- only the list of the order below has changed
      intro j hkj hj z hz
      exact (hrise.lists j (by omega) hj z hz).imp_left (mem_drop (Or.inl (by omega)))
    · exact .of_insert hheld ha' hruns
  | insert hk =>
    rename_i x k
    have hhead : (h.push k x).free k = x :: h.free k := Function.update_self _ _ _
    refine .of_done hheld ha' (fun _ => ⟨hk, _, hhead⟩) (fun b hblock => ?_) hruns
    exact hheld.partition.own_apart (mem_own _ hblock) hk (by rw [hhead]; exact List.mem_cons_self)
  | done =>
    refine .of_done hheld ha' ?_ ?_ hruns
    · rw [hb]
      exact hphase.head _ _ ha
    · rw [hb]
      exact fun b => hphase.disjoint _ _ b ha
  | stopped => exact absurd ha (hphase.free_runs _)

/-- **A turn that does not clash** keeps the phase; if it unlinks a block, the block is free. -/
theorem Phase.step {m₀ : Mem} {i : Cpu} (hphase : Phase L base size order h₀ r rest c h)
    (hbegan : Began base size h₀ r) (hr₀ : Rep L m₀ base (size / pageSize) h₀)
    (hcalm : ¬ Clash L base size order m₀ c i) :
    UnlinksFree L c i ∧ ∃ h', Phase L base size order h₀ r rest (c.step L order i) h' := by
  refine ⟨fun _ x k ha => ?_, ?_⟩
  · obtain ⟨hk, hin⟩ := hphase.sibling x k ha
    exact (onList_iff hphase.held.rep (Nat.le_of_lt hk)).mpr hin
  · cases i with
    | freeing => exact hphase.free hbegan hr₀ hcalm
    | allocating => exact hphase.allocate hcalm

/-- No call is stopped. -/
def Runs (c : Config) : Prop := (∀ e, c.a ≠ .stopped e) ∧ ∀ e, c.b ≠ .stopped e

/-- A schedule without a clash. -/
theorem Phase.claimed {m₀ : Mem} (hbegan : Began base size h₀ r)
    (hr₀ : Rep L m₀ base (size / pageSize) h₀) :
    ∀ {sched : List Cpu} {c : Config} {h : Heap}, Phase L base size order h₀ r rest c h →
    Along L order (fun c i => ¬ Clash L base size order m₀ c i) c sched →
    Claimed L order c sched ∧ Runs (c.run L order sched)
  | [], _, _, hphase, _ => ⟨⟨trivial, hphase.disjoint⟩, hphase.free_runs, hphase.alloc_runs⟩
  | i :: sched, _, _, hphase, hcalm => by
    obtain ⟨hon, h', hphase'⟩ := hphase.step hbegan hr₀ hcalm.1
    obtain ⟨hrest, hruns⟩ := Phase.claimed hbegan hr₀ hphase' hcalm.2
    exact ⟨⟨⟨hon, hrest.1⟩, hrest.2⟩, hruns⟩

/-! ## Turns that clash -/

/-- A is about to unlink a sibling that is on no list. -/
structure Doomed (L : Layout) (base size order : Nat) (rest : Multiset Chunk)
    (c : Config) (h : Heap) (x k : Nat) : Prop where
  held : Held L base size order rest c h
  unlink : c.a = .unlink x k
  order_le : k ≤ 10
  gone : sibling x k ∉ h.free k

/-- B brings nothing back. -/
theorem Doomed.allocate {x k : Nat} (hd : Doomed L base size order rest c h x k) :
    ∃ h', Doomed L base size order rest (c.allocate L order) h' x k := by
  obtain ⟨h', hheld, ha, hmove⟩ := hd.held.allocates
  refine ⟨h', hheld, ha.trans hd.unlink, hd.order_le, ?_⟩
  generalize c.b = b at hmove
  generalize (c.allocate L order).b = b' at hmove
  cases hmove with
  | pop _ => exact fun hin => hd.gone (mem_of_mem_drop hin)
  | _ => exact hd.gone

theorem Doomed.not_along {x k : Nat} : ∀ {sched : List Cpu} {c : Config} {h : Heap},
    Doomed L base size order rest c h x k → (∃ y i, (c.run L order sched).a = .done y i) →
    ¬ Along L order (UnlinksFree L) c sched
  | [], c, _, hd, hfin, _ => by
    obtain ⟨y, i, hdone⟩ := hfin
    change c.a = _ at hdone
    rw [hd.unlink] at hdone
    exact Freeing.noConfusion hdone
  | .freeing :: _, _, _, hd, _, halong =>
    hd.gone ((onList_iff hd.held.rep hd.order_le).mp (halong.1 rfl x k hd.unlink))
  | .allocating :: _, _, _, hd, hfin, halong => by
    obtain ⟨h', hd'⟩ := hd.allocate
    exact hd'.not_along hfin halong.2

/-- B has the block that A has inserted. -/
structure Shared (c : Config) (x k : Nat) : Prop where
  done : c.a = .done x k
  block : c.b.block = some x

theorem Shared.run {x k : Nat} : ∀ {sched : List Cpu} {c : Config} {h : Heap},
    Held L base size order rest c h → Shared c x k → Shared (c.run L order sched) x k
  | [], _, _, _, hsh => hsh
  | .freeing :: sched, c, _, hheld, hsh => by
    have hstay : c.free L = c := by
      unfold Config.free
      rw [hsh.done]
    show Shared ((c.free L).run L order sched) x k
    rw [hstay]
    exact hsh.run hheld
  | .allocating :: sched, c, _, hheld, hsh => by
    obtain ⟨h', hheld', ha, hmove⟩ := hheld.allocates
    have hsh' : Shared (c.allocate L order) x k := by
      refine ⟨ha.trans hsh.done, ?_⟩
      have hblock := hsh.block
      generalize c.b = b at hmove hblock
      generalize (c.allocate L order).b = b' at hmove
      cases hmove <;> simp_all [Allocating.block]
    show Shared ((c.allocate L order).run L order sched) x k
    exact hsh'.run hheld'

theorem Shared.not_disjoint {x k : Nat} (hsh : Shared c x k) : ¬ Disjoint order c := by
  intro hdisj
  have h1 := chunkBytes_pos k
  have h2 := chunkBytes_pos order
  rcases hdisj x k x hsh.done hsh.block with hle | hle
  · omega
  · omega

/-- **A clash of A**: it will unlink a sibling that is not free. -/
theorem Phase.clash_free {m₀ : Mem} (hphase : Phase L base size order h₀ r rest c h)
    (hbegan : Began base size h₀ r) (hr₀ : Rep L m₀ base (size / pageSize) h₀)
    (hclash : Clash L base size order m₀ c .freeing) :
    ∃ h' x k, Doomed L base size order rest (c.free L) h' x k := by
  unfold Clash at hclash
  cases ha : c.a with
  | toggle x k =>
    rw [ha] at hclash
    obtain ⟨hk, hnow, hcase⟩ := hclash
    rw [hphase.held.rep.bits _ (pairPos_lt _ _ _ _)] at hnow
    have hgone : Buddy.sibling x k ∉ h.free k := by
      intro hin
      rcases hcase with hclear | ⟨rfl, hblock⟩
      · rw [hr₀.bits _ (pairPos_lt _ _ _ _)] at hclear
        have hstart := (hphase.rising x k (Or.inl ha)).sub k (Nat.le_of_lt hk) _ hin
        rw [(hphase.sibling_iff hbegan ha hk).mpr hstart] at hclear
        exact Bool.noConfusion hclear
      · obtain ⟨own', hown⟩ := Multiset.exists_cons_of_mem (mem_own c.a.own hblock)
        have hp := hphase.held.partition
        rw [hown] at hp
        exact hp.own_not_free (Nat.le_of_lt hk) hin
    obtain ⟨h', hheld, -, hmove⟩ := hphase.held.frees hphase.sibling
    generalize ha' : (c.free L).a = a' at hmove
    rw [ha] at hmove
    cases hmove with
    | merge _ _ => exact ⟨_, x, k, hheld, ha', Nat.le_of_lt hk, hgone⟩
    | keep _ hnot => exact absurd ⟨hk, hnow⟩ hnot
  | _ =>
    rw [ha] at hclash
    exact absurd hclash id

/-- **A clash of B**: it has popped the sibling that A is to unlink, or the block A has inserted. -/
theorem Phase.clash_allocate {m₀ : Mem} (hphase : Phase L base size order h₀ r rest c h)
    (hclash : Clash L base size order m₀ c .allocating) :
    (∃ h' x k, Doomed L base size order rest (c.allocate L order) h' x k) ∨
    ∃ h' x k, Held L base size order rest (c.allocate L order) h' ∧
      Shared (c.allocate L order) x k := by
  obtain ⟨hpop, hclash⟩ := hclash
  obtain ⟨h', hheld, hastay, hmove⟩ := hphase.held.allocates
  have hle := hphase.held.order_le
  generalize hb' : (c.allocate L order).b = b' at hmove
  rw [hpop] at hmove
  cases ha : c.a with
  | unlink x k =>
    rw [ha] at hclash
    obtain ⟨rfl, hhead⟩ := hclash
    obtain ⟨hk, hin⟩ := hphase.sibling x k ha
    rw [(hphase.held.rep.lists k hle).1] at hhead
    refine Or.inl ⟨h', x, k, hheld, hastay.trans ha, hle, ?_⟩
    cases hmove with
    | empty hl =>
      rw [hl] at hin
      exact absurd hin (by simp)
    | pop hl =>
      rename_i y l
      obtain rfl : y = Buddy.sibling x k := by
        rw [hl] at hhead
        exact hhead
      have hmem : (⟨Buddy.sibling x k, k⟩ : Chunk) ∈
          (c.allocate L k).a.own + ((c.allocate L k).b.own k + rest) := mem_own _ (by rw [hb']; rfl)
      obtain ⟨own', hown⟩ := Multiset.exists_cons_of_mem hmem
      have hp := hheld.partition
      rw [hown] at hp
      exact hp.own_not_free hle
  | done x k =>
    rw [ha] at hclash
    obtain rfl : k = order := hclash
    obtain ⟨-, l, hhead⟩ := hphase.head x k ha hpop
    refine Or.inr ⟨h', x, k, hheld, hastay.trans ha, ?_⟩
    rw [hb']
    cases hmove with
    | empty hl =>
      rw [hl] at hhead
      exact absurd hhead (by simp)
    | pop hl =>
      rw [hl] at hhead
      rw [(List.cons.inj hhead).1]
      rfl
  | _ =>
    rw [ha] at hclash
    exact absurd hclash id

/-- A complete schedule of which the claim holds has no clash. -/
theorem Phase.no_clash {m₀ : Mem} (hbegan : Began base size h₀ r)
    (hr₀ : Rep L m₀ base (size / pageSize) h₀) :
    ∀ {sched : List Cpu} {c : Config} {h : Heap}, Phase L base size order h₀ r rest c h →
    (∃ y i, (c.run L order sched).a = .done y i) → Claimed L order c sched →
    Along L order (fun c i => ¬ Clash L base size order m₀ c i) c sched
  | [], _, _, _, _, _ => trivial
  | i :: sched, c, h, hphase, hfin, hclaim => by
    have hcalm : ¬ Clash L base size order m₀ c i := by
      intro hclash
      cases i with
      | freeing =>
        obtain ⟨h', x, k, hd⟩ := hphase.clash_free hbegan hr₀ hclash
        exact hd.not_along hfin hclaim.1.2
      | allocating =>
        rcases hphase.clash_allocate hclash with ⟨h', x, k, hd⟩ | ⟨h', x, k, hheld, hsh⟩
        · exact hd.not_along hfin hclaim.1.2
        · exact (hsh.run hheld).not_disjoint hclaim.2
    obtain ⟨-, h', hphase'⟩ := hphase.step hbegan hr₀ hcalm
    exact ⟨hcalm, Phase.no_clash hbegan hr₀ hphase' hfin ⟨hclaim.1.2, hclaim.2⟩⟩

/-- **The claim holds of a complete schedule iff no turn of it clashes.** A schedule without a clash
need not be complete, and stops no call. -/
theorem claimed_iff_no_clash (hc : Valid L base size order r c) (sched : List Cpu) :
    (Along L order (fun c' i => ¬ Clash L base size order c.s.mem c' i) c sched →
      Claimed L order c sched ∧ Runs (c.run L order sched)) ∧
    (Finished (c.run L order sched) → (Claimed L order c sched ↔
      Along L order (fun c' i => ¬ Clash L base size order c.s.mem c' i) c sched)) := by
  obtain ⟨h, rest, hr, hbegan, hphase⟩ := hc.phase
  refine ⟨Phase.claimed hbegan hr hphase, fun hfin => ⟨?_, fun hcalm => ?_⟩⟩
  · exact Phase.no_clash hbegan hr hphase hfin.1
  · exact (Phase.claimed hbegan hr hphase hcalm).1

/-! ## Schedules on the small machine -/

/-- The lower 2MB of the small machine are allocated and A is about to free them; B asks for
2MB. -/
def halfStart : Option Config :=
  (booted.bind fun c => c.kalloc smallLayout 0x200000).map fun c =>
    ⟨c.s, .toggle 0x400000 9, .pop⟩

theorem halfStart_live : ((booted.bind fun c => c.kalloc smallLayout 0x200000).map fun c => c.live)
    = some [⟨0x400000, 0x200000⟩] := by
  decide +kernel

theorem halfStart_valid (hc : halfStart = some c) :
    Valid smallLayout 0x400000 0x400000 9 ⟨0x400000, 9⟩ c := by
  obtain ⟨client, hclient, rfl⟩ := Option.map_eq_some_iff.mp hc
  have hlive := halfStart_live
  rw [hclient, Option.map_some, Option.some.injEq] at hlive
  obtain ⟨c₀, hboot, hkalloc⟩ := Option.bind_eq_some_iff.mp hclient
  have hstart := booted_start hboot
  have h9 : orderOf 0x200000 = 9 := by decide
  obtain ⟨free, hinv, hbits⟩ := BitInv.own_order_run hstart (by norm_num)
    (Relation.ReflTransGen.single (.kalloc (by omega) (by omega) (Or.inr (Or.inl h9)) hkalloc))
  refine ⟨hstart.managed, by omega, hinv.ready, ⟨_, 0, hinv.rep, ?_⟩,
    (bitsExact_iff hinv.rep).mpr hbits, rfl, rfl⟩
  have hp := hinv.partition
  rw [hlive] at hp
  simpa [liveChunks, Request.chunk, h9] using hp

theorem halfStart_turns : (halfStart.map fun c =>
      let c := c.run smallLayout 9 [.allocating, .freeing, .freeing, .freeing, .allocating]
      (c.a, c.b)) = some (.done 0x400000 10, .done 0x600000) := by
  decide +kernel

/-- **A merge takes a block that has just been allocated.** B pops the upper 2MB and has not
toggled their bit when A reads it; A puts all 4MB on list 10. -/
theorem merge_takes_allocated_block : ∃ c : Config,
    Valid smallLayout 0x400000 0x400000 9 ⟨0x400000, 9⟩ c ∧
    Finished (c.run smallLayout 9 [.allocating, .freeing, .freeing, .freeing, .allocating]) ∧
    ¬ Claimed smallLayout 9 c [.allocating, .freeing, .freeing, .freeing, .allocating] := by
  obtain ⟨c, hc, hres⟩ := Option.map_eq_some_iff.mp halfStart_turns
  obtain ⟨ha, hb⟩ := Prod.mk.inj hres
  refine ⟨c, halfStart_valid hc, ⟨⟨_, _, ha⟩, _, hb⟩, fun hclaim => ?_⟩
  have hdisj := hclaim.2 0x400000 10 0x600000 ha (congrArg Allocating.block hb)
  exact absurd hdisj (by decide)

theorem halfStart_calm : (halfStart.map fun c =>
      (decide (Along smallLayout 9
        (fun c' i => ¬ Clash smallLayout 0x400000 0x400000 9 c.s.mem c' i)
        c [.allocating, .allocating, .freeing, .freeing]),
        (c.run smallLayout 9 [.allocating, .allocating, .freeing, .freeing]).a,
        (c.run smallLayout 9 [.allocating, .allocating, .freeing, .freeing]).b))
    = some (true, .done 0x400000 9, .done 0x600000) := by
  decide +kernel

theorem claimed_iff_no_clash_halves : ∃ c : Config,
    Valid smallLayout 0x400000 0x400000 9 ⟨0x400000, 9⟩ c ∧
    Finished (c.run smallLayout 9 [.allocating, .allocating, .freeing, .freeing]) ∧
    Claimed smallLayout 9 c [.allocating, .allocating, .freeing, .freeing] := by
  obtain ⟨c, hc, hres⟩ := Option.map_eq_some_iff.mp halfStart_calm
  obtain ⟨hcalm, hres⟩ := Prod.mk.inj hres
  obtain ⟨ha, hb⟩ := Prod.mk.inj hres
  have hfin : Finished (c.run smallLayout 9 [.allocating, .allocating, .freeing, .freeing]) :=
    ⟨⟨_, _, ha⟩, _, hb⟩
  refine ⟨c, halfStart_valid hc, hfin, ?_⟩
  exact ((claimed_iff_no_clash (halfStart_valid hc) _).2 hfin).mpr (of_decide_eq_true hcalm)

end Race
end Buddy
end MikroKernel
