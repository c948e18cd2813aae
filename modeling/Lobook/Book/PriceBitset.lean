import Lobook.Lib.Checked
import Lobook.Lib.BitSets

/-!
# The hierarchical price bitset (`price_bitset.h`)

A `PriceBitset` keeps one bit for every price in `l2` and two summary levels: bit `j` of `l1` says that word `j` of
`l2` is not zero, bit `k` of `l0` that word `k` of `l1` is not zero.  `Represents b S` states this for the set `S`
of prices that `b` stands for; every operation keeps it, and under it the bit scans are never applied to zero and
return the extremes of `S`.
-/

namespace Lobook

open Checked BitSets

def MAX_PRICES : Nat := 100000

def BLOCK_SIZE : Nat := 64

def L2_BLOCKS : Nat := (MAX_PRICES + BLOCK_SIZE - 1) / BLOCK_SIZE

def L1_BLOCKS : Nat := (L2_BLOCKS + BLOCK_SIZE - 1) / BLOCK_SIZE

/-- `static_cast<uint64_t>(1) << i`. -/
def bitMask (i : Nat) : BitVec 64 := 1#64 <<< i

/-- `__builtin_ctzll`, which has no meaning at zero. -/
def ctzll (x : BitVec 64) : Exec Nat := if x = 0#64 then .error .undefined else .ok x.ctz.toNat

/-- `__builtin_clzll`, which has no meaning at zero. -/
def clzll (x : BitVec 64) : Exec Nat := if x = 0#64 then .error .undefined else .ok x.clz.toNat

structure PriceBitset where
  l0 : BitVec 64
  l1 : Table L1_BLOCKS (BitVec 64)
  l2 : Table L2_BLOCKS (BitVec 64)

namespace PriceBitset

/-- The constructor. -/
def new : PriceBitset := ⟨0, ⟨fun _ => 0⟩, ⟨fun _ => 0⟩⟩

def clearAll (_b : PriceBitset) : PriceBitset := ⟨0, ⟨fun _ => 0⟩, ⟨fun _ => 0⟩⟩

def set (b : PriceBitset) (priceIdx : Nat) : Exec PriceBitset :=
  -- the assertion on the index
  if priceIdx < MAX_PRICES then do
    let l2Idx := priceIdx / 64
    let w2 ← b.l2.get l2Idx
    let l2 ← b.l2.set l2Idx (w2 ||| bitMask (priceIdx % 64))
    let l1Idx := l2Idx / 64
    let w1 ← b.l1.get l1Idx
    let l1 ← b.l1.set l1Idx (w1 ||| bitMask (l2Idx % 64))
    return ⟨b.l0 ||| bitMask l1Idx, l1, l2⟩
  else .error .outOfRange

def clear (b : PriceBitset) (priceIdx : Nat) : Exec PriceBitset :=
  if priceIdx < MAX_PRICES then do
    let l2Idx := priceIdx / 64
    let w2 ← b.l2.get l2Idx
    let w2 := w2 &&& ~~~bitMask (priceIdx % 64)
    let l2 ← b.l2.set l2Idx w2
    if w2 = 0#64 then
      let l1Idx := l2Idx / 64
      let w1 ← b.l1.get l1Idx
      let w1 := w1 &&& ~~~bitMask (l2Idx % 64)
      let l1 ← b.l1.set l1Idx w1
      if w1 = 0#64 then
        return ⟨b.l0 &&& ~~~bitMask l1Idx, l1, l2⟩
      else
        return ⟨b.l0, l1, l2⟩
    else
      return ⟨b.l0, b.l1, l2⟩
  else .error .outOfRange

def test (b : PriceBitset) (priceIdx : Nat) : Exec Bool :=
  if priceIdx < MAX_PRICES then do
    let w2 ← b.l2.get (priceIdx / 64)
    return decide (w2 >>> (priceIdx % 64) &&& 1#64 ≠ 0#64)
  else .error .outOfRange

def empty (b : PriceBitset) : Bool := b.l0 = 0#64

def findHighest (b : PriceBitset) : Exec (Option Nat) :=
  if b.l0 = 0#64 then return none
  else do
    let l1Idx := 63 - (← clzll b.l0)
    let w1 ← b.l1.get l1Idx
    let l2Idx := l1Idx * 64 + (63 - (← clzll w1))
    let w2 ← b.l2.get l2Idx
    return some (64 * l2Idx + (63 - (← clzll w2)))

def findLowest (b : PriceBitset) : Exec (Option Nat) :=
  if b.l0 = 0#64 then return none
  else do
    let l1Idx ← ctzll b.l0
    let w1 ← b.l1.get l1Idx
    let l2Idx := l1Idx * 64 + (← ctzll w1)
    let w2 ← b.l2.get l2Idx
    return some (64 * l2Idx + (← ctzll w2))

/-! ### The set a bitset stands for -/

/-- The three levels agree with the set `S` of prices. -/
structure Represents (b : PriceBitset) (S : Set Nat) : Prop where
  l2 : ∀ j, bits (b.l2.cell j) = within 64 S j
  l1 : ∀ k, bits (b.l1.cell k) = within 64 (blocks 64 S) k
  l0 : bits b.l0 = blocks 64 (blocks 64 S)
  bound : ∀ p ∈ S, p < MAX_PRICES

theorem Represents.unique {b : PriceBitset} {S S' : Set Nat} (h : b.Represents S) (h' : b.Represents S') :
    S = S' := by
  ext p
  have hw : within 64 S (p / 64) = within 64 S' (p / 64) := by rw [← h.l2, ← h'.l2]
  have hp := Set.ext_iff.1 hw (p % 64)
  simpa [mem_within, Nat.div_add_mod, Nat.mod_lt] using hp

/-- The words are determined by the set alone. -/
theorem Represents.ext {b b' : PriceBitset} {S : Set Nat} (h : b.Represents S) (h' : b'.Represents S) : b = b' := by
  obtain ⟨l0, ⟨l1⟩, ⟨l2⟩⟩ := b
  obtain ⟨l0', ⟨l1'⟩, ⟨l2'⟩⟩ := b'
  have e0 : l0 = l0' := bits_injective (h.l0.trans h'.l0.symm)
  have e1 : l1 = l1' := funext fun k => bits_injective ((h.l1 k).trans (h'.l1 k).symm)
  have e2 : l2 = l2' := funext fun j => bits_injective ((h.l2 j).trans (h'.l2 j).symm)
  rw [e0, e1, e2]

theorem represents_new : new.Represents ∅ where
  l2 j := by simp [new]
  l1 k := by simp [new]
  l0 := by simp [new]
  bound p hp := absurd hp (Set.notMem_empty p)

theorem represents_clearAll (b : PriceBitset) : b.clearAll.Represents ∅ := represents_new

private theorem l2Idx_lt {p : Nat} (hp : p < MAX_PRICES) : p / 64 < L2_BLOCKS := by
  unfold L2_BLOCKS BLOCK_SIZE; unfold MAX_PRICES at *; omega

private theorem l1Idx_lt {j : Nat} (hj : j < L2_BLOCKS) : j / 64 < L1_BLOCKS := by
  unfold L1_BLOCKS BLOCK_SIZE; unfold L2_BLOCKS MAX_PRICES BLOCK_SIZE at *; omega

private theorem l0Idx_lt {k : Nat} (hk : k < L1_BLOCKS) : k < 64 := by
  unfold L1_BLOCKS L2_BLOCKS MAX_PRICES BLOCK_SIZE at hk; omega

section Represents

variable {b : PriceBitset} {S : Set Nat} {p : Nat}

private theorem Represents.block_lt (h : b.Represents S) {j : Nat} (hj : j ∈ blocks 64 S) : j < L2_BLOCKS := by
  obtain ⟨r, hr, hp⟩ := hj
  have := l2Idx_lt (h.bound _ hp)
  omega

private theorem Represents.superblock_lt (h : b.Represents S) {k : Nat} (hk : k ∈ blocks 64 (blocks 64 S)) :
    k < L1_BLOCKS := by
  obtain ⟨r, hr, hj⟩ := hk
  have := l1Idx_lt (h.block_lt hj)
  omega

/-- A word of `l2` is not zero exactly when its block is in the summary. -/
theorem Represents.l2_ne_zero (h : b.Represents S) (j : Nat) : b.l2.cell j ≠ 0#64 ↔ j ∈ blocks 64 S := by
  rw [mem_blocks, ← h.l2 j, Ne, ← bits_eq_empty, ← Ne, Set.nonempty_iff_ne_empty]

theorem Represents.l1_ne_zero (h : b.Represents S) (k : Nat) :
    b.l1.cell k ≠ 0#64 ↔ k ∈ blocks 64 (blocks 64 S) := by
  rw [mem_blocks, ← h.l1 k, Ne, ← bits_eq_empty, ← Ne, Set.nonempty_iff_ne_empty]

theorem Represents.l0_eq_zero (h : b.Represents S) : b.l0 = 0#64 ↔ S = ∅ := by
  rw [← bits_eq_empty, h.l0, blocks_eq_empty (by decide), blocks_eq_empty (by decide)]

/-- The bit of `q` is set in its word. -/
private theorem bits_update_or {cell : Nat → BitVec 64} {T : Set Nat} (h : ∀ j, bits (cell j) = within 64 T j)
    (q j : Nat) : bits (Function.update cell (q / 64) (cell (q / 64) ||| bitMask (q % 64)) j) =
      within 64 (insert q T) j := by
  by_cases hj : j = q / 64
  · subst hj
    rw [within_insert_div q (by decide), Function.update_self, bitMask, bits_or_shift (Nat.mod_lt _ (by decide)), h]
  · rw [within_insert_of_ne hj, Function.update_of_ne hj, h]

/-- The bit of `q` is cleared in its word. -/
private theorem bits_update_and {cell : Nat → BitVec 64} {T : Set Nat} (h : ∀ j, bits (cell j) = within 64 T j)
    (q j : Nat) : bits (Function.update cell (q / 64) (cell (q / 64) &&& ~~~bitMask (q % 64)) j) =
      within 64 (T \ {q}) j := by
  by_cases hj : j = q / 64
  · subst hj
    rw [within_erase_div, Function.update_self, bitMask, bits_and_not_shift, h]
  · rw [within_erase_of_ne hj, Function.update_of_ne hj, h]

/-- `set` adds the price. -/
theorem Represents.set (h : b.Represents S) (hp : p < MAX_PRICES) :
    ∃ b', b.set p = .ok b' ∧ b'.Represents (insert p S) := by
  have h2 := l2Idx_lt hp
  have h1 := l1Idx_lt h2
  have h0 := l0Idx_lt h1
  refine ⟨⟨b.l0 ||| bitMask (p / 64 / 64),
    ⟨Function.update b.l1.cell (p / 64 / 64) (b.l1.cell (p / 64 / 64) ||| bitMask (p / 64 % 64))⟩,
    ⟨Function.update b.l2.cell (p / 64) (b.l2.cell (p / 64) ||| bitMask (p % 64))⟩⟩, ?_,
    bits_update_or h.l2 p, fun k => ?_, ?_, ?_⟩
  · simp only [PriceBitset.set, if_pos hp, Table.get_of_lt h2, Table.set_of_lt h2, Table.get_of_lt h1,
      Table.set_of_lt h1, ok_bind, pure_eq_ok]
  · rw [blocks_insert p (by decide)]
    exact bits_update_or h.l1 (p / 64) k
  · rw [blocks_insert p (by decide), blocks_insert _ (by decide), bitMask, bits_or_shift h0, h.l0]
  · rintro q (rfl | hq)
    · exact hp
    · exact h.bound q hq

/-- `clear` removes the price; a summary bit goes exactly when the word it stands for becomes zero. -/
theorem Represents.clear (h : b.Represents S) (hp : p < MAX_PRICES) :
    ∃ b', b.clear p = .ok b' ∧ b'.Represents (S \ {p}) := by
  have h2 := l2Idx_lt hp
  have h1 := l1Idx_lt h2
  have hbound : ∀ q ∈ S \ {p}, q < MAX_PRICES := fun q hq => h.bound q hq.1
  have hw2 : bits (b.l2.cell (p / 64) &&& ~~~bitMask (p % 64)) = within 64 S (p / 64) \ {p % 64} := by
    rw [bitMask, bits_and_not_shift, h.l2]
  have hw1 : bits (b.l1.cell (p / 64 / 64) &&& ~~~bitMask (p / 64 % 64)) =
      within 64 (blocks 64 S) (p / 64 / 64) \ {p / 64 % 64} := by
    rw [bitMask, bits_and_not_shift, h.l1]
  by_cases z2 : b.l2.cell (p / 64) &&& ~~~bitMask (p % 64) = 0#64
  · have e2 : blocks 64 (S \ {p}) = blocks 64 S \ {p / 64} :=
      blocks_erase_of_empty (by rw [← hw2, z2, bits_zero])
    have hl1 : ∀ k, bits (Function.update b.l1.cell (p / 64 / 64)
        (b.l1.cell (p / 64 / 64) &&& ~~~bitMask (p / 64 % 64)) k) = within 64 (blocks 64 (S \ {p})) k := by
      intro k
      rw [e2]
      exact bits_update_and h.l1 (p / 64) k
    by_cases z1 : b.l1.cell (p / 64 / 64) &&& ~~~bitMask (p / 64 % 64) = 0#64
    · refine ⟨⟨b.l0 &&& ~~~bitMask (p / 64 / 64),
        ⟨Function.update b.l1.cell (p / 64 / 64) (b.l1.cell (p / 64 / 64) &&& ~~~bitMask (p / 64 % 64))⟩,
        ⟨Function.update b.l2.cell (p / 64) (b.l2.cell (p / 64) &&& ~~~bitMask (p % 64))⟩⟩, ?_,
        bits_update_and h.l2 p, hl1, ?_, hbound⟩
      · simp only [PriceBitset.clear, if_pos hp, Table.get_of_lt h2, Table.set_of_lt h2, Table.get_of_lt h1,
          Table.set_of_lt h1, ok_bind, pure_eq_ok, if_pos z2, if_pos z1]
      · rw [e2, blocks_erase_of_empty (by rw [← hw1, z1, bits_zero]), bitMask, bits_and_not_shift, h.l0]
    · refine ⟨⟨b.l0,
        ⟨Function.update b.l1.cell (p / 64 / 64) (b.l1.cell (p / 64 / 64) &&& ~~~bitMask (p / 64 % 64))⟩,
        ⟨Function.update b.l2.cell (p / 64) (b.l2.cell (p / 64) &&& ~~~bitMask (p % 64))⟩⟩, ?_,
        bits_update_and h.l2 p, hl1, ?_, hbound⟩
      · simp only [PriceBitset.clear, if_pos hp, Table.get_of_lt h2, Table.set_of_lt h2, Table.get_of_lt h1,
          Table.set_of_lt h1, ok_bind, pure_eq_ok, if_pos z2, if_neg z1]
      · rw [e2, blocks_erase_of_nonempty, h.l0]
        rw [← hw1, Set.nonempty_iff_ne_empty, Ne, bits_eq_empty]
        exact z1
  · have e2 : blocks 64 (S \ {p}) = blocks 64 S := by
      apply blocks_erase_of_nonempty
      rw [← hw2, Set.nonempty_iff_ne_empty, Ne, bits_eq_empty]
      exact z2
    refine ⟨⟨b.l0, b.l1, ⟨Function.update b.l2.cell (p / 64) (b.l2.cell (p / 64) &&& ~~~bitMask (p % 64))⟩⟩, ?_,
      bits_update_and h.l2 p, ?_, ?_, hbound⟩
    · simp only [PriceBitset.clear, if_pos hp, Table.get_of_lt h2, Table.set_of_lt h2, ok_bind, pure_eq_ok,
        if_neg z2]
    · intro k; rw [e2, h.l1]
    · rw [e2, h.l0]

theorem Represents.test (h : b.Represents S) (hp : p < MAX_PRICES) : ∃ t, b.test p = .ok t ∧ (t = true ↔ p ∈ S) := by
  refine ⟨decide (b.l2.cell (p / 64) >>> (p % 64) &&& 1#64 ≠ 0#64), ?_, ?_⟩
  · simp only [PriceBitset.test, if_pos hp, Table.get_of_lt (l2Idx_lt hp), ok_bind, pure_eq_ok]
  · rw [decide_eq_true_eq, shift_and_one_ne_zero (by decide), h.l2, mem_within, Nat.div_add_mod]
    exact and_iff_right (Nat.mod_lt _ (by decide))

/-- `find_lowest` returns the least price, or nothing when there is none; no scan meets a zero word. -/
theorem Represents.findLowest (h : b.Represents S) :
    (b.findLowest = .ok none ∧ S = ∅) ∨ ∃ p, b.findLowest = .ok (some p) ∧ IsLeast S p := by
  by_cases z0 : b.l0 = 0#64
  · exact Or.inl ⟨by simp [PriceBitset.findLowest, z0], h.l0_eq_zero.1 z0⟩
  · right
    have k0 : IsLeast (blocks 64 (blocks 64 S)) b.l0.ctz.toNat := h.l0 ▸ isLeast_ctz z0
    have z1 := (h.l1_ne_zero _).2 k0.1
    have k1 : IsLeast (blocks 64 S) (64 * b.l0.ctz.toNat + (b.l1.cell b.l0.ctz.toNat).ctz.toNat) :=
      isLeast_of_blocks (by decide) k0 (h.l1 _ ▸ isLeast_ctz z1)
    rw [Nat.mul_comm] at k1
    have z2 := (h.l2_ne_zero _).2 k1.1
    refine ⟨_, ?_, isLeast_of_blocks (by decide) k1 (h.l2 _ ▸ isLeast_ctz z2)⟩
    simp only [PriceBitset.findLowest, ctzll, if_neg z0, if_neg z1, if_neg z2, ok_bind, pure_eq_ok,
      Table.get_of_lt (h.superblock_lt k0.1), Table.get_of_lt (h.block_lt k1.1)]

/-- `find_highest` returns the greatest price, or nothing when there is none. -/
theorem Represents.findHighest (h : b.Represents S) :
    (b.findHighest = .ok none ∧ S = ∅) ∨ ∃ p, b.findHighest = .ok (some p) ∧ IsGreatest S p := by
  by_cases z0 : b.l0 = 0#64
  · exact Or.inl ⟨by simp [PriceBitset.findHighest, z0], h.l0_eq_zero.1 z0⟩
  · right
    have k0 : IsGreatest (blocks 64 (blocks 64 S)) (63 - b.l0.clz.toNat) := h.l0 ▸ isGreatest_clz z0
    have z1 := (h.l1_ne_zero _).2 k0.1
    have k1 : IsGreatest (blocks 64 S)
        (64 * (63 - b.l0.clz.toNat) + (63 - (b.l1.cell (63 - b.l0.clz.toNat)).clz.toNat)) :=
      isGreatest_of_blocks (by decide) k0 (h.l1 _ ▸ isGreatest_clz z1)
    rw [Nat.mul_comm] at k1
    have z2 := (h.l2_ne_zero _).2 k1.1
    refine ⟨_, ?_, isGreatest_of_blocks (by decide) k1 (h.l2 _ ▸ isGreatest_clz z2)⟩
    simp only [PriceBitset.findHighest, clzll, if_neg z0, if_neg z1, if_neg z2, ok_bind, pure_eq_ok,
      Table.get_of_lt (h.superblock_lt k0.1), Table.get_of_lt (h.block_lt k1.1)]

end Represents

/-! ### Histories -/

/-- A call that changes a bitset. -/
inductive Op where
  | set (priceIdx : Nat)
  | clear (priceIdx : Nat)
  | clearAll

/-- The index satisfies the assertion. -/
def Op.InRange : Op → Prop
  | .set i => i < MAX_PRICES
  | .clear i => i < MAX_PRICES
  | .clearAll => True

instance : DecidablePred Op.InRange
  | .set i => inferInstanceAs (Decidable (i < MAX_PRICES))
  | .clear i => inferInstanceAs (Decidable (i < MAX_PRICES))
  | .clearAll => inferInstanceAs (Decidable True)

def exec (b : PriceBitset) : Op → Exec PriceBitset
  | .set i => b.set i
  | .clear i => b.clear i
  | .clearAll => .ok b.clearAll

/-- What a call means for the set of prices. -/
def denote (S : Set Nat) : Op → Set Nat
  | .set i => insert i S
  | .clear i => S \ {i}
  | .clearAll => ∅

/-- The bitset after a history. -/
def after (ops : List Op) : Exec PriceBitset := ops.foldlM exec new

/-- The set a history denotes. -/
def denoted (ops : List Op) : Set Nat := ops.foldl denote ∅

theorem Represents.exec {b : PriceBitset} {S : Set Nat} (h : b.Represents S) {op : Op} (hop : op.InRange) :
    ∃ b', b.exec op = .ok b' ∧ b'.Represents (denote S op) := by
  cases op with
  | set i => exact h.set hop
  | clear i => exact h.clear hop
  | clearAll => exact ⟨b.clearAll, rfl, represents_clearAll b⟩

theorem Represents.foldlM {ops : List Op} (hops : ∀ op ∈ ops, op.InRange) :
    ∀ {b : PriceBitset} {S : Set Nat}, b.Represents S →
      ∃ b', ops.foldlM PriceBitset.exec b = .ok b' ∧ b'.Represents (ops.foldl denote S) := by
  induction ops with
  | nil => exact fun {b _} h => ⟨b, rfl, h⟩
  | cons op ops ih =>
    intro b S h
    obtain ⟨b₁, e₁, h₁⟩ := h.exec (hops op (List.mem_cons_self ..))
    obtain ⟨b₂, e₂, h₂⟩ := ih (fun op' ho => hops op' (List.mem_cons_of_mem _ ho)) h₁
    exact ⟨b₂, by rw [List.foldlM_cons, e₁, ok_bind, e₂], h₂⟩

/-- Along every history without a failed assertion the bitset represents the set the history denotes. -/
theorem represents_after {ops : List Op} (hops : ∀ op ∈ ops, op.InRange) :
    ∃ b, after ops = .ok b ∧ b.Represents (denoted ops) :=
  Represents.foldlM hops represents_new

/-- A state that the operations can produce. -/
def Produced (b : PriceBitset) : Prop := ∃ ops : List Op, (∀ op ∈ ops, op.InRange) ∧ after ops = .ok b

private theorem foldl_denote_set (l : List Nat) (S : Set Nat) : (l.map Op.set).foldl denote S = S ∪ {p | p ∈ l} := by
  induction l generalizing S with
  | nil => simp
  | cons p l ih =>
    rw [List.map_cons, List.foldl_cons, ih]
    ext q
    simp only [denote, Set.mem_union, Set.mem_insert_iff, Set.mem_ofPred_eq, List.mem_cons]
    tauto

/-- The states that the operations can produce are those that represent a set. -/
theorem produced_iff {b : PriceBitset} : b.Produced ↔ ∃ S, b.Represents S := by
  constructor
  · rintro ⟨ops, hops, e⟩
    obtain ⟨b', e', h⟩ := represents_after hops
    obtain rfl : b = b' := Except.ok.inj (e.symm.trans e')
    exact ⟨_, h⟩
  · rintro ⟨S, h⟩
    classical
    -- the history that adds one element of `S` after the other
    let l := (List.range MAX_PRICES).filter (· ∈ S)
    have hl : ∀ p, p ∈ l ↔ p ∈ S := fun p => by
      rw [List.mem_filter, List.mem_range, decide_eq_true_eq]
      exact and_iff_right_of_imp fun hp => h.bound p hp
    have hops : ∀ op ∈ l.map Op.set, op.InRange := by
      intro op hop
      obtain ⟨p, hp, rfl⟩ := List.mem_map.1 hop
      exact h.bound p ((hl p).1 hp)
    obtain ⟨b', e, h'⟩ := represents_after hops
    have hS : denoted (l.map Op.set) = S := by
      rw [denoted, foldl_denote_set, Set.empty_union]
      exact Set.ext hl
    rw [hS] at h'
    exact ⟨_, hops, h'.ext h ▸ e⟩

/-- A query reports that a set is empty, or the only one of its elements with a property. -/
theorem reports_iff {S : Set Nat} {P : Nat → Prop} {m : Exec (Option Nat)} (hmem : ∀ p, P p → p ∈ S)
    (huniq : ∀ p q, P p → P q → p = q) (h : m = .ok none ∧ S = ∅ ∨ ∃ p, m = .ok (some p) ∧ P p) :
    ∃ r, m = .ok r ∧ (r = none ↔ S = ∅) ∧ ∀ p, r = some p ↔ P p := by
  rcases h with ⟨e, hS⟩ | ⟨p, e, hp⟩
  · refine ⟨none, e, iff_of_true rfl hS, fun p => iff_of_false nofun fun hp => ?_⟩
    exact Set.notMem_empty p (hS ▸ hmem p hp)
  · refine ⟨some p, e, iff_of_false nofun (Set.nonempty_iff_ne_empty.1 ⟨p, hmem p hp⟩), fun q => ?_⟩
    rw [Option.some.injEq]
    exact ⟨fun e => e ▸ hp, fun hq => huniq p q hp hq⟩

/-- A bitset implements a finite set of prices: after every history it answers all queries about the set the
history denotes, never scans a zero word, keeps both summary levels exact, and has words that depend on that set
alone. -/
theorem after_refines_set (ops : List Op) (hops : ∀ op ∈ ops, op.InRange) :
    ∃ b, after ops = .ok b ∧
      (∀ i, i < MAX_PRICES → ∃ t, b.test i = .ok t ∧ (t = true ↔ i ∈ denoted ops)) ∧
      (b.empty = true ↔ denoted ops = ∅) ∧
      (∃ lo, b.findLowest = .ok lo ∧ (lo = none ↔ denoted ops = ∅) ∧ ∀ p, lo = some p ↔ IsLeast (denoted ops) p) ∧
      (∃ hi, b.findHighest = .ok hi ∧ (hi = none ↔ denoted ops = ∅) ∧
        ∀ p, hi = some p ↔ IsGreatest (denoted ops) p) ∧
      (∀ j, j < L2_BLOCKS → ((b.l1.cell (j / 64)).getLsbD (j % 64) = true ↔ b.l2.cell j ≠ 0#64)) ∧
      (∀ k, k < L1_BLOCKS → (b.l0.getLsbD k = true ↔ b.l1.cell k ≠ 0#64)) ∧
      ∀ ops', (∀ op ∈ ops', op.InRange) → denoted ops' = denoted ops → after ops' = .ok b := by
  obtain ⟨b, e, h⟩ := represents_after hops
  refine ⟨b, e, fun i hi => h.test hi, ?_, ?_, ?_, ?_, ?_, ?_⟩
  · rw [empty, decide_eq_true_eq, h.l0_eq_zero]
  · exact reports_iff (fun _ hp => hp.1) (fun _ _ hp hq => hp.unique hq) h.findLowest
  · exact reports_iff (fun _ hp => hp.1) (fun _ _ hp hq => hp.unique hq) h.findHighest
  · intro j _
    rw [← mem_bits, h.l1, mem_within, Nat.div_add_mod, h.l2_ne_zero]
    exact and_iff_right (Nat.mod_lt _ (by decide))
  · intro k _
    rw [← mem_bits, h.l0, h.l1_ne_zero]
  · intro ops' hops' hS
    obtain ⟨b', e', h'⟩ := represents_after hops'
    rw [e', h'.ext (hS ▸ h)]

theorem after_refines_set_clear :
    ∃ b, after [.set 475, .set 5009, .clear 5009] = .ok b ∧ ∃ t, b.test 475 = .ok t := by
  obtain ⟨b, e, htest, _⟩ := after_refines_set [.set 475, .set 5009, .clear 5009] (by decide)
  obtain ⟨t, ht, _⟩ := htest 475 (by decide)
  exact ⟨b, e, t, ht⟩

end PriceBitset

end Lobook
