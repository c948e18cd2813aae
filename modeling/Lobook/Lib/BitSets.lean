import Mathlib.Order.Bounds.Basic
import Mathlib.Data.Set.Insert

/-!
# Sets of numbers, block by block

A word is read as the set of the positions of its bits, and a set of numbers is cut into blocks of length `c`:
`within c S k` is what block `k` holds (as offsets) and `blocks c S` the set of the blocks that hold anything.
Cutting `blocks c S` again gives the summary levels of a hierarchical bitset.  The facts used by such a structure
are proved here: the extremes of a set come from the extremes of its summary and of one block, and inserting or
erasing one number changes one block and at most one element of the summary.
-/

namespace BitSets

/-! ### Words as sets of positions -/

variable {w : Nat}

/-- The positions of the bits of a word. -/
def bits (x : BitVec w) : Set Nat := {i | x.getLsbD i = true}

theorem mem_bits {x : BitVec w} {i : Nat} : i ∈ bits x ↔ x.getLsbD i = true := Iff.rfl

@[simp] theorem bits_zero : bits 0#w = ∅ := by
  ext i; simp [bits]

theorem bits_injective {x y : BitVec w} (h : bits x = bits y) : x = y := by
  apply BitVec.eq_of_getLsbD_eq
  intro i _
  have hi : i ∈ bits x ↔ i ∈ bits y := by rw [h]
  rw [Bool.eq_iff_iff]
  exact hi

theorem bits_eq_empty {x : BitVec w} : bits x = ∅ ↔ x = 0#w := by
  constructor
  · intro h; exact bits_injective (h.trans bits_zero.symm)
  · rintro rfl; exact bits_zero

/-- Setting one bit. -/
theorem bits_or_shift {x : BitVec w} {i : Nat} (hi : i < w) : bits (x ||| 1#w <<< i) = insert i (bits x) := by
  ext j
  simp only [mem_bits, BitVec.getLsbD_or, BitVec.getLsbD_shiftLeft, BitVec.getLsbD_one, Set.mem_insert_iff,
    Bool.or_eq_true, Bool.and_eq_true, decide_eq_true_eq, Bool.not_eq_true', decide_eq_false_iff_not]
  constructor
  · rintro (h | ⟨_, _, h⟩)
    · exact Or.inr h
    · left; omega
  · rintro (rfl | h)
    · right; omega
    · exact Or.inl h

/-- Clearing one bit. -/
theorem bits_and_not_shift {x : BitVec w} {i : Nat} : bits (x &&& ~~~(1#w <<< i)) = bits x \ {i} := by
  ext j
  by_cases hj : j < w
  · simp only [mem_bits, BitVec.getLsbD_and, BitVec.getLsbD_not, BitVec.getLsbD_shiftLeft, BitVec.getLsbD_one,
      Set.mem_sdiff, Set.mem_singleton_iff, Bool.and_eq_true, Bool.not_eq_true', hj, decide_true, Bool.true_and,
      Bool.and_eq_false_iff, decide_eq_false_iff_not, Bool.not_eq_false', decide_eq_true_eq]
    constructor
    · rintro ⟨h, h'⟩
      exact ⟨h, by omega⟩
    · rintro ⟨h, h'⟩
      exact ⟨h, by omega⟩
  · simp [mem_bits, BitVec.getLsbD_of_ge _ _ (Nat.le_of_not_lt hj)]

/-- Reading one bit. -/
theorem shift_and_one_ne_zero (hw : 0 < w) {x : BitVec w} {i : Nat} :
    x >>> i &&& 1#w ≠ 0#w ↔ i ∈ bits x := by
  rw [Ne, ← bits_eq_empty, ← Ne, ← Set.nonempty_iff_ne_empty]
  constructor
  · rintro ⟨j, hj⟩
    simp only [mem_bits, BitVec.getLsbD_and, BitVec.getLsbD_ushiftRight, BitVec.getLsbD_one, Bool.and_eq_true,
      decide_eq_true_eq] at hj
    obtain ⟨hj, _, rfl⟩ := hj
    exact hj
  · intro h
    rw [mem_bits] at h
    exact ⟨0, by simp [mem_bits, h, hw]⟩

/-- Counting trailing zeros finds the lowest bit. -/
theorem isLeast_ctz {x : BitVec w} (hx : x ≠ 0#w) : IsLeast (bits x) x.ctz.toNat := by
  refine ⟨BitVec.getLsbD_true_ctz_of_ne_zero hx, fun i hi => ?_⟩
  rw [mem_bits] at hi
  by_contra h
  rw [BitVec.getLsbD_false_of_lt_ctz (Nat.lt_of_not_le h)] at hi
  exact Bool.false_ne_true hi

/-- Counting leading zeros finds the highest bit. -/
theorem isGreatest_clz {x : BitVec w} (hx : x ≠ 0#w) : IsGreatest (bits x) (w - 1 - x.clz.toNat) := by
  have hw : 0 < w := by
    rcases Nat.eq_zero_or_pos w with rfl | h
    · exact absurd (BitVec.eq_nil x) hx
    · exact h
  refine ⟨BitVec.getLsbD_true_clz_of_ne_zero hw hx, fun i hi => ?_⟩
  have hbit : 2 ^ i ≤ x.toNat := Nat.ge_two_pow_of_testBit hi
  have hlt : x.toNat < 2 ^ (w - x.clz.toNat) := BitVec.toNat_lt_two_pow_sub_clz
  have hiw : i < w - x.clz.toNat := (Nat.pow_lt_pow_iff_right (by omega)).1 (Nat.lt_of_le_of_lt hbit hlt)
  omega

/-! ### Blocks -/

variable {c : Nat} {S : Set Nat}

/-- The offsets of the elements of block `k`. -/
def within (c : Nat) (S : Set Nat) (k : Nat) : Set Nat := {r | r < c ∧ c * k + r ∈ S}

/-- The blocks that are not empty. -/
def blocks (c : Nat) (S : Set Nat) : Set Nat := {k | (within c S k).Nonempty}

theorem mem_within {k r : Nat} : r ∈ within c S k ↔ r < c ∧ c * k + r ∈ S := Iff.rfl

theorem mem_blocks {k : Nat} : k ∈ blocks c S ↔ (within c S k).Nonempty := Iff.rfl

theorem div_mem_blocks {p : Nat} (hc : 0 < c) (hp : p ∈ S) : p / c ∈ blocks c S :=
  ⟨p % c, Nat.mod_lt p hc, by rwa [Nat.div_add_mod]⟩

@[simp] theorem within_empty (k : Nat) : within c ∅ k = ∅ := by
  ext r; simp [within]

@[simp] theorem blocks_empty : blocks c ∅ = ∅ := by
  ext k; simp [blocks]

theorem blocks_eq_empty (hc : 0 < c) : blocks c S = ∅ ↔ S = ∅ := by
  constructor
  · intro h
    rw [Set.eq_empty_iff_forall_notMem] at h ⊢
    exact fun p hp => h _ (div_mem_blocks hc hp)
  · rintro rfl; exact blocks_empty

/-- The least element is the least offset of the least block. -/
theorem isLeast_of_blocks {k r : Nat} (hc : 0 < c) (hk : IsLeast (blocks c S) k) (hr : IsLeast (within c S k) r) :
    IsLeast S (c * k + r) := by
  refine ⟨hr.1.2, fun p hp => ?_⟩
  have hkp : k ≤ p / c := hk.2 (div_mem_blocks hc hp)
  have hp' := Nat.div_add_mod p c
  rcases Nat.lt_or_eq_of_le hkp with h | h
  · have hmul : c * (k + 1) ≤ c * (p / c) := Nat.mul_le_mul_left c h
    have hrc := hr.1.1
    rw [Nat.mul_add, Nat.mul_one] at hmul
    omega
  · have hle : r ≤ p % c := hr.2 ⟨Nat.mod_lt p hc, by rw [h, hp']; exact hp⟩
    rw [← h] at hp'
    omega

/-- The greatest element is the greatest offset of the greatest block. -/
theorem isGreatest_of_blocks {k r : Nat} (hc : 0 < c) (hk : IsGreatest (blocks c S) k)
    (hr : IsGreatest (within c S k) r) : IsGreatest S (c * k + r) := by
  refine ⟨hr.1.2, fun p hp => ?_⟩
  have hkp : p / c ≤ k := hk.2 (div_mem_blocks hc hp)
  have hp' := Nat.div_add_mod p c
  have hpc := Nat.mod_lt p hc
  rcases Nat.lt_or_eq_of_le hkp with h | h
  · have hmul : c * (p / c + 1) ≤ c * k := Nat.mul_le_mul_left c h
    rw [Nat.mul_add, Nat.mul_one] at hmul
    omega
  · have hle : p % c ≤ r := hr.2 ⟨hpc, by rw [← h, hp']; exact hp⟩
    rw [h] at hp'
    omega

private theorem mul_add_eq_iff {k r p : Nat} (hr : r < c) : c * k + r = p ↔ k = p / c ∧ r = p % c := by
  have hc : 0 < c := Nat.lt_of_le_of_lt (Nat.zero_le r) hr
  constructor
  · rintro rfl
    rw [Nat.mul_add_div hc, Nat.mul_add_mod, Nat.div_eq_of_lt hr, Nat.mod_eq_of_lt hr]
    exact ⟨rfl, rfl⟩
  · rintro ⟨rfl, rfl⟩
    exact Nat.div_add_mod p c

theorem within_insert_div (p : Nat) (hc : 0 < c) :
    within c (insert p S) (p / c) = insert (p % c) (within c S (p / c)) := by
  ext r
  simp only [mem_within, Set.mem_insert_iff]
  constructor
  · rintro ⟨hr, h | h⟩
    · exact Or.inl ((mul_add_eq_iff hr).1 h).2
    · exact Or.inr ⟨hr, h⟩
  · rintro (rfl | ⟨hr, h⟩)
    · exact ⟨Nat.mod_lt p hc, Or.inl (Nat.div_add_mod p c)⟩
    · exact ⟨hr, Or.inr h⟩

theorem within_insert_of_ne {p k : Nat} (h : k ≠ p / c) : within c (insert p S) k = within c S k := by
  ext r
  simp only [mem_within, Set.mem_insert_iff]
  constructor
  · rintro ⟨hr, h' | h'⟩
    · exact absurd ((mul_add_eq_iff hr).1 h').1 h
    · exact ⟨hr, h'⟩
  · rintro ⟨hr, h'⟩; exact ⟨hr, Or.inr h'⟩

theorem blocks_insert (p : Nat) (hc : 0 < c) : blocks c (insert p S) = insert (p / c) (blocks c S) := by
  ext k
  rw [Set.mem_insert_iff, mem_blocks, mem_blocks]
  by_cases h : k = p / c
  · subst h
    rw [within_insert_div p hc]
    exact iff_of_true (Set.insert_nonempty _ _) (Or.inl rfl)
  · rw [within_insert_of_ne h]
    exact ⟨Or.inr, fun h' => h'.resolve_left h⟩

theorem within_erase_div (p : Nat) : within c (S \ {p}) (p / c) = within c S (p / c) \ {p % c} := by
  ext r
  simp only [mem_within, Set.mem_sdiff, Set.mem_singleton_iff]
  constructor
  · rintro ⟨hr, h, hne⟩
    exact ⟨⟨hr, h⟩, fun e => hne ((mul_add_eq_iff hr).2 ⟨rfl, e⟩)⟩
  · rintro ⟨⟨hr, h⟩, hne⟩
    exact ⟨hr, h, fun e => hne ((mul_add_eq_iff hr).1 e).2⟩

theorem within_erase_of_ne {p k : Nat} (h : k ≠ p / c) : within c (S \ {p}) k = within c S k := by
  ext r
  simp only [mem_within, Set.mem_sdiff, Set.mem_singleton_iff]
  constructor
  · rintro ⟨hr, h', _⟩; exact ⟨hr, h'⟩
  · rintro ⟨hr, h'⟩; exact ⟨hr, h', fun e => h ((mul_add_eq_iff hr).1 e).1⟩

/-- Erasing the last element of a block removes the block from the summary. -/
theorem blocks_erase_of_empty {p : Nat} (h : within c S (p / c) \ {p % c} = ∅) :
    blocks c (S \ {p}) = blocks c S \ {p / c} := by
  ext k
  rw [Set.mem_sdiff, Set.mem_singleton_iff, mem_blocks, mem_blocks]
  by_cases hk : k = p / c
  · subst hk
    rw [within_erase_div, h]
    exact iff_of_false Set.not_nonempty_empty fun h' => h'.2 rfl
  · rw [within_erase_of_ne hk]
    exact ⟨fun h' => ⟨h', hk⟩, fun h' => h'.1⟩

/-- Erasing any other element leaves the summary as it was. -/
theorem blocks_erase_of_nonempty {p : Nat} (h : (within c S (p / c) \ {p % c}).Nonempty) :
    blocks c (S \ {p}) = blocks c S := by
  ext k
  rw [mem_blocks, mem_blocks]
  by_cases hk : k = p / c
  · subst hk
    rw [within_erase_div]
    exact iff_of_true h (h.mono Set.sdiff_subset)
  · rw [within_erase_of_ne hk]

end BitSets
