import Lobook.Book.Twins

/-!
# What `init` leaves in the vectors

`init` resizes the two vectors, so a book that was used before keeps its orders, apart from their links, and its map.
A caller cannot see this if the leftovers are `Forgettable`: then the initialised book is related to a new one
(`twins_of_forgettable`, `vacant_of_forgettable`).
-/

namespace Lobook

open Checked

namespace Ladder

/-- The order that `init` finds in a slot, or that a vector which grows gets there. -/
def kept (b : Ladder) (i : Nat) : Order := if i < b.orders.size then b.order i else ⟨0, 0, 0, false, 0, 0⟩

/-- The entry that `init` finds for an id, or that a vector which grows gets for it. -/
def keptSlot (b : Ladder) (id : Nat) : Nat := if id < b.idMap.size then b.slot id else 0

/-- The leftovers that cannot be seen after `init`: every entry is 0, as in a new book, or null in a book of size 1; if
id 0 has the entry 0, its order has no quantity and can be cancelled; the orders of the slots from 2 on that the free
list reaches have neither a quantity nor another id than 0. -/
structure Forgettable (b : Ladder) (n : Nat) : Prop where
  entry : ∀ id, id < n → b.keptSlot id = 0 ∨ n = 1 ∧ b.keptSlot id = NULL_IDX
  first : b.keptSlot 0 = 0 →
    (b.kept 0).qty = 0 ∧ (b.kept 0).price < MAX_PRICES ∧ ((b.kept 0).prev = NULL_IDX ∨ (b.kept 0).prev < n)
  rest : ∀ i, 2 ≤ i → i < n → i < NULL_IDX → (b.kept i).qty = 0 ∧ (b.kept i).id = 0

variable {b b' b₀ b₁ : Ladder} {n i id : Nat}

theorem new_forgettable (hn : 0 < n) : Ladder.new.Forgettable n where
  entry _ _ := Or.inl rfl
  first _ := ⟨rfl, by decide, Or.inr hn⟩
  rest _ _ _ _ := ⟨rfl, rfl⟩

/-- A book of size at least 2 has no null entry. -/
theorem Forgettable.entry_eq (hf : b.Forgettable n) (hn : 2 ≤ n) (hid : id < n) : b.keptSlot id = 0 :=
  (hf.entry id hid).resolve_right fun h => by omega

theorem idMap_of_init (h : b.init n = .ok b') : b'.idMap = b.idMap.resize n 0 := by
  obtain ⟨orders, _, h⟩ := bind_eq_ok.1 h
  cases h
  rfl

namespace Initialised

theorem kept (h : b.Initialised n b') (hi : i < n) : b'.order i = { b.kept i with next := (b'.order i).next } :=
  h.fields i hi _ rfl

theorem keptSlot (h : b.Initialised n b') (hid : id < n) : b'.slot id = b.keptSlot id := h.slot id hid

/-- The links lead from slot to slot until the last one, or until the last one that an index can be stored for. -/
theorem next_eq (h : b.Initialised n b') (hi : i ∈ slots n) :
    (b'.order i).next = if i = n - 1 then NULL_IDX else i + 1 := by
  have hnull : NULL_IDX = 4294967295 := rfl
  obtain ⟨hlt, hle⟩ := hi
  rw [h.next i hlt, u32]
  split
  · rfl
  · omega

theorem next_mem (h : b.Initialised n b') (hi : i ∈ slots n) : Within (slots n) (b'.order i).next := by
  rw [h.next_eq hi]
  split
  · exact within_null
  · intro hnull
    obtain ⟨hlt, hle⟩ := hi
    exact ⟨by omega, by omega⟩

/-- No order rests, and if an entry leads to slot 0 then the order there can be cancelled. -/
theorem idle (h : b.Initialised n b') (hf : b.Forgettable n) : b'.Idle := by
  have hzero : (0 : Nat) ∈ slots n := ⟨h.pos, by decide⟩
  refine ⟨h.level, h.size.symm ▸ h.pos, h.free, ?_, fun id hid => ?_, fun id hid hslot => ?_⟩
  · rw [Fits, h.size, h.next_eq hzero]
    split
    · exact Or.inl rfl
    · exact Or.inr (by omega)
  · rw [h.map_size] at hid
    rw [h.keptSlot hid]
    exact (hf.entry id hid).imp_right And.right
  · rw [h.map_size] at hid
    rw [h.keptSlot hid] at hslot
    have hentry : b.keptSlot 0 = 0 := by
      rcases Nat.lt_or_ge n 2 with hn | hn
      · obtain rfl : id = 0 := by omega
        exact hslot
      · exact hf.entry_eq hn h.pos
    obtain ⟨_, hprice, hprev⟩ := hf.first hentry
    rw [Fits, h.size, h.kept h.pos]
    exact ⟨hprice, hprev⟩

end Initialised

/-- Two forgettable books of size at least 2 are related after `init`. -/
theorem twins_of_forgettable (hf : b.Forgettable n) (hf₀ : b₀.Forgettable n) (hn : 2 ≤ n) (h : b.init n = .ok b')
    (h₀ : b₀.init n = .ok b₁) : Twins n b' b₁ := by
  have hi := initialised_of_eq_ok h
  have hi₀ := initialised_of_eq_ok h₀
  -- all entries are 0, so the two maps are the same one
  have hmap : ∀ {b : Ladder}, b.Forgettable n → b.idMap.resize n 0 = ⟨n, fun _ => 0⟩ := by
    intro b hf
    refine congrArg (Vec.mk n) (funext fun id => ?_)
    split
    · rename_i hid
      have hentry := hf.entry_eq hn hid.1
      rwa [Ladder.keptSlot, if_pos hid.2] at hentry
    · rfl
  have hzero : (0 : Nat) ∈ slots n := ⟨hi.pos, by decide⟩
  have hone : (1 : Nat) ∈ slots n := ⟨hn, by decide⟩
  refine .idle (hi.idle hf) (hi₀.idle hf₀) ⟨hi.size, hi₀.size, ?_, hi.map_size⟩ ?_ ?_ (Or.inr ⟨?_, ?_⟩)
  · rw [idMap_of_init h, idMap_of_init h₀, hmap hf, hmap hf₀]
  · rw [hi.kept hi.pos, hi₀.kept hi.pos]
    exact (hf₀.first (hf₀.entry_eq hn hi.pos)).1.trans (hf.first (hf.entry_eq hn hi.pos)).1.symm
  · rw [hi.next_eq hzero, hi₀.next_eq hzero]
  · rw [hi.next_eq hzero, if_neg (by omega)]
  · refine ⟨hzero, hone, by rw [hi.next_eq hone, hi₀.next_eq hone], fun i hi' hle => ?_, fun i hi' _ => hi.next_mem hi'⟩
    obtain ⟨hqty, hid⟩ := hf.rest i hle hi'.1 hi'.2
    obtain ⟨hqty₀, hid₀⟩ := hf₀.rest i hle hi'.1 hi'.2
    refine ⟨?_, ?_, by rw [hi.next_eq hi', hi₀.next_eq hi']⟩
    · rw [hi.kept hi'.1, hi₀.kept hi'.1]
      exact hid₀.trans hid.symm
    · rw [hi.kept hi'.1, hi₀.kept hi'.1]
      exact hqty₀.trans hqty.symm

theorem vacant_of_forgettable (hf : b.Forgettable 1) (h : b.Initialised 1 b') : b'.Vacant := by
  refine ⟨h.idle hf, h.size, h.map_size, fun hslot => ?_⟩
  rw [h.kept Nat.one_pos]
  rw [h.keptSlot Nat.one_pos] at hslot
  exact (hf.first hslot).1

/-- After `init` a forgettable book cannot be told from a new one. -/
theorem indistinct_of_forgettable (hn : 0 < n) (hf : b.Forgettable n) (h : b.init n = .ok b')
    (h₀ : Ladder.new.init n = .ok b₁) : ∃ R, Indistinct n R ∧ R b' b₁ := by
  have hf₀ := new_forgettable hn
  rcases Nat.lt_or_ge n 2 with hlt | hle
  · obtain rfl : n = 1 := by omega
    exact ⟨Sole, Sole.indistinct, Or.inl ⟨vacant_of_forgettable hf (initialised_of_eq_ok h),
      vacant_of_forgettable hf₀ (initialised_of_eq_ok h₀)⟩⟩
  · exact ⟨Twins n, Twins.indistinct n, twins_of_forgettable hf hf₀ hle h h₀⟩

end Ladder

end Lobook
