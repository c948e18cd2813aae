import Lobook.Book.Alike

/-!
# An empty book and its first order

After `init` every level is empty, but the map of the new book sends every id to slot 0, which is also the first free
slot.  These are the states that are reached as long as no second slot is in use: the book with empty levels (`Idle`),
and the book whose only order is in slot 0 (`Lone`).
-/

namespace Lobook

open Checked

namespace Ladder

/-- The map leads to slot 0 at most. -/
def Narrow (b : Ladder) : Prop := ∀ id, id < b.idMap.size → b.slot id = 0 ∨ b.slot id = NULL_IDX

/-- Every level is empty, and slot 0 is the first free one.  If an entry leads there, its order can be cancelled. -/
structure Idle (b : Ladder) : Prop where
  level : ∀ s p, b.level s p = ⟨NULL_IDX, NULL_IDX⟩
  pos : 0 < b.orders.size
  free : b.nextFreeOrderIdx = 0
  next : b.Fits (b.order 0).next
  narrow : b.Narrow
  back : ∀ id, id < b.idMap.size → b.slot id = 0 → (b.order 0).price < MAX_PRICES ∧ b.Fits (b.order 0).prev

/-- The only order of the levels is `o`, in slot 0. -/
structure Lone (b : Ladder) (o : Order) : Prop where
  level : ∀ s p, b.level s p = if s = o.isBuy ∧ p = o.price then ⟨0, 0⟩ else ⟨NULL_IDX, NULL_IDX⟩
  pos : 0 < b.orders.size
  free : b.Fits b.nextFreeOrderIdx
  narrow : b.Narrow
  order : b.order 0 = o
  next : o.next = NULL_IDX
  prev : o.prev = NULL_IDX
  price : o.price < MAX_PRICES
  id : o.id < b.idMap.size

variable {b b' : Ladder} {s : Bool} {p id price qty : Nat} {o : Order}

theorem zero_ne_null : (0 : Nat) ≠ NULL_IDX := by decide

theorem Narrow.withSlot (h : b.Narrow) {i : Nat} (hi : i = 0 ∨ i = NULL_IDX) (id : Nat) :
    (b.withSlot id i).Narrow := by
  intro id' hid
  rw [slot_withSlot]
  split
  · exact hi
  · exact h id' hid

/-- The entry of an id is erased. -/
theorem Narrow.erase (h : b.Narrow) (hmap : b'.idMap = (b.withSlot id NULL_IDX).idMap) : b'.Narrow := by
  intro id' hid
  rw [hmap] at hid
  rw [Ladder.slot, hmap]
  exact h.withSlot (Or.inr rfl) id id' hid

/-- To cancel the order in a slot erases an entry. -/
theorem Unlinked.idMap_freed {i : Nat} (h : b.Unlinked s p i b') :
    (FastOrderBook.freed b' id i).idMap = (b.withSlot id NULL_IDX).idMap := by
  simp only [FastOrderBook.freed, Ladder.withSlot, idMap_withFree, idMap_withOrder, h.idMap]

/-! ### The empty book -/

namespace Idle

theorem head (h : b.Idle) (s : Bool) (p : Nat) : (b.level s p).head = NULL_IDX := by rw [h.level]

theorem not_resting (h : b.Idle) (id : Nat) : ¬ b.Resting id :=
  not_resting_of_within (S := ∅) (fun s p hne => absurd (h.head s p) hne) (fun _ hi => hi.elim) fun _ hi => hi.elim

/-- To cancel an id whose entry leads to slot 0 makes this slot its own successor. -/
theorem cancelOrder (h : b.Idle) (hid : id < b.idMap.size) (hslot : b.slot id = 0) :
    ∃ b', FastOrderBook.cancelOrder b id = .ok b' ∧ b'.Idle ∧ b'.orders.size = b.orders.size ∧
      b'.idMap = (b.withSlot id NULL_IDX).idMap ∧ (b'.order 0).qty = (b.order 0).qty ∧ (b'.order 0).next = 0 := by
  obtain ⟨hprice, hprev⟩ := h.back id hid hslot
  obtain ⟨b₁, hu, e⟩ := FastOrderBook.cancelOrder_of_lt hid (hslot ▸ zero_ne_null) (hslot ▸ h.pos) (hslot ▸ hprice)
    (hslot ▸ hprev) (hslot ▸ h.next)
  rw [hslot] at hu e
  have horder : (FastOrderBook.freed b₁ id 0).order 0 = { b.order 0 with prev := NULL_IDX, next := 0 } := by
    rw [order_freed_self, hu.order, hu.free, h.free]
  refine ⟨_, e, ⟨fun s p => ?_, hu.size.symm ▸ h.pos, rfl, ?_, h.narrow.erase hu.idMap_freed, fun _ _ _ => ?_⟩,
    hu.size, hu.idMap_freed, ?_, ?_⟩
  · have hlevel : b₁.level s p = ⟨NULL_IDX, NULL_IDX⟩ := by
      rw [hu.level, h.level, h.level]
      simp only [if_neg zero_ne_null.symm, ite_self]
    exact hlevel
  · rw [horder]
    exact Or.inr (hu.size.symm ▸ h.pos)
  · rw [horder]
    exact ⟨hprice, Or.inl rfl⟩
  · rw [horder]
  · rw [horder]

/-- A new order gets slot 0. -/
theorem addOrder (h : b.Idle) (hid : id < b.idMap.size) (hp : price < MAX_PRICES) (qty : Nat) (s : Bool) :
    ∃ b', FastOrderBook.addOrder b id price qty s = .ok b' ∧ b'.Lone ⟨id, price, qty, s, NULL_IDX, NULL_IDX⟩ ∧
      b'.orders.size = b.orders.size ∧ b'.idMap = (b.withSlot id 0).idMap ∧
      b'.nextFreeOrderIdx = (b.order 0).next ∧ ∀ j, j ≠ 0 → b'.order j = b.order j := by
  have hnull : b.nextFreeOrderIdx ≠ NULL_IDX := h.free ▸ zero_ne_null
  have e : FastOrderBook.addOrder b id price qty s = _ :=
    FastOrderBook.addOrder_empty hnull (h.free ▸ h.pos) hid hp (h.head s price)
  rw [Ladder.taken, h.free] at e
  refine ⟨_, e, ⟨fun s' p' => ?_, h.pos, h.next, ?_, ?_, rfl, rfl, hp, hid⟩, rfl, rfl, rfl, fun j hj => ?_⟩
  · rw [level_withLevel]
    split
    · rfl
    · exact h.level s' p'
  · exact Narrow.withSlot (b := (b.withFree (b.order 0).next).withOrder 0 _) h.narrow (Or.inl rfl) id
  · simp only [order_withLevel, order_withSlot, order_withOrder, if_true]
  · simp only [order_withLevel, order_withSlot, order_withOrder, if_neg hj, order_withFree]

end Idle

/-! ### The first order -/

namespace Lone

theorem head (h : b.Lone o) : (b.level o.isBuy o.price).head = 0 := by rw [h.level, if_pos ⟨rfl, rfl⟩]

theorem head_other (h : b.Lone o) (hne : ¬ (s = o.isBuy ∧ p = o.price)) : (b.level s p).head = NULL_IDX := by
  rw [h.level, if_neg hne]

theorem resting (h : b.Lone o) : b.Resting o.id := by
  refine ⟨o.isBuy, o.price, h.price, 0, ?_, by rw [h.order]⟩
  obtain ⟨size, hsize⟩ : ∃ k, b.orders.size = k + 1 := ⟨b.orders.size - 1, by have := h.pos; omega⟩
  simp only [queue, h.head, hsize, Links.walk, if_neg zero_ne_null, List.mem_cons, true_or]

theorem fillRound_part (h : b.Lone o) (hqty : 0 < qty) (hless : qty < o.qty) :
    fillRound o.isBuy o.price (b, qty) = .ok (.done (b.reduced o.isBuy o.price qty, 0)) := by
  have horder : b.order (b.level o.isBuy o.price).head = o := by rw [h.head, h.order]
  exact Ladder.fillRound_part h.price (h.head ▸ zero_ne_null) (h.head ▸ h.pos) hqty (horder.symm ▸ hless)

theorem fillRound_full (h : b.Lone o) (hqty : 0 < qty) (hge : o.qty ≤ qty) :
    fillRound o.isBuy o.price (b, qty) = .ok (.again (b.popped o.isBuy o.price, qty - o.qty)) := by
  have horder : b.order (b.level o.isBuy o.price).head = o := by rw [h.head, h.order]
  have hround := Ladder.fillRound_full h.price (h.head ▸ zero_ne_null) (h.head ▸ h.pos) (horder.symm ▸ h.id) hqty
    (horder.symm ▸ hge)
  rw [hround, horder]

/-- The order is filled in part. -/
theorem reduced (h : b.Lone o) (qty : Nat) :
    (b.reduced o.isBuy o.price qty).Lone { o with qty := o.qty - qty } where
  level := h.level
  pos := h.pos
  free := h.free
  narrow := h.narrow
  order := by rw [Ladder.order_reduced h.head, if_pos rfl, h.order]
  next := h.next
  prev := h.prev
  price := h.price
  id := h.id

theorem order_reduced (h : b.Lone o) (qty j : Nat) (hj : j ≠ 0) :
    (b.reduced o.isBuy o.price qty).order j = b.order j := by
  rw [Ladder.order_reduced h.head, if_neg hj]

/-- The order is filled. -/
theorem popped (h : b.Lone o) : (b.popped o.isBuy o.price).Idle ∧
    (b.popped o.isBuy o.price).idMap = (b.withSlot o.id NULL_IDX).idMap ∧
    (b.popped o.isBuy o.price).order 0 = { o with qty := 0, next := b.nextFreeOrderIdx } ∧
    ∀ j, j ≠ 0 → (b.popped o.isBuy o.price).order j = b.order j := by
  have horder : (b.popped o.isBuy o.price).order 0 = { o with qty := 0, next := b.nextFreeOrderIdx } := by
    rw [order_popped_self h.head, h.order]
  have hmap : (b.popped o.isBuy o.price).idMap = (b.withSlot o.id NULL_IDX).idMap := by
    simp only [Ladder.popped, h.head, h.order, idMap_withFree, idMap_withLevel, Ladder.withSlot, idMap_withOrder]
  refine ⟨⟨fun s p => ?_, h.pos, h.head, ?_, h.narrow.erase hmap, fun _ _ _ => ?_⟩, hmap, horder,
    fun j => order_popped h.head⟩
  · simp only [Ladder.popped, level_withFree, level_withLevel, level_withSlot, level_withOrder, h.head, h.order, h.next,
      if_true]
    split
    · rfl
    · rename_i hne
      rw [h.level, if_neg hne]
  · rw [horder]
    exact h.free
  · rw [horder]
    exact ⟨h.price, Or.inl h.prev⟩

/-- To cancel an id whose entry leads to slot 0 empties the book. -/
theorem cancelOrder (h : b.Lone o) (hid : id < b.idMap.size) (hslot : b.slot id = 0) :
    ∃ b', FastOrderBook.cancelOrder b id = .ok b' ∧ b'.Idle ∧ b'.orders.size = b.orders.size ∧
      b'.idMap = (b.withSlot id NULL_IDX).idMap ∧ b'.order 0 = { o with next := b.nextFreeOrderIdx } ∧
      ∀ j, j ≠ 0 → b'.order j = b.order j := by
  have hprev : (b.order (b.slot id)).prev = NULL_IDX := by rw [hslot, h.order, h.prev]
  have hnext : (b.order (b.slot id)).next = NULL_IDX := by rw [hslot, h.order, h.next]
  obtain ⟨b₁, hu, e⟩ := FastOrderBook.cancelOrder_of_lt hid (hslot ▸ zero_ne_null) (hslot ▸ h.pos)
    (by rw [hslot, h.order]; exact h.price) (Or.inl hprev) (Or.inl hnext)
  have horder : ∀ j, b₁.order j = b.order j := by
    intro j
    rw [hu.order, hprev, hnext]
    simp only [ne_eq, not_true_eq_false, false_and, if_false]
  rw [hslot] at hu e
  rw [h.order] at hu
  have horder₀ : (FastOrderBook.freed b₁ id 0).order 0 = { o with next := b.nextFreeOrderIdx } := by
    rw [order_freed_self, horder, h.order, hu.free, ← h.prev]
  refine ⟨_, e, ⟨fun s p => ?_, hu.size.symm ▸ h.pos, rfl, ?_, h.narrow.erase hu.idMap_freed, fun _ _ _ => ?_⟩,
    hu.size, hu.idMap_freed, horder₀, fun j hj => ?_⟩
  · have hlevel : b₁.level s p = ⟨NULL_IDX, NULL_IDX⟩ := by
      rw [hu.level, h.level, h.level, h.order, h.next, h.prev]
      simp only [and_self, if_true]
      split
      · rfl
      · rfl
    exact hlevel
  · rw [horder₀]
    exact h.free.imp_right fun hlt => hu.size.symm ▸ hlt
  · rw [horder₀]
    exact ⟨h.price, Or.inl h.prev⟩
  · rw [order_freed hj, horder]

end Lone

end Ladder

end Lobook
