import Lobook.Book.Index

/-!
# What `replace_order` does

One lemma for each branch: the accesses that must be within bounds, and the book afterwards in terms of the blocks
`unlink` and `relink` or `linkTail`.
-/

namespace Lobook

open Checked

namespace FastBitsetOrderBook

variable {b : FastBitsetOrderBook} {S : Bool → Set Nat} {isBuy : Bool} {i id price newPrice newQty : Nat}

/-- `replace_order` ignores an id that the map does not know. -/
theorem replaceOrder_absent (h : b.idMap.size ≤ id ∨ b.slot id = NULL_IDX) :
    b.replaceOrder id newPrice newQty = .ok b := by
  by_cases hid : b.idMap.size ≤ id
  · simp only [replaceOrder, if_pos hid, pure_eq_ok]
  · simp only [replaceOrder, if_neg hid, Ladder.getSlot_of_lt (Nat.lt_of_not_le hid), ok_bind,
      if_pos (h.resolve_left hid), pure_eq_ok]

/-- The branches of `replace_order` for an id that the map knows. -/
theorem replaceOrder_eq (newPrice newQty : Nat) (hid : id < b.idMap.size) (hnull : b.slot id ≠ NULL_IDX)
    (hi : b.slot id < b.orders.size)
    (hp : (b.order (b.slot id)).price < MAX_PRICES) :
    b.replaceOrder id newPrice newQty =
      (if (b.order (b.slot id)).price ≠ newPrice then
          b.moveOrder (b.slot id) (b.order (b.slot id)).isBuy (b.order (b.slot id)).price newPrice
        else if (b.order (b.slot id)).qty < newQty ∧
            ¬ ((b.level (b.order (b.slot id)).isBuy (b.order (b.slot id)).price).head = b.slot id ∧
              (b.level (b.order (b.slot id)).isBuy (b.order (b.slot id)).price).tail = b.slot id) then
          b.requeueOrder (b.slot id) (b.order (b.slot id)).isBuy (b.order (b.slot id)).price
        else return b) >>= fun b' =>
          b'.onLadder fun l => l.modifyOrder (b.slot id) fun o => { o with qty := newQty, price := newPrice } := by
  simp only [replaceOrder, reposition, if_neg (Nat.not_le.2 hid), Ladder.getSlot_of_lt hid, ok_bind, if_neg hnull,
    Ladder.getOrder_of_lt hi, Ladder.getLevel_of_lt hp]

/-- The last write of `replace_order`. -/
theorem Follows.write {X : Prop} {l : Ladder} {f : Order → Order} (h : Follows X l b) (hi : i < l.orders.size) :
    ∃ b', b.onLadder (fun l => l.modifyOrder i f) = .ok b' ∧ Follows X (l.withOrder i (f (l.order i))) b' := by
  obtain ⟨rfl, S, ht, he⟩ := h
  have hheads : ∀ s p, ((b.withOrder i (f (b.order i))).level s p).head = (b.level s p).head := fun _ _ => rfl
  exact ⟨_, onLadder_of_ok (Ladder.modifyOrder_of_lt hi), (ht.of_heads hheads).mono he⟩

/-- An order leaves its level and becomes the last one at another price. -/
theorem moveOrder_of_lt (ht : b.Tracks S) (hnull : i ≠ NULL_IDX) (hi : i < b.orders.size) (hp : price < MAX_PRICES)
    (hnp : newPrice < MAX_PRICES) (hne : price ≠ newPrice) (hprev : b.Fits (b.order i).prev)
    (hnext : b.Fits (b.order i).next)
    (htail : (b.level isBuy newPrice).head ≠ NULL_IDX → (b.level isBuy newPrice).tail < b.orders.size) :
    ∃ l₁ l₂ b', b.Unlinked isBuy price i l₁ ∧ l₁.Appended isBuy newPrice i l₂ ∧
      b.moveOrder i isBuy price newPrice = .ok b' ∧
      Follows (b.Exact S) (l₂.withOrder i { l₂.order i with next := NULL_IDX }) b' := by
  obtain ⟨l₁, e₁, hu⟩ : ∃ l₁, b.unlink isBuy price i = .ok l₁ ∧ b.Unlinked isBuy price i l₁ :=
    Ladder.unlink_of_lt hi hp hprev hnext
  obtain ⟨b₂, e₂, rfl, S₂, ht₂, he₂⟩ := ht.clearIfEmpty hp (fun s p hsp => by rw [hu.level, if_neg hsp])
    (hu.head_ne_null hnull)
  have hlevel : b₂.level isBuy newPrice = b.level isBuy newPrice := by
    rw [hu.level, if_neg fun e => hne e.2.symm]
  obtain ⟨l₃, e₃, ha⟩ := Ladder.relink_of_lt (b := b₂.toLadder) (hu.size.symm ▸ hi) hnp
    (fun hhead => by rw [hlevel, hu.size]; exact htail (hlevel ▸ hhead))
  have hhead : (l₃.level isBuy newPrice).head ≠ NULL_IDX := by
    rw [ha.level, if_pos ⟨rfl, rfl⟩]
    by_cases hempty : (b₂.level isBuy newPrice).head = NULL_IDX
    · simp [hempty, hnull]
    · simp [hempty]
  obtain ⟨b₄, e₄, hf₄⟩ := ht₂.setIndex hnp (fun s p hsp => by rw [ha.level, if_neg hsp]) hhead
  obtain ⟨b₅, e₅, hf₅⟩ := hf₄.write (f := fun o => { o with next := NULL_IDX })
    (show i < l₃.orders.size by rw [ha.size, hu.size]; exact hi)
  refine ⟨_, l₃, b₅, hu, ha, ?_, hf₅.mono he₂⟩
  exact bind_eq_ok.2 ⟨_, onLadder_of_ok e₁, bind_eq_ok.2 ⟨b₂, e₂, bind_eq_ok.2 ⟨_, onLadder_of_ok e₃,
    bind_eq_ok.2 ⟨b₄, e₄, e₅⟩⟩⟩⟩

/-- An order leaves its place and becomes the last one of its level. -/
theorem requeueOrder_of_lt (hi : i < b.orders.size) (hp : price < MAX_PRICES) (hprev : b.Fits (b.order i).prev)
    (hnext : b.Fits (b.order i).next)
    (htail : (if (b.level isBuy price).tail = i then (b.order i).prev else (b.level isBuy price).tail) <
      b.orders.size) :
    ∃ l₁ l₂, b.Unlinked isBuy price i l₁ ∧ l₁.TailLinked isBuy price i l₂ ∧
      b.requeueOrder i isBuy price =
        .ok { b with toLadder := l₂.withOrder i { l₂.order i with next := NULL_IDX } } := by
  obtain ⟨l₁, e₁, hu⟩ : ∃ l₁, b.unlink isBuy price i = .ok l₁ ∧ b.Unlinked isBuy price i l₁ :=
    Ladder.unlink_of_lt hi hp hprev hnext
  have ht₁ : (l₁.level isBuy price).tail < l₁.orders.size := by
    rw [hu.level, if_pos ⟨rfl, rfl⟩, hu.size]
    exact htail
  obtain ⟨l₂, e₂, hl⟩ := Ladder.linkTail_of_lt (hu.size.symm ▸ hi) hp ht₁
  have hi₂ : i < l₂.orders.size := by rw [hl.size, hu.size]; exact hi
  refine ⟨l₁, l₂, hu, hl, ?_⟩
  exact bind_eq_ok.2 ⟨_, onLadder_of_ok e₁, bind_eq_ok.2 ⟨{ b with toLadder := l₂ }, onLadder_of_ok e₂,
    onLadder_of_ok (Ladder.modifyOrder_of_lt hi₂)⟩⟩

end FastBitsetOrderBook

end Lobook
