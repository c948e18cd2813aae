import Lobook.Book.Regular

/-!
# Replacing is cancelling and submitting again

In a regular book `replace_order` with a price that does not trade and a loss of priority ends in the same state as
`cancel_order` followed by `submit_order`, down to the last cell (`replace_eq_cancel_submit`): the slot that is freed
first is the one that the new order takes, the links that are written on the way are the same, and the index depends
only on which levels are empty.
-/

namespace Lobook

open Checked Links Relation

namespace Ladder

variable {b b' b₁ b₂ : Ladder} {Q : Bool × Nat → List Nat} {F l₁ l₂ : List Nat} {isBuy : Bool}
  {price i id newPrice newQty : Nat}

/-- The data of a book is that of its cells. -/
theorem ext_cells (hsize : b'.orders.size = b.orders.size) (horder : ∀ j, b'.order j = b.order j)
    (hlevel : ∀ s p, b'.level s p = b.level s p) (hmap : b'.idMap.size = b.idMap.size)
    (hslot : ∀ id, b'.slot id = b.slot id) (hfree : b'.nextFreeOrderIdx = b.nextFreeOrderIdx) : b' = b := by
  obtain ⟨⟨n, orders⟩, levels, ⟨m, slots⟩, free⟩ := b
  obtain ⟨⟨n', orders'⟩, levels', ⟨m', slots'⟩, free'⟩ := b'
  have hlevels : levels' = levels := by
    funext s
    exact congrArg Table.mk (funext fun p => hlevel s p)
  obtain rfl : n' = n := hsize
  obtain rfl : orders' = orders := funext horder
  obtain rfl : m' = m := hmap
  obtain rfl : slots' = slots := funext hslot
  obtain rfl : free' = free := hfree
  rw [hlevels]

/-- `unlink` and what it leads to are determined by their specification. -/
theorem Unlinked.unique (h : b.Unlinked isBuy price i b₁) (h' : b.Unlinked isBuy price i b₂) : b₁ = b₂ :=
  ext_cells (h.size.trans h'.size.symm) (fun j => (h.order j).trans (h'.order j).symm)
    (fun s p => (h.level s p).trans (h'.level s p).symm) (by rw [h.idMap, h'.idMap])
    (fun id => by simp only [Ladder.slot, h.idMap, h'.idMap]) (h.free.trans h'.free.symm)

/-- The book after the order in slot `i` was taken out of its level, which left `u`, and rests in the same slot at the
end of the level of its new price. -/
structure Resubmitted (b u : Ladder) (isBuy : Bool) (i newPrice newQty : Nat) (b' : Ladder) : Prop where
  size : b'.orders.size = b.orders.size
  order : ∀ j, b'.order j = if j = i then
      ⟨(b.order i).id, newPrice, newQty, isBuy, NULL_IDX,
        if (u.level isBuy newPrice).head = NULL_IDX then NULL_IDX else (u.level isBuy newPrice).tail⟩
    else { u.order j with
      next := if (u.level isBuy newPrice).head ≠ NULL_IDX ∧ j = (u.level isBuy newPrice).tail then i
        else (u.order j).next }
  level : ∀ s p, b'.level s p = if s = isBuy ∧ p = newPrice then
      ⟨if (u.level isBuy newPrice).head = NULL_IDX then i else (u.level isBuy newPrice).head, i⟩
    else u.level s p
  map_size : b'.idMap.size = b.idMap.size
  slot : ∀ id, b'.slot id = b.slot id
  free : b'.nextFreeOrderIdx = b.nextFreeOrderIdx

/-- Moving the order leads to the same book. -/
theorem Resubmitted.eq_moved (h : b.Resubmitted b₁ isBuy i newPrice newQty b₂) (hu : b.Unlinked isBuy price i b₁)
    (hside : (b.order i).isBuy = isBuy) (hm : FastBitsetOrderBook.Moved b isBuy price i newPrice newQty b') :
    b₂ = b' := by
  obtain ⟨u, a, hu', ha, he, hnew⟩ := hm.blocks
  obtain rfl := hu.unique hu'
  have hmap : b'.idMap = b.idMap := he.idMap.trans (ha.idMap.trans hu.idMap)
  refine ext_cells (h.size.trans ?_) (fun j => ?_) (fun s p => ?_) (h.map_size.trans (by rw [hmap])) (fun id => ?_)
    (h.free.trans ?_)
  · rw [he.size, ha.size, hu.size]
  · rw [h.order]
    by_cases hj : j = i
    · rw [if_pos hj, hj, hnew, ha.order, hu.order]
      simp [hside]
    · rw [if_neg hj, he.order j hj, ha.order]
      simp only [if_neg hj]
  · rw [h.level, he.level, ha.level]
  · rw [h.slot]
    simp only [Ladder.slot, hmap]
  · rw [he.free, ha.free, hu.free]

/-- Changing the order where it is leads to the same book if it is alone in its level. -/
theorem Resubmitted.eq_kept (h : b.Resubmitted b₁ isBuy i price newQty b₂) (hu : b.Unlinked isBuy price i b₁)
    (hside : (b.order i).isBuy = isBuy) (hhead : (b.level isBuy price).head = i)
    (htail : (b.level isBuy price).tail = i) (hprev : (b.order i).prev = NULL_IDX)
    (hnext : (b.order i).next = NULL_IDX) :
    b₂ = b.withOrder i { b.order i with qty := newQty, price := price } := by
  have hu₁ : ∀ j, b₁.order j = b.order j := fun j => by simp [hu.order, hprev, hnext]
  have hu₂ : (b₁.level isBuy price).head = NULL_IDX := by
    rw [hu.level, if_pos ⟨rfl, rfl⟩, hnext]
    exact if_pos hhead
  refine ext_cells h.size (fun j => ?_) (fun s p => ?_) h.map_size h.slot h.free
  · rw [h.order, order_withOrder, hu₁, hu₂]
    split
    · simp [hprev, hnext, hside]
    · simp
  · rw [h.level, hu₂, if_pos rfl, level_withOrder]
    split
    · rename_i hsp
      rw [hsp.1, hsp.2]
      exact (congrArg₂ PriceLevel.mk hhead htail).symm
    · rename_i hsp
      rw [hu.level, if_neg hsp]

end Ladder

namespace FastBitsetOrderBook

open Ladder

variable {b b' b₁ : FastBitsetOrderBook} {Q : Bool × Nat → List Nat} {F l₁ l₂ : List Nat} {isBuy : Bool}
  {price i id newPrice newQty : Nat}

/-- Books with the same data and exact indexes are the same. -/
theorem Indexed.ext (hi : b.Indexed) (hi' : b'.Indexed) (h : b'.toLadder = b.toLadder) : b' = b := by
  have hindex : b'.index = b.index := hi.index_eq hi' fun s p _ => by rw [h]
  obtain ⟨l, index⟩ := b
  obtain ⟨l', index'⟩ := b'
  obtain rfl : l' = l := h
  obtain rfl : index' = index := hindex
  rfl

/-- Nothing trades with an order that does not cross the best price of the other side. -/
theorem Indexed.matchOrder_idle (hi : b.Indexed) (hfar : ∀ p ∈ b.occupied (!isBuy), ¬ Crosses isBuy newPrice p) :
    b.matchOrder 1 newPrice newQty isBuy = .ok (b, newQty) := by
  rcases hi.matchRound isBuy newPrice newQty 1 with ⟨e, _⟩ | ⟨p, _, hbest, _⟩
  · exact loop_done e 0
  · exact absurd hbest.crosses (hfar p hbest.occupied)

theorem Indexed.far_of_best (hi : b.Indexed) (hbest : ∀ p, b.best isBuy = .ok (some p) → ¬ Crosses isBuy newPrice p) :
    ∀ p ∈ b.occupied (!isBuy), ¬ Crosses isBuy newPrice p := by
  intro p hp
  rcases hi.tracks.best isBuy with ⟨_, hempty⟩ | ⟨q, e, _, hfirst⟩
  · rw [hempty] at hp
    exact absurd hp (Set.notMem_empty p)
  · exact not_crosses_of_not_better (hbest q e) (hfirst p hp)

/-- The order is cancelled and submitted again: its slot is freed and taken, and it becomes the last order of the level
of its new price. -/
theorem cancel_submit (h : b.Regular Q F) (hk : Q (isBuy, price) = l₁ ++ i :: l₂) (hp : newPrice < MAX_PRICES)
    (hq : 0 < newQty) (hfar : ∀ p ∈ b.occupied (!isBuy), ¬ Crosses isBuy newPrice p) :
    ∃ u b₁ b₂, b.cancelOrder (b.order i).id = .ok b₁ ∧ b₁.Step (.submit (b.order i).id newPrice newQty isBuy) b₂ ∧
      b₂.Indexed ∧ b.Unlinked isBuy price i u ∧ b.Resubmitted u isBuy i newPrice newQty b₂.toLadder := by
  have hl := h.linked
  have hmem : i ∈ Q (isBuy, price) := by rw [hk]; simp
  obtain ⟨hid, hslot⟩ := hl.mapped _ i hmem
  obtain ⟨u, b₁, e₁, hi₁, hu, hb₁, h₁⟩ := cancelOrder_pool h.indexed h.pool hk (h.unlinksCleanly hmem)
  have hlevel : ∀ s p, b₁.level s p = u.level s p := fun s p => by rw [hb₁]; rfl
  have horder : ∀ j, j ≠ i → b₁.order j = u.order j := fun j hj => by rw [hb₁, order_freed hj]
  have hmap : b₁.idMap.size = b.idMap.size := by
    rw [hb₁, ← hu.idMap]
    rfl
  have hfree : b₁.nextFreeOrderIdx = i := by rw [hb₁]; rfl
  have hfresh : ∀ k, ∀ j ∈ Function.update Q (isBuy, price) (l₁ ++ l₂) k, (b₁.order j).id ≠ (b.order i).id := by
    intro k j hj
    obtain ⟨hjQ, hji⟩ := hl.threads.mem_of_unlink hk hj
    rw [horder j hji, hu.order]
    exact fun heq => hji (hl.eq_of_id hjQ hmem heq)
  -- the other side is as it was, so nothing trades
  have hfar₁ : ∀ p ∈ b₁.occupied (!isBuy), ¬ Crosses isBuy newPrice p := by
    intro p hocc
    refine hfar p ⟨hocc.1, ?_⟩
    have hhead := hocc.2
    rwa [hlevel, hu.level, if_neg fun e => Bool.not_ne_self isBuy e.1] at hhead
  obtain ⟨b₂, e₂, hi₂, ha, _⟩ := addOrder_linked hi₁ h₁.toLinked (hmap.symm ▸ hid) hfresh hp newQty isBuy
  have hstep : b₁.Step (.submit (b.order i).id newPrice newQty isBuy) b₂ :=
    ⟨1, bind_eq_ok.2 ⟨_, hi₁.matchOrder_idle hfar₁, (if_pos hq).trans e₂⟩⟩
  refine ⟨u, b₁, b₂, e₁, hstep, hi₂, hu, ?_, fun j => ?_, fun s p => ?_, ?_, fun id => ?_, ?_⟩
  · rw [ha.size, ← hu.size]
    show b₁.orders.size = _
    rw [hb₁]
    rfl
  · rw [h₁.order_appended hfresh hp ha, hlevel]
    by_cases hj : j = i
    · rw [if_pos hj, if_pos hj]
    · rw [if_neg hj, if_neg hj, horder j hj]
  · rw [ha.level]
    simp only [show ∀ s p, (b₁.taken (b.order i).id newPrice newQty isBuy).level s p = u.level s p from hlevel]
  · rw [ha.idMap]
    exact hmap
  · rw [slot_appended hfree ha, hb₁, slot_freed]
    split
    · rename_i e
      rw [e, hslot]
    · rw [hu.slot]
  · rw [ha.free, ← hu.free]
    show (b₁.order b₁.nextFreeOrderIdx).next = _
    rw [hfree, hb₁, order_freed_self]

/-- `replace_order` with a loss of priority, at a price that does not trade, ends in the state that `cancel_order` and
`submit_order` with the same id and side lead to. -/
theorem replace_eq_cancel_submit (h : b.Regular Q F) (hrest : b.Resting id) (hp : newPrice < MAX_PRICES)
    (hq : 0 < newQty)
    (hbest : ∀ p, b.best (b.order (b.slot id)).isBuy = .ok (some p) →
      ¬ Crosses (b.order (b.slot id)).isBuy newPrice p)
    (hloses : (b.order (b.slot id)).price ≠ newPrice ∨ (b.order (b.slot id)).qty < newQty) :
    ∃ b₁ b', b.replaceOrder id newPrice newQty = .ok b' ∧ b.cancelOrder id = .ok b₁ ∧
      b₁.Step (.submit id newPrice newQty (b.order (b.slot id)).isBuy) b' := by
  have hl := h.linked
  obtain ⟨⟨isBuy, price⟩, i, hmem, rfl⟩ := hl.resting_iff.1 hrest
  obtain ⟨l₁, l₂, hk⟩ := List.append_of_mem hmem
  obtain ⟨rfl, rfl⟩ := hl.place_eq hmem
  rw [(hl.mapped _ i hmem).2] at hbest hloses ⊢
  obtain ⟨u, b₁, b₂, e₁, hstep, hi₂, hu, hresubmitted⟩ := cancel_submit h hk hp hq (h.indexed.far_of_best hbest)
  obtain ⟨b', e', hi', hcases⟩ := replaceOrder_pool h.indexed h.pool hk
    (fun _ : b.Moves i newPrice newQty => h.unlinksCleanly hmem) hp
  suffices heq : b₂.toLadder = b'.toLadder by
    obtain rfl := hi'.ext hi₂ heq
    exact ⟨b₁, b₂, e', e₁, hstep⟩
  rcases hcases with ⟨hstays, rfl, hb'⟩ | ⟨_, hm, _⟩
  · -- the order keeps its place, so it is alone in its level
    obtain ⟨hprice, hsole⟩ := not_or.1 hstays
    have hqty := hloses.resolve_left hprice
    obtain ⟨hhead, htail⟩ := not_not.1 fun hsole' => hsole ⟨hqty, hsole'⟩
    obtain ⟨rfl, rfl⟩ := (hl.sole_iff hk).1 ⟨hhead, htail⟩
    have hnext : (b.order i).next = NULL_IDX := by
      have hpath := hl.threads.queue ((b.order i).isBuy, (b.order i).price)
      rw [hk] at hpath
      exact hpath.2
    exact (hresubmitted.eq_kept hu rfl hhead htail (h.clean _ i [] hk) hnext).trans hb'.symm
  · exact hresubmitted.eq_moved hu rfl hm

theorem replace_eq_cancel_submit_ask : ∃ b b₁ b' : FastBitsetOrderBook, b.Resting 1 ∧ b.replaceOrder 1 7 20 = .ok b' ∧
    b.cancelOrder 1 = .ok b₁ ∧ b₁.Step (.submit 1 7 20 false) b' := by
  obtain ⟨b₀, b, Q, F, _, _, hregular, _, hrest, _, hslot, horder, hbest⟩ := ask_regular
  have hside : (b.order (b.slot 1)).isBuy = false := by rw [hslot, horder]
  have hprice : (b.order (b.slot 1)).price = 5 := by rw [hslot, horder]
  obtain ⟨b₁, b', hreplace, hcancel, hstep⟩ := replace_eq_cancel_submit hregular hrest
    (show 7 < MAX_PRICES by decide) (show 0 < 20 by decide) (fun p e => by rw [hside, hbest] at e; cases e)
    (Or.inl (by rw [hprice]; decide))
  rw [hside] at hstep
  exact ⟨b, b₁, b', hrest, hreplace, hcancel, hstep⟩

end FastBitsetOrderBook

end Lobook
