import Mathlib.Data.Finset.Card
import Lobook.Book.Lockstep
import Lobook.Book.Replace
import Lobook.Book.Trades

/-!
# The requests of the bitset book on a threaded pool

In a state with an exact index whose links thread the pool, every request that a caller may make returns, and these
lemmas say which blocks it ran and what became of the queues.  The only assumption about back links is that of a
request that takes the first order out of its level: the order that its back link leads to, if there is one, must
already have its link.
-/

namespace Lobook

open Checked Links Relation

namespace Ladder

/-- If the order in slot `i` is the first one of its level and has a back link, then writing its link through that back
link changes nothing. -/
def UnlinksCleanly (b : Ladder) (i : Nat) : Prop :=
  (b.level (b.order i).isBuy (b.order i).price).head = i → (b.order i).prev ≠ NULL_IDX →
    (b.order (b.order i).prev).next = (b.order i).next

instance (b : Ladder) (i : Nat) : Decidable (b.UnlinksCleanly i) := inferInstanceAs (Decidable (_ → _ → _))

/-- `replace_order` takes the order in slot `i` out of its level. -/
def Moves (b : Ladder) (i newPrice newQty : Nat) : Prop :=
  (b.order i).price ≠ newPrice ∨ (b.order i).qty < newQty ∧
    ¬ ((b.level (b.order i).isBuy (b.order i).price).head = i ∧
      (b.level (b.order i).isBuy (b.order i).price).tail = i)

instance (b : Ladder) (i newPrice newQty : Nat) : Decidable (b.Moves i newPrice newQty) :=
  inferInstanceAs (Decidable (_ ∨ _ ∧ ¬ (_ ∧ _)))

variable {b : Ladder} {Q : Bool × Nat → List Nat} {F l₁ l₂ : List Nat} {isBuy : Bool} {price i : Nat}

namespace Pool

theorem first_of_clean (h : b.Pool Q F) (hk : Q (isBuy, price) = l₁ ++ i :: l₂) (hclean : b.UnlinksCleanly i) :
    l₁ = [] → (b.order i).prev ≠ NULL_IDX → (b.order (b.order i).prev).next = (b.order i).next := by
  rintro rfl
  obtain ⟨rfl, rfl⟩ := h.place_eq (show i ∈ Q (isBuy, price) by rw [hk]; simp)
  exact hclean (h.of_cons hk).1

end Pool

end Ladder

namespace FastBitsetOrderBook

open Ladder

variable {b b' : FastBitsetOrderBook} {Q : Bool × Nat → List Nat} {F l₁ l₂ : List Nat} {isBuy : Bool}
  {price i id qty newPrice newQty : Nat}

/-! ### Cancelling -/

/-- `cancel_order` takes the order out of its queue and frees its slot. -/
theorem cancelOrder_linked (hi : b.Indexed) (h : b.Linked Q F) (hk : Q (isBuy, price) = l₁ ++ i :: l₂)
    (hd : b.Detachable i l₁) : ∃ b₁ b', b.cancelOrder (b.order i).id = .ok b' ∧ b'.Indexed ∧
      b.Unlinked isBuy price i b₁ ∧ b'.toLadder = FastOrderBook.freed b₁ (b.order i).id i ∧
      b'.Linked (Function.update Q (isBuy, price) (l₁ ++ l₂)) (i :: F) := by
  have hmem : i ∈ Q (isBuy, price) := by rw [hk]; simp
  obtain ⟨rfl, rfl⟩ := h.place_eq hmem
  obtain ⟨hid, hslot⟩ := h.mapped _ i hmem
  have hnull := h.ne_null hmem
  have hlt := h.bound _ i hmem
  obtain ⟨b₁, hu, e⟩ := FastOrderBook.cancelOrder_of_lt hid (by rwa [hslot])
    (by rwa [hslot]) (by rw [hslot]; exact h.price_lt _ i hmem) (by rw [hslot]; exact hd.fits)
    (by rw [hslot]; exact h.fits_next hmem)
  rw [hslot] at hu e
  have ha := agrees_cancelOrder hi.follows (b.order i).id
  rw [e] at ha
  obtain ⟨b', e', hb'⟩ := ha
  refine ⟨b₁, b', e', hb'.indexed, hu, hb'.1, ?_⟩
  obtain ⟨hQ, hF, h₁⟩ := h.unlinked hk hd hu
  rw [hb'.1]
  exact h₁.freed hnull (hu.size.symm ▸ hlt) hQ hF ((hu.slot _).trans hslot)

theorem cancelOrder_pool (hi : b.Indexed) (h : b.Pool Q F) (hk : Q (isBuy, price) = l₁ ++ i :: l₂)
    (hclean : b.UnlinksCleanly i) : ∃ b₁ b', b.cancelOrder (b.order i).id = .ok b' ∧ b'.Indexed ∧
      b.Unlinked isBuy price i b₁ ∧ b'.toLadder = FastOrderBook.freed b₁ (b.order i).id i ∧
      b'.Pool (Function.update Q (isBuy, price) (l₁ ++ l₂)) (i :: F) := by
  have hmem : i ∈ Q (isBuy, price) := by rw [hk]; simp
  have hfirst := h.first_of_clean hk hclean
  obtain ⟨b₁, b', e, hi', hu, hb', _⟩ := cancelOrder_linked hi h.toLinked hk (h.detachable hk hfirst)
  refine ⟨b₁, b', e, hi', hu, hb', ?_⟩
  obtain ⟨hQ, hF, h₁⟩ := h.unlinked hk hfirst hu
  rw [hb']
  exact h₁.freed (h.ne_null hmem) (hu.size.symm ▸ h.bound _ i hmem) hQ hF ((hu.slot _).trans (h.mapped _ i hmem).2)

/-! ### Submitting -/

/-- `add_order` makes a new order the last one of its level. -/
theorem addOrder_linked (hi : b.Indexed) (h : b.Linked Q (i :: F)) (hid : id < b.idMap.size)
    (hfresh : ∀ k, ∀ j ∈ Q k, (b.order j).id ≠ id) (hp : price < MAX_PRICES) (qty : Nat) (isBuy : Bool) :
    ∃ b', b.addOrder id price qty isBuy = .ok b' ∧ b'.Indexed ∧
      (b.taken id price qty isBuy).Appended isBuy price i b'.toLadder ∧
      b'.Linked (Function.update Q (isBuy, price) (Q (isBuy, price) ++ [i])) F := by
  have hlt := h.free_bound i List.mem_cons_self
  obtain ⟨hfree, hnull, hQ, hF, h₁⟩ : _ ∧ _ ∧ _ ∧ _ ∧ (b.taken id price qty isBuy).Linked Q F :=
    h.taken hfresh price qty isBuy
  obtain ⟨l, e, happ⟩ : ∃ l, FastOrderBook.addOrder b.toLadder id price qty isBuy = .ok l ∧
      (b.taken id price qty isBuy).Appended isBuy price b.nextFreeOrderIdx l :=
    FastOrderBook.addOrder_of_lt (hfree.symm ▸ hnull) (hfree.symm ▸ hlt) hid hp (h.tail_lt hp)
  have ha := agrees_addOrder hi.follows id price qty isBuy
  rw [e] at ha
  obtain ⟨b', e', hb'⟩ := ha
  rw [hfree] at happ
  have horder : ((b.taken id price qty isBuy).order i) = ⟨id, price, qty, isBuy, NULL_IDX, NULL_IDX⟩ := by
    rw [order_taken hfree, if_pos rfl]
  refine ⟨b', e', hb'.indexed, hb'.1.symm ▸ happ, ?_⟩
  rw [hb'.1]
  refine h₁.appended hnull hlt hQ hF hp happ EqExcept.refl ?_ ?_ ?_ ?_
  · rw [happ.order, horder]
    refine if_neg fun hcond => ?_
    have hmem := h₁.threads.tail_mem fun hnil => hcond.1 ((h₁.head_eq_null hp).2 hnil)
    exact hQ (isBuy, price) (hcond.2 ▸ hmem)
  · rw [happ.order, horder]
  · rw [happ.order, horder, happ.idMap]
    exact hid
  · rw [happ.order, horder]
    exact (slot_appended hfree happ id).trans (if_pos rfl)

/-- `submit_order` trades, and what is left of the order rests if a slot is free. -/
theorem submitOrder_linked (hi : b.Indexed) (h : b.Linked Q F) (hid : id < b.idMap.size)
    (hfresh : ∀ k, ∀ j ∈ Q k, (b.order j).id ≠ id) (hp : price < MAX_PRICES) (qty : Nat) (isBuy : Bool) :
    ∃ fuel b₁ b' qty', b.matchOrder fuel price qty isBuy = .ok (b₁, qty') ∧
      b.submitOrder fuel id price qty isBuy = .ok b' ∧ b₁.Indexed ∧ b'.Indexed ∧
      ReflTransGen (Trade isBuy price) (b.toLadder, qty) (b₁.toLadder, qty') ∧
      Ended isBuy price (b₁.toLadder, qty') ∧
      ∀ Q₁ F₁, b₁.Linked Q₁ F₁ → (∀ k, ∀ j ∈ Q₁ k, (b₁.order j).id ≠ id) ∧
        ((qty' = 0 ∨ F₁ = []) ∧ b' = b₁ ∨
          ∃ i F₂, 0 < qty' ∧ F₁ = i :: F₂ ∧ (b₁.taken id price qty' isBuy).Appended isBuy price i b'.toLadder ∧
            b'.Linked (Function.update Q₁ (isBuy, price) (Q₁ (isBuy, price) ++ [i])) F₂) := by
  obtain ⟨fuel, b₁, qty', e, hi₁, htrades, hend⟩ := matchOrder_total hi h isBuy price qty
  obtain ⟨Q₁, F₁, h₁, hfresh₁⟩ := h.trades_fresh hfresh htrades
  have hid₁ : id < b₁.idMap.size := (trades_size htrades).2.symm ▸ hid
  have hsubmit : ∀ b', (if 0 < qty' then b₁.addOrder id price qty' isBuy else pure b₁) = .ok b' →
      b.submitOrder fuel id price qty isBuy = .ok b' := fun b' h' => bind_eq_ok.2 ⟨_, e, h'⟩
  rcases Nat.eq_zero_or_pos qty' with rfl | hq
  · refine ⟨fuel, b₁, b₁, 0, e, hsubmit b₁ rfl, hi₁, hi₁, htrades, hend, fun Q₂ F₂ h₂ => ?_⟩
    obtain ⟨rfl, rfl⟩ := h₁.unique h₂
    exact ⟨hfresh₁, Or.inl ⟨Or.inl rfl, rfl⟩⟩
  · cases F₁ with
    | nil =>
      have hnull : b₁.nextFreeOrderIdx = NULL_IDX := h₁.threads.free_eq_null.2 rfl
      have hadd : b₁.addOrder id price qty' isBuy = .ok b₁ := by
        simp only [addOrder, if_pos hnull, pure_eq_ok]
      refine ⟨fuel, b₁, b₁, qty', e, hsubmit b₁ ((if_pos hq).trans hadd), hi₁, hi₁, htrades, hend,
        fun Q₂ F₂ h₂ => ?_⟩
      obtain ⟨rfl, rfl⟩ := h₁.unique h₂
      exact ⟨hfresh₁, Or.inl ⟨Or.inr rfl, rfl⟩⟩
    | cons i F₁ =>
      obtain ⟨b', hadd, hi', happ, h'⟩ := addOrder_linked hi₁ h₁ hid₁ hfresh₁ hp qty' isBuy
      refine ⟨fuel, b₁, b', qty', e, hsubmit b' ((if_pos hq).trans hadd), hi₁, hi', htrades, hend,
        fun Q₂ F₂ h₂ => ?_⟩
      obtain ⟨rfl, rfl⟩ := h₁.unique h₂
      exact ⟨hfresh₁, Or.inr ⟨i, F₁, hq, rfl, happ, h'⟩⟩

theorem submitOrder_pool (hi : b.Indexed) (h : b.Pool Q F) (hid : id < b.idMap.size)
    (hfresh : ∀ k, ∀ j ∈ Q k, (b.order j).id ≠ id) (hp : price < MAX_PRICES) (qty : Nat) (isBuy : Bool) :
    ∃ b₁ b' qty', b.Step (.submit id price qty isBuy) b' ∧ b'.Indexed ∧
      ReflTransGen (Trade isBuy price) (b.toLadder, qty) (b₁, qty') ∧ Ended isBuy price (b₁, qty') ∧
      ∀ Q₁ F₁, b₁.Pool Q₁ F₁ → (∀ k, ∀ j ∈ Q₁ k, (b₁.order j).id ≠ id) ∧
        ((qty' = 0 ∨ F₁ = []) ∧ b'.toLadder = b₁ ∨
          ∃ i F₂, 0 < qty' ∧ F₁ = i :: F₂ ∧ (b₁.taken id price qty' isBuy).Appended isBuy price i b'.toLadder ∧
            b'.Pool (Function.update Q₁ (isBuy, price) (Q₁ (isBuy, price) ++ [i])) F₂) := by
  obtain ⟨fuel, b₁, b', qty', _, e, _, hi', htrades, hend, hall⟩ :=
    submitOrder_linked hi h.toLinked hid hfresh hp qty isBuy
  refine ⟨b₁.toLadder, b', qty', ⟨fuel, e⟩, hi', htrades, hend, fun Q₁ F₁ h₁ => ?_⟩
  obtain ⟨hfresh₁, ⟨hstop, rfl⟩ | ⟨i, F₂, hq, rfl, happ, h'⟩⟩ := hall Q₁ F₁ h₁.toLinked
  · exact ⟨hfresh₁, Or.inl ⟨hstop, rfl⟩⟩
  · obtain ⟨_, _, hQ, _, htaken⟩ := h₁.taken hfresh₁ price qty' isBuy
    exact ⟨hfresh₁, Or.inr ⟨i, F₂, hq, rfl, happ, htaken.of_appended hQ hp happ EqExcept.refl rfl h'⟩⟩

/-! ### Replacing -/

/-- The book after a replacement that takes the order in slot `i` out of its level. -/
structure Moved (b : Ladder) (isBuy : Bool) (price i newPrice newQty : Nat) (b' : Ladder) : Prop where
  blocks : ∃ b₁ b₂, b.Unlinked isBuy price i b₁ ∧ b₁.Appended isBuy newPrice i b₂ ∧ EqExcept i b₂ b' ∧
    b'.order i = { b₂.order i with qty := newQty, price := newPrice, next := NULL_IDX }

private theorem moved_pool (h : b.Pool Q F) (hk : Q (isBuy, price) = l₁ ++ i :: l₂) (hclean : b.UnlinksCleanly i)
    (hp : newPrice < MAX_PRICES) {b' : Ladder} (hm : Moved b.toLadder isBuy price i newPrice newQty b') :
    b'.Pool (Function.update (Function.update Q (isBuy, price) (l₁ ++ l₂)) (isBuy, newPrice)
      (Function.update Q (isBuy, price) (l₁ ++ l₂) (isBuy, newPrice) ++ [i])) F := by
  obtain ⟨b₁, b₂, hu, ha, he, hi'⟩ := hm.blocks
  have hmem : i ∈ Q (isBuy, price) := by rw [hk]; simp
  obtain ⟨hid, hslot⟩ := h.mapped _ i hmem
  obtain ⟨hside, _⟩ := h.place_eq hmem
  obtain ⟨hQ, hF, h₁⟩ := h.unlinked hk (h.first_of_clean hk hclean) hu
  have horder : (b'.order i).id = (b.order i).id ∧ (b'.order i).isBuy = isBuy := by
    rw [hi', ha.order, hu.order]
    exact ⟨rfl, hside⟩
  have hmap : b'.idMap = b.idMap := he.idMap.trans (ha.idMap.trans hu.idMap)
  refine h₁.appended (h.ne_null hmem) (hu.size.symm ▸ h.bound _ i hmem) hQ hF hp ha he ?_ ?_ ?_ ?_ ?_
  · rw [hi']
  · rw [hi']
  · rw [horder.2, hi']
  · rw [horder.1, hmap]
    exact hid
  · rw [horder.1]
    simp only [Ladder.slot, hmap]
    exact hslot

/-- The branch for a new price. -/
private theorem move_moved (hi : b.Indexed) (h : b.Pool Q F) (hmem : i ∈ Q (isBuy, price)) (hp : newPrice < MAX_PRICES)
    (hne : price ≠ newPrice) (newQty : Nat) :
    ∃ b', (b.moveOrder i isBuy price newPrice >>= fun b' =>
        b'.onLadder fun l => l.modifyOrder i fun o => { o with qty := newQty, price := newPrice }) = .ok b' ∧
      b'.Indexed ∧ Moved b.toLadder isBuy price i newPrice newQty b'.toLadder := by
  have hlt := h.bound _ i hmem
  have htail : (b.level isBuy newPrice).head ≠ NULL_IDX → (b.level isBuy newPrice).tail < b.orders.size := h.tail_lt hp
  obtain ⟨b₁, b₂, b₃, hu, ha, e, hf⟩ := moveOrder_of_lt hi.tracks (h.ne_null hmem) hlt (h.price_lt _ i hmem) hp hne
    (h.fits_prev _ i hmem) (h.fits_next hmem) htail
  have hsize : i < (b₂.withOrder i { b₂.order i with next := NULL_IDX }).orders.size := by
    show i < b₂.orders.size
    rw [ha.size, hu.size]
    exact hlt
  obtain ⟨b', e', hf'⟩ := hf.write (f := fun o => { o with qty := newQty, price := newPrice }) hsize
  refine ⟨b', by rw [e, ok_bind, e'], (hf'.mono fun _ _ _ hp => hp).indexed, b₁, b₂, hu, ha, ?_, ?_⟩
  · rw [hf'.1]
    exact (eqExcept_withOrder _).trans (eqExcept_withOrder _)
  · rw [hf'.1]
    simp only [order_withOrder, if_true]

/-- The branch for a larger quantity. -/
private theorem requeue_moved (hi : b.Indexed) (h : b.Pool Q F) (hk : Q (isBuy, price) = l₁ ++ i :: l₂)
    (hclean : b.UnlinksCleanly i) (hothers : l₁ ++ l₂ ≠ []) (newQty : Nat) :
    ∃ b', (b.requeueOrder i isBuy price >>= fun b' =>
        b'.onLadder fun l => l.modifyOrder i fun o => { o with qty := newQty, price := price }) = .ok b' ∧
      b'.Indexed ∧ Moved b.toLadder isBuy price i price newQty b'.toLadder := by
  have hmem : i ∈ Q (isBuy, price) := by rw [hk]; simp
  have hlt := h.bound _ i hmem
  have hpr := h.price_lt _ i hmem
  have hprev := h.fits_prev _ i hmem
  have hnext := h.fits_next hmem
  obtain ⟨b₁, _, hu⟩ : ∃ b₁, b.unlink isBuy price i = .ok b₁ ∧ b.Unlinked isBuy price i b₁ :=
    Ladder.unlink_of_lt hlt hpr hprev hnext
  obtain ⟨_, _, h₁⟩ := h.unlinked hk (h.first_of_clean hk hclean) hu
  have hhead : (b₁.level isBuy price).head ≠ NULL_IDX := by
    rw [ne_eq, h₁.head_eq_null hpr, Function.update_self]
    exact hothers
  have htail := h₁.tail_lt hpr hhead
  rw [hu.level, if_pos ⟨rfl, rfl⟩, hu.size] at htail
  obtain ⟨b₂, b₃, hu', htl, e⟩ := requeueOrder_of_lt hlt hpr hprev hnext htail
  have hhead' : (b₂.level isBuy price).head ≠ NULL_IDX := by
    rw [hu'.level, ← hu.level]
    exact hhead
  have ha := htl.appended hhead'
  have hsize : i < (b₃.withOrder i { b₃.order i with next := NULL_IDX }).orders.size := by
    show i < b₃.orders.size
    rw [ha.size, hu'.size]
    exact hlt
  -- the level was not empty and is not empty now
  have hheads : ∀ s p, (b₃.level s p).head ≠ NULL_IDX ↔ (b.level s p).head ≠ NULL_IDX := by
    intro s p
    by_cases hsp : s = isBuy ∧ p = price
    · obtain ⟨rfl, rfl⟩ := hsp
      refine iff_of_true ?_ fun hempty => ?_
      · rw [ha.level, if_pos ⟨rfl, rfl⟩, if_neg hhead']
        exact hhead'
      · rw [h.head_eq_null hpr] at hempty
        rw [hempty] at hmem
        cases hmem
    · rw [ha.level, if_neg hsp, hu'.level, if_neg hsp]
  have hi₃ : Indexed { b with toLadder := b₃.withOrder i { b₃.order i with next := NULL_IDX } } :=
    Tracks.indexed (hi.tracks.shrink fun s p hp => (hheads s p).1 hp)
      fun s p hmem => ⟨hmem.1, (hheads s p).2 hmem.2⟩
  obtain ⟨b', e', hf'⟩ := hi₃.follows.write (f := fun o => { o with qty := newQty, price := price }) hsize
  refine ⟨b', by rw [e, ok_bind, e'], hf'.indexed, b₂, b₃, hu', ha, ?_, ?_⟩
  · rw [hf'.1]
    exact (eqExcept_withOrder _).trans (eqExcept_withOrder _)
  · rw [hf'.1]
    simp only [order_withOrder, if_true]

/-- `replace_order` changes the order in its place, or makes it the last one of the level of its new price. -/
theorem replaceOrder_pool (hi : b.Indexed) (h : b.Pool Q F) (hk : Q (isBuy, price) = l₁ ++ i :: l₂)
    (hclean : b.Moves i newPrice newQty → b.UnlinksCleanly i) (hp : newPrice < MAX_PRICES) :
    ∃ b', b.replaceOrder (b.order i).id newPrice newQty = .ok b' ∧ b'.Indexed ∧
      (¬ b.Moves i newPrice newQty ∧ price = newPrice ∧
          b'.toLadder = b.withOrder i { b.order i with qty := newQty, price := newPrice } ∨
        b.Moves i newPrice newQty ∧ Moved b.toLadder isBuy price i newPrice newQty b'.toLadder ∧
          b'.Pool (Function.update (Function.update Q (isBuy, price) (l₁ ++ l₂)) (isBuy, newPrice)
            (Function.update Q (isBuy, price) (l₁ ++ l₂) (isBuy, newPrice) ++ [i])) F) := by
  have hmem : i ∈ Q (isBuy, price) := by rw [hk]; simp
  obtain ⟨rfl, rfl⟩ := h.place_eq hmem
  obtain ⟨hid, hslot⟩ := h.mapped _ i hmem
  have hlt := h.bound _ i hmem
  have hnull : b.slot (b.order i).id ≠ NULL_IDX := hslot.symm ▸ h.ne_null hmem
  have heq := replaceOrder_eq newPrice newQty hid hnull (by rwa [hslot])
    (by rw [hslot]; exact h.price_lt _ i hmem)
  rw [hslot] at heq
  rw [heq]
  by_cases hne : (b.order i).price ≠ newPrice
  · obtain ⟨b', e, hi', hm⟩ := move_moved hi h hmem hp hne newQty
    exact ⟨b', by rw [if_pos hne, e], hi', Or.inr ⟨Or.inl hne, hm, moved_pool h hk (hclean (Or.inl hne)) hp hm⟩⟩
  · obtain rfl := not_not.1 hne
    rw [if_neg hne]
    split
    · rename_i hcond
      have hothers : l₁ ++ l₂ ≠ [] := by
        intro hnil
        obtain ⟨rfl, rfl⟩ := List.append_eq_nil_iff.1 hnil
        exact hcond.2 ⟨(h.of_cons hk).1, h.threads.tail _ i (by rw [hk]; rfl)⟩
      have hclean' := hclean (Or.inr hcond)
      obtain ⟨b', e, hi', hm⟩ := requeue_moved hi h hk hclean' hothers newQty
      exact ⟨b', e, hi', Or.inr ⟨Or.inr hcond, hm, moved_pool h hk hclean' hp hm⟩⟩
    · rename_i hcond
      obtain ⟨b', e, hf⟩ := hi.follows.write (f := fun o => { o with qty := newQty, price := (b.order i).price }) hlt
      have hstay : ¬ b.Moves i (b.order i).price newQty := fun hmoves => hmoves.elim hne hcond
      exact ⟨b', by rw [pure_eq_ok, ok_bind, e], hf.indexed, Or.inl ⟨hstay, rfl, hf.1⟩⟩

/-! ### No slot is lost -/

/-- The pool has `n` slots, as many as the map, and each of them is free or in a queue. -/
structure Whole (b : FastBitsetOrderBook) (n : Nat) (Q : Bool × Nat → List Nat) (F : List Nat) : Prop where
  indexed : b.Indexed
  pool : b.Pool Q F
  size : b.orders.size = n
  map_size : b.idMap.size = n
  held : ∀ j, j < n → Held Q F j

namespace Whole

variable {n : Nat}

theorem init (hn : n < NULL_IDX) (h : b.init n = .ok b') : b'.Whole n (fun _ => []) (List.range' 0 n) := by
  have hi := Indexed.init h
  obtain ⟨l, hl, h⟩ := bind_eq_ok.1 h
  cases h
  have hinit := Ladder.initialised_of_eq_ok hl
  have hpool := Pool.init hinit
  rw [Nat.min_eq_left (Nat.le_of_lt hn)] at hpool
  exact ⟨hi, hpool, hinit.size, hinit.map_size, fun j hj => Or.inl (List.mem_range'_1.2 ⟨Nat.zero_le j, by omega⟩)⟩

/-- While an id does not rest there is a free slot for it. -/
theorem free_ne_nil (h : b.Pool Q F) (hsize : b.orders.size = n) (hmap : b.idMap.size = n)
    (hheld : ∀ j, j < n → Held Q F j) (hid : id < n) (hfresh : ∀ k, ∀ j ∈ Q k, (b.order j).id ≠ id) : F ≠ [] := by
  rintro rfl
  have hrest : ∀ j, j < n → ∃ k, j ∈ Q k := fun j hj => (hheld j hj).resolve_left List.not_mem_nil
  -- otherwise the `n` slots would hold orders with different ids, none of which is `id`
  have hcard : (Finset.range n).card ≤ ((Finset.range n).erase id).card := by
    refine Finset.card_le_card_of_injOn (fun j => (b.order j).id) (fun j hj => ?_) fun i hi j hj heq => ?_
    · obtain ⟨k, hk⟩ := hrest j (Finset.mem_range.1 hj)
      exact Finset.mem_erase.2 ⟨hfresh k j hk, Finset.mem_range.2 (hmap ▸ (h.mapped k j hk).1)⟩
    · obtain ⟨k, hk⟩ := hrest i (Finset.mem_range.1 hi)
      obtain ⟨k', hk'⟩ := hrest j (Finset.mem_range.1 hj)
      exact h.eq_of_id hk hk' heq
  rw [Finset.card_erase_of_mem (Finset.mem_range.2 hid), Finset.card_range] at hcard
  omega

/-- Cancelling an order. -/
theorem cancel (hw : b.Whole n Q F) (hk : Q (isBuy, price) = l₁ ++ i :: l₂) (hclean : b.UnlinksCleanly i) :
    ∃ b₁ b', b.Step (.cancel (b.order i).id) b' ∧ b.Unlinked isBuy price i b₁ ∧
      b'.toLadder = FastOrderBook.freed b₁ (b.order i).id i ∧
      b'.Whole n (Function.update Q (isBuy, price) (l₁ ++ l₂)) (i :: F) := by
  obtain ⟨b₁, b', e, hi', hu, hb', hpool⟩ := cancelOrder_pool hw.indexed hw.pool hk hclean
  refine ⟨b₁, b', ⟨0, e⟩, hu, hb', hi', hpool, ?_, ?_, fun j hj => held_release hk (hw.held j hj)⟩
  · rw [hb', ← hw.size, ← hu.size]
    rfl
  · rw [hb', ← hw.map_size, ← hu.idMap]
    rfl

/-- Replacing an order. -/
theorem replace (hw : b.Whole n Q F) (hk : Q (isBuy, price) = l₁ ++ i :: l₂)
    (hclean : b.Moves i newPrice newQty → b.UnlinksCleanly i) (hp : newPrice < MAX_PRICES) :
    ∃ b', b.RequestStep (.replace (b.order i).id newPrice newQty) b' ∧
      (b'.toLadder = b.withOrder i { b.order i with qty := newQty } ∧ b'.Whole n Q F ∨
        Moved b.toLadder isBuy price i newPrice newQty b'.toLadder ∧
          b'.Whole n (Function.update (Function.update Q (isBuy, price) (l₁ ++ l₂)) (isBuy, newPrice)
            (Function.update Q (isBuy, price) (l₁ ++ l₂) (isBuy, newPrice) ++ [i])) F) := by
  obtain ⟨b', e, hi', ⟨_, rfl, hb'⟩ | ⟨_, hm, hpool⟩⟩ := replaceOrder_pool hw.indexed hw.pool hk hclean hp
  · have hb : b'.toLadder = b.withOrder i { b.order i with qty := newQty } := by
      rw [hb', ← (hw.pool.place_eq (show i ∈ Q (isBuy, price) by rw [hk]; simp)).2]
    refine ⟨b', ⟨0, e⟩, Or.inl ⟨hb, hi', hb ▸ hw.pool.withQty i newQty, ?_, ?_, hw.held⟩⟩
    · rw [hb]
      exact hw.size
    · rw [hb]
      exact hw.map_size
  · obtain ⟨b₁, b₂, hu, ha, he, _⟩ := hm.blocks
    refine ⟨b', ⟨0, e⟩, Or.inr ⟨hm, hi', hpool, ?_, ?_, fun j hj => held_append (held_release hk (hw.held j hj))⟩⟩
    · rw [he.size, ha.size, hu.size]
      exact hw.size
    · rw [he.idMap, ha.idMap, hu.idMap]
      exact hw.map_size

/-- Submitting a new order, with a property that every trade preserves. -/
theorem submit {P : Ladder → (Bool × Nat → List Nat) → List Nat → Nat → Prop} (hw : b.Whole n Q F) (hid : id < n)
    (hfresh : ∀ k, ∀ j ∈ Q k, (b.order j).id ≠ id) (hp : price < MAX_PRICES) (qty : Nat) (isBuy : Bool)
    (hP : P b.toLadder Q F qty)
    (hfull : ∀ b Q F qty p i l, b.Pool Q F → P b Q F qty → Q (!isBuy, p) = i :: l → Best isBuy price b p → 0 < qty →
      (b.order i).qty ≤ qty →
      P (b.popped (!isBuy) p) (Function.update Q (!isBuy, p) l) (i :: F) (qty - (b.order i).qty))
    (hpart : ∀ b Q F qty p i l, b.Pool Q F → P b Q F qty → Q (!isBuy, p) = i :: l → Best isBuy price b p → 0 < qty →
      qty < (b.order i).qty → P (b.reduced (!isBuy) p qty) Q F 0) :
    ∃ b₁ b' Q₁ F₁ qty', b.Step (.submit id price qty isBuy) b' ∧ Ended isBuy price (b₁, qty') ∧ b₁.Pool Q₁ F₁ ∧
      P b₁ Q₁ F₁ qty' ∧ (∀ k, ∀ j ∈ Q₁ k, (b₁.order j).id ≠ id) ∧
      (qty' = 0 ∧ b'.toLadder = b₁ ∧ b'.Whole n Q₁ F₁ ∨
        ∃ i F₂, 0 < qty' ∧ F₁ = i :: F₂ ∧ (b₁.taken id price qty' isBuy).Appended isBuy price i b'.toLadder ∧
          b'.Whole n (Function.update Q₁ (isBuy, price) (Q₁ (isBuy, price) ++ [i])) F₂) := by
  obtain ⟨b₁, b', qty', hstep, hi', htrades, hend, hall⟩ :=
    submitOrder_pool hw.indexed hw.pool (hw.map_size.symm ▸ hid) hfresh hp qty isBuy
  obtain ⟨Q₁, F₁, h₁, hP₁, hheld, hsize, hmap⟩ := hw.pool.trades
    (P := fun b₁ Q F qty => P b₁ Q F qty ∧ (∀ j, j < n → Held Q F j) ∧ b₁.orders.size = n ∧ b₁.idMap.size = n)
    ⟨hP, hw.held, hw.size, hw.map_size⟩
    (fun b Q F qty p i l h hPs hk hbest hq hle => ⟨hfull b Q F qty p i l h hPs.1 hk hbest hq hle,
      fun j hj => held_pop hk (hPs.2.1 j hj), hPs.2.2⟩)
    (fun b Q F qty p i l h hPs hk hbest hq hlt => ⟨hpart b Q F qty p i l h hPs.1 hk hbest hq hlt, hPs.2⟩) htrades
  obtain ⟨hfresh₁, hcases⟩ := hall Q₁ F₁ h₁
  refine ⟨b₁, b', Q₁, F₁, qty', hstep, hend, h₁, hP₁, hfresh₁, ?_⟩
  rcases hcases with ⟨hq | hF, rfl⟩ | ⟨i, F₂, hq, rfl, happ, hpool⟩
  · exact Or.inl ⟨hq, rfl, hi', h₁, hsize, hmap, hheld⟩
  · exact absurd hF (free_ne_nil h₁ hsize hmap hheld hid hfresh₁)
  · refine Or.inr ⟨i, F₂, hq, rfl, happ, hi', hpool, ?_, ?_, fun j hj => held_append (hheld j hj)⟩
    · rw [happ.size]
      exact hsize
    · rw [happ.idMap]
      exact hmap

end Whole

end FastBitsetOrderBook

end Lobook
