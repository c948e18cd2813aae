import Lobook.Book.Blocks

/-!
# The linear-scan book (`fast_book.h`)

`match` walks the ladder of the other side price by price, from its best end, with a signed 64-bit price that leaves
the ladder only through the test of the limit.
-/

namespace Lobook

open Checked

abbrev FastOrderBook := Ladder

namespace FastOrderBook

def INT64_MAX : Int := 9223372036854775807

def INT64_MIN : Int := -9223372036854775808

/-- `p += step`; a signed overflow has no meaning. -/
def advance (isBuy : Bool) (p : Int) : Exec Int :=
  let p' := p + if isBuy then 1 else -1
  if INT64_MIN ≤ p' ∧ p' ≤ INT64_MAX then .ok p' else .error .undefined

/-- One round of the scan in `match`; `inner` is the fuel of the inner loop. -/
def scanRound (inner : Nat) (endPrice : Nat) (isBuy : Bool) :
    Int × FastOrderBook × Nat → Exec (Flow (Int × FastOrderBook × Nat) (FastOrderBook × Nat))
  | (p, b, incomingQty) =>
    if 0 < incomingQty then
      -- outside the ladder: `continue`
      if p < 0 ∨ MAX_PRICES ≤ p.toNat then do
        let p ← advance isBuy p
        return .again (p, b, incomingQty)
      else if Crosses isBuy endPrice p.toNat then do
        let (b, incomingQty) ← b.fillLevel inner (!isBuy) p.toNat incomingQty
        let p ← advance isBuy p
        return .again (p, b, incomingQty)
      else return .done (b, incomingQty)
    else return .done (b, incomingQty)

/-- `match`: the book and what is left of the incoming quantity. -/
def matchOrder (fuel : Nat) (b : FastOrderBook) (incomingPrice incomingQty : Nat) (isBuy : Bool) :
    Exec (FastOrderBook × Nat) :=
  loop (scanRound fuel incomingPrice isBuy) fuel (if isBuy then 0 else MAX_PRICES - 1, b, incomingQty)

def addOrder (b : FastOrderBook) (id price qty : Nat) (isBuy : Bool) : Exec FastOrderBook :=
  if b.nextFreeOrderIdx = NULL_IDX then return b
  else do
    let idx := b.nextFreeOrderIdx
    let b ← b.takeSlot id price qty isBuy
    if MAX_PRICES ≤ price then return b
    else do
      let level ← b.getLevel isBuy price
      if level.head = NULL_IDX then b.setLevel isBuy price ⟨idx, idx⟩
      else b.linkTail isBuy price idx

def submitOrder (fuel : Nat) (b : FastOrderBook) (id price qty : Nat) (isBuy : Bool) : Exec FastOrderBook := do
  let (b, qty) ← matchOrder fuel b price qty isBuy
  if 0 < qty then addOrder b id price qty isBuy else return b

def cancelOrder (b : FastOrderBook) (id : Nat) : Exec FastOrderBook :=
  if b.idMap.size ≤ id then return b
  else do
    let orderIdx ← b.getSlot id
    if orderIdx = NULL_IDX then return b
    else do
      let order ← b.getOrder orderIdx
      let b ← b.unlink order.isBuy order.price orderIdx
      let b ← b.modifyOrder orderIdx fun o => { o with prev := NULL_IDX }
      let b ← b.release orderIdx
      b.setSlot id NULL_IDX

/-! ### What the operations do -/

section Spec

variable {b b' : FastOrderBook} {id price qty : Nat} {isBuy : Bool}

/-- What a round of the scan does: it ends, moves on beyond the ladder, or fills a level and moves on. -/
theorem scanRound_eq_ok {inner limit : Nat} {p : Int} {flow : Flow (Int × FastOrderBook × Nat) (FastOrderBook × Nat)}
    (h : scanRound inner limit isBuy (p, b, qty) = .ok flow) :
    qty = 0 ∧ flow = .done (b, qty) ∨
    0 < qty ∧ (p < 0 ∨ MAX_PRICES ≤ p.toNat) ∧ (∃ p', advance isBuy p = .ok p' ∧ flow = .again (p', b, qty)) ∨
    0 < qty ∧ ∃ n : Nat, p = n ∧ n < MAX_PRICES ∧
      (¬ Crosses isBuy limit n ∧ flow = .done (b, qty) ∨
        Crosses isBuy limit n ∧ ∃ r p', b.fillLevel inner (!isBuy) n qty = .ok r ∧ advance isBuy n = .ok p' ∧
          flow = .again (p', r)) := by
  by_cases hq : 0 < qty
  · refine Or.inr ?_
    simp only [scanRound, if_pos hq] at h
    by_cases hout : p < 0 ∨ MAX_PRICES ≤ p.toNat
    · rw [if_pos hout] at h
      obtain ⟨p', hadv, h⟩ := bind_eq_ok.1 h
      exact Or.inl ⟨hq, hout, p', hadv, (Except.ok.inj h).symm⟩
    · obtain ⟨n, rfl⟩ : ∃ n : Nat, p = n := ⟨p.toNat, by omega⟩
      rw [Int.toNat_natCast] at h hout
      rw [if_neg hout] at h
      refine Or.inr ⟨hq, n, rfl, by omega, ?_⟩
      by_cases hc : Crosses isBuy limit n
      · rw [if_pos hc] at h
        obtain ⟨r, hf, h⟩ := bind_eq_ok.1 h
        obtain ⟨p', hadv, h⟩ := bind_eq_ok.1 h
        exact Or.inr ⟨hc, r, p', hf, hadv, (Except.ok.inj h).symm⟩
      · rw [if_neg hc] at h
        exact Or.inl ⟨hc, (Except.ok.inj h).symm⟩
  · simp only [scanRound, if_neg hq] at h
    exact Or.inl ⟨by omega, (Except.ok.inj h).symm⟩

/-- `add_order` drops the order if no slot is free. -/
theorem addOrder_full (h : b.nextFreeOrderIdx = NULL_IDX) : addOrder b id price qty isBuy = .ok b := by
  simp only [addOrder, if_pos h, pure_eq_ok]

/-- `add_order` leaves an order with a price outside the ladder in its slot, without a level. -/
theorem addOrder_far (hnull : b.nextFreeOrderIdx ≠ NULL_IDX) (hfree : b.nextFreeOrderIdx < b.orders.size)
    (hid : id < b.idMap.size) (hp : MAX_PRICES ≤ price) :
    addOrder b id price qty isBuy = .ok (b.taken id price qty isBuy) := by
  simp only [addOrder, if_neg hnull, Ladder.takeSlot_of_lt hfree hid, ok_bind, if_pos hp, pure_eq_ok]

/-- `add_order` starts an empty level with the order. -/
theorem addOrder_empty (hnull : b.nextFreeOrderIdx ≠ NULL_IDX) (hfree : b.nextFreeOrderIdx < b.orders.size)
    (hid : id < b.idMap.size) (hp : price < MAX_PRICES) (hhead : (b.level isBuy price).head = NULL_IDX) :
    addOrder b id price qty isBuy = .ok ((b.taken id price qty isBuy).withLevel isBuy price
      ⟨b.nextFreeOrderIdx, b.nextFreeOrderIdx⟩) := by
  have hhead' : ((b.taken id price qty isBuy).level isBuy price).head = NULL_IDX := hhead
  simp only [addOrder, if_neg hnull, Ladder.takeSlot_of_lt hfree hid, ok_bind, if_neg (Nat.not_le.2 hp),
    Ladder.getLevel_of_lt hp, if_pos hhead', Ladder.setLevel_of_lt hp]

/-- `add_order` links the order to the last one of a level that is not empty. -/
theorem addOrder_tail (hnull : b.nextFreeOrderIdx ≠ NULL_IDX) (hfree : b.nextFreeOrderIdx < b.orders.size)
    (hid : id < b.idMap.size) (hp : price < MAX_PRICES) (hhead : (b.level isBuy price).head ≠ NULL_IDX) :
    addOrder b id price qty isBuy = (b.taken id price qty isBuy).linkTail isBuy price b.nextFreeOrderIdx := by
  have hhead' : ¬ ((b.taken id price qty isBuy).level isBuy price).head = NULL_IDX := hhead
  simp only [addOrder, if_neg hnull, Ladder.takeSlot_of_lt hfree hid, ok_bind, if_neg (Nat.not_le.2 hp),
    Ladder.getLevel_of_lt hp, if_neg hhead']

/-- `add_order` makes the order the last of its level. -/
theorem addOrder_of_lt (hnull : b.nextFreeOrderIdx ≠ NULL_IDX) (hfree : b.nextFreeOrderIdx < b.orders.size)
    (hid : id < b.idMap.size) (hp : price < MAX_PRICES)
    (ht : (b.level isBuy price).head ≠ NULL_IDX → (b.level isBuy price).tail < b.orders.size) :
    ∃ b', addOrder b id price qty isBuy = .ok b' ∧
      (b.taken id price qty isBuy).Appended isBuy price b.nextFreeOrderIdx b' := by
  by_cases hhead : (b.level isBuy price).head = NULL_IDX
  · exact ⟨_, addOrder_empty hnull hfree hid hp hhead, Ladder.appended_withLevel hhead (by simp [Ladder.taken])⟩
  · obtain ⟨b', e, hl⟩ := Ladder.linkTail_of_lt (b := b.taken id price qty isBuy) hfree hp (ht hhead)
    exact ⟨b', (addOrder_tail hnull hfree hid hp hhead).trans e, hl.appended hhead⟩

theorem addOrder_cases (h : addOrder b id price qty isBuy = .ok b') :
    b.nextFreeOrderIdx = NULL_IDX ∧ b' = b ∨
      b.nextFreeOrderIdx ≠ NULL_IDX ∧ b.nextFreeOrderIdx < b.orders.size ∧ id < b.idMap.size ∧
        (MAX_PRICES ≤ price ∧ b' = b.taken id price qty isBuy ∨
          price < MAX_PRICES ∧
            ((b.level isBuy price).head ≠ NULL_IDX → (b.level isBuy price).tail < b.orders.size) ∧
            (b.taken id price qty isBuy).Appended isBuy price b.nextFreeOrderIdx b') := by
  by_cases hnull : b.nextFreeOrderIdx = NULL_IDX
  · rw [addOrder_full hnull] at h
    exact Or.inl ⟨hnull, (Except.ok.inj h).symm⟩
  · obtain ⟨hfree, hid⟩ : b.nextFreeOrderIdx < b.orders.size ∧ id < b.idMap.size := by
      simp only [addOrder, if_neg hnull] at h
      obtain ⟨_, h₁, _⟩ := bind_eq_ok.1 h
      exact Ladder.takeSlot_lt h₁
    refine Or.inr ⟨hnull, hfree, hid, ?_⟩
    rcases Nat.lt_or_ge price MAX_PRICES with hp | hp
    · have ht : (b.level isBuy price).head ≠ NULL_IDX → (b.level isBuy price).tail < b.orders.size := by
        intro hhead
        have hhead' : ¬ ((b.taken id price qty isBuy).level isBuy price).head = NULL_IDX := hhead
        simp only [addOrder, if_neg hnull, Ladder.takeSlot_of_lt hfree hid, ok_bind, if_neg (Nat.not_le.2 hp),
          Ladder.getLevel_of_lt hp, if_neg hhead'] at h
        exact (Ladder.linkTail_lt h).2.2
      obtain ⟨b'', e, ha⟩ := addOrder_of_lt hnull hfree hid hp ht
      rw [h] at e
      exact Or.inr ⟨hp, ht, Except.ok.inj e ▸ ha⟩
    · rw [addOrder_far hnull hfree hid hp] at h
      exact Or.inl ⟨hp, (Except.ok.inj h).symm⟩

/-- The book after the last writes of `cancel_order`, to `b` with the order in slot `i` out of its level. -/
def freed (b : FastOrderBook) (id i : Nat) : FastOrderBook :=
  ((b.withOrder i { b.order i with prev := NULL_IDX, next := b.nextFreeOrderIdx }).withFree i).withSlot id NULL_IDX

/-- `cancel_order` ignores an id that the map does not know. -/
theorem cancelOrder_absent (h : b.idMap.size ≤ id ∨ b.slot id = NULL_IDX) : cancelOrder b id = .ok b := by
  by_cases hid : b.idMap.size ≤ id
  · simp only [cancelOrder, if_pos hid, pure_eq_ok]
  · simp only [cancelOrder, if_neg hid, Ladder.getSlot_of_lt (Nat.lt_of_not_le hid), ok_bind,
      if_pos (h.resolve_left hid), pure_eq_ok]

/-- `cancel_order` takes the order out of its level and frees its slot. -/
theorem cancelOrder_of_lt (hid : id < b.idMap.size) (hnull : b.slot id ≠ NULL_IDX) (hi : b.slot id < b.orders.size)
    (hp : (b.order (b.slot id)).price < MAX_PRICES) (hprev : b.Fits (b.order (b.slot id)).prev)
    (hnext : b.Fits (b.order (b.slot id)).next) :
    ∃ b₁, b.Unlinked (b.order (b.slot id)).isBuy (b.order (b.slot id)).price (b.slot id) b₁ ∧
      cancelOrder b id = .ok (freed b₁ id (b.slot id)) := by
  obtain ⟨b₁, e, hu⟩ := Ladder.unlink_of_lt hi hp hprev hnext
  refine ⟨b₁, hu, ?_⟩
  have hi₁ : b.slot id < b₁.orders.size := hu.size.symm ▸ hi
  have hid₁ : id < b₁.idMap.size := hu.idMap.symm ▸ hid
  simp only [cancelOrder, if_neg (Nat.not_le.2 hid), Ladder.getSlot_of_lt hid, ok_bind, if_neg hnull,
    Ladder.getOrder_of_lt hi, e, Ladder.modifyOrder_of_lt hi₁]
  rw [Ladder.release_of_lt (by exact hi₁), ok_bind, Ladder.setSlot_of_lt (by exact hid₁)]
  simp only [freed, Ladder.withOrder, Ladder.withFree, Ladder.withSlot, Ladder.order, Function.update_self,
    Function.update_idem]

/-- The accesses of a cancellation that takes an order out of its level. -/
theorem cancelOrder_lt (h : cancelOrder b id = .ok b') (hid : id < b.idMap.size) (hnull : b.slot id ≠ NULL_IDX) :
    b.slot id < b.orders.size ∧ (b.order (b.slot id)).price < MAX_PRICES ∧ b.Fits (b.order (b.slot id)).prev ∧
      b.Fits (b.order (b.slot id)).next := by
  simp only [cancelOrder, if_neg (Nat.not_le.2 hid), Ladder.getSlot_of_lt hid, ok_bind, if_neg hnull] at h
  obtain ⟨o, ho, h⟩ := bind_eq_ok.1 h
  obtain ⟨_, rfl⟩ := Ladder.getOrder_eq_ok.1 ho
  obtain ⟨_, hu, _⟩ := bind_eq_ok.1 h
  exact Ladder.unlink_lt hu

theorem cancelOrder_cases (h : cancelOrder b id = .ok b') :
    (b.idMap.size ≤ id ∨ b.slot id = NULL_IDX) ∧ b' = b ∨
      id < b.idMap.size ∧ b.slot id ≠ NULL_IDX ∧ b.slot id < b.orders.size ∧
        (b.order (b.slot id)).price < MAX_PRICES ∧
        ∃ b₁, b.Unlinked (b.order (b.slot id)).isBuy (b.order (b.slot id)).price (b.slot id) b₁ ∧
          b' = freed b₁ id (b.slot id) := by
  rcases Ladder.absent_or_known b id with habs | ⟨hid, hnull⟩
  · rw [cancelOrder_absent habs] at h
    exact Or.inl ⟨habs, (Except.ok.inj h).symm⟩
  · obtain ⟨hi, hp, hprev, hnext⟩ := cancelOrder_lt h hid hnull
    obtain ⟨b₁, hu, e⟩ := cancelOrder_of_lt hid hnull hi hp hprev hnext
    rw [h] at e
    exact Or.inr ⟨hid, hnull, hi, hp, b₁, hu, Except.ok.inj e⟩

end Spec

/-! ### Calls -/

def exec (fuel : Nat) (b : FastOrderBook) : Call → Exec FastOrderBook
  | .submit id price qty isBuy => submitOrder fuel b id price qty isBuy
  | .cancel id => cancelOrder b id

/-- The call returns, and the book is `b'` afterwards. -/
def Step (b : FastOrderBook) (c : Call) (b' : FastOrderBook) : Prop := ∃ fuel, exec fuel b c = .ok b'

/-! ### Results do not depend on the fuel -/

theorem scanRound_cutOff {inner inner' : Nat} (hle : inner ≤ inner') (limit : Nat) (isBuy : Bool)
    (s : Int × FastOrderBook × Nat) : CutOff (scanRound inner limit isBuy s) (scanRound inner' limit isBuy s) := by
  obtain ⟨p, b, qty⟩ := s
  simp only [scanRound]
  split
  · split
    · exact CutOff.refl _
    · split
      · exact (Ladder.fillLevel_cutOff hle _ _ _ _).bind fun _ => CutOff.refl _
      · exact CutOff.refl _
  · exact CutOff.refl _

theorem matchOrder_cutOff {fuel fuel' : Nat} (hle : fuel ≤ fuel') (b : FastOrderBook) (limit qty : Nat)
    (isBuy : Bool) : CutOff (matchOrder fuel b limit qty isBuy) (matchOrder fuel' b limit qty isBuy) :=
  loop_cutOff (scanRound_cutOff hle limit isBuy) hle _

/-- The fuel of the inner loop and that of the outer one may be different. -/
theorem matchOrder_of_loop {inner fuel limit qty : Nat} {b : FastOrderBook} {isBuy : Bool} {r : FastOrderBook × Nat}
    (h : loop (scanRound inner limit isBuy) fuel (if isBuy then 0 else MAX_PRICES - 1, b, qty) = .ok r) :
    matchOrder (max inner fuel) b limit qty isBuy = .ok r :=
  loop_mono (scanRound_cutOff (Nat.le_max_left inner fuel) limit isBuy) (Nat.le_max_right inner fuel) _ _ h

theorem exec_cutOff {fuel fuel' : Nat} (hle : fuel ≤ fuel') (b : FastOrderBook) (c : Call) :
    CutOff (exec fuel b c) (exec fuel' b c) := by
  cases c with
  | submit id price qty isBuy => exact (matchOrder_cutOff hle b price qty isBuy).bind fun _ => CutOff.refl _
  | cancel id => exact CutOff.refl _

/-- A call has at most one result. -/
theorem Step.unique {b b₁ b₂ : FastOrderBook} {c : Call} (h₁ : Step b c b₁) (h₂ : Step b c b₂) : b₁ = b₂ := by
  obtain ⟨fuel₁, e₁⟩ := h₁
  obtain ⟨fuel₂, e₂⟩ := h₂
  have e₁' := (exec_cutOff (Nat.le_max_left fuel₁ fuel₂) b c).extends _ e₁
  have e₂' := (exec_cutOff (Nat.le_max_right fuel₁ fuel₂) b c).extends _ e₂
  exact Except.ok.inj (e₁'.symm.trans e₂')

end FastOrderBook

end Lobook
