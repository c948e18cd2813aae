import Mathlib.Algebra.BigOperators.Group.Finset.Basic
import Lobook.Book.Liquidity

/-!
# The pool runs out

`add_order` drops an order without notice if no slot is free.  Every fill of `match` leaves a free slot behind or
nothing to fill (`Fills`), so that an order can be dropped only if `match` has filled nothing at all
(`submit_drops_untraded`).  For this the index must not mark an empty level; the links may be tangled in any way.  The
quantities are numbers of 32 bits in the code, which subtracts one of 64 bits from them: `matchOrder32` is `match` with
this subtraction, which never wraps.
-/

namespace Lobook

open Checked

/-- `x -= y` for an `x` of type `uint32_t` and a `y` of type `uint64_t`. -/
def subQty (x y : Nat) : Nat := u32 ((x + 18446744073709551616 - y) % 18446744073709551616)

theorem subQty_of_le {x y : Nat} (hx : x < 4294967296) (h : y ≤ x) : subQty x y = x - y := by
  unfold subQty u32
  omega

namespace Ladder

/-- `fillRound` with another subtraction. -/
def fillRoundBy (sub : Nat → Nat → Nat) (isBuy : Bool) (price : Nat) :
    Ladder × Nat → Exec (Flow (Ladder × Nat) (Ladder × Nat))
  | (b, incomingQty) => do
    let level ← b.getLevel isBuy price
    if level.head ≠ NULL_IDX ∧ 0 < incomingQty then do
      let restingIdx := level.head
      let resting ← b.getOrder restingIdx
      let tradeQty := min incomingQty resting.qty
      let b ← b.modifyOrder restingIdx fun o => { o with qty := sub o.qty tradeQty }
      if sub resting.qty tradeQty = 0 then do
        let b ← b.setSlot resting.id NULL_IDX
        let b ← b.setLevel isBuy price
          ⟨resting.next, if resting.next = NULL_IDX then NULL_IDX else level.tail⟩
        let b ← b.release restingIdx
        return .again (b, sub incomingQty tradeQty)
      else return .done (b, sub incomingQty tradeQty)
    else return .done (b, incomingQty)

/-- The inner loop of `match` with the subtraction of the code. -/
def fillLevel32 (fuel : Nat) (isBuy : Bool) (price : Nat) (b : Ladder) (incomingQty : Nat) : Exec (Ladder × Nat) :=
  loop (fillRoundBy subQty isBuy price) fuel (b, incomingQty)

/-- The quantity in the slots of the pool, free or not. -/
def poolQty (b : Ladder) : Nat := ∑ i ∈ Finset.range b.orders.size, (b.order i).qty

/-- What `match` does on its way from one state to a later one: what it fills, it takes out of the slots, and it leaves
everything as it is, or a free slot behind, or nothing to fill. -/
structure Fills (s s' : Ladder × Nat) : Prop where
  total : s'.1.poolQty + s.2 = s.1.poolQty + s'.2
  le : s'.2 ≤ s.2
  slot_le : ∀ i, (s'.1.order i).qty ≤ (s.1.order i).qty
  size : s'.1.orders.size = s.1.orders.size
  ends : s' = s ∨ s'.1.nextFreeOrderIdx ≠ NULL_IDX ∨ s'.2 = 0

/-- All quantities fit in 32 bits. -/
def FitsWords (s : Ladder × Nat) : Prop :=
  s.2 < 4294967296 ∧ ∀ i, i < s.1.orders.size → (s.1.order i).qty < 4294967296

variable {b b' : Ladder} {isBuy : Bool} {price i qty fuel : Nat} {s s' s'' : Ladder × Nat}

/-- One slot is written. -/
theorem poolQty_update (h : ∀ j, j ≠ i → (b'.order j).qty = (b.order j).qty) (hi : i < b.orders.size)
    (hsize : b'.orders.size = b.orders.size) :
    b'.poolQty + (b.order i).qty = b.poolQty + (b'.order i).qty := by
  have hmem : i ∈ Finset.range b.orders.size := Finset.mem_range.2 hi
  have hrest : ∑ j ∈ (Finset.range b.orders.size).erase i, (b'.order j).qty =
      ∑ j ∈ (Finset.range b.orders.size).erase i, (b.order j).qty :=
    Finset.sum_congr rfl fun j hj => h j (Finset.ne_of_mem_erase hj)
  unfold poolQty
  rw [hsize, ← Finset.add_sum_erase _ _ hmem, ← Finset.add_sum_erase _ (fun j => (b.order j).qty) hmem, hrest]
  omega

theorem Fills.refl (s : Ladder × Nat) : Fills s s := ⟨rfl, Nat.le_refl _, fun _ => Nat.le_refl _, rfl, Or.inl rfl⟩

theorem Fills.trans (h : Fills s s') (h' : Fills s' s'') : Fills s s'' where
  total := by
    have h₁ := h.total
    have h₂ := h'.total
    omega
  le := h'.le.trans h.le
  slot_le i := (h'.slot_le i).trans (h.slot_le i)
  size := h'.size.trans h.size
  ends := by
    rcases h'.ends with rfl | hends
    · exact h.ends
    · exact Or.inr hends

/-- The first order of a level is filled. -/
theorem fills_popped (hhead : (b.level isBuy price).head ≠ NULL_IDX) (hlt : (b.level isBuy price).head < b.orders.size)
    (hle : (b.order (b.level isBuy price).head).qty ≤ qty) :
    Fills (b, qty) (b.popped isBuy price, qty - (b.order (b.level isBuy price).head).qty) := by
  have hkept : ∀ j, j ≠ (b.level isBuy price).head → ((b.popped isBuy price).order j).qty = (b.order j).qty :=
    fun j hj => by rw [order_popped rfl hj]
  have hzero : ((b.popped isBuy price).order (b.level isBuy price).head).qty = 0 := by
    simp only [popped, order_withFree, order_withLevel, order_withSlot, order_withOrder, if_true]
  have hsum : (b.popped isBuy price).poolQty + (b.order (b.level isBuy price).head).qty = b.poolQty := by
    rw [poolQty_update hkept hlt rfl, hzero, Nat.add_zero]
  refine ⟨?_, Nat.sub_le _ _, fun j => ?_, rfl, Or.inr (Or.inl hhead)⟩
  · show (b.popped isBuy price).poolQty + qty = b.poolQty + (qty - _)
    omega
  · by_cases hj : j = (b.level isBuy price).head
    · rw [hj, hzero]
      exact Nat.zero_le _
    · exact Nat.le_of_eq (hkept j hj)

/-- The first order of a level is filled in part, and nothing is left to fill. -/
theorem fills_reduced (hlt : (b.level isBuy price).head < b.orders.size)
    (hle : qty ≤ (b.order (b.level isBuy price).head).qty) : Fills (b, qty) (b.reduced isBuy price qty, 0) := by
  have hqty : ∀ j, ((b.reduced isBuy price qty).order j).qty =
      if j = (b.level isBuy price).head then (b.order j).qty - qty else (b.order j).qty := by
    intro j
    rw [order_reduced rfl]
    split
    · rename_i e
      rw [e]
    · rfl
  refine ⟨?_, Nat.zero_le _, fun j => ?_, rfl, Or.inr (Or.inr rfl)⟩
  · have hkept : ∀ j, j ≠ (b.level isBuy price).head → ((b.reduced isBuy price qty).order j).qty = (b.order j).qty :=
      fun j hj => by rw [hqty, if_neg hj]
    have hsum := poolQty_update hkept hlt rfl
    rw [hqty, if_pos rfl] at hsum
    show (b.reduced isBuy price qty).poolQty + qty = b.poolQty + 0
    omega
  · rw [hqty]
    split
    · exact Nat.sub_le _ _
    · exact Nat.le_refl _

theorem fillRound_fills {flow : Flow (Ladder × Nat) (Ladder × Nat)} (h : fillRound isBuy price s = .ok flow) :
    flow.Post (Fills s) (Fills s) := by
  obtain ⟨b, qty⟩ := s
  obtain ⟨_, ⟨_, rfl⟩ | ⟨hhead, hlt, _, ⟨hless, rfl⟩ | ⟨hle, _, rfl⟩⟩⟩ := fillRound_cases h
  · exact Fills.refl _
  · exact fills_reduced hlt (Nat.le_of_lt hless)
  · exact fills_popped hhead hlt hle

theorem fillLevel_fills (h : b.fillLevel fuel isBuy price qty = .ok s) : Fills (b, qty) s := by
  have hloop : Sat (fun _ => True) (b.fillLevel fuel isBuy price qty) (Fills (b, qty)) := by
    refine Sat.loop (I := Fills (b, qty)) trivial (fun s₁ hs₁ => ?_) fuel (Fills.refl _)
    refine sat_true_iff.2 fun flow hflow => ?_
    have hround := fillRound_fills hflow
    cases flow with
    | again s₂ => exact hs₁.trans hround
    | done s₂ => exact hs₁.trans hround
  exact hloop.of_ok h

/-- After an order was there to fill, a slot is free or nothing is left to fill. -/
theorem fillLevel_serves (hhead : (b.level isBuy price).head ≠ NULL_IDX)
    (h : b.fillLevel fuel isBuy price qty = .ok s) : s.1.nextFreeOrderIdx ≠ NULL_IDX ∨ s.2 = 0 := by
  rcases (fillLevel_fills h).ends with rfl | hends
  · rcases (fillLevel_filled h).2 with hnull | hzero
    · exact absurd hnull hhead
    · exact Or.inr hzero
  · exact hends

/-! ### The subtraction does not wrap -/

theorem FitsWords.fills (hw : FitsWords s) (h : Fills s s') : FitsWords s' :=
  ⟨Nat.lt_of_le_of_lt h.le hw.1, fun i hi => Nat.lt_of_le_of_lt (h.slot_le i) (hw.2 i (h.size ▸ hi))⟩

/-- A round subtracts only what it trades. -/
theorem fillRoundBy_eq {sub : Nat → Nat → Nat}
    (h₁ : (b.level isBuy price).head < b.orders.size →
      sub (b.order (b.level isBuy price).head).qty (min qty (b.order (b.level isBuy price).head).qty) =
        (b.order (b.level isBuy price).head).qty - min qty (b.order (b.level isBuy price).head).qty)
    (h₂ : sub qty (min qty (b.order (b.level isBuy price).head).qty) =
      qty - min qty (b.order (b.level isBuy price).head).qty) :
    fillRoundBy sub isBuy price (b, qty) = fillRound isBuy price (b, qty) := by
  by_cases hp : price < MAX_PRICES
  · by_cases hlt : (b.level isBuy price).head < b.orders.size
    · simp only [fillRoundBy, fillRound, getLevel_of_lt hp, getOrder_of_lt hlt, modifyOrder_of_lt hlt, ok_bind,
        h₁ hlt, h₂]
    · have herr : b.getOrder (b.level isBuy price).head = .error .outOfRange := if_neg hlt
      simp only [fillRoundBy, fillRound, getLevel_of_lt hp, ok_bind, herr, error_bind]
  · have herr : b.getLevel isBuy price = .error .outOfRange := if_neg hp
    simp only [fillRoundBy, fillRound, herr, error_bind]

theorem fillLevel32_eq (hw : FitsWords (b, qty)) :
    b.fillLevel32 fuel isBuy price qty = b.fillLevel fuel isBuy price qty := by
  refine (loop_congr (I := FitsWords) (fun s hs => ?_) (fun s s' hs h => ?_) fuel hw).symm
  · obtain ⟨b, qty⟩ := s
    exact (fillRoundBy_eq (fun hlt => subQty_of_le (hs.2 _ hlt) (Nat.min_le_right _ _))
      (subQty_of_le hs.1 (Nat.min_le_left _ _))).symm
  · exact hs.fills (fillRound_fills h)

end Ladder

namespace FastBitsetOrderBook

open Ladder

/-- The index is in a state that its operations can produce, and marks no empty level. -/
def Backed (b : FastBitsetOrderBook) : Prop := ∀ isBuy, (b.index isBuy).Produced ∧
  ∀ p, p < MAX_PRICES → (b.index isBuy).test p = .ok true → (b.level isBuy p).head ≠ NULL_IDX

/-- `matchRound` with the subtraction of the code. -/
def matchRound32 (inner : Nat) (incomingPrice : Nat) (isBuy : Bool) :
    FastBitsetOrderBook × Nat → Exec (Flow (FastBitsetOrderBook × Nat) (FastBitsetOrderBook × Nat))
  | (b, incomingQty) =>
    if 0 < incomingQty then do
      match ← b.best isBuy with
      | none => return .done (b, incomingQty)
      | some best =>
        if Crosses isBuy incomingPrice best then do
          let (ladder, incomingQty) ← b.fillLevel32 inner (!isBuy) best incomingQty
          let b ← { b with toLadder := ladder }.clearIfEmpty (!isBuy) best
          return .again (b, incomingQty)
        else return .done (b, incomingQty)
    else return .done (b, incomingQty)

/-- `match` with the subtraction of the code. -/
def matchOrder32 (fuel : Nat) (b : FastBitsetOrderBook) (incomingPrice incomingQty : Nat) (isBuy : Bool) :
    Exec (FastBitsetOrderBook × Nat) :=
  loop (matchRound32 fuel incomingPrice isBuy) fuel (b, incomingQty)

variable {b b' : FastBitsetOrderBook} {isBuy : Bool} {price id qty qty' fuel inner limit : Nat}

theorem Signposted.backed (h : b.Signposted) : b.Backed :=
  fun isBuy => ⟨(h isBuy).1, fun p hp => ((h isBuy).2 p hp).1⟩

/-- The best price is one at which an order waits. -/
theorem Backed.best (h : b.Backed) (e : b.best isBuy = .ok (some price)) :
    (b.level (!isBuy) price).head ≠ NULL_IDX := by
  have hrep : ∀ s, ∃ S, (b.index s).Represents S := fun s => PriceBitset.produced_iff.1 (h s).1
  choose S hS using hrep
  rcases best_of_represents hS isBuy with ⟨e', _⟩ | ⟨p, e', hp, _⟩
  · rw [e] at e'
    cases e'
  · rw [e] at e'
    obtain rfl : price = p := Option.some.inj (Except.ok.inj e')
    have hlt := (hS (!isBuy)).bound price hp
    obtain ⟨t, et, ht⟩ := (hS (!isBuy)).test hlt
    exact (h (!isBuy)).2 price hlt (et.trans (congrArg _ (ht.2 hp)))

theorem toLadder_clearIfEmpty {s : Bool} (h : b.clearIfEmpty s price = .ok b') : b'.toLadder = b.toLadder := by
  obtain ⟨level, _, h⟩ := bind_eq_ok.1 h
  split at h
  · obtain ⟨bits, _, h⟩ := bind_eq_ok.1 h
    cases h
    rfl
  · cases h
    rfl

/-- What a round of the outer loop does in any state. -/
theorem matchRound_cases {flow : Flow (FastBitsetOrderBook × Nat) (FastBitsetOrderBook × Nat)}
    (h : matchRound inner limit isBuy (b, qty) = .ok flow) :
    flow = .done (b, qty) ∨ ∃ p b' qty', 0 < qty ∧ b.best isBuy = .ok (some p) ∧
      b.fillLevel inner (!isBuy) p qty = .ok (b'.toLadder, qty') ∧ flow = .again (b', qty') := by
  by_cases hqty : 0 < qty
  · obtain ⟨best, hbest⟩ : ∃ best, b.best isBuy = .ok best := by
      simp only [matchRound, if_pos hqty] at h
      obtain ⟨best, hbest, _⟩ := bind_eq_ok.1 h
      exact ⟨best, hbest⟩
    cases best with
    | none =>
      simp only [matchRound, if_pos hqty, hbest, ok_bind, pure_eq_ok] at h
      exact Or.inl (Except.ok.inj h).symm
    | some p =>
      by_cases hc : Crosses isBuy limit p
      · simp only [matchRound, if_pos hqty, hbest, ok_bind, if_pos hc] at h
        obtain ⟨⟨l, qty'⟩, hfill, h⟩ := bind_eq_ok.1 h
        obtain ⟨b', hclear, h⟩ := bind_eq_ok.1 h
        have hl : b'.toLadder = l := toLadder_clearIfEmpty hclear
        exact Or.inr ⟨p, b', qty', hqty, hbest, hl ▸ hfill, (Except.ok.inj h).symm⟩
      · simp only [matchRound, if_pos hqty, hbest, ok_bind, if_neg hc, pure_eq_ok] at h
        exact Or.inl (Except.ok.inj h).symm
  · simp only [matchRound, if_neg hqty, pure_eq_ok] at h
    exact Or.inl (Except.ok.inj h).symm

/-- `match` has filled nothing, or leaves a free slot or nothing to fill. -/
theorem matchOrder_fills (hb : b.Backed) (h : b.matchOrder fuel limit qty isBuy = .ok (b', qty')) :
    Fills (b.toLadder, qty) (b'.toLadder, qty') ∧
      ((b', qty') = (b, qty) ∨ b'.nextFreeOrderIdx ≠ NULL_IDX ∨ qty' = 0) := by
  have hloop : Sat (fun _ => True) (b.matchOrder fuel limit qty isBuy) fun s =>
      Fills (b.toLadder, qty) (s.1.toLadder, s.2) ∧ (s = (b, qty) ∨ s.1.nextFreeOrderIdx ≠ NULL_IDX ∨ s.2 = 0) := by
    refine Sat.loop (I := fun s => Fills (b.toLadder, qty) (s.1.toLadder, s.2) ∧
      (s = (b, qty) ∨ s.1.nextFreeOrderIdx ≠ NULL_IDX ∨ s.2 = 0)) trivial (fun s hs => ?_) fuel
      ⟨Fills.refl _, Or.inl rfl⟩
    refine sat_true_iff.2 fun flow hflow => ?_
    obtain ⟨b₁, qty₁⟩ := s
    obtain ⟨hfills, hends⟩ := hs
    rcases matchRound_cases hflow with rfl | ⟨p, b₂, qty₂, hqty, hbest, hfill, rfl⟩
    · exact ⟨hfills, hends⟩
    · refine ⟨hfills.trans (fillLevel_fills hfill), Or.inr ?_⟩
      -- only in the first round nothing is known of the free list, but then the best price is not empty
      rcases hends with heq | hfree | hzero
      · obtain ⟨rfl, rfl⟩ := Prod.mk.inj heq
        exact fillLevel_serves (hb.best hbest) hfill
      · rcases (fillLevel_fills hfill).ends with heq | hends
        · left
          rw [(Prod.mk.inj heq).1]
          exact hfree
        · exact hends
      · exact absurd hqty (Nat.not_lt.2 (Nat.le_of_eq hzero))
  exact hloop.of_ok h

theorem matchOrder32_eq (hw : FitsWords (b.toLadder, qty)) :
    b.matchOrder32 fuel limit qty isBuy = b.matchOrder fuel limit qty isBuy := by
  refine (loop_congr (I := fun s : FastBitsetOrderBook × Nat => FitsWords (s.1.toLadder, s.2)) (fun s hs => ?_)
    (fun s s' hs h => ?_) fuel hw).symm
  · obtain ⟨b, qty⟩ := s
    by_cases hq : 0 < qty
    · simp only [matchRound, matchRound32, if_pos hq]
      refine bind_congr fun best => ?_
      cases best with
      | none => rfl
      | some p => simp only [fillLevel32_eq hs]
    · simp only [matchRound, matchRound32, if_neg hq]
  · obtain ⟨b, qty⟩ := s
    rcases matchRound_cases h with e | ⟨p, b', qty', _, _, hfill, e⟩
    · cases e
    · cases e
      exact hs.fills (fillLevel_fills hfill)

/-- An order that is dropped for lack of a slot has traded nothing, and leaves the book as it was; and what `match`
fills, it takes out of the slots of the pool, without a subtraction that wraps. -/
theorem submit_drops_untraded (hb : b.Backed) (h : b.matchOrder fuel price qty isBuy = .ok (b', qty')) (id : Nat) :
    (0 < qty' ∧ b'.nextFreeOrderIdx = NULL_IDX →
      b.nextFreeOrderIdx = NULL_IDX ∧ qty' = qty ∧ b' = b ∧ b.submitOrder fuel id price qty isBuy = .ok b) ∧
    qty' ≤ qty ∧ b'.poolQty + (qty - qty') = b.poolQty ∧ (∀ i, (b'.order i).qty ≤ (b.order i).qty) ∧
    (FitsWords (b.toLadder, qty) → b.matchOrder32 fuel price qty isBuy = .ok (b', qty')) := by
  obtain ⟨hfills, hends⟩ := matchOrder_fills hb h
  have htotal : b'.poolQty + qty = b.poolQty + qty' := hfills.total
  have hle : qty' ≤ qty := hfills.le
  refine ⟨fun ⟨hqty, hfull⟩ => ?_, hle, by omega, hfills.slot_le, fun hw => (matchOrder32_eq hw).trans h⟩
  rcases hends with heq | hfree | hzero
  · obtain ⟨rfl, rfl⟩ := Prod.mk.inj heq
    refine ⟨hfull, rfl, rfl, ?_⟩
    simp only [submitOrder, h, ok_bind, if_pos hqty, addOrder, if_pos hfull, pure_eq_ok]
  · exact absurd hfull hfree
  · omega

/-- A bid below the only ask, which has taken the last slot. -/
theorem submit_drops_untraded_bid : ∃ b₀ b₁, new.init 1 = .ok b₀ ∧ b₀.Step (.submit 0 5 10 false) b₁ ∧
    b₁.nextFreeOrderIdx = NULL_IDX ∧ b₁.submitOrder 10 0 4 3 true = .ok b₁ := by
  have hok : (new.init 1 >>= fun b₀ => b₀.exec 10 (.submit 0 5 10 false) >>= fun b₁ =>
      pure (b₀, b₁)).isOk = true := by
    decide +kernel
  obtain ⟨b₀, h₀, h⟩ := bind_eq_ok.1 (eq_ok_value (new, new) hok)
  obtain ⟨b₁, h₁, h⟩ := bind_eq_ok.1 h
  obtain ⟨hmatch, hleft⟩ : (b₁.matchOrder 10 4 3 true).isOk = true ∧
      0 < (value (b₁.matchOrder 10 4 3 true) (new, 0)).2 ∧
        (value (b₁.matchOrder 10 4 3 true) (new, 0)).1.nextFreeOrderIdx = NULL_IDX := by
    rw [(Prod.mk.inj (Except.ok.inj h)).2]
    decide +kernel
  have h₂ := eq_ok_value (new, 0) hmatch
  have hstep : b₀.Step (.submit 0 5 10 false) b₁ := ⟨10, h₁⟩
  obtain ⟨hs₀, hrest₀⟩ := stocked_init h₀
  have hlegal : Legal 1 b₀ (.call (.submit 0 5 10 false)) := ⟨by decide, hrest₀ 0, by decide⟩
  obtain ⟨b₁', _, _, hstep', hi, _⟩ := hs₀.request hlegal trivial
  obtain rfl : b₁ = b₁' := hstep.unique hstep'
  obtain ⟨hfull, _, _, e⟩ := (submit_drops_untraded (signposted_iff.2 hi).backed h₂ 0).1 hleft
  exact ⟨b₀, b₁, h₀, hstep, hfull, e⟩

end FastBitsetOrderBook

end Lobook
