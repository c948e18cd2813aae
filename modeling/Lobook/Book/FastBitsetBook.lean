import Mathlib.Data.List.Induction
import Lobook.Lib.Transition
import Lobook.Book.Ladder

/-!
# The bitset book (`fast_bitset_book.h`)

`FastBitsetOrderBook` adds one `PriceBitset` for each side: `match` jumps to the best price of the other side instead
of scanning for it, and every operation that fills or empties a level updates the index.
-/

namespace Lobook

open Checked

/-- The index of the bids is `index true`, that of the asks `index false`. -/
structure FastBitsetOrderBook extends Ladder where
  index : Bool → PriceBitset

/-- The calls, and the primitive that only this book has. -/
inductive Request where
  | call (c : Call)
  | replace (id newPrice newQty : Nat)
  deriving DecidableEq

namespace FastBitsetOrderBook

/-- Runs a block of code on the data that the books share. -/
def onLadder (b : FastBitsetOrderBook) (f : Ladder → Exec Ladder) : Exec FastBitsetOrderBook := do
  let ladder ← f b.toLadder
  return { b with toLadder := ladder }

/-- `index.set(price)`; the parameter of `set` has type `uint32_t`. -/
def setIndex (b : FastBitsetOrderBook) (isBuy : Bool) (price : Nat) : Exec FastBitsetOrderBook := do
  let bits ← (b.index isBuy).set (u32 price)
  return { b with index := Function.update b.index isBuy bits }

/-- `index.clear(price)` if the level is empty. -/
def clearIfEmpty (b : FastBitsetOrderBook) (isBuy : Bool) (price : Nat) : Exec FastBitsetOrderBook := do
  let level ← b.getLevel isBuy price
  if level.head = NULL_IDX then do
    let bits ← (b.index isBuy).clear (u32 price)
    return { b with index := Function.update b.index isBuy bits }
  else return b

/-- The best price of the side that an incoming order trades with. -/
def best (b : FastBitsetOrderBook) (isBuy : Bool) : Exec (Option Nat) :=
  if isBuy then (b.index false).findLowest else (b.index true).findHighest

/-- One round of the outer loop of `match`; `inner` is the fuel of the inner loop. -/
def matchRound (inner : Nat) (incomingPrice : Nat) (isBuy : Bool) :
    FastBitsetOrderBook × Nat → Exec (Flow (FastBitsetOrderBook × Nat) (FastBitsetOrderBook × Nat))
  | (b, incomingQty) =>
    if 0 < incomingQty then do
      match ← b.best isBuy with
      | none => return .done (b, incomingQty)
      | some best =>
        if Crosses isBuy incomingPrice best then do
          let (ladder, incomingQty) ← b.fillLevel inner (!isBuy) best incomingQty
          let b ← { b with toLadder := ladder }.clearIfEmpty (!isBuy) best
          return .again (b, incomingQty)
        else return .done (b, incomingQty)
    else return .done (b, incomingQty)

/-- `match`: the book and what is left of the incoming quantity. -/
def matchOrder (fuel : Nat) (b : FastBitsetOrderBook) (incomingPrice incomingQty : Nat) (isBuy : Bool) :
    Exec (FastBitsetOrderBook × Nat) :=
  loop (matchRound fuel incomingPrice isBuy) fuel (b, incomingQty)

def addOrder (b : FastBitsetOrderBook) (id price qty : Nat) (isBuy : Bool) : Exec FastBitsetOrderBook :=
  if b.nextFreeOrderIdx = NULL_IDX then return b
  else do
    let idx := b.nextFreeOrderIdx
    let b ← b.onLadder fun l => l.takeSlot id price qty isBuy
    if MAX_PRICES ≤ price then return b
    else do
      let level ← b.getLevel isBuy price
      if level.head = NULL_IDX then do
        let b ← b.onLadder fun l => l.setLevel isBuy price ⟨idx, idx⟩
        b.setIndex isBuy price
      else b.onLadder fun l => l.linkTail isBuy price idx

def submitOrder (fuel : Nat) (b : FastBitsetOrderBook) (id price qty : Nat) (isBuy : Bool) :
    Exec FastBitsetOrderBook := do
  let (b, qty) ← matchOrder fuel b price qty isBuy
  if 0 < qty then addOrder b id price qty isBuy else return b

def cancelOrder (b : FastBitsetOrderBook) (id : Nat) : Exec FastBitsetOrderBook :=
  if b.idMap.size ≤ id then return b
  else do
    let orderIdx ← b.getSlot id
    if orderIdx = NULL_IDX then return b
    else do
      let order ← b.getOrder orderIdx
      let b ← b.onLadder fun l => l.unlink order.isBuy order.price orderIdx
      let b ← b.clearIfEmpty order.isBuy order.price
      let b ← b.onLadder fun l => l.modifyOrder orderIdx fun o => { o with prev := NULL_IDX }
      let b ← b.onLadder fun l => l.release orderIdx
      b.onLadder fun l => l.setSlot id NULL_IDX

/-- The branch of `replace_order` for a new price. -/
def moveOrder (b : FastBitsetOrderBook) (orderIdx : Nat) (isBuy : Bool) (price newPrice : Nat) :
    Exec FastBitsetOrderBook := do
  let b ← b.onLadder fun l => l.unlink isBuy price orderIdx
  let b ← b.clearIfEmpty isBuy price
  let b ← b.onLadder fun l => l.relink isBuy newPrice orderIdx
  let b ← b.setIndex isBuy newPrice
  b.onLadder fun l => l.modifyOrder orderIdx fun o => { o with next := NULL_IDX }

/-- The branch of `replace_order` for a larger quantity, of an order that is not alone in its level. -/
def requeueOrder (b : FastBitsetOrderBook) (orderIdx : Nat) (isBuy : Bool) (price : Nat) :
    Exec FastBitsetOrderBook := do
  let b ← b.onLadder fun l => l.unlink isBuy price orderIdx
  let b ← b.onLadder fun l => l.linkTail isBuy price orderIdx
  b.onLadder fun l => l.modifyOrder orderIdx fun o => { o with next := NULL_IDX }

/-- The branches of `replace_order` before it writes the price and the quantity. -/
def reposition (b : FastBitsetOrderBook) (orderIdx newPrice newQty : Nat) : Exec FastBitsetOrderBook := do
  let order ← b.getOrder orderIdx
  let level ← b.getLevel order.isBuy order.price
  if order.price ≠ newPrice then b.moveOrder orderIdx order.isBuy order.price newPrice
  -- a sole order keeps its place
  else if order.qty < newQty ∧ ¬ (level.head = orderIdx ∧ level.tail = orderIdx) then
    b.requeueOrder orderIdx order.isBuy order.price
  else return b

def replaceOrder (b : FastBitsetOrderBook) (id newPrice newQty : Nat) : Exec FastBitsetOrderBook :=
  if b.idMap.size ≤ id then return b
  else do
    let orderIdx ← b.getSlot id
    if orderIdx = NULL_IDX then return b
    else do
      let b ← b.reposition orderIdx newPrice newQty
      b.onLadder fun l => l.modifyOrder orderIdx fun o => { o with qty := newQty, price := newPrice }

def init (b : FastBitsetOrderBook) (maxOrders : Nat) : Exec FastBitsetOrderBook := do
  let ladder ← b.toLadder.init maxOrders
  return { toLadder := ladder, index := fun isBuy => (b.index isBuy).clearAll }

/-- A newly constructed book. -/
def new : FastBitsetOrderBook := { toLadder := Ladder.new, index := fun _ => PriceBitset.new }

def exec (fuel : Nat) (b : FastBitsetOrderBook) : Call → Exec FastBitsetOrderBook
  | .submit id price qty isBuy => b.submitOrder fuel id price qty isBuy
  | .cancel id => b.cancelOrder id

def execRequest (fuel : Nat) (b : FastBitsetOrderBook) : Request → Exec FastBitsetOrderBook
  | .call c => b.exec fuel c
  | .replace id newPrice newQty => b.replaceOrder id newPrice newQty

/-- The call returns, and the book is `b'` afterwards. -/
def Step (b : FastBitsetOrderBook) (c : Call) (b' : FastBitsetOrderBook) : Prop := ∃ fuel, b.exec fuel c = .ok b'

/-- The request returns, and the book is `b'` afterwards. -/
def RequestStep (b : FastBitsetOrderBook) (r : Request) (b' : FastBitsetOrderBook) : Prop :=
  ∃ fuel, b.execRequest fuel r = .ok b'

/-- Requests one after the other. -/
def execAll (fuel : Nat) (b : FastBitsetOrderBook) (rs : List Request) : Exec FastBitsetOrderBook :=
  rs.foldlM (execRequest fuel) b

theorem run_of_execAll {fuel : Nat} {b b' : FastBitsetOrderBook} {rs : List Request}
    (h : b.execAll fuel rs = .ok b') : Transition.Run RequestStep b rs b' := by
  induction rs using List.reverseRecOn generalizing b' with
  | nil =>
    cases h
    exact Transition.Run.refl
  | append_singleton rs r ih =>
    rw [execAll, List.foldlM_append] at h
    obtain ⟨b₁, h₁, h₂⟩ := bind_eq_ok.1 h
    obtain ⟨b₂, h₂, h₃⟩ := bind_eq_ok.1 h₂
    cases h₃
    exact (ih h₁).snoc ⟨fuel, h₂⟩

/-! ### Results do not depend on the fuel -/

theorem matchRound_cutOff {inner inner' : Nat} (hle : inner ≤ inner') (limit : Nat) (isBuy : Bool)
    (s : FastBitsetOrderBook × Nat) : CutOff (matchRound inner limit isBuy s) (matchRound inner' limit isBuy s) := by
  obtain ⟨b, qty⟩ := s
  simp only [matchRound]
  split
  · refine (CutOff.refl _).bind fun best => ?_
    cases best with
    | none => exact CutOff.refl _
    | some best =>
      simp only
      split
      · exact (Ladder.fillLevel_cutOff hle _ _ _ _).bind fun _ => CutOff.refl _
      · exact CutOff.refl _
  · exact CutOff.refl _

theorem matchOrder_cutOff {fuel fuel' : Nat} (hle : fuel ≤ fuel') (b : FastBitsetOrderBook) (limit qty : Nat)
    (isBuy : Bool) : CutOff (b.matchOrder fuel limit qty isBuy) (b.matchOrder fuel' limit qty isBuy) :=
  loop_cutOff (matchRound_cutOff hle limit isBuy) hle _

/-- The fuel of the inner loop and that of the outer one may be different. -/
theorem matchOrder_of_loop {inner fuel limit qty : Nat} {b : FastBitsetOrderBook} {isBuy : Bool}
    {r : FastBitsetOrderBook × Nat} (h : loop (matchRound inner limit isBuy) fuel (b, qty) = .ok r) :
    b.matchOrder (max inner fuel) limit qty isBuy = .ok r :=
  loop_mono (matchRound_cutOff (Nat.le_max_left inner fuel) limit isBuy) (Nat.le_max_right inner fuel) _ _ h

theorem matchOrder_unique {fuel₁ fuel₂ limit qty : Nat} {b : FastBitsetOrderBook} {isBuy : Bool}
    {r₁ r₂ : FastBitsetOrderBook × Nat} (h₁ : b.matchOrder fuel₁ limit qty isBuy = .ok r₁)
    (h₂ : b.matchOrder fuel₂ limit qty isBuy = .ok r₂) : r₁ = r₂ := by
  have e₁ := (matchOrder_cutOff (Nat.le_max_left fuel₁ fuel₂) b limit qty isBuy).extends _ h₁
  have e₂ := (matchOrder_cutOff (Nat.le_max_right fuel₁ fuel₂) b limit qty isBuy).extends _ h₂
  exact Except.ok.inj (e₁.symm.trans e₂)

theorem exec_cutOff {fuel fuel' : Nat} (hle : fuel ≤ fuel') (b : FastBitsetOrderBook) (c : Call) :
    CutOff (b.exec fuel c) (b.exec fuel' c) := by
  cases c with
  | submit id price qty isBuy => exact (matchOrder_cutOff hle b price qty isBuy).bind fun _ => CutOff.refl _
  | cancel id => exact CutOff.refl _

theorem execRequest_cutOff {fuel fuel' : Nat} (hle : fuel ≤ fuel') (b : FastBitsetOrderBook) (r : Request) :
    CutOff (b.execRequest fuel r) (b.execRequest fuel' r) := by
  cases r with
  | call c => exact exec_cutOff hle b c
  | replace id newPrice newQty => exact CutOff.refl _

/-- A request has at most one result. -/
theorem RequestStep.unique {b b₁ b₂ : FastBitsetOrderBook} {r : Request} (h₁ : b.RequestStep r b₁)
    (h₂ : b.RequestStep r b₂) : b₁ = b₂ := by
  obtain ⟨fuel₁, e₁⟩ := h₁
  obtain ⟨fuel₂, e₂⟩ := h₂
  have e₁' := (execRequest_cutOff (Nat.le_max_left fuel₁ fuel₂) b r).extends _ e₁
  have e₂' := (execRequest_cutOff (Nat.le_max_right fuel₁ fuel₂) b r).extends _ e₂
  exact Except.ok.inj (e₁'.symm.trans e₂')

end FastBitsetOrderBook

end Lobook
