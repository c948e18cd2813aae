import Lobook.Lib.Loop
import Lobook.Lib.Transition
import Lobook.Book.PriceTime

/-!
# The reference book (`simple_book.h`)

`NaiveOrderBook` keeps one `std::list` of orders for each price, in a `std::map` for each side, and finds an order by
its id through a map of locations.  A location holds an iterator; `Node` is a list node with the name by which
iterators refer to it, and the names are never used again.  The map of the bids is `levels true`, that of the asks
`levels false`.
-/

namespace Lobook

open Checked

namespace Naive

structure Order where
  id : Nat
  price : Nat
  qty : Nat
  isBuy : Bool
  deriving DecidableEq

/-- A node of a `std::list<Order>`. -/
structure Node where
  itr : Nat
  order : Order
  deriving DecidableEq

structure OrderLocation where
  price : Nat
  isBuy : Bool
  itr : Nat
  deriving DecidableEq

/-- A `std::map` from prices to lists, in the order of its comparator. -/
abbrev LevelMap := List (Nat × List Node)

namespace LevelMap

/-- The list at a price; empty if there is none. -/
def listAt (price : Nat) : LevelMap → List Node
  | [] => []
  | (p, list) :: rest => if p = price then list else listAt price rest

/-- `levels[price]`, which inserts an empty list if there is none, and then `f` on this list. -/
def modifyAt (isBuy : Bool) (price : Nat) (f : List Node → Exec (List Node)) : LevelMap → Exec LevelMap
  | [] => do
    let list ← f []
    return [(price, list)]
  | (p, list) :: rest =>
    if p = price then do
      let list ← f list
      return (p, list) :: rest
    -- the comparator: the best price for the other side comes first
    else if Better (!isBuy) price p then do
      let list' ← f []
      return (price, list') :: (p, list) :: rest
    else do
      let rest ← modifyAt isBuy price f rest
      return (p, list) :: rest

end LevelMap

/-- `list.erase(itr)`; the iterator must refer to a node of this list. -/
def eraseNode (itr : Nat) (list : List Node) : Exec (List Node) :=
  if ∃ node ∈ list, node.itr = itr then return list.eraseP fun node => node.itr = itr else .error .undefined

end Naive

open Naive

structure NaiveOrderBook where
  totalTrades : Nat
  levels : Bool → LevelMap
  orderLookup : Nat → Option OrderLocation
  nextItr : Nat

namespace NaiveOrderBook

def withLevels (b : NaiveOrderBook) (isBuy : Bool) (levels : LevelMap) : NaiveOrderBook :=
  { b with levels := Function.update b.levels isBuy levels }

/-- `order_lookup.erase(order_lookup.find(id))`; `find` must not return `end()`. -/
def eraseLookup (b : NaiveOrderBook) (id : Nat) : Exec NaiveOrderBook :=
  match b.orderLookup id with
  | none => .error .undefined
  | some _ => return { b with orderLookup := Function.update b.orderLookup id none }

/-- One round of `process_list`. -/
def processRound : NaiveOrderBook × List Node × Nat →
    Exec (Flow (NaiveOrderBook × List Node × Nat) (NaiveOrderBook × List Node × Nat))
  | (b, [], incomingQty) => return .done (b, [], incomingQty)
  | (b, restingOrder :: orderList, incomingQty) =>
    if 0 < incomingQty then do
      let resting := restingOrder.order
      let tradedQty := min incomingQty resting.qty
      let b := { b with totalTrades := b.totalTrades + 1 }
      if resting.qty - tradedQty = 0 then do
        let b ← b.eraseLookup resting.id
        return .again (b, orderList, incomingQty - tradedQty)
      else
        let restingOrder := { restingOrder with order := { resting with qty := resting.qty - tradedQty } }
        return .again (b, restingOrder :: orderList, incomingQty - tradedQty)
    else return .done (b, restingOrder :: orderList, incomingQty)

/-- `process_list`: the book, the list, and what is left of the incoming quantity. -/
def processList (fuel : Nat) (b : NaiveOrderBook) (orderList : List Node) (incomingQty : Nat) :
    Exec (NaiveOrderBook × List Node × Nat) :=
  loop processRound fuel (b, orderList, incomingQty)

/-- One round of the loop of `match`; `inner` is the fuel of `process_list`. -/
def matchRound (inner : Nat) (incomingPrice : Nat) (isBuy : Bool) :
    NaiveOrderBook × Nat → Exec (Flow (NaiveOrderBook × Nat) (NaiveOrderBook × Nat))
  | (b, incomingQty) =>
    match b.levels (!isBuy) with
    | [] => return .done (b, incomingQty)
    | (best, orderList) :: rest =>
      if 0 < incomingQty then
        if Crosses isBuy incomingPrice best then do
          let (b, orderList, incomingQty) ← processList inner b orderList incomingQty
          let levels := if orderList.isEmpty then rest else (best, orderList) :: rest
          return .again (b.withLevels (!isBuy) levels, incomingQty)
        else return .done (b, incomingQty)
      else return .done (b, incomingQty)

/-- `match`: the book and what is left of the incoming quantity. -/
def matchOrder (fuel : Nat) (b : NaiveOrderBook) (incomingPrice incomingQty : Nat) (isBuy : Bool) :
    Exec (NaiveOrderBook × Nat) :=
  loop (matchRound fuel incomingPrice isBuy) fuel (b, incomingQty)

def addOrder (fuel : Nat) (b : NaiveOrderBook) (id price qty : Nat) (isBuy : Bool) : Exec NaiveOrderBook := do
  let (b, qty) ← matchOrder fuel b price qty isBuy
  if 0 < qty then do
    let it := b.nextItr
    let levels ← LevelMap.modifyAt isBuy price (fun list => return list ++ [⟨it, ⟨id, price, qty, isBuy⟩⟩])
      (b.levels isBuy)
    return { b.withLevels isBuy levels with
      orderLookup := Function.update b.orderLookup id (some ⟨price, isBuy, it⟩)
      nextItr := it + 1 }
  else return b

def cancelOrder (b : NaiveOrderBook) (id : Nat) : Exec NaiveOrderBook :=
  match b.orderLookup id with
  | none => return b
  | some loc => do
    let levels ← LevelMap.modifyAt loc.isBuy loc.price (eraseNode loc.itr) (b.levels loc.isBuy)
    return { b.withLevels loc.isBuy levels with orderLookup := Function.update b.orderLookup id none }

/-- A newly constructed book. -/
def new : NaiveOrderBook := ⟨0, fun _ => [], fun _ => none, 0⟩

def exec (fuel : Nat) (b : NaiveOrderBook) : Call → Exec NaiveOrderBook
  | .submit id price qty isBuy => b.addOrder fuel id price qty isBuy
  | .cancel id => b.cancelOrder id

/-- The call returns, and the book is `b'` afterwards. -/
def Step (b : NaiveOrderBook) (c : Call) (b' : NaiveOrderBook) : Prop := ∃ fuel, b.exec fuel c = .ok b'

/-! ### Results do not depend on the fuel -/

theorem matchRound_cutOff {inner inner' : Nat} (hle : inner ≤ inner') (limit : Nat) (isBuy : Bool)
    (s : NaiveOrderBook × Nat) : CutOff (matchRound inner limit isBuy s) (matchRound inner' limit isBuy s) := by
  obtain ⟨b, qty⟩ := s
  simp only [matchRound]
  split
  · exact CutOff.refl _
  · split
    · split
      · exact (loop_cutOff (fun _ => CutOff.refl _) hle _).bind fun _ => CutOff.refl _
      · exact CutOff.refl _
    · exact CutOff.refl _

theorem matchOrder_cutOff {fuel fuel' : Nat} (hle : fuel ≤ fuel') (b : NaiveOrderBook) (limit qty : Nat)
    (isBuy : Bool) : CutOff (b.matchOrder fuel limit qty isBuy) (b.matchOrder fuel' limit qty isBuy) :=
  loop_cutOff (matchRound_cutOff hle limit isBuy) hle _

theorem exec_cutOff {fuel fuel' : Nat} (hle : fuel ≤ fuel') (b : NaiveOrderBook) (c : Call) :
    CutOff (b.exec fuel c) (b.exec fuel' c) := by
  cases c with
  | submit id price qty isBuy => exact (matchOrder_cutOff hle b price qty isBuy).bind fun _ => CutOff.refl _
  | cancel id => exact CutOff.refl _

/-- A call that returns does nothing without a meaning: with little fuel it is cut off, and that is all. -/
theorem Step.no_failure {b b' : NaiveOrderBook} {c : Call} (h : b.Step c b') {fuel : Nat} {e : Stop}
    (he : b.exec fuel c = .error e) : e = .outOfFuel := by
  obtain ⟨fuel', hr⟩ := h
  have hr' := (exec_cutOff (Nat.le_max_right fuel fuel') b c).extends _ hr
  exact (exec_cutOff (Nat.le_max_left fuel fuel') b c).of_ok hr' he

/-- A call has at most one result. -/
theorem Step.unique {b b₁ b₂ : NaiveOrderBook} {c : Call} (h₁ : b.Step c b₁) (h₂ : b.Step c b₂) : b₁ = b₂ := by
  obtain ⟨fuel₁, e₁⟩ := h₁
  obtain ⟨fuel₂, e₂⟩ := h₂
  have e₁' := (exec_cutOff (Nat.le_max_left fuel₁ fuel₂) b c).extends _ e₁
  have e₂' := (exec_cutOff (Nat.le_max_right fuel₁ fuel₂) b c).extends _ e₂
  exact Except.ok.inj (e₁'.symm.trans e₂')

end NaiveOrderBook

end Lobook
