import Mathlib.Algebra.Group.Nat.Defs
import Lobook.Lib.Loop
import Lobook.Book.PriceBitset
import Lobook.Book.PriceTime

/-!
# The state of the intrusive books

`FastOrderBook` and `FastBitsetOrderBook` keep the same data: a pool of orders, two ladders of price levels, a map
from ids to slots and the front of the free list.  One `next` field threads both the queue of a level and the free
list.  `Ladder` is this data, with the blocks of code that both books share; the ladder of the bids is
`levels true`, that of the asks `levels false`.
-/

namespace Lobook

open Checked

/-- `UINT32_MAX`. -/
def NULL_IDX : Nat := 4294967295

/-- A conversion to `uint32_t`. -/
def u32 (x : Nat) : Nat := x % 4294967296

structure Order where
  id : Nat
  price : Nat
  qty : Nat
  isBuy : Bool
  next : Nat
  prev : Nat
  deriving DecidableEq

structure PriceLevel where
  head : Nat
  tail : Nat
  deriving DecidableEq

structure Ladder where
  orders : Vec Order
  levels : Bool → Table MAX_PRICES PriceLevel
  idMap : Vec Nat
  nextFreeOrderIdx : Nat

namespace Ladder

/-! ### Cells -/

section Cells

variable (b : Ladder)

def order (idx : Nat) : Order := b.orders.cell idx

def level (isBuy : Bool) (price : Nat) : PriceLevel := (b.levels isBuy).cell price

def slot (id : Nat) : Nat := b.idMap.cell id

def withOrder (idx : Nat) (o : Order) : Ladder :=
  { b with orders := ⟨b.orders.size, Function.update b.orders.cell idx o⟩ }

def withLevel (isBuy : Bool) (price : Nat) (level : PriceLevel) : Ladder :=
  { b with levels := Function.update b.levels isBuy ⟨Function.update (b.levels isBuy).cell price level⟩ }

def withSlot (id idx : Nat) : Ladder :=
  { b with idMap := ⟨b.idMap.size, Function.update b.idMap.cell id idx⟩ }

def withFree (idx : Nat) : Ladder := { b with nextFreeOrderIdx := idx }

variable (idx idx' id id' price price' : Nat) (isBuy isBuy' : Bool) (o : Order) (l : PriceLevel)

@[simp] theorem order_withOrder : (b.withOrder idx o).order idx' = if idx' = idx then o else b.order idx' := by
  simp only [order, withOrder, Function.update_apply]

@[simp] theorem level_withOrder : (b.withOrder idx o).level isBuy price = b.level isBuy price := rfl

@[simp] theorem slot_withOrder : (b.withOrder idx o).slot id = b.slot id := rfl

@[simp] theorem free_withOrder : (b.withOrder idx o).nextFreeOrderIdx = b.nextFreeOrderIdx := rfl

@[simp] theorem size_withOrder : (b.withOrder idx o).orders.size = b.orders.size := rfl

@[simp] theorem idMap_withOrder : (b.withOrder idx o).idMap = b.idMap := rfl

@[simp] theorem order_withLevel : (b.withLevel isBuy price l).order idx = b.order idx := rfl

@[simp] theorem level_withLevel : (b.withLevel isBuy price l).level isBuy' price' =
    if isBuy' = isBuy ∧ price' = price then l else b.level isBuy' price' := by
  simp only [level, withLevel, Function.update_apply]
  split
  · rename_i e; subst e; simp [Function.update_apply]
  · rename_i e; simp [e]

@[simp] theorem slot_withLevel : (b.withLevel isBuy price l).slot id = b.slot id := rfl

@[simp] theorem free_withLevel : (b.withLevel isBuy price l).nextFreeOrderIdx = b.nextFreeOrderIdx := rfl

@[simp] theorem orders_withLevel : (b.withLevel isBuy price l).orders = b.orders := rfl

@[simp] theorem idMap_withLevel : (b.withLevel isBuy price l).idMap = b.idMap := rfl

@[simp] theorem order_withSlot : (b.withSlot id idx).order idx' = b.order idx' := rfl

@[simp] theorem level_withSlot : (b.withSlot id idx).level isBuy price = b.level isBuy price := rfl

@[simp] theorem slot_withSlot : (b.withSlot id idx).slot id' = if id' = id then idx else b.slot id' := by
  simp only [slot, withSlot, Function.update_apply]

@[simp] theorem free_withSlot : (b.withSlot id idx).nextFreeOrderIdx = b.nextFreeOrderIdx := rfl

@[simp] theorem orders_withSlot : (b.withSlot id idx).orders = b.orders := rfl

@[simp] theorem size_withSlot : (b.withSlot id idx).idMap.size = b.idMap.size := rfl

@[simp] theorem order_withFree : (b.withFree idx).order idx' = b.order idx' := rfl

@[simp] theorem level_withFree : (b.withFree idx).level isBuy price = b.level isBuy price := rfl

@[simp] theorem slot_withFree : (b.withFree idx).slot id = b.slot id := rfl

@[simp] theorem free_withFree : (b.withFree idx).nextFreeOrderIdx = idx := rfl

@[simp] theorem orders_withFree : (b.withFree idx).orders = b.orders := rfl

@[simp] theorem idMap_withFree : (b.withFree idx).idMap = b.idMap := rfl

end Cells

/-! ### Checked accesses -/

section Accesses

def getOrder (b : Ladder) (idx : Nat) : Exec Order := b.orders.get idx

def getLevel (b : Ladder) (isBuy : Bool) (price : Nat) : Exec PriceLevel := (b.levels isBuy).get price

def getSlot (b : Ladder) (id : Nat) : Exec Nat := b.idMap.get id

def modifyOrder (b : Ladder) (idx : Nat) (f : Order → Order) : Exec Ladder := do
  let orders ← b.orders.modify idx f
  return { b with orders }

def setLevel (b : Ladder) (isBuy : Bool) (price : Nat) (level : PriceLevel) : Exec Ladder := do
  let side ← (b.levels isBuy).set price level
  return { b with levels := Function.update b.levels isBuy side }

def setSlot (b : Ladder) (id idx : Nat) : Exec Ladder := do
  let idMap ← b.idMap.set id idx
  return { b with idMap }

variable {b b' : Ladder} {idx id price : Nat} {isBuy : Bool} {f : Order → Order} {l : PriceLevel}

theorem getOrder_of_lt (h : idx < b.orders.size) : b.getOrder idx = .ok (b.order idx) := if_pos h

theorem getLevel_of_lt (h : price < MAX_PRICES) : b.getLevel isBuy price = .ok (b.level isBuy price) := if_pos h

theorem getSlot_of_lt (h : id < b.idMap.size) : b.getSlot id = .ok (b.slot id) := if_pos h

theorem modifyOrder_of_lt (h : idx < b.orders.size) :
    b.modifyOrder idx f = .ok (b.withOrder idx (f (b.order idx))) := by
  simp only [modifyOrder, Vec.modify_of_lt h, ok_bind, pure_eq_ok, withOrder, order]

theorem setLevel_of_lt (h : price < MAX_PRICES) : b.setLevel isBuy price l = .ok (b.withLevel isBuy price l) := by
  simp only [setLevel, Table.set_of_lt h, ok_bind, pure_eq_ok, withLevel]

theorem setSlot_of_lt (h : id < b.idMap.size) : b.setSlot id idx = .ok (b.withSlot id idx) := by
  simp only [setSlot, Vec.set_of_lt h, ok_bind, pure_eq_ok, withSlot]

theorem getOrder_eq_ok {o : Order} : b.getOrder idx = .ok o ↔ idx < b.orders.size ∧ b.order idx = o := by
  by_cases h : idx < b.orders.size
  · simp [getOrder_of_lt h, h]
  · simp [getOrder, Vec.get, h]

theorem getLevel_eq_ok : b.getLevel isBuy price = .ok l ↔ price < MAX_PRICES ∧ b.level isBuy price = l := by
  by_cases h : price < MAX_PRICES
  · simp [getLevel_of_lt h, h]
  · simp [getLevel, Table.get, h]

theorem getSlot_eq_ok : b.getSlot id = .ok idx ↔ id < b.idMap.size ∧ b.slot id = idx := by
  by_cases h : id < b.idMap.size
  · simp [getSlot_of_lt h, h]
  · simp [getSlot, Vec.get, h]

theorem modifyOrder_eq_ok :
    b.modifyOrder idx f = .ok b' ↔ idx < b.orders.size ∧ b.withOrder idx (f (b.order idx)) = b' := by
  by_cases h : idx < b.orders.size
  · simp [modifyOrder_of_lt h, h]
  · simp [modifyOrder, Vec.modify, h]

theorem setLevel_eq_ok :
    b.setLevel isBuy price l = .ok b' ↔ price < MAX_PRICES ∧ b.withLevel isBuy price l = b' := by
  by_cases h : price < MAX_PRICES
  · simp [setLevel_of_lt h, h]
  · simp [setLevel, Table.set, h]

theorem setSlot_eq_ok : b.setSlot id idx = .ok b' ↔ id < b.idMap.size ∧ b.withSlot id idx = b' := by
  by_cases h : id < b.idMap.size
  · simp [setSlot_of_lt h, h]
  · simp [setSlot, Vec.set, h]

end Accesses

/-! ### Shared blocks -/

/-- Puts a slot at the front of the free list. -/
def release (b : Ladder) (idx : Nat) : Exec Ladder := do
  let freed ← b.modifyOrder idx fun o => { o with next := b.nextFreeOrderIdx }
  return freed.withFree idx

/-- Updates a neighbour, if there is one. -/
def patch (b : Ladder) (idx : Nat) (f : Order → Order) : Exec Ladder :=
  if idx ≠ NULL_IDX then b.modifyOrder idx f else return b

/-- Takes an order out of the queue of a level: `cancel_order` and both branches of `replace_order`. -/
def unlink (b : Ladder) (isBuy : Bool) (price orderIdx : Nat) : Exec Ladder := do
  let order ← b.getOrder orderIdx
  let level ← b.getLevel isBuy price
  let b ← b.setLevel isBuy price
    ⟨if level.head = orderIdx then order.next else level.head,
      if level.tail = orderIdx then order.prev else level.tail⟩
  let b ← b.patch order.prev fun o => { o with next := order.next }
  b.patch order.next fun o => { o with prev := order.prev }

/-- Makes an order the last of a level that is not empty: `add_order`, which has the two writes to the pool the other
way round, and both branches of `replace_order`. -/
def linkTail (b : Ladder) (isBuy : Bool) (price idx : Nat) : Exec Ladder := do
  let level ← b.getLevel isBuy price
  let b ← b.modifyOrder idx fun o => { o with prev := level.tail }
  let b ← b.modifyOrder level.tail fun o => { o with next := idx }
  b.setLevel isBuy price { level with tail := idx }

/-- Makes an order the last of a level that may be empty: the branch of `replace_order` for a new price. -/
def relink (b : Ladder) (isBuy : Bool) (newPrice orderIdx : Nat) : Exec Ladder := do
  let newLevel ← b.getLevel isBuy newPrice
  if newLevel.head = NULL_IDX then do
    let b ← b.setLevel isBuy newPrice ⟨orderIdx, orderIdx⟩
    b.modifyOrder orderIdx fun o => { o with prev := NULL_IDX }
  else b.linkTail isBuy newPrice orderIdx

/-- Takes the first free slot for a new order: the beginning of `add_order`. -/
def takeSlot (b : Ladder) (id price qty : Nat) (isBuy : Bool) : Exec Ladder := do
  let idx := b.nextFreeOrderIdx
  let free ← b.getOrder idx
  let b ← (b.withFree free.next).modifyOrder idx fun _ => ⟨id, price, qty, isBuy, NULL_IDX, NULL_IDX⟩
  b.setSlot id idx

/-- One round of the inner loop of `match`, at a level of the side `isBuy`. -/
def fillRound (isBuy : Bool) (price : Nat) : Ladder × Nat → Exec (Flow (Ladder × Nat) (Ladder × Nat))
  | (b, incomingQty) => do
    let level ← b.getLevel isBuy price
    if level.head ≠ NULL_IDX ∧ 0 < incomingQty then do
      let restingIdx := level.head
      let resting ← b.getOrder restingIdx
      let tradeQty := min incomingQty resting.qty
      let b ← b.modifyOrder restingIdx fun o => { o with qty := o.qty - tradeQty }
      if resting.qty - tradeQty = 0 then do
        let b ← b.setSlot resting.id NULL_IDX
        let b ← b.setLevel isBuy price
          ⟨resting.next, if resting.next = NULL_IDX then NULL_IDX else level.tail⟩
        let b ← b.release restingIdx
        return .again (b, incomingQty - tradeQty)
      else return .done (b, incomingQty - tradeQty)
    else return .done (b, incomingQty)

/-- The inner loop of `match`. -/
def fillLevel (fuel : Nat) (isBuy : Bool) (price : Nat) (b : Ladder) (incomingQty : Nat) : Exec (Ladder × Nat) :=
  loop (fillRound isBuy price) fuel (b, incomingQty)

theorem fillLevel_cutOff {fuel fuel' : Nat} (hle : fuel ≤ fuel') (isBuy : Bool) (price : Nat) (b : Ladder)
    (qty : Nat) : CutOff (b.fillLevel fuel isBuy price qty) (b.fillLevel fuel' isBuy price qty) :=
  loop_cutOff (fun _ => CutOff.refl _) hle _

/-- `get_quantity`. -/
def getQuantity (b : Ladder) (id : Nat) : Exec Nat :=
  if b.idMap.size ≤ id then return 0
  else do
    let idx ← b.getSlot id
    if idx = NULL_IDX then return 0
    else do
      let order ← b.getOrder idx
      return order.qty

/-- The pool that `init` chains to one free list; `orders[max_orders - 1]` lies outside an empty pool. -/
def chain (orders : Vec Order) : Exec (Vec Order) :=
  if 0 < orders.size then
    (Vec.mk orders.size fun i => { orders.cell i with next := u32 (i + 1) }).modify (orders.size - 1)
      fun o => { o with next := NULL_IDX }
  else .error .outOfRange

/-- `init`, without the index: a vector that grows gets zeros, and the old entries of the map stay. -/
def init (b : Ladder) (maxOrders : Nat) : Exec Ladder := do
  let orders ← chain (b.orders.resize maxOrders ⟨0, 0, 0, false, 0, 0⟩)
  return {
    orders
    levels := fun _ => ⟨fun _ => ⟨NULL_IDX, NULL_IDX⟩⟩
    idMap := b.idMap.resize maxOrders 0
    nextFreeOrderIdx := 0 }

/-- A newly constructed book: empty vectors, and arrays whose contents `init` overwrites. -/
def new : Ladder :=
  ⟨⟨0, fun _ => ⟨0, 0, 0, false, 0, 0⟩⟩, fun _ => ⟨fun _ => ⟨0, 0⟩⟩, ⟨0, fun _ => 0⟩, 0⟩

end Ladder

end Lobook
