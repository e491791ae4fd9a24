import Mathlib.Data.Finset.Insert
import Mathlib.Data.Finset.Erase
import Mathlib.Data.Finset.Range
import NebulaXTrader.Core.Types

/-!
This module contains the model of `OrderManager`, which keeps the life cycle of every order. Reports
drive it: 'A' accepts, 'E' executes, 'C' cancels and 'J' rejects an order.
-/

namespace NebulaXTrader

inductive OrderStatus where
  | PENDING
  | SUBMITTED
  | PARTIAL_FILL
  | PENDING_CANCEL
  | FILLED
  | CANCELLED
  | REJECTED
  | NOT_FOUND
  deriving DecidableEq, Repr

def toInt64 (n : Nat) : Int := if n < 2 ^ 63 then n else n - 2 ^ 64

structure OrderManager.Entry where
  order : Order
  status : OrderStatus
  exchangeRef : Nat := 0
  filled : Nat := 0
  remaining : Nat := 0
  avgFillPrice : Int := 0
  submitTime : Nat := 0
  updateTime : Nat := 0
  deriving DecidableEq, Repr

/--
The order book of the trader itself, with the indexes of the open orders. `counter` is the static
counter that `now` returns.
-/
structure OrderManager where
  orders : Nat → Option OrderManager.Entry := fun _ => none
  symOrders : Nat → Finset Nat := fun _ => ∅
  stratOrders : Nat → Finset Nat := fun _ => ∅
  nextId : Nat := 1
  counter : Nat := 0

namespace OrderManager

def Entry.isActive (e : Entry) : Bool := e.status = .SUBMITTED ∨ e.status = .PARTIAL_FILL

def store (om : OrderManager) (id : Nat) (e : Entry) : OrderManager :=
  { om with
    orders := Function.update om.orders id (some { e with updateTime := om.counter + 1 })
    counter := om.counter + 1 }

def retire (om : OrderManager) (id : Nat) (e : Entry) : OrderManager :=
  let om := om.store id e
  { om with
    symOrders := Function.update om.symOrders e.order.symbolId
      ((om.symOrders e.order.symbolId).erase id)
    stratOrders := Function.update om.stratOrders e.order.strategyId
      ((om.stratOrders e.order.strategyId).erase id) }

def newOrder (om : OrderManager) (order : Order) : OrderManager × Order :=
  let order := { order with orderId := om.nextId }
  let e : Entry := {
    order := order
    status := .PENDING
    remaining := order.quantity
    submitTime := order.timestamp
    updateTime := order.timestamp
  }
  ({ om with
    orders := Function.update om.orders order.orderId (some e)
    symOrders := Function.update om.symOrders order.symbolId
      (insert order.orderId (om.symOrders order.symbolId))
    stratOrders := Function.update om.stratOrders order.strategyId
      (insert order.orderId (om.stratOrders order.strategyId))
    nextId := om.nextId + 1 }, order)

def onAccept (om : OrderManager) (id ref : Nat) : OrderManager :=
  match om.orders id with
  | none => om
  | some e =>
    if e.status = .PENDING then
      om.store id { e with status := .SUBMITTED, exchangeRef := ref }
    else
      om

def Entry.fill (e : Entry) (filledQty : Nat) (fillPrice : Int) : Entry :=
  let newFilled := (e.filled + filledQty) % 2 ^ 64
  let clamped := newFilled > e.order.quantity
  let qty := if clamped then e.order.quantity - e.filled else filledQty
  let newFilled := if clamped then e.order.quantity else newFilled
  let totalCost := e.avgFillPrice * toInt64 e.filled + fillPrice * toInt64 qty
  { e with
    filled := newFilled
    remaining := e.order.quantity - newFilled
    avgFillPrice := if newFilled = 0 then 0 else totalCost.tdiv (toInt64 newFilled)
    status := if newFilled ≥ e.order.quantity then .FILLED else .PARTIAL_FILL }

def onFill (om : OrderManager) (id filledQty : Nat) (fillPrice : Int) : OrderManager :=
  match om.orders id with
  | none => om
  | some e =>
    if e.isActive then
      let e := e.fill filledQty fillPrice
      if e.status = .FILLED then om.retire id e else om.store id e
    else
      om

def requestCancel (om : OrderManager) (id : Nat) : OrderManager × Bool :=
  match om.orders id with
  | none => (om, false)
  | some e =>
    if e.isActive then (om.store id { e with status := .PENDING_CANCEL }, true) else (om, false)

def onCancel (om : OrderManager) (id : Nat) : OrderManager :=
  match om.orders id with
  | none => om
  | some e =>
    if e.status = .PENDING_CANCEL then om.retire id { e with status := .CANCELLED } else om

def onReject (om : OrderManager) (id : Nat) : OrderManager :=
  match om.orders id with
  | none => om
  | some e => if e.status = .PENDING then om.retire id { e with status := .REJECTED } else om

def status (om : OrderManager) (id : Nat) : OrderStatus :=
  match om.orders id with
  | none => .NOT_FOUND
  | some e => e.status

/--
The list holds each id of the set once, in an order that the hash table leaves open.
-/
def openOrders (om : OrderManager) (symbolId : Nat) : Multiset Nat := (om.symOrders symbolId).val

def openOrdersByStrategy (om : OrderManager) (strategyId : Nat) : Multiset Nat :=
  (om.stratOrders strategyId).val

def ids (om : OrderManager) : List Nat := (List.range om.nextId).filter (fun id => (om.orders id).isSome)

end OrderManager

end NebulaXTrader
