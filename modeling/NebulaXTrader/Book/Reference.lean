import NebulaXTrader.Book.OrderBook
import NebulaXTrader.Lib.Run
import Mathlib.Data.List.Dedup

/-!
This module contains the reference book, the statement of what an order book is for: it is the list of
the live orders, and every answer is computed from that list.
-/

namespace NebulaXTrader

structure RefOrder where
  orderRef : Nat
  side : OrderSide
  price : Int
  remaining : Nat
  deriving DecidableEq, Repr

def OrderSlotView.toRef (v : OrderSlotView) : RefOrder where
  orderRef := v.orderRef
  side := v.side
  price := v.price
  remaining := v.remaining

abbrev RefBook := List RefOrder

namespace RefBook

def find (rb : RefBook) (orderRef : Nat) : Option RefOrder :=
  List.find? (fun o => o.orderRef = orderRef) rb

def add (rb : RefBook) (orderRef : Nat) (side : OrderSide) (price : Int) (shares : Nat) : RefBook :=
  { orderRef := orderRef, side := side, price := price, remaining := shares } :: rb

def remove (rb : RefBook) (orderRef : Nat) : RefBook :=
  rb.filter (fun o => o.orderRef ≠ orderRef)

def reduce (rb : RefBook) (orderRef shares : Nat) : RefBook :=
  match rb.find orderRef with
  | none => rb
  | some o =>
    let left := o.remaining - min shares o.remaining
    if left = 0 then
      rb.remove orderRef
    else
      { o with remaining := left } :: rb.remove orderRef

def replace (rb : RefBook) (oldRef newRef : Nat) (side : OrderSide) (price : Int) (shares : Nat)
    : RefBook :=
  match rb.find oldRef with
  | none => rb
  | some _ => (rb.remove oldRef).add newRef side price shares

/--
The live orders of one half of the book at a price. A book has two halves: what is not a `BUY` rests
with the `SELL` orders.
-/
def restingAt (rb : RefBook) (buy : Bool) (price : Int) : List RefOrder :=
  rb.filter (fun o => o.side.isBuy = buy ∧ o.price = price)

def countAt (rb : RefBook) (buy : Bool) (price : Int) : Nat := (rb.restingAt buy price).length

def volumeAt (rb : RefBook) (buy : Bool) (price : Int) : Nat :=
  ((rb.restingAt buy price).map RefOrder.remaining).sum

def prices (rb : RefBook) (buy : Bool) : List Int :=
  ((rb.filter (fun o => o.side.isBuy = buy)).map RefOrder.price).dedup

def levels (rb : RefBook) (buy : Bool) : Nat := (rb.prices buy).length

def best? (rb : RefBook) (buy : Bool) : Option Int :=
  if buy then (rb.prices buy).max? else (rb.prices buy).min?

def best (rb : RefBook) (buy : Bool) : Int := (rb.best? buy).getD (-1)

def bestVolume (rb : RefBook) (buy : Bool) : Nat :=
  match rb.best? buy with
  | some price => rb.volumeAt buy price
  | none => 0

def sideOf (rb : RefBook) (orderRef : Nat) : OrderSide :=
  match rb.find orderRef with
  | some o => o.side
  | none => .NONE

end RefBook

inductive OrderBook.Call where
  | add (orderRef : Nat) (side : OrderSide) (price : Int) (shares sequence : Nat)
  | remove (orderRef : Nat)
  | cancel (orderRef cancelledShares : Nat)
  | execute (orderRef executedShares : Nat)
  | replace (oldRef newRef : Nat) (side : OrderSide) (newPrice : Int) (newShares newSequence : Nat)

namespace OrderBook

def call (bk : OrderBook) (c : Call) : OrderBook :=
  match c with
  | .add orderRef side price shares sequence => (bk.add orderRef side price shares sequence).1
  | .remove orderRef => (bk.remove orderRef).1
  | .cancel orderRef shares => (bk.cancel orderRef shares).1
  | .execute orderRef shares => (bk.execute orderRef shares).1
  | .replace oldRef newRef side price shares sequence =>
    (bk.replace oldRef newRef side price shares sequence).1

end OrderBook

def RefBook.call (rb : RefBook) (c : OrderBook.Call) : RefBook :=
  match c with
  | .add orderRef side price shares _ => rb.add orderRef side price shares
  | .remove orderRef => rb.remove orderRef
  | .cancel orderRef shares => rb.reduce orderRef shares
  | .execute orderRef shares => rb.reduce orderRef shares
  | .replace oldRef newRef side price shares _ => rb.replace oldRef newRef side price shares

end NebulaXTrader
