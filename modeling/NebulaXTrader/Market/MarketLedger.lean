import NebulaXTrader.Book.Ledger
import NebulaXTrader.Book.Reference
import NebulaXTrader.Market.OrderBookConsumer

/-!
This module contains the effect of market events on the ledger and on the reference book, and the ledger
of one locate, which depends on the events of that locate only.
-/

namespace NebulaXTrader

def OrderSlotView.unsequenced (v : OrderSlotView) : OrderSlotView := { v with sequence := 0 }

def MarketEvent.Body.refs (b : MarketEvent.Body) : List Nat :=
  match b with
  | .ADD o => [o.orderRef]
  | .DELETE o => [o.orderRef]
  | .CANCEL o => [o.orderRef]
  | .REPLACE o => [o.orderRef, o.newOrderRef]
  | .TRADE t => [t.orderRef]
  | .EXECUTE t => [t.orderRef]

namespace RefBook

def onEvent (rb : RefBook) (b : MarketEvent.Body) : RefBook :=
  match b with
  | .ADD o => rb.add o.orderRef o.side o.price o.shares
  | .DELETE o => rb.remove o.orderRef
  | .CANCEL o => rb.reduce o.orderRef o.shares
  | .REPLACE o =>
    match rb.find o.orderRef with
    | none => rb
    | some old => rb.replace o.orderRef o.newOrderRef old.side o.price o.shares
  | .TRADE t => rb.reduce t.orderRef t.volume
  | .EXECUTE t => rb.reduce t.orderRef t.volume

def Fresh (rb : RefBook) (b : MarketEvent.Body) : Prop :=
  match b with
  | .ADD o => rb.find o.orderRef = none
  | .REPLACE o => rb.find o.orderRef ≠ none → (rb.remove o.orderRef).find o.newOrderRef = none
  | .DELETE _ | .CANCEL _ | .TRADE _ | .EXECUTE _ => True

instance (rb : RefBook) (b : MarketEvent.Body) : Decidable (rb.Fresh b) :=
  match b with
  | .ADD o => inferInstanceAs (Decidable (rb.find o.orderRef = none))
  | .REPLACE _ => inferInstanceAs (Decidable (_ → _))
  | .DELETE _ | .CANCEL _ | .TRADE _ | .EXECUTE _ => isTrue trivial

end RefBook

namespace Ledger

def empty : Ledger where
  orders _ := none
  sides := Sides.init

def onEvent (lg : Ledger) (seq : Nat) (b : MarketEvent.Body) : Ledger :=
  match b with
  | .ADD o => lg.add o.orderRef o.side o.price o.shares seq
  | .DELETE o => lg.remove o.orderRef
  | .CANCEL o => lg.reduce o.orderRef o.shares
  | .REPLACE o =>
    match lg.orders o.orderRef with
    | none => lg
    | some old => lg.replace o.orderRef o.newOrderRef old.side o.price o.shares seq
  | .TRADE t => lg.reduce t.orderRef t.volume
  | .EXECUTE t => lg.reduce t.orderRef t.volume

def Fresh (lg : Ledger) (b : MarketEvent.Body) : Prop :=
  match b with
  | .ADD o => lg.orders o.orderRef = none
  | .REPLACE o =>
    lg.orders o.orderRef ≠ none → o.newOrderRef = o.orderRef ∨ lg.orders o.newOrderRef = none
  | .DELETE _ | .CANCEL _ | .TRADE _ | .EXECUTE _ => True

def ofEvents (lg : Option Ledger) (evs : List MarketEvent) (locate : Nat) : Option Ledger :=
  (evs.filter (fun ev => ev.locate = locate)).foldl
    (fun lg ev => some ((lg.getD empty).onEvent 0 ev.body)) lg

def unsequenced (lg : Ledger) : Ledger :=
  { lg with orders := fun ref => (lg.orders ref).map OrderSlotView.unsequenced }

end Ledger

end NebulaXTrader
