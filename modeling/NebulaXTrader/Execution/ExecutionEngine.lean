import NebulaXTrader.Execution.RiskManager
import NebulaXTrader.Strategy.Signal

/-!
This module contains the model of `ExecutionEngine`, which turns signals into orders and feeds the
reports of the exchange to the order manager and the risk manager.
-/

namespace NebulaXTrader

inductive FillType where
  | A
  | E
  | C
  | J
  | F
  deriving DecidableEq, Repr

structure Fill where
  type : FillType := .F
  orderId : Nat := 0
  exchangeRef : Nat := 0
  filledQty : Nat := 0
  fillPrice : Int := 0
  deriving DecidableEq, Repr

inductive OrderMsg where
  | O (order : Order)
  | X (orderId : Nat)
  deriving DecidableEq, Repr

inductive Wire where
  | encodeFails
  | sendFails
  | sent
  deriving DecidableEq, Repr

/--
What one call of the engine meets: the fate of the message for each order and the order in which the map
of the orders is visited.
-/
structure Env where
  wire : Nat → Wire := fun _ => .sent
  visit : List Nat → List Nat := id
  visit_perm : ∀ ids, (visit ids).Perm ids := by exact fun _ => .rfl

structure ExecutionEngine where
  om : OrderManager := {}
  rm : RiskManager
  hasSender : Bool := false
  hasCodec : Bool := false
  baseQty : Nat := 100
  flattenIssued : Bool := false

namespace ExecutionEngine

/--
The order for a signal, or none when the engine ignores the signal. The id is not known yet.
-/
def orderFor (ex : ExecutionEngine) (sig : Signal) (strategyId : Nat) (type : OrderType)
    : Option Order :=
  if sig.side = .NONE ∨ sig.price < 0 then
    none
  else if type = .LIMIT ∧ sig.price ≤ 0 then
    none
  else
    let qty := sig.quantity ex.baseQty
    if qty = 0 then
      none
    else
      some {
        orderId := 0
        strategyId := strategyId
        symbolId := sig.locate
        side := sig.side
        type := type
        price := sig.price
        quantity := qty
        timestamp := sig.timestamp
      }

def submitSignal (ex : ExecutionEngine) (env : Env) (sig : Signal) (strategyId : Nat)
    (type : OrderType) : ExecutionEngine × Nat × List OrderMsg :=
  match ex.orderFor sig strategyId type with
  | none => (ex, 0, [])
  | some order =>
    let (om, order) := ex.om.newOrder order
    let id := order.orderId
    if ¬ ex.rm.checkOrder order then
      ({ ex with om := om.onReject id }, id, [])
    else if ex.hasSender then
      if ¬ ex.hasCodec then
        ({ ex with om := om.onReject id }, id, [])
      else
        match env.wire id with
        | .encodeFails => ({ ex with om := om.onReject id }, id, [])
        | .sendFails => ({ ex with om := om.onReject id }, id, [])
        | .sent => ({ ex with om := om }, id, [.O order])
    else
      -- without a sender the order is filled at once
      let om := (om.onAccept id 0).onFill id order.quantity order.price
      ({ ex with om := om, rm := ex.rm.onFill order order.quantity }, id, [])

def flattenOrder (ex : ExecutionEngine) (env : Env) (s : OrderManager × List OrderMsg) (id : Nat)
    : OrderManager × List OrderMsg :=
  match s.1.orders id with
  | none => s
  | some e =>
    if e.isActive then
      if ex.hasSender ∧ ex.hasCodec then
        match env.wire id with
        | .encodeFails => s
        | .sendFails => s
        | .sent => ((s.1.requestCancel id).1, s.2 ++ [.X id])
      else
        ((s.1.requestCancel id).1, s.2)
    else
      s

def flattenOnDrawdown (ex : ExecutionEngine) (env : Env) : ExecutionEngine × List OrderMsg :=
  if ex.flattenIssued then
    (ex, [])
  else if ¬ ex.rm.drawdownFlatten then
    (ex, [])
  else
    let (om, msgs) := (env.visit ex.om.ids).foldl (ex.flattenOrder env) (ex.om, [])
    ({ ex with om := om, flattenIssued := true }, msgs)

def onOrderFill (ex : ExecutionEngine) (env : Env) (orderId filledQty : Nat) (fillPrice : Int)
    : ExecutionEngine × List OrderMsg :=
  match ex.om.orders orderId with
  | none => (ex, [])
  | some e =>
    let ex := { ex with
      om := ex.om.onFill orderId filledQty fillPrice
      rm := ex.rm.onFill e.order filledQty }
    ex.flattenOnDrawdown env

def onOrderReport (ex : ExecutionEngine) (env : Env) (f : Fill) : ExecutionEngine × List OrderMsg :=
  match ex.om.orders f.orderId with
  | none => (ex, [])
  | some e =>
    match f.type with
    | .A => ({ ex with om := ex.om.onAccept f.orderId f.exchangeRef }, [])
    | .E =>
      let ex := { ex with
        om := ex.om.onFill f.orderId f.filledQty f.fillPrice
        rm := ex.rm.onFill e.order f.filledQty }
      ex.flattenOnDrawdown env
    | .C => ({ ex with om := ex.om.onCancel f.orderId }, [])
    | .J => ({ ex with om := ex.om.onReject f.orderId }, [])
    | .F => (ex, [])

def cancelOrder (ex : ExecutionEngine) (env : Env) (orderId : Nat)
    : ExecutionEngine × Bool × List OrderMsg :=
  if ¬ (ex.hasSender ∧ ex.hasCodec) then
    (ex, false, [])
  else
    match ex.om.requestCancel orderId with
    | (_, false) => (ex, false, [])
    | (om, true) =>
      match env.wire orderId with
      | .encodeFails => ({ ex with om := om }, false, [])
      | .sendFails => ({ ex with om := om }, false, [])
      | .sent => ({ ex with om := om }, true, [.X orderId])

end ExecutionEngine

end NebulaXTrader
