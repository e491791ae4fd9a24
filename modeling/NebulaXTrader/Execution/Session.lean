import NebulaXTrader.Execution.ExecutionEngine
import NebulaXTrader.Lib.Run

/-!
This module contains the trader and the exchange as two parties with a FIFO channel in each direction. The
exchange accepts every order, executes it in arbitrary parts until it is complete or a cancel request
arrives, and answers the request.
-/

namespace NebulaXTrader

structure VenueOrder where
  order : Order
  executed : Nat
  closed : Bool
  deriving DecidableEq, Repr

/--
`missed` is no state of either party: it records the quantity of the executions that were delivered while
their order was `PENDING_CANCEL`.
-/
structure Session where
  trader : ExecutionEngine
  toVenue : List OrderMsg
  venue : Nat → Option VenueOrder
  toTrader : List Fill
  missed : Nat → Nat

namespace Session

def start (config : RiskManager.Config) (baseQty : Nat) : Session where
  trader := {
    rm := RiskManager.init config
    hasSender := true
    hasCodec := true
    baseQty := baseQty
  }
  toVenue := []
  venue _ := none
  toTrader := []
  missed _ := 0

inductive Action where
  | submit (env : Env) (sig : Signal) (strategyId : Nat) (type : OrderType)
  | cancel (env : Env) (orderId : Nat)
  | mark (symbolId : Nat) (price : Int)
  | receive (ref : Nat)
  | execute (orderId qty : Nat) (price : Int)
  | deliver (env : Env)

def submit (s : Session) (env : Env) (sig : Signal) (strategyId : Nat) (type : OrderType) : Session :=
  let (ex, _, msgs) := s.trader.submitSignal env sig strategyId type
  { s with trader := ex, toVenue := s.toVenue ++ msgs }

def cancel (s : Session) (env : Env) (orderId : Nat) : Session :=
  let (ex, _, msgs) := s.trader.cancelOrder env orderId
  { s with trader := ex, toVenue := s.toVenue ++ msgs }

def mark (s : Session) (symbolId : Nat) (price : Int) : Session :=
  { s with trader := { s.trader with rm := s.trader.rm.mark symbolId price } }

def receive (s : Session) (ref : Nat) : Option Session :=
  match s.toVenue with
  | [] => none
  | .O o :: msgs =>
    some { s with
      toVenue := msgs
      venue := Function.update s.venue o.orderId
        (some { order := o, executed := 0, closed := false })
      toTrader := s.toTrader ++ [{ type := .A, orderId := o.orderId, exchangeRef := ref }] }
  | .X id :: msgs =>
    some { s with
      toVenue := msgs
      venue := Function.update s.venue id ((s.venue id).map (fun v => { v with closed := true }))
      toTrader := s.toTrader ++ [{ type := .C, orderId := id }] }

def execute (s : Session) (orderId qty : Nat) (price : Int) : Option Session :=
  match s.venue orderId with
  | none => none
  | some v =>
    if v.closed = false ∧ 0 < qty ∧ v.executed + qty ≤ v.order.quantity then
      some { s with
        venue := Function.update s.venue orderId (some { v with executed := v.executed + qty })
        toTrader := s.toTrader ++
          [{ type := .E, orderId := orderId, filledQty := qty, fillPrice := price }] }
    else
      none

def deliver (s : Session) (env : Env) : Option Session :=
  match s.toTrader with
  | [] => none
  | f :: reports =>
    let (ex, msgs) := s.trader.onOrderReport env f
    let ignored := f.type = .E ∧
      (s.trader.om.orders f.orderId).any (fun e => e.status = .PENDING_CANCEL)
    some { s with
      trader := ex
      toVenue := s.toVenue ++ msgs
      toTrader := reports
      missed :=
        if ignored then
          Function.update s.missed f.orderId (s.missed f.orderId + f.filledQty)
        else
          s.missed }

def step (s : Session) (a : Action) : Option Session :=
  match a with
  | .submit env sig strategyId type => some (s.submit env sig strategyId type)
  | .cancel env orderId => some (s.cancel env orderId)
  | .mark symbolId price => some (s.mark symbolId price)
  | .receive ref => s.receive ref
  | .execute orderId qty price => s.execute orderId qty price
  | .deliver env => s.deliver env

end Session

end NebulaXTrader
