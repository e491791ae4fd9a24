import Mathlib.Logic.Function.Basic
import NebulaXTrader.Strategy.Signal

/-!
This module contains the models of the two tick strategies, the order flow imbalance over a window of
events and the order book imbalance of the last book.
-/

namespace NebulaXTrader

structure OrderFlowImbalanceStrategy where
  threshold : Int := 500
  ofi : Int := 0
  win : Nat → Int := fun _ => 0
  widx : Nat := 0
  current : OrderSide := .NONE
  locate : Nat := 0
  lastPrice : Int := 0
  lastTs : Nat := 0
  strength : Int := 0

namespace OrderFlowImbalanceStrategy

def kSaturate : Int := 2

def kWindow : Nat := 1024

/--
The contribution of an event to the order flow: new orders count for their side, orders that leave
count against it.
-/
def delta (b : MarketEvent.Body) (side : OrderSide) : Int :=
  match b with
  | .ADD o | .REPLACE o => if side = .BUY then o.shares else -o.shares
  | .DELETE o | .CANCEL o => if side = .BUY then -o.shares else o.shares
  | .TRADE t | .EXECUTE t => if side = .BUY then -t.volume else t.volume

def onEvent (s : OrderFlowImbalanceStrategy) (ev : MarketEvent) (side : OrderSide)
    : OrderFlowImbalanceStrategy :=
  let d := delta ev.body side
  let ofi := if s.widx < kWindow then s.ofi else s.ofi - s.win (s.widx % kWindow)
  let ofi := ofi + d
  let current :=
    if ofi > s.threshold then OrderSide.BUY else if ofi < -s.threshold then .SELL else .NONE
  let strength :=
    if current = .NONE then
      0
    else
      let mag := if ofi > 0 then ofi else -ofi
      let over' := mag - s.threshold
      let span := s.threshold * (kSaturate - 1)
      if over' ≥ span then
        Signal.kStrengthScale
      else
        (over' * Signal.kStrengthScale).tdiv span
  { s with
    locate := ev.locate
    lastTs := ev.timestamp
    win := Function.update s.win (s.widx % kWindow) d
    ofi := ofi
    widx := s.widx + 1
    current := current
    strength := strength }

def onMarket (s : OrderFlowImbalanceStrategy) (ev : MarketEvent) (ctx : BookContext)
    : OrderFlowImbalanceStrategy :=
  -- an event without a known side does not enter the window
  let s := if ctx.side ≠ .NONE then s.onEvent ev ctx.side else s
  if ctx.bid ≥ 0 ∧ ctx.ask ≥ 0 then { s with lastPrice := ctx.mid } else s

def signal (s : OrderFlowImbalanceStrategy) : Signal where
  side := s.current
  locate := s.locate
  price := s.lastPrice
  timestamp := s.lastTs
  strength := s.strength

end OrderFlowImbalanceStrategy

/--
The threshold is `(int64_t)(threshold_ * kStrengthScale)`.
-/
structure OrderBookImbalanceStrategy where
  th : Int := 3000
  current : OrderSide := .NONE
  locate : Nat := 0
  bidPrice : Int := 0
  askPrice : Int := 0
  timestamp : Nat := 0
  strength : Int := 0

namespace OrderBookImbalanceStrategy

def onBook (s : OrderBookImbalanceStrategy) (locate : Nat) (bidPrice : Int) (bidVol : Nat)
    (askPrice : Int) (askVol timestamp : Nat) : OrderBookImbalanceStrategy :=
  let s := { s with
    locate := locate
    bidPrice := bidPrice
    askPrice := askPrice
    timestamp := timestamp }
  let sum := bidVol + askVol
  if sum = 0 then
    { s with current := .NONE, strength := 0 }
  else
    let obi := (((bidVol : Int) - askVol) * Signal.kStrengthScale).tdiv sum
    let mag := if obi > 0 then obi else -obi
    { s with
      current := if obi > s.th then .BUY else if obi < -s.th then .SELL else .NONE
      strength :=
        if mag ≥ s.th then
          Signal.kStrengthScale
        else
          (mag * Signal.kStrengthScale).tdiv (s.th + 1) }

def onMarket (s : OrderBookImbalanceStrategy) (ev : MarketEvent) (ctx : BookContext)
    : OrderBookImbalanceStrategy :=
  if ctx.hasBook then
    s.onBook ev.locate ctx.bid ctx.bidVol ctx.ask ctx.askVol ev.timestamp
  else
    s

def signal (s : OrderBookImbalanceStrategy) : Signal where
  side := s.current
  locate := s.locate
  price := if s.current = .BUY then s.bidPrice else s.askPrice
  timestamp := s.timestamp
  strength := s.strength

end OrderBookImbalanceStrategy

end NebulaXTrader
