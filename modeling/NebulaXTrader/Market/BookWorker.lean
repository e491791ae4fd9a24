import NebulaXTrader.Market.OrderBookConsumer
import NebulaXTrader.Strategy.Tick

/-!
This module contains the model of `BookWorker<OFI, OBI>`: the worker rebuilds the books of its locates,
feeds every event to its two strategies and votes on their signals.
-/

namespace NebulaXTrader

structure BookWorker.Config where
  weightBp : Nat → Int := fun _ => 10000
  primaryIdx : Nat := 0
  thresholdBp : Int := 0
  maxPosition : Nat
  baseQty : Nat

structure BookWorker where
  obc : OrderBookConsumer
  ofi : OrderFlowImbalanceStrategy
  obi : OrderBookImbalanceStrategy
  slots : List ArbSignal
  lastOrderSide : OrderSide
  lastOrderStr : Int

namespace BookWorker

def kStrengthStep : Int := 500

def init : BookWorker where
  obc := OrderBookConsumer.init
  ofi := {}
  obi := {}
  slots := [{}, {}]
  lastOrderSide := .NONE
  lastOrderStr := -1

def context (book : Option OrderBook) (ev : MarketEvent) : BookContext :=
  let ctx : BookContext := { hasBook := book.isSome, seq := ev.seqId }
  let ctx :=
    match book with
    | some bk =>
      if bk.bestBid ≥ 0 ∧ bk.bestAsk ≥ 0 then
        { ctx with
          bid := bk.bestBid
          bidVol := bk.bestBidVolume
          ask := bk.bestAsk
          askVol := bk.bestAskVolume
          mid := (bk.bestBid + bk.bestAsk).tdiv 2 }
      else
        ctx
    | none => ctx
  match ev.body with
  | .ADD o | .REPLACE o => { ctx with side := o.side }
  | .TRADE t | .EXECUTE t =>
    { ctx with side := book.elim .NONE (fun bk => bk.sideOf t.orderRef) }
  | .DELETE o | .CANCEL o =>
    { ctx with side := book.elim .NONE (fun bk => bk.sideOf o.orderRef) }

def slotOf (sig : Signal) (ev : MarketEvent) : ArbSignal where
  side := sig.side
  locate := sig.locate
  strength := sig.strength
  seq := ev.seqId

def feed (w : BookWorker) (ev : MarketEvent) (ctx : BookContext) : BookWorker :=
  let ofi := w.ofi.onMarket ev ctx
  let obi := w.obi.onMarket ev ctx
  { w with ofi := ofi, obi := obi, slots := [slotOf ofi.signal ev, slotOf obi.signal ev] }

/--
The vote after an event and the order it submits. `position` answers for the risk manager, and
`submit_signal` returns an order id exactly for a signal of positive quantity.
-/
def arbitrate (cfg : Config) (w : BookWorker) (position : Nat → Nat)
    : BookWorker × Option ArbDecision :=
  match arbitrateDecide w.slots cfg.weightBp cfg.primaryIdx cfg.thresholdBp with
  | none => (w, none)
  | some d =>
    let pos := position d.locate
    let blocked := d.dir = .BUY ∧ pos ≥ cfg.maxPosition ∨ d.dir = .SELL ∧ pos = 0
    let freshDir := d.dir ≠ w.lastOrderSide
    let strengthGe := d.strength ≥ w.lastOrderStr + kStrengthStep
    if ¬ blocked ∧ (freshDir ∨ strengthGe) then
      let decision : Signal := { side := d.dir, locate := d.locate, strength := d.strength }
      if decision.quantity cfg.baseQty ≠ 0 then
        ({ w with lastOrderSide := d.dir, lastOrderStr := d.strength }, some d)
      else
        (w, some d)
    else
      (w, none)

def decide (cfg : Config) (w : BookWorker) (ev : MarketEvent) (ctx : BookContext)
    (position : Nat → Nat) : BookWorker × Option ArbDecision :=
  (w.feed ev ctx).arbitrate cfg position

def process (cfg : Config) (w : BookWorker) (st : OrderStore) (ev : MarketEvent)
    (position : Nat → Nat) : BookWorker × OrderStore × BookContext × Option ArbDecision :=
  let (obc, st) := w.obc.onEvent st ev
  let ctx := context (obc.book st ev.locate) ev
  let (w, d) := { w with obc := obc }.decide cfg ev ctx position
  (w, st, ctx, d)

end BookWorker

structure BookWorkers where
  store : OrderStore
  workers : Nat → BookWorker

namespace BookWorkers

def init (pool index : Nat) : BookWorkers where
  store := { pool := OrderPool.init pool, index := OrderMap.init index }
  workers _ := BookWorker.init

structure Input where
  worker : Nat
  event : MarketEvent
  position : Nat → Nat

def process (cfg : BookWorker.Config) (s : BookWorkers) (a : Input) : BookWorkers :=
  let (w, st, _, _) := (s.workers a.worker).process cfg s.store a.event a.position
  { store := st, workers := Function.update s.workers a.worker w }

def context (cfg : BookWorker.Config) (s : BookWorkers) (a : Input) : BookContext :=
  ((s.workers a.worker).process cfg s.store a.event a.position).2.2.1

def decision (cfg : BookWorker.Config) (s : BookWorkers) (a : Input) : Option ArbDecision :=
  ((s.workers a.worker).process cfg s.store a.event a.position).2.2.2

end BookWorkers

end NebulaXTrader
