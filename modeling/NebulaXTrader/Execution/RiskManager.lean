import NebulaXTrader.Lib.SparseArray
import NebulaXTrader.Execution.OrderManager

/-!
This module contains the model of `RiskManager`: the checks before an order, the positions and the
profit after a fill, and the drawdown of the equity at the marked prices.

Quantities have 64 bits, sums and products of money are not cut to the width of `int64_t`.
-/

namespace NebulaXTrader

structure RiskManager.Config where
  maxPosition : Nat := 100000
  maxDailyLoss : Int := 100000000
  initialEquity : Int := 0
  maxDrawdownPause : Int := 0
  maxDrawdownFlatten : Int := 0

structure RiskManager.Cell where
  qty : Nat := 0
  avgCost : Int := 0
  markPrice : Int := 0
  deriving DecidableEq, Repr

def RiskManager.kMaxLocate : Nat := 65536

structure RiskManager where
  config : RiskManager.Config
  cells : SparseArray RiskManager.Cell RiskManager.kMaxLocate
  realizedPnl : Int
  equityPeak : Int

namespace RiskManager

def init (config : Config) : RiskManager where
  config := config
  cells := .empty
  realizedPnl := 0
  equityPeak := config.initialEquity

/--
Ids above the range of the arrays are mapped to the first cell.
-/
def locateIdx (symbolId : Nat) : Fin kMaxLocate :=
  if h : symbolId < kMaxLocate then ⟨symbolId, h⟩ else ⟨0, by decide⟩

def cell (rm : RiskManager) (symbolId : Nat) : Cell := rm.cells.get {} (locateIdx symbolId)

def setCell (rm : RiskManager) (symbolId : Nat) (c : Cell) : RiskManager :=
  { rm with cells := rm.cells.set (locateIdx symbolId) c }

def position (rm : RiskManager) (symbolId : Nat) : Nat := (rm.cell symbolId).qty

def Cell.floating (c : Cell) : Int :=
  if toInt64 c.qty > 0 ∧ c.markPrice > 0 then toInt64 c.qty * (c.markPrice - c.avgCost) else 0

-- the cells that were never written hold zeros and contribute nothing to the sum
def equity (rm : RiskManager) : Int :=
  rm.config.initialEquity + rm.realizedPnl + (rm.cells.entries.map (fun e => e.2.floating)).sum

theorem equity_eq_sum (rm : RiskManager)
    : rm.equity = rm.config.initialEquity + rm.realizedPnl +
        ∑ l, (rm.cells.get {} l).floating := by
  have hzero : Cell.floating {} = 0 := rfl
  unfold equity
  rw [rm.cells.sum_entries Cell.floating hzero]

def drawdown (rm : RiskManager) : Int := rm.equityPeak - rm.equity

def drawdownPaused (rm : RiskManager) : Bool := rm.drawdown > rm.config.maxDrawdownPause

def drawdownFlatten (rm : RiskManager) : Bool := rm.drawdown > rm.config.maxDrawdownFlatten

def updateEquity (rm : RiskManager) : RiskManager :=
  if rm.equity > rm.equityPeak then { rm with equityPeak := rm.equity } else rm

def checkOrder (rm : RiskManager) (order : Order) : Bool :=
  if order.quantity = 0 then
    false
  else if rm.realizedPnl ≤ -rm.config.maxDailyLoss then
    false
  else if rm.drawdownPaused then
    false
  else
    let cur := rm.position order.symbolId
    match order.side with
    | .BUY => (cur + order.quantity) % 2 ^ 64 ≤ rm.config.maxPosition
    | .SELL => order.quantity ≤ cur
    | .NONE => false

def onFill (rm : RiskManager) (order : Order) (filledQty : Nat) : RiskManager :=
  let c := rm.cell order.symbolId
  let rm :=
    match order.side with
    | .BUY =>
      let total := c.avgCost * toInt64 c.qty + order.price * toInt64 filledQty
      let newQty := (c.qty + filledQty) % 2 ^ 64
      rm.setCell order.symbolId { c with
        qty := newQty
        avgCost := if newQty = 0 then 0 else total.tdiv (toInt64 newQty) }
    | .SELL =>
      let qty := if filledQty < c.qty then filledQty else c.qty
      let newQty := c.qty - qty
      { rm.setCell order.symbolId { c with
          qty := newQty
          avgCost := if newQty = 0 then 0 else c.avgCost } with
        realizedPnl := rm.realizedPnl + (order.price - c.avgCost) * toInt64 qty }
    | .NONE => rm
  rm.updateEquity

def mark (rm : RiskManager) (symbolId : Nat) (price : Int) : RiskManager :=
  (rm.setCell symbolId { rm.cell symbolId with markPrice := price }).updateEquity

end RiskManager

end NebulaXTrader
