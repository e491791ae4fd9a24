import NebulaXTrader.Execution.Lemmas.RiskManager
import NebulaXTrader.Lib.Run
import NebulaXTrader.Lib.Tally

/-!
This module contains the theorem about the two drawdown limits: they are documented as latches, and they act
as such in the runs in which the equity does not recover while they are exceeded.
-/

namespace NebulaXTrader

namespace RiskManager

inductive Op where
  | mark (symbolId : Nat) (price : Int)
  | onFill (order : Order) (filledQty : Nat)
  | checkOrder (order : Order)
  deriving DecidableEq, Repr

def apply (rm : RiskManager) (op : Op) : RiskManager :=
  match op with
  | .mark symbolId price => rm.mark symbolId price
  | .onFill order filledQty => rm.onFill order filledQty
  | .checkOrder _ => rm

def Cell.bought (c : Cell) (price : Int) (qty : Nat) : Cell :=
  let total := c.avgCost * toInt64 c.qty + price * toInt64 qty
  let newQty := (c.qty + qty) % 2 ^ 64
  { c with
    qty := newQty
    avgCost := if newQty = 0 then 0 else total.tdiv (toInt64 newQty) }

def Cell.sold (c : Cell) (qty : Nat) : Cell :=
  let newQty := c.qty - if qty < c.qty then qty else c.qty
  { c with
    qty := newQty
    avgCost := if newQty = 0 then 0 else c.avgCost }

def Cell.profit (c : Cell) (price : Int) (qty : Nat) : Int :=
  (price - c.avgCost) * toInt64 (if qty < c.qty then qty else c.qty)

def gain (rm : RiskManager) (op : Op) : Int :=
  match op with
  | .mark symbolId price =>
    let c := rm.cell symbolId
    Cell.floating { c with markPrice := price } - c.floating
  | .onFill order filledQty =>
    let c := rm.cell order.symbolId
    match order.side with
    | .BUY => (c.bought order.price filledQty).floating - c.floating
    | .SELL => c.profit order.price filledQty + (c.sold filledQty).floating - c.floating
    | .NONE => 0
  | .checkOrder _ => 0

theorem equity_setCell (rm : RiskManager) (s : Nat) (c : Cell)
    : (rm.setCell s c).equity = rm.equity + (c.floating - (rm.cell s).floating) := by
  have hself : (rm.setCell s c).cells.get {} (locateIdx s) = c := SparseArray.get_set_self _ _ _ _
  rw [equity_eq_sum, equity_eq_sum, Tally.sum_change_of_mem
    (f := fun l => (rm.cells.get {} l).floating) (Finset.mem_univ (locateIdx s)), hself]
  . show rm.config.initialEquity + rm.realizedPnl + _ = _
    unfold cell
    omega
  . intro l hl
    congr 1
    apply SparseArray.get_set_of_ne
    exact hl

theorem drawdown_updateEquity (rm : RiskManager)
    : rm.updateEquity.drawdown = max (rm.equityPeak - rm.equity) 0 := by
  unfold updateEquity
  split
  . next h =>
    show rm.equity - rm.equity = _
    omega
  . next h =>
    show rm.equityPeak - rm.equity = _
    omega

def realize (rm : RiskManager) (pnl : Int) : RiskManager :=
  { rm with realizedPnl := rm.realizedPnl + pnl }

theorem equity_realize (rm : RiskManager) (pnl : Int) : (rm.realize pnl).equity = rm.equity + pnl := by
  have hsum : (rm.realize pnl).cells = rm.cells := rfl
  unfold equity
  rw [hsum]
  show rm.config.initialEquity + (rm.realizedPnl + pnl) + _ = _
  omega

theorem onFill_BUY (rm : RiskManager) {o : Order} (q : Nat) (h : o.side = .BUY)
    : rm.onFill o q =
      (rm.setCell o.symbolId ((rm.cell o.symbolId).bought o.price q)).updateEquity := by
  unfold onFill
  rw [h]
  rfl

theorem onFill_SELL (rm : RiskManager) {o : Order} (q : Nat) (h : o.side = .SELL)
    : rm.onFill o q =
      ((rm.setCell o.symbolId ((rm.cell o.symbolId).sold q)).realize
        ((rm.cell o.symbolId).profit o.price q)).updateEquity := by
  unfold onFill
  rw [h]
  rfl

theorem onFill_NONE (rm : RiskManager) {o : Order} (q : Nat) (h : o.side = .NONE)
    : rm.onFill o q = rm.updateEquity := by
  unfold onFill
  rw [h]

theorem drawdown_mark (rm : RiskManager) (s : Nat) (p : Int)
    : (rm.mark s p).drawdown = max (rm.drawdown - rm.gain (.mark s p)) 0 := by
  -- A mark or a fill takes what the equity gains from the drawdown, down to zero.
  have hpeak : ∀ c, (rm.setCell s c).equityPeak = rm.equityPeak := fun _ => rfl
  unfold mark gain drawdown
  dsimp only
  rw [← drawdown, drawdown_updateEquity, equity_setCell, hpeak]
  omega

theorem drawdown_onFill (rm : RiskManager) (o : Order) (q : Nat)
    : (rm.onFill o q).drawdown = max (rm.drawdown - rm.gain (.onFill o q)) 0 := by
  have hpeak : ∀ c, (rm.setCell o.symbolId c).equityPeak = rm.equityPeak := fun _ => rfl
  have hrealize : ∀ c pnl, ((rm.setCell o.symbolId c).realize pnl).equityPeak = rm.equityPeak :=
    fun _ _ => rfl
  have hdrawdown : rm.drawdown = rm.equityPeak - rm.equity := rfl
  rw [hdrawdown]
  cases h : o.side with
  | BUY =>
    rw [rm.onFill_BUY q h, drawdown_updateEquity, equity_setCell, hpeak]
    simp only [gain, h]
    omega
  | SELL =>
    rw [rm.onFill_SELL q h, drawdown_updateEquity, equity_realize, equity_setCell, hrealize]
    simp only [gain, h]
    omega
  | NONE =>
    rw [rm.onFill_NONE q h, drawdown_updateEquity]
    simp only [gain, h]
    omega

/--
The equity stays below the peak by more than the limit. A negative limit is always exceeded.
-/
def Stays (rm : RiskManager) (limit : Int) (op : Op) : Prop :=
  limit < 0 ∨ rm.gain op < rm.drawdown - limit

instance (rm : RiskManager) (limit : Int) (op : Op) : Decidable (rm.Stays limit op) := by
  unfold Stays
  infer_instance

theorem exceeds_apply_iff {rm : RiskManager} {limit : Int} (h : rm.drawdown > limit) (op : Op)
    : (rm.apply op).drawdown > limit ↔ rm.Stays limit op := by
  unfold Stays
  cases op with
  | mark s p =>
    show (rm.mark s p).drawdown > limit ↔ _
    rw [drawdown_mark]
    omega
  | onFill o q =>
    show (rm.onFill o q).drawdown > limit ↔ _
    rw [drawdown_onFill]
    omega
  | checkOrder o =>
    show rm.drawdown > limit ↔ limit < 0 ∨ 0 < rm.drawdown - limit
    omega

theorem config_apply (rm : RiskManager) (op : Op) : (rm.apply op).config = rm.config := by
  cases op with
  | mark s p => exact rm.config_mark s p
  | onFill o q => exact rm.config_onFill o q
  | checkOrder o => rfl

theorem paused_apply_iff (rm : RiskManager) (op : Op) (h : rm.drawdownPaused)
    : (rm.apply op).drawdownPaused ↔ rm.Stays rm.config.maxDrawdownPause op := by
  rw [← exceeds_apply_iff (of_decide_eq_true h), ← config_apply rm op]
  unfold drawdownPaused
  rw [decide_eq_true_iff, config_apply]

theorem flatten_apply_iff (rm : RiskManager) (op : Op) (h : rm.drawdownFlatten)
    : (rm.apply op).drawdownFlatten ↔ rm.Stays rm.config.maxDrawdownFlatten op := by
  rw [← exceeds_apply_iff (of_decide_eq_true h), ← config_apply rm op]
  unfold drawdownFlatten
  rw [decide_eq_true_iff, config_apply]

theorem checkOrder_of_paused {rm : RiskManager} (h : rm.drawdownPaused) (order : Order)
    : rm.checkOrder order = false := by
  unfold checkOrder
  rw [if_pos h]
  simp

/--
Both limits act as latches in the run: from the first state in which a limit is exceeded on it stays
exceeded, and while the first one is, every order is rejected.
-/
def Latched (rm : RiskManager) (ops : List Op) : Prop :=
  ∀ as bs cs, ops = as ++ bs ++ cs →
    ((as.foldl apply rm).drawdownPaused → ((as ++ bs).foldl apply rm).drawdownPaused ∧
      ∀ order, ((as ++ bs).foldl apply rm).checkOrder order = false) ∧
    ((as.foldl apply rm).drawdownFlatten → ((as ++ bs).foldl apply rm).drawdownFlatten)

/--
The limits act as latches if and only if no mark and no fill that meets an exceeded limit brings the equity
back to it.
-/
theorem latched_iff (rm : RiskManager) (ops : List Op)
    : rm.Latched ops ↔
        ∀ as op cs, ops = as ++ op :: cs →
          let rm' := as.foldl apply rm
          (rm'.drawdownPaused → rm'.Stays rm'.config.maxDrawdownPause op) ∧
          (rm'.drawdownFlatten → rm'.Stays rm'.config.maxDrawdownFlatten op) := by
  have hpause := Run.stable_iff (p := fun rm => drawdownPaused rm = true) paused_apply_iff rm ops
  have hflatten := Run.stable_iff (p := fun rm => drawdownFlatten rm = true) flatten_apply_iff rm ops
  constructor
  . intro h as op cs hops
    constructor
    . apply hpause.1
      . intro as bs cs hops hp
        exact ((h as bs cs hops).1 hp).1
      . exact hops
    . apply hflatten.1
      . intro as bs cs hops hf
        exact (h as bs cs hops).2 hf
      . exact hops
  . intro h as bs cs hops
    constructor
    . intro hp
      have hstill := hpause.2 (fun as op cs hops => (h as op cs hops).1) as bs cs hops hp
      exact ⟨hstill, checkOrder_of_paused hstill⟩
    . exact hflatten.2 (fun as op cs hops => (h as op cs hops).2) as bs cs hops

theorem not_latched
    : ¬ (init { maxDrawdownPause := 5000, maxDrawdownFlatten := 100000 }).Latched
      [.onFill ⟨1, 1, 1, .BUY, .LIMIT, 10000, 100, 0⟩ 100, .mark 1 4000, .mark 1 10000] := by
  -- A position bought at 100.00 that is marked at 40.00 and then at 100.00 again: the pause begins
  -- and ends.
  intro h
  have hlast := (h [.onFill ⟨1, 1, 1, .BUY, .LIMIT, 10000, 100, 0⟩ 100, .mark 1 4000] [.mark 1 10000] []
    rfl).1 (by decide +kernel)
  exact absurd hlast.1 (by decide +kernel)

end RiskManager

end NebulaXTrader
