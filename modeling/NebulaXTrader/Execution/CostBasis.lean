import Mathlib.Data.Int.Order.Basic
import NebulaXTrader.Execution.Drawdown
import NebulaXTrader.Execution.Flatten
import NebulaXTrader.Lib.Run

/-!
This module contains the theorem about the prices that the risk manager books. It is given the price of the
order, so its costs are those of the executions as long as these happen at that price.
-/

namespace NebulaXTrader

namespace RiskManager

def priceCounts (rm : RiskManager) (order : Order) (filledQty : Nat) : Bool :=
  match order.side with
  | .BUY => toInt64 filledQty ≠ 0
  | .SELL => toInt64 (min filledQty (rm.position order.symbolId)) ≠ 0
  | .NONE => false

theorem onFill_of_not_priceCounts {rm : RiskManager} {order : Order} {filledQty : Nat}
    (h : ¬ rm.priceCounts order filledQty) (price : Int)
    : rm.onFill { order with price := price } filledQty = rm.onFill order filledQty := by
  generalize hp : { order with price := price } = priced
  have hside : priced.side = order.side := by rw [← hp]
  have hsymbol : priced.symbolId = order.symbolId := by rw [← hp]
  unfold priceCounts at h
  cases hs : order.side with
  | BUY =>
    rw [hs] at h
    have hzero : toInt64 filledQty = 0 := by simpa using h
    rw [rm.onFill_BUY _ (hside.trans hs), rm.onFill_BUY _ hs, hsymbol]
    unfold Cell.bought
    rw [hzero, Int.mul_zero, Int.mul_zero]
  | SELL =>
    rw [hs] at h
    have hmin : (if filledQty < (rm.cell order.symbolId).qty then filledQty
        else (rm.cell order.symbolId).qty) = min filledQty (rm.position order.symbolId) := by
      unfold position
      split
      . omega
      . omega
    have hzero : toInt64 (min filledQty (rm.position order.symbolId)) = 0 := by simpa using h
    rw [rm.onFill_SELL _ (hside.trans hs), rm.onFill_SELL _ hs, hsymbol]
    unfold Cell.profit
    rw [hmin, hzero, Int.mul_zero, Int.mul_zero]
  | NONE =>
    rw [rm.onFill_NONE _ (hside.trans hs), rm.onFill_NONE _ hs]

end RiskManager

namespace ExecutionEngine

open OrderManager

def simulated (ex : ExecutionEngine) (sig : Signal) (strategyId : Nat) (type : OrderType)
    : Option Order :=
  match ex.orderFor sig strategyId type with
  | none => none
  | some order =>
    let o := (ex.om.newOrder order).2
    if ¬ ex.hasSender ∧ ex.rm.checkOrder o then some o else none

/--
The rule of the risk manager applied to the prices and quantities of the executions that a call reports.
-/
def bookFills (ex : ExecutionEngine) (rm : RiskManager) (c : Request) : RiskManager :=
  match c with
  | .submit _ sig strategyId type =>
    match ex.simulated sig strategyId type with
    | none => rm
    | some order => rm.onFill order order.quantity
  | .report _ f =>
    match ex.om.orders f.orderId with
    | none => rm
    | some e => if f.type = .E then rm.onFill { e.order with price := f.fillPrice } f.filledQty else rm
  | .fill _ orderId filledQty fillPrice =>
    match ex.om.orders orderId with
    | none => rm
    | some e => rm.onFill { e.order with price := fillPrice } filledQty
  | .mark symbolId price => rm.mark symbolId price
  | .cancel _ _ => rm
  | .flatten _ => rm

def bookRun (ex : ExecutionEngine) (rm : RiskManager) (calls : List Request) : RiskManager :=
  match calls with
  | [] => rm
  | c :: calls => bookRun (ex.serve c).1 (ex.bookFills rm c) calls

/--
The execution of a known order happens at its price, or its price has no influence.
-/
def FilledAtPrice (ex : ExecutionEngine) (orderId filledQty : Nat) (fillPrice : Int) : Prop :=
  match ex.om.orders orderId with
  | none => True
  | some e => fillPrice = e.order.price ∨ ¬ ex.rm.priceCounts e.order filledQty

instance (ex : ExecutionEngine) (orderId filledQty : Nat) (fillPrice : Int)
    : Decidable (ex.FilledAtPrice orderId filledQty fillPrice) := by
  unfold FilledAtPrice
  split
  . infer_instance
  . infer_instance

def AtOrderPrice (ex : ExecutionEngine) (c : Request) : Prop :=
  match c with
  | .report _ f => f.type = .E → ex.FilledAtPrice f.orderId f.filledQty f.fillPrice
  | .fill _ orderId filledQty fillPrice => ex.FilledAtPrice orderId filledQty fillPrice
  | _ => True

instance (ex : ExecutionEngine) (c : Request) : Decidable (ex.AtOrderPrice c) :=
  match c with
  | .report _ f => inferInstanceAs (Decidable (f.type = .E → ex.FilledAtPrice _ _ _))
  | .fill _ _ _ _ => inferInstanceAs (Decidable (ex.FilledAtPrice _ _ _))
  | .submit _ _ _ _ => isTrue trivial
  | .cancel _ _ => isTrue trivial
  | .mark _ _ => isTrue trivial
  | .flatten _ => isTrue trivial

theorem FilledAtPrice.known {ex : ExecutionEngine} {orderId filledQty : Nat} {fillPrice : Int} {e : Entry}
    (h : ex.FilledAtPrice orderId filledQty fillPrice) (he : ex.om.orders orderId = some e)
    : fillPrice = e.order.price ∨ ¬ ex.rm.priceCounts e.order filledQty := by
  unfold FilledAtPrice at h
  rw [he] at h
  exact h

theorem onFill_at_price {rm : RiskManager} {order : Order} {filledQty : Nat} {price : Int}
    (h : price = order.price ∨ ¬ rm.priceCounts order filledQty)
    : rm.onFill { order with price := price } filledQty = rm.onFill order filledQty := by
  cases h with
  | inl heq => rw [heq]
  | inr hnot => exact RiskManager.onFill_of_not_priceCounts hnot price

theorem rm_call_eq (ex : ExecutionEngine) (c : Request) (h : ex.AtOrderPrice c)
    : (ex.serve c).1.rm = ex.bookFills ex.rm c := by
  cases c with
  | submit env sig strategyId type =>
    show (ex.submitSignal env sig strategyId type).1.rm = _
    unfold bookFills
    dsimp only
    cases ho : ex.orderFor sig strategyId type with
    | none =>
      rw [ex.submitSignal_none env ho]
      unfold simulated
      rw [ho]
    | some order =>
      have hsim : ex.simulated sig strategyId type =
          if ¬ ex.hasSender ∧ ex.rm.checkOrder (ex.om.newOrder order).2 then
            some (ex.om.newOrder order).2
          else none := by
        unfold simulated
        rw [ho]
      unfold submitSignal
      rw [ho, hsim]
      dsimp only
      by_cases hcheck : ex.rm.checkOrder (ex.om.newOrder order).2
      . by_cases hsender : ex.hasSender
        . simp only [hcheck, hsender, not_true, if_true, if_false, false_and]
          split
          . rfl
          . split
            . rfl
            . rfl
            . rfl
        . simp only [hcheck, hsender, not_true, if_false]
          rfl
      . simp [hcheck]
  | report env f =>
    show (ex.onOrderReport env f).1.rm = _
    unfold onOrderReport bookFills
    dsimp only
    cases he : ex.om.orders f.orderId with
    | none => rfl
    | some e =>
      dsimp only
      cases ht : f.type with
      | E =>
        dsimp only
        rw [if_pos rfl, (flattenOnDrawdown_frame _ env).1, onFill_at_price ((h ht).known he)]
      | A => rfl
      | C => rfl
      | J => rfl
      | F => rfl
  | fill env orderId filledQty fillPrice =>
    show (ex.onOrderFill env orderId filledQty fillPrice).1.rm = _
    unfold onOrderFill bookFills
    dsimp only
    cases he : ex.om.orders orderId with
    | none => rfl
    | some e =>
      dsimp only
      rw [(flattenOnDrawdown_frame _ env).1, onFill_at_price (FilledAtPrice.known h he)]
  | cancel env orderId =>
    show (ex.cancelOrder env orderId).1.rm = ex.rm
    unfold cancelOrder
    split
    . rfl
    . split
      . rfl
      . split
        . rfl
        . rfl
        . rfl
  | mark s p => rfl
  | flatten env => exact (ex.flattenOnDrawdown_frame env).1

theorem run_cons (ex : ExecutionEngine) (c : Request) (calls : List Request)
    : ex.run (c :: calls) = (ex.serve c).1.run calls := rfl

def next (ex : ExecutionEngine) (c : Request) : Option ExecutionEngine := some (ex.serve c).1

theorem rm_run_eq (ex : ExecutionEngine) (calls : List Request) (h : Run.Along next AtOrderPrice ex calls)
    : (ex.run calls).rm = ex.bookRun ex.rm calls := by
  induction calls generalizing ex with
  | nil => rfl
  | cons c calls ih =>
    unfold Run.Along at h
    have hrest := ih (ex.serve c).1 (h.2 _ rfl)
    rw [run_cons, hrest, rm_call_eq ex c h.1]
    rfl

theorem toInt64_ne_zero {n : Nat} (hpos : 0 < n) (hlt : n < 2 ^ 64) : toInt64 n ≠ 0 := by
  unfold toInt64
  split
  . omega
  . omega

theorem avgCost_of_first_purchase (rm : RiskManager) {order : Order} {q : Nat} (hside : order.side = .BUY)
    (hpos : 0 < q) (hlt : q < 2 ^ 64) (hflat : rm.position order.symbolId = 0)
    : ((rm.onFill order q).cell order.symbolId).avgCost = order.price := by
  have hqty : (rm.cell order.symbolId).qty = 0 := hflat
  have hzero : toInt64 0 = 0 := rfl
  rw [rm.onFill_BUY q hside, RiskManager.cell_updateEquity, RiskManager.cell_setCell_self]
  unfold RiskManager.Cell.bought
  dsimp only
  rw [hqty, hzero, Int.mul_zero, Int.zero_add, Nat.zero_add, Nat.mod_eq_of_lt hlt,
    if_neg (by omega), Int.mul_tdiv_cancel]
  exact toInt64_ne_zero hpos hlt

theorem fill_of_whole {e : Entry} (hfilled : e.filled = 0) (hpos : 0 < e.order.quantity)
    (hlt : e.order.quantity < 2 ^ 64) (price : Int)
    : (e.fill e.order.quantity price).status = .FILLED ∧
      (e.fill e.order.quantity price).avgFillPrice = price := by
  have hzero : toInt64 0 = 0 := rfl
  constructor
  . rw [e.fill_status, e.fill_filled_of_le price (by omega) hlt, hfilled, Nat.zero_add, if_pos rfl]
  . unfold Entry.fill
    dsimp only
    rw [hfilled, Nat.zero_add, Nat.mod_eq_of_lt hlt, hzero, if_neg (Nat.lt_irrefl _),
      if_neg (Nat.lt_irrefl _), if_neg (by omega), Int.mul_zero, Int.zero_add, Int.mul_tdiv_cancel]
    exact toInt64_ne_zero hpos hlt

/--
In every run whose reported executions happen at the prices of their orders, costs, realized profit and
equity are those of the reported prices and quantities. A further execution of that kind that completes a
purchase at once and starts a position leaves the same average in both stores.
-/
theorem costBasis (start : ExecutionEngine) (calls : List Request)
    (h : Run.Along next AtOrderPrice start calls)
    : let ex := start.run calls
      let books := start.bookRun start.rm calls
      (∀ s, (ex.rm.cell s).avgCost = (books.cell s).avgCost) ∧
      ex.rm.realizedPnl = books.realizedPnl ∧ ex.rm.equity = books.equity ∧
      (∀ env f e, ex.om.orders f.orderId = some e → f.type = .E → ex.AtOrderPrice (.report env f) →
        e.isActive → e.filled = 0 → e.order.side = .BUY → f.filledQty = e.order.quantity →
        0 < e.order.quantity → e.order.quantity < 2 ^ 64 → ex.rm.position e.order.symbolId = 0 →
        ∃ e', (ex.onOrderReport env f).1.om.orders f.orderId = some e' ∧ e'.status = .FILLED ∧
          ((ex.onOrderReport env f).1.rm.cell e.order.symbolId).avgCost = e'.avgFillPrice) := by
  intro ex books
  have hrm : ex.rm = books := rm_run_eq start calls h
  refine ⟨?_, ?_, ?_, ?_⟩
  . intro s
    rw [hrm]
  . rw [hrm]
  . rw [hrm]
  . intro env f e he ht hprice hactive hfilled hside hqty hpos hlt hflat
    have hwhole := fill_of_whole hfilled hpos hlt f.fillPrice
    have hcounts : ex.rm.priceCounts e.order f.filledQty := by
      unfold RiskManager.priceCounts
      rw [hside, hqty]
      exact decide_eq_true (toInt64_ne_zero hpos hlt)
    have hatPrice : f.fillPrice = e.order.price := by
      cases (hprice ht).known he with
      | inl heq => exact heq
      | inr hnot => exact absurd hcounts hnot
    have hentry : ∃ e', (ex.om.onFill f.orderId f.filledQty f.fillPrice).orders f.orderId = some e' ∧
        e'.status = .FILLED ∧ e'.avgFillPrice = f.fillPrice := by
      refine ⟨{ e.fill f.filledQty f.fillPrice with updateTime := ex.om.counter + 1 }, ?_, ?_, ?_⟩
      . unfold OrderManager.onFill
        rw [he]
        dsimp only
        rw [if_pos hactive, hqty, if_pos hwhole.1]
        exact Function.update_self _ _ _
      . rw [hqty]
        exact hwhole.1
      . rw [hqty]
        exact hwhole.2
    cases hentry with
    | intro e' he' =>
      exists e'
      rw [ex.onOrderReport_E env he ht]
      refine ⟨?_, he'.2.1, ?_⟩
      . apply flattenOnDrawdown_entry _ env he'.1
        intro hact
        have hs := status_of_isActive hact
        rw [he'.2.1] at hs
        cases hs with
        | inl hs => cases hs
        | inr hs => cases hs
      . rw [(flattenOnDrawdown_frame _ env).1, he'.2.2, hatPrice]
        exact avgCost_of_first_purchase ex.rm hside (by omega) (by omega) hflat

def limitPurchase (env : Env) : List Request := [
  .submit env ⟨.BUY, 1, 10000, 0, 10000⟩ 1 .LIMIT,
  .report env { type := .A, orderId := 1, exchangeRef := 1 },
  .report env { type := .E, orderId := 1, exchangeRef := 1, filledQty := 100, fillPrice := 10000 }
]

theorem costBasis_limitPurchase
    : let ex := (connected {} 100).run (limitPurchase {})
      let books := (connected {} 100).bookRun (connected {} 100).rm (limitPurchase {})
      (∀ s, (ex.rm.cell s).avgCost = (books.cell s).avgCost) ∧
      ex.rm.realizedPnl = books.realizedPnl ∧ ex.rm.equity = books.equity := by
  have h := costBasis (connected {} 100) (limitPurchase {}) (by decide +kernel)
  exact ⟨h.1, h.2.1, h.2.2.1⟩

def marketPurchase (env : Env) : List Request := [
  .submit env ⟨.BUY, 1, 0, 0, 10000⟩ 1 .MARKET,
  .report env { type := .A, orderId := 1, exchangeRef := 1 },
  .report env { type := .E, orderId := 1, exchangeRef := 1, filledQty := 100, fillPrice := 10050 }
]

theorem not_costBasis
    : let ex := (connected {} 100).run (marketPurchase {})
      let books := (connected {} 100).bookRun (connected {} 100).rm (marketPurchase {})
      (ex.rm.cell 1).avgCost = 0 ∧ (books.cell 1).avgCost = 10050 ∧
        (ex.om.orders 1).map Entry.avgFillPrice = some 10050 := by
  -- A market order carries the price 0, and so its shares cost nothing.
  decide +kernel

end ExecutionEngine

end NebulaXTrader
