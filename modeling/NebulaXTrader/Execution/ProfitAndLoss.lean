import NebulaXTrader.Execution.AveragePrice
import NebulaXTrader.Execution.Drawdown

/-!
This module contains how far the realized profit of a symbol may be from what its shares were sold for less what
they were bought for.
-/

namespace NebulaXTrader

namespace RiskManager

open RunningAverage (update lost)

/--
The value that an `int64_t` holds after a computation with this result.
-/
def int64 (z : Int) : Int := z.bmod (2 ^ 64)

def Cell.bought64 (c : Cell) (price : Int) (qty : Nat) : Cell :=
  let total := int64 (int64 (c.avgCost * toInt64 c.qty) + int64 (price * toInt64 qty))
  let newQty := (c.qty + qty) % 2 ^ 64
  { c with
    qty := newQty
    avgCost := if newQty = 0 then 0 else total.tdiv (toInt64 newQty) }

def Cell.profit64 (c : Cell) (price : Int) (qty : Nat) : Int :=
  int64 (int64 (price - c.avgCost) * toInt64 (if qty < c.qty then qty else c.qty))

/--
`onFill` with the width of the products and sums of money, which it leaves out.
-/
def onFill64 (rm : RiskManager) (order : Order) (filledQty : Nat) : RiskManager :=
  let c := rm.cell order.symbolId
  let rm :=
    match order.side with
    | .BUY => rm.setCell order.symbolId (c.bought64 order.price filledQty)
    | .SELL =>
      { rm.setCell order.symbolId (c.sold filledQty) with
        realizedPnl := int64 (rm.realizedPnl + c.profit64 order.price filledQty) }
    | .NONE => rm
  rm.updateEquity

structure Trade where
  order : Order
  qty : Nat
  deriving DecidableEq, Repr

def runTrades (rm : RiskManager) (trades : List Trade) : RiskManager :=
  trades.foldl (fun rm t => rm.onFill t.order t.qty) rm

def runTrades64 (rm : RiskManager) (trades : List Trade) : RiskManager :=
  trades.foldl (fun rm t => rm.onFill64 t.order t.qty) rm

def Trade.paid (t : Trade) : Int := if t.order.side = .BUY then t.order.price * t.qty else 0

def Trade.received (t : Trade) : Int := if t.order.side = .SELL then t.order.price * t.qty else 0

def Trade.bought (t : Trade) : Nat := if t.order.side = .BUY then t.qty else 0

def spent (trades : List Trade) : Int := (trades.map Trade.paid).sum

def earned (trades : List Trade) : Int := (trades.map Trade.received).sum

def proceeds (trades : List Trade) : Int := earned trades - spent trades

def sharesBought (trades : List Trade) : Nat := (trades.map Trade.bought).sum

def Trade.after (t : Trade) (held : Nat) : Nat :=
  match t.order.side with
  | .BUY => held + t.qty
  | .SELL => held - t.qty
  | .NONE => held

/--
No trade sells more than what is held before it.
-/
def Covered (held : Nat) (trades : List Trade) : Prop :=
  match trades with
  | [] => True
  | t :: trades => (t.order.side = .SELL → t.qty ≤ held) ∧ Covered (t.after held) trades

instance Covered.decidable (held : Nat) (trades : List Trade) : Decidable (Covered held trades) :=
  match trades with
  | [] => isTrue trivial
  | t :: trades =>
    have := Covered.decidable (t.after held) trades
    inferInstanceAs (Decidable (_ ∧ _))

def heldAfter (held : Nat) (trades : List Trade) : Nat := trades.foldl (fun held t => t.after held) held

/--
A cent for each share but one that is held after a purchase, summed over the purchases.
-/
def roundings (held : Nat) (trades : List Trade) : Nat :=
  match trades with
  | [] => 0
  | t :: trades => (if t.order.side = .BUY then held + t.qty - 1 else 0) + roundings (t.after held) trades

/--
The profit taken so far less the cost of what is held.
-/
def bookValue (rm : RiskManager) (s : Nat) : Int := rm.realizedPnl - (rm.cell s).avgCost * (rm.cell s).qty

structure Books (rm : RiskManager) (s held : Nat) : Prop where
  qty : (rm.cell s).qty = held
  held_lt : held < 2 ^ 63
  nonneg : 0 ≤ (rm.cell s).avgCost * held

/--
What was spent, what was earned and what was realized before fit in an `int64_t`, whatever order the sums are taken in.
-/
structure MoneyFits (realized : Int) (trades : List Trade) : Prop where
  spent : spent trades < 2 ^ 63
  earned : earned trades < 2 ^ 63
  lower : -2 ^ 63 ≤ realized - RiskManager.spent trades
  upper : realized + RiskManager.earned trades < 2 ^ 63

/--
What is held has not cost more than what was spent, and what is realized lies between what was spent and earned.
-/
structure Funded (rm : RiskManager) (s held : Nat) (realized paid received : Int) : Prop where
  books : Books rm s held
  cost : (rm.cell s).avgCost * held ≤ paid
  lower : realized - paid + (rm.cell s).avgCost * held ≤ rm.realizedPnl
  upper : rm.realizedPnl ≤ realized + received

theorem realizedPnl_updateEquity (rm : RiskManager) : rm.updateEquity.realizedPnl = rm.realizedPnl := by
  unfold updateEquity
  split
  . rfl
  . rfl

theorem Cell.bought_eq {c : Cell} {price : Int} {qty : Nat} (h : c.qty + qty < 2 ^ 63)
    : (c.bought price qty).qty = c.qty + qty ∧
      (c.bought price qty).avgCost = update c.avgCost c.qty price qty := by
  have hmod : (c.qty + qty) % 2 ^ 64 = c.qty + qty := Nat.mod_eq_of_lt (by omega)
  unfold bought update
  dsimp only
  rw [hmod, toInt64_of_lt h, toInt64_of_lt (by omega), toInt64_of_lt (by omega), Int.natCast_add]
  constructor
  . rfl
  . split
    . next hzero =>
      rw [← Int.natCast_add, hzero]
      exact (Int.tdiv_zero _).symm
    . rfl

theorem Cell.sold_eq {c : Cell} {qty : Nat} (h : qty ≤ c.qty)
    : (c.sold qty).qty = c.qty - qty ∧
      (c.sold qty).avgCost * (c.sold qty).qty = c.avgCost * (c.qty - qty : Nat) := by
  have hmin : (if qty < c.qty then qty else c.qty) = qty := by
    split
    . rfl
    . omega
  unfold sold
  dsimp only
  rw [hmin]
  constructor
  . rfl
  . split
    . next hzero => rw [hzero, Int.natCast_zero, Int.mul_zero, Int.mul_zero]
    . rfl

theorem Cell.profit_eq {c : Cell} {price : Int} {qty : Nat} (h : qty ≤ c.qty) (hlt : c.qty < 2 ^ 63)
    : c.profit price qty = (price - c.avgCost) * qty := by
  have hmin : (if qty < c.qty then qty else c.qty) = qty := by
    split
    . rfl
    . omega
  unfold profit
  rw [hmin, toInt64_of_lt (by omega)]

variable {rm : RiskManager} {s held : Nat} {t : Trade}

theorem cell_onFill_BUY (rm : RiskManager) (hs : t.order.symbolId = s) (hside : t.order.side = .BUY)
    : (rm.onFill t.order t.qty).cell s = (rm.cell s).bought t.order.price t.qty ∧
      (rm.onFill t.order t.qty).realizedPnl = rm.realizedPnl := by
  rw [rm.onFill_BUY t.qty hside, hs, cell_updateEquity, cell_setCell_self, realizedPnl_updateEquity]
  exact ⟨rfl, rfl⟩

theorem cell_onFill_SELL (rm : RiskManager) (hs : t.order.symbolId = s) (hside : t.order.side = .SELL)
    : (rm.onFill t.order t.qty).cell s = (rm.cell s).sold t.qty ∧
      (rm.onFill t.order t.qty).realizedPnl =
        rm.realizedPnl + (rm.cell s).profit t.order.price t.qty := by
  rw [rm.onFill_SELL t.qty hside, hs, cell_updateEquity, realizedPnl_updateEquity]
  exact ⟨cell_setCell_self rm s _, rfl⟩

theorem Books.buy (h : Books rm s held) (hs : t.order.symbolId = s) (hprice : 0 ≤ t.order.price)
    (hside : t.order.side = .BUY) (hfits : held + t.qty < 2 ^ 63)
    : let rm' := rm.onFill t.order t.qty
      Books rm' s (held + t.qty) ∧
        bookValue rm s ≤ bookValue rm' s + t.order.price * t.qty ∧
        bookValue rm' s + t.order.price * t.qty ≤ bookValue rm s + (held + t.qty - 1 : Nat) := by
  intro rm'
  obtain ⟨hcell, hpnl⟩ := cell_onFill_BUY rm hs hside
  obtain ⟨hqty, havg⟩ := @Cell.bought_eq (rm.cell s) t.order.price t.qty (by rw [h.qty]; exact hfits)
  rw [h.qty] at hqty havg
  have hmul := RunningAverage.update_mul (rm.cell s).avgCost held t.order.price t.qty
  have hlost := RunningAverage.lost_nonneg h.nonneg hprice (Int.natCast_nonneg t.qty)
  have hnonneg := RunningAverage.update_nonneg h.nonneg (Int.natCast_nonneg held) hprice (Int.natCast_nonneg t.qty)
  have hvalue : bookValue rm' s = bookValue rm s - t.order.price * t.qty +
      lost (rm.cell s).avgCost held t.order.price t.qty := by
    unfold bookValue
    rw [hcell, hpnl, hqty, havg, h.qty, Int.natCast_add, hmul]
    omega
  have hless : lost (rm.cell s).avgCost held t.order.price t.qty ≤ (held + t.qty - 1 : Nat) := by
    by_cases hzero : held + t.qty = 0
    . have hheld : held = 0 := by omega
      rw [hheld, Int.natCast_zero, RunningAverage.lost_of_first]
      exact Int.natCast_nonneg _
    . have hlt := @RunningAverage.lost_lt (rm.cell s).avgCost held t.order.price t.qty (by omega)
      omega
  refine ⟨⟨?_, hfits, ?_⟩, by omega, by omega⟩
  . rw [hcell, hqty]
  . rw [hcell, havg]
    exact mul_nonneg hnonneg (Int.natCast_nonneg _)

theorem Books.sell (h : Books rm s held) (hs : t.order.symbolId = s) (hside : t.order.side = .SELL)
    (hcovered : t.qty ≤ held)
    : let rm' := rm.onFill t.order t.qty
      Books rm' s (held - t.qty) ∧ bookValue rm' s = bookValue rm s + t.order.price * t.qty := by
  intro rm'
  obtain ⟨hcell, hpnl⟩ := cell_onFill_SELL rm hs hside
  have hle : t.qty ≤ (rm.cell s).qty := by
    rw [h.qty]
    exact hcovered
  obtain ⟨hqty, havg⟩ := Cell.sold_eq hle
  have hprofit := @Cell.profit_eq (rm.cell s) t.order.price t.qty hle (by rw [h.qty]; exact h.held_lt)
  have hsub : ((held - t.qty : Nat) : Int) = held - t.qty := Int.natCast_sub hcovered
  rw [h.qty] at hqty havg
  refine ⟨⟨?_, ?_, ?_⟩, ?_⟩
  . rw [hcell, hqty]
  . have hlt := h.held_lt
    omega
  . have hnonneg := h.nonneg
    rw [hcell, ← hqty, havg]
    by_cases hzero : held = 0
    . rw [hzero, Nat.zero_sub, Int.natCast_zero, Int.mul_zero]
    . have hcost : 0 ≤ (rm.cell s).avgCost := nonneg_of_mul_nonneg_left hnonneg (by omega)
      exact mul_nonneg hcost (Int.natCast_nonneg _)
  . unfold bookValue
    rw [hcell, hpnl, hprofit, havg, h.qty, hsub, Int.sub_mul, Int.mul_sub]
    omega

theorem Books.trade (h : Books rm s held) (hs : t.order.symbolId = s) (hprice : 0 ≤ t.order.price)
    (hcovered : t.order.side = .SELL → t.qty ≤ held) (hfits : held + t.bought < 2 ^ 63)
    : let rm' := rm.onFill t.order t.qty
      let dropped := bookValue rm' s - bookValue rm s - (t.received - t.paid)
      Books rm' s (t.after held) ∧ 0 ≤ dropped ∧
        dropped ≤ (if t.order.side = .BUY then held + t.qty - 1 else 0 : Nat) := by
  intro rm' dropped
  cases hside : t.order.side with
  | BUY =>
    have hbought : t.bought = t.qty := by simp [Trade.bought, hside]
    rw [hbought] at hfits
    obtain ⟨hbooks, hle, hge⟩ := h.buy hs hprice hside hfits
    have hafter : t.after held = held + t.qty := by simp [Trade.after, hside]
    have hdropped : dropped =
        bookValue (rm.onFill t.order t.qty) s - bookValue rm s + t.order.price * t.qty := by
      simp [dropped, rm', Trade.received, Trade.paid, hside]
    rw [hafter, hdropped, if_pos rfl]
    exact ⟨hbooks, by omega, by omega⟩
  | SELL =>
    obtain ⟨hbooks, heq⟩ := h.sell hs hside (hcovered hside)
    have hafter : t.after held = held - t.qty := by simp [Trade.after, hside]
    have hdropped : dropped =
        bookValue (rm.onFill t.order t.qty) s - bookValue rm s - t.order.price * t.qty := by
      simp [dropped, rm', Trade.received, Trade.paid, hside]
    rw [hafter, hdropped, if_neg (by decide)]
    exact ⟨hbooks, by omega, by omega⟩
  | NONE =>
    have hrm : rm' = rm.updateEquity := rm.onFill_NONE t.qty hside
    have hcell : rm'.cell s = rm.cell s := by rw [hrm, cell_updateEquity]
    have hafter : t.after held = held := by simp [Trade.after, hside]
    have hdropped : dropped = 0 := by
      simp [dropped, Trade.received, Trade.paid, hside, bookValue, hrm, cell_updateEquity,
        realizedPnl_updateEquity]
    rw [hafter, hdropped]
    refine ⟨⟨?_, h.held_lt, ?_⟩, le_refl 0, Int.natCast_nonneg _⟩
    . rw [hcell]
      exact h.qty
    . rw [hcell]
      exact h.nonneg

theorem Trade.after_le (t : Trade) (held : Nat) : t.after held ≤ held + t.bought := by
  unfold Trade.after Trade.bought
  cases t.order.side with
  | BUY => simp
  | SELL => simp
  | NONE => simp

theorem Books.run {trades : List Trade} (h : Books rm s held)
    (htrades : ∀ t ∈ trades, t.order.symbolId = s ∧ 0 ≤ t.order.price) (hcovered : Covered held trades)
    (hfits : held + sharesBought trades < 2 ^ 63)
    : let rm' := rm.runTrades trades
      let dropped := bookValue rm' s - bookValue rm s - proceeds trades
      Books rm' s (heldAfter held trades) ∧ 0 ≤ dropped ∧ dropped ≤ roundings held trades := by
  induction trades generalizing rm held with
  | nil =>
    have hzero : bookValue rm s - bookValue rm s - proceeds [] = 0 := by simp [proceeds, earned, spent]
    exact ⟨h, le_of_eq hzero.symm, le_of_eq hzero⟩
  | cons t trades ih =>
    unfold Covered at hcovered
    have hbought : sharesBought (t :: trades) = t.bought + sharesBought trades := by simp [sharesBought]
    have hproceeds : proceeds (t :: trades) = t.received - t.paid + proceeds trades := by
      simp [proceeds, earned, spent]
      omega
    rw [hbought] at hfits
    have hafter := t.after_le held
    obtain ⟨hs, hprice⟩ := htrades t (by simp)
    obtain ⟨hbooks, hge, hle⟩ := h.trade hs hprice hcovered.1 (by omega)
    obtain ⟨hlast, hge', hle'⟩ := ih hbooks (fun t' ht' => htrades t' (by simp [ht'])) hcovered.2 (by omega)
    refine ⟨hlast, ?_, ?_⟩
    . show 0 ≤ bookValue ((rm.onFill t.order t.qty).runTrades trades) s - _ - _
      rw [hproceeds]
      omega
    . show bookValue ((rm.onFill t.order t.qty).runTrades trades) s - _ - _ ≤ _
      unfold roundings
      rw [hproceeds, Int.natCast_add]
      omega

theorem int64_eq {z : Int} (hlower : -2 ^ 63 ≤ z) (hupper : z < 2 ^ 63) : int64 z = z := by
  unfold int64
  apply Int.bmod_eq_of_le
  . omega
  . omega

/-!
With money that fits the two models of `on_fill` do the same.
-/

theorem Books.cost_nonneg (h : Books rm s held) (hpos : 0 < held) : 0 ≤ (rm.cell s).avgCost :=
  nonneg_of_mul_nonneg_left h.nonneg (Int.natCast_pos.2 hpos)

theorem Books.bought64_eq (h : Books rm s held) {price paid : Int} {qty : Nat}
    (hcost : (rm.cell s).avgCost * held ≤ paid) (hprice : 0 ≤ price * qty) (hpaid : paid + price * qty < 2 ^ 63)
    (hqty : qty < 2 ^ 63) : (rm.cell s).bought64 price qty = (rm.cell s).bought price qty := by
  have hnonneg := h.nonneg
  have hworth : int64 ((rm.cell s).avgCost * held) = (rm.cell s).avgCost * held := int64_eq (by omega) (by omega)
  have hprice : int64 (price * qty) = price * qty := int64_eq (by omega) (by omega)
  unfold Cell.bought64 Cell.bought
  rw [h.qty, toInt64_of_lt h.held_lt, toInt64_of_lt hqty, hworth, hprice, int64_eq (by omega) (by omega)]

theorem Books.profit64_eq (h : Books rm s held) {price paid received : Int} {qty : Nat} (hcovered : qty ≤ held)
    (hcost : (rm.cell s).avgCost * held ≤ paid) (hpaid : paid < 2 ^ 63) (hprice : 0 ≤ price)
    (hreceived : received + price * qty < 2 ^ 63) (hnonneg : 0 ≤ received)
    : (rm.cell s).profit64 price qty = (rm.cell s).profit price qty := by
  have hlt := h.held_lt
  have hle : qty ≤ (rm.cell s).qty := by
    rw [h.qty]
    exact hcovered
  have hmin : (if qty < (rm.cell s).qty then qty else (rm.cell s).qty) = qty := by
    split
    . rfl
    . omega
  unfold Cell.profit64 Cell.profit
  rw [hmin, toInt64_of_lt (by omega)]
  by_cases hzero : qty = 0
  . rw [hzero, Int.natCast_zero, Int.mul_zero, Int.mul_zero]
    rfl
  . have hnatpos : 0 < qty := Nat.pos_of_ne_zero hzero
    have hpos : 0 < held := by omega
    have havg := h.cost_nonneg hpos
    have hone : (1 : Int) ≤ qty := by omega
    have hheld : (qty : Int) ≤ held := by omega
    have hpricele : price ≤ price * qty := le_mul_of_one_le_right hprice hone
    have havgle : (rm.cell s).avgCost ≤ (rm.cell s).avgCost * qty := le_mul_of_one_le_right havg hone
    have hcostle : (rm.cell s).avgCost * qty ≤ (rm.cell s).avgCost * held := mul_le_mul_of_nonneg_left hheld havg
    have hdiff : int64 (price - (rm.cell s).avgCost) = price - (rm.cell s).avgCost :=
      int64_eq (by omega) (by omega)
    rw [hdiff, Int.sub_mul]
    exact int64_eq (by omega) (by omega)

theorem onFill64_of_BUY (hs : t.order.symbolId = s) (hside : t.order.side = .BUY)
    (hcell : (rm.cell s).bought64 t.order.price t.qty = (rm.cell s).bought t.order.price t.qty)
    : rm.onFill64 t.order t.qty = rm.onFill t.order t.qty := by
  rw [rm.onFill_BUY t.qty hside]
  unfold onFill64
  rw [hside, hs]
  dsimp only
  rw [hcell]

theorem onFill64_of_SELL (hs : t.order.symbolId = s) (hside : t.order.side = .SELL)
    (hprofit : (rm.cell s).profit64 t.order.price t.qty = (rm.cell s).profit t.order.price t.qty)
    (hfits : int64 (rm.realizedPnl + (rm.cell s).profit t.order.price t.qty) =
      rm.realizedPnl + (rm.cell s).profit t.order.price t.qty)
    : rm.onFill64 t.order t.qty = rm.onFill t.order t.qty := by
  rw [rm.onFill_SELL t.qty hside]
  unfold onFill64
  rw [hside, hs]
  dsimp only
  rw [hprofit, hfits]
  rfl

theorem Funded.buy {realized paid received : Int} (h : Funded rm s held realized paid received)
    (hs : t.order.symbolId = s) (hprice : 0 ≤ t.order.price) (hside : t.order.side = .BUY)
    (hfits : held + t.qty < 2 ^ 63) (hpaid : paid + t.order.price * t.qty < 2 ^ 63)
    : rm.onFill64 t.order t.qty = rm.onFill t.order t.qty ∧
        Funded (rm.onFill t.order t.qty) s (held + t.qty) realized (paid + t.order.price * t.qty) received := by
  have hpays : 0 ≤ t.order.price * t.qty := mul_nonneg hprice (Int.natCast_nonneg _)
  constructor
  . exact onFill64_of_BUY hs hside (h.books.bought64_eq h.cost hpays hpaid (by omega))
  . obtain ⟨hbooks, hle, -⟩ := h.books.buy hs hprice hside hfits
    obtain ⟨hcell, hpnl⟩ := cell_onFill_BUY rm hs hside
    have hcost := h.cost
    have hlower := h.lower
    have hupper := h.upper
    have hqty := h.books.qty
    have hqty' := hbooks.qty
    unfold bookValue at hle
    rw [hpnl, hqty, hqty'] at hle
    refine ⟨hbooks, by omega, ?_, ?_⟩
    . rw [hpnl]
      omega
    . rw [hpnl]
      exact hupper

theorem Funded.sell {realized paid received : Int} (h : Funded rm s held realized paid received)
    (hs : t.order.symbolId = s) (hprice : 0 ≤ t.order.price) (hside : t.order.side = .SELL) (hcovered : t.qty ≤ held)
    (hpaid : paid < 2 ^ 63) (hnonneg : 0 ≤ received) (hreceived : received + t.order.price * t.qty < 2 ^ 63)
    (hlower : -2 ^ 63 ≤ realized - paid) (hupper : realized + (received + t.order.price * t.qty) < 2 ^ 63)
    : rm.onFill64 t.order t.qty = rm.onFill t.order t.qty ∧
        Funded (rm.onFill t.order t.qty) s (held - t.qty) realized paid (received + t.order.price * t.qty) := by
  have hle : t.qty ≤ (rm.cell s).qty := by
    rw [h.books.qty]
    exact hcovered
  have hprofit := @Cell.profit_eq (rm.cell s) t.order.price t.qty hle (by rw [h.books.qty]; exact h.books.held_lt)
  have hprofit64 := h.books.profit64_eq hcovered h.cost hpaid hprice hreceived hnonneg
  obtain ⟨hcell, hpnl⟩ := cell_onFill_SELL rm hs hside
  obtain ⟨hbooks, hvalue⟩ := h.books.sell hs hside hcovered
  have hcost := h.cost
  have hlow := h.lower
  have hup := h.upper
  have hleft : 0 ≤ (rm.cell s).avgCost * (held - t.qty : Nat) := by
    by_cases hzero : held = 0
    . rw [hzero, Nat.zero_sub, Int.natCast_zero, Int.mul_zero]
    . exact mul_nonneg (h.books.cost_nonneg (Nat.pos_of_ne_zero hzero)) (Int.natCast_nonneg _)
  have hgives : 0 ≤ (rm.cell s).avgCost * t.qty := by
    by_cases hzero : held = 0
    . have hnone : t.qty = 0 := by omega
      rw [hnone, Int.natCast_zero, Int.mul_zero]
    . exact mul_nonneg (h.books.cost_nonneg (Nat.pos_of_ne_zero hzero)) (Int.natCast_nonneg _)
  have hsplit : (rm.cell s).avgCost * held = (rm.cell s).avgCost * (held - t.qty : Nat) + (rm.cell s).avgCost * t.qty := by
    rw [← Int.mul_add, ← Int.natCast_add, Nat.sub_add_cancel hcovered]
  have hkept : ((rm.onFill t.order t.qty).cell s).avgCost * (held - t.qty : Nat) =
      (rm.cell s).avgCost * (held - t.qty : Nat) := by
    obtain ⟨hqty, havg⟩ := Cell.sold_eq hle
    rw [h.books.qty] at hqty havg
    rw [hcell, ← havg, hqty]
  rw [hprofit, Int.sub_mul] at hpnl
  constructor
  . apply onFill64_of_SELL hs hside hprofit64
    rw [hprofit, Int.sub_mul]
    have hsells : 0 ≤ t.order.price * t.qty := mul_nonneg hprice (Int.natCast_nonneg _)
    exact int64_eq (by omega) (by omega)
  . refine ⟨hbooks, ?_, ?_, ?_⟩
    . rw [hkept]
      omega
    . rw [hkept, hpnl]
      have hsells : 0 ≤ t.order.price * t.qty := mul_nonneg hprice (Int.natCast_nonneg _)
      omega
    . rw [hpnl]
      omega

theorem onFill64_of_NONE (hside : t.order.side = .NONE) : rm.onFill64 t.order t.qty = rm.onFill t.order t.qty := by
  rw [rm.onFill_NONE t.qty hside]
  unfold onFill64
  rw [hside]

theorem Funded.none {realized paid received : Int} (h : Funded rm s held realized paid received)
    (hside : t.order.side = .NONE) : Funded (rm.onFill t.order t.qty) s held realized paid received := by
  have hrm := rm.onFill_NONE t.qty hside
  have hcell : (rm.onFill t.order t.qty).cell s = rm.cell s := by rw [hrm, cell_updateEquity]
  have hpnl : (rm.onFill t.order t.qty).realizedPnl = rm.realizedPnl := by rw [hrm, realizedPnl_updateEquity]
  refine ⟨⟨?_, h.books.held_lt, ?_⟩, ?_, ?_, ?_⟩
  . rw [hcell]
    exact h.books.qty
  . rw [hcell]
    exact h.books.nonneg
  . rw [hcell]
    exact h.cost
  . rw [hcell, hpnl]
    exact h.lower
  . rw [hpnl]
    exact h.upper

theorem Trade.of_BUY (hside : t.order.side = .BUY) (held : Nat)
    : t.paid = t.order.price * t.qty ∧ t.received = 0 ∧ t.bought = t.qty ∧ t.after held = held + t.qty := by
  simp [Trade.paid, Trade.received, Trade.bought, Trade.after, hside]

theorem Trade.of_SELL (hside : t.order.side = .SELL) (held : Nat)
    : t.paid = 0 ∧ t.received = t.order.price * t.qty ∧ t.bought = 0 ∧ t.after held = held - t.qty := by
  simp [Trade.paid, Trade.received, Trade.bought, Trade.after, hside]

theorem Trade.of_NONE (hside : t.order.side = .NONE) (held : Nat)
    : t.paid = 0 ∧ t.received = 0 ∧ t.bought = 0 ∧ t.after held = held := by
  simp [Trade.paid, Trade.received, Trade.bought, Trade.after, hside]

theorem Trade.paid_nonneg (h : 0 ≤ t.order.price) : 0 ≤ t.paid := by
  unfold Trade.paid
  split
  . exact mul_nonneg h (Int.natCast_nonneg _)
  . exact le_refl 0

theorem Trade.received_nonneg (h : 0 ≤ t.order.price) : 0 ≤ t.received := by
  unfold Trade.received
  split
  . exact mul_nonneg h (Int.natCast_nonneg _)
  . exact le_refl 0

theorem sums_nonneg {trades : List Trade} (htrades : ∀ t ∈ trades, 0 ≤ t.order.price)
    : 0 ≤ spent trades ∧ 0 ≤ earned trades := by
  unfold spent earned
  induction trades with
  | nil => exact ⟨le_refl 0, le_refl 0⟩
  | cons t trades ih =>
    obtain ⟨hspends, hearns⟩ := ih (fun t' ht' => htrades t' (by simp [ht']))
    have hprice := htrades t (by simp)
    rw [List.map_cons, List.sum_cons, List.map_cons, List.sum_cons]
    exact ⟨add_nonneg (Trade.paid_nonneg hprice) hspends, add_nonneg (Trade.received_nonneg hprice) hearns⟩

theorem Funded.trade {realized paid received : Int} (h : Funded rm s held realized paid received)
    (hs : t.order.symbolId = s) (hprice : 0 ≤ t.order.price) (hcovered : t.order.side = .SELL → t.qty ≤ held)
    (hfits : held + t.bought < 2 ^ 63) (hnonneg : 0 ≤ received) (hpaid : paid + t.paid < 2 ^ 63)
    (hreceived : received + t.received < 2 ^ 63) (hlower : -2 ^ 63 ≤ realized - (paid + t.paid))
    (hupper : realized + (received + t.received) < 2 ^ 63)
    : rm.onFill64 t.order t.qty = rm.onFill t.order t.qty ∧
        Funded (rm.onFill t.order t.qty) s (t.after held) realized (paid + t.paid) (received + t.received) := by
  cases hside : t.order.side with
  | BUY =>
    obtain ⟨hpays, hgets, hbought, hafter⟩ := Trade.of_BUY hside held
    rw [hbought] at hfits
    rw [hpays] at hpaid
    rw [hpays, hgets, hafter, Int.add_zero]
    exact h.buy hs hprice hside hfits hpaid
  | SELL =>
    obtain ⟨hpays, hgets, -, hafter⟩ := Trade.of_SELL hside held
    rw [hpays, Int.add_zero] at hpaid hlower
    rw [hgets] at hreceived hupper
    rw [hpays, hgets, hafter, Int.add_zero]
    exact h.sell hs hprice hside (hcovered hside) hpaid hnonneg hreceived hlower hupper
  | NONE =>
    obtain ⟨hpays, hgets, -, hafter⟩ := Trade.of_NONE hside held
    rw [hpays, hgets, hafter, Int.add_zero, Int.add_zero]
    exact ⟨onFill64_of_NONE hside, h.none hside⟩

theorem Funded.run {realized paid received : Int} {trades : List Trade} (h : Funded rm s held realized paid received)
    (htrades : ∀ t ∈ trades, t.order.symbolId = s ∧ 0 ≤ t.order.price) (hcovered : Covered held trades)
    (hfits : held + sharesBought trades < 2 ^ 63) (hnonneg : 0 ≤ received)
    (hpaid : paid + spent trades < 2 ^ 63) (hreceived : received + earned trades < 2 ^ 63)
    (hlower : -2 ^ 63 ≤ realized - (paid + spent trades)) (hupper : realized + (received + earned trades) < 2 ^ 63)
    : rm.runTrades64 trades = rm.runTrades trades := by
  induction trades generalizing rm held paid received with
  | nil => rfl
  | cons t trades ih =>
    unfold Covered at hcovered
    obtain ⟨hs, hprice⟩ := htrades t (by simp)
    have hrest : ∀ t' ∈ trades, t'.order.symbolId = s ∧ 0 ≤ t'.order.price := fun t' ht' => htrades t' (by simp [ht'])
    obtain ⟨hspends, hearns⟩ := sums_nonneg (fun t' ht' => (hrest t' ht').2)
    have hpays := Trade.paid_nonneg hprice
    have hgets := Trade.received_nonneg hprice
    have hafter := t.after_le held
    have hbought : sharesBought (t :: trades) = t.bought + sharesBought trades := by simp [sharesBought]
    have hspent : spent (t :: trades) = t.paid + spent trades := by simp [spent]
    have hearned : earned (t :: trades) = t.received + earned trades := by simp [earned]
    rw [hbought] at hfits
    rw [hspent] at hpaid hlower
    rw [hearned] at hreceived hupper
    obtain ⟨heq, hfunded⟩ := h.trade hs hprice hcovered.1 (by omega) hnonneg (by omega) (by omega) (by omega) (by omega)
    show (rm.onFill64 t.order t.qty).runTrades64 trades = (rm.onFill t.order t.qty).runTrades trades
    rw [heq]
    exact ih hfunded hrest hcovered.2 (by omega) (by omega) (by omega) (by omega) (by omega) (by omega)

/--
A symbol that is flat before and after its trades has realized what they brought in, and beyond that at most a cent
for each share but one that was held after each purchase, if the sums of money fit.
-/
theorem realizedPnl_near (rm : RiskManager) (s : Nat) (trades : List Trade)
    (htrades : ∀ t ∈ trades, t.order.symbolId = s ∧ 0 ≤ t.order.price) (hflat : rm.position s = 0)
    (hcovered : Covered 0 trades) (hfits : sharesBought trades < 2 ^ 63) (hmoney : MoneyFits rm.realizedPnl trades)
    (hends : heldAfter 0 trades = 0)
    : let gain := (rm.runTrades64 trades).realizedPnl - rm.realizedPnl
      (rm.runTrades64 trades).position s = 0 ∧ proceeds trades ≤ gain ∧
        gain ≤ proceeds trades + roundings 0 trades := by
  intro gain
  have hbooks : Books rm s 0 := ⟨hflat, by decide, le_of_eq (Int.mul_zero _).symm⟩
  have hzero : (rm.cell s).avgCost * (0 : Nat) = 0 := Int.mul_zero _
  have hfunded : Funded rm s 0 rm.realizedPnl 0 0 := ⟨hbooks, by omega, by omega, by omega⟩
  have hsame : rm.runTrades64 trades = rm.runTrades trades := by
    have hspent := hmoney.spent
    have hearned := hmoney.earned
    have hlower := hmoney.lower
    have hupper := hmoney.upper
    exact hfunded.run htrades hcovered (by omega) (le_refl 0) (by omega) (by omega) (by omega) (by omega)
  obtain ⟨hlast, hge, hle⟩ := hbooks.run htrades hcovered (by omega)
  have hqty : (rm.cell s).qty = 0 := hflat
  have hqty' : ((rm.runTrades trades).cell s).qty = 0 := hlast.qty.trans hends
  have hgain : bookValue (rm.runTrades trades) s - bookValue rm s = gain := by
    unfold bookValue gain
    rw [hsame, hqty, hqty', Int.natCast_zero, Int.mul_zero, Int.mul_zero, Int.sub_zero, Int.sub_zero]
  rw [hgain] at hge hle
  refine ⟨?_, by omega, by omega⟩
  rw [hsame]
  exact hqty'

def order (side : OrderSide) (price : Int) (quantity : Nat) : Order where
  orderId := 1
  strategyId := 1
  symbolId := 7
  side := side
  type := .LIMIT
  price := price
  quantity := quantity
  timestamp := 0

def twelveShares : List Trade :=
  [⟨order .BUY 100 10, 10⟩, ⟨order .BUY 99 1, 1⟩, ⟨order .BUY 98 1, 1⟩, ⟨order .SELL 98 12, 12⟩]

theorem realizedPnl_near_twelveShares
    : ((init {}).runTrades64 twelveShares).position 7 = 0 ∧
        ((init {}).runTrades64 twelveShares).realizedPnl - 0 ≤ proceeds twelveShares + roundings 0 twelveShares := by
  have hmoney : MoneyFits (init {}).realizedPnl twelveShares := by
    constructor <;> decide
  have h := realizedPnl_near (init {}) 7 twelveShares (by decide) rfl (by decide) (by decide) hmoney rfl
  exact ⟨h.1, h.2.2⟩

/--
Two shares that cost nothing are sold for more than an `int64_t` can hold.
-/
def twoGifts : List Trade :=
  [⟨order .BUY 0 1, 1⟩, ⟨order .SELL (2 ^ 62) 1, 1⟩, ⟨order .BUY 0 1, 1⟩, ⟨order .SELL (2 ^ 62) 1, 1⟩]

theorem not_within_sharesBought
    : (Covered 0 twelveShares ∧ heldAfter 0 twelveShares = 0 ∧ sharesBought twelveShares = 12 ∧
        ¬ |((init {}).runTrades64 twelveShares).realizedPnl - proceeds twelveShares| ≤ sharesBought twelveShares) ∧
      Covered 0 twoGifts ∧ heldAfter 0 twoGifts = 0 ∧ sharesBought twoGifts = 2 ∧
        ¬ |((init {}).runTrades64 twoGifts).realizedPnl - proceeds twoGifts| ≤ sharesBought twoGifts := by
  -- The two purchases of a single share lose 10 and 11 cents of the cost of the whole position. The profit on the two
  -- gifts wraps around.
  decide +kernel

end RiskManager

end NebulaXTrader
