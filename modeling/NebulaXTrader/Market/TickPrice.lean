import Mathlib.Data.List.Induction
import NebulaXTrader.Lib.Run
import NebulaXTrader.Market.OrderBookConsumer

/-!
This module contains the history of the ticks that a consumer publishes, and the theorem when each of them carries a
price of its own symbol.
-/

namespace NebulaXTrader

/--
A consumer with the symbol and the price of every tick it has published, the newest first.
-/
structure Publisher where
  consumer : OrderBookConsumer
  store : OrderStore
  published : List (Nat × Int)

namespace Publisher

def init (pool index : Nat) : Publisher where
  consumer := OrderBookConsumer.init
  store := { pool := OrderPool.init pool, index := OrderMap.init index }
  published := []

def step (s : Publisher) (ev : MarketEvent) : Publisher :=
  let (c, st) := s.consumer.onEvent s.store ev
  let tick := (ev.locate, c.lastTick.lastPrice)
  { consumer := c
    store := st
    published := if (tradeOf ev).isSome then tick :: s.published else s.published }

def run (pool index : Nat) (events : List MarketEvent) : Publisher := events.foldl step (init pool index)

/--
The last price of any symbol. It is 0 before the first tick.
-/
def lastPrice (l : List (Nat × Int)) : Int := (l.head?.map (fun p => p.2)).getD 0

def lastPriceOf (l : List (Nat × Int)) (locate : Nat) : Int :=
  lastPrice (l.filter (fun p => p.1 = locate))

/--
The resting price of the order that is executed, when it is live.
-/
def resting (s : Publisher) (ev : MarketEvent) (t : MarketEvent.Trade) : Option Int :=
  ((OrderBook.ofStore s.store (s.consumer.bookFor ev.locate)).get t.orderRef).map (fun v => v.price)

def expected (s : Publisher) (ev : MarketEvent) (t : MarketEvent.Trade) : Int :=
  match ev.body with
  | .TRADE _ => t.price
  | _ => (s.resting ev t).getD (lastPriceOf s.published ev.locate)

structure Ticked (s : Publisher) (ev : MarketEvent) (t : MarketEvent.Trade) : Prop where
  hasTick : (s.step ev).consumer.hasTick
  symbolId : (s.step ev).consumer.lastTick.symbolId = ev.locate
  volume : (s.step ev).consumer.lastTick.volume = t.volume
  timestamp : (s.step ev).consumer.lastTick.timestamp = ev.timestamp
  lastPrice : (s.step ev).consumer.lastTick.lastPrice = s.expected ev t

/--
The price that the record still holds is the one that is missing.
-/
def Sourced (s : Publisher) (ev : MarketEvent) : Prop :=
  ∀ t, ev.body = .EXECUTE t →
    match s.resting ev t with
    | some price => 0 ≤ price ∨ lastPrice s.published = price
    | none => lastPrice s.published = lastPriceOf s.published ev.locate

def Recorded (s : Publisher) : Prop := s.consumer.lastTick.lastPrice = lastPrice s.published

variable {s : Publisher} {ev : MarketEvent} {t : MarketEvent.Trade}

theorem onEvent_lastTick (c : OrderBookConsumer) (st : OrderStore) (h : tradeOf ev = none)
    : (c.onEvent st ev).1.lastTick = c.lastTick := by
  unfold tradeOf at h
  unfold OrderBookConsumer.onEvent
  split
  . rfl
  . rfl
  . rfl
  . unfold OrderBookConsumer.handleReplace
    split
    . rfl
    . rfl
  . next hbody =>
    rw [hbody] at h
    cases h
  . next hbody =>
    rw [hbody] at h
    cases h

theorem Recorded.step (h : Recorded s) (ev : MarketEvent) : Recorded (s.step ev) := by
  unfold Recorded Publisher.step
  dsimp only
  cases hex : tradeOf ev with
  | none => exact (congrArg Tick.lastPrice (onEvent_lastTick s.consumer s.store hex)).trans h
  | some t => rfl

theorem Recorded.run (pool index : Nat) (events : List MarketEvent) : Recorded (run pool index events) := by
  induction events using List.reverseRecOn with
  | nil => rfl
  | append_singleton events ev ih =>
    unfold Publisher.run at ih ⊢
    rw [List.foldl_append]
    exact ih.step ev

theorem trade_ticked (hbody : ev.body = .TRADE t) : s.Ticked ev t := by
  have hstep : (s.step ev).consumer = (s.consumer.handleTrade s.store ev t).1 := by
    unfold Publisher.step OrderBookConsumer.onEvent
    rw [hbody]
  have hexpected : s.expected ev t = t.price := by
    unfold expected
    rw [hbody]
  constructor
  . rw [hstep]
    rfl
  . rw [hstep]
    rfl
  . rw [hstep]
    rfl
  . rw [hstep]
    rfl
  . rw [hstep, hexpected]
    rfl

theorem execute_consumer (hbody : ev.body = .EXECUTE t)
    : (s.step ev).consumer = (s.consumer.handleExecute s.store ev t).1 := by
  unfold Publisher.step OrderBookConsumer.onEvent
  rw [hbody]

theorem execute_lastPrice (h : Recorded s) (hbody : ev.body = .EXECUTE t)
    : (s.step ev).consumer.lastTick.lastPrice =
        match s.resting ev t with
        | some price => if 0 ≤ price then price else lastPrice s.published
        | none => lastPrice s.published := by
  have hstep := execute_consumer (s := s) hbody
  rw [hstep]
  unfold OrderBookConsumer.handleExecute resting
  cases (OrderBook.ofStore s.store (s.consumer.bookFor ev.locate)).get t.orderRef with
  | none => exact h
  | some v =>
    show Option.getD (if v.price ≥ 0 then some v.price else none) s.consumer.lastTick.lastPrice =
      if 0 ≤ v.price then v.price else lastPrice s.published
    by_cases hprice : 0 ≤ v.price
    . rw [if_pos hprice, if_pos hprice]
      rfl
    . rw [if_neg hprice, if_neg hprice]
      exact h

theorem execute_ticked (h : Recorded s) (hbody : ev.body = .EXECUTE t) : s.Ticked ev t ↔ s.Sourced ev := by
  have hstep := execute_consumer (s := s) hbody
  have hticked : s.Ticked ev t ↔ (s.step ev).consumer.lastTick.lastPrice = s.expected ev t := by
    constructor
    . intro hall
      exact hall.lastPrice
    . intro hprice
      constructor
      . rw [hstep]
        rfl
      . rw [hstep]
        rfl
      . rw [hstep]
        rfl
      . rw [hstep]
        rfl
      . exact hprice
  have hsourced : s.Sourced ev ↔
      match s.resting ev t with
      | some price => 0 ≤ price ∨ lastPrice s.published = price
      | none => lastPrice s.published = lastPriceOf s.published ev.locate := by
    constructor
    . intro hall
      exact hall t hbody
    . intro hone t' hbody'
      rw [hbody] at hbody'
      cases hbody'
      exact hone
  have hexpected : s.expected ev t = (s.resting ev t).getD (lastPriceOf s.published ev.locate) := by
    unfold expected
    rw [hbody]
  rw [hticked, hsourced, hexpected, execute_lastPrice h hbody]
  cases s.resting ev t with
  | none => exact Iff.rfl
  | some price =>
    show (if 0 ≤ price then price else lastPrice s.published) = price ↔ _
    by_cases hprice : 0 ≤ price
    . simp [hprice]
    . simp [hprice]

/--
What holds of the tick after an event, when the event is a trade.
-/
def Published (s : Publisher) (ev : MarketEvent) : Prop := ∀ t, tradeOf ev = some t → s.Ticked ev t

theorem tradeOf_cases (h : tradeOf ev = some t) : ev.body = .TRADE t ∨ ev.body = .EXECUTE t := by
  unfold tradeOf at h
  split at h
  . next hbody =>
    cases h
    exact .inl hbody
  . next hbody =>
    cases h
    exact .inr hbody
  . cases h

theorem published_iff (h : Recorded s) (ev : MarketEvent) : s.Published ev ↔ s.Sourced ev := by
  constructor
  . intro hall t hbody
    have hex : tradeOf ev = some t := by
      unfold tradeOf
      rw [hbody]
    exact (execute_ticked h hbody).1 (hall t hex) t hbody
  . intro hsourced t hex
    cases tradeOf_cases hex with
    | inl hbody => exact trade_ticked hbody
    | inr hbody => exact (execute_ticked h hbody).2 hsourced

/--
Every trade of a sequence of events gives a tick with a price of its own symbol exactly if no execution meets an order
that is unknown, or has a negative price, while the last tick has another price.
-/
theorem tick_of_own_symbol (pool index : Nat) (events : List MarketEvent)
    : (∀ pre ev, pre ++ [ev] <+: events → (run pool index pre).Published ev) ↔
        Run.Along (fun s ev => some (step s ev)) Sourced (init pool index) events := by
  rw [Run.along_iff_prefix]
  constructor
  . intro h pre ev hpre
    exact (published_iff (Recorded.run pool index pre) ev).1 (h pre ev hpre)
  . intro h pre ev hpre
    exact (published_iff (Recorded.run pool index pre) ev).2 (h pre ev hpre)

def traded (locate : Nat) (price : Int) : MarketEvent where
  seqId := 1
  locate := locate
  timestamp := 1
  body := .TRADE { side := .NONE, price := price, volume := 10, orderRef := 1 }

def executed (locate : Nat) : MarketEvent where
  seqId := 3
  locate := locate
  timestamp := 3
  body := .EXECUTE { side := .NONE, price := -1, volume := 5, orderRef := 9 }

/--
Symbol 2 trades at 200 and symbol 1 at 100. The execution of an order of symbol 2 that was never added gives a tick of
symbol 2 at 100.
-/
theorem not_tick_of_own_symbol :
    let s := run 4 4 [traded 2 200, traded 1 100]
    (s.step (executed 2)).consumer.lastTick = ⟨3, 3, 2, 100, 5⟩ ∧ lastPriceOf s.published 2 = 200 ∧
      ¬ s.Published (executed 2) := by
  intro s
  have htick : (s.step (executed 2)).consumer.lastTick = ⟨3, 3, 2, 100, 5⟩ := by decide +kernel
  have hexpected : s.expected (executed 2) ⟨.NONE, -1, 5, 9⟩ = 200 := by decide +kernel
  refine ⟨htick, by decide +kernel, ?_⟩
  intro h
  have hprice := (h ⟨.NONE, -1, 5, 9⟩ rfl).lastPrice
  rw [htick, hexpected] at hprice
  cases hprice

end Publisher

end NebulaXTrader
