import NebulaXTrader.Execution.OrderManager
import NebulaXTrader.Strategy.Signal

/-!
This module contains the models of the three tick strategies that look at trades only. Each of them keeps the last
trades in deques.
-/

namespace NebulaXTrader

/--
`push_back`, and `pop_front` when the deque is longer than the window.
-/
def pushWindow {α : Type} (window : Nat) (deque : List α) (x : α) : List α :=
  let deque := deque ++ [x]
  if deque.length > window then deque.tail else deque

/--
The excess in parts of the span, at full strength for a span of 0 or less.
-/
def cappedStrength (excess span : Int) : Int :=
  if span ≤ 0 then
    Signal.kStrengthScale
  else
    let s := (excess * Signal.kStrengthScale).tdiv span
    if s > Signal.kStrengthScale then Signal.kStrengthScale else s

structure VolumeBreakoutStrategy where
  window : Nat := 100
  threshold : Nat := 5000
  vols : List Nat := []
  current : OrderSide := .NONE
  locate : Nat := 0
  lastPrice : Int := 0
  lastTs : Nat := 0
  strength : Int := 0

namespace VolumeBreakoutStrategy

def onEvent (s : VolumeBreakoutStrategy) (ev : MarketEvent) : VolumeBreakoutStrategy :=
  match tradeOf ev with
  | none => s
  | some t =>
    let vols := pushWindow s.window s.vols t.volume
    let sum := vols.sum % 2 ^ 64
    let current := if sum > s.threshold then OrderSide.BUY else .NONE
    { s with
      locate := ev.locate
      lastTs := ev.timestamp
      lastPrice := if t.price ≥ 0 then t.price else s.lastPrice
      vols := vols
      current := current
      strength :=
        if current = .BUY then
          if s.threshold = 0 then
            Signal.kStrengthScale
          else
            -- the product is one of `uint64_t`, and the quotient is cast to `int64_t`
            let str := toInt64 ((sum - s.threshold) * 10000 % 2 ^ 64 / s.threshold)
            if str > Signal.kStrengthScale then Signal.kStrengthScale else str
        else
          0 }

def signal (s : VolumeBreakoutStrategy) : Signal where
  side := s.current
  locate := s.locate
  price := s.lastPrice
  timestamp := s.lastTs
  strength := s.strength

end VolumeBreakoutStrategy

structure PriceBreakoutStrategy where
  window : Nat := 50
  prices : List Int := []
  current : OrderSide := .NONE
  locate : Nat := 0
  lastPrice : Int := 0
  lastTs : Nat := 0
  strength : Int := 0

namespace PriceBreakoutStrategy

/--
`none` where the largest price of an empty deque is dereferenced.
-/
def onEvent (s : PriceBreakoutStrategy) (ev : MarketEvent) : Option PriceBreakoutStrategy :=
  match tradeOf ev with
  | none => some s
  | some t =>
    let price := t.price
    if price < 0 then
      some s
    else
      let s := { s with locate := ev.locate, lastTs := ev.timestamp, lastPrice := price }
      let decided : Option PriceBreakoutStrategy :=
        if s.prices.length ≥ s.window then
          match s.prices.max?, s.prices.min? with
          | some hi, some lo =>
            let current := if price > hi then OrderSide.BUY else if price < lo then .SELL else .NONE
            let range := hi - lo
            some { s with
              current := current
              strength :=
                match current with
                | .BUY => cappedStrength (price - hi) range
                | .SELL => cappedStrength (lo - price) range
                | .NONE => 0 }
          | _, _ => none
        else
          some s
      decided.map (fun s => { s with prices := pushWindow s.window s.prices price })

def signal (s : PriceBreakoutStrategy) : Signal where
  side := s.current
  locate := s.locate
  price := s.lastPrice
  timestamp := s.lastTs
  strength := s.strength

end PriceBreakoutStrategy

structure TickMomentumStrategy where
  window : Nat := 20
  threshold : Int := 10
  prices : List Int := []
  vols : List Nat := []
  current : OrderSide := .NONE
  locate : Nat := 0
  lastPrice : Int := 0
  lastTs : Nat := 0
  strength : Int := 0

namespace TickMomentumStrategy

/--
The products and their sum are of `uint64_t` before they come back to `int64_t`.
-/
def sumPx (prices : List Int) (vols : List Nat) : Int :=
  toInt64 (((List.zipWith (fun (p : Int) (v : Nat) => p * v) prices vols).sum % 2 ^ 64).toNat)

def sumV (vols : List Nat) : Nat := vols.sum % 2 ^ 64

def vwap (prices : List Int) (vols : List Nat) : Int := (sumPx prices vols).tdiv (toInt64 (sumV vols))

def onEvent (s : TickMomentumStrategy) (ev : MarketEvent) : TickMomentumStrategy :=
  match tradeOf ev with
  | none => s
  | some t =>
    let price := t.price
    if price < 0 then
      s
    else
      let prices := pushWindow s.window s.prices price
      -- both deques lose their front together
      let vols := if (s.prices ++ [price]).length > s.window then (s.vols ++ [t.volume]).tail else s.vols ++ [t.volume]
      let s := { s with
        locate := ev.locate
        lastTs := ev.timestamp
        lastPrice := price
        prices := prices
        vols := vols }
      if prices.length < 2 then
        { s with current := .NONE }
      else
        let half := prices.length / 2
        if sumV (vols.take half) = 0 ∨ sumV (vols.drop half) = 0 then
          { s with current := .NONE }
        else
          let vwap1 := vwap (prices.take half) (vols.take half)
          let vwap2 := vwap (prices.drop half) (vols.drop half)
          let current :=
            if vwap2 - vwap1 > s.threshold then
              OrderSide.BUY
            else if vwap1 - vwap2 > s.threshold then
              .SELL
            else
              .NONE
          let diff := vwap2 - vwap1
          { s with
            current := current
            strength :=
              match current with
              | .BUY => cappedStrength diff s.threshold
              | .SELL => cappedStrength (-diff) s.threshold
              | .NONE => 0 }

def signal (s : TickMomentumStrategy) : Signal where
  side := s.current
  locate := s.locate
  price := s.lastPrice
  timestamp := s.lastTs
  strength := s.strength

end TickMomentumStrategy

end NebulaXTrader
