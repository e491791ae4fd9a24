/-!
This module contains the model of `KLineAggregator`, which turns trades into bars by time or by number.
-/

namespace NebulaXTrader

/--
What the aggregator reads of a trade.
-/
structure BarTrade where
  locate : Nat
  timestamp : Nat
  price : Int
  volume : UInt64
  deriving DecidableEq, Repr

structure KLine where
  symbolId : Nat := 0
  timestamp : Nat := 0
  openPrice : Int := 0
  high : Int := 0
  low : Int := 0
  close : Int := 0
  volume : UInt64 := 0
  deriving DecidableEq, Repr

inductive KLineAggregator.Mode where
  | TIME
  | COUNT
  deriving DecidableEq, Repr

/--
`emitted` are the bars that went to the sink.
-/
structure KLineAggregator where
  mode : KLineAggregator.Mode
  windowNs : Nat := 0
  tickCount : Nat := 20
  cur : KLine := {}
  curWinStart : Nat := 0
  curTickCnt : Nat := 0
  emitted : List KLine := []
  deriving DecidableEq, Repr

namespace KLineAggregator

def byTime (windowNs : Nat) : KLineAggregator where
  mode := .TIME
  windowNs := windowNs

def byCount (tickCount : Nat) : KLineAggregator where
  mode := .COUNT
  tickCount := tickCount

def push (s : KLineAggregator) : KLineAggregator := { s with emitted := s.emitted ++ [s.cur] }

def startNew (s : KLineAggregator) (ev : BarTrade) (ts : Nat) : KLineAggregator :=
  { s with
    cur := {
      symbolId := ev.locate
      timestamp := ts
      openPrice := ev.price
      high := ev.price
      low := ev.price
      close := ev.price
      volume := ev.volume
    } }

def extend (s : KLineAggregator) (ev : BarTrade) (price : Int) : KLineAggregator :=
  { s with
    cur := { s.cur with
      close := price
      high := if price > s.cur.high then price else s.cur.high
      low := if price < s.cur.low then price else s.cur.low
      volume := s.cur.volume + ev.volume } }

def onTrade (s : KLineAggregator) (ev : BarTrade) : KLineAggregator :=
  let price := ev.price
  if price < 0 then
    s
  else
    match s.mode with
    | .TIME =>
      let winStart := ev.timestamp / s.windowNs * s.windowNs
      if s.cur.symbolId = 0 ∨ winStart ≠ s.curWinStart then
        let s := if s.cur.symbolId ≠ 0 then s.push else s
        { s.startNew ev winStart with curWinStart := winStart }
      else
        s.extend ev price
    | .COUNT =>
      if s.cur.symbolId = 0 then
        { s.startNew ev ev.timestamp with curTickCnt := 1 }
      else if s.curTickCnt ≥ s.tickCount then
        { s.push.startNew ev ev.timestamp with curTickCnt := 1 }
      else
        { s.extend ev price with curTickCnt := s.curTickCnt + 1 }

def flush (s : KLineAggregator) : KLineAggregator :=
  let s := if s.cur.symbolId ≠ 0 then s.push else s
  { s with cur := {}, curWinStart := 0, curTickCnt := 0 }

/--
The bars of a stream of trades, with a flush at its end.
-/
def bars (s : KLineAggregator) (trades : List BarTrade) : List KLine := (trades.foldl onTrade s).flush.emitted

end KLineAggregator

end NebulaXTrader
