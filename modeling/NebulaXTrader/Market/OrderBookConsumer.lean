import NebulaXTrader.Book.OrderBook
import NebulaXTrader.Market.MarketEvent

/-!
This module contains the model of `OrderBookConsumer`, which applies market events to one order book per
stock locate. The order pool and the order index are shared by all books of all consumers, so they are
a separate state.
-/

namespace NebulaXTrader

structure Tick where
  timestamp : Nat := 0
  seqId : Nat := 0
  symbolId : Nat := 0
  lastPrice : Int := 0
  volume : Nat := 0
  deriving DecidableEq, Repr

structure OrderStore where
  pool : OrderPool
  index : OrderMap

structure BookSides where
  bids : PriceLevelTable PriceLevel
  asks : PriceLevelTable PriceLevel

namespace OrderBook

def ofStore (st : OrderStore) (s : BookSides) : OrderBook where
  pool := st.pool
  index := st.index
  bids := s.bids
  asks := s.asks

def store (bk : OrderBook) : OrderStore where
  pool := bk.pool
  index := bk.index

def sides (bk : OrderBook) : BookSides where
  bids := bk.bids
  asks := bk.asks

end OrderBook

def BookSides.init : BookSides where
  bids := PriceLevelTable.init true
  asks := PriceLevelTable.init false

structure OrderBookConsumer where
  books : Nat → Option BookSides
  lastTick : Tick
  hasTick : Bool
  tickSeq : Nat
  orderSeq : Nat

namespace OrderBookConsumer

def init : OrderBookConsumer where
  books _ := none
  lastTick := {}
  hasTick := false
  tickSeq := 0
  orderSeq := 0

def bookFor (c : OrderBookConsumer) (locate : Nat) : BookSides := (c.books locate).getD .init

def book (c : OrderBookConsumer) (st : OrderStore) (locate : Nat) : Option OrderBook :=
  (c.books locate).map (OrderBook.ofStore st)

def withBook (c : OrderBookConsumer) (st : OrderStore) (locate : Nat) (f : OrderBook → OrderBook)
    : OrderBookConsumer × OrderStore :=
  let bk := f (OrderBook.ofStore st (c.bookFor locate))
  ({ c with books := Function.update c.books locate (some bk.sides) }, bk.store)

def nextOrderSeq (c : OrderBookConsumer) : OrderBookConsumer :=
  { c with orderSeq := (c.orderSeq + 1) % 2 ^ 64 }

def handleAdd (c : OrderBookConsumer) (st : OrderStore) (locate : Nat) (o : MarketEvent.Order)
    : OrderBookConsumer × OrderStore :=
  let c := c.nextOrderSeq
  c.withBook st locate (fun bk => (bk.add o.orderRef o.side o.price o.shares c.orderSeq).1)

def handleDelete (c : OrderBookConsumer) (st : OrderStore) (locate : Nat) (o : MarketEvent.Order)
    : OrderBookConsumer × OrderStore :=
  c.withBook st locate (fun bk => (bk.remove o.orderRef).1)

def handleCancel (c : OrderBookConsumer) (st : OrderStore) (locate : Nat) (o : MarketEvent.Order)
    : OrderBookConsumer × OrderStore :=
  c.withBook st locate (fun bk => (bk.cancel o.orderRef o.shares).1)

/--
A replaced order keeps the side of the old one; nothing happens when the old order is unknown, except
that the book is created.
-/
def handleReplace (c : OrderBookConsumer) (st : OrderStore) (locate : Nat) (o : MarketEvent.Order)
    : OrderBookConsumer × OrderStore :=
  match (OrderBook.ofStore st (c.bookFor locate)).get o.orderRef with
  | none => c.withBook st locate id
  | some old =>
    let c := c.nextOrderSeq
    c.withBook st locate
      (fun bk =>
        (bk.replace o.orderRef o.newOrderRef old.side o.price o.shares c.orderSeq).1)

def emitTick (c : OrderBookConsumer) (ev : MarketEvent) (price : Option Int) (volume : Nat)
    : OrderBookConsumer :=
  let seq := (c.tickSeq + 1) % 2 ^ 64
  { c with
    tickSeq := seq
    lastTick := {
      timestamp := ev.timestamp
      seqId := seq
      symbolId := ev.locate
      lastPrice := price.getD c.lastTick.lastPrice
      volume := volume
    }
    hasTick := true }

def handleTrade (c : OrderBookConsumer) (st : OrderStore) (ev : MarketEvent) (t : MarketEvent.Trade)
    : OrderBookConsumer × OrderStore :=
  let (c, st) := c.withBook st ev.locate (fun bk => (bk.execute t.orderRef t.volume).1)
  (c.emitTick ev (some t.price) t.volume, st)

def handleExecute (c : OrderBookConsumer) (st : OrderStore) (ev : MarketEvent)
    (t : MarketEvent.Trade) : OrderBookConsumer × OrderStore :=
  -- the message has no price: it is looked up before the order is executed
  let price := ((OrderBook.ofStore st (c.bookFor ev.locate)).get t.orderRef).elim (-1) (·.price)
  let (c, st) := c.withBook st ev.locate (fun bk => (bk.execute t.orderRef t.volume).1)
  (c.emitTick ev (if price ≥ 0 then some price else none) t.volume, st)

def onEvent (c : OrderBookConsumer) (st : OrderStore) (ev : MarketEvent)
    : OrderBookConsumer × OrderStore :=
  match ev.body with
  | .ADD o => c.handleAdd st ev.locate o
  | .DELETE o => c.handleDelete st ev.locate o
  | .CANCEL o => c.handleCancel st ev.locate o
  | .REPLACE o => c.handleReplace st ev.locate o
  | .TRADE t => c.handleTrade st ev t
  | .EXECUTE t => c.handleExecute st ev t

end OrderBookConsumer

end NebulaXTrader
