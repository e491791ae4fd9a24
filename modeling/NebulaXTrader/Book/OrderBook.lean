import NebulaXTrader.Book.OrderPool
import NebulaXTrader.Book.OrderMap
import NebulaXTrader.Book.PriceLevelTable

/-!
This module contains the model of `OrderBook`: the book of one symbol, which keeps its own price levels
and stores its orders in an order pool and an order index that all books share.
-/

namespace NebulaXTrader

/--
A price level: the intrusive list of its orders, their number and their total quantity, both 32 bit.
-/
structure PriceLevel where
  headIdx : Nat := noIdx
  tailIdx : Nat := noIdx
  count : Nat := 0
  totalQty : Nat := 0
  deriving DecidableEq, Repr

structure OrderSlotView where
  orderRef : Nat
  side : OrderSide
  price : Int
  shares : Nat
  remaining : Nat
  sequence : Nat
  deriving DecidableEq, Repr

def OrderSlot.view (s : OrderSlot) : OrderSlotView where
  orderRef := s.orderRef
  side := s.side
  price := s.price
  shares := s.shares
  remaining := s.remaining
  sequence := s.sequence

def add32 (a b : Nat) : Nat := (a + b) % 2 ^ 32

def sub32 (a b : Nat) : Nat := (a + (2 ^ 32 - b % 2 ^ 32)) % 2 ^ 32

structure OrderBook where
  pool : OrderPool
  index : OrderMap
  bids : PriceLevelTable PriceLevel
  asks : PriceLevelTable PriceLevel

namespace OrderBook

instance : Inhabited PriceLevel := ⟨{}⟩

def init (pool : OrderPool) (index : OrderMap) : OrderBook where
  pool := pool
  index := index
  bids := PriceLevelTable.init true
  asks := PriceLevelTable.init false

def table (bk : OrderBook) (side : OrderSide) : PriceLevelTable PriceLevel :=
  if side = .BUY then bk.bids else bk.asks

def setTable (bk : OrderBook) (side : OrderSide) (t : PriceLevelTable PriceLevel) : OrderBook :=
  if side = .BUY then { bk with bids := t } else { bk with asks := t }

def linkFront (pool : OrderPool) (lvl : PriceLevel) (idx : Nat) : OrderPool :=
  if lvl.headIdx ≠ noIdx then
    (pool.modify lvl.headIdx (fun s => { s with prevIdx := idx })).modify idx
      (fun s => { s with nextIdx := lvl.headIdx })
  else
    pool

def add (bk : OrderBook) (orderRef : Nat) (side : OrderSide) (price : Int) (shares sequence : Nat)
    : OrderBook × Nat :=
  match bk.pool.allocate with
  | none => (bk, noIdx)
  | some (idx, pool) =>
    let pool := pool.modify idx (fun s =>
      { s with
        orderRef := orderRef
        side := side
        price := price
        shares := shares
        remaining := shares
        sequence := sequence
        prevIdx := noIdx
        nextIdx := noIdx })
    let (t, i) := (bk.table side).access price
    let pool := linkFront pool (t.slots i).lvl idx
    let t := t.modifyLvl i (fun lvl =>
      { headIdx := idx
        tailIdx := if lvl.tailIdx = noIdx then idx else lvl.tailIdx
        count := add32 lvl.count 1
        totalQty := add32 lvl.totalQty shares })
    let index := bk.index.insert orderRef idx
    ({ bk with pool := pool, index := index }.setTable side t, idx)

def unlinkSlot (pool : OrderPool) (lvl : PriceLevel) (idx : Nat) : OrderPool × PriceLevel :=
  let s := pool.storage idx
  let (pool, lvl) :=
    if s.prevIdx ≠ noIdx then
      (pool.modify s.prevIdx (fun p => { p with nextIdx := s.nextIdx }), lvl)
    else
      (pool, { lvl with headIdx := s.nextIdx })
  let s := pool.storage idx
  if s.nextIdx ≠ noIdx then
    (pool.modify s.nextIdx (fun n => { n with prevIdx := s.prevIdx }), lvl)
  else
    (pool, { lvl with tailIdx := s.prevIdx })

def unlinkAndFree (bk : OrderBook) (idx : Nat) : OrderBook :=
  let s := bk.pool.storage idx
  let (t, i) := (bk.table s.side).access s.price
  let (pool, lvl) := unlinkSlot bk.pool (t.slots i).lvl idx
  let lvl := { lvl with count := sub32 lvl.count 1, totalQty := sub32 lvl.totalQty s.shares }
  let t := t.modifyLvl i (fun _ => lvl)
  let t := if lvl.count = 0 then t.erase s.price else t
  { bk with pool := pool.deallocate idx }.setTable s.side t

def decLevelQty (bk : OrderBook) (side : OrderSide) (price : Int) (shares : Nat) : OrderBook :=
  let (t, i) := (bk.table side).access price
  let t := t.modifyLvl i (fun lvl => { lvl with totalQty := sub32 lvl.totalQty shares })
  let t := if (t.slots i).lvl.totalQty = 0 then t.erase price else t
  bk.setTable side t

def remove (bk : OrderBook) (orderRef : Nat) : OrderBook × Bool :=
  match bk.index.find orderRef with
  | none => (bk, false)
  | some s =>
    let bk := bk.unlinkAndFree s
    ({ bk with index := bk.index.erase orderRef }, true)

def reduce (bk : OrderBook) (orderRef shares : Nat) : OrderBook × Bool :=
  match bk.index.find orderRef with
  | none => (bk, false)
  | some s =>
    let slot := bk.pool.storage s
    let shares := if shares > slot.remaining then slot.remaining else shares
    let bk := { bk with
      pool := bk.pool.modify s (fun slot => { slot with remaining := slot.remaining - shares }) }
    let bk := bk.decLevelQty slot.side slot.price shares
    if (bk.pool.storage s).remaining = 0 then
      let bk := bk.unlinkAndFree s
      ({ bk with index := bk.index.erase orderRef }, true)
    else
      (bk, true)

def cancel (bk : OrderBook) (orderRef cancelledShares : Nat) : OrderBook × Bool :=
  bk.reduce orderRef cancelledShares

def execute (bk : OrderBook) (orderRef executedShares : Nat) : OrderBook × Bool :=
  bk.reduce orderRef executedShares

def replace (bk : OrderBook) (oldRef newRef : Nat) (side : OrderSide) (newPrice : Int)
    (newShares newSequence : Nat) : OrderBook × Bool :=
  match bk.index.find oldRef with
  | none => (bk, false)
  | some s =>
    let seq := if newSequence ≠ 0 then newSequence else (bk.pool.storage s).sequence
    let (bk, _) := bk.remove oldRef
    let (bk, idx) := bk.add newRef side newPrice newShares seq
    (bk, idx ≠ noIdx)

def get (bk : OrderBook) (orderRef : Nat) : Option OrderSlotView :=
  (bk.index.find orderRef).map (fun s => (bk.pool.storage s).view)

def sideOf (bk : OrderBook) (orderRef : Nat) : OrderSide :=
  match bk.index.find orderRef with
  | some s => (bk.pool.storage s).side
  | none => .NONE

def bestBid (bk : OrderBook) : Int := if bk.bids.isEmpty then -1 else bk.bids.best

def bestAsk (bk : OrderBook) : Int := if bk.asks.isEmpty then -1 else bk.asks.best

def bidVolumeAt (bk : OrderBook) (price : Int) : Nat :=
  match bk.bids.find price with
  | some lvl => lvl.totalQty
  | none => 0

def askVolumeAt (bk : OrderBook) (price : Int) : Nat :=
  match bk.asks.find price with
  | some lvl => lvl.totalQty
  | none => 0

def bestBidVolume (bk : OrderBook) : Nat := bk.bids.bestQty (·.totalQty)

def bestAskVolume (bk : OrderBook) : Nat := bk.asks.bestQty (·.totalQty)

def bidLevels (bk : OrderBook) : Nat := bk.bids.size

def askLevels (bk : OrderBook) : Nat := bk.asks.size

def poolUsage (bk : OrderBook) : Nat := bk.pool.size

end OrderBook

end NebulaXTrader
