import NebulaXTrader.Book.OrderBook

/-!
This module contains the ledger, the book without its pointers: the orders are stored under their
references and a level only knows the number and the total quantity of its orders. It computes exactly
what the book answers, because no answer depends on slot numbers or list links.
-/

namespace NebulaXTrader

structure LevelQty where
  count : Nat
  totalQty : Nat
  deriving DecidableEq, Repr

instance : Inhabited LevelQty := ⟨{ count := 0, totalQty := 0 }⟩

def PriceLevel.qty (lvl : PriceLevel) : LevelQty where
  count := lvl.count
  totalQty := lvl.totalQty

namespace PriceLevelTable

def Slot.map {β γ : Type} (f : β → γ) (s : Slot β) : Slot γ where
  price := s.price
  lvl := f s.lvl

def mapLvl {β γ : Type} (f : β → γ) (t : PriceLevelTable β) : PriceLevelTable γ where
  isBid := t.isBid
  best := t.best
  slots i := (t.slots i).map f
  cap := t.cap
  count := t.count

def enter (t : PriceLevelTable LevelQty) (price : Int) (shares : Nat) : PriceLevelTable LevelQty :=
  let (t, i) := t.access price
  t.modifyLvl i (fun q => { count := add32 q.count 1, totalQty := add32 q.totalQty shares })

def leave (t : PriceLevelTable LevelQty) (price : Int) (shares : Nat) : PriceLevelTable LevelQty :=
  let (t, i) := t.access price
  let q := (t.slots i).lvl
  let q : LevelQty := { count := sub32 q.count 1, totalQty := sub32 q.totalQty shares }
  let t := t.modifyLvl i (fun _ => q)
  if q.count = 0 then t.erase price else t

def decLevelQty (t : PriceLevelTable LevelQty) (price : Int) (shares : Nat)
    : PriceLevelTable LevelQty :=
  let (t, i) := t.access price
  let t := t.modifyLvl i (fun q => { q with totalQty := sub32 q.totalQty shares })
  if (t.slots i).lvl.totalQty = 0 then t.erase price else t

end PriceLevelTable

structure Ledger.Sides where
  bids : PriceLevelTable LevelQty
  asks : PriceLevelTable LevelQty

structure Ledger where
  orders : Nat → Option OrderSlotView
  sides : Ledger.Sides

namespace Ledger

def Sides.init : Sides where
  bids := PriceLevelTable.init true
  asks := PriceLevelTable.init false

def Sides.table (s : Sides) (side : OrderSide) : PriceLevelTable LevelQty :=
  if side = .BUY then s.bids else s.asks

def Sides.setTable (s : Sides) (side : OrderSide) (t : PriceLevelTable LevelQty) : Sides :=
  if side = .BUY then { s with bids := t } else { s with asks := t }

def Sides.enter (s : Sides) (side : OrderSide) (price : Int) (shares : Nat) : Sides :=
  s.setTable side ((s.table side).enter price shares)

def Sides.leave (s : Sides) (side : OrderSide) (price : Int) (shares : Nat) : Sides :=
  s.setTable side ((s.table side).leave price shares)

def Sides.decLevelQty (s : Sides) (side : OrderSide) (price : Int) (shares : Nat) : Sides :=
  s.setTable side ((s.table side).decLevelQty price shares)

def add (lg : Ledger) (orderRef : Nat) (side : OrderSide) (price : Int) (shares sequence : Nat)
    : Ledger where
  orders :=
    Function.update lg.orders orderRef (some
      { orderRef := orderRef
        side := side
        price := price
        shares := shares
        remaining := shares
        sequence := sequence })
  sides := lg.sides.enter side price shares

def remove (lg : Ledger) (orderRef : Nat) : Ledger :=
  match lg.orders orderRef with
  | none => lg
  | some v =>
    { orders := Function.update lg.orders orderRef none
      sides := lg.sides.leave v.side v.price v.shares }

def reduce (lg : Ledger) (orderRef shares : Nat) : Ledger :=
  match lg.orders orderRef with
  | none => lg
  | some v =>
    let shares := if shares > v.remaining then v.remaining else shares
    let v := { v with remaining := v.remaining - shares }
    let lg : Ledger :=
      { orders := Function.update lg.orders orderRef (some v)
        sides := lg.sides.decLevelQty v.side v.price shares }
    if v.remaining = 0 then lg.remove orderRef else lg

def replace (lg : Ledger) (oldRef newRef : Nat) (side : OrderSide) (newPrice : Int)
    (newShares newSequence : Nat) : Ledger :=
  match lg.orders oldRef with
  | none => lg
  | some v =>
    let seq := if newSequence ≠ 0 then newSequence else v.sequence
    (lg.remove oldRef).add newRef side newPrice newShares seq

def Sides.bestBid (s : Sides) : Int := if s.bids.isEmpty then -1 else s.bids.best

def Sides.bestAsk (s : Sides) : Int := if s.asks.isEmpty then -1 else s.asks.best

def Sides.bidVolumeAt (s : Sides) (price : Int) : Nat :=
  match s.bids.find price with
  | some q => q.totalQty
  | none => 0

def Sides.askVolumeAt (s : Sides) (price : Int) : Nat :=
  match s.asks.find price with
  | some q => q.totalQty
  | none => 0

def Sides.bestBidVolume (s : Sides) : Nat := s.bids.bestQty (·.totalQty)

def Sides.bestAskVolume (s : Sides) : Nat := s.asks.bestQty (·.totalQty)

end Ledger

end NebulaXTrader
