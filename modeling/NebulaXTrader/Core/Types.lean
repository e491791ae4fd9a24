import Mathlib.Algebra.Ring.Int.Defs
import Mathlib.Algebra.Ring.Nat
import Mathlib.Logic.Function.Basic

/-!
This module contains the value types that the market side and the trading side share. Prices are
fixed point integers (cents), quantities and identifiers are unsigned 64 bit words.
-/

namespace NebulaXTrader

/--
The index `UINT32_MAX`, which stands for "no slot" and "no node" in every index link.
-/
def noIdx : Nat := 4294967295

inductive OrderSide where
  | BUY
  | SELL
  | NONE
  deriving DecidableEq, Repr

def OrderSide.isBuy (side : OrderSide) : Bool := side = .BUY

inductive OrderType where
  | MARKET
  | LIMIT
  | ICEBERG
  deriving DecidableEq, Repr

structure Order where
  orderId : Nat
  strategyId : Nat
  symbolId : Nat
  side : OrderSide
  type : OrderType
  price : Int
  quantity : Nat
  timestamp : Nat
  deriving DecidableEq, Repr

structure OrderSlot where
  orderRef : Nat := 0
  side : OrderSide := .NONE
  price : Int := 0
  shares : Nat := 0
  remaining : Nat := 0
  sequence : Nat := 0
  prevIdx : Nat := noIdx
  nextIdx : Nat := noIdx
  poolNextFree : Nat := noIdx
  deriving DecidableEq, Repr

/--
The `(tag << 32) | idx` word of a Treiber stack head: the index of the first cell and a counter that
every successful exchange increments.
-/
structure TaggedHead where
  tag : Nat
  idx : Nat
  deriving DecidableEq, Repr

def TaggedHead.bump (fh : TaggedHead) (idx : Nat) : TaggedHead where
  tag := (fh.tag + 1) % 2 ^ 32
  idx := idx

end NebulaXTrader
