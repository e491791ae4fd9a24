import NebulaXTrader.Core.Types

/-!
This module contains the market events and the model of `ItchParser`, the pure translation of ITCH
message bodies to events.
-/

namespace NebulaXTrader

namespace MarketEvent

structure Trade where
  side : OrderSide
  price : Int
  volume : Nat
  orderRef : Nat
  deriving DecidableEq, Repr

structure Order where
  side : OrderSide := .BUY
  price : Int := 0
  shares : Nat := 0
  orderRef : Nat := 0
  newOrderRef : Nat := 0
  deriving DecidableEq, Repr

/--
The type of an event together with the member of the union that the type selects.
-/
inductive Body where
  | ADD (order : Order)
  | DELETE (order : Order)
  | CANCEL (order : Order)
  | REPLACE (order : Order)
  | TRADE (trade : Trade)
  | EXECUTE (trade : Trade)
  deriving DecidableEq, Repr

end MarketEvent

structure MarketEvent where
  seqId : Nat
  locate : Nat
  timestamp : Nat
  body : MarketEvent.Body
  deriving DecidableEq, Repr

def tradeOf (ev : MarketEvent) : Option MarketEvent.Trade :=
  match ev.body with
  | .TRADE t | .EXECUTE t => some t
  | _ => none

namespace ItchParser

/--
The big endian number in the `n` bytes at the offset `off`.
-/
def rdBytes (n : Nat) (m : List UInt8) (off : Nat) : Nat :=
  (List.range n).foldl (fun v i => v * 256 + (m.getD (off + i) 0).toNat) 0

def rdU16 := rdBytes 2

def rdU32 := rdBytes 4

def rdU64 := rdBytes 8

def rdTs := rdBytes 6

def itchToCents (itchPrice : Nat) : Int := (itchPrice / 100 : Nat)

def rdSide (m : List UInt8) : OrderSide := if m.getD 19 0 = 83 then .SELL else .BUY

def emit (m : List UInt8) (seq : Nat) (body : MarketEvent.Body) : MarketEvent where
  seqId := seq
  locate := rdU16 m 1
  timestamp := rdTs m 5
  body := body

def parseA (m : List UInt8) (seq : Nat) : Option MarketEvent :=
  if m.length < 36 then
    none
  else
    some (emit m seq (.ADD {
      side := rdSide m
      price := itchToCents (rdU32 m 32)
      shares := rdU32 m 20
      orderRef := rdU64 m 11
    }))

-- the fields that a message does not set keep the zeros of `MarketEvent ev{}`, and side 0 is `BUY`
def parseD (m : List UInt8) (seq : Nat) : Option MarketEvent :=
  if m.length < 19 then
    none
  else
    some (emit m seq (.DELETE { orderRef := rdU64 m 11 }))

def parseX (m : List UInt8) (seq : Nat) : Option MarketEvent :=
  if m.length < 23 then
    none
  else
    some (emit m seq (.CANCEL { orderRef := rdU64 m 11, shares := rdU32 m 19 }))

def parseU (m : List UInt8) (seq : Nat) : Option MarketEvent :=
  if m.length < 35 then
    none
  else
    some (emit m seq (.REPLACE {
      orderRef := rdU64 m 11
      newOrderRef := rdU64 m 19
      price := itchToCents (rdU32 m 31)
      shares := rdU32 m 27
    }))

def parseP (m : List UInt8) (seq : Nat) : Option MarketEvent :=
  if m.length < 44 then
    none
  else
    some (emit m seq (.TRADE {
      side := rdSide m
      price := itchToCents (rdU32 m 32)
      volume := rdU32 m 20
      orderRef := rdU64 m 11
    }))

def parseE (m : List UInt8) (seq : Nat) : Option MarketEvent :=
  if m.length < 31 then
    none
  else
    some (emit m seq (.EXECUTE {
      side := .NONE
      price := -1
      volume := rdU32 m 19
      orderRef := rdU64 m 11
    }))

def parseC (m : List UInt8) (seq : Nat) : Option MarketEvent :=
  if m.length < 35 then
    none
  else
    some (emit m seq (.TRADE {
      side := .NONE
      price := itchToCents (rdU32 m 27)
      volume := rdU32 m 19
      orderRef := rdU64 m 11
    }))

/--
The event that a message body produces, if any. The type letters are given by their ASCII codes.
-/
def feed (msg : List UInt8) (seq : Nat) : Option MarketEvent :=
  if msg.length < 3 then
    none
  else
    match (msg.getD 0 0).toNat with
    | 65 | 70 => parseA msg seq
    | 68 => parseD msg seq
    | 88 => parseX msg seq
    | 85 => parseU msg seq
    | 80 => parseP msg seq
    | 69 => parseE msg seq
    | 67 => parseC msg seq
    | _ => none

end ItchParser

end NebulaXTrader
