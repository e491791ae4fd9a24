import NebulaXTrader.Execution.ExecutionEngine
import NebulaXTrader.Lib.Positional

/-!
This module contains the models of the two order protocols, `OuchOrderCodec` and `CustomOrderCodec`, as far
as orders, their reports and book queries go.
-/

namespace NebulaXTrader

open Positional (bytes word)

def bytesOfInt (n : Nat) (v : Int) : List UInt8 := bytes n (v % 256 ^ n).toNat

def field (buf : List UInt8) (off n : Nat) : List UInt8 := (buf.drop off).take n

def decimal (v : Nat) : List UInt8 :=
  (Positional.digits 10 (Nat.log 10 v + 1) v).map (fun d => UInt8.ofNat (48 + d))

def isSpace (c : UInt8) : Bool := c = 32 ∨ (9 ≤ c ∧ c ≤ 13)

def isDigit (c : UInt8) : Bool := 48 ≤ c ∧ c ≤ 57

/--
Reads the leading decimal number of a string, after white space and a sign.
-/
def strtoull (s : List UInt8) : Nat :=
  let s := s.dropWhile isSpace
  let negative := s.head? = some 45
  let s := if negative ∨ s.head? = some 43 then s.tail else s
  let v := Positional.number 10 ((s.takeWhile isDigit).map (fun c => c.toNat - 48))
  if 2 ^ 64 ≤ v then 2 ^ 64 - 1 else if negative then (2 ^ 64 - v) % 2 ^ 64 else v

/--
The parts of the interface `IOrderCodec` that an order and its executions pass through. An acknowledgement
is no part of it: only the OUCH protocol has one.
-/
structure OrderCodec where
  State : Type
  init : State
  encodeOrder : State → Order → State × List UInt8
  decodeOrder : List UInt8 → Option Order
  encodeAck : Option (State → Order → State × List UInt8)
  encodeFill : State → Nat → Nat → Int → State × List UInt8
  decodeFill : State → List UInt8 → State × Option Fill

structure BookQuote where
  symbolId : Nat := 0
  bid : Int := 0
  bidVol : Nat := 0
  ask : Int := 0
  askVol : Nat := 0
  deriving DecidableEq, Repr

/--
The tables of a codec. An exchange assigns the reference numbers, a trader learns them.
-/
structure OuchOrderCodec where
  tokenToId : List UInt8 → Option Nat := fun _ => none
  idToRef : Nat → Option Nat := fun _ => none
  refToId : Nat → Option Nat := fun _ => none
  nextRef : Nat := 1

namespace OuchOrderCodec

def kOrderMsgLen : Nat := 49

def kAckMsgLen : Nat := 39

def kExecMsgLen : Nat := 42

def kCancelMsgLen : Nat := 39

def kRejectMsgLen : Nat := 36

def kMsgOrder : UInt8 := 79

def kMsgAck : UInt8 := 65

def kMsgExec : UInt8 := 69

def kMsgCancel : UInt8 := 67

def kMsgReject : UInt8 := 74

def checksum (b : List UInt8) : UInt8 := b.foldl (· + ·) 0

/--
The last byte of a frame is the sum of all others.
-/
def sealFrame (b : List UInt8) : List UInt8 := b ++ [checksum b]

/--
The characters that "%014llu" prints, of which the buffer holds 14.
-/
def tokenFor (orderId : Nat) : List UInt8 :=
  let width := max 14 (Nat.log 10 orderId + 1)
  ((Positional.digits 10 width orderId).map (fun d => UInt8.ofNat (48 + d))).take 14

def bookFor (symbolId : Nat) : List UInt8 :=
  let book := (decimal symbolId).take 10
  book ++ List.replicate (10 - book.length) 32

def sideByte (side : OrderSide) : UInt8 := if side = .SELL then 83 else 66

def refFor (c : OuchOrderCodec) (orderId : Nat) : OuchOrderCodec × Nat :=
  match c.idToRef orderId with
  | some ref => (c, ref)
  | none =>
    ({ c with
      idToRef := Function.update c.idToRef orderId (some c.nextRef)
      nextRef := (c.nextRef + 1) % 2 ^ 64 }, c.nextRef)

def encodeOrder (c : OuchOrderCodec) (o : Order) : OuchOrderCodec × List UInt8 :=
  let token := tokenFor o.orderId
  let timeInForce : UInt8 := if o.type = .LIMIT ∨ o.type = .ICEBERG then 68 else 89
  let frame := sealFrame ([kMsgOrder] ++ token ++ [sideByte o.side] ++ bytes 4 o.quantity ++
    bookFor o.symbolId ++ bytesOfInt 4 (o.price * 100) ++ [timeInForce] ++ List.replicate 6 32 ++
    [78, 65, 78] ++ bytes 4 0)
  ({ c with tokenToId := Function.update c.tokenToId token (some o.orderId) }, frame)

def decodeOrder (buf : List UInt8) : Option Order :=
  if buf.length < kOrderMsgLen ∨ buf.getD 0 0 ≠ kMsgOrder then
    none
  else if buf.getD 48 0 ≠ checksum (buf.take (kOrderMsgLen - 1)) then
    none
  else
    some {
      orderId := strtoull (field buf 1 14)
      strategyId := 0
      symbolId := strtoull (field buf 20 10)
      side := if buf.getD 15 0 = 83 then .SELL else .BUY
      type := if buf.getD 34 0 = 68 then .LIMIT else .MARKET
      price := (word (field buf 30 4) / 100 : Nat)
      quantity := word (field buf 16 4)
      timestamp := 0
    }

def encodeAck (c : OuchOrderCodec) (o : Order) : OuchOrderCodec × List UInt8 :=
  let (c, ref) := c.refFor o.orderId
  (c, sealFrame ([kMsgAck] ++ bytes 8 ref ++ tokenFor o.orderId ++ [sideByte o.side] ++
    bytes 4 o.quantity ++ bookFor o.symbolId))

def encodeExec (c : OuchOrderCodec) (orderId filledQty : Nat) (fillPrice : Int)
    : OuchOrderCodec × List UInt8 :=
  let (c, ref) := c.refFor orderId
  (c, sealFrame ([kMsgExec] ++ bytes 8 ref ++ tokenFor orderId ++ [66] ++
    bytes 4 filledQty ++ bytesOfInt 4 (fillPrice * 100) ++
    bytes 4 filledQty ++ bytesOfInt 4 (fillPrice * 100) ++ [84]))

def encodeCancel (c : OuchOrderCodec) (orderId canceledQty : Nat) : OuchOrderCodec × List UInt8 :=
  let (c, ref) := c.refFor orderId
  (c, sealFrame ([kMsgCancel] ++ bytes 8 ref ++ tokenFor orderId ++ [66] ++ bytes 4 canceledQty ++
    List.replicate 10 32))

def encodeReject (c : OuchOrderCodec) (orderId : Nat) : OuchOrderCodec × List UInt8 :=
  let (c, ref) := c.refFor orderId
  (c, sealFrame ([kMsgReject] ++ bytes 8 ref ++ tokenFor orderId ++ [66] ++ List.replicate 11 32))

def reportKind (type : UInt8) : Option (FillType × Nat) :=
  if type = kMsgAck then some (.A, kAckMsgLen)
  else if type = kMsgExec then some (.E, kExecMsgLen)
  else if type = kMsgCancel then some (.C, kCancelMsgLen)
  else if type = kMsgReject then some (.J, kRejectMsgLen)
  else none

def decodeFill (c : OuchOrderCodec) (buf : List UInt8) : OuchOrderCodec × Option Fill :=
  match buf.head?.bind reportKind with
  | none => (c, none)
  | some (type, msgLen) =>
    if buf.length < msgLen then
      (c, none)
    else if buf.getD (msgLen - 1) 0 ≠ checksum (buf.take (msgLen - 1)) then
      (c, none)
    else
      let ref := word (field buf 1 8)
      let orderId :=
        match c.refToId ref with
        | some id => id
        | none => strtoull (field buf 9 14)
      let c :=
        if type = .A then
          { c with refToId := Function.update c.refToId ref (some orderId) }
        else
          c
      (c, some {
        type := type
        orderId := orderId
        exchangeRef := ref
        filledQty := if type = .E then word (field buf 32 4) else 0
        fillPrice := if type = .E then (word (field buf 36 4) / 100 : Nat) else 0
      })

def kBookQueryMsgLen : Nat := 13

def kBookMsgLen : Nat := 34

def kMsgBookQuery : UInt8 := 81

def kMsgBook : UInt8 := 66

def encodeBookQuery (symbolId : Nat) : List UInt8 := sealFrame ([kMsgBookQuery] ++ bookFor symbolId ++ [32])

def decodeBookQuery (buf : List UInt8) : Option Nat :=
  if buf.length < kBookQueryMsgLen ∨ buf.getD 0 0 ≠ kMsgBookQuery then
    none
  else if buf.getD 12 0 ≠ checksum (buf.take (kBookQueryMsgLen - 1)) then
    none
  else
    some (strtoull (field buf 1 10))

def encodeBook (symbolId : Nat) (bid : Int) (bidVol : Nat) (ask : Int) (askVol : Nat) : List UInt8 :=
  sealFrame ([kMsgBook] ++ bookFor symbolId ++ bytesOfInt 4 (bid * 100) ++ bytes 4 bidVol ++
    bytesOfInt 4 (ask * 100) ++ bytes 4 askVol ++ List.replicate 6 32)

def decodeBook (buf : List UInt8) : Option BookQuote :=
  if buf.length < kBookMsgLen ∨ buf.getD 0 0 ≠ kMsgBook then
    none
  else if buf.getD 33 0 ≠ checksum (buf.take (kBookMsgLen - 1)) then
    none
  else
    some {
      symbolId := strtoull (field buf 1 10)
      bid := (word (field buf 11 4) / 100 : Nat)
      bidVol := word (field buf 15 4)
      ask := (word (field buf 19 4) / 100 : Nat)
      askVol := word (field buf 23 4)
    }

def codec : OrderCodec where
  State := OuchOrderCodec
  init := {}
  encodeOrder := encodeOrder
  decodeOrder := decodeOrder
  encodeAck := some encodeAck
  encodeFill := encodeExec
  decodeFill := decodeFill

end OuchOrderCodec

namespace CustomOrderCodec

def kMsgOrder : UInt8 := 79

def kMsgFill : UInt8 := 70

def kOrderMsgLen : Nat := 42

def kFillMsgLen : Nat := 25

def encodeOrder (o : Order) : List UInt8 :=
  [kMsgOrder] ++ bytes 8 o.orderId ++ bytes 8 o.symbolId ++ [if o.side = .SELL then 1 else 0] ++
    bytesOfInt 8 o.price ++ bytes 8 o.quantity ++ bytes 8 o.timestamp

def decodeOrder (buf : List UInt8) : Option Order :=
  if buf.length < kOrderMsgLen ∨ buf.getD 0 0 ≠ kMsgOrder then
    none
  else
    some {
      orderId := word (field buf 1 8)
      strategyId := 0
      symbolId := word (field buf 9 8)
      side := if buf.getD 17 0 = 1 then .SELL else .BUY
      type := .MARKET
      price := toInt64 (word (field buf 18 8))
      quantity := word (field buf 26 8)
      timestamp := word (field buf 34 8)
    }

def encodeFill (orderId filledQty : Nat) (fillPrice : Int) : List UInt8 :=
  [kMsgFill] ++ bytes 8 orderId ++ bytes 8 filledQty ++ bytesOfInt 8 fillPrice

def decodeFill (buf : List UInt8) : Option Fill :=
  if buf.length < kFillMsgLen ∨ buf.getD 0 0 ≠ kMsgFill then
    none
  else
    some {
      type := .F
      orderId := word (field buf 1 8)
      filledQty := word (field buf 9 8)
      fillPrice := toInt64 (word (field buf 17 8))
    }

def codec : OrderCodec where
  State := Unit
  init := ()
  encodeOrder s o := (s, encodeOrder o)
  decodeOrder := decodeOrder
  encodeAck := none
  encodeFill s orderId filledQty fillPrice := (s, encodeFill orderId filledQty fillPrice)
  decodeFill s buf := (s, decodeFill buf)

end CustomOrderCodec

end NebulaXTrader
