import NebulaXTrader.Execution.OuchBuffer
import NebulaXTrader.Execution.ReportStream
import NebulaXTrader.Execution.Session
import NebulaXTrader.Net.IoUringPoller

/-!
This module contains the model of the simulated exchange and of the TCP connection between it and the trader: the bytes
on their way in both directions, which each side reads in pieces of any length.
-/

namespace NebulaXTrader

open OuchOrderCodec (kMsgOrder kOrderMsgLen kMsgCancelReq kCancelReqLen)

/--
`buf` holds what has been read of the next message. `connected` is false once the exchange has closed the connection.
-/
structure SimExchange where
  codec : OuchOrderCodec := {}
  buf : List UInt8 := []
  connected : Bool := true
  ordersReceived : Nat := 0

namespace SimExchange

def msgLen (type : UInt8) : Option Nat :=
  if type = kMsgOrder then some kOrderMsgLen else if type = kMsgCancelReq then some kCancelReqLen else none

/--
What the exchange asks `recv` for: the type of a message, then the rest of it.
-/
def wanted (x : SimExchange) : Nat :=
  match x.buf.head?.bind msgLen with
  | none => 1
  | some mlen => mlen - x.buf.length

/--
The exchange answers a complete message. An order is accepted and executed at once, in full and at its own price.
-/
def handle (x : SimExchange) (msg : List UInt8) : SimExchange × List UInt8 :=
  if msg.head? = some kMsgOrder then
    match OuchOrderCodec.decodeOrder msg with
    | none => (x, [])
    | some o =>
      let (codec, ack) := x.codec.encodeAck o
      let (codec, exec) := codec.encodeExec o.orderId o.quantity o.price
      ({ x with codec := codec, ordersReceived := x.ordersReceived + 1 }, ack ++ exec)
  else
    let (codec, cmsg) := x.codec.encodeCancel (strtoull (field msg 1 14)) 0
    ({ x with codec := codec }, cmsg)

/--
A message of unknown type makes the exchange close the connection.
-/
def recv (x : SimExchange) (chunk : List UInt8) : SimExchange × List UInt8 :=
  let buf := x.buf ++ chunk
  match buf.head?.bind msgLen with
  | none => ({ x with buf := [], connected := false }, [])
  | some mlen => if buf.length < mlen then ({ x with buf := buf }, []) else ({ x with buf := [] }).handle buf

end SimExchange

/--
The trader with its codec and its end of the connection, the bytes on their way, and the exchange. `stream` is the
buffer of the thread that receives the reports.
-/
structure OrderLink where
  ex : ExecutionEngine
  codec : OuchOrderCodec := {}
  toVenue : List UInt8 := []
  venue : SimExchange := {}
  toTrader : List UInt8 := []
  stream : List UInt8 := []

namespace OrderLink

def start (config : RiskManager.Config) (baseQty : Nat) : OrderLink where
  ex := {
    rm := RiskManager.init config
    hasSender := true
    hasCodec := true
    baseQty := baseQty
  }

/--
`exchangeRecv` and `recv` say how many bytes the call returns, `hangup` is a `recv` of the exchange that fails, and
`frame` is a round of the framing loop.
-/
inductive Action where
  | submit (env : Env) (sig : Signal) (strategyId : Nat) (type : OrderType)
  | cancel (env : Env) (orderId : Nat)
  | query (symbolId : Nat)
  | mark (symbolId : Nat) (price : Int)
  | exchangeRecv (n : Nat)
  | hangup
  | recv (n : Nat)
  | frame (env : Env)

def send (w : OrderLink) (msgs : List OrderMsg) : OrderLink :=
  match msgs with
  | [] => w
  | .O o :: msgs =>
    let (codec, buf) := w.codec.encodeOrder o
    send { w with codec := codec, toVenue := w.toVenue ++ buf } msgs
  | .X id :: msgs => send { w with toVenue := w.toVenue ++ OuchOrderCodec.cancelRequest id } msgs

/--
A quote of the book concerns the queries only.
-/
def handle (w : OrderLink) (env : Env) (o : Option ReportFrame) : OrderLink :=
  match o with
  | none => w
  | some (.book _) => w
  | some (.fill buf) =>
    match w.codec.decodeFill buf with
    | (codec, none) => { w with codec := codec }
    | (codec, some f) =>
      let (ex, msgs) := w.ex.onOrderReport env f
      send { w with codec := codec, ex := ex } msgs

/--
The buffer of the thread that receives the reports.
-/
def kRecvLen : Nat := 2048

/--
The `recv` of the trader reads up to `BUF_SIZE` bytes, and passes on what fits into the buffer of its caller.
-/
def step (w : OrderLink) (a : Action) : Option OrderLink :=
  match a with
  | .submit env sig strategyId type =>
    let (ex, _, msgs) := w.ex.submitSignal env sig strategyId type
    some (send { w with ex := ex } msgs)
  | .cancel env orderId =>
    let (ex, _, msgs) := w.ex.cancelOrder env orderId
    some (send { w with ex := ex } msgs)
  | .query symbolId => some { w with toVenue := w.toVenue ++ OuchOrderCodec.encodeBookQuery symbolId }
  | .mark symbolId price => some { w with ex := { w.ex with rm := w.ex.rm.mark symbolId price } }
  | .exchangeRecv n =>
    if w.venue.connected ∧ 0 < n ∧ n ≤ w.venue.wanted ∧ n ≤ w.toVenue.length then
      let (venue, reports) := w.venue.recv (w.toVenue.take n)
      some { w with toVenue := w.toVenue.drop n, venue := venue, toTrader := w.toTrader ++ reports }
    else
      none
  | .hangup =>
    if w.venue.connected then some { w with venue := { w.venue with buf := [], connected := false } } else none
  | .recv n =>
    if ReportStream.next w.stream = none ∧ 0 < n ∧ n ≤ IoUringPoller.BUF_SIZE ∧ n ≤ w.toTrader.length then
      some { w with toTrader := w.toTrader.drop n, stream := w.stream ++ (w.toTrader.take n).take kRecvLen }
    else
      none
  | .frame env =>
    match ReportStream.next w.stream with
    | none => none
    | some (o, stream) => some (({ w with stream := stream }).handle env o)

end OrderLink

end NebulaXTrader
