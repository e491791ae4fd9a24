import NebulaXTrader.Benchmark.Termination
import NebulaXTrader.Net.IoUringPoller

/-!
This module contains the model of a replay: the client that sends the packets of a file, the socket between the two
processes, and the main and the receiving thread of the trader. The processes wait for each other by the counters that
they share.
-/

namespace NebulaXTrader

open IoUringPoller (BUF_SIZE)

namespace FlowControl

inductive MainPc where
  | startReceiver
  | storeReady
  | loadDone
  | loadReceived
  | loadSent (received : Nat)
  | storeStop
  | joinRecv
  | stopped
  deriving DecidableEq, Repr

/--
`feed` holds the messages of the packet that are not in the byte ring yet.
-/
inductive RecvPc where
  | loadStop
  | recv
  | fetchAdd (packet : List UInt8)
  | feed (messages : List (List UInt8))
  | finished
  deriving DecidableEq, Repr

/--
The labels up to `storeDone` are those of the client, with what `rand` and `sendto` return. `fails` is a call of `recv`
that returns without a packet.
-/
inductive Label where
  | loadReady
  | run
  | rand (r : UInt64)
  | loadReceived
  | sendto (r : Int)
  | fetchAdd
  | storeDone
  | main
  | recv
  | fails
  deriving DecidableEq, Repr

end FlowControl

/--
The counter `sent` is a variable of the loop of the client, `ret` what `sendto` has returned until it is counted.
`network` are the datagrams that the socket of the trader holds. `accepted` are all that `sendto` has taken, `handed`
all that `feed` has got. The byte ring, which gets what is `pushed`, has room for all of it.
-/
structure FlowControl where
  ready : Bool := false
  received : Nat := 0
  done : Bool := false
  waiting : Bool := true
  client : PackingLoop := .start
  ret : Option Int := none
  bound : Bool := false
  network : List (List UInt8) := []
  dropped : List (List UInt8) := []
  accepted : List (List UInt8) := []
  stop : Bool := false
  handed : List (List UInt8) := []
  pushed : List (List UInt8) := []
  main : FlowControl.MainPc := .startReceiver
  recv : FlowControl.RecvPc := .loadStop

namespace FlowControl

def start : FlowControl := {}

variable (cfg : PackingLoop.Config) (capacity : Nat) (s : FlowControl)

/--
A step of the loop of the client that does nothing outside it.
-/
def move (l : PackingLoop.Label) : Option FlowControl :=
  match PackingLoop.step cfg s.client l with
  | some client => some { s with client := client }
  | none => none

/--
The kernel drops a datagram for which there is no socket yet or no space.
-/
def sendto (r : Int) : FlowControl :=
  if 0 < r then
    if s.bound ∧ s.network.length < capacity then
      { s with ret := some r, accepted := s.accepted ++ [s.client.pkt], network := s.network ++ [s.client.pkt] }
    else
      { s with ret := some r, accepted := s.accepted ++ [s.client.pkt], dropped := s.dropped ++ [s.client.pkt] }
  else
    { s with ret := some r }

def stepMain : Option FlowControl :=
  match s.main with
  | .startReceiver => some { s with bound := true, main := .storeReady }
  | .storeReady => some { s with ready := true, main := .loadDone }
  | .loadDone => some { s with main := if s.done then .loadReceived else .loadDone }
  | .loadReceived => some { s with main := .loadSent s.received }
  | .loadSent received => some { s with main := if received < s.client.sent then .loadReceived else .storeStop }
  | .storeStop => some { s with stop := true, main := .joinRecv }
  | .joinRecv => if s.recv = .finished then some { s with main := .stopped } else none
  | .stopped => none

/--
The kernel writes the datagram into a buffer of `BUF_SIZE` bytes and cuts off the rest.
-/
def stepRecv : Option FlowControl :=
  match s.recv with
  | .loadStop => some { s with recv := if s.stop then .finished else .recv }
  | .recv =>
    match s.network with
    | [] => none
    | datagram :: network =>
      let packet := datagram.take BUF_SIZE
      some { s with network := network, recv := if packet.length > 0 then .fetchAdd packet else .finished }
  | .fetchAdd packet =>
    some { s with
      received := s.received + 1
      handed := s.handed ++ [packet]
      recv := .feed (MoldUdpUnpacker.feed packet).1 }
  | .feed [] => some { s with recv := .loadStop }
  | .feed (m :: messages) => some { s with pushed := s.pushed ++ [m], recv := .feed messages }
  | .finished => none

def step (l : Label) : Option FlowControl :=
  match l with
  | .loadReady => if s.waiting then some { s with waiting := !s.ready } else none
  | .run => if s.waiting then none else s.move cfg .run
  | .rand r => if s.waiting then none else s.move cfg (.rand r)
  | .loadReceived => s.move cfg (.load s.received)
  | .sendto r => if s.client.pc = .send ∧ s.ret = none then some (s.sendto capacity r) else none
  | .fetchAdd =>
    match s.ret with
    | some r => ({ s with ret := none }).move cfg (.sendto r)
    | none => none
  | .storeDone => if s.client.pc = .done then some { s with done := true } else none
  | .main => s.stepMain
  | .recv => s.stepRecv
  | .fails => if s.recv = .recv then some { s with recv := .finished } else none

end FlowControl

end NebulaXTrader
