import NebulaXTrader.Market.Drain

/-!
This module contains the model of the end of a replay: the main thread that waits until everything sent is
received and then stops the receiving and the parsing thread. Between these two is the byte ring, with each load and
store of its positions and each copy into it as a step.
-/

namespace NebulaXTrader

namespace Reception

inductive MainPc where
  | loadReceived
  | loadSent (received : Nat)
  | storeStop
  | stopReceiver
  | joinRecv
  | joinParse
  | stopped
  deriving DecidableEq

/--
In `feed` the ring gets the messages of the packet, one after the other.
-/
inductive RecvPc where
  | loadStop
  | recv
  | count (packet : List Message)
  | feed
  | finished
  deriving DecidableEq

/--
`drain` is `parse_available`. What the thread does between two calls has no effect on the others.
-/
inductive ParsePc where
  | loadStop
  | drain
  | lastDrain
  | finished
  deriving DecidableEq

end Reception

/--
`packets` are the packets on their way.
-/
structure Reception where
  packets : List (List Message)
  sent : Nat
  received : Nat := 0
  stop : Bool := false
  closed : Bool := false
  pipe : BytePipeline
  main : Reception.MainPc := .loadReceived
  recv : Reception.RecvPc := .loadStop
  parse : Reception.ParsePc := .loadStop

namespace Reception

/--
`interrupted` is the return of `recv` without a packet, which only happens after `receiver->stop()`.
-/
inductive Party where
  | main
  | recv
  | interrupted
  | parse
  deriving DecidableEq

def stepMain (s : Reception) : Option Reception :=
  match s.main with
  | .loadReceived => some { s with main := .loadSent s.received }
  | .loadSent received =>
    if received < s.sent then
      some { s with main := .loadReceived }
    else
      some { s with main := .storeStop }
  | .storeStop => some { s with stop := true, main := .stopReceiver }
  | .stopReceiver => some { s with closed := true, main := .joinRecv }
  | .joinRecv => if s.recv = .finished then some { s with main := .joinParse } else none
  | .joinParse => if s.parse = .finished then some { s with main := .stopped } else none
  | .stopped => none

/--
`feed` has pushed all that it has to push.
-/
def Fed (s : Reception) : Prop := s.pipe.unpacker = .loadHead ∧ s.pipe.todo = []

instance (s : Reception) : Decidable s.Fed := inferInstanceAs (Decidable (_ ∧ _))

def stepRecv (s : Reception) : Option Reception :=
  match s.recv with
  | .loadStop => if s.stop then some { s with recv := .finished } else some { s with recv := .recv }
  | .recv =>
    match s.packets with
    | [] => none
    | packet :: packets => some { s with packets := packets, recv := .count packet }
  | .count packet => some { s with received := s.received + 1, pipe := s.pipe.offer packet, recv := .feed }
  | .feed =>
    if s.Fed then
      some { s with recv := .loadStop }
    else
      s.pipe.stepUnpacker.map (fun pipe => { s with pipe := pipe })
  | .finished => none

/--
The call of `parse_available` takes its next step, with which it returns or not.
-/
def parseOn (s : Reception) (returned : ParsePc) : Option Reception :=
  s.pipe.stepParser.map (fun pipe => { s with pipe := pipe, parse := if s.pipe.breaks then returned else s.parse })

def stepParse (s : Reception) : Option Reception :=
  match s.parse with
  | .loadStop => if s.stop then some { s with parse := .lastDrain } else some { s with parse := .drain }
  | .drain => s.parseOn .loadStop
  | .lastDrain => s.parseOn .finished
  | .finished => none

def step (s : Reception) (p : Party) : Option Reception :=
  match p with
  | .main => s.stepMain
  | .recv => s.stepRecv
  | .interrupted => if s.recv = .recv ∧ s.closed then some { s with recv := .finished } else none
  | .parse => s.stepParse

def start (capacity sent : Nat) (buf : Nat → UInt8) (packets : List (List Message)) : Reception where
  packets := packets
  sent := sent
  pipe := BytePipeline.start capacity buf []

/--
The conditions under which the byte ring delivers what is pushed.
-/
def Careful (s : Reception) (p : Party) : Prop :=
  match p with
  | .recv => s.pipe.Roomy
  | .parse => s.pipe.Hollow
  | .main => True
  | .interrupted => True

instance (s : Reception) (p : Party) : Decidable (Careful s p) :=
  match p with
  | .recv => inferInstanceAs (Decidable (s.pipe.Careful .unpacker))
  | .parse => inferInstanceAs (Decidable (s.pipe.Careful .parser))
  | .main => isTrue trivial
  | .interrupted => isTrue trivial

/--
What the receiving thread has counted, or is about to count, and not pushed yet.
-/
def remaining (s : Reception) : List Message :=
  match s.recv with
  | .count packet => packet
  | .feed => s.pipe.unpacker.inFlight ++ s.pipe.todo
  | _ => []

/--
Once the parsing thread has terminated every message of the packets counted is parsed and none remains to
be pushed.
-/
def Complete (packets : List (List Message)) (s : Reception) : Prop :=
  s.parse = .finished →
    s.pipe.fed = (packets.take s.received).flatten.map (fun m => (m.seq, m.body)) ∧ s.remaining = []

end Reception

end NebulaXTrader
