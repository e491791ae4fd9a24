import NebulaXTrader.Market.MoldUdpUnpacker

/-!
This module contains the model of the loop of the benchmark that packs the messages of a file into packets and sends
them.
-/

namespace NebulaXTrader

open Positional (word)

namespace PackingLoop

def kTypeR : UInt8 := 82

/--
`fc` says if the shared memory is there.
-/
structure Config where
  file : List UInt8
  packMax : UInt64
  fc : Bool

/--
Where the loop is: at the test of the `while`, at the choice of `msgs_this_packet`, at the test of the `for`, behind the
`for`, at the wait for the last packet, at `sendto`, and behind the `while`.
-/
inductive Pc where
  | outer
  | choose
  | fill
  | pack
  | await
  | send
  | done
  deriving DecidableEq, Repr

/--
`rand` and `sendto` are the results of the two functions, `load` is the value of `received` that the wait finds.
-/
inductive Label where
  | run
  | rand (r : UInt64)
  | load (received : Nat)
  | sendto (r : Int)
  deriving DecidableEq, Repr

end PackingLoop

/--
The variables of the loop. `sent` is the counter in the shared memory, `packets` what has been given to `sendto`.
-/
structure PackingLoop where
  pos : Nat := 0
  totalSent : Nat := 0
  extraBytes : Nat := 0
  globalMsgSeq : Nat := 0
  pkt : List UInt8 := List.replicate 20 0
  msgsThisPacket : UInt64 := 0
  pktFirstSeq : Nat := 0
  pktCount : Nat := 0
  i : UInt64 := 0
  sent : Nat := 0
  pc : PackingLoop.Pc := .outer
  packets : List (List UInt8) := []

namespace PackingLoop

def start : PackingLoop := {}

variable (cfg : Config) (s : PackingLoop)

def testOuter : PackingLoop :=
  if s.pos + 2 ≤ cfg.file.length then { s with pc := .choose } else { s with pc := .done }

def choose (r : UInt64) : PackingLoop :=
  { s with
    msgsThisPacket := 1 + r % cfg.packMax
    pktFirstSeq := s.globalMsgSeq
    pktCount := 0
    i := 0
    pc := .fill }

/--
One round of the `for`. Where the message does not count the code takes one off `i` before the `for` adds it again.
-/
def fill : PackingLoop :=
  if s.i < s.msgsThisPacket ∧ s.pos + 2 ≤ cfg.file.length then
    let bodyLen := MoldUdpUnpacker.be16 cfg.file s.pos
    if bodyLen < 1 ∨ bodyLen > 200 then
      { s with pos := s.pos + 1, extraBytes := s.extraBytes + 1, i := s.i - 1 + 1 }
    else
      let msgLen := 2 + bodyLen
      if s.pos + msgLen > cfg.file.length then
        { s with pc := .pack }
      else if cfg.file[s.pos + 2]? = some kTypeR then
        { s with pos := s.pos + msgLen, i := s.i - 1 + 1 }
      else
        { s with
          pkt := s.pkt ++ (cfg.file.drop s.pos).take msgLen
          pos := s.pos + msgLen
          pktCount := s.pktCount + 1
          globalMsgSeq := s.globalMsgSeq + 1
          i := s.i + 1 }
  else
    { s with pc := .pack }

def pack : PackingLoop :=
  if s.pktCount > 0 then
    { s with
      pkt := ReplayClient.header s.pktFirstSeq s.pktCount ++ s.pkt.drop 20
      pc := if cfg.fc then .await else .send }
  else
    { s with pkt := List.replicate 20 0, pc := .outer }

def await (received : Nat) : PackingLoop := if received < s.sent then s else { s with pc := .send }

def sendto (r : Int) : PackingLoop :=
  { s with
    packets := s.packets ++ [s.pkt]
    pkt := List.replicate 20 0
    sent := if r > 0 ∧ cfg.fc then s.sent + 1 else s.sent
    totalSent := if r > 0 then s.totalSent + 1 else s.totalSent
    pc := .outer }

def step (l : Label) : Option PackingLoop :=
  match s.pc, l with
  | .outer, .run => some (s.testOuter cfg)
  | .choose, .rand r => some (s.choose cfg r)
  | .fill, .run => some (s.fill cfg)
  | .pack, .run => some (s.pack cfg)
  | .await, .load received => some (s.await received)
  | .send, .sendto r => some (s.sendto cfg r)
  | _, _ => none

end PackingLoop

end NebulaXTrader
