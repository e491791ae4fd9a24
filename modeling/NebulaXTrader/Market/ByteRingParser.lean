import NebulaXTrader.Lib.Run
import NebulaXTrader.Market.Message
import NebulaXTrader.Queue.SPSCByteRing

/-!
This module contains the model of the byte ring between `MoldUdpUnpacker::feed` and
`ByteRingParser::parse_available`, access by access.

Only the producer stores `tail` and only the parser stores `head`, so a thread's own loads of the position
it stores are not steps of their own.
-/

namespace NebulaXTrader

open SPSCByteRing (pos nextLap plan acquire)

namespace BytePipeline

inductive UnpackerPc where
  | loadHead
  | copy (copies : List (Nat × List UInt8)) (tail : Nat) (m : Message)
  deriving DecidableEq

/--
The program counter of `parse_available`. `n` is what `read_acquire` offered, `used` the second load of
`tail` less `head`, `tmp` the buffer into which a body that crosses the end of the ring is copied.
-/
inductive ParserPc where
  | acquireHead
  | loadUsed (n : Nat)
  | readHead (n used : Nat)
  | testHole
  | skip (bytes : Nat)
  | discard (n : Nat)
  | acquireMessage (seq bodyLen : Nat)
  | feed (seq bodyLen : Nat)
  | verify (seq bodyLen n : Nat)
  | copyFirst (seq bodyLen n : Nat)
  | copySecond (seq bodyLen : Nat) (tmp : List UInt8)
  | feedTmp (seq bodyLen : Nat) (tmp : List UInt8)
  | release (msgLen : Nat)
  deriving DecidableEq

end BytePipeline

/--
`todo` are the messages that are not yet pushed. `pushed` and `holes` record the messages that the producer
has published and the positions at which it has skipped the rest of a lap, `fed` and `skips` what the
parser has passed to `ItchParser::feed` and the positions at which it has taken the hole branch.
-/
structure BytePipeline where
  capacity : Nat
  buf : Nat → UInt8
  head : Nat := 0
  tail : Nat := 0
  todo : List Message
  unpacker : BytePipeline.UnpackerPc := .loadHead
  parser : BytePipeline.ParserPc := .acquireHead
  pushed : List Message := []
  holes : List Nat := []
  fed : List (Nat × List UInt8) := []
  skips : List Nat := []

namespace BytePipeline

def kHeadBytes : Nat := 10

inductive Party where
  | unpacker
  | parser
  deriving DecidableEq

/--
The push of a message is repeated until there is room for it.
-/
def stepUnpacker (s : BytePipeline) : Option BytePipeline :=
  match s.unpacker with
  | .loadHead =>
    match s.todo with
    | [] => none
    | m :: todo =>
      match plan s.capacity s.head s.tail m.frame with
      | none => some s
      | some p => some { s with todo := todo, unpacker := .copy p.copies p.tail m }
  | .copy (c :: copies) tail m =>
    some { s with buf := Cells.write s.buf c.1 c.2, unpacker := .copy copies tail m }
  | .copy [] tail m =>
    some {
      s with
        tail := tail
        unpacker := .loadHead
        pushed := s.pushed ++ [m]
        holes := if tail = add64 s.tail m.frame.length then s.holes else s.holes ++ [s.tail] }

def stepParser (s : BytePipeline) : Option BytePipeline :=
  match s.parser with
  | .acquireHead =>
    some { s with parser := .loadUsed (acquire s.capacity s.head s.tail kHeadBytes) }
  | .loadUsed n =>
    let used := sub64 s.tail s.head
    if n = kHeadBytes then
      some { s with parser := .readHead n used }
    else if used ≥ kHeadBytes then
      some { s with parser := .testHole }
    else
      some { s with parser := .acquireHead }
  | .readHead n used =>
    let p := Cells.read s.buf (pos s.capacity s.head) kHeadBytes
    let seq := Positional.word (p.take 8)
    let bodyLen := Positional.word (p.drop 8)
    if bodyLen < 1 ∨ bodyLen > 200 then
      some { s with parser := .discard n }
    else if used < kHeadBytes + bodyLen then
      some { s with parser := .acquireHead }
    else
      some { s with parser := .acquireMessage seq bodyLen }
  | .testHole =>
    let aligned := nextLap s.capacity s.head
    if aligned > s.tail then
      some { s with parser := .acquireHead }
    else
      some { s with parser := .skip (sub64 aligned s.head) }
  | .skip bytes =>
    some { s with head := add64 s.head bytes, skips := s.skips ++ [s.head], parser := .acquireHead }
  | .discard n => some { s with head := add64 s.head n, parser := .acquireHead }
  | .acquireMessage seq bodyLen =>
    let msgLen := kHeadBytes + bodyLen
    let n := acquire s.capacity s.head s.tail msgLen
    if n = msgLen then
      some { s with parser := .feed seq bodyLen }
    else
      some { s with parser := .verify seq bodyLen n }
  | .feed seq bodyLen =>
    let body := Cells.read s.buf (pos s.capacity s.head + kHeadBytes) bodyLen
    some { s with fed := s.fed ++ [(seq, body)], parser := .release (kHeadBytes + bodyLen) }
  | .verify seq bodyLen n =>
    if sub64 s.tail s.head < kHeadBytes + bodyLen then
      some { s with parser := .acquireHead }
    else
      some { s with parser := .copyFirst seq bodyLen n }
  | .copyFirst seq bodyLen n =>
    let tmp := Cells.read s.buf (pos s.capacity s.head) n
    some { s with parser := .copySecond seq bodyLen tmp }
  | .copySecond seq bodyLen tmp =>
    let rest := Cells.read s.buf 0 (kHeadBytes + bodyLen - tmp.length)
    some { s with parser := .feedTmp seq bodyLen (tmp ++ rest) }
  | .feedTmp seq bodyLen tmp =>
    let body := (tmp.drop kHeadBytes).take bodyLen
    some { s with fed := s.fed ++ [(seq, body)], parser := .release (kHeadBytes + bodyLen) }
  | .release msgLen => some { s with head := add64 s.head msgLen, parser := .acquireHead }

def step (s : BytePipeline) (p : Party) : Option BytePipeline :=
  match p with
  | .unpacker => s.stepUnpacker
  | .parser => s.stepParser

def start (capacity : Nat) (buf : Nat → UInt8) (messages : List Message) : BytePipeline where
  capacity := capacity
  buf := buf
  todo := messages

/--
The receiving thread begins to push these messages.
-/
def offer (s : BytePipeline) (messages : List Message) : BytePipeline := { s with todo := s.todo ++ messages }

def UnpackerPc.inFlight (pc : UnpackerPc) : List Message :=
  match pc with
  | .loadHead => []
  | .copy _ _ m => [m]

/--
The messages are pushed in their order, the parser passes on exactly the ones that were pushed, and it takes
the hole branch only where the producer has skipped the rest of a lap.
-/
structure Exact (messages : List Message) (s : BytePipeline) : Prop where
  pushed : s.pushed ++ s.unpacker.inFlight ++ s.todo = messages
  fed : s.fed <+: s.pushed.map (fun m => (m.seq, m.body))
  all : s.head = s.tail → s.fed = s.pushed.map (fun m => (m.seq, m.body))
  skips : s.skips <+: s.holes

/--
The producer's test for room compares positions that start over at 0. It goes wrong if the message crosses
the end of the last lap while the head is still in an earlier one.
-/
def Roomy (s : BytePipeline) : Prop :=
  s.unpacker = .loadHead → ∀ m ∈ s.todo.head?, s.capacity < pos s.capacity s.tail + m.frame.length →
    nextLap s.capacity s.tail = 0 → 2 ^ 64 ≤ s.head + s.capacity

/--
The parser takes the end of the lap for a hole only if no head fits before it.
-/
def Hollow (s : BytePipeline) : Prop :=
  s.parser = .testHole → nextLap s.capacity s.head ≤ s.tail →
    s.capacity < pos s.capacity s.head + kHeadBytes

def Careful (s : BytePipeline) (p : Party) : Prop :=
  match p with
  | .unpacker => s.Roomy
  | .parser => s.Hollow

instance (s : BytePipeline) (p : Party) : Decidable (Careful s p) :=
  match p with
  | .unpacker => inferInstanceAs (Decidable (_ → ∀ m ∈ s.todo.head?, _ → _ → 2 ^ 64 ≤ s.head + s.capacity))
  | .parser => inferInstanceAs (Decidable (_ → _ → s.capacity < pos s.capacity s.head + kHeadBytes))

end BytePipeline

end NebulaXTrader
