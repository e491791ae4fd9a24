import NebulaXTrader.Lib.Cells

/-!
This module contains the model of `SPSCByteRing`, the byte ring that carries the market data from the
receiving thread to the parser and the orders from the engine to the network.

The positions are `size_t`. A push is split into what it decides from its loads of `head_` and `tail_`
and the copies it then makes, since the other side can run between any two of them.
-/

namespace NebulaXTrader

def add64 (a b : Nat) : Nat := Wrap.add (2 ^ 64) a b

def sub64 (a b : Nat) : Nat := Wrap.sub (2 ^ 64) a b

structure SPSCByteRing where
  capacity : Nat
  buf : Nat → UInt8
  head : Nat
  tail : Nat

namespace SPSCByteRing

def kHeaderBytes : Nat := 10

def fresh (buf : Nat → UInt8) (capacity : Nat) : SPSCByteRing where
  capacity := capacity
  buf := buf
  head := 0
  tail := 0

def pos (capacity p : Nat) : Nat := p &&& (capacity - 1)

def nextLap (capacity p : Nat) : Nat := (p / capacity + 1) * capacity % 2 ^ 64

structure Plan where
  copies : List (Nat × List UInt8)
  tail : Nat
  deriving DecidableEq, Repr

def plan (capacity head tail : Nat) (data : List UInt8) : Option Plan :=
  let len := data.length
  let pos := pos capacity tail
  if add64 pos len ≤ capacity then
    let free := sub64 capacity (sub64 tail head)
    if free < len ∨ len = 0 then
      none
    else
      some { copies := [(pos, data)], tail := add64 tail len }
  else
    let aligned := nextLap capacity tail
    if add64 aligned len > add64 head capacity then
      none
    else
      let tailRoom := capacity - pos
      if kHeaderBytes ≤ tailRoom then
        let body := data.drop kHeaderBytes
        let bodyRoom := tailRoom - kHeaderBytes
        let header := (pos, data.take kHeaderBytes)
        if body.length > bodyRoom then
          some {
            copies := [header, (pos + kHeaderBytes, body.take bodyRoom), (0, body.drop bodyRoom)]
            tail := add64 tail len
          }
        else
          some { copies := [header, (pos + kHeaderBytes, body)], tail := add64 tail len }
      else
        some { copies := [(0, data)], tail := add64 aligned len }

def push (r : SPSCByteRing) (data : List UInt8) : Option SPSCByteRing :=
  match plan r.capacity r.head r.tail data with
  | none => none
  | some p => some { r with buf := Cells.writeAll r.buf p.copies, tail := p.tail }

def acquire (capacity head tail request : Nat) : Nat :=
  let used := sub64 tail head
  if used = 0 ∨ request = 0 then
    0
  else
    let actual := if request < used then request else used
    let contig := capacity - pos capacity head
    if actual > contig then contig else actual

def readAcquire (r : SPSCByteRing) (request : Nat) : List UInt8 :=
  Cells.read r.buf (pos r.capacity r.head) (acquire r.capacity r.head r.tail request)

def readRelease (r : SPSCByteRing) (bytes : Nat) : SPSCByteRing :=
  { r with head := add64 r.head bytes }

def isEmpty (r : SPSCByteRing) : Prop := r.head = r.tail

instance (r : SPSCByteRing) : Decidable r.isEmpty := inferInstanceAs (Decidable (r.head = r.tail))

end SPSCByteRing

end NebulaXTrader
