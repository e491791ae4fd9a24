import NebulaXTrader.Queue.SPSCByteRing

/-!
This module contains the model of `IoUringSender::send`. The kernel answers each submission; what it
answers is a parameter.
-/

namespace NebulaXTrader

/--
How a submission ends: the ring of the kernel has no entry left, the submit or the wait fails, the
sender is stopped while it waits, or a completion arrives with its result.
-/
inductive Completion where
  | noSqe
  | failed (err : Int)
  | stopped
  | done (res : Int)
  deriving DecidableEq, Repr

/--
The completion of the `i`-th submission, which asks to send a chunk of the ring.
-/
abbrev Kernel := Nat → List UInt8 → Completion

structure IoUringSender where
  running : Bool
  ring : SPSCByteRing
  errno : Int
  submissions : Nat
  wire : List UInt8

namespace IoUringSender

def EAGAIN : Int := 11

def EIO : Int := 5

def fresh (ringBuf : Nat → UInt8) (ringCapacity : Nat) : IoUringSender where
  running := true
  ring := .fresh ringBuf ringCapacity
  errno := 0
  submissions := 0
  wire := []

/--
The loop that sends what is left, with the result of `send_zc_all`. Each round sends something, so
there are at most `remaining` of them. There is no result if the loop spins on an empty ring: nobody
else fills it.
-/
def sendZcAll (kernel : Kernel) (len : Nat) (s : IoUringSender) (remaining rounds : Nat)
    : Option (Int × IoUringSender) :=
  if remaining = 0 then
    some (len, s)
  else
    match rounds with
    | 0 => none
    | rounds + 1 =>
      let chunk := s.ring.readAcquire remaining
      if chunk = [] then
        none
      else
        match kernel s.submissions chunk with
        | .noSqe => some (-1, { s with errno := EAGAIN })
        | .failed err => some (-1, { s with errno := err })
        | .stopped => some (0, s)
        | .done sent =>
          let s := { s with submissions := s.submissions + 1 }
          if 0 < sent then
            let n := sent.toNat
            let s := { s with ring := s.ring.readRelease n, wire := s.wire ++ chunk.take n }
            sendZcAll kernel len s (sub64 remaining n) rounds
          else
            let errno := if sent = 0 then EIO else -sent
            some (-1, { s with ring := s.ring.readRelease remaining, errno := errno })

/--
A push takes all bytes or none, so the loop around it stores the message in one call. There is no
result if that call finds no room: the sender itself is the only one who makes some.
-/
def send (kernel : Kernel) (s : IoUringSender) (buf : List UInt8) : Option (Int × IoUringSender) :=
  let len := buf.length
  if s.running = false ∨ len = 0 then
    some (0, s)
  else
    match s.ring.push buf with
    | none => none
    | some ring => sendZcAll kernel len { s with ring := ring } len len

def step (kernel : Kernel) (s : IoUringSender) (buf : List UInt8) : Option IoUringSender :=
  (send kernel s buf).map Prod.snd

end IoUringSender

end NebulaXTrader
