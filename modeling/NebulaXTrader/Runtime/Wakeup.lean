import NebulaXTrader.Lib.Doorbell
import NebulaXTrader.Lib.Run
import NebulaXTrader.Market.ByteRingParser
import NebulaXTrader.Queue.SPSCEventRing

/-!
This module contains the model of the waiting of the consumers: the workers, which all sleep on one eventfd, and
the parsing thread, which has an eventfd of its own.
-/

namespace NebulaXTrader

open SPSCEventRing (Progress PushPc PopPc PendingPc)

namespace WorkerWait

def kSpinMax : Nat := 2000

/--
`outer` is the condition of the loop, `inner` the first statement of its body. `register` is the write of
`set_blocked`, whose flag nobody reads; `drain`, `poll` and `taken` are `wait_for_data`.
-/
inductive WaiterPc (α : Type) where
  | outerDone
  | outerPending (pc : PendingPc)
  | innerPending (pc : PendingPc)
  | innerDone
  | register
  | drain
  | poll
  | taken
  | pop (pc : PopPc α)
  | finished
  deriving DecidableEq

inductive Producer where
  | parser
  | retry
  deriving DecidableEq

inductive ProducerPc (α : Type) where
  | idle
  | push (i : Nat) (ev : α) (pc : PushPc)
  | write
  deriving DecidableEq

end WorkerWait

open WorkerWait in
/--
`wakeFd` is the counter of the eventfd that all rings share.
-/
structure WorkerWait (α : Type) where
  parseDone : Bool := false
  wakeFd : Nat := 0
  rings : Nat → SPSCEventRing α
  workers : Nat → WaiterPc α := fun _ => .outerDone
  spinLeft : Nat → Nat := fun _ => 0
  producers : Producer → ProducerPc α := fun _ => .idle

namespace WorkerWait

variable {α : Type}

/--
`timeout` is the return of a `poll` after its time. The main thread stores `parse_done` and wakes.
-/
inductive Label (α : Type) where
  | begin (p : Producer) (i : Nat) (ev : α)
  | producer (p : Producer)
  | worker (i : Nat)
  | timeout (i : Nat)
  | storeParseDone
  | wake

def setWorker (s : WorkerWait α) (i : Nat) (pc : WaiterPc α) : WorkerWait α :=
  { s with workers := Function.update s.workers i pc }

def setProducer (s : WorkerWait α) (p : Producer) (pc : ProducerPc α) : WorkerWait α :=
  { s with producers := Function.update s.producers p pc }

def setRing (s : WorkerWait α) (i : Nat) (r : SPSCEventRing α) : WorkerWait α :=
  { s with rings := Function.update s.rings i r }

def setSpin (s : WorkerWait α) (i : Nat) (n : Nat) : WorkerWait α :=
  { s with spinLeft := Function.update s.spinLeft i n }

def stepProducer (s : WorkerWait α) (p : Producer) : Option (WorkerWait α) :=
  match s.producers p with
  | .idle => none
  | .push i ev pc =>
    match (s.rings i).push ev pc with
    | (r, .next pc) => some ((s.setRing i r).setProducer p (.push i ev pc))
    -- a full ring: nothing was pushed and nobody is woken
    | (r, .ret false) => some ((s.setRing i r).setProducer p .idle)
    | (r, .ret true) => some ((s.setRing i r).setProducer p .write)
  | .write => some { s.setProducer p .idle with wakeFd := s.wakeFd + 1 }

def stepWorker (s : WorkerWait α) (i : Nat) : Option (WorkerWait α) :=
  match s.workers i with
  | .outerDone =>
    if s.parseDone then
      some (s.setWorker i (.outerPending .loadTail))
    else
      some (s.setWorker i (.innerPending .loadTail))
  | .outerPending pc =>
    match (s.rings i).pending pc with
    | .next pc => some (s.setWorker i (.outerPending pc))
    | .ret pending =>
      if pending > 0 then
        some (s.setWorker i (.innerPending .loadTail))
      else
        some (s.setWorker i .finished)
  | .innerPending pc =>
    match (s.rings i).pending pc with
    | .next pc => some (s.setWorker i (.innerPending pc))
    | .ret pending =>
      if pending = 0 then
        some (s.setWorker i .innerDone)
      else
        some ((s.setSpin i kSpinMax).setWorker i (.pop .loadHead))
  | .innerDone =>
    if s.parseDone then
      some (s.setWorker i .finished)
    else if s.spinLeft i > 0 then
      some ((s.setSpin i (s.spinLeft i - 1)).setWorker i .outerDone)
    else
      some ((s.setSpin i kSpinMax).setWorker i .register)
  | .register => some { s.setWorker i .drain with wakeFd := s.wakeFd + 1 }
  | .drain =>
    -- `read` takes the whole counter and fails when it is 0
    if s.wakeFd > 0 then
      some { s with wakeFd := 0 }
    else
      some (s.setWorker i .poll)
  | .poll => if s.wakeFd > 0 then some (s.setWorker i .taken) else none
  | .taken => some { s.setWorker i .outerDone with wakeFd := 0 }
  | .pop pc =>
    match (s.rings i).pop pc with
    | (r, .next pc) => some ((s.setRing i r).setWorker i (.pop pc))
    | (r, .ret none) => some ((s.setRing i r).setWorker i .outerDone)
    | (r, .ret (some _)) => some ((s.setRing i r).setWorker i (.pop .loadHead))
  | .finished => none

def step (n : Nat) (s : WorkerWait α) (l : Label α) : Option (WorkerWait α) :=
  match l with
  | .begin p i ev =>
    match s.producers p with
    | .idle => some (s.setProducer p (.push i ev .loadTail))
    | _ => none
  | .producer p => s.stepProducer p
  | .worker i => if i < n then s.stepWorker i else none
  | .timeout i =>
    match s.workers i with
    | .poll => if i < n then some (s.setWorker i .outerDone) else none
    | _ => none
  | .storeParseDone => some { s with parseDone := true }
  | .wake => if s.parseDone then some { s with wakeFd := s.wakeFd + 1 } else none

def start (rings : Nat → SPSCEventRing α) : WorkerWait α where
  rings := rings

def Owed (s : WorkerWait α) : Prop := s.producers .parser = .write ∨ s.producers .retry = .write

def HasData (s : WorkerWait α) (i : Nat) : Prop := (s.rings i).head ≠ (s.rings i).tail

/--
No worker sleeps on an empty counter while it has data and nobody is about to wake it.
-/
def Awake (n : Nat) (s : WorkerWait α) : Prop :=
  ∀ i, i < n → s.workers i = .poll → s.wakeFd = 0 → s.HasData i → s.Owed

/--
No worker sleeps that has data, whatever the counter is.
-/
def Settled (n : Nat) (s : WorkerWait α) : Prop := ∀ j, j < n → s.workers j = .poll → s.HasData j → s.Owed

/--
A worker that has drained the counter and goes to sleep has no data, and no worker takes the counter from another
one that sleeps and has data, unless a producer is about to write.
-/
def Careful (n : Nat) (s : WorkerWait α) (l : Label α) : Prop :=
  match l with
  | .worker i =>
    i < n →
      match s.workers i with
      | .drain => if s.wakeFd > 0 then s.Settled n else s.HasData i → s.Owed
      | .taken => s.Settled n
      | _ => True
  | _ => True

end WorkerWait

namespace ParserWait

inductive RecvPc where
  | loadStop
  | recv
  | feed
  | notify
  | finished
  deriving DecidableEq

/--
`parse` is `parse_available`; `drain`, `poll` and `taken` are `wait_for_data`.
-/
inductive ParsePc where
  | loadStop
  | parse
  | testEmpty
  | drain
  | poll
  | taken
  | lastParse
  | finished
  deriving DecidableEq

inductive Label where
  | recv
  | interrupted
  | parse
  | timeout
  | storeStop
  | notify
  deriving DecidableEq

end ParserWait

/--
`pipeline` is the byte ring between the receiving and the parsing thread, `packets` are those still to come.
-/
structure ParserWait where
  pipeline : BytePipeline
  packets : List (List Message)
  stop : Bool := false
  wakeFd : Nat := 0
  recv : ParserWait.RecvPc := .loadStop
  parse : ParserWait.ParsePc := .loadStop
  spinLeft : Nat := 0

namespace ParserWait

/--
The `break` of `parse_available`: the parser starts over without having released anything.
-/
def breaks (pc pc' : BytePipeline.ParserPc) : Bool :=
  match pc, pc' with
  | .loadUsed _, .acquireHead | .readHead .., .acquireHead | .testHole, .acquireHead | .verify .., .acquireHead =>
    true
  | _, _ => false

def stepRecv (s : ParserWait) : Option ParserWait :=
  match s.recv with
  | .loadStop => if s.stop then some { s with recv := .finished } else some { s with recv := .recv }
  | .recv =>
    match s.packets with
    | [] => none
    | packet :: packets =>
      some { s with pipeline := { s.pipeline with todo := packet }, packets := packets, recv := .feed }
  | .feed =>
    match s.pipeline.stepUnpacker with
    | some pipeline => some { s with pipeline := pipeline }
    -- all messages of the packet are pushed
    | none => some { s with recv := .notify }
  | .notify => some { s with wakeFd := s.wakeFd + 1, recv := .loadStop }
  | .finished => none

def stepParse (s : ParserWait) : Option ParserWait :=
  match s.parse with
  | .loadStop => if s.stop then some { s with parse := .lastParse } else some { s with parse := .parse }
  | .parse =>
    s.pipeline.stepParser.map (fun pipeline =>
      { s with
        pipeline := pipeline
        parse := if breaks s.pipeline.parser pipeline.parser then .testEmpty else .parse })
  | .testEmpty =>
    if s.pipeline.head ≠ s.pipeline.tail then
      some { s with spinLeft := WorkerWait.kSpinMax, parse := .loadStop }
    else if s.spinLeft > 0 then
      some { s with spinLeft := s.spinLeft - 1, parse := .loadStop }
    else
      some { s with spinLeft := WorkerWait.kSpinMax, parse := .drain }
  | .drain =>
    if s.wakeFd > 0 then
      some { s with wakeFd := 0 }
    else
      some { s with parse := .poll }
  | .poll => if s.wakeFd > 0 then some { s with parse := .taken } else none
  | .taken => some { s with wakeFd := 0, parse := .loadStop }
  | .lastParse =>
    s.pipeline.stepParser.map (fun pipeline =>
      { s with
        pipeline := pipeline
        parse := if breaks s.pipeline.parser pipeline.parser then .finished else .lastParse })
  | .finished => none

/--
`interrupted` is the return of `recv` without a packet once the receiver is stopped; the main thread stores `stop` and
notifies.
-/
def step (s : ParserWait) (l : Label) : Option ParserWait :=
  match l with
  | .recv => s.stepRecv
  | .interrupted => if s.recv = .recv ∧ s.stop then some { s with recv := .finished } else none
  | .parse => s.stepParse
  | .timeout => if s.parse = .poll then some { s with parse := .loadStop } else none
  | .storeStop => some { s with stop := true }
  | .notify => if s.stop then some { s with wakeFd := s.wakeFd + 1 } else none

def start (capacity : Nat) (buf : Nat → UInt8) (packets : List (List Message)) : ParserWait where
  pipeline := BytePipeline.start capacity buf []
  packets := packets

def Owed (s : ParserWait) : Prop := s.recv = .feed ∨ s.recv = .notify

def HasData (s : ParserWait) : Prop := s.pipeline.head ≠ s.pipeline.tail

def Awake (s : ParserWait) : Prop := s.parse = .poll → s.wakeFd = 0 → s.HasData → s.Owed

/--
When the parser has drained the counter and goes to sleep, the ring is still empty or it will be notified.
-/
def Careful (s : ParserWait) (l : Label) : Prop :=
  match l with
  | .parse => s.parse = .drain → s.wakeFd = 0 → s.HasData → s.Owed
  | _ => True

end ParserWait

end NebulaXTrader
