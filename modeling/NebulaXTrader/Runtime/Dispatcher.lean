import NebulaXTrader.Lib.Run
import NebulaXTrader.Queue.SPSCEventRing

/-!
This module contains the model of `Dispatcher::dispatch` for the events of one worker, together with the
retry thread and the worker: what they do to the worker's ring, its retry bucket and the flag `active`.
-/

namespace NebulaXTrader

namespace Dispatcher

open SPSCEventRing (PushPc PopPc PeekPc PendingPc)

/--
`direct` is the push into the worker's ring, `queue` the one into the active bucket and `offload` the one
into the bucket after the ring was full.
-/
inductive ParserPc (α : Type) where
  | loadActive
  | direct (ev : α) (pc : PushPc)
  | queue (ev : α) (pc : PushPc)
  | offload (ev : α) (pc : PushPc)
  | storeActive
  deriving DecidableEq

/--
In `idle` the thread looks at the buckets of all workers, so a pass over them can begin at any time.
-/
inductive RetryPc (α : Type) where
  | idle
  | peek (pc : PeekPc)
  | push (ev : α) (pc : PushPc)
  | pop (pc : PopPc α)
  | pending (pc : PendingPc)
  | clear
  deriving DecidableEq

inductive Party where
  | parser
  | retry
  | worker
  deriving DecidableEq

end Dispatcher

/--
`todo` are the events still to be dispatched, `popped` the ones the worker has popped.
-/
structure Dispatcher (α : Type) where
  spsc : SPSCEventRing α
  bucket : SPSCEventRing α
  active : Bool := false
  todo : List α
  popped : List α := []
  parser : Dispatcher.ParserPc α := .loadActive
  retry : Dispatcher.RetryPc α := .idle
  worker : SPSCEventRing.PopPc α := .loadHead

namespace Dispatcher

variable {α : Type}

def stepParser (s : Dispatcher α) : Option (Dispatcher α) :=
  match s.parser with
  | .loadActive =>
    match s.todo with
    | [] => none
    | ev :: todo =>
      if s.active then
        some { s with todo := todo, parser := .queue ev .loadTail }
      else
        some { s with todo := todo, parser := .direct ev .loadTail }
  | .direct ev pc =>
    match s.spsc.push ev pc with
    | (r, .next pc) => some { s with spsc := r, parser := .direct ev pc }
    | (r, .ret true) => some { s with spsc := r, parser := .loadActive }
    | (r, .ret false) => some { s with spsc := r, parser := .offload ev .loadTail }
  | .queue ev pc =>
    match s.bucket.push ev pc with
    | (r, .next pc) => some { s with bucket := r, parser := .queue ev pc }
    | (r, .ret true) => some { s with bucket := r, parser := .loadActive }
    | (r, .ret false) => some { s with bucket := r, parser := .queue ev .loadTail }
  | .offload ev pc =>
    match s.bucket.push ev pc with
    | (r, .next pc) => some { s with bucket := r, parser := .offload ev pc }
    | (r, .ret true) => some { s with bucket := r, parser := .storeActive }
    | (r, .ret false) => some { s with bucket := r, parser := .offload ev .loadTail }
  | .storeActive => some { s with active := true, parser := .loadActive }

def stepRetry (s : Dispatcher α) : Option (Dispatcher α) :=
  match s.retry with
  | .idle => some { s with retry := .peek .loadHead }
  | .peek pc =>
    match s.bucket.peek pc with
    | .next pc => some { s with retry := .peek pc }
    | .ret (some ev) => some { s with retry := .push ev .loadTail }
    | .ret none => some { s with retry := .pending .loadTail }
  | .push ev pc =>
    match s.spsc.push ev pc with
    | (r, .next pc) => some { s with spsc := r, retry := .push ev pc }
    | (r, .ret true) => some { s with spsc := r, retry := .pop .loadHead }
    | (r, .ret false) => some { s with spsc := r, retry := .pending .loadTail }
  | .pop pc =>
    match s.bucket.pop pc with
    | (r, .next pc) => some { s with bucket := r, retry := .pop pc }
    | (r, .ret _) => some { s with bucket := r, retry := .peek .loadHead }
  | .pending pc =>
    match s.bucket.pending pc with
    | .next pc => some { s with retry := .pending pc }
    | .ret pending =>
      if pending = 0 then
        some { s with retry := .clear }
      else
        some { s with retry := .idle }
  | .clear => some { s with active := false, retry := .idle }

def stepWorker (s : Dispatcher α) : Option (Dispatcher α) :=
  match s.spsc.pop s.worker with
  | (r, .next pc) => some { s with spsc := r, worker := pc }
  | (r, .ret (some ev)) => some { s with spsc := r, popped := s.popped ++ [ev], worker := .loadHead }
  | (r, .ret none) => some { s with spsc := r, worker := .loadHead }

def step (s : Dispatcher α) (p : Party) : Option (Dispatcher α) :=
  match p with
  | .parser => s.stepParser
  | .retry => s.stepRetry
  | .worker => s.stepWorker

def start (k l : Nat) (slots retrySlots : Nat → α) (stream : List α) : Dispatcher α where
  spsc := { slots := slots, capacity := 2 ^ k, head := 0, tail := 0 }
  bucket := { slots := retrySlots, capacity := 2 ^ l, head := 0, tail := 0 }
  todo := stream

def ParserPc.inFlight (pc : ParserPc α) : List α :=
  match pc with
  | .direct ev _ => [ev]
  | .queue ev _ => [ev]
  | .offload ev _ => [ev]
  | _ => []

def RetryPc.waiting (pc : RetryPc α) (bucket : List α) : List α :=
  match pc with
  | .pop _ => bucket.tail
  | _ => bucket

def ParserPc.pushing (pc : ParserPc α) : Bool :=
  match pc with
  | .direct _ _ => true
  | _ => false

def RetryPc.pushing (pc : RetryPc α) : Bool :=
  match pc with
  | .push _ _ => true
  | _ => false

/--
The events popped are a prefix of the stream, what follows them is on its way to the worker in the order
of the stream, and only one thread is inside `push` of the worker's ring.
-/
structure Fifo (stream : List α) (s : Dispatcher α) : Prop where
  popped : s.popped <+: stream
  kept : s.popped ++ s.spsc.contents ++ s.retry.waiting s.bucket.contents ++ s.parser.inFlight ++ s.todo =
    stream
  alone : ¬(s.parser.pushing ∧ s.retry.pushing)

/--
What the parsing thread may be doing while the retry thread clears `active`: it must not be on its way into
the active bucket, and the bucket must be empty unless the parsing thread is going to set the flag again.
-/
def ParserPc.Clearable (pc : ParserPc α) (empty : Prop) : Prop :=
  match pc with
  | .loadActive => empty
  | .direct _ _ => empty
  | .queue _ _ => False
  | .offload _ _ => True
  | .storeActive => True

instance (pc : ParserPc α) (empty : Prop) [Decidable empty] : Decidable (pc.Clearable empty) :=
  match pc with
  | .loadActive => inferInstanceAs (Decidable empty)
  | .direct _ _ => inferInstanceAs (Decidable empty)
  | .queue _ _ => inferInstanceAs (Decidable False)
  | .offload _ _ => inferInstanceAs (Decidable True)
  | .storeActive => inferInstanceAs (Decidable True)

def Cleared (s : Dispatcher α) (p : Party) : Prop :=
  p = .retry → s.retry = .clear → s.parser.Clearable (s.bucket.head = s.bucket.tail)

instance [DecidableEq α] (s : Dispatcher α) (p : Party) : Decidable (Cleared s p) :=
  inferInstanceAs (Decidable (_ → _ → s.parser.Clearable (s.bucket.head = s.bucket.tail)))

end Dispatcher

end NebulaXTrader
