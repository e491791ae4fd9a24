import NebulaXTrader.Market.ByteRingParser
import NebulaXTrader.Market.Sharding
import NebulaXTrader.Runtime.Dispatcher
import NebulaXTrader.Runtime.Registry

/-!
This module contains the model of the threads between the unpacker and the books: the receiving thread that pushes into
the byte ring, the parsing thread that takes each message off it and dispatches its event, the retry thread, and the
workers that share the pool and the index of the orders.
-/

namespace NebulaXTrader

/--
`handled` counts the messages that `ItchParser::feed` has got. `dispatching` is the worker for whose event the parsing
thread is inside `dispatch`. `processed` counts the events that a worker has processed, which `log` records.
-/
structure Machine where
  pipe : BytePipeline
  handled : Nat := 0
  registry : Registry := Registry.init
  dispatching : Option Nat := none
  nworkers : Nat
  channels : Nat → Dispatcher MarketEvent
  workers : Workers
  processed : Nat → Nat := fun _ => 0
  log : List MarketEvent := []

namespace Machine

inductive Action where
  | receive
  | parse
  | retry (worker : Nat)
  | work (worker : Nat)
  deriving DecidableEq

def stepReceive (s : Machine) : Option Machine := s.pipe.stepUnpacker.map (fun pipe => { s with pipe := pipe })

def dispatch (s : Machine) (ev : MarketEvent) : Option Machine :=
  match s.registry.lookupOrRegister s.nworkers ev.locate with
  | none => none
  | some (registry, owner) =>
    let channel := s.channels owner
    some { s with
      registry := registry
      dispatching := some owner
      channels := Function.update s.channels owner { channel with todo := channel.todo ++ [ev] } }

/--
The handler of the parser runs inside `ItchParser::feed`, before the message is released.
-/
def stepParse (s : Machine) : Option Machine :=
  match s.dispatching with
  | some i =>
    match (s.channels i).stepParser with
    | some channel => some { s with channels := Function.update s.channels i channel }
    | none => some { s with dispatching := none }
  | none =>
    match s.pipe.fed.drop s.handled with
    | [] => s.pipe.stepParser.map (fun pipe => { s with pipe := pipe })
    | (seq, body) :: _ =>
      let s := { s with handled := s.handled + 1 }
      match ItchParser.feed body seq with
      | none => some s
      | some ev => s.dispatch ev

/--
The retry thread is busy with one bucket at a time.
-/
def stepRetry (s : Machine) (i : Nat) : Option Machine :=
  if i < s.nworkers ∧ ∀ j < s.nworkers, j ≠ i → (s.channels j).retry = .idle then
    (s.channels i).stepRetry.map (fun channel => { s with channels := Function.update s.channels i channel })
  else
    none

/--
A worker processes an event before it pops the next one, all of `on_event` in one step.
-/
def stepWork (s : Machine) (i : Nat) : Option Machine :=
  if i < s.nworkers then
    match (s.channels i).popped.drop (s.processed i) with
    | [] => (s.channels i).stepWorker.map (fun channel => { s with channels := Function.update s.channels i channel })
    | ev :: _ =>
      some { s with
        workers := s.workers.deliver (fun _ => i) ev
        processed := Function.update s.processed i (s.processed i + 1)
        log := s.log ++ [ev] }
  else
    none

def step (s : Machine) (a : Action) : Option Machine :=
  match a with
  | .receive => s.stepReceive
  | .parse => s.stepParse
  | .retry i => s.stepRetry i
  | .work i => s.stepWork i

/--
`k` gives the size of the byte ring, `c` that of the rings and the buckets of the workers.
-/
def start (k c nworkers pool index : Nat) (buf : Nat → UInt8) (slots : Nat → MarketEvent) (messages : List Message)
    : Machine where
  pipe := BytePipeline.start (2 ^ k) buf messages
  nworkers := nworkers
  channels _ := Dispatcher.start c c slots slots []
  workers := Workers.init pool index

def events (messages : List Message) : List MarketEvent := messages.filterMap (fun m => ItchParser.feed m.body m.seq)

/--
The conditions under which the single parts work: the byte ring delivers every message, the retry thread clears `active`
at the right time, and the pool and the index of the orders are large enough.
-/
def Careful (s : Machine) (a : Action) : Prop :=
  match a with
  | .receive => s.pipe.Roomy
  | .parse => s.pipe.Hollow
  | .retry i => (s.channels i).Cleared .retry
  | .work i => ∀ ev ∈ ((s.channels i).popped.drop (s.processed i)).head?, s.workers.HasRoom (fun _ => i) ev

instance (s : Machine) (a : Action) : Decidable (Careful s a) :=
  match a with
  | .receive => inferInstanceAs (Decidable (s.pipe.Careful .unpacker))
  | .parse => inferInstanceAs (Decidable (s.pipe.Careful .parser))
  | .retry i => inferInstanceAs (Decidable ((s.channels i).Cleared .retry))
  | .work _ => inferInstanceAs (Decidable (∀ ev ∈ _, _))

/--
No thread has anything left to do.
-/
def Drained (s : Machine) : Prop :=
  s.pipe.todo = [] ∧ s.pipe.unpacker = .loadHead ∧ s.pipe.head = s.pipe.tail ∧ s.handled = s.pipe.fed.length ∧
    s.dispatching = none ∧ ∀ i < s.nworkers, (s.channels i).spsc.contents = [] ∧ (s.channels i).bucket.contents = [] ∧
      s.processed i = (s.channels i).popped.length

instance (s : Machine) : Decidable s.Drained := inferInstanceAs (Decidable (_ ∧ _))

def book (s : Machine) (locate : Nat) : Option OrderBook := s.workers.book s.registry.owner locate

end Machine

end NebulaXTrader
