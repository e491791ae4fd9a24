import NebulaXTrader.Execution.Placement
import NebulaXTrader.Market.BookWorker
import NebulaXTrader.Runtime.Programs

/-!
This module contains the model of a replay with trading: behind the threads that build the books the workers vote on
every event, the execution engine sends their orders to the simulated exchange, and its reports change the positions
that the workers ask for.
-/

namespace NebulaXTrader

/--
The signal that `arbitrate` submits for a decision.
-/
def ArbDecision.signal (d : ArbDecision) : Signal := { side := d.dir, locate := d.locate, strength := d.strength }

/--
What a worker has to do before it pops the next event.
-/
inductive Task where
  | idle
  | mark (ev : MarketEvent) (ctx : BookContext)
  | vote (ev : MarketEvent) (ctx : BookContext)
  | submit (d : ArbDecision)
  deriving DecidableEq

/--
The books of a worker are in the machine, its strategies, its slots and its memory of the last order in `workers`.
`answers` records what the risk manager has answered to the vote on the event of a number, and `submitted` the decisions
that the workers have handed to the engine.
-/
structure Trading where
  programs : Programs
  link : OrderLink
  tasks : Nat → Task := fun _ => .idle
  workers : Nat → BookWorker := fun _ => BookWorker.init
  answers : Nat → Nat → Nat := fun _ _ => 0
  submitted : List (Nat × ArbDecision) := []

namespace Trading

/--
The steps of both programs up to the books, of a worker after the book has been updated, and of the simulated exchange and
the thread that receives its reports.
-/
inductive Label where
  | programs (l : Programs.Label)
  | worker (i : Nat) (env : Env)
  | venue (a : OrderLink.Action)

/--
The event that the worker has popped and not yet processed.
-/
def next (s : Trading) (i : Nat) : Option MarketEvent :=
  ((s.programs.machine.channels i).popped.drop (s.programs.machine.processed i)).head?

/--
The context of an event, computed from the books of the worker after the event.
-/
def context (programs : Programs) (i : Nat) (ev : MarketEvent) : BookContext :=
  let workers := programs.machine.workers
  BookWorker.context ((workers.consumers i).book workers.store ev.locate) ev

def stepPrograms (replay : PackingLoop.Config) (capacity : Nat) (s : Trading) (l : Programs.Label) : Option Trading :=
  match l with
  | .machine (.work i) =>
    if s.tasks i = .idle then
      (s.programs.step replay capacity l).map (fun programs =>
        match s.next i with
        | none => { s with programs := programs }
        | some ev => { s with
            programs := programs
            tasks := Function.update s.tasks i (.mark ev (context programs i ev)) })
    else
      none
  | l => (s.programs.step replay capacity l).map (fun programs => { s with programs := programs })

/--
The rest of `process`: the risk manager gets the price in the middle, the strategies and the vote answer with the position
of this moment, and the engine gets the decision. Nobody else reads the memory of the last order, so that it does not
matter that it changes with the vote.
-/
def stepWorker (config : BookWorker.Config) (s : Trading) (i : Nat) (env : Env) : Option Trading :=
  match s.tasks i with
  | .idle => none
  | .mark ev ctx =>
    let s := { s with tasks := Function.update s.tasks i (.vote ev ctx) }
    if ctx.bid ≥ 0 ∧ ctx.ask ≥ 0 then
      (s.link.step (.mark ev.locate ctx.mid)).map (fun link => { s with link := link })
    else
      some s
  | .vote ev ctx =>
    let position := s.link.ex.rm.position
    let (w, d) := (s.workers i).decide config ev ctx position
    some { s with
      tasks := Function.update s.tasks i (d.elim .idle .submit)
      workers := Function.update s.workers i w
      answers := Function.update s.answers ev.seqId position }
  | .submit d =>
    (s.link.step (.submit env d.signal 1 .MARKET)).map (fun link => { s with
      link := link
      tasks := Function.update s.tasks i .idle
      submitted := s.submitted ++ [(i, d)] })

def step (replay : PackingLoop.Config) (capacity : Nat) (config : BookWorker.Config) (s : Trading) (l : Label)
    : Option Trading :=
  match l with
  | .programs l => s.stepPrograms replay capacity l
  | .worker i env => s.stepWorker config i env
  | .venue a => if a.ofVenue then (s.link.step a).map (fun link => { s with link := link }) else none

def start (risk : RiskManager.Config) (baseQty k c nworkers pool index : Nat) (buf : Nat → UInt8)
    (slots : Nat → MarketEvent) : Trading where
  programs := Programs.start k c nworkers pool index buf slots
  link := OrderLink.start risk baseQty

/--
The conditions of `Programs.Careful`. The workers, the engine and the exchange need none.
-/
def Careful (s : Trading) (l : Label) : Prop :=
  match l with
  | .programs l => s.programs.Careful l
  | _ => True

instance (s : Trading) (l : Label) : Decidable (Careful s l) :=
  match l with
  | .programs l => inferInstanceAs (Decidable (s.programs.Careful l))
  | .worker _ _ | .venue _ => isTrue trivial

/--
The threads that build the books have nothing left to do, and neither has a worker.
-/
def Ended (s : Trading) : Prop := s.programs.Ended ∧ ∀ i < s.programs.machine.nworkers, s.tasks i = .idle

instance (s : Trading) : Decidable s.Ended := inferInstanceAs (Decidable (_ ∧ _))

/--
The decisions that a worker has handed to the engine.
-/
def handed (s : Trading) (i : Nat) : List ArbDecision := (s.submitted.filter (fun x => x.1 = i)).map Prod.snd

end Trading

/--
The market order of a decision, without its id.
-/
def ArbDecision.order (d : ArbDecision) (baseQty : Nat) : Option Order :=
  if d.dir = .NONE ∨ d.signal.quantity baseQty = 0 then
    none
  else
    some {
      orderId := 0
      strategyId := 1
      symbolId := d.locate
      side := d.dir
      type := .MARKET
      price := 0
      quantity := d.signal.quantity baseQty
      timestamp := 0
    }

/--
Each order gets the next id, from 1 on.
-/
def OrderManager.number (os : List Order) : List Order := (os.zipIdx 1).map (fun o => { o.1 with orderId := o.2 })

end NebulaXTrader
