import NebulaXTrader.Runtime.MachineDecisions
import NebulaXTrader.Runtime.ReplaySession

/-!
This module contains the model of a replay as a whole: the client and the socket, the main and the receiving thread of the
trader, and behind them the threads that build the books. The receiving thread is in both halves: what `feed` pushes is
what the byte ring gets.
-/

namespace NebulaXTrader

namespace Message

/--
The message that a push of these bytes puts into the byte ring.
-/
def ofFrame (frame : List UInt8) : Option Message :=
  if h : 10 < frame.length ∧ frame.length ≤ 210 ∧ (frame.take 10).drop 8 = Positional.bytes 2 (frame.length - 10) then
    some {
      seq := Positional.word (frame.take 8)
      body := frame.drop 10
      seq_lt := by
        have hlt := Positional.word_lt (frame.take 8)
        rwa [List.length_take, Nat.min_eq_left (by omega)] at hlt
      body_pos := by
        rw [List.length_drop]
        omega
      body_le := by
        rw [List.length_drop]
        omega }
  else
    none

def numbered (k : Nat) (bs : List ItchBody) : List Message :=
  match bs with
  | [] => []
  | b :: bs =>
    { seq := k % 2 ^ 64
      body := b.1
      seq_lt := Nat.mod_lt _ (Nat.two_pow_pos 64)
      body_pos := b.2.1
      body_le := b.2.2 } :: numbered (k + 1) bs

end Message

def Machine.offer (s : Machine) (messages : List Message) : Machine := { s with pipe := s.pipe.offer messages }

structure Programs where
  flow : FlowControl
  machine : Machine

namespace Programs

inductive Label where
  | flow (l : FlowControl.Label)
  | machine (a : Machine.Action)
  deriving DecidableEq

/--
The push of the receiving thread has not returned.
-/
def Pushing (s : Programs) : Prop := s.machine.pipe.todo ≠ [] ∨ s.machine.pipe.unpacker ≠ .loadHead

instance (s : Programs) : Decidable s.Pushing := inferInstanceAs (Decidable (_ ∨ _))

/--
The threads behind the byte ring at a step of the receiving thread.
-/
def handOver (s : Programs) : Option Machine :=
  match s.flow.recv with
  | .feed (frame :: _) => (Message.ofFrame frame).map (fun m => s.machine.offer [m])
  | _ => some s.machine

def stepRecv (s : Programs) : Option Programs :=
  if s.Pushing then
    none
  else
    match s.flow.stepRecv, s.handOver with
    | some flow, some machine => some { flow := flow, machine := machine }
    | _, _ => none

def step (cfg : PackingLoop.Config) (capacity : Nat) (s : Programs) (l : Label) : Option Programs :=
  match l with
  | .flow .recv => s.stepRecv
  | .flow l => (s.flow.step cfg capacity l).map (fun flow => { s with flow := flow })
  | .machine a => (s.machine.step a).map (fun machine => { s with machine := machine })

def start (k c nworkers pool index : Nat) (buf : Nat → UInt8) (slots : Nat → MarketEvent) : Programs where
  flow := .start
  machine := .start k c nworkers pool index buf slots []

/--
No call of `sendto` fails, and the threads of the trader take their steps under the conditions of `Machine.Careful`.
-/
def Careful (s : Programs) (l : Label) : Prop :=
  match l with
  | .flow (.sendto r) => 0 < r
  | .flow _ => True
  | .machine a => s.machine.Careful a

instance (s : Programs) (l : Label) : Decidable (Careful s l) :=
  match l with
  | .flow l =>
    match l with
    | .sendto r => inferInstanceAs (Decidable (0 < r))
    | .loadReady | .run | .rand _ | .loadReceived | .fetchAdd | .storeDone | .main | .recv | .fails => isTrue trivial
  | .machine a => inferInstanceAs (Decidable (s.machine.Careful a))

/--
The main thread has stopped the receiving thread, and the threads behind it have nothing left to do.
-/
def Ended (s : Programs) : Prop := s.flow.main = .stopped ∧ s.machine.Drained

instance (s : Programs) : Decidable s.Ended := inferInstanceAs (Decidable (_ ∧ _))

end Programs

end NebulaXTrader
