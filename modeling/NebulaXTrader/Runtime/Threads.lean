import NebulaXTrader.Lib.Run
import NebulaXTrader.Queue.Lemmas.SPSCEventRing

/-!
This module contains the model of the trader once the parser has stopped: the end of the stop sequence of
the main thread, the loop of the retry thread and the loops of the workers.
-/

namespace NebulaXTrader

open SPSCEventRing (Progress PushPc PopPc PeekPc PendingPc)

inductive MainPc where
  | storeParseDone
  | joinRetry
  | joinWorker (i : Nat)
  | stopped
  deriving DecidableEq

/--
`outer` is the condition of the loop, `inner` the first statement of its body. The spinning and the waiting
of an idle worker end by themselves and have no effect on anybody.
-/
inductive WorkerPc (α : Type) where
  | outerDone
  | outerPending (pc : PendingPc)
  | innerPending (pc : PendingPc)
  | innerDone
  | pop (pc : PopPc α)
  | finished
  deriving DecidableEq

/--
The scans of `all_empty` and of the body look at the buckets one after the other.
-/
inductive RetryPc (α : Type) where
  | outerDone
  | outerEmpty (i : Nat) (pc : PendingPc)
  | innerEmpty (i : Nat) (pc : PendingPc)
  | innerDone
  | peek (i : Nat) (pc : PeekPc)
  | push (i : Nat) (ev : α) (pc : PushPc)
  | pop (i : Nat) (pc : PopPc α)
  | pending (i : Nat) (pc : PendingPc)
  | clear (i : Nat)
  | finished
  deriving DecidableEq

/--
Where a worker can be while the parser is not done, and what it can know there: the tail that it has loaded
is one that the ring had since the worker moved the head for the last time.
-/
def WorkerPc.Runs {α : Type} (pc : WorkerPc α) (r : SPSCEventRing α) (q : List α) : Prop :=
  match pc with
  | .outerDone => True
  | .innerPending pc => pc.Knows r q
  | .innerDone => True
  | .pop pc => pc.Knows r q
  | .outerPending _ => False
  | .finished => False

/--
The worker has found its ring empty and not yet asked whether the parser is done.
-/
def WorkerPc.FoundEmpty {α : Type} (pc : WorkerPc α) (r : SPSCEventRing α) : Prop :=
  match pc with
  | .innerPending (.loadHead tail) => tail = r.head
  | .innerDone => True
  | _ => False

structure Threads (α : Type) where
  parseDone : Bool := false
  spscs : Nat → SPSCEventRing α
  buckets : Nat → SPSCEventRing α
  active : Nat → Bool
  processed : Nat → List α := fun _ => []
  main : MainPc := .storeParseDone
  retry : RetryPc α := .outerDone
  workers : Nat → WorkerPc α := fun _ => .outerDone

namespace Threads

variable {α : Type}

inductive Party where
  | main
  | retry
  | worker (i : Nat)
  deriving DecidableEq

def setWorker (s : Threads α) (i : Nat) (pc : WorkerPc α) : Threads α :=
  { s with workers := Function.update s.workers i pc }

def setSpsc (s : Threads α) (i : Nat) (r : SPSCEventRing α) : Threads α :=
  { s with spscs := Function.update s.spscs i r }

def setBucket (s : Threads α) (i : Nat) (r : SPSCEventRing α) : Threads α :=
  { s with buckets := Function.update s.buckets i r }

def process (s : Threads α) (i : Nat) (ev : α) : Threads α :=
  { s with processed := Function.update s.processed i (s.processed i ++ [ev]) }

@[simp]
theorem setWorker_self (s : Threads α) (i : Nat) (pc : WorkerPc α)
    : (s.setWorker i pc).workers i = pc := Function.update_self _ _ _

@[simp]
theorem setSpsc_self (s : Threads α) (i : Nat) (r : SPSCEventRing α) : (s.setSpsc i r).spscs i = r :=
  Function.update_self _ _ _

@[simp]
theorem process_self (s : Threads α) (i : Nat) (ev : α)
    : (s.process i ev).processed i = s.processed i ++ [ev] := Function.update_self _ _ _

theorem setWorker_of_ne (s : Threads α) {i j : Nat} (pc : WorkerPc α) (h : j ≠ i)
    : (s.setWorker i pc).workers j = s.workers j := Function.update_of_ne h _ _

theorem setSpsc_of_ne (s : Threads α) {i j : Nat} (r : SPSCEventRing α) (h : j ≠ i)
    : (s.setSpsc i r).spscs j = s.spscs j := Function.update_of_ne h _ _

theorem process_of_ne (s : Threads α) {i j : Nat} (ev : α) (h : j ≠ i)
    : (s.process i ev).processed j = s.processed j := Function.update_of_ne h _ _

def stepMain (n : Nat) (s : Threads α) : Option (Threads α) :=
  match s.main with
  | .storeParseDone => some { s with parseDone := true, main := .joinRetry }
  | .joinRetry =>
    match s.retry with
    | .finished => some { s with main := .joinWorker 0 }
    | _ => none
  | .joinWorker i =>
    if i < n then
      match s.workers i with
      | .finished => some { s with main := .joinWorker (i + 1) }
      | _ => none
    else
      some { s with main := .stopped }
  | .stopped => none

def stepWorker (s : Threads α) (i : Nat) : Option (Threads α) :=
  match s.workers i with
  | .outerDone =>
    if s.parseDone then
      some (s.setWorker i (.outerPending .loadTail))
    else
      some (s.setWorker i (.innerPending .loadTail))
  | .outerPending pc =>
    match (s.spscs i).pending pc with
    | .next pc => some (s.setWorker i (.outerPending pc))
    | .ret pending =>
      if pending > 0 then
        some (s.setWorker i (.innerPending .loadTail))
      else
        some (s.setWorker i .finished)
  | .innerPending pc =>
    match (s.spscs i).pending pc with
    | .next pc => some (s.setWorker i (.innerPending pc))
    | .ret pending =>
      if pending = 0 then
        some (s.setWorker i .innerDone)
      else
        some (s.setWorker i (.pop .loadHead))
  | .innerDone =>
    if s.parseDone then
      some (s.setWorker i .finished)
    else
      some (s.setWorker i .outerDone)
  | .pop pc =>
    match (s.spscs i).pop pc with
    | (r, .next pc) => some ((s.setSpsc i r).setWorker i (.pop pc))
    | (r, .ret none) => some ((s.setSpsc i r).setWorker i .outerDone)
    | (r, .ret (some ev)) => some (((s.setSpsc i r).process i ev).setWorker i (.pop .loadHead))
  | .finished => none

def stepRetry (n : Nat) (s : Threads α) : Option (Threads α) :=
  match s.retry with
  | .outerDone =>
    if s.parseDone then
      some { s with retry := .outerEmpty 0 .loadTail }
    else
      some { s with retry := .innerEmpty 0 .loadTail }
  | .outerEmpty i pc =>
    if i < n then
      match (s.buckets i).pending pc with
      | .next pc => some { s with retry := .outerEmpty i pc }
      | .ret pending =>
        if pending > 0 then
          some { s with retry := .innerEmpty 0 .loadTail }
        else
          some { s with retry := .outerEmpty (i + 1) .loadTail }
    else
      some { s with retry := .finished }
  | .innerEmpty i pc =>
    if i < n then
      match (s.buckets i).pending pc with
      | .next pc => some { s with retry := .innerEmpty i pc }
      | .ret pending =>
        if pending > 0 then
          some { s with retry := .peek 0 .loadHead }
        else
          some { s with retry := .innerEmpty (i + 1) .loadTail }
    else
      some { s with retry := .innerDone }
  | .innerDone =>
    if s.parseDone then
      some { s with retry := .finished }
    else
      some { s with retry := .outerDone }
  | .peek i pc =>
    if i < n then
      match (s.buckets i).peek pc with
      | .next pc => some { s with retry := .peek i pc }
      | .ret none => some { s with retry := .pending i .loadTail }
      | .ret (some ev) => some { s with retry := .push i ev .loadTail }
    else
      some { s with retry := .outerDone }
  | .push i ev pc =>
    match (s.spscs i).push ev pc with
    | (r, .next pc) => some { s.setSpsc i r with retry := .push i ev pc }
    | (r, .ret true) => some { s.setSpsc i r with retry := .pop i .loadHead }
    | (r, .ret false) => some { s.setSpsc i r with retry := .pending i .loadTail }
  | .pop i pc =>
    match (s.buckets i).pop pc with
    | (r, .next pc) => some { s.setBucket i r with retry := .pop i pc }
    | (r, .ret _) => some { s.setBucket i r with retry := .peek i .loadHead }
  | .pending i pc =>
    match (s.buckets i).pending pc with
    | .next pc => some { s with retry := .pending i pc }
    | .ret pending =>
      if pending = 0 then
        some { s with retry := .clear i }
      else
        some { s with retry := .peek (i + 1) .loadHead }
  | .clear i =>
    some { s with active := Function.update s.active i false, retry := .peek (i + 1) .loadHead }
  | .finished => none

def step (n : Nat) (s : Threads α) (p : Party) : Option (Threads α) :=
  match p with
  | .main => s.stepMain n
  | .retry => s.stepRetry n
  | .worker i => if i < n then s.stepWorker i else none

/--
Where the retry thread can be while the parser is not done. The event that it pushes, and the one that it
takes out after that, is the first one of the bucket.
-/
def RetryRuns (n : Nat) (s : Threads α) : Prop :=
  match s.retry with
  | .outerDone => True
  | .innerEmpty i pc => i < n → pc.Knows (s.buckets i) (s.buckets i).contents
  | .innerDone => True
  | .peek i pc => i < n → pc.Knows (s.buckets i) (s.buckets i).contents
  | .push i ev pc =>
    i < n ∧ pc.Knows (s.spscs i) (s.spscs i).contents ev ∧ ∃ rest, (s.buckets i).contents = ev :: rest
  | .pop i pc => i < n ∧ pc.Knows (s.buckets i) (s.buckets i).contents ∧ (s.buckets i).contents ≠ []
  | .pending i pc => i < n ∧ pc.Knows (s.buckets i) (s.buckets i).contents
  | .clear i => i < n
  | .outerEmpty _ _ => False
  | .finished => False

/--
The main thread begins its stop sequence, the other threads are anywhere in their loops.
-/
structure Starts (n : Nat) (s : Threads α) : Prop where
  parseDone : s.parseDone = false
  main : s.main = .storeParseDone
  retry : s.RetryRuns n
  workers : ∀ i, i < n → (s.workers i).Runs (s.spscs i) (s.spscs i).contents
  spscs : ∀ i, i < n → (s.spscs i).Valid
  buckets : ∀ i, i < n → (s.buckets i).Valid

/--
Between its push and its pop the retry thread has an event in the ring and in the bucket.
-/
def backlog (s : Threads α) (i : Nat) : List α :=
  match s.retry with
  | .pop j _ => if j = i then (s.buckets i).contents.tail else (s.buckets i).contents
  | _ => (s.buckets i).contents

/--
What the threads that have terminated leave behind: the retry thread no bucket with events, and a worker
nothing in its bucket and its ring, because it has processed all of it.
-/
def Complete (n : Nat) (start s : Threads α) : Prop :=
  (s.retry = .finished → ∀ i, i < n → (s.buckets i).contents = []) ∧
  ∀ i, i < n → s.workers i = .finished →
    (s.buckets i).contents = [] ∧ (s.spscs i).contents = [] ∧
      s.processed i = start.processed i ++ (start.spscs i).contents ++ start.backlog i

end Threads

end NebulaXTrader
