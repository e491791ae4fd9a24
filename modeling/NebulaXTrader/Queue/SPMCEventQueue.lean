import NebulaXTrader.Lib.Run
import NebulaXTrader.Queue.SPSCEventRing

/-!
This module contains the model of `SPMCEventQueue`, access by access, and of the threads on several such queues: one
producer, whose cached minimum is the same for all queues, and the consumers of each queue.
-/

namespace NebulaXTrader

open SPSCEventRing (Progress)

/--
What a consumer keeps for itself: its position and how many pops it has not published.
-/
structure LocalState where
  head : Nat := 0
  pendingPublish : Nat := 0
  deriving DecidableEq, Repr

/--
`heads` are the published positions. A consumer without a valid eventfd has none in `wakeFds`.
-/
structure SPMCEventQueue (α : Type) where
  slots : Nat → α
  capacity : Nat
  numConsumers : Nat := 1
  tail : Nat := 0
  heads : Nat → Nat := fun _ => 0
  locals : Nat → LocalState := fun _ => {}
  wakeFds : Nat → Option Nat := fun _ => some 0
  blocked : BitVec 32 := 0

namespace SPMCEventQueue

def kMaxConsumers : Nat := 16

def kLazyBatch : Nat := 64

def kMaxHead : Nat := 2 ^ 64 - 1

/--
The largest value of an eventfd.
-/
def kMaxCount : Nat := 2 ^ 64 - 2

inductive PushPc where
  | loadTail
  | minConsumed (tail i minHead : Nat)
  | writeSlot (tail : Nat)
  | storeTail (tail : Nat)
  | loadBlocked
  | notify (m : BitVec 32) (i : Nat)
  deriving DecidableEq

inductive PopPc (α : Type) where
  | loadTail
  | readSlot (tail : Nat)
  | storeHead (tail : Nat) (ev : α)
  | flush (ev : Option α)
  deriving DecidableEq

inductive WaitPc where
  | register
  | pending
  | unregister
  | poll
  | woken (ret : Bool)
  | read
  deriving DecidableEq

variable {α : Type} (q : SPMCEventQueue α)

def slot (pos : Nat) : Nat := pos &&& (q.capacity - 1)

def bit (i : Nat) : BitVec 32 := 1#32 <<< i

def hasRoom (tail minHead : Nat) : Bool := Wrap.sub (2 ^ 64) tail minHead < q.capacity

/--
The loop of `min_consumed` from consumer `i` on, all at once.
-/
def minFrom (heads : Nat → Nat) (i n minHead : Nat) : Nat :=
  match n with
  | 0 => minHead
  | n + 1 => minFrom heads (i + 1) n (if heads i < minHead then heads i else minHead)

def minConsumed : Nat := minFrom q.heads 0 q.numConsumers kMaxHead

def pending (i : Nat) : Nat := Wrap.sub (2 ^ 64) q.tail (q.heads i)

def writeFd (i : Nat) : SPMCEventQueue α :=
  let write := fun count => if count < kMaxCount then count + 1 else count
  { q with wakeFds := Function.update q.wakeFds i ((q.wakeFds i).map write) }

/--
`cachedMinHead` is the cache of the thread that pushes, it is returned with the queue.
-/
def push (cachedMinHead : Nat) (ev : α) (pc : PushPc) : SPMCEventQueue α × Nat × Progress PushPc Bool :=
  match pc with
  | .loadTail =>
    if q.hasRoom q.tail cachedMinHead then
      (q, cachedMinHead, .next (.writeSlot q.tail))
    else
      (q, cachedMinHead, .next (.minConsumed q.tail 0 kMaxHead))
  | .minConsumed tail i minHead =>
    if i < q.numConsumers then
      let h := q.heads i
      (q, cachedMinHead, .next (.minConsumed tail (i + 1) (if h < minHead then h else minHead)))
    else if q.hasRoom tail minHead then
      (q, minHead, .next (.writeSlot tail))
    else
      (q, minHead, .ret false)
  | .writeSlot tail =>
    ({ q with slots := Function.update q.slots (q.slot tail) ev }, cachedMinHead, .next (.storeTail tail))
  | .storeTail tail => ({ q with tail := Wrap.add (2 ^ 64) tail 1 }, cachedMinHead, .next .loadBlocked)
  | .loadBlocked =>
    if q.blocked = 0 then
      (q, cachedMinHead, .ret true)
    else
      (q, cachedMinHead, .next (.notify q.blocked 0))
  | .notify m i =>
    if i < q.numConsumers then
      if m &&& bit i ≠ 0 then
        (q.writeFd i, cachedMinHead, .next (.notify m (i + 1)))
      else
        (q, cachedMinHead, .next (.notify m (i + 1)))
    else
      (q, cachedMinHead, .ret true)

/--
Only the consumer itself writes its two positions, so it compares them and stores in one step.
-/
def progressFlush (i : Nat) : SPMCEventQueue α :=
  let ls := q.locals i
  { q with
    heads := if ls.head ≠ q.heads i then Function.update q.heads i ls.head else q.heads
    locals := Function.update q.locals i { ls with pendingPublish := 0 } }

/--
Returns none if the consumer has seen all events.
-/
def pop (i : Nat) (pc : PopPc α) : SPMCEventQueue α × Progress (PopPc α) (Option α) :=
  let ls := q.locals i
  match pc with
  | .loadTail => if q.tail = ls.head then (q, .next (.flush none)) else (q, .next (.readSlot q.tail))
  | .readSlot tail => (q, .next (.storeHead tail (q.slots (q.slot ls.head))))
  | .storeHead tail ev =>
    let newHead := Wrap.add (2 ^ 64) ls.head 1
    let pendingPublish := ls.pendingPublish + 1
    let q' := { q with locals := Function.update q.locals i ⟨newHead, pendingPublish⟩ }
    if pendingPublish ≥ kLazyBatch ∨ newHead = tail then
      (q', .next (.flush (some ev)))
    else
      (q', .ret (some ev))
  | .flush ev => (q.progressFlush i, .ret ev)

/--
`poll` returns when the counter is not 0.
-/
def waitForData (i : Nat) (pc : WaitPc) : Option (SPMCEventQueue α × Progress WaitPc Bool) :=
  match pc with
  | .register =>
    if i ≥ kMaxConsumers ∨ q.wakeFds i = none then
      some (q, .ret false)
    else
      some ({ q with blocked := q.blocked ||| bit i }, .next .pending)
  -- the published position is the consumer's own, so only the load of the tail can interleave
  | .pending => if q.pending i > 0 then some (q, .next .unregister) else some (q, .next .poll)
  | .unregister => some ({ q with blocked := q.blocked &&& ~~~(bit i) }, .ret true)
  | .poll =>
    match q.wakeFds i with
    | some (_ + 1) => some (q, .next (.woken true))
    | _ => none
  | .woken ret =>
    let q' := { q with blocked := q.blocked &&& ~~~(bit i) }
    if ret then some (q', .next .read) else some (q', .ret false)
  | .read => some ({ q with wakeFds := Function.update q.wakeFds i ((q.wakeFds i).map (fun _ => 0)) }, .ret true)

end SPMCEventQueue

namespace Broadcast

open SPMCEventQueue (PushPc PopPc WaitPc)

inductive ProducerPc (α : Type) where
  | idle
  | push (k : Nat) (ev : α) (pc : PushPc)
  deriving DecidableEq

inductive ConsumerPc (α : Type) where
  | idle
  | pop (pc : PopPc α)
  | wait (pc : WaitPc)
  deriving DecidableEq

/--
A skip is a pop whose event is dropped. `interrupt` is the return of a `poll` with an error.
-/
inductive Label (α : Type) where
  | push (k : Nat) (ev : α)
  | producer
  | pop (k i : Nat)
  | skip (k i : Nat)
  | flush (k i : Nat)
  | wait (k i : Nat)
  | consumer (k i : Nat)
  | interrupt (k i : Nat)
  deriving DecidableEq

end Broadcast

open Broadcast in
/--
`pushed k` are the events of the successful pushes on queue `k`, `received k i` those that its consumer `i` has popped.
-/
structure Broadcast (α : Type) where
  queues : Nat → SPMCEventQueue α
  cachedMinHead : Nat := 0
  producer : ProducerPc α := .idle
  consumers : Nat → Nat → ConsumerPc α := fun _ _ => .idle
  pushed : Nat → List α := fun _ => []
  received : Nat → Nat → List α := fun _ _ => []

namespace Broadcast

open SPMCEventQueue (PushPc PopPc WaitPc)

variable {α : Type} (s : Broadcast α)

def setQueue (k : Nat) (q : SPMCEventQueue α) : Broadcast α := { s with queues := Function.update s.queues k q }

def setConsumer (k i : Nat) (pc : ConsumerPc α) : Broadcast α :=
  { s with consumers := Function.update s.consumers k (Function.update (s.consumers k) i pc) }

def setReceived (k i : Nat) (l : List α) : Broadcast α :=
  { s with received := Function.update s.received k (Function.update (s.received k) i l) }

/--
The events that the step of a push makes visible, and those that the step of a pop takes.
-/
def stored (ev : α) (pc : PushPc) : List α :=
  match pc with
  | .storeTail _ => [ev]
  | _ => []

def popped (pc : PopPc α) : List α :=
  match pc with
  | .storeHead _ ev => [ev]
  | _ => []

def afterPush (k : Nat) (ev : α) (p : Progress PushPc Bool) : ProducerPc α :=
  match p with
  | .next pc => .push k ev pc
  | .ret _ => .idle

def afterPop (p : Progress (PopPc α) (Option α)) : ConsumerPc α :=
  match p with
  | .next pc => .pop pc
  | .ret _ => .idle

def afterWait (p : Progress WaitPc Bool) : ConsumerPc α :=
  match p with
  | .next pc => .wait pc
  | .ret _ => .idle

def stepProducer : Option (Broadcast α) :=
  match s.producer with
  | .idle => none
  | .push k ev pc =>
    let (q, cache, p) := (s.queues k).push s.cachedMinHead ev pc
    some { s.setQueue k q with
      cachedMinHead := cache
      producer := afterPush k ev p
      pushed := Function.update s.pushed k (s.pushed k ++ stored ev pc) }

def stepPop (k i : Nat) (pc : PopPc α) : Broadcast α :=
  let (q, p) := (s.queues k).pop i pc
  ((s.setReceived k i (s.received k i ++ popped pc)).setQueue k q).setConsumer k i (afterPop p)

def stepWait (k i : Nat) (pc : WaitPc) : Option (Broadcast α) :=
  match (s.queues k).waitForData i pc with
  | some (q, p) => some ((s.setQueue k q).setConsumer k i (afterWait p))
  | none => none

def stepConsumer (k i : Nat) : Option (Broadcast α) :=
  match s.consumers k i with
  | .idle => none
  | .pop pc => some (s.stepPop k i pc)
  | .wait pc => s.stepWait k i pc

/--
A consumer of the queue starts a call when it is not in another one.
-/
def call (k i : Nat) (s' : Broadcast α) : Option (Broadcast α) :=
  match s.consumers k i with
  | .idle => if i < (s.queues k).numConsumers then some s' else none
  | _ => none

def step (s : Broadcast α) (l : Label α) : Option (Broadcast α) :=
  match l with
  | .push k ev =>
    match s.producer with
    | .idle => some { s with producer := .push k ev .loadTail }
    | _ => none
  | .producer => s.stepProducer
  | .pop k i | .skip k i => s.call k i (s.setConsumer k i (.pop .loadTail))
  | .flush k i => s.call k i (s.setQueue k ((s.queues k).progressFlush i))
  | .wait k i => s.call k i (s.setConsumer k i (.wait .register))
  | .consumer k i => s.stepConsumer k i
  | .interrupt k i =>
    match s.consumers k i with
    | .wait .poll => some (s.setConsumer k i (.wait (.woken false)))
    | _ => none

/--
What `QueueManager::create` returns, `eventfd` says which of the eventfds are valid.
-/
def create (slots : Nat → α) (capacity numConsumers : Nat) (eventfd : Nat → Bool) : SPMCEventQueue α where
  slots := slots
  capacity := capacity
  numConsumers := numConsumers
  wakeFds := fun i => if eventfd i then some 0 else none

def start (queues : Nat → SPMCEventQueue α) : Broadcast α where
  queues := queues

end Broadcast

structure SPMCEventQueue.Created {α : Type} (q : SPMCEventQueue α) : Prop where
  cap : ∃ n, n < 64 ∧ q.capacity = 2 ^ n
  consumers : q.numConsumers ≤ SPMCEventQueue.kMaxConsumers
  created : ∃ eventfd, q = Broadcast.create q.slots q.capacity q.numConsumers eventfd

end NebulaXTrader
