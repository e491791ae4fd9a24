import Mathlib.Logic.Function.Basic
import NebulaXTrader.Lib.Wrap

/-!
This module contains the model of `SPSCEventRing`, access by access: every load and store of `head_` and
`tail_` and every access to a slot is a step of the call that makes it, so that the calls of two threads can
interleave. The wake up of a blocked consumer is left out, it only ends a wait that times out by itself.
-/

namespace NebulaXTrader

structure SPSCEventRing (α : Type) where
  slots : Nat → α
  capacity : Nat
  head : Nat
  tail : Nat

namespace SPSCEventRing

inductive Progress (P R : Type) where
  | next (pc : P)
  | ret (r : R)

inductive PushPc where
  | loadTail
  | loadHead (tail : Nat)
  | writeSlot (tail : Nat)
  | storeTail (tail : Nat)
  deriving DecidableEq

inductive PopPc (α : Type) where
  | loadHead
  | loadTail (head : Nat)
  | readSlot (head : Nat)
  | storeHead (head : Nat) (ev : α)
  deriving DecidableEq

inductive PeekPc where
  | loadHead
  | loadTail (head : Nat)
  | readSlot (head : Nat)
  deriving DecidableEq

inductive PendingPc where
  | loadTail
  | loadHead (tail : Nat)
  deriving DecidableEq

variable {α : Type} (r : SPSCEventRing α)

def slot (pos : Nat) : Nat := pos &&& (r.capacity - 1)

/--
Returns false if the ring is full.
-/
def push (ev : α) (pc : PushPc) : SPSCEventRing α × Progress PushPc Bool :=
  match pc with
  | .loadTail => (r, .next (.loadHead r.tail))
  | .loadHead tail =>
    if Wrap.sub (2 ^ 64) tail r.head ≥ r.capacity then
      (r, .ret false)
    else
      (r, .next (.writeSlot tail))
  | .writeSlot tail =>
    ({ r with slots := Function.update r.slots (r.slot tail) ev }, .next (.storeTail tail))
  | .storeTail tail => ({ r with tail := Wrap.add (2 ^ 64) tail 1 }, .ret true)

/--
Returns none if the ring is empty.
-/
def pop (pc : PopPc α) : SPSCEventRing α × Progress (PopPc α) (Option α) :=
  match pc with
  | .loadHead => (r, .next (.loadTail r.head))
  | .loadTail head => if head = r.tail then (r, .ret none) else (r, .next (.readSlot head))
  | .readSlot head => (r, .next (.storeHead head (r.slots (r.slot head))))
  | .storeHead head ev => ({ r with head := Wrap.add (2 ^ 64) head 1 }, .ret (some ev))

def peek (pc : PeekPc) : Progress PeekPc (Option α) :=
  match pc with
  | .loadHead => .next (.loadTail r.head)
  | .loadTail head => if head = r.tail then .ret none else .next (.readSlot head)
  | .readSlot head => .ret (some (r.slots (r.slot head)))

def pending (pc : PendingPc) : Progress PendingPc Nat :=
  match pc with
  | .loadTail => .next (.loadHead r.tail)
  | .loadHead tail => .ret (Wrap.sub (2 ^ 64) tail r.head)

def contents : List α :=
  (List.range (Wrap.sub (2 ^ 64) r.tail r.head)).map
    (fun j => r.slots (r.slot (Wrap.add (2 ^ 64) r.head j)))

structure Valid : Prop where
  cap : ∃ k, k < 64 ∧ r.capacity = 2 ^ k
  head : r.head < 2 ^ 64
  tail : r.tail < 2 ^ 64
  fits : Wrap.sub (2 ^ 64) r.tail r.head ≤ r.capacity

end SPSCEventRing

end NebulaXTrader
