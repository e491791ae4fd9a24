import Mathlib.Data.Finset.Insert
import Mathlib.Data.Finset.Erase
import NebulaXTrader.Book.OrderPool
import NebulaXTrader.Lib.Run
import NebulaXTrader.Lib.Wrap

/-!
This module contains the model of an `OrderPool` that several threads use at once. Every atomic access is
a step of its own: a load of the list head, a load or a store of a link, an exchange of the head, an update
of the counter.
-/

namespace NebulaXTrader

namespace SharedPool

/--
Where a thread stands. `fh` is the head that it loaded, `since` the number of exchanges that had succeeded
at this moment.
-/
inductive Pc where
  | idle
  /-- `allocate` before its load of the head -/
  | allocate
  | loadNext (fh : TaggedHead) (since : Nat)
  | takeHead (fh : TaggedHead) (since next : Nat)
  | taken (idx : Nat)
  /-- `allocate` is about to return a null pointer -/
  | null
  /-- `deallocate` before its load of the head -/
  | deallocate (idx : Nat)
  | storeNext (idx : Nat) (fh : TaggedHead) (since : Nat)
  | pushHead (idx : Nat) (fh : TaggedHead) (since : Nat)
  | pushed
  deriving DecidableEq

/--
The slots that a thread holds are those that `allocate` returned to it.
-/
structure Thread where
  pc : Pc := .idle
  held : Finset Nat := ∅
  deriving DecidableEq

end SharedPool

/--
`exchanges` counts the successful exchanges of the list head. No thread reads it.
-/
structure SharedPool (T : Type) where
  pool : OrderPool
  threads : T → SharedPool.Thread
  exchanges : Nat

namespace SharedPool

variable {T : Type} [DecidableEq T]

inductive Label (T : Type) where
  | allocate (t : T)
  | deallocate (t : T) (idx : Nat)
  | advance (t : T)
  /-- `compare_exchange_weak` fails although the head is the expected one. -/
  | spurious (t : T)
  deriving DecidableEq

def init (T : Type) (capacity : Nat) : SharedPool T where
  pool := .init capacity
  threads _ := {}
  exchanges := 0

def setThread (s : SharedPool T) (t : T) (th : Thread) : SharedPool T :=
  { s with threads := Function.update s.threads t th }

def setPc (s : SharedPool T) (t : T) (pc : Pc) : SharedPool T :=
  s.setThread t { s.threads t with pc := pc }

def exchange (s : SharedPool T) (idx : Nat) : SharedPool T :=
  { s with
    pool := { s.pool with freeHead := s.pool.freeHead.bump idx }
    exchanges := s.exchanges + 1 }

def storeLink (s : SharedPool T) (idx next : Nat) : SharedPool T :=
  { s with pool := s.pool.modify idx (fun slot => { slot with poolNextFree := next }) }

def setSize (s : SharedPool T) (size : Nat) : SharedPool T :=
  { s with pool := { s.pool with size := size } }

/--
The test of the loop in `allocate` on the head that was just read, by a load or by an exchange that failed.
-/
def test (s : SharedPool T) (t : T) : SharedPool T :=
  if s.pool.freeHead.idx = noIdx then
    s.setPc t .null
  else
    s.setPc t (.loadNext s.pool.freeHead s.exchanges)

def advance (s : SharedPool T) (t : T) : Option (SharedPool T) :=
  match (s.threads t).pc with
  | .idle => none
  | .allocate => some (s.test t)
  | .loadNext fh since => some (s.setPc t (.takeHead fh since (s.pool.nextFree fh.idx)))
  | .takeHead fh _ next =>
    if s.pool.freeHead = fh then
      some ((s.exchange next).setPc t (.taken fh.idx))
    else
      some (s.test t)
  | .taken idx =>
    some ((s.setSize (Wrap.add (2 ^ 64) s.pool.size 1)).setThread t
      { pc := .idle, held := insert idx (s.threads t).held })
  | .null => some (s.setPc t .idle)
  | .deallocate idx => some (s.setPc t (.storeNext idx s.pool.freeHead s.exchanges))
  | .storeNext idx fh since => some ((s.storeLink idx fh.idx).setPc t (.pushHead idx fh since))
  | .pushHead idx fh _ =>
    if s.pool.freeHead = fh then
      some ((s.exchange idx).setPc t .pushed)
    else
      some (s.setPc t (.storeNext idx s.pool.freeHead s.exchanges))
  | .pushed => some ((s.setSize (Wrap.sub (2 ^ 64) s.pool.size 1)).setPc t .idle)

def spurious (s : SharedPool T) (t : T) : Option (SharedPool T) :=
  match (s.threads t).pc with
  | .takeHead _ _ _ => some (s.test t)
  | .pushHead idx _ _ => some (s.setPc t (.storeNext idx s.pool.freeHead s.exchanges))
  | _ => none

def step (s : SharedPool T) (l : Label T) : Option (SharedPool T) :=
  match l with
  | .allocate t => if (s.threads t).pc = .idle then some (s.setPc t .allocate) else none
  | .deallocate t idx =>
    if (s.threads t).pc = .idle ∧ idx ∈ (s.threads t).held then
      some (s.setThread t { pc := .deallocate idx, held := (s.threads t).held.erase idx })
    else
      none
  | .advance t => s.advance t
  | .spurious t => s.spurious t

/--
Fewer than `2 ^ 32` exchanges succeeded since the thread read the head that it now expects.
-/
def Timely (s : SharedPool T) (l : Label T) : Prop :=
  match l with
  | .advance t =>
    match (s.threads t).pc with
    | .takeHead _ since _ => s.exchanges < since + 2 ^ 32
    | .pushHead _ _ since => s.exchanges < since + 2 ^ 32
    | _ => True
  | _ => True

instance (s : SharedPool T) (l : Label T) : Decidable (Timely s l) := by
  unfold Timely
  split
  . split
    . infer_instance
    . infer_instance
    . infer_instance
  . infer_instance

def Pc.slot (pc : Pc) : Option Nat :=
  match pc with
  | .taken idx => some idx
  | .deallocate idx => some idx
  | .storeNext idx _ _ => some idx
  | .pushHead idx _ _ => some idx
  | _ => none

def Pc.isFreeing (pc : Pc) : Bool :=
  match pc with
  | .deallocate _ => true
  | .storeNext _ _ _ => true
  | .pushHead _ _ _ => true
  | _ => false

def Pc.isAllocating (pc : Pc) : Bool :=
  match pc with
  | .allocate => true
  | .loadNext _ _ => true
  | .takeHead _ _ _ => true
  | .null => true
  | _ => false

def Thread.Holds (th : Thread) (i : Nat) : Prop :=
  i ∈ th.held ∨ (th.pc.slot = some i ∧ th.pc.isFreeing = false)

def Thread.Frees (th : Thread) (i : Nat) : Prop :=
  th.pc.slot = some i ∧ th.pc.isFreeing

def Thread.Owns (th : Thread) (i : Nat) : Prop := i ∈ th.held ∨ th.pc.slot = some i

end SharedPool

end NebulaXTrader
