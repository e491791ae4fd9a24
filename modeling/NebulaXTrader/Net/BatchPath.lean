import NebulaXTrader.Core.Types
import NebulaXTrader.Net.IoUringPoller

/-!
This module contains the model of one `IoUringPoller` under any sequence of the calls of its batch path, between the
completions of the kernel.
-/

namespace NebulaXTrader

namespace BatchPath

/--
Where the caller is. `added` and `sawError` are the variables of `reap_more`, which has marked an entry as seen in
`seen` and found it without an error in `store`.
-/
inductive Pc where
  | idle
  | reap (added : Nat) (sawError : Bool)
  | seen (added : Nat) (sawError : Bool) (b : Nat)
  | store (added : Nat) (sawError : Bool) (b : Nat)
  deriving DecidableEq, Repr

/--
`sqes` and `sqe` say how many entries the submission ring has, `n` how many the kernel takes. `run` is the next step
inside of `reap_more`. The kernel completes, and `reuse` writes over the entry that has been marked as seen last.
-/
inductive Label where
  | submitInflight (count sqes n : Nat)
  | reapMore (n : Nat)
  | run
  | takeReady
  | resubmitRecv (b : Nat) (sqe : Bool)
  | complete (b : Nat) (x : List UInt8)
  | fail (b : Nat) (res : Int)
  | timeout (res : Int)
  | reuse (res : Int)
  deriving DecidableEq, Repr

end BatchPath

open BatchPath in
/--
`entry` is the result in the entry that has been marked as seen last, `ret` what the last call has returned. `taken` are
the buffers that the caller has and has not resubmitted. `completed` are the buffers of the recvs that have succeeded
with their lengths, `stored` what has become ready, `returned` what `take_ready` has returned.
-/
structure BatchPath where
  poller : IoUringPoller := {}
  pc : Pc := .idle
  entry : Int := 0
  ret : Int := 0
  taken : List Nat := []
  completed : List (Nat × Int) := []
  stored : List (Nat × Int) := []
  returned : List (Nat × Int) := []

namespace BatchPath

open IoUringPoller (MAX_BUFFERS BUF_SIZE Cqe)

variable (s : BatchPath)

def submitInflight (count sqes n : Nat) : BatchPath :=
  let p := s.poller.submitInflight count sqes
  let submitted := p.sq.length - s.poller.sq.length
  { s with poller := if submitted = 0 then p else p.submit n, ret := submitted }

def reap (added : Nat) (sawError : Bool) : BatchPath :=
  match s.poller.cq with
  | [] => { s with pc := .idle, ret := if sawError then -1 else added }
  | .timeout _ :: cq => { s with poller := { s.poller with cq := cq } }
  | .recv b res :: cq =>
    { s with poller := { s.poller with cq := cq }, entry := res, pc := .seen added sawError b }

def seen (added : Nat) (sawError : Bool) (b : Nat) : BatchPath :=
  if 0 ≤ s.entry then
    { s with pc := .store added sawError b }
  else
    { s with poller := s.poller.freeBuffer b, pc := .reap added true }

def store (added : Nat) (sawError : Bool) (b : Nat) : BatchPath :=
  if s.poller.readyLen < MAX_BUFFERS then
    { s with
      poller := s.poller.pushReady b s.entry
      stored := s.stored ++ [(b, s.entry)]
      pc := .reap (added + 1) sawError }
  else
    { s with poller := s.poller.freeBuffer b, pc := .reap added sawError }

def run : Option BatchPath :=
  match s.pc with
  | .idle => none
  | .reap added sawError => some (s.reap added sawError)
  | .seen added sawError b => some (s.seen added sawError b)
  | .store added sawError b => some (s.store added sawError b)

def takeReady : BatchPath :=
  match s.poller.takeReady with
  | none => { s with ret := noIdx }
  | some (e, p) => { s with poller := p, ret := e.1, taken := e.1 :: s.taken, returned := s.returned ++ [e] }

def step (l : Label) : Option BatchPath :=
  match l with
  | .submitInflight count sqes n => if s.pc = .idle then some (s.submitInflight count sqes n) else none
  | .reapMore n =>
    if s.pc = .idle then some { s with poller := s.poller.submit n, pc := .reap 0 false } else none
  | .run => s.run
  | .takeReady => if s.pc = .idle then some s.takeReady else none
  | .resubmitRecv b sqe =>
    if s.pc = .idle ∧ b ∈ s.taken then
      some { s with poller := s.poller.resubmitRecv b sqe, taken := s.taken.erase b }
    else
      none
  | .complete b x =>
    if b ∈ s.poller.inflight ∧ x.length ≤ BUF_SIZE then
      some { s with poller := s.poller.complete b x, completed := s.completed ++ [(b, (x.length : Int))] }
    else
      none
  | .fail b res =>
    if b ∈ s.poller.inflight ∧ res < 0 then some { s with poller := s.poller.fail b res } else none
  | .timeout res => some { s with poller := s.poller.timeout res }
  | .reuse res => some { s with entry := res }

/--
The buffer whose completion `reap_more` looks at.
-/
def inHand : List Nat :=
  match s.pc with
  | .seen _ _ b => [b]
  | .store _ _ b => [b]
  | .idle | .reap _ _ => []

/--
The prepared recvs, the ones that the kernel has, and the completed ones that have not become ready.
-/
def inFlight : List Nat :=
  s.poller.sq ++ s.poller.inflight ++ s.poller.cq.filterMap Cqe.buf ++ s.inHand

def ready : List Nat := s.poller.readyItems.map Prod.fst

/--
What holds of the buffers. Each of them is once in one of the four places.
-/
structure Conserved : Prop where
  one_place : ∀ b, s.poller.free.count b + s.inFlight.count b + s.ready.count b + s.taken.count b =
    if b < MAX_BUFFERS then 1 else 0
  free_nodup : s.poller.free.Nodup
  handed_over : ∀ b, b ∈ s.poller.sq ∨ b ∈ s.poller.inflight → b ∉ s.ready ∧ b ∉ s.taken
  in_order : s.returned ++ s.poller.readyItems = s.stored

def success (e : Cqe) : Option (Nat × Int) :=
  match e with
  | .timeout _ => none
  | .recv b res => if 0 ≤ res then some (b, res) else none

def inEntry : List (Nat × Int) :=
  match s.pc with
  | .seen _ _ b => if 0 ≤ s.entry then [(b, s.entry)] else []
  | .store _ _ b => [(b, s.entry)]
  | .idle | .reap _ _ => []

/--
The successful completions that have not become ready.
-/
def pending : List (Nat × Int) := s.inEntry ++ s.poller.cq.filterMap success

/--
The entry that `reap_more` still reads keeps its result.
-/
def Untouched (l : Label) : Prop :=
  match l with
  | .reuse res => s.inHand ≠ [] → res = s.entry
  | _ => True

instance (l : Label) : Decidable (Untouched s l) :=
  match l with
  | .reuse _ => inferInstanceAs (Decidable (_ → _))
  | .submitInflight _ _ _ | .reapMore _ | .run | .takeReady | .resubmitRecv _ _ | .complete _ _ | .fail _ _
  | .timeout _ => isTrue trivial

end BatchPath

end NebulaXTrader
