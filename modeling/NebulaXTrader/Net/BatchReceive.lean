import NebulaXTrader.Net.IoUringPoller

/-!
This module contains the model of `IoUringReceiver::recv_batch` and of the thread that calls it, between the completions
of the kernel and the calls of `stop`.
-/

namespace NebulaXTrader

namespace BatchReceiver

/--
Where the receiving thread is. `len` is the size of the caller's buffer, `added` and `sawError` are the variables of
`reap_more`. It has marked an entry as seen in `seen`, and found it without an error in `store`.
-/
inductive Pc where
  | begin
  | idle
  | loop (len : Nat)
  | wait (len : Nat)
  | reap (len added : Nat) (sawError : Bool)
  | seen (len added : Nat) (sawError : Bool) (b : Nat)
  | store (len added : Nat) (sawError : Bool) (b : Nat)
  | take (len : Nat)
  | taken (len b : Nat) (nbytes : Int)
  | copied (b : Nat) (nbytes : Int) (n : Nat) (out : List UInt8)
  deriving DecidableEq, Repr

/--
`begin`, `call`, `run`, `wait` and `resubmit` are the receiving thread: `sqes` and `sqe` say how many entries the ring
has, `n` how many the kernel takes. `setStop` is the flag of the main thread, `stop` and `discard` are `stop()`. The
rest is the kernel: `reuse` writes another completion over the entry that has been marked as seen last.
-/
inductive Label where
  | begin (sqes n : Nat)
  | call (len : Nat)
  | run
  | wait (n : Nat)
  | resubmit (sqe : Bool)
  | setStop
  | stop
  | discard
  | complete (b : Nat) (x : List UInt8)
  | fail (b : Nat) (res : Int)
  | timeout (res : Int)
  | reuse (res : Int)
  deriving DecidableEq, Repr

end BatchReceiver

open BatchReceiver in
/--
`entry` is the result in the entry that has been marked as seen last, `left` says that the thread has left its loop.
`completed` are the datagrams that the kernel has put into buffers, `returns` what the calls have returned with the
bytes that they have stored.
-/
structure BatchReceiver where
  poller : IoUringPoller
  bufIdx : Option Nat
  running : Bool := true
  stopFlag : Bool := false
  left : Bool := false
  pc : Pc := .begin
  entry : Int := 0
  completed : List (List UInt8) := []
  returns : List (Int × List UInt8) := []

namespace BatchReceiver

open IoUringPoller (MAX_BUFFERS BUF_SIZE)

def start : BatchReceiver :=
  match ({} : IoUringPoller).allocBuffer with
  | none => { poller := {}, bufIdx := none }
  | some (b, p) => { poller := p, bufIdx := some b }

variable (s : BatchReceiver)

def ret (n : Int) (out : List UInt8) : BatchReceiver :=
  { s with pc := .idle, returns := s.returns ++ [(n, out)], left := s.left || decide (n ≤ 0) }

def call (len : Nat) : BatchReceiver :=
  if s.stopFlag then
    { s with left := true }
  else if s.running = false ∨ len = 0 then
    s.ret 0 []
  else
    { s with pc := .loop len }

def reap (len added : Nat) (sawError : Bool) : BatchReceiver :=
  match s.poller.cq with
  | [] =>
    if sawError then
      s.ret (if s.running then -1 else 0) []
    else if added = 0 ∧ s.running = false then
      s.ret 0 []
    else
      { s with pc := .loop len }
  | .timeout _ :: cq => { s with poller := { s.poller with cq := cq } }
  | .recv b res :: cq =>
    { s with poller := { s.poller with cq := cq }, entry := res, pc := .seen len added sawError b }

def seen (len added : Nat) (sawError : Bool) (b : Nat) : BatchReceiver :=
  if 0 ≤ s.entry then
    { s with pc := .store len added sawError b }
  else
    { s with poller := s.poller.freeBuffer b, pc := .reap len added true }

def store (len added : Nat) (sawError : Bool) (b : Nat) : BatchReceiver :=
  if s.poller.readyLen < MAX_BUFFERS then
    { s with poller := s.poller.pushReady b s.entry, pc := .reap len (added + 1) sawError }
  else
    { s with poller := s.poller.freeBuffer b, pc := .reap len added sawError }

/--
The cast of an `int` to `size_t`.
-/
def toSize (res : Int) : Nat := (res % 2 ^ 64).toNat

/--
An empty queue has no next state: `stop()` can empty it after `recv_batch` has looked at it, and the buffer with the
index `UINT32_MAX` is outside of the array.
-/
def run : Option BatchReceiver :=
  match s.pc with
  | .loop len => some { s with pc := if s.poller.readyLen = 0 then .wait len else .take len }
  | .reap len added sawError => some (s.reap len added sawError)
  | .seen len added sawError b => some (s.seen len added sawError b)
  | .store len added sawError b => some (s.store len added sawError b)
  | .take len =>
    match s.poller.takeReady with
    | none => none
    | some (e, p) => some { s with poller := p, pc := .taken len e.1 e.2 }
  | .taken len b nbytes =>
    let n := min (toSize nbytes) len
    some { s with pc := .copied b nbytes n ((s.poller.bufs b).take n) }
  | _ => none

def stop : BatchReceiver :=
  if s.running then
    match s.bufIdx with
    | none => { s with running := false }
    | some b => { s with running := false, bufIdx := none, poller := s.poller.freeBuffer b }
  else
    s

def step (l : Label) : Option BatchReceiver :=
  match l with
  | .begin sqes n =>
    match s.pc with
    | .begin => some { s with poller := (s.poller.submitInflight MAX_BUFFERS sqes).submit n, pc := .idle }
    | _ => none
  | .call len =>
    match s.pc with
    | .idle => if s.left then none else some (s.call len)
    | _ => none
  | .run => s.run
  | .wait n =>
    match s.pc with
    | .wait len => some { s with poller := s.poller.submit n, pc := .reap len 0 false }
    | _ => none
  | .resubmit sqe =>
    match s.pc with
    | .copied b _ n out => some ({ s with poller := s.poller.resubmitRecv b sqe }.ret n out)
    | _ => none
  | .setStop => some { s with stopFlag := true }
  | .stop => some s.stop
  | .discard =>
    if s.running then
      none
    else
      match s.poller.takeReady with
      | none => none
      | some (e, p) => some { s with poller := p.freeBuffer e.1 }
  | .complete b x =>
    if b ∈ s.poller.inflight ∧ x.length ≤ BUF_SIZE then
      some { s with poller := s.poller.complete b x, completed := s.completed ++ [x] }
    else
      none
  | .fail b res =>
    if b ∈ s.poller.inflight ∧ res < 0 then some { s with poller := s.poller.fail b res } else none
  | .timeout res => some { s with poller := s.poller.timeout res }
  | .reuse res => some { s with entry := res }

def received (x : List UInt8) : Int × List UInt8 := (x.length, x)

def delivered : List (Int × List UInt8) := s.returns.filter (fun r => 0 < r.1)

def item (p : IoUringPoller) (e : Nat × Int) : Int × List UInt8 := (e.2, (p.bufs e.1).take (toSize e.2))

def ofCqe (p : IoUringPoller) (e : IoUringPoller.Cqe) : Option (Int × List UInt8) :=
  match e with
  | .timeout _ => none
  | .recv b res => if 0 ≤ res then some (item p (b, res)) else none

/--
The datagrams that no call has returned yet: the one in hand, then the ready queue, then the entry that `reap_more`
looks at, then the completions that it has not seen.
-/
def inHand : List (Int × List UInt8) :=
  match s.pc with
  | .taken _ b nbytes => [item s.poller (b, nbytes)]
  | .copied _ _ n out => [((n : Int), out)]
  | _ => []

def inEntry : List (Int × List UInt8) :=
  match s.pc with
  | .seen _ _ _ b => if 0 ≤ s.entry then [item s.poller (b, s.entry)] else []
  | .store _ _ _ b => [item s.poller (b, s.entry)]
  | _ => []

def waiting : List (Int × List UInt8) :=
  s.inHand ++ s.poller.readyItems.map (item s.poller) ++ s.inEntry ++ s.poller.cq.filterMap (ofCqe s.poller)

/--
What holds of what the calls have returned: as long as the receiver runs they are the first of the datagrams in the
order of their completion, and the others wait. No call has returned 0 before `stop()`, and the thread stays in its
loop.
-/
structure Delivers : Prop where
  in_order : s.running = true → s.delivered ++ s.waiting = s.completed.map received
  once : List.Sublist s.delivered (s.completed.map received)
  zero : ∀ r ∈ s.returns, r.1 = 0 → s.running = false
  stays : s.left = true → s.stopFlag = true ∨ s.running = false

/-!
What has to hold of a step for that: the caller's buffer holds the datagram, which is not empty, `reap_more` has seen no
error when it is done, and the entry that it looks at is still the one that it has marked as seen.
-/

def CleanRun (pc : Pc) : Prop :=
  match pc with
  | .reap _ _ sawError => s.poller.cq = [] → sawError = true → s.stopFlag = true ∨ s.running = false
  | .taken len _ nbytes => toSize nbytes ≤ len
  | _ => True

instance (pc : Pc) : Decidable (CleanRun s pc) :=
  match pc with
  | .reap _ _ _ => inferInstanceAs (Decidable (_ → _ → _ ∨ _))
  | .taken _ _ _ => inferInstanceAs (Decidable (_ ≤ _))
  | .begin | .idle | .loop _ | .wait _ | .seen _ _ _ _ | .store _ _ _ _ | .take _ | .copied _ _ _ _ =>
    isTrue trivial

def CleanReturn (pc : Pc) : Prop :=
  match pc with
  | .copied _ nbytes _ _ => toSize nbytes = 0 → s.running = false
  | _ => True

instance (pc : Pc) : Decidable (CleanReturn s pc) :=
  match pc with
  | .copied _ _ _ _ => inferInstanceAs (Decidable (_ → _))
  | .begin | .idle | .loop _ | .wait _ | .reap _ _ _ | .seen _ _ _ _ | .store _ _ _ _ | .take _ | .taken _ _ _ =>
    isTrue trivial

def CleanReuse (res : Int) (pc : Pc) : Prop :=
  match pc with
  | .seen _ _ _ _ => res = s.entry
  | .store _ _ _ _ => res = s.entry
  | _ => True

instance (res : Int) (pc : Pc) : Decidable (CleanReuse s res pc) :=
  match pc with
  | .seen _ _ _ _ => inferInstanceAs (Decidable (_ = _))
  | .store _ _ _ _ => inferInstanceAs (Decidable (_ = _))
  | .begin | .idle | .loop _ | .wait _ | .reap _ _ _ | .take _ | .taken _ _ _ | .copied _ _ _ _ =>
    isTrue trivial

def Clean (l : Label) : Prop :=
  match l with
  | .call len => s.stopFlag = false → s.running = true → len ≠ 0
  | .run => s.CleanRun s.pc
  | .resubmit _ => s.CleanReturn s.pc
  | .reuse res => s.CleanReuse res s.pc
  | _ => True

instance (l : Label) : Decidable (Clean s l) :=
  match l with
  | .call _ => inferInstanceAs (Decidable (_ → _ → _))
  | .run => inferInstanceAs (Decidable (CleanRun _ _))
  | .resubmit _ => inferInstanceAs (Decidable (CleanReturn _ _))
  | .reuse _ => inferInstanceAs (Decidable (CleanReuse _ _ _))
  | .begin _ _ | .wait _ | .setStop | .stop | .discard | .complete _ _ | .fail _ _ | .timeout _ => isTrue trivial

end BatchReceiver

end NebulaXTrader
