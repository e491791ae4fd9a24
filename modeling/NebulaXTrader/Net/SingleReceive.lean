import NebulaXTrader.Lib.Run
import NebulaXTrader.Net.IoUringPoller

/-!
This module contains the model of `IoUringSender::recv`, which `IoUringReceiver::recv` repeats line by line: one recv at a
time into one fixed buffer, between the completions of the kernel and a call of `stop`.
-/

namespace NebulaXTrader

namespace SingleReceiver

/--
An entry of the submission queue and one of the completion queue. The timeouts have the user data `k_timeout_token`.
-/
inductive Sqe where
  | recv
  | timeout
  deriving DecidableEq, Repr

inductive Cqe where
  | recv (res : Int)
  | timeout (res : Int)
  deriving DecidableEq, Repr

def Cqe.isRecv (e : Cqe) : Bool :=
  match e with
  | .recv _ => true
  | .timeout _ => false

/--
Where the call is. `len` is the size of the caller's buffer, `got` and `result` are the variables of the function. The
first three are those of the call that does not block.
-/
inductive Pc where
  | idle
  | submitNow (len : Nat)
  | peek (len : Nat)
  | process (len : Nat) (result : Int)
  | submit (len : Nat)
  | wait (len : Nat)
  | reap (len : Nat) (got : Bool) (result : Int)
  | copy (len : Nat) (result : Int)
  deriving DecidableEq, Repr

def Pc.Fits (pc : Pc) : Prop :=
  match pc with
  | .copy len result => result.toNat ≤ len
  | _ => True

instance (pc : Pc) : Decidable pc.Fits :=
  match pc with
  | .copy _ _ => inferInstanceAs (Decidable (_ ≤ _))
  | .idle | .submitNow _ | .peek _ | .process _ _ | .submit _ | .wait _ | .reap _ _ _ => isTrue trivial

/--
What `io_uring_submit_and_wait` makes the function do: go on, wait once more or return an error.
-/
inductive Waited where
  | ready
  | again
  | failed
  deriving DecidableEq, Repr

/--
`sqe` and `timer` say if the ring has an entry, `taken` how many entries the kernel takes, `none` that the submission
fails. `complete`, `fail` and `timeout` are the kernel.
-/
inductive Label where
  | setBlocking (blocking : Bool)
  | call (len : Nat)
  | submitNow (sqe : Bool) (taken : Option Nat)
  | submit (sqe : Bool)
  | wait (timer : Bool) (taken : Nat) (ret : Waited)
  | run
  | stop
  | complete (x : List UInt8)
  | fail (res : Int)
  | timeout (res : Int)
  deriving DecidableEq, Repr

end SingleReceiver

open SingleReceiver in
/--
`buf` is the fixed buffer, `hasBuf` says that its index is valid. `inflight` and `timers` count what the kernel has not
completed. `waited` records that a timeout has been prepared, `astray` that a call has used the buffer after `stop()` has
made its index invalid, `completed` the data that the kernel has put into the buffer, `returns` what the calls have
returned with the bytes that they have stored.
-/
structure SingleReceiver where
  buf : List UInt8 := List.replicate IoUringPoller.BUF_SIZE 0
  hasBuf : Bool := true
  sq : List Sqe := []
  inflight : Nat := 0
  timers : Nat := 0
  cq : List Cqe := []
  pending : Bool := false
  blocking : Bool := true
  running : Bool := true
  pc : Pc := .idle
  waited : Bool := false
  astray : Bool := false
  completed : List (List UInt8) := []
  returns : List (Int × List UInt8) := []

namespace SingleReceiver

def EAGAIN : Int := 11

def start : SingleReceiver := {}

variable (s : SingleReceiver)

def ret (n : Int) (out : List UInt8) : SingleReceiver := { s with pc := .idle, returns := s.returns ++ [(n, out)] }

/--
The kernel takes the first `n` entries.
-/
def take (n : Nat) : SingleReceiver :=
  { s with
    sq := s.sq.drop n
    inflight := s.inflight + (s.sq.take n).count Sqe.recv
    timers := s.timers + (s.sq.take n).count Sqe.timeout }

/--
A recv is prepared into the fixed buffer. Without a valid index its address is outside of the array.
-/
def prepare : SingleReceiver := { s with sq := s.sq ++ [.recv], astray := s.astray || !s.hasBuf }

def call (len : Nat) : SingleReceiver :=
  if s.running = false ∨ len = 0 then
    s.ret 0 []
  else if s.blocking = false then
    { s with pc := if s.pending then .peek len else .submitNow len }
  else
    { s with pc := if s.pending then .wait len else .submit len }

def submitNow (len : Nat) (sqe : Bool) (taken : Option Nat) : SingleReceiver :=
  if sqe then
    let s := s.prepare
    match taken with
    | some n => { s.take n with pending := true, pc := .peek len }
    | none => s.ret (-1) []
  else
    s.ret (-1) []

def submit (len : Nat) (sqe : Bool) : SingleReceiver :=
  if sqe then { s.prepare with pending := true, pc := .wait len } else s.ret (-1) []

def wait (len : Nat) (timer : Bool) (n : Nat) (r : Waited) : SingleReceiver :=
  let s : SingleReceiver := if timer then { s with sq := s.sq ++ [.timeout], waited := true } else s
  let s := s.take n
  match r with
  | .ready => { s with pc := .reap len false 0 }
  | .again => { s with pc := .wait len }
  | .failed => s.ret (-1) []

/--
The loop of `process_cqes` in the call that does not block, and what follows it.
-/
def process (len : Nat) (result : Int) : SingleReceiver :=
  match s.cq with
  | .timeout _ :: cq => { s with cq := cq }
  | .recv res :: cq => { s with cq := cq, pc := .process len res }
  | [] =>
    let s : SingleReceiver := { s with pending := false }
    if 0 ≤ result then
      { s with pc := .copy len result }
    else if result = -EAGAIN then
      s.ret 0 []
    else
      s.ret (-1) []

/--
The same in the call that blocks. After `-EAGAIN` it waits, although there is no recv any more.
-/
def reap (len : Nat) (got : Bool) (result : Int) : SingleReceiver :=
  match s.cq with
  | .timeout _ :: cq => { s with cq := cq }
  | .recv res :: cq => { s with cq := cq, pc := .reap len true res }
  | [] =>
    if got = false then
      if s.running = false then s.ret 0 [] else { s with pc := .wait len }
    else
      let s : SingleReceiver := { s with pending := false }
      if 0 ≤ result then
        { s with pc := .copy len result }
      else if s.running = false then
        s.ret 0 []
      else if result = -EAGAIN then
        { s with pc := .wait len }
      else
        s.ret (-1) []

/--
After `stop()` a copy reads the buffer with the index `UINT32_MAX`, which is outside of the array.
-/
def run : Option SingleReceiver :=
  match s.pc with
  | .peek len => some (if s.cq = [] then s.ret 0 [] else { s with pc := .process len 0 })
  | .process len result => some (s.process len result)
  | .reap len got result => some (s.reap len got result)
  | .copy len result =>
    let n := min result.toNat len
    if s.hasBuf then
      some (s.ret n (s.buf.take n))
    else
      some ({ s with astray := true }.ret n [])
  | _ => none

def complete (x : List UInt8) : SingleReceiver :=
  { s with
    buf := x ++ s.buf.drop x.length
    inflight := s.inflight - 1
    cq := s.cq ++ [.recv x.length]
    completed := s.completed ++ [x] }

def fail (res : Int) : SingleReceiver := { s with inflight := s.inflight - 1, cq := s.cq ++ [.recv res] }

def timeout (res : Int) : SingleReceiver := { s with timers := s.timers - 1, cq := s.cq ++ [.timeout res] }

def step (l : Label) : Option SingleReceiver :=
  match l with
  | .setBlocking blocking =>
    match s.pc with
    | .idle => some { s with blocking := blocking }
    | _ => none
  | .call len =>
    match s.pc with
    | .idle => some (s.call len)
    | _ => none
  | .submitNow sqe taken =>
    match s.pc with
    | .submitNow len => some (s.submitNow len sqe taken)
    | _ => none
  | .submit sqe =>
    match s.pc with
    | .submit len => some (s.submit len sqe)
    | _ => none
  | .wait timer n r =>
    match s.pc with
    | .wait len => some (s.wait len timer n r)
    | _ => none
  | .run => s.run
  | .stop => some (if s.running then { s with running := false, hasBuf := false } else s)
  | .complete x => if 0 < s.inflight ∧ x.length ≤ IoUringPoller.BUF_SIZE then some (s.complete x) else none
  | .fail res => if 0 < s.inflight ∧ res < 0 then some (s.fail res) else none
  | .timeout res => if 0 < s.timers then some (s.timeout res) else none

/--
The recvs that are prepared, in the kernel, or completed and not processed.
-/
def outstanding : Nat := s.sq.count Sqe.recv + s.inflight + s.cq.countP Cqe.isRecv

def delivered : List (List UInt8) := (s.returns.filter (fun r => 0 < r.1)).map Prod.snd

def chunk (res : Int) : List (List UInt8) := if 0 < res then [s.buf.take res.toNat] else []

/--
The data that the call has found and not returned yet. A call that does not block has found it when the queue is empty.
-/
def found : List (List UInt8) :=
  match s.pc with
  | .process _ result => if s.cq = [] then s.chunk result else []
  | .reap _ got result => if got then s.chunk result else []
  | .copy _ result => s.chunk result
  | _ => []

def queued (e : Cqe) : List (List UInt8) :=
  match e with
  | .recv res => s.chunk res
  | .timeout _ => []

def waiting : List (List UInt8) := s.found ++ s.cq.flatMap s.queued

/--
What the calls have returned and what waits is the data that the kernel has received, in its order and without the
empty pieces. There is one recv at most, and none while its bytes are copied. No call has used a buffer that it does not
own.
-/
structure Delivers : Prop where
  in_order : s.delivered ++ s.waiting = s.completed.filter (fun x => x ≠ [])
  single : s.outstanding ≤ 1
  apart : ∀ len result, s.pc = .copy len result → s.outstanding = 0
  owned : s.astray = false

/--
The next step of the call does not use the fixed buffer, or its index is valid.
-/
def Owns : Prop :=
  match s.pc with
  | .submitNow _ | .submit _ | .copy _ _ => s.hasBuf
  | _ => True

instance : Decidable s.Owns := by
  unfold Owns
  split
  all_goals infer_instance

/--
The calls that do not block come before the first that waits, their submissions do not fail, the caller's buffer holds the
data, and a call that `stop()` overtakes neither prepares a recv nor copies any more.
-/
def Clean (l : Label) : Prop :=
  match l with
  | .setBlocking blocking => blocking = false → s.waited = false
  | .submitNow sqe taken => sqe = true → taken.isSome ∧ s.Owns
  | .submit sqe => sqe = true → s.Owns
  | .run => s.pc.Fits ∧ s.Owns
  | _ => True

instance (l : Label) : Decidable (Clean s l) :=
  match l with
  | .setBlocking _ => inferInstanceAs (Decidable (_ → _))
  | .submitNow _ _ => inferInstanceAs (Decidable (_ → _))
  | .submit _ => inferInstanceAs (Decidable (_ → _))
  | .run => inferInstanceAs (Decidable (_ ∧ _))
  | .call _ | .wait _ _ _ | .stop | .complete _ | .fail _ | .timeout _ => isTrue trivial

end SingleReceiver

end NebulaXTrader
