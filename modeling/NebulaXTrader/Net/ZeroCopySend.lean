import Mathlib.Logic.Function.Basic
import NebulaXTrader.Net.OrderStream

/-!
This module contains the model of `IoUringSender::send` and of the two queues that it shares with the kernel: the calls
one after the other, the submissions, and the completions that become visible in any order.
-/

namespace NebulaXTrader

namespace ZeroCopySend

/--
The entries of the submission queue, the second argument of `io_uring_queue_init`.
-/
def kEntries : Nat := 256

/--
`len` bytes of the buffer from the offset `ptr` on, which the send with number `call` asks for.
-/
structure Submission where
  call : Nat
  ptr : Nat
  len : Nat
  deriving DecidableEq, Repr

/--
The two completions of submission `i`. Both are in one queue and `send` does not tell them apart.
-/
inductive Cqe where
  | result (i : Nat) (res : Int)
  | notification (i : Nat)
  deriving DecidableEq, Repr

def Cqe.res (e : Cqe) : Int :=
  match e with
  | .result _ res => res
  | .notification _ => 0

inductive SendPc where
  | idle
  | push (c : Nat)
  | loop (c remaining : Nat)
  | submit (c remaining : Nat)
  | wait (c remaining : Nat)
  deriving DecidableEq, Repr

/--
`accepts` is the kernel taking bytes of a submission or failing it. `submit n` is an `io_uring_submit` that hands over
`n` prepared entries, `timeout` the return of the wait with `-ETIME` or `-EINTR`.
-/
inductive Label where
  | send (m : List UInt8)
  | run
  | submit (n : Nat)
  | submitError (err : Int)
  | timeout
  | waitError (err : Int)
  | stop
  | accepts (i : Nat) (res : Int)
  | post (i : Nat)
  | notify (i : Nat)
  deriving DecidableEq, Repr

end ZeroCopySend

open ZeroCopySend in
/--
`answers` are the results that the kernel has decided, `posted` and `notified` say which completions are visible.
`origin` is the byte of a message that an offset of the buffer holds, `accepted` are the bytes that the kernel has
taken.
-/
structure ZeroCopySend where
  running : Bool := true
  ring : SPSCByteRing
  errno : Int := 0
  pc : SendPc := .idle
  calls : Nat := 0
  messages : Nat → List UInt8 := fun _ => []
  returned : Nat → Option Int := fun _ => none
  prepared : Nat := 0
  submitted : Nat := 0
  submissions : Nat → Submission := fun _ => ⟨0, 0, 0⟩
  answers : Nat → Option Int := fun _ => none
  posted : Nat → Bool := fun _ => false
  notified : Nat → Bool := fun _ => false
  cq : List Cqe := []
  origin : Nat → Option (Nat × Nat) := fun _ => none
  accepted : List (Option (Nat × Nat)) := []

namespace ZeroCopySend

open SPSCByteRing (plan acquire pos)
open IoUringSender (EAGAIN)

variable (s : ZeroCopySend)

def ret (c : Nat) (r : Int) : ZeroCopySend :=
  { s with pc := .idle, returned := Function.update s.returned c (some r) }

def called (m : List UInt8) : ZeroCopySend :=
  { s with calls := s.calls + 1, messages := Function.update s.messages s.calls m }

def send (m : List UInt8) : Option ZeroCopySend :=
  match s.pc with
  | .idle =>
    if s.running = false ∨ m.length = 0 then
      some ((s.called m).ret s.calls 0)
    else
      some { s.called m with pc := .push s.calls }
  | _ => none

/--
Where the bytes of call `c` go when `push` stores its message.
-/
def tags (r : SPSCByteRing) (c : Nat) (m : List UInt8) : List (Nat × List (Option (Nat × Nat))) :=
  match plan r.capacity r.head r.tail m with
  | none => []
  | some p => Cells.number (fun j => some (c, j)) 0 p.copies

def push (c : Nat) : ZeroCopySend :=
  let m := s.messages c
  match s.ring.push m with
  | some ring =>
    { s with ring := ring, origin := Cells.writeAll s.origin (tags s.ring c m), pc := .loop c m.length }
  | none => if s.running then s else s.ret c 0

/--
The loop of `send_zc_all` up to the preparation of the next entry.
-/
def loop (c remaining : Nat) : ZeroCopySend :=
  if remaining = 0 then
    s.ret c (s.messages c).length
  else
    let chunk := acquire s.ring.capacity s.ring.head s.ring.tail remaining
    if chunk = 0 then
      if s.running then s else s.ret c 0
    else if kEntries ≤ s.prepared - s.submitted then
      { s with errno := EAGAIN }.ret c (-1)
    else
      let sqe := ⟨c, pos s.ring.capacity s.ring.head, chunk⟩
      { s with
        submissions := Function.update s.submissions s.prepared sqe
        prepared := s.prepared + 1
        pc := .submit c remaining }

/--
The wait takes the completion at the head of the queue, whatever it is.
-/
def seen (c remaining : Nat) : Option ZeroCopySend :=
  match s.cq with
  | [] => none
  | e :: cq =>
    let s := { s with cq := cq }
    let sent := e.res
    if sent > 0 then
      let n := sent.toNat
      some { s with ring := s.ring.readRelease n, pc := .loop c (sub64 remaining n) }
    else
      let errno := if sent = 0 then IoUringSender.EIO else -sent
      some ({ s with ring := s.ring.readRelease remaining, errno := errno }.ret c (-1))

def run : Option ZeroCopySend :=
  match s.pc with
  | .idle => none
  | .push c => some (s.push c)
  | .loop c remaining => some (s.loop c remaining)
  | .submit .. => none
  | .wait c remaining => s.seen c remaining

def timeout : Option ZeroCopySend :=
  match s.pc, s.cq with
  | .wait c remaining, [] => if s.running then some { s with pc := .submit c remaining } else some (s.ret c 0)
  | _, _ => none

/--
The kernel answers a submission once, with at most as many bytes as it asks for, and reads them out of the buffer.
-/
def accept (i : Nat) (res : Int) : Option ZeroCopySend :=
  let sqe := s.submissions i
  if i < s.submitted ∧ s.answers i = none ∧ res ≤ sqe.len then
    some { s with
      answers := Function.update s.answers i (some res)
      accepted := s.accepted ++ Cells.read s.origin sqe.ptr res.toNat }
  else
    none

def post (i : Nat) : Option ZeroCopySend :=
  match s.answers i with
  | some res =>
    if s.posted i then
      none
    else
      some { s with posted := Function.update s.posted i true, cq := s.cq ++ [.result i res] }
  | none => none

def notify (i : Nat) : Option ZeroCopySend :=
  if s.posted i ∧ s.notified i = false then
    some { s with notified := Function.update s.notified i true, cq := s.cq ++ [.notification i] }
  else
    none

def step (s : ZeroCopySend) (l : Label) : Option ZeroCopySend :=
  match l with
  | .send m => s.send m
  | .run => s.run
  | .submit n =>
    match s.pc with
    | .submit c remaining =>
      if s.submitted + n ≤ s.prepared then
        some { s with submitted := s.submitted + n, pc := .wait c remaining }
      else
        none
    | _ => none
  | .submitError err =>
    match s.pc with
    | .submit c _ => some ({ s with errno := err }.ret c (-1))
    | _ => none
  | .timeout => s.timeout
  | .waitError err =>
    match s.pc, s.cq with
    | .wait c _, [] => some ({ s with errno := err }.ret c (-1))
    | _, _ => none
  | .stop => some { s with running := false }
  | .accepts i res => s.accept i res
  | .post i => s.post i
  | .notify i => s.notify i

def start (buf : Nat → UInt8) (capacity : Nat) : ZeroCopySend where
  ring := .fresh buf capacity

def Accepted (c : Nat) : Prop := ∀ j, j < (s.messages c).length → some (c, j) ∈ s.accepted

/--
A call has returned the length of its message if and only if the kernel has taken all bytes of it.
-/
def Truthful : Prop := ∀ c r, s.returned c = some r → (r = (s.messages c).length ↔ s.Accepted c)

end ZeroCopySend

end NebulaXTrader
