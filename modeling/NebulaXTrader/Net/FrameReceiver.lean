import Mathlib.Data.List.Pairwise
import Mathlib.Logic.Function.Basic
import NebulaXTrader.Lib.Blocks
import NebulaXTrader.Lib.Run
import NebulaXTrader.Net.FrameUtil

/-!
This module contains the model of the receivers that share their buffers with the kernel: `recv` of the AF_XDP and the
DPDK receiver and `recv_batch` of the io_uring receiver, step by step, between the writes of the kernel to the buffers
that it owns.
-/

namespace NebulaXTrader

namespace FrameReceiver

open FrameUtil (extractUdpPayload)

/--
A frame that waits in memory. `frame` is what the kernel has written there, which the code never looks at.
-/
structure Desc where
  addr : Nat
  len : Nat
  frame : List UInt8
  deriving DecidableEq, Repr

/--
`giveBack` hands the buffer to the kernel, `release` only the entry of the ring.
-/
inductive Op where
  | giveBack
  | release
  | copy
  deriving DecidableEq, Repr

/--
`payloadOf` is what the receiver copies of a frame, or none if it skips the frame. `body` is what it does once it knows.
-/
structure Backend where
  bufSize : Nat
  payloadOf : List UInt8 → Option (Nat × Nat)
  body : List Op
  payloadOf_inside : ∀ frame p, payloadOf frame = some p → p.1 + p.2 ≤ frame.length
  body_nodup : body.Nodup
  body_copies : Op.copy ∈ body

def udpPayload (port : Nat) (frame : List UInt8) : Option (Nat × Nat) := (extractUdpPayload frame port).getD none

theorem udpPayload_inside (port : Nat) (frame : List UInt8) (p : Nat × Nat) (h : udpPayload port frame = some p)
    : p.1 + p.2 ≤ frame.length := by
  obtain ⟨o, ho, hin⟩ := FrameUtil.extract_inside frame port
  unfold udpPayload at h
  rw [ho] at h
  exact (hin p h).2

/--
`refill`, `xsk_ring_cons__release`, `memcpy`.
-/
def AF_XDPReceiver.recv (port : Nat) : Backend where
  bufSize := 4096
  payloadOf := udpPayload port
  body := [.giveBack, .release, .copy]
  payloadOf_inside := udpPayload_inside port
  body_nodup := by decide
  body_copies := by decide

/--
`rte_pktmbuf_free`, `memcpy`. `dataRoom` is the size of the buffers of the pool.
-/
def DPDKReceiver.recv (dataRoom port : Nat) : Backend where
  bufSize := dataRoom
  payloadOf := udpPayload port
  body := [.giveBack, .copy]
  payloadOf_inside := udpPayload_inside port
  body_nodup := by decide
  body_copies := by decide

/--
`memcpy`, `resubmit_recv`. The kernel has stripped the frame, so everything is payload.
-/
def IoUringReceiver.recvBatch : Backend where
  bufSize := 8192
  payloadOf := fun frame => some (0, frame.length)
  body := [.copy, .giveBack]
  payloadOf_inside := by
    intro frame p h
    cases h
    exact Nat.le_of_eq (Nat.zero_add _)
  body_nodup := by decide
  body_copies := by decide

/--
Where a call of `recv` with a buffer of `len` bytes stands. `out` are the bytes that it has stored so far.
-/
inductive Pc where
  | idle
  | fetch (len : Nat)
  | taken (len : Nat) (d : Desc)
  | body (len : Nat) (d : Desc) (payload : Option (Nat × Nat)) (out : List UInt8) (ops : List Op)
  deriving DecidableEq, Repr

structure Result where
  frame : List UInt8
  len : Nat
  stored : List UInt8
  deriving DecidableEq, Repr

/--
`run given` is the next step of `recv`; `given` says if the kernel gets the buffer, which fails if its queue is full.
`leave` is the return without a frame. `deliver` and `overwrite` are the kernel.
-/
inductive Label where
  | recv (len : Nat)
  | run (given : Bool)
  | leave
  | deliver (addr : Nat) (frame : List UInt8)
  | overwrite (addr : Nat) (bytes : List UInt8)
  deriving DecidableEq, Repr

end FrameReceiver

open FrameReceiver in
/--
`kernel` says which buffers the kernel owns, `rx` are the frames that `recv` has not taken yet.
-/
structure FrameReceiver where
  mem : Nat → UInt8
  kernel : Nat → Bool
  rx : List Desc := []
  pc : Pc := .idle
  results : List Result := []

namespace FrameReceiver

open FrameUtil (payloadAt)

variable (b : Backend) (s : FrameReceiver)

def body (given : Bool) (len : Nat) (d : Desc) (payload : Option (Nat × Nat)) (out : List UInt8) (ops : List Op)
    : FrameReceiver :=
  match ops with
  | [] => { s with pc := .idle, results := s.results ++ [⟨d.frame, len, out⟩] }
  | .giveBack :: ops =>
    { s with
      kernel := if given then Function.update s.kernel (d.addr / b.bufSize) true else s.kernel
      pc := .body len d payload out ops }
  | .release :: ops => { s with pc := .body len d payload out ops }
  | .copy :: ops =>
    match payload with
    | none => { s with pc := .fetch len }
    | some p =>
      if out.length < min p.2 len then
        { s with pc := .body len d payload (out ++ [s.mem (d.addr + p.1 + out.length)]) (.copy :: ops) }
      else
        { s with pc := .body len d payload out ops }

def run (given : Bool) : Option FrameReceiver :=
  match s.pc with
  | .idle => none
  | .fetch len =>
    match s.rx with
    | [] => some s
    | d :: rx => some { s with rx := rx, pc := .taken len d }
  | .taken len d =>
    let payload := b.payloadOf (Cells.read s.mem d.addr d.len)
    some { s with pc := .body len d payload [] b.body }
  | .body len d payload out ops => some (s.body b given len d payload out ops)

/--
The kernel writes into the buffers that it owns, and never across the end of one.
-/
def KernelMay (addr : Nat) (bytes : List UInt8) : Prop :=
  s.kernel (addr / b.bufSize) = true ∧ Blocks.Fits b.bufSize addr bytes.length

instance (addr : Nat) (bytes : List UInt8) : Decidable (KernelMay b s addr bytes) :=
  inferInstanceAs (Decidable (_ ∧ _))

def step (l : Label) : Option FrameReceiver :=
  match l with
  | .recv len =>
    match s.pc with
    | .idle => some (if len = 0 then s else { s with pc := .fetch len })
    | _ => none
  | .run given => s.run b given
  | .leave =>
    match s.pc with
    | .fetch _ => some { s with pc := .idle }
    | _ => none
  | .deliver addr frame =>
    if KernelMay b s addr frame then
      some { s with
        mem := Cells.write s.mem addr frame
        kernel := Function.update s.kernel (addr / b.bufSize) false
        rx := s.rx ++ [⟨addr, frame.length, frame⟩] }
    else
      none
  | .overwrite addr bytes =>
    if KernelMay b s addr bytes then some { s with mem := Cells.write s.mem addr bytes } else none

/--
The call has stored the payload of the frame as it was received, as far as the caller's buffer holds it.
-/
def Backend.Stored (r : Result) : Prop :=
  ∃ p, b.payloadOf r.frame = some p ∧ r.stored = (payloadAt r.frame p).take r.len

def AwaitsCopy (a : Nat) : Prop :=
  match s.pc with
  | .body len d (some p) out _ => Blocks.Awaits (d.addr + p.1) (min p.2 len) out a
  | _ => False

instance (a : Nat) : Decidable (AwaitsCopy s a) := by
  unfold AwaitsCopy
  split
  all_goals infer_instance

/--
The kernel changes no byte that `recv` has still to copy.
-/
def Undisturbed (l : Label) : Prop :=
  match l with
  | .deliver addr bytes | .overwrite addr bytes =>
    ∀ i, ∀ h : i < bytes.length, AwaitsCopy s (addr + i) → bytes[i] = s.mem (addr + i)
  | _ => True

instance (l : Label) : Decidable (Undisturbed s l) :=
  match l with
  | .deliver _ _ | .overwrite _ _ => inferInstanceAs (Decidable (∀ i, ∀ _ : i < _, _))
  | .recv _ | .run _ | .leave => isTrue trivial

end FrameReceiver

end NebulaXTrader
