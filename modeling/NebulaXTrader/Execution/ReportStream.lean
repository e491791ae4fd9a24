import NebulaXTrader.Execution.Reports
import NebulaXTrader.Lib.Deframer

/-!
This module contains the framing loop of the thread that receives the reports: a buffer for the bytes of the
connection from which complete frames are taken off by the length of their type.
-/

namespace NebulaXTrader

inductive ReportFrame where
  | fill (buf : List UInt8)
  | book (buf : List UInt8)
  deriving DecidableEq

namespace ReportStream

open OuchOrderCodec

def msgLen (type : UInt8) : Option Nat :=
  if type = kMsgAck then some kAckMsgLen
  else if type = kMsgExec then some kExecMsgLen
  else if type = kMsgCancel then some kCancelMsgLen
  else if type = kMsgReject then some kRejectMsgLen
  else if type = kMsgBook then some kBookMsgLen
  else none

def hand (buf : List UInt8) : ReportFrame := if buf.head? = some kMsgBook then .book buf else .fill buf

/--
One round of the loop: `none` is a `break`, a byte of unknown type is dropped.
-/
def next (stream : List UInt8) : Option (Option ReportFrame × List UInt8) :=
  match stream with
  | [] => none
  | type :: rest =>
    match msgLen type with
    | none => some (none, rest)
    | some mlen =>
      if stream.length < mlen then
        none
      else
        some (some (hand (stream.take mlen)), stream.drop mlen)

def IsFrame (buf : List UInt8) : Prop := buf.head?.bind msgLen = some buf.length

instance (buf : List UInt8) : Decidable (IsFrame buf) := inferInstanceAs (Decidable (_ = _))

theorem msgLen_pos {type : UInt8} {mlen : Nat} (h : msgLen type = some mlen) : 0 < mlen := by
  unfold msgLen at h
  split at h
  . cases h
    decide
  . split at h
    . cases h
      decide
    . split at h
      . cases h
        decide
      . split at h
        . cases h
          decide
        . split at h
          . cases h
            decide
          . cases h

def deframer : Deframer UInt8 ReportFrame where
  next := next
  shrinks := by
    intro stream o rest h
    unfold next at h
    split at h
    . cases h
    . next type tail =>
      split at h
      . cases h
        simp
      . next mlen hlen =>
        have hpos := msgLen_pos hlen
        split at h
        . cases h
        . cases h
          simp only [List.length_drop, List.length_cons]
          omega
  extend := by
    intro stream o rest more h
    unfold next at h
    split at h
    . cases h
    . next type tail =>
      rw [List.cons_append]
      unfold next
      split at h
      . next hlen =>
        cases h
        dsimp only
        rw [hlen]
      . next mlen hlen =>
        dsimp only
        rw [hlen]
        split at h
        . cases h
        . next hfits =>
          cases h
          dsimp only
          rw [← List.cons_append, List.take_append_of_le_length (by omega),
            List.drop_append_of_le_length (by omega), if_neg]
          rw [List.length_append]
          omega

def receive (chunks : List (List UInt8)) : Option (List ReportFrame × List UInt8) :=
  deframer.appendAll ([], []) chunks

theorem next_frame {frame : List UInt8} (h : IsFrame frame) (more : List UInt8)
    : next (frame ++ more) = some (some (hand frame), more) := by
  cases frame with
  | nil => cases h
  | cons type tail =>
    have hlen : msgLen type = some (type :: tail).length := h
    rw [List.cons_append]
    unfold next
    dsimp only
    rw [hlen]
    dsimp only
    rw [← List.cons_append, if_neg (by simp), List.take_left' rfl, List.drop_left' rfl]

theorem Report.isFrame_encode (r : Report) (c : OuchOrderCodec) : IsFrame (r.encode c).2 := by
  have hmsgLen : msgLen r.typeByte = some r.msgLen := by
    cases r with
    | ack o => rfl
    | exec orderId filledQty fillPrice => rfl
    | cancel orderId canceledQty => rfl
    | reject orderId => rfl
  have hlen := r.length_rest
  have htoken := length_tokenFor r.orderId
  have hhead : ∀ ref, (report r.typeByte ref r.orderId r.rest).head?.bind msgLen = msgLen r.typeByte := by
    intro ref
    rfl
  rw [r.encode_snd]
  unfold IsFrame
  rw [hhead, hmsgLen, ← hlen]
  unfold report
  rw [length_sealFrame]
  simp only [List.length_append, List.length_singleton, Positional.length_bytes, htoken]

/--
The loop always stops, what is handed on and what remains depend on the bytes only and not on how they were
cut into chunks, and a sequence of complete frames is handed on frame by frame.
-/
theorem framing (chunks : List (List UInt8))
    : (∀ stream, ∃ s, deframer.drain (stream.length + 1) stream = some s) ∧
      (∃ s, receive chunks = some s) ∧
      (∀ chunks', chunks'.flatten = chunks.flatten → receive chunks' = receive chunks) ∧
      ∀ frames : List (List UInt8), (∀ frame ∈ frames, IsFrame frame) → chunks.flatten = frames.flatten →
        receive chunks = some (frames.map hand, []) := by
  unfold receive
  refine ⟨?_, ?_, ?_, ?_⟩
  . intro stream
    exact Deframer.drain_terminates _ _ (Nat.lt_succ_self _)
  . rw [deframer.appendAll_eq]
    exact Deframer.drain_terminates _ _ (Nat.lt_succ_self _)
  . intro chunks' h
    rw [deframer.appendAll_eq, deframer.appendAll_eq, h]
  . intro frames hframes h
    have hdrains := deframer.drains_flatten frames hand (fun frame hmem => next_frame (hframes frame hmem))
    rw [deframer.appendAll_eq, h]
    exact hdrains.drain_eq (Nat.lt_succ_self _)

def bookFrame : List UInt8 := 66 :: List.replicate 33 32

def rejectFrame : List UInt8 := 74 :: List.replicate 35 32

theorem framing_split
    : receive [[66], List.replicate 33 32 ++ [74, 32], List.replicate 34 32] =
        some ([.book bookFrame, .fill rejectFrame], []) := by
  -- Two frames in three chunks, the second frame in two of them.
  apply (framing [[66], List.replicate 33 32 ++ [74, 32], List.replicate 34 32]).2.2.2
    [bookFrame, rejectFrame]
  . decide
  . decide

end ReportStream

end NebulaXTrader
