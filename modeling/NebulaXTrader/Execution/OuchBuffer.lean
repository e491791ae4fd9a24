import NebulaXTrader.Execution.Lemmas.OrderCodec
import NebulaXTrader.Lib.Buffer

/-!
This module contains the encoders of `OuchOrderCodec` as they write into the buffer of the caller: the blanks first,
then the fields at their offsets, one over the other where they overlap, and the checksum last.
-/

namespace NebulaXTrader

namespace OuchOrderCodec

open Positional (bytes)
open Buffer (put putAll render Ascending)

def kCancelReqLen : Nat := 19

def kMsgCancelReq : UInt8 := 88

/--
`memset`, the writes in their order, and the checksum into the last of the `n` bytes.
-/
def writeFrame (n : Nat) (writes : List (Nat × List UInt8)) (buf : List UInt8) : List UInt8 :=
  let buf := putAll (put buf 0 (List.replicate n 32)) writes
  put buf (n - 1) [checksum (buf.take (n - 1))]

/--
The characters that "%llu" prints into a buffer of 11 bytes.
-/
def bookDigits (symbolId : Nat) : List UInt8 := (decimal symbolId).take 10

variable (c : OuchOrderCodec)

def encodeOrderInto (o : Order) (buf : List UInt8) : Option (OuchOrderCodec × List UInt8 × Nat) :=
  if buf.length < kOrderMsgLen then
    none
  else
    let token := tokenFor o.orderId
    let frame := writeFrame kOrderMsgLen [
      (0, [kMsgOrder]),
      (1, token),
      (15, [if o.side = .SELL then 83 else 66]),
      (16, bytes 4 o.quantity),
      (20, bookDigits o.symbolId),
      (30, bytesOfInt 4 (o.price * 100)),
      (34, [if o.type = .LIMIT ∨ o.type = .ICEBERG then 68 else 89]),
      (41, [78]),
      (42, [65]),
      (43, [78]),
      (44, bytes 4 0)] buf
    some ({ c with tokenToId := Function.update c.tokenToId token (some o.orderId) }, frame, kOrderMsgLen)

def encodeAckInto (o : Order) (buf : List UInt8) : Option (OuchOrderCodec × List UInt8 × Nat) :=
  if buf.length < kAckMsgLen then
    none
  else
    let (c, ref) := c.refFor o.orderId
    let frame := writeFrame kAckMsgLen [
      (0, [kMsgAck]),
      (1, bytes 8 ref),
      (9, tokenFor o.orderId),
      (23, [if o.side = .SELL then 83 else 66]),
      (24, bytes 4 o.quantity),
      (28, bookDigits o.symbolId)] buf
    some (c, frame, kAckMsgLen)

def encodeExecInto (orderId filledQty : Nat) (fillPrice : Int) (buf : List UInt8)
    : Option (OuchOrderCodec × List UInt8 × Nat) :=
  if buf.length < kExecMsgLen then
    none
  else
    let (c, ref) := c.refFor orderId
    let frame := writeFrame kExecMsgLen [
      (0, [kMsgExec]),
      (1, bytes 8 ref),
      (9, tokenFor orderId),
      (23, [66]),
      (24, bytes 4 filledQty),
      (28, bytesOfInt 4 (fillPrice * 100)),
      (32, bytes 4 filledQty),
      (36, bytesOfInt 4 (fillPrice * 100)),
      (40, [84])] buf
    some (c, frame, kExecMsgLen)

def encodeCancelInto (orderId canceledQty : Nat) (buf : List UInt8) : Option (OuchOrderCodec × List UInt8 × Nat) :=
  if buf.length < kCancelMsgLen then
    none
  else
    let (c, ref) := c.refFor orderId
    let frame := writeFrame kCancelMsgLen [
      (0, [kMsgCancel]),
      (1, bytes 8 ref),
      (9, tokenFor orderId),
      (23, [66]),
      (24, bytes 4 canceledQty)] buf
    some (c, frame, kCancelMsgLen)

def encodeRejectInto (orderId : Nat) (buf : List UInt8) : Option (OuchOrderCodec × List UInt8 × Nat) :=
  if buf.length < kRejectMsgLen then
    none
  else
    let (c, ref) := c.refFor orderId
    let frame := writeFrame kRejectMsgLen [
      (0, [kMsgReject]),
      (1, bytes 8 ref),
      (9, tokenFor orderId),
      (23, [66])] buf
    some (c, frame, kRejectMsgLen)

def encodeCancelRequestInto (orderId : Nat) (buf : List UInt8) : Option (OuchOrderCodec × List UInt8 × Nat) :=
  if buf.length < kCancelReqLen then
    none
  else
    let frame := writeFrame kCancelReqLen [
      (0, [kMsgCancelReq]),
      (1, tokenFor orderId),
      (15, bytes 4 0)] buf
    some (c, frame, kCancelReqLen)

def encodeBookQueryInto (symbolId : Nat) (buf : List UInt8) : Option (OuchOrderCodec × List UInt8 × Nat) :=
  if buf.length < kBookQueryMsgLen then
    none
  else
    let frame := writeFrame kBookQueryMsgLen [
      (0, [kMsgBookQuery]),
      (1, bookDigits symbolId)] buf
    some (c, frame, kBookQueryMsgLen)

def encodeBookInto (symbolId : Nat) (bid : Int) (bidVol : Nat) (ask : Int) (askVol : Nat) (buf : List UInt8)
    : Option (OuchOrderCodec × List UInt8 × Nat) :=
  if buf.length < kBookMsgLen then
    none
  else
    let frame := writeFrame kBookMsgLen [
      (0, [kMsgBook]),
      (1, bookDigits symbolId),
      (11, bytesOfInt 4 (bid * 100)),
      (15, bytes 4 bidVol),
      (19, bytesOfInt 4 (ask * 100)),
      (23, bytes 4 askVol)] buf
    some (c, frame, kBookMsgLen)

variable {c}

theorem writeFrame_put {n : Nat} {writes : List (Nat × List UInt8)} {buf : List UInt8}
    (h : Ascending 0 (n + 1) writes)
    : writeFrame (n + 1) writes buf =
        put (render 32 0 (n + 1) writes ++ buf.drop (n + 1)) n [checksum ((render 32 0 (n + 1) writes).take n)] := by
  have hlen : (render 32 0 (n + 1) writes).length = n + 1 := by
    rw [Buffer.length_render h, Nat.sub_zero]
  have hblank : put buf 0 (List.replicate (n + 1) 32) = List.replicate (n + 1) 32 ++ buf.drop (n + 1) := by
    unfold put
    rw [List.length_replicate, Nat.zero_add]
    rfl
  have hall := @Buffer.putAll_blank UInt8 32 0 (n + 1) writes [] (buf.drop (n + 1)) h rfl
  rw [List.nil_append, List.nil_append, Nat.sub_zero] at hall
  unfold writeFrame
  dsimp only
  rw [hblank, hall, Nat.add_sub_cancel, List.take_append_of_le_length (by omega)]

theorem writeFrame_eq {n : Nat} {writes : List (Nat × List UInt8)} {buf : List UInt8} (h : Ascending 0 n writes)
    : writeFrame (n + 1) writes buf = sealFrame (render 32 0 n writes) ++ buf.drop (n + 1) := by
  have hlen : (render 32 0 n writes).length = n := by
    rw [Buffer.length_render h, Nat.sub_zero]
  rw [writeFrame_put (h.mono (Nat.le_succ n)), Buffer.render_succ h, List.take_left' hlen]
  exact @Buffer.put_append UInt8 (render 32 0 n writes) [32] [checksum (render 32 0 n writes)] (buf.drop (n + 1)) n
    hlen rfl

theorem length_bookDigits (symbolId : Nat) : (bookDigits symbolId).length ≤ 10 := by
  unfold bookDigits
  rw [List.length_take]
  apply Nat.min_le_left

theorem bookDigits_pad (symbolId : Nat)
    : bookDigits symbolId ++ List.replicate (10 - (bookDigits symbolId).length) 32 = bookFor symbolId := rfl

theorem encodeOrderInto_eq (o : Order) {buf : List UInt8} (h : kOrderMsgLen ≤ buf.length)
    : c.encodeOrderInto o buf =
        some ((c.encodeOrder o).1, (c.encodeOrder o).2 ++ buf.drop kOrderMsgLen, kOrderMsgLen) := by
  have hbook := length_bookDigits o.symbolId
  unfold encodeOrderInto encodeOrder
  rw [if_neg (Nat.not_lt.2 h), kOrderMsgLen]
  dsimp only
  rw [writeFrame_eq]
  . simp [render, length_tokenFor, length_bytesOfInt, ← bookDigits_pad, ← Nat.sub_sub, sideByte]
  . simp [Ascending, length_tokenFor, length_bytesOfInt]
    omega

theorem encodeAckInto_eq (o : Order) {buf : List UInt8} (h : kAckMsgLen ≤ buf.length)
    : c.encodeAckInto o buf = some ((c.encodeAck o).1, (c.encodeAck o).2 ++ buf.drop kAckMsgLen, kAckMsgLen) := by
  have hbook := length_bookDigits o.symbolId
  unfold encodeAckInto encodeAck
  rw [if_neg (Nat.not_lt.2 h), kAckMsgLen]
  dsimp only
  rw [writeFrame_eq]
  . simp [render, length_tokenFor, ← bookDigits_pad, ← Nat.sub_sub, sideByte]
  . simp [Ascending, length_tokenFor]
    omega

theorem encodeExecInto_eq (orderId filledQty : Nat) (fillPrice : Int) {buf : List UInt8} (h : kExecMsgLen ≤ buf.length)
    : c.encodeExecInto orderId filledQty fillPrice buf =
        some ((c.encodeExec orderId filledQty fillPrice).1,
          (c.encodeExec orderId filledQty fillPrice).2 ++ buf.drop kExecMsgLen, kExecMsgLen) := by
  unfold encodeExecInto encodeExec
  rw [if_neg (Nat.not_lt.2 h), kExecMsgLen]
  dsimp only
  rw [writeFrame_eq]
  . simp [render, length_tokenFor, length_bytesOfInt]
  . simp [Ascending, length_tokenFor, length_bytesOfInt]

theorem encodeCancelInto_eq (orderId canceledQty : Nat) {buf : List UInt8} (h : kCancelMsgLen ≤ buf.length)
    : c.encodeCancelInto orderId canceledQty buf =
        some ((c.encodeCancel orderId canceledQty).1,
          (c.encodeCancel orderId canceledQty).2 ++ buf.drop kCancelMsgLen, kCancelMsgLen) := by
  unfold encodeCancelInto encodeCancel
  rw [if_neg (Nat.not_lt.2 h), kCancelMsgLen]
  dsimp only
  rw [writeFrame_eq]
  . simp [render, length_tokenFor]
  . simp [Ascending, length_tokenFor]

theorem encodeRejectInto_eq (orderId : Nat) {buf : List UInt8} (h : kRejectMsgLen ≤ buf.length)
    : c.encodeRejectInto orderId buf =
        some ((c.encodeReject orderId).1, (c.encodeReject orderId).2 ++ buf.drop kRejectMsgLen, kRejectMsgLen) := by
  unfold encodeRejectInto encodeReject
  rw [if_neg (Nat.not_lt.2 h), kRejectMsgLen]
  dsimp only
  rw [writeFrame_eq]
  . simp [render, length_tokenFor]
  . simp [Ascending, length_tokenFor]

theorem encodeBookQueryInto_eq (symbolId : Nat) {buf : List UInt8} (h : kBookQueryMsgLen ≤ buf.length)
    : c.encodeBookQueryInto symbolId buf =
        some (c, encodeBookQuery symbolId ++ buf.drop kBookQueryMsgLen, kBookQueryMsgLen) := by
  have hbook := length_bookDigits symbolId
  -- the reserved byte is a blank like those behind the digits
  have hblank : 11 - (bookDigits symbolId).length = 10 - (bookDigits symbolId).length + 1 := by omega
  unfold encodeBookQueryInto encodeBookQuery
  rw [if_neg (Nat.not_lt.2 h), kBookQueryMsgLen]
  dsimp only
  rw [writeFrame_eq]
  . simp [render, ← bookDigits_pad, ← Nat.sub_sub, hblank, List.replicate_succ']
  . simp [Ascending]
    omega

theorem encodeBookInto_eq (symbolId : Nat) (bid : Int) (bidVol : Nat) (ask : Int) (askVol : Nat) {buf : List UInt8}
    (h : kBookMsgLen ≤ buf.length)
    : c.encodeBookInto symbolId bid bidVol ask askVol buf =
        some (c, encodeBook symbolId bid bidVol ask askVol ++ buf.drop kBookMsgLen, kBookMsgLen) := by
  have hbook := length_bookDigits symbolId
  unfold encodeBookInto encodeBook
  rw [if_neg (Nat.not_lt.2 h), kBookMsgLen]
  dsimp only
  rw [writeFrame_eq]
  . simp [render, length_bytesOfInt, ← bookDigits_pad, ← Nat.sub_sub]
  . simp [Ascending, length_bytesOfInt]
    omega

/--
The frame of a cancel request: its checksum falls on the last byte of the shares.
-/
def cancelRequest (orderId : Nat) : List UInt8 := sealFrame ([kMsgCancelReq] ++ tokenFor orderId ++ [0, 0, 0])

theorem encodeCancelRequestInto_eq (orderId : Nat) {buf : List UInt8} (h : kCancelReqLen ≤ buf.length)
    : c.encodeCancelRequestInto orderId buf =
        some (c, cancelRequest orderId ++ buf.drop kCancelReqLen, kCancelReqLen) := by
  generalize hbody : [kMsgCancelReq] ++ tokenFor orderId ++ [0, 0, 0] = body
  have hrender : render 32 0 19 [(0, [kMsgCancelReq]), (1, tokenFor orderId), (15, bytes 4 0)] =
      body ++ [0] := by
    rw [← hbody]
    simp [render, length_tokenFor]
    rfl
  have hlen : body.length = 18 := by
    rw [← hbody]
    simp [length_tokenFor]
  have hput := @Buffer.put_append UInt8 body [0] [checksum body] (buf.drop 19) 18 hlen rfl
  unfold encodeCancelRequestInto cancelRequest
  rw [if_neg (Nat.not_lt.2 h), kCancelReqLen]
  dsimp only
  rw [writeFrame_put, hrender, List.take_left' hlen, hput, hbody]
  . rfl
  . simp [Ascending, length_tokenFor]

end OuchOrderCodec

end NebulaXTrader
