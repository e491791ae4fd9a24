import NebulaXTrader.Execution.OuchBuffer

/-!
This module contains the layouts of the OUCH frames as the codec documents them, and that the encoders keep to them:
all but the cancel request, whose checksum overwrites the last byte of its shares.
-/

namespace NebulaXTrader

namespace OuchOrderCodec

open Positional (bytes word length_bytes word_bytes)
open Buffer (slice render Ascending)

/--
What a field of a frame stands for.
-/
inductive FieldValue where
  | char (c : UInt8)
  | side (s : OrderSide)
  | token (orderId : Nat)
  | book (symbolId : Nat)
  | u32 (v : Nat)
  | i32 (v : Int)
  | u64 (v : Nat)
  | blank (n : Nat)

namespace FieldValue

def width : FieldValue → Nat
  | char _ => 1
  | side _ => 1
  | token _ => 14
  | book _ => 10
  | u32 _ => 4
  | i32 _ => 4
  | u64 _ => 8
  | blank n => n

def InRange : FieldValue → Prop
  | char _ => True
  | side s => s ≠ .NONE
  | token orderId => orderId < 10 ^ 14
  | book symbolId => symbolId < 10 ^ 10
  | u32 v => v < 2 ^ 32
  | i32 v => -2 ^ 31 ≤ v ∧ v < 2 ^ 31
  | u64 v => v < 2 ^ 64
  | blank _ => True

/--
The bytes are read as the value.
-/
def Reads : FieldValue → List UInt8 → Prop
  | char c, bs => bs = [c]
  | side s, bs => bs = [83] ∧ s = .SELL ∨ bs = [66] ∧ s = .BUY
  | token orderId, bs => strtoull bs = orderId
  | book symbolId, bs => strtoull bs = symbolId
  | u32 v, bs => word bs = v
  | i32 v, bs => (word bs : Int).bmod (2 ^ 32) = v
  | u64 v, bs => word bs = v
  | blank n, bs => bs = List.replicate n 32

def encoded : FieldValue → List UInt8
  | char c => [c]
  | side s => [sideByte s]
  | token orderId => tokenFor orderId
  | book symbolId => bookFor symbolId
  | u32 v => bytes 4 v
  | i32 v => bytesOfInt 4 v
  | u64 v => bytes 8 v
  | blank n => List.replicate n 32

theorem length_encoded (v : FieldValue) : v.encoded.length = v.width := by
  cases v with
  | char c => rfl
  | side s => rfl
  | token orderId => exact length_tokenFor orderId
  | book symbolId => exact length_bookFor symbolId
  | u32 v => exact length_bytes 4 v
  | i32 v => exact length_bytesOfInt 4 v
  | u64 v => exact length_bytes 8 v
  | blank n => exact List.length_replicate

theorem bmod_word_bytesOfInt {v : Int} (h : -2 ^ 31 ≤ v ∧ v < 2 ^ 31)
    : (word (bytesOfInt 4 v) : Int).bmod (2 ^ 32) = v := by
  have hword : (word (bytesOfInt 4 v) : Int) = v % 2 ^ 32 := by
    unfold bytesOfInt
    rw [word_bytes]
    omega
  rw [hword]
  have hmod : (v % 2 ^ 32).bmod (2 ^ 32) = v.bmod (2 ^ 32) := Int.emod_bmod v (2 ^ 32)
  rw [hmod]
  apply Int.bmod_eq_of_le
  . omega
  . omega

theorem reads_encoded {v : FieldValue} (h : v.InRange) : v.Reads v.encoded := by
  cases v with
  | char c => rfl
  | side s =>
    cases s with
    | BUY => exact Or.inr ⟨rfl, rfl⟩
    | SELL => exact Or.inl ⟨rfl, rfl⟩
    | NONE => exact absurd rfl h
  | token orderId => exact strtoull_tokenFor h
  | book symbolId => exact (strtoull_bookFor symbolId).2 h
  | u32 v =>
    have hword : word (bytes 4 v) = v % 2 ^ 32 := word_bytes 4 v
    exact hword.trans (Nat.mod_eq_of_lt h)
  | i32 v => exact bmod_word_bytesOfInt h
  | u64 v =>
    have hword : word (bytes 8 v) = v % 2 ^ 64 := word_bytes 8 v
    exact hword.trans (Nat.mod_eq_of_lt h)
  | blank n => rfl

end FieldValue

structure Field where
  off : Nat
  value : FieldValue

namespace Field

def read (f : Field) (frame : List UInt8) : List UInt8 := slice frame f.off f.value.width

def Apart (f g : Field) : Prop := f.off + f.value.width ≤ g.off ∨ g.off + g.value.width ≤ f.off

def write (f : Field) : Nat × List UInt8 := (f.off, f.value.encoded)

end Field

/--
The frame holds every field where it belongs, and the sum of the bytes before it in its byte at `n`.
-/
structure Carries (fields : List Field) (n : Nat) (frame : List UInt8) : Prop where
  reads : ∀ f ∈ fields, f.value.Reads (f.read frame)
  apart : fields.Pairwise Field.Apart
  clear : ∀ f ∈ fields, f.off + f.value.width ≤ n
  length : frame.length = n + 1
  sum : (frame.getD n 0).toNat = ((frame.take n).map UInt8.toNat).sum % 256

theorem toNat_foldl_add (b : List UInt8) (s : UInt8)
    : (b.foldl (· + ·) s).toNat = (s.toNat + (b.map UInt8.toNat).sum) % 256 := by
  induction b generalizing s with
  | nil =>
    rw [List.foldl_nil, List.map_nil, List.sum_nil, Nat.add_zero, Nat.mod_eq_of_lt s.toNat_lt]
  | cons x b ih =>
    rw [List.foldl_cons, ih, List.map_cons, List.sum_cons, UInt8.toNat_add]
    omega

theorem toNat_checksum (b : List UInt8) : (checksum b).toNat = (b.map UInt8.toNat).sum % 256 := by
  unfold checksum
  rw [toNat_foldl_add]
  exact congrArg (· % 256) (Nat.zero_add _)

theorem carries_sealFrame {fields : List Field} {n : Nat} (hrange : ∀ f ∈ fields, f.value.InRange)
    (hasc : Ascending 0 n (fields.map Field.write))
    : Carries fields n (sealFrame (render 32 0 n (fields.map Field.write))) := by
  have hlen : (render 32 0 n (fields.map Field.write)).length = n := by
    rw [Buffer.length_render hasc, Nat.sub_zero]
  refine ⟨?_, ?_, ?_, ?_, ?_⟩
  . intro f hf
    have hslice := @Buffer.slice_render UInt8 32 0 n _ [] [checksum (render 32 0 n (fields.map Field.write))]
      f.write hasc rfl (List.mem_map_of_mem hf)
    have hread : f.read (sealFrame (render 32 0 n (fields.map Field.write))) = f.value.encoded := by
      unfold Field.read
      rw [← FieldValue.length_encoded]
      exact hslice
    rw [hread]
    exact FieldValue.reads_encoded (hrange f hf)
  . have hpairs := List.pairwise_map.1 hasc.pairwise
    apply hpairs.imp
    intro f g hfg
    have hle : f.off + f.value.encoded.length ≤ g.off := hfg
    rw [FieldValue.length_encoded] at hle
    exact Or.inl hle
  . intro f hf
    have hbounds := (hasc.bounds f.write (List.mem_map_of_mem hf)).2
    have hle : f.off + f.value.encoded.length ≤ n := hbounds
    rw [FieldValue.length_encoded] at hle
    exact hle
  . rw [length_sealFrame, hlen]
  . rw [sealFrame_checks hlen, toNat_checksum]

/-!
The eight messages. The offsets are those of the comments of the codec.
-/

inductive Msg where
  | order (o : Order)
  | ack (o : Order)
  | exec (orderId filledQty : Nat) (fillPrice : Int)
  | cancel (orderId canceledQty : Nat)
  | reject (orderId : Nat)
  | cancelRequest (orderId : Nat)
  | bookQuery (symbolId : Nat)
  | book (symbolId : Nat) (bid : Int) (bidVol : Nat) (ask : Int) (askVol : Nat)

namespace Msg

def encodeInto (c : OuchOrderCodec) : Msg → List UInt8 → Option (OuchOrderCodec × List UInt8 × Nat)
  | order o => c.encodeOrderInto o
  | ack o => c.encodeAckInto o
  | exec orderId filledQty fillPrice => c.encodeExecInto orderId filledQty fillPrice
  | cancel orderId canceledQty => c.encodeCancelInto orderId canceledQty
  | reject orderId => c.encodeRejectInto orderId
  | cancelRequest orderId => c.encodeCancelRequestInto orderId
  | bookQuery symbolId => c.encodeBookQueryInto symbolId
  | book symbolId bid bidVol ask askVol => c.encodeBookInto symbolId bid bidVol ask askVol

/--
Where the checksum stands: in the last byte of the frame.
-/
def sumAt : Msg → Nat
  | order _ => 48
  | ack _ => 38
  | exec _ _ _ => 41
  | cancel _ _ => 38
  | reject _ => 35
  | cancelRequest _ => 18
  | bookQuery _ => 12
  | book _ _ _ _ _ => 33

def timeInForce (type : OrderType) : UInt8 := if type = .LIMIT ∨ type = .ICEBERG then 68 else 89

def fields (c : OuchOrderCodec) : Msg → List Field
  | order o => [
      ⟨0, .char 79⟩, ⟨1, .token o.orderId⟩, ⟨15, .side o.side⟩, ⟨16, .u32 o.quantity⟩, ⟨20, .book o.symbolId⟩,
      ⟨30, .i32 (o.price * 100)⟩, ⟨34, .char (timeInForce o.type)⟩, ⟨35, .blank 6⟩, ⟨41, .char 78⟩,
      ⟨42, .char 65⟩, ⟨43, .char 78⟩, ⟨44, .u32 0⟩]
  | ack o => [
      ⟨0, .char 65⟩, ⟨1, .u64 (c.refFor o.orderId).2⟩, ⟨9, .token o.orderId⟩, ⟨23, .side o.side⟩,
      ⟨24, .u32 o.quantity⟩, ⟨28, .book o.symbolId⟩]
  | exec orderId filledQty fillPrice => [
      ⟨0, .char 69⟩, ⟨1, .u64 (c.refFor orderId).2⟩, ⟨9, .token orderId⟩, ⟨23, .side .BUY⟩, ⟨24, .u32 filledQty⟩,
      ⟨28, .i32 (fillPrice * 100)⟩, ⟨32, .u32 filledQty⟩, ⟨36, .i32 (fillPrice * 100)⟩, ⟨40, .char 84⟩]
  | cancel orderId canceledQty => [
      ⟨0, .char 67⟩, ⟨1, .u64 (c.refFor orderId).2⟩, ⟨9, .token orderId⟩, ⟨23, .side .BUY⟩, ⟨24, .u32 canceledQty⟩,
      ⟨28, .blank 10⟩]
  | reject orderId => [
      ⟨0, .char 74⟩, ⟨1, .u64 (c.refFor orderId).2⟩, ⟨9, .token orderId⟩, ⟨23, .side .BUY⟩, ⟨24, .blank 11⟩]
  | cancelRequest orderId => [⟨0, .char 88⟩, ⟨1, .token orderId⟩, ⟨15, .u32 0⟩]
  | bookQuery symbolId => [⟨0, .char 81⟩, ⟨1, .book symbolId⟩, ⟨11, .blank 1⟩]
  | book symbolId bid bidVol ask askVol => [
      ⟨0, .char 66⟩, ⟨1, .book symbolId⟩, ⟨11, .i32 (bid * 100)⟩, ⟨15, .u32 bidVol⟩, ⟨19, .i32 (ask * 100)⟩,
      ⟨23, .u32 askVol⟩, ⟨27, .blank 6⟩]

def frame (c : OuchOrderCodec) : Msg → OuchOrderCodec × List UInt8
  | order o => c.encodeOrder o
  | ack o => c.encodeAck o
  | exec orderId filledQty fillPrice => c.encodeExec orderId filledQty fillPrice
  | cancel orderId canceledQty => c.encodeCancel orderId canceledQty
  | reject orderId => c.encodeReject orderId
  | cancelRequest orderId => (c, OuchOrderCodec.cancelRequest orderId)
  | bookQuery symbolId => (c, encodeBookQuery symbolId)
  | book symbolId bid bidVol ask askVol => (c, encodeBook symbolId bid bidVol ask askVol)

def InRange (c : OuchOrderCodec) (m : Msg) : Prop := ∀ f ∈ m.fields c, f.value.InRange

def isCancelRequest : Msg → Bool
  | cancelRequest _ => true
  | _ => false

variable {c : OuchOrderCodec} {m : Msg}

theorem ascending_fields (h : m.isCancelRequest = false) : Ascending 0 m.sumAt ((m.fields c).map Field.write) := by
  cases m with
  | cancelRequest orderId => cases h
  | _ => simp [Ascending, fields, Field.write, sumAt, FieldValue.length_encoded, FieldValue.width]

theorem encodeInto_eq {buf : List UInt8} (h : m.sumAt < buf.length)
    : m.encodeInto c buf = some ((m.frame c).1, (m.frame c).2 ++ buf.drop (m.sumAt + 1), m.sumAt + 1) := by
  cases m with
  | order o => exact encodeOrderInto_eq o h
  | ack o => exact encodeAckInto_eq o h
  | exec orderId filledQty fillPrice => exact encodeExecInto_eq orderId filledQty fillPrice h
  | cancel orderId canceledQty => exact encodeCancelInto_eq orderId canceledQty h
  | reject orderId => exact encodeRejectInto_eq orderId h
  | cancelRequest orderId => exact encodeCancelRequestInto_eq orderId h
  | bookQuery symbolId => exact encodeBookQueryInto_eq symbolId h
  | book symbolId bid bidVol ask askVol => exact encodeBookInto_eq symbolId bid bidVol ask askVol h

theorem frame_eq (h : m.isCancelRequest = false)
    : (m.frame c).2 = sealFrame (render 32 0 m.sumAt ((m.fields c).map Field.write)) := by
  cases m with
  | cancelRequest orderId => cases h
  | order o =>
    simp [frame, encodeOrder, kMsgOrder, fields, Field.write, FieldValue.encoded, render, sumAt, timeInForce,
      length_tokenFor, length_bookFor, length_bytesOfInt]
  | ack o =>
    simp [frame, encodeAck, kMsgAck, fields, Field.write, FieldValue.encoded, render, sumAt, length_tokenFor,
      length_bookFor]
  | exec orderId filledQty fillPrice =>
    simp [frame, encodeExec, kMsgExec, fields, Field.write, FieldValue.encoded, render, sumAt, sideByte,
      length_tokenFor, length_bytesOfInt]
  | cancel orderId canceledQty =>
    simp [frame, encodeCancel, kMsgCancel, fields, Field.write, FieldValue.encoded, render, sumAt, sideByte,
      length_tokenFor]
  | reject orderId =>
    simp [frame, encodeReject, kMsgReject, fields, Field.write, FieldValue.encoded, render, sumAt, sideByte,
      length_tokenFor]
  | bookQuery symbolId =>
    simp [frame, encodeBookQuery, kMsgBookQuery, fields, Field.write, FieldValue.encoded, render, sumAt,
      length_bookFor]
  | book symbolId bid bidVol ask askVol =>
    simp [frame, encodeBook, kMsgBook, fields, Field.write, FieldValue.encoded, render, sumAt, length_bookFor,
      length_bytesOfInt]

theorem length_frame (c : OuchOrderCodec) (m : Msg) : (m.frame c).2.length = m.sumAt + 1 := by
  cases hm : m.isCancelRequest with
  | false =>
    rw [frame_eq hm, length_sealFrame, Buffer.length_render (ascending_fields hm), Nat.sub_zero]
  | true =>
    cases m with
    | cancelRequest orderId =>
      show (sealFrame ([kMsgCancelReq] ++ tokenFor orderId ++ [0, 0, 0])).length = 19
      simp [length_sealFrame, length_tokenFor]
    | _ => cases hm

end Msg

/--
An encoder that has the room succeeds, and leaves the bytes behind its frame alone. The frame carries all fields of
the message unless it is a cancel request.
-/
theorem carries_iff (c : OuchOrderCodec) (m : Msg) (buf : List UInt8) (hrange : m.InRange c)
    (hbuf : m.sumAt < buf.length)
    : ∃ c' buf', m.encodeInto c buf = some (c', buf', m.sumAt + 1) ∧
        buf'.drop (m.sumAt + 1) = buf.drop (m.sumAt + 1) ∧
        (Carries (m.fields c) m.sumAt (buf'.take (m.sumAt + 1)) ↔ m.isCancelRequest = false) := by
  have hlen := m.length_frame c
  refine ⟨_, _, Msg.encodeInto_eq hbuf, List.drop_left' hlen, ?_⟩
  rw [List.take_left' hlen]
  constructor
  . intro hcarries
    cases m with
    | cancelRequest orderId =>
      have hclear := hcarries.clear ⟨15, .u32 0⟩ (by simp [Msg.fields])
      have hle : 15 + 4 ≤ 18 := hclear
      omega
    | _ => rfl
  . intro hm
    rw [Msg.frame_eq hm]
    exact carries_sealFrame hrange (Msg.ascending_fields hm)

def limitBuy : Order where
  orderId := 41
  strategyId := 1
  symbolId := 7
  side := .BUY
  type := .LIMIT
  price := 10050
  quantity := 300
  timestamp := 0

theorem carries_limitBuy
    : ∃ c' buf', Msg.encodeInto {} (.order limitBuy) (List.replicate 60 0) = some (c', buf', 49) ∧
        buf'.drop 49 = List.replicate 11 0 ∧
        (Carries (Msg.fields {} (.order limitBuy)) 48 (buf'.take 49) ↔ Msg.isCancelRequest (.order limitBuy) = false) := by
  apply carries_iff {} (.order limitBuy) (List.replicate 60 0)
  . simp [Msg.InRange, Msg.fields, FieldValue.InRange, limitBuy]
  . decide

theorem tokenFor_one : tokenFor 1 = [48, 48, 48, 48, 48, 48, 48, 48, 48, 48, 48, 48, 48, 49] := by
  rw [tokenFor_of_lt (by decide)]
  decide

theorem cancelRequest_overlaps
    : Msg.InRange {} (.cancelRequest 1) ∧
        ∃ c' buf', Msg.encodeInto {} (.cancelRequest 1) (List.replicate 19 0) = some (c', buf', 19) ∧
          Field.read ⟨15, .u32 0⟩ buf' = [0, 0, 0, 249] ∧
          ¬ Carries (Msg.fields {} (.cancelRequest 1)) 18 (buf'.take 19) := by
  have hframe : cancelRequest 1 =
      [88, 48, 48, 48, 48, 48, 48, 48, 48, 48, 48, 48, 48, 48, 49, 0, 0, 0, 249] := by
    unfold cancelRequest
    rw [tokenFor_one]
    decide
  have hencode := @Msg.encodeInto_eq {} (.cancelRequest 1) (List.replicate 19 0) (by decide)
  refine ⟨?_, _, _, hencode, ?_, ?_⟩
  . simp [Msg.InRange, Msg.fields, FieldValue.InRange]
  . show Field.read ⟨15, .u32 0⟩ (cancelRequest 1 ++ _) = _
    rw [hframe]
    decide
  . intro hcarries
    have hclear := hcarries.clear ⟨15, .u32 0⟩ (by simp [Msg.fields])
    have hle : 15 + 4 ≤ 18 := hclear
    omega

end OuchOrderCodec

end NebulaXTrader
