import NebulaXTrader.Execution.OrderFrames
import NebulaXTrader.Execution.SimExchange

/-!
This module contains the messages of `Session` as bytes: what the simulated exchange makes of the frame of an order or of
a cancel request, and what the engine does with the frames that the exchange sends.
-/

namespace NebulaXTrader

open OuchOrderCodec (kMsgOrder kOrderMsgLen kMsgCancelReq kCancelReqLen kMsgBookQuery cancelRequest)

/--
The bytes of a message. They do not depend on the tables of the codec.
-/
def OrderMsg.encode (m : OrderMsg) : List UInt8 :=
  match m with
  | .O o => (({} : OuchOrderCodec).encodeOrder o).2
  | .X id => cancelRequest id

namespace SimExchange

theorem length_encodeOrder (c : OuchOrderCodec) (o : Order) : (c.encodeOrder o).2.length = kOrderMsgLen := by
  unfold OuchOrderCodec.encodeOrder
  simp [OuchOrderCodec.length_sealFrame, OuchOrderCodec.length_tokenFor, OuchOrderCodec.length_bookFor,
    OuchOrderCodec.length_bytesOfInt, kOrderMsgLen]

theorem length_cancelRequest (id : Nat) : (cancelRequest id).length = kCancelReqLen := by
  unfold cancelRequest
  simp [OuchOrderCodec.length_sealFrame, OuchOrderCodec.length_tokenFor, kCancelReqLen]

theorem head_encodeOrder (c : OuchOrderCodec) (o : Order) : (c.encodeOrder o).2.head? = some kMsgOrder := rfl

theorem head_cancelRequest (id : Nat) : (cancelRequest id).head? = some kMsgCancelReq := rfl

theorem msgLen_encode (m : OrderMsg) : m.encode.head?.bind msgLen = some m.encode.length := by
  cases m with
  | O o =>
    show _ = some (({} : OuchOrderCodec).encodeOrder o).2.length
    rw [length_encodeOrder]
    rfl
  | X id =>
    show _ = some (cancelRequest id).length
    rw [length_cancelRequest]
    rfl

theorem msgLen_pos {type : UInt8} {mlen : Nat} (h : msgLen type = some mlen) : 0 < mlen := by
  unfold msgLen at h
  split at h
  . cases h
    decide
  . split at h
    . cases h
      decide
    . cases h

theorem token_cancelRequest {id : Nat} (h : id < 10 ^ 14) : strtoull (field (cancelRequest id) 1 14) = id := by
  have htoken := OuchOrderCodec.length_tokenFor id
  have hfield : field (cancelRequest id) 1 14 = OuchOrderCodec.tokenFor id := by
    have happend := @field_append [kMsgCancelReq] (OuchOrderCodec.tokenFor id)
      ([0, 0, 0] ++ [OuchOrderCodec.checksum ([kMsgCancelReq] ++ OuchOrderCodec.tokenFor id ++ [0, 0, 0])]) 1 14 rfl htoken
    unfold cancelRequest OuchOrderCodec.sealFrame
    simpa only [List.append_assoc] using happend
  rw [hfield]
  exact OuchOrderCodec.strtoull_tokenFor h

end SimExchange

/--
The report that stands for a message of the exchange. Only an acknowledgement needs the reference number.
-/
inductive Report.Carries (ref : Nat) : Report → Fill → Prop where
  | ack (o : Order) : Carries ref (.ack o) { type := .A, orderId := o.orderId, exchangeRef := ref }
  | exec (orderId qty : Nat) (price : Int) (hqty : qty < 2 ^ 32) (h0 : 0 ≤ price) (hprice : price ≤ 42949672)
    : Carries ref (.exec orderId qty price) { type := .E, orderId := orderId, filledQty := qty, fillPrice := price }
  | cancel (orderId qty : Nat) : Carries ref (.cancel orderId qty) { type := .C, orderId := orderId }

theorem Report.Carries.onOrderReport {ref : Nat} {r : Report} {f g : Fill} (h : r.Carries ref f) (hnames : r.Names g)
    (href : g.exchangeRef = ref) (ex : ExecutionEngine) (env : Env) : ex.onOrderReport env g = ex.onOrderReport env f := by
  have htype := hnames.type
  have horderId := hnames.orderId
  unfold ExecutionEngine.onOrderReport
  rw [horderId]
  cases h with
  | ack o =>
    rw [htype, href]
    rfl
  | exec orderId qty price hqty h0 hprice =>
    obtain ⟨hfilled, hfillPrice⟩ := hnames.exec orderId qty price rfl
    rw [htype, hfilled hqty, hfillPrice h0 hprice]
    rfl
  | cancel orderId qty =>
    rw [htype]
    rfl

/--
A frame of the exchange `venue` that stands for the message.
-/
def InFlight (venue : OuchOrderCodec) (f : Fill) (frame : List UInt8) : Prop :=
  ∃ (r : Report) (ref : Nat), frame = OuchOrderCodec.report r.typeByte ref r.orderId r.rest ∧ r.Carries ref f ∧
    r.orderId < 10 ^ 14 ∧ ref < 2 ^ 64 ∧ venue.idToRef r.orderId = some ref

theorem InFlight.mono {venue venue' : OuchOrderCodec} {f : Fill} {frame : List UInt8} (h : InFlight venue f frame)
    (hkeep : ∀ id ref, venue.idToRef id = some ref → venue'.idToRef id = some ref) : InFlight venue' f frame := by
  obtain ⟨r, ref, hframe, hcarries, hid, hlt, href⟩ := h
  exact ⟨r, ref, hframe, hcarries, hid, hlt, hkeep _ _ href⟩

theorem InFlight.isFrame {venue : OuchOrderCodec} {f : Fill} {frame : List UInt8} (h : InFlight venue f frame)
    : ReportStream.IsFrame frame ∧ ReportStream.hand frame = .fill frame := by
  obtain ⟨r, ref, hframe, hcarries, hid, hlt, href⟩ := h
  have hencode : (r.encode venue).2 = frame := by
    rw [r.encode_snd, OuchOrderCodec.refFor_of_some href, hframe]
  constructor
  . rw [← hencode]
    exact ReportStream.Report.isFrame_encode r venue
  . rw [hframe]
    cases r with
    | ack o => rfl
    | exec orderId filledQty fillPrice => rfl
    | cancel orderId canceledQty => rfl
    | reject orderId => rfl

/--
The trader has learned only what the exchange has assigned.
-/
def Learned (trader venue : OuchOrderCodec) : Prop :=
  ∀ ref id, trader.refToId ref = some id → venue.idToRef id = some ref

theorem InFlight.decodeFill {trader venue : OuchOrderCodec} {f : Fill} {frame : List UInt8} (h : InFlight venue f frame)
    (hassigned : venue.Assigned) (hlearned : Learned trader venue)
    : ∃ codec g, trader.decodeFill frame = (codec, some g) ∧ Learned codec venue ∧
        ∀ (ex : ExecutionEngine) (env : Env), ex.onOrderReport env g = ex.onOrderReport env f := by
  obtain ⟨r, ref, hframe, hcarries, hid, hlt, href⟩ := h
  have hmod : ref % 2 ^ 64 = ref := Nat.mod_eq_of_lt hlt
  have hknown : ∀ id, trader.refToId (ref % 2 ^ 64) = some id → id = r.orderId := by
    intro id hlearn
    rw [hmod] at hlearn
    exact hassigned.distinct id _ ref (hlearned ref id hlearn) href
  obtain ⟨g, hdecode, hnames, hexchange⟩ := Report.names_decodeFill hid ref hknown
  rw [hmod] at hdecode hexchange
  rw [← hframe] at hdecode
  refine ⟨_, g, hdecode, ?_, hcarries.onOrderReport hnames hexchange⟩
  intro ref' id' hlearn
  split at hlearn
  . dsimp only at hlearn
    by_cases heq : ref' = ref
    . rw [heq, Function.update_self, Option.some_inj] at hlearn
      rw [heq, ← hlearn]
      exact href
    . rw [Function.update_of_ne heq] at hlearn
      exact hlearned ref' id' hlearn
  . exact hlearned ref' id' hlearn

theorem Report.inFlight_encode {venue : OuchOrderCodec} (hassigned : venue.Assigned) {r : Report} (hid : r.orderId < 10 ^ 14)
    {f : Fill} (hcarries : r.Carries (venue.refFor r.orderId).2 f)
    : (r.encode venue).1.Assigned ∧ InFlight (r.encode venue).1 f (r.encode venue).2 ∧
        ∀ id ref, venue.idToRef id = some ref → (r.encode venue).1.idToRef id = some ref := by
  obtain ⟨hassigned', hself, hlt, hkeep⟩ := hassigned.refFor hid
  rw [← r.encode_fst] at hassigned' hself hkeep
  exact ⟨hassigned', ⟨r, _, r.encode_snd venue, hcarries, hid, hlt, hself⟩, hkeep⟩

/--
The numbers of the message fit into its fields.
-/
def OrderMsg.Fits (m : OrderMsg) : Prop :=
  match m with
  | .O o => o.orderId < 10 ^ 14 ∧ 0 < o.quantity ∧ o.quantity < 2 ^ 32 ∧ 0 ≤ o.price ∧ o.price ≤ 42949672
  | .X id => id < 10 ^ 14

namespace SimExchange

variable {x : SimExchange}

theorem decodeOrder_encode {o : Order} (hfits : OrderMsg.Fits (.O o))
    : ∃ o', OuchOrderCodec.decodeOrder (OrderMsg.encode (.O o)) = some o' ∧ o'.orderId = o.orderId ∧
        o'.quantity = o.quantity ∧ o'.price = o.price := by
  obtain ⟨hid, _, hqty, h0, hprice⟩ := hfits
  refine ⟨OuchOrderCodec.received o, OuchOrderCodec.decodeOrder_encodeOrder {} o, ?_, ?_, ?_⟩
  . unfold OuchOrderCodec.received
    rw [OuchOrderCodec.strtoull_tokenFor hid]
  . unfold OuchOrderCodec.received
    rw [Nat.mod_eq_of_lt hqty]
  . unfold OuchOrderCodec.received
    exact (OuchOrderCodec.price_iff o.price).2 ⟨h0, hprice⟩

theorem handle_order (hassigned : x.codec.Assigned) {o : Order} (hfits : OrderMsg.Fits (.O o))
    : ∃ codec ref ack exec, x.handle (OrderMsg.encode (.O o)) =
          ({ x with codec := codec, ordersReceived := x.ordersReceived + 1 }, ack ++ exec) ∧
        codec.Assigned ∧ (∀ id ref, x.codec.idToRef id = some ref → codec.idToRef id = some ref) ∧
        InFlight codec { type := .A, orderId := o.orderId, exchangeRef := ref } ack ∧
        InFlight codec { type := .E, orderId := o.orderId, filledQty := o.quantity, fillPrice := o.price } exec := by
  obtain ⟨o', hdecode, horderId, hquantity, hprice⟩ := decodeOrder_encode hfits
  obtain ⟨hid, _, hqty, h0, hle⟩ := hfits
  rw [← horderId] at hid
  rw [← hquantity] at hqty
  rw [← hprice] at h0 hle
  obtain ⟨hassigned₁, hflight₁, hkeep₁⟩ := Report.inFlight_encode (r := .ack o') hassigned hid (.ack o')
  obtain ⟨hassigned₂, hflight₂, hkeep₂⟩ := Report.inFlight_encode (r := .exec o'.orderId o'.quantity o'.price)
    hassigned₁ hid (.exec _ _ _ hqty h0 hle)
  rw [← horderId, ← hquantity, ← hprice]
  refine ⟨_, _, _, _, ?_, hassigned₂, fun id ref h => hkeep₂ id ref (hkeep₁ id ref h), hflight₁.mono hkeep₂, hflight₂⟩
  have hhead : (OrderMsg.encode (.O o)).head? = some kMsgOrder := head_encodeOrder {} o
  unfold handle
  rw [if_pos hhead, hdecode]
  rfl

theorem handle_cancel (hassigned : x.codec.Assigned) {id : Nat} (hid : id < 10 ^ 14)
    : ∃ codec cmsg, x.handle (OrderMsg.encode (.X id)) = ({ x with codec := codec }, cmsg) ∧
        codec.Assigned ∧ (∀ id ref, x.codec.idToRef id = some ref → codec.idToRef id = some ref) ∧
        InFlight codec { type := .C, orderId := id } cmsg := by
  obtain ⟨hassigned', hflight, hkeep⟩ := Report.inFlight_encode (r := .cancel id 0) hassigned hid (.cancel id 0)
  refine ⟨_, _, ?_, hassigned', hkeep, hflight⟩
  unfold handle
  rw [if_neg (by rw [OrderMsg.encode, head_cancelRequest]; decide)]
  have htoken : strtoull (field (OrderMsg.encode (.X id)) 1 14) = id := token_cancelRequest hid
  rw [htoken]
  rfl

end SimExchange

end NebulaXTrader
