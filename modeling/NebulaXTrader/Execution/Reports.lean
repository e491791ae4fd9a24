import NebulaXTrader.Execution.Lemmas.OrderCodec
import NebulaXTrader.Lib.Chain
import NebulaXTrader.Lib.Run

/-!
This module contains histories of OUCH reports: one codec encodes them, another one or the same decodes
them in any order, and every report comes back to its order.
-/

namespace NebulaXTrader

open Positional (bytes word length_bytes word_bytes)

inductive Report where
  | ack (order : Order)
  | exec (orderId filledQty : Nat) (fillPrice : Int)
  | cancel (orderId canceledQty : Nat)
  | reject (orderId : Nat)

namespace Report

def orderId (r : Report) : Nat :=
  match r with
  | .ack o => o.orderId
  | .exec orderId _ _ => orderId
  | .cancel orderId _ => orderId
  | .reject orderId => orderId

def encode (r : Report) (c : OuchOrderCodec) : OuchOrderCodec × List UInt8 :=
  match r with
  | .ack o => c.encodeAck o
  | .exec orderId filledQty fillPrice => c.encodeExec orderId filledQty fillPrice
  | .cancel orderId canceledQty => c.encodeCancel orderId canceledQty
  | .reject orderId => c.encodeReject orderId

def type (r : Report) : FillType :=
  match r with
  | .ack _ => .A
  | .exec _ _ _ => .E
  | .cancel _ _ => .C
  | .reject _ => .J

def typeByte (r : Report) : UInt8 :=
  match r with
  | .ack _ => OuchOrderCodec.kMsgAck
  | .exec _ _ _ => OuchOrderCodec.kMsgExec
  | .cancel _ _ => OuchOrderCodec.kMsgCancel
  | .reject _ => OuchOrderCodec.kMsgReject

def msgLen (r : Report) : Nat :=
  match r with
  | .ack _ => OuchOrderCodec.kAckMsgLen
  | .exec _ _ _ => OuchOrderCodec.kExecMsgLen
  | .cancel _ _ => OuchOrderCodec.kCancelMsgLen
  | .reject _ => OuchOrderCodec.kRejectMsgLen

def rest (r : Report) : List UInt8 :=
  match r with
  | .ack o => [OuchOrderCodec.sideByte o.side] ++ bytes 4 o.quantity ++ OuchOrderCodec.bookFor o.symbolId
  | .exec _ filledQty fillPrice => [66] ++ bytes 4 filledQty ++ bytesOfInt 4 (fillPrice * 100) ++
      bytes 4 filledQty ++ bytesOfInt 4 (fillPrice * 100) ++ [84]
  | .cancel _ canceledQty => [66] ++ bytes 4 canceledQty ++ List.replicate 10 32
  | .reject _ => [66] ++ List.replicate 11 32

/--
What a report is decoded to: its type and order, and the quantity and the price of an execution that fit
into 32 bits.
-/
structure Names (r : Report) (f : Fill) : Prop where
  type : f.type = r.type
  orderId : f.orderId = r.orderId
  exec : ∀ orderId filledQty fillPrice, r = .exec orderId filledQty fillPrice →
    (filledQty < 2 ^ 32 → f.filledQty = filledQty) ∧
      (0 ≤ fillPrice → fillPrice ≤ 42949672 → f.fillPrice = fillPrice)

theorem kind (r : Report) : OuchOrderCodec.reportKind r.typeByte = some (r.type, r.msgLen) := by
  cases r with
  | ack o => rfl
  | exec orderId filledQty fillPrice => rfl
  | cancel orderId canceledQty => rfl
  | reject orderId => rfl

theorem length_rest (r : Report) : 23 + r.rest.length + 1 = r.msgLen := by
  cases r with
  | ack o => simp [rest, msgLen, OuchOrderCodec.length_bookFor, OuchOrderCodec.kAckMsgLen]
  | exec orderId filledQty fillPrice =>
    simp [rest, msgLen, OuchOrderCodec.length_bytesOfInt, OuchOrderCodec.kExecMsgLen]
  | cancel orderId canceledQty => simp [rest, msgLen, OuchOrderCodec.kCancelMsgLen]
  | reject orderId => simp [rest, msgLen, OuchOrderCodec.kRejectMsgLen]

theorem encode_fst (r : Report) (c : OuchOrderCodec) : (r.encode c).1 = (c.refFor r.orderId).1 := by
  cases r with
  | ack o => rfl
  | exec orderId filledQty fillPrice => rfl
  | cancel orderId canceledQty => rfl
  | reject orderId => rfl

theorem encode_snd (r : Report) (c : OuchOrderCodec)
    : (r.encode c).2 = OuchOrderCodec.report r.typeByte (c.refFor r.orderId).2 r.orderId r.rest := by
  cases r with
  | ack o => exact c.encodeAck_frame o
  | exec orderId filledQty fillPrice => exact c.encodeExec_frame orderId filledQty fillPrice
  | cancel orderId canceledQty =>
    simp only [encode, OuchOrderCodec.encodeCancel, OuchOrderCodec.report, Report.orderId, typeByte, rest,
      List.append_assoc]
  | reject orderId =>
    simp only [encode, OuchOrderCodec.encodeReject, OuchOrderCodec.report, Report.orderId, typeByte, rest,
      List.append_assoc]

end Report

namespace OuchOrderCodec

theorem word_bytesOfInt {p : Int} (h0 : 0 ≤ p) (h : p ≤ 42949672)
    : ((word (bytesOfInt 4 (p * 100)) / 100 : Nat) : Int) = p := by
  unfold bytesOfInt
  have hmod : p * 100 % 256 ^ 4 = p * 100 := by
    apply Int.emod_eq_of_lt
    . omega
    . omega
  rw [hmod, word_bytes, Nat.mod_eq_of_lt (by omega)]
  omega

theorem report_exec_fields (ref orderId filledQty : Nat) (fillPrice : Int)
    : let frame := report kMsgExec ref orderId (Report.exec orderId filledQty fillPrice).rest
      field frame 32 4 = bytes 4 filledQty ∧ field frame 36 4 = bytesOfInt 4 (fillPrice * 100) := by
  intro frame
  have htoken := length_tokenFor orderId
  have hprice := length_bytesOfInt 4 (fillPrice * 100)
  have hframe : frame = sealFrame ([kMsgExec] ++ bytes 8 ref ++ tokenFor orderId ++ ([66] ++
      bytes 4 filledQty ++ bytesOfInt 4 (fillPrice * 100) ++ bytes 4 filledQty ++
      bytesOfInt 4 (fillPrice * 100) ++ [84])) := rfl
  rw [hframe, sealFrame]
  generalize checksum _ = sum
  constructor
  . have happend := @field_append ([kMsgExec] ++ bytes 8 ref ++ tokenFor orderId ++ [66] ++
      bytes 4 filledQty ++ bytesOfInt 4 (fillPrice * 100)) (bytes 4 filledQty)
      (bytesOfInt 4 (fillPrice * 100) ++ [84] ++ [sum]) 32 4 (by simp [htoken, hprice]) (by simp)
    simpa only [List.append_assoc] using happend
  . have happend := @field_append ([kMsgExec] ++ bytes 8 ref ++ tokenFor orderId ++ [66] ++
      bytes 4 filledQty ++ bytesOfInt 4 (fillPrice * 100) ++ bytes 4 filledQty)
      (bytesOfInt 4 (fillPrice * 100)) ([84] ++ [sum]) 36 4 (by simp [htoken, hprice]) hprice
    simpa only [List.append_assoc] using happend

end OuchOrderCodec

namespace Report

theorem names_decodeFill {r : Report} (h : r.orderId < 10 ^ 14) (ref : Nat) {trader : OuchOrderCodec}
    (href : ∀ id, trader.refToId (ref % 2 ^ 64) = some id → id = r.orderId)
    : ∃ f, trader.decodeFill (OuchOrderCodec.report r.typeByte ref r.orderId r.rest) =
        (if r.type = .A then
          { trader with refToId := Function.update trader.refToId (ref % 2 ^ 64) (some r.orderId) }
        else trader, some f) ∧ r.Names f ∧ f.exchangeRef = ref % 2 ^ 64 := by
  have hid : trader.orderOf (ref % 2 ^ 64) r.orderId = r.orderId := by
    cases hf : trader.refToId (ref % 2 ^ 64) with
    | none => exact OuchOrderCodec.orderOf_of_none hf
    | some id => rw [OuchOrderCodec.orderOf_of_refToId hf, href id hf]
  have hdecode := trader.decodeFill_report r.kind ref h r.length_rest
  dsimp only at hdecode
  rw [hid] at hdecode
  refine ⟨_, hdecode, ?_, rfl⟩
  constructor
  . rfl
  . rfl
  . intro orderId filledQty fillPrice hr
    subst hr
    have hfields := OuchOrderCodec.report_exec_fields ref orderId filledQty fillPrice
    dsimp only [typeByte, type, Report.orderId]
    simp only [if_true]
    rw [hfields.1, hfields.2]
    constructor
    . intro hqty
      rw [word_bytes, Nat.mod_eq_of_lt (by omega)]
    . exact OuchOrderCodec.word_bytesOfInt

end Report

/--
The codecs of a process, the frames that one of them has encoded so far and what another one or the same
has decoded, each next to the report that it was encoded from.
-/
structure ReportLine where
  codecs : Nat → OuchOrderCodec := fun _ => {}
  frames : List (Report × List UInt8) := []
  decoded : List (Report × Option Fill) := []

namespace ReportLine

inductive Label where
  | encode (r : Report)
  | decode (k : Nat)

def step (venue trader : Nat) (s : ReportLine) (l : Label) : Option ReportLine :=
  match l with
  | .encode r =>
    let (c, frame) := r.encode (s.codecs venue)
    some { s with codecs := Function.update s.codecs venue c, frames := s.frames ++ [(r, frame)] }
  | .decode k =>
    match s.frames[k]? with
    | none => none
    | some (r, frame) =>
      let (c, f) := (s.codecs trader).decodeFill frame
      some { s with codecs := Function.update s.codecs trader c, decoded := s.decoded ++ [(r, f)] }

end ReportLine

namespace OuchOrderCodec

/--
The reference numbers that a codec has given to orders, of which there are fewer than `10 ^ 14`, so that
the counter never wraps.
-/
structure Assigned (c : OuchOrderCodec) : Prop where
  ids : ∃ ids : List Nat, ids.Nodup ∧ (∀ id ∈ ids, id < 10 ^ 14) ∧
    (∀ id, id ∈ ids ↔ (c.idToRef id).isSome) ∧ c.nextRef = ids.length + 1
  below : ∀ id ref, c.idToRef id = some ref → ref < c.nextRef
  distinct : ∀ id id' ref, c.idToRef id = some ref → c.idToRef id' = some ref → id = id'

variable {c : OuchOrderCodec}

theorem Assigned.init : Assigned {} := by
  constructor
  . refine ⟨[], ?_⟩
    simp
  . simp
  . simp

theorem Assigned.nextRef_lt (h : c.Assigned) : c.nextRef + 1 < 2 ^ 64 := by
  obtain ⟨ids, hnodup, hlt, _, hnext⟩ := h.ids
  have hle := Chain.length_le_of_nodup_of_lt hnodup hlt
  omega

theorem refFor_refToId (c : OuchOrderCodec) (orderId : Nat)
    : (c.refFor orderId).1.refToId = c.refToId := by
  unfold refFor
  split
  . rfl
  . rfl

theorem Assigned.refFor (h : c.Assigned) {orderId : Nat} (hid : orderId < 10 ^ 14)
    : (c.refFor orderId).1.Assigned ∧
      (c.refFor orderId).1.idToRef orderId = some (c.refFor orderId).2 ∧
      (c.refFor orderId).2 < 2 ^ 64 ∧
      ∀ id ref, c.idToRef id = some ref → (c.refFor orderId).1.idToRef id = some ref := by
  have hnext := h.nextRef_lt
  cases href : c.idToRef orderId with
  | some ref =>
    have hbelow := h.below orderId ref href
    rw [refFor_of_some href]
    exact ⟨h, href, by omega, fun _ _ hold => hold⟩
  | none =>
    have hupdate : ∀ id ref, Function.update c.idToRef orderId (some c.nextRef) id = some ref →
        (id = orderId ∧ ref = c.nextRef) ∨ (id ≠ orderId ∧ c.idToRef id = some ref) := by
      intro id ref hset
      by_cases heq : id = orderId
      . rw [heq, Function.update_self, Option.some_inj] at hset
        exact Or.inl ⟨heq, hset.symm⟩
      . rw [Function.update_of_ne heq] at hset
        exact Or.inr ⟨heq, hset⟩
    rw [refFor_of_none href, Nat.mod_eq_of_lt hnext]
    refine ⟨?_, Function.update_self _ _ _, by omega, ?_⟩
    . constructor
      . obtain ⟨ids, hnodup, hlt, hids, hlen⟩ := h.ids
        refine ⟨orderId :: ids, ?_, ?_, ?_, ?_⟩
        . rw [List.nodup_cons, hids, href]
          simpa using hnodup
        . intro id hmem
          cases List.mem_cons.1 hmem with
          | inl heq =>
            rw [heq]
            exact hid
          | inr hmem => exact hlt id hmem
        . intro id
          dsimp only
          rw [List.mem_cons, hids]
          by_cases heq : id = orderId
          . rw [heq, Function.update_self]
            simp
          . rw [Function.update_of_ne heq]
            simp [heq]
        . dsimp only
          rw [hlen, List.length_cons]
      . intro id ref hset
        dsimp only at hset ⊢
        cases hupdate id ref hset with
        | inl hnew => omega
        | inr hold =>
          have hbelow := h.below id ref hold.2
          omega
      . intro id id' ref hset hset'
        rcases hupdate id ref hset with hnew | hold
        . rcases hupdate id' ref hset' with hnew' | hold'
          . rw [hnew.1, hnew'.1]
          . have hbelow := h.below id' ref hold'.2
            omega
        . rcases hupdate id' ref hset' with hnew' | hold'
          . have hbelow := h.below id ref hold.2
            omega
          . exact h.distinct id id' ref hold.2 hold'.2
    . intro id ref hold
      have hne : id ≠ orderId := by
        intro heq
        rw [heq, href] at hold
        cases hold
      dsimp only
      rw [Function.update_of_ne hne]
      exact hold

end OuchOrderCodec

namespace ReportLine

/--
Everything that a frame or the decoder says about a reference is what the encoder assigned.
-/
structure Inv (venue trader : Nat) (s : ReportLine) : Prop where
  assigned : (s.codecs venue).Assigned
  frames : ∀ p ∈ s.frames, p.1.orderId < 10 ^ 14 ∧ ∃ ref, ref < 2 ^ 64 ∧
    (s.codecs venue).idToRef p.1.orderId = some ref ∧
    p.2 = OuchOrderCodec.report p.1.typeByte ref p.1.orderId p.1.rest
  learned : ∀ ref id, (s.codecs trader).refToId ref = some id → (s.codecs venue).idToRef id = some ref
  decoded : ∀ d ∈ s.decoded, ∃ f, d.2 = some f ∧ d.1.Names f ∧
    (s.codecs venue).idToRef d.1.orderId = some f.exchangeRef

variable {venue trader : Nat} {s s' : ReportLine}

theorem Inv.init (venue trader : Nat) : Inv venue trader {} := by
  constructor
  . exact .init
  . simp
  . simp
  . simp

theorem Inv.encode (h : s.Inv venue trader) {r : Report} (hr : r.orderId < 10 ^ 14)
    (hstep : s.step venue trader (.encode r) = some s') : s'.Inv venue trader := by
  cases hstep
  obtain ⟨hassigned, hself, hlt, hkeep⟩ := h.assigned.refFor hr
  have hlearned : (Function.update s.codecs venue (r.encode (s.codecs venue)).1 trader).refToId =
      (s.codecs trader).refToId := by
    by_cases ht : trader = venue
    . rw [ht, Function.update_self, r.encode_fst, OuchOrderCodec.refFor_refToId]
    . rw [Function.update_of_ne ht]
  rw [← r.encode_fst] at hassigned hself hkeep
  constructor
  . dsimp only
    rw [Function.update_self]
    exact hassigned
  . intro p hp
    dsimp only
    rw [Function.update_self]
    cases List.mem_append.1 hp with
    | inl hold =>
      obtain ⟨hid, ref, hlt', href, hframe⟩ := h.frames p hold
      exact ⟨hid, ref, hlt', hkeep _ _ href, hframe⟩
    | inr hnew =>
      rw [List.mem_singleton] at hnew
      subst hnew
      exact ⟨hr, _, hlt, hself, r.encode_snd _⟩
  . intro ref id hid
    have hold : (s.codecs trader).refToId ref = some id := by
      rw [← hlearned]
      exact hid
    dsimp only
    rw [Function.update_self]
    exact hkeep _ _ (h.learned ref id hold)
  . intro d hd
    obtain ⟨f, hf, hnames, href⟩ := h.decoded d hd
    dsimp only
    rw [Function.update_self]
    exact ⟨f, hf, hnames, hkeep _ _ href⟩

theorem Inv.decode (h : s.Inv venue trader) {k : Nat}
    (hstep : s.step venue trader (.decode k) = some s') : s'.Inv venue trader := by
  unfold step at hstep
  dsimp only at hstep
  cases hk : s.frames[k]? with
  | none =>
    rw [hk] at hstep
    cases hstep
  | some p =>
    rw [hk] at hstep
    cases hstep
    obtain ⟨hid, ref, hlt, href, hframe⟩ := h.frames p (List.mem_of_getElem? hk)
    have hmod : ref % 2 ^ 64 = ref := Nat.mod_eq_of_lt hlt
    have hknown : ∀ id, (s.codecs trader).refToId (ref % 2 ^ 64) = some id → id = p.1.orderId := by
      intro id hid
      rw [hmod] at hid
      exact h.assigned.distinct id _ ref (h.learned ref id hid) href
    obtain ⟨f, hdecode, hnames, hexchange⟩ := Report.names_decodeFill hid ref hknown
    rw [hmod] at hdecode hexchange
    rw [← hframe] at hdecode
    rw [hdecode]
    generalize hc : (if p.1.type = FillType.A then _ else s.codecs trader) = c
    have hfields : c.idToRef = (s.codecs trader).idToRef ∧ c.nextRef = (s.codecs trader).nextRef := by
      rw [← hc]
      split
      . exact ⟨rfl, rfl⟩
      . exact ⟨rfl, rfl⟩
    have hvenue : (Function.update s.codecs trader c venue).idToRef = (s.codecs venue).idToRef ∧
        (Function.update s.codecs trader c venue).nextRef = (s.codecs venue).nextRef := by
      by_cases ht : venue = trader
      . rw [ht, Function.update_self]
        exact hfields
      . rw [Function.update_of_ne ht]
        exact ⟨rfl, rfl⟩
    constructor
    . have hassigned := h.assigned
      constructor
      . rw [hvenue.1, hvenue.2]
        exact hassigned.ids
      . rw [hvenue.1, hvenue.2]
        exact hassigned.below
      . rw [hvenue.1]
        exact hassigned.distinct
    . dsimp only
      rw [hvenue.1]
      exact h.frames
    . intro ref' id' hid'
      dsimp only at hid' ⊢
      rw [hvenue.1]
      rw [Function.update_self, ← hc] at hid'
      split at hid'
      . dsimp only at hid'
        by_cases heq : ref' = ref
        . rw [heq, Function.update_self, Option.some_inj] at hid'
          rw [heq, ← hid']
          exact href
        . rw [Function.update_of_ne heq] at hid'
          exact h.learned ref' id' hid'
      . exact h.learned ref' id' hid'
    . intro d hd
      dsimp only
      rw [hvenue.1]
      cases List.mem_append.1 hd with
      | inl hold => exact h.decoded d hold
      | inr hnew =>
        rw [List.mem_singleton] at hnew
        subst hnew
        refine ⟨f, rfl, hnames, ?_⟩
        rw [hexchange]
        exact href

def Label.Allowed (l : Label) : Prop := ∀ r, l = .encode r → r.orderId < 10 ^ 14

theorem Inv.step (h : s.Inv venue trader) {l : Label} (hl : l.Allowed)
    (hstep : s.step venue trader l = some s') : s'.Inv venue trader := by
  cases l with
  | encode r => exact h.encode (hl r rfl) hstep
  | decode k => exact h.decode hstep

/--
Whatever was encoded and in whatever order the frames are decoded, every report is decoded to its own type
and order, and two reports carry the same reference if and only if they are about the same order.
-/
theorem reports_decoded (venue trader : Nat) (ls : List Label)
    (hls : ∀ l ∈ ls, l.Allowed) (hrun : Run.exec (step venue trader) {} ls = some s)
    : (∀ d ∈ s.decoded, ∃ f, d.2 = some f ∧ d.1.Names f) ∧
        ∀ d ∈ s.decoded, ∀ d' ∈ s.decoded, ∀ f f', d.2 = some f → d'.2 = some f' →
          (f.exchangeRef = f'.exchangeRef ↔ d.1.orderId = d'.1.orderId) := by
  have halong : Run.Along (ReportLine.step venue trader) (fun _ l => l.Allowed) {} ls :=
    .of_forall (fun l hl _ => hls l hl) _
  have hinv := Run.exec_inv (fun s l s' h hl hstep => Inv.step h hl hstep) (Inv.init venue trader)
    halong hrun
  constructor
  . intro d hd
    obtain ⟨f, hf, hnames, _⟩ := hinv.decoded d hd
    exact ⟨f, hf, hnames⟩
  . intro d hd d' hd' f f' hf hf'
    obtain ⟨g, hg, _, href⟩ := hinv.decoded d hd
    obtain ⟨g', hg', _, href'⟩ := hinv.decoded d' hd'
    rw [hf, Option.some_inj] at hg
    rw [hf', Option.some_inj] at hg'
    subst hg hg'
    constructor
    . intro heq
      rw [← heq] at href'
      exact hinv.assigned.distinct _ _ _ href href'
    . intro heq
      rw [heq, href', Option.some_inj] at href
      exact href.symm

def crossed : List Label :=
  [.encode (.exec 42 500 10000), .encode (.reject 99),
    .encode (.ack { orderId := 42, strategyId := 0, symbolId := 7, side := .SELL, type := .LIMIT,
                    price := 10000, quantity := 500, timestamp := 0 }),
    .decode 2, .decode 0, .encode (.cancel 99 1), .decode 3, .decode 1, .decode 0]

theorem reports_decoded_crossed
    : let s := (Run.exec (step 0 0) {} crossed).getD {}
      s.decoded.length = 5 ∧ ∀ d ∈ s.decoded, ∃ f, d.2 = some f ∧ d.1.Names f := by
  -- The acknowledgement is encoded after the execution and decoded before it.
  intro s
  constructor
  . decide +kernel
  . have hsome : (Run.exec (step 0 0) {} crossed).isSome := by decide +kernel
    obtain ⟨s', hs'⟩ := Option.isSome_iff_exists.1 hsome
    have heq : s = s' := by
      unfold s
      rw [hs', Option.getD_some]
    rw [heq]
    apply (reports_decoded 0 0 crossed _ hs').1
    intro l hl r hr
    subst hr
    simp only [crossed, List.mem_cons, Label.encode.injEq, reduceCtorEq, List.not_mem_nil, or_false,
      false_or] at hl
    rcases hl with rfl | rfl | rfl | rfl
    . decide
    . decide
    . decide
    . decide

end ReportLine

end NebulaXTrader
