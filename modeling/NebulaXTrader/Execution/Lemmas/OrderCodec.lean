import NebulaXTrader.Execution.OrderCodec

/-!
This module contains what the decoders of the order protocols read from the frames of the encoders.
-/

namespace NebulaXTrader

open Positional (bytes word length_bytes word_bytes)

theorem field_append {pre x post : List UInt8} {off n : Nat} (hoff : pre.length = off)
    (hn : x.length = n) : field (pre ++ x ++ post) off n = x := by
  unfold field
  rw [List.append_assoc, List.drop_left' hoff, List.take_left' hn]

theorem getD_append {pre post : List UInt8} {x : UInt8} {n : Nat} (h : pre.length = n)
    : (pre ++ [x] ++ post).getD n 0 = x := by
  rw [List.append_assoc, List.getD_eq_getElem?_getD, List.getElem?_append_right (by omega)]
  simp [h]

def digitChar (d : Nat) : UInt8 := UInt8.ofNat (48 + d)

theorem toNat_digitChar {d : Nat} (h : d < 10) : (digitChar d).toNat = 48 + d := by
  unfold digitChar
  rw [UInt8.toNat_ofNat', Nat.mod_eq_of_lt (by omega)]

theorem isDigit_digitChar {d : Nat} (h : d < 10) : isDigit (digitChar d) := by
  have hnat := toNat_digitChar h
  unfold isDigit
  rw [decide_eq_true_iff, UInt8.le_iff_toNat_le, UInt8.le_iff_toNat_le, hnat]
  show 48 ≤ 48 + d ∧ 48 + d ≤ 57
  omega

theorem isSpace_digitChar {d : Nat} (h : d < 10) : isSpace (digitChar d) = false := by
  have hnat := toNat_digitChar h
  unfold isSpace
  rw [decide_eq_false_iff_not]
  intro hspace
  cases hspace with
  | inl heq =>
    rw [heq] at hnat
    have hclash : 32 = 48 + d := hnat
    omega
  | inr hrange =>
    have hle := UInt8.le_iff_toNat_le.1 hrange.2
    rw [hnat] at hle
    have hclash : 48 + d ≤ 13 := hle
    omega

theorem digitChar_ne {d : Nat} (h : d < 10) {c : UInt8} (hc : c.toNat < 48) : digitChar d ≠ c := by
  intro heq
  have hnat := toNat_digitChar h
  rw [heq] at hnat
  omega

theorem strtoull_digits {ds : List Nat} {rest : List UInt8} (hds : ∀ d ∈ ds, d < 10) (hne : ds ≠ [])
    (hrest : rest.head?.all (fun c => isDigit c = false)) (hlt : Positional.number 10 ds < 2 ^ 64)
    : strtoull (ds.map digitChar ++ rest) = Positional.number 10 ds := by
  cases ds with
  | nil => exact absurd rfl hne
  | cons d ds =>
    have hd : d < 10 := hds d (by simp)
    have hspace : ((d :: ds).map digitChar ++ rest).dropWhile isSpace =
        (d :: ds).map digitChar ++ rest := by
      rw [List.map_cons, List.cons_append, List.dropWhile_cons_of_neg]
      rw [isSpace_digitChar hd]
      decide
    have htake : (((d :: ds).map digitChar) ++ rest).takeWhile isDigit = (d :: ds).map digitChar := by
      have hall : ∀ c ∈ (d :: ds).map digitChar, isDigit c := by
        intro c hc
        cases List.mem_map.1 hc with
        | intro x hx =>
          rw [← hx.2]
          exact isDigit_digitChar (hds x hx.1)
      rw [List.takeWhile_append_of_pos hall]
      have hnone : rest.takeWhile isDigit = [] := by
        cases rest with
        | nil => rfl
        | cons c rest =>
          have hc : isDigit c = false := by simpa using hrest
          rw [List.takeWhile_cons_of_neg]
          rw [hc]
          decide
      rw [hnone, List.append_nil]
    have hvalue : (((d :: ds).map digitChar).map (fun c => c.toNat - 48)) = d :: ds := by
      rw [List.map_map]
      conv => rhs; rw [← List.map_id (d :: ds)]
      apply List.map_congr_left
      intro x hx
      show (digitChar x).toNat - 48 = x
      rw [toNat_digitChar (hds x hx)]
      omega
    have hminus : ¬ (((d :: ds).map digitChar) ++ rest).head? = some 45 := by
      simp only [List.map_cons, List.cons_append, List.head?_cons, Option.some.injEq]
      exact digitChar_ne hd (by decide)
    have hplus : ¬ (((d :: ds).map digitChar) ++ rest).head? = some 43 := by
      simp only [List.map_cons, List.cons_append, List.head?_cons, Option.some.injEq]
      exact digitChar_ne hd (by decide)
    unfold strtoull
    dsimp only
    rw [hspace, if_neg (not_or.2 ⟨hminus, hplus⟩), htake, hvalue, if_neg (Nat.not_le.2 hlt),
      if_neg hminus]

namespace OuchOrderCodec

theorem tokenFor_of_lt {orderId : Nat} (h : orderId < 10 ^ 14)
    : tokenFor orderId = (Positional.digits 10 14 orderId).map digitChar := by
  have hlog : Nat.log 10 orderId + 1 ≤ 14 := by
    by_cases hzero : orderId = 0
    . rw [hzero, Nat.log_zero_right]
      decide
    . have hlt := (Nat.log_lt_iff_lt_pow (by decide) hzero).2 h
      omega
  unfold tokenFor
  dsimp only
  rw [Nat.max_eq_left hlog, List.take_of_length_le]
  . rfl
  . simp

theorem length_tokenFor (orderId : Nat) : (tokenFor orderId).length = 14 := by
  unfold tokenFor
  simp

theorem length_bookFor (symbolId : Nat) : (bookFor symbolId).length = 10 := by
  unfold bookFor
  dsimp only
  rw [List.length_append, List.length_replicate]
  have hle : ((decimal symbolId).take 10).length ≤ 10 := by
    rw [List.length_take]
    omega
  omega

theorem length_bytesOfInt (n : Nat) (v : Int) : (bytesOfInt n v).length = n := by
  unfold bytesOfInt
  simp

theorem strtoull_tokenFor {orderId : Nat} (h : orderId < 10 ^ 14)
    : strtoull (tokenFor orderId) = orderId := by
  have hnumber : Positional.number 10 (Positional.digits 10 14 orderId) = orderId := by
    rw [Positional.number_digits, Nat.mod_eq_of_lt h]
  have hne : Positional.digits 10 14 orderId ≠ [] := by
    intro hnil
    have hlen := Positional.length_digits 10 14 orderId
    rw [hnil] at hlen
    cases hlen
  have hread := @strtoull_digits (Positional.digits 10 14 orderId) []
    (fun d hd => Positional.digit_lt (by decide) hd) hne rfl (by rw [hnumber]; omega)
  rw [List.append_nil, hnumber] at hread
  rw [tokenFor_of_lt h]
  exact hread

theorem strtoull_bookFor (symbolId : Nat)
    : strtoull (bookFor symbolId) < 10 ^ 10 ∧ (symbolId < 10 ^ 10 → strtoull (bookFor symbolId) = symbolId) := by
  generalize hds : ((Positional.digits 10 (Nat.log 10 symbolId + 1) symbolId).take 10) = ds
  have hbook : bookFor symbolId = ds.map digitChar ++ List.replicate (10 - ds.length) 32 := by
    have hdecimal : (decimal symbolId).take 10 = ds.map digitChar := by
      rw [← hds, List.map_take]
      rfl
    unfold bookFor
    dsimp only
    rw [hdecimal, List.length_map]
  have hlen : ds.length ≤ 10 := by
    rw [← hds]
    simp
  have hdigit : ∀ d ∈ ds, d < 10 := by
    intro d hd
    rw [← hds] at hd
    exact Positional.digit_lt (by decide) (List.mem_of_mem_take hd)
  have hlt : Positional.number 10 ds < 10 ^ 10 := by
    have hpow : 10 ^ ds.length ≤ 10 ^ 10 := Nat.pow_le_pow_right (by decide) hlen
    have hnumber := Positional.number_lt hdigit
    omega
  have hne : ds ≠ [] := by
    intro hnil
    have hzero := congrArg List.length hds
    rw [hnil] at hzero
    simp at hzero
  have hspace : (List.replicate (10 - ds.length) (32 : UInt8)).head?.all (fun c => isDigit c = false) := by
    cases 10 - ds.length with
    | zero => rfl
    | succ n => rfl
  have hread := strtoull_digits hdigit hne hspace (by omega)
  rw [hbook, hread]
  refine ⟨hlt, ?_⟩
  intro hsymbol
  have hwidth : symbolId < 10 ^ (Nat.log 10 symbolId + 1) := Nat.lt_pow_succ_log_self (by decide) symbolId
  have hlog : Nat.log 10 symbolId + 1 ≤ 10 := by
    by_cases hzero : symbolId = 0
    . simp [hzero]
    . have hlog := (Nat.log_lt_iff_lt_pow (by decide) hzero).2 hsymbol
      omega
  rw [← hds, List.take_of_length_le (by simpa using hlog), Positional.number_digits,
    Nat.mod_eq_of_lt hwidth]

theorem length_sealFrame (b : List UInt8) : (sealFrame b).length = b.length + 1 := by
  unfold sealFrame
  simp

theorem sealFrame_checks {b : List UInt8} {n : Nat} (h : b.length = n)
    : (sealFrame b).getD n 0 = checksum ((sealFrame b).take n) := by
  unfold sealFrame
  rw [List.take_left' h, List.getD_eq_getElem?_getD, List.getElem?_append_right (by omega)]
  simp [h]

def orderOf (c : OuchOrderCodec) (ref orderId : Nat) : Nat :=
  match c.refToId ref with
  | some id => id
  | none => orderId

theorem orderOf_of_refToId {trader : OuchOrderCodec} {ref id orderId : Nat}
    (h : trader.refToId ref = some id) : trader.orderOf ref orderId = id := by
  unfold orderOf
  rw [h]

theorem refFor_of_some {venue : OuchOrderCodec} {orderId ref : Nat}
    (h : venue.idToRef orderId = some ref) : venue.refFor orderId = (venue, ref) := by
  unfold refFor
  rw [h]

theorem refFor_of_none {venue : OuchOrderCodec} {orderId : Nat} (h : venue.idToRef orderId = none)
    : venue.refFor orderId =
      ({ venue with
        idToRef := Function.update venue.idToRef orderId (some venue.nextRef)
        nextRef := (venue.nextRef + 1) % 2 ^ 64 }, venue.nextRef) := by
  unfold refFor
  rw [h]

theorem orderOf_of_none {trader : OuchOrderCodec} {ref orderId : Nat}
    (h : trader.refToId ref = none) : trader.orderOf ref orderId = orderId := by
  unfold orderOf
  rw [h]

theorem codec_encodeOrder : codec.encodeOrder = encodeOrder := rfl

theorem codec_decodeOrder : codec.decodeOrder = decodeOrder := rfl

theorem codec_encodeAck : codec.encodeAck = some encodeAck := rfl

theorem codec_decodeFill : codec.decodeFill = decodeFill := rfl

theorem encodeOrder_refToId (c : OuchOrderCodec) (o : Order) : (c.encodeOrder o).1.refToId = c.refToId := by
  unfold encodeOrder
  dsimp only

def report (type : UInt8) (ref orderId : Nat) (rest : List UInt8) : List UInt8 :=
  sealFrame ([type] ++ bytes 8 ref ++ tokenFor orderId ++ rest)

theorem decodeFill_report (trader : OuchOrderCodec) {type : UInt8} {kind : FillType} {msgLen : Nat}
    (hkind : reportKind type = some (kind, msgLen)) (ref : Nat) {orderId : Nat}
    (h : orderId < 10 ^ 14) {rest : List UInt8} (hrest : 23 + rest.length + 1 = msgLen)
    : let frame := report type ref orderId rest
      let id := trader.orderOf (ref % 2 ^ 64) orderId
      trader.decodeFill frame =
        (if kind = .A then
          { trader with refToId := Function.update trader.refToId (ref % 2 ^ 64) (some id) }
        else trader,
          some {
            type := kind
            orderId := id
            exchangeRef := ref % 2 ^ 64
            filledQty := if kind = .E then word (field frame 32 4) else 0
            fillPrice := if kind = .E then (word (field frame 36 4) / 100 : Nat) else 0 }) := by
  intro frame id
  have htoken := length_tokenFor orderId
  have hframe : frame = report type ref orderId rest := rfl
  have hlen : ([type] ++ bytes 8 ref ++ tokenFor orderId ++ rest).length = msgLen - 1 := by
    simp [htoken]
    omega
  have hall : frame.length = msgLen := by
    rw [hframe, report, length_sealFrame, hlen]
    omega
  have hsum : frame.getD (msgLen - 1) 0 = checksum (frame.take (msgLen - 1)) := sealFrame_checks hlen
  have href : field frame 1 8 = bytes 8 ref := by
    rw [hframe, report, sealFrame]
    have happend := @field_append [type] (bytes 8 ref) (tokenFor orderId ++ rest ++
      [checksum ([type] ++ bytes 8 ref ++ tokenFor orderId ++ rest)]) 1 8 rfl (length_bytes _ _)
    simpa only [List.append_assoc] using happend
  have htok : field frame 9 14 = tokenFor orderId := by
    rw [hframe, report, sealFrame]
    have happend := @field_append ([type] ++ bytes 8 ref) (tokenFor orderId) (rest ++
      [checksum ([type] ++ bytes 8 ref ++ tokenFor orderId ++ rest)]) 9 14 (by simp) htoken
    simpa only [List.append_assoc] using happend
  have hword : word (bytes 8 ref) = ref % 2 ^ 64 := word_bytes 8 _
  have hhead : frame.head?.bind reportKind = some (kind, msgLen) := hkind
  unfold decodeFill
  rw [hhead]
  dsimp only
  rw [if_neg (by omega), if_neg (not_not.2 hsum), href, htok, hword, strtoull_tokenFor h]
  rfl

theorem encodeAck_frame (venue : OuchOrderCodec) (o : Order)
    : (venue.encodeAck o).2 = report kMsgAck (venue.refFor o.orderId).2 o.orderId
        ([sideByte o.side] ++ bytes 4 o.quantity ++ bookFor o.symbolId) := by
  unfold encodeAck report
  simp only [List.append_assoc]

theorem encodeExec_frame (venue : OuchOrderCodec) (orderId filledQty : Nat) (fillPrice : Int)
    : (venue.encodeExec orderId filledQty fillPrice).2 = report kMsgExec (venue.refFor orderId).2 orderId
        ([66] ++ bytes 4 filledQty ++ bytesOfInt 4 (fillPrice * 100) ++ bytes 4 filledQty ++
          bytesOfInt 4 (fillPrice * 100) ++ [84]) := by
  unfold encodeExec report
  simp only [List.append_assoc]

theorem decodeFill_encodeAck (venue trader : OuchOrderCodec) {o : Order} (h : o.orderId < 10 ^ 14)
    : let ref := (venue.refFor o.orderId).2 % 2 ^ 64
      let id := trader.orderOf ref o.orderId
      trader.decodeFill (venue.encodeAck o).2 =
        ({ trader with refToId := Function.update trader.refToId ref (some id) },
          some { type := .A, orderId := id, exchangeRef := ref, filledQty := 0, fillPrice := 0 }) := by
  -- What a trader reads from an acknowledgement. It learns the reference number from it.
  intro ref id
  have hrest : ([sideByte o.side] ++ bytes 4 o.quantity ++ bookFor o.symbolId).length = 15 := by
    simp [length_bookFor]
  have hread := @decodeFill_report trader kMsgAck .A kAckMsgLen rfl (venue.refFor o.orderId).2
    o.orderId h _ (by rw [hrest]; rfl)
  rw [encodeAck_frame]
  exact hread

theorem decodeFill_encodeExec (venue trader : OuchOrderCodec) {orderId : Nat} (h : orderId < 10 ^ 14)
    (filledQty : Nat) (fillPrice : Int)
    : ∃ f, trader.decodeFill (venue.encodeExec orderId filledQty fillPrice).2 = (trader, some f) ∧
        f.type = .E ∧ f.orderId = trader.orderOf ((venue.refFor orderId).2 % 2 ^ 64) orderId := by
  have hrest : ([66] ++ bytes 4 filledQty ++ bytesOfInt 4 (fillPrice * 100) ++ bytes 4 filledQty ++
      bytesOfInt 4 (fillPrice * 100) ++ [84] : List UInt8).length = 18 := by
    simp [length_bytesOfInt]
  have hread := @decodeFill_report trader kMsgExec .E kExecMsgLen rfl (venue.refFor orderId).2
    orderId h _ (by rw [hrest]; rfl)
  rw [encodeExec_frame]
  exact ⟨_, hread, rfl, rfl⟩

theorem order_fields (type side tif : UInt8) {token qty book price : List UInt8} (a b c d : List UInt8)
    (htoken : token.length = 14) (hqty : qty.length = 4) (hbook : book.length = 10)
    (hprice : price.length = 4)
    : let buf := [type] ++ token ++ [side] ++ qty ++ book ++ price ++ [tif] ++ a ++ b ++ c ++ d
      field buf 1 14 = token ∧ buf.getD 15 0 = side ∧ field buf 16 4 = qty ∧ field buf 20 10 = book ∧
        field buf 30 4 = price ∧ buf.getD 34 0 = tif := by
  intro buf
  have hbuf : buf = [type] ++ token ++ [side] ++ qty ++ book ++ price ++ [tif] ++ (a ++ b ++ c ++ d) := by
    simp only [buf, List.append_assoc]
  generalize a ++ b ++ c ++ d = rest at hbuf
  rw [hbuf]
  -- each field lies between what stands before it and what follows it
  refine ⟨?_, ?_, ?_, ?_, ?_, ?_⟩
  . have happend := @field_append [type] token ([side] ++ qty ++ book ++ price ++ [tif] ++ rest) 1 14 rfl
      htoken
    simpa only [List.append_assoc] using happend
  . have hget := @getD_append ([type] ++ token) (qty ++ book ++ price ++ [tif] ++ rest) side 15
      (by simp [htoken])
    simpa only [List.append_assoc] using hget
  . have happend := @field_append ([type] ++ token ++ [side]) qty (book ++ price ++ [tif] ++ rest) 16 4
      (by simp [htoken]) hqty
    simpa only [List.append_assoc] using happend
  . have happend := @field_append ([type] ++ token ++ [side] ++ qty) book (price ++ [tif] ++ rest) 20 10
      (by simp [htoken, hqty]) hbook
    simpa only [List.append_assoc] using happend
  . have happend := @field_append ([type] ++ token ++ [side] ++ qty ++ book) price ([tif] ++ rest) 30 4
      (by simp [htoken, hqty, hbook]) hprice
    simpa only [List.append_assoc] using happend
  . apply getD_append
    simp [htoken, hqty, hbook, hprice]

theorem sideByte_eq (side : OrderSide) : sideByte side = 83 ↔ side = .SELL := by
  unfold sideByte
  split
  . next h => simp [h]
  . next h => simp [h]

def received (o : Order) : Order where
  orderId := strtoull (tokenFor o.orderId)
  strategyId := 0
  symbolId := strtoull (bookFor o.symbolId)
  side := if o.side = .SELL then .SELL else .BUY
  type := if o.type = .LIMIT ∨ o.type = .ICEBERG then .LIMIT else .MARKET
  price := (word (bytesOfInt 4 (o.price * 100)) / 100 : Nat)
  quantity := o.quantity % 2 ^ 32
  timestamp := 0

theorem decodeOrder_encodeOrder (c : OuchOrderCodec) (o : Order)
    : decodeOrder (c.encodeOrder o).2 = some (received o) := by
  have htoken := length_tokenFor o.orderId
  have hbook := length_bookFor o.symbolId
  have hprice := length_bytesOfInt 4 (o.price * 100)
  unfold encodeOrder
  dsimp only
  generalize htif : (if o.type = .LIMIT ∨ o.type = .ICEBERG then (68 : UInt8) else 89) = tif
  generalize hbody : [kMsgOrder] ++ tokenFor o.orderId ++ [sideByte o.side] ++ bytes 4 o.quantity ++
    bookFor o.symbolId ++ bytesOfInt 4 (o.price * 100) ++ [tif] ++ List.replicate 6 32 ++ [78, 65, 78] ++
    bytes 4 0 = body
  have hlen : body.length = 48 := by
    rw [← hbody]
    simp [htoken, hbook, hprice]
  have hsum : (sealFrame body).getD 48 0 = checksum ((sealFrame body).take (kOrderMsgLen - 1)) :=
    sealFrame_checks hlen
  have hshort : ¬ ((sealFrame body).length < kOrderMsgLen ∨ (sealFrame body).getD 0 0 ≠ kMsgOrder) := by
    rw [length_sealFrame, hlen, not_or, not_not, ← hbody]
    exact ⟨by decide, rfl⟩
  have hfields := order_fields kMsgOrder (sideByte o.side) tif (List.replicate 6 32) [78, 65, 78]
    (bytes 4 0) [checksum body] htoken (length_bytes 4 o.quantity) hbook hprice
  dsimp only at hfields
  rw [hbody] at hfields
  have hword : word (bytes 4 o.quantity) = o.quantity % 2 ^ 32 := word_bytes 4 _
  have hlimit : (tif = 68) ↔ (o.type = .LIMIT ∨ o.type = .ICEBERG) := by
    rw [← htif]
    split
    . next h => simp [h]
    . next h => simp [h]
  unfold decodeOrder
  rw [if_neg hshort, if_neg (not_not.2 hsum), sealFrame]
  obtain ⟨hid, hside, hqty, hsymbol, hprice', htif'⟩ := hfields
  rw [hid, hside, hqty, hsymbol, hprice', htif', hword]
  simp only [sideByte_eq, hlimit]
  rfl

theorem decodeOrder_orderId (c : OuchOrderCodec) {o : Order} (h : o.orderId < 10 ^ 14)
    : ∃ o', decodeOrder (c.encodeOrder o).2 = some o' ∧ o'.orderId = o.orderId := by
  refine ⟨_, decodeOrder_encodeOrder c o, ?_⟩
  unfold received
  rw [strtoull_tokenFor h]

theorem decodeBookQuery_encodeBookQuery (symbolId : Nat)
    : decodeBookQuery (encodeBookQuery symbolId) = some (strtoull (bookFor symbolId)) := by
  have hbook := length_bookFor symbolId
  unfold encodeBookQuery
  generalize hbody : [kMsgBookQuery] ++ bookFor symbolId ++ [32] = body
  have hlen : body.length = 12 := by
    rw [← hbody]
    simp [hbook]
  have hsum : (sealFrame body).getD 12 0 = checksum ((sealFrame body).take (kBookQueryMsgLen - 1)) :=
    sealFrame_checks hlen
  have hshort : ¬ ((sealFrame body).length < kBookQueryMsgLen ∨ (sealFrame body).getD 0 0 ≠ kMsgBookQuery) := by
    rw [length_sealFrame, hlen, not_or, not_not, ← hbody]
    exact ⟨by decide, rfl⟩
  have hfield : field (sealFrame body) 1 10 = bookFor symbolId := by
    have happend := @field_append [kMsgBookQuery] (bookFor symbolId) ([32] ++ [checksum body]) 1 10 rfl hbook
    rw [sealFrame, ← hbody] at *
    simpa only [List.append_assoc] using happend
  unfold decodeBookQuery
  rw [if_neg hshort, if_neg (not_not.2 hsum), hfield]

theorem book_fields (type : UInt8) {book bid bidVol ask askVol : List UInt8} (rest : List UInt8)
    (hbook : book.length = 10) (hbid : bid.length = 4) (hbidVol : bidVol.length = 4) (hask : ask.length = 4)
    (haskVol : askVol.length = 4)
    : let buf := [type] ++ book ++ bid ++ bidVol ++ ask ++ askVol ++ rest
      field buf 1 10 = book ∧ field buf 11 4 = bid ∧ field buf 15 4 = bidVol ∧ field buf 19 4 = ask ∧
        field buf 23 4 = askVol := by
  intro buf
  refine ⟨?_, ?_, ?_, ?_, ?_⟩
  . have happend := @field_append [type] book (bid ++ bidVol ++ ask ++ askVol ++ rest) 1 10 rfl hbook
    simpa only [buf, List.append_assoc] using happend
  . have happend := @field_append ([type] ++ book) bid (bidVol ++ ask ++ askVol ++ rest) 11 4
      (by simp [hbook]) hbid
    simpa only [buf, List.append_assoc] using happend
  . have happend := @field_append ([type] ++ book ++ bid) bidVol (ask ++ askVol ++ rest) 15 4
      (by simp [hbook, hbid]) hbidVol
    simpa only [buf, List.append_assoc] using happend
  . have happend := @field_append ([type] ++ book ++ bid ++ bidVol) ask (askVol ++ rest) 19 4
      (by simp [hbook, hbid, hbidVol]) hask
    simpa only [buf, List.append_assoc] using happend
  . apply field_append
    . simp [hbook, hbid, hbidVol, hask]
    . exact haskVol

def quoted (symbolId : Nat) (bid : Int) (bidVol : Nat) (ask : Int) (askVol : Nat) : BookQuote where
  symbolId := strtoull (bookFor symbolId)
  bid := (word (bytesOfInt 4 (bid * 100)) / 100 : Nat)
  bidVol := bidVol % 2 ^ 32
  ask := (word (bytesOfInt 4 (ask * 100)) / 100 : Nat)
  askVol := askVol % 2 ^ 32

theorem quoted_symbolId (symbolId : Nat) (bid : Int) (bidVol : Nat) (ask : Int) (askVol : Nat)
    : (quoted symbolId bid bidVol ask askVol).symbolId = strtoull (bookFor symbolId) := by
  dsimp only [quoted]

theorem decodeBook_encodeBook (symbolId : Nat) (bid : Int) (bidVol : Nat) (ask : Int) (askVol : Nat)
    : decodeBook (encodeBook symbolId bid bidVol ask askVol) =
        some (quoted symbolId bid bidVol ask askVol) := by
  have hbook := length_bookFor symbolId
  have hbid := length_bytesOfInt 4 (bid * 100)
  have hask := length_bytesOfInt 4 (ask * 100)
  unfold encodeBook
  generalize hbody : [kMsgBook] ++ bookFor symbolId ++ bytesOfInt 4 (bid * 100) ++ bytes 4 bidVol ++
    bytesOfInt 4 (ask * 100) ++ bytes 4 askVol ++ List.replicate 6 32 = body
  have hlen : body.length = 33 := by
    rw [← hbody]
    simp [hbook, hbid, hask]
  have hsum : (sealFrame body).getD 33 0 = checksum ((sealFrame body).take (kBookMsgLen - 1)) :=
    sealFrame_checks hlen
  have hshort : ¬ ((sealFrame body).length < kBookMsgLen ∨ (sealFrame body).getD 0 0 ≠ kMsgBook) := by
    rw [length_sealFrame, hlen, not_or, not_not, ← hbody]
    exact ⟨by decide, rfl⟩
  have hfields := book_fields kMsgBook (List.replicate 6 32 ++ [checksum body]) hbook hbid
    (length_bytes 4 bidVol) hask (length_bytes 4 askVol)
  rw [← List.append_assoc, hbody] at hfields
  obtain ⟨hsymbol, hbid', hbidVol, hask', haskVol⟩ := hfields
  have hword : ∀ n, word (bytes 4 n) = n % 2 ^ 32 := fun n => word_bytes 4 n
  unfold decodeBook
  rw [if_neg hshort, if_neg (not_not.2 hsum), sealFrame, hsymbol, hbid', hbidVol, hask', haskVol, hword, hword]
  rfl

end OuchOrderCodec

namespace CustomOrderCodec

theorem decodeFill_type {buf : List UInt8} {f : Fill} (h : decodeFill buf = some f) : f.type = .F := by
  unfold decodeFill at h
  split at h
  . cases h
  . cases h
    rfl

theorem codec_decodeFill_type {s : codec.State} {buf : List UInt8} {f : Fill}
    (h : (codec.decodeFill s buf).2 = some f) : f.type = .F :=
  @decodeFill_type buf f h

end CustomOrderCodec

end NebulaXTrader
