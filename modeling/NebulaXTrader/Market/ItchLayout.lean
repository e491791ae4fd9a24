import NebulaXTrader.Lib.Positional
import NebulaXTrader.Market.MarketEvent

/-!
This module contains the message layouts of the protocol document, and the theorem which messages the parser
decodes as they are laid out.
-/

namespace NebulaXTrader

open Positional (bytes word length_bytes word_bytes)

structure ItchHeader where
  locate : Fin (2 ^ 16)
  track : Fin (2 ^ 16)
  timestamp : Fin (2 ^ 48)

inductive BuySell where
  | B
  | S

def BuySell.letter (b : BuySell) : Nat :=
  match b with
  | .B => 66
  | .S => 83

def BuySell.side (b : BuySell) : OrderSide :=
  match b with
  | .B => .BUY
  | .S => .SELL

/--
The messages of the document that the parser handles, without their common header. A price is in units of
1/10000 dollar; `stock` and `attribution` are the characters of these fields as numbers.
-/
inductive ItchMessage where
  | A (orderRef : Fin (2 ^ 64)) (buysell : BuySell) (shares : Fin (2 ^ 32)) (stock : Fin (2 ^ 64))
    (price : Fin (2 ^ 32))
  | F (orderRef : Fin (2 ^ 64)) (buysell : BuySell) (shares : Fin (2 ^ 32)) (stock : Fin (2 ^ 64))
    (price : Fin (2 ^ 32)) (attribution : Fin (2 ^ 32))
  | D (orderRef : Fin (2 ^ 64))
  | X (orderRef : Fin (2 ^ 64)) (cancelledShares : Fin (2 ^ 32))
  | U (oldRef newRef : Fin (2 ^ 64)) (shares price : Fin (2 ^ 32))
  | P (orderRef : Fin (2 ^ 64)) (buysell : BuySell) (shares : Fin (2 ^ 32)) (stock : Fin (2 ^ 64))
    (price : Fin (2 ^ 32)) (matchNum : Fin (2 ^ 64))
  | E (orderRef : Fin (2 ^ 64)) (shares : Fin (2 ^ 32)) (matchNum : Fin (2 ^ 64))
  | C (orderRef : Fin (2 ^ 64)) (shares : Fin (2 ^ 32)) (stock : Fin (2 ^ 64)) (price : Fin (2 ^ 32))
    (matchNum : Fin (2 ^ 64))

namespace ItchMessage

def type (m : ItchMessage) : UInt8 :=
  match m with
  | .A .. => 65
  | .F .. => 70
  | .D .. => 68
  | .X .. => 88
  | .U .. => 85
  | .P .. => 80
  | .E .. => 69
  | .C .. => 67

def fields (m : ItchMessage) : List (Nat × Nat) :=
  match m with
  | .A orderRef buysell shares stock price =>
    [(8, orderRef), (1, buysell.letter), (4, shares), (8, stock), (4, price)]
  | .F orderRef buysell shares stock price attribution =>
    [(8, orderRef), (1, buysell.letter), (4, shares), (8, stock), (4, price), (4, attribution)]
  | .D orderRef => [(8, orderRef)]
  | .X orderRef cancelledShares => [(8, orderRef), (4, cancelledShares)]
  | .U oldRef newRef shares price => [(8, oldRef), (8, newRef), (4, shares), (4, price)]
  | .P orderRef buysell shares stock price matchNum =>
    [(8, orderRef), (1, buysell.letter), (4, shares), (8, stock), (4, price), (8, matchNum)]
  | .E orderRef shares matchNum => [(8, orderRef), (4, shares), (8, matchNum)]
  | .C orderRef shares stock price matchNum =>
    [(8, orderRef), (4, shares), (8, stock), (4, price), (8, matchNum)]

def layOut (fs : List (Nat × Nat)) : List UInt8 := fs.flatMap (fun f => bytes f.1 f.2)

def header (h : ItchHeader) : List (Nat × Nat) := [(2, h.locate), (2, h.track), (6, h.timestamp)]

def encode (h : ItchHeader) (m : ItchMessage) : List UInt8 := m.type :: layOut (header h ++ m.fields)

/--
The event has the documented type and carries the values of the message.
-/
def Carries (h : ItchHeader) (m : ItchMessage) (seq : Nat) (ev : MarketEvent) : Prop :=
  ev.seqId = seq ∧ ev.locate = h.locate ∧ ev.timestamp = h.timestamp ∧
    match m with
    | .A orderRef buysell shares _ price | .F orderRef buysell shares _ price _ =>
      ∃ o, ev.body = .ADD o ∧ o.orderRef = orderRef ∧ o.side = buysell.side ∧ o.shares = shares ∧
        o.price = (price.val / 100 : Nat)
    | .D orderRef => ∃ o, ev.body = .DELETE o ∧ o.orderRef = orderRef ∧ o.side = .NONE
    | .X orderRef cancelledShares =>
      ∃ o, ev.body = .CANCEL o ∧ o.orderRef = orderRef ∧ o.side = .NONE ∧ o.shares = cancelledShares
    | .U oldRef newRef shares price =>
      ∃ o, ev.body = .REPLACE o ∧ o.orderRef = oldRef ∧ o.newOrderRef = newRef ∧ o.side = .NONE ∧
        o.shares = shares ∧ o.price = (price.val / 100 : Nat)
    | .P orderRef buysell shares _ price _ =>
      ∃ t, ev.body = .TRADE t ∧ t.orderRef = orderRef ∧ t.side = buysell.side ∧ t.volume = shares ∧
        t.price = (price.val / 100 : Nat)
    | .E orderRef shares _ =>
      ∃ t, ev.body = .EXECUTE t ∧ t.orderRef = orderRef ∧ t.side = .NONE ∧ t.volume = shares ∧ t.price = -1
    | .C orderRef shares _ price _ =>
      ∃ t, ev.body = .TRADE t ∧ t.orderRef = orderRef ∧ t.side = .NONE ∧ t.volume = shares ∧
        t.price = (price.val / 100 : Nat)

/--
The messages that are decoded as documented. Of a `C` the parser takes the last four characters of the stock
for the price; a `D`, an `X` and a `U` get the side that the number 0 stands for.
-/
def Faithful (m : ItchMessage) : Prop :=
  match m with
  | .A .. | .F .. | .P .. | .E .. => True
  | .D .. | .X .. | .U .. => False
  | .C _ _ stock price _ => stock.val % 2 ^ 32 / 100 = price.val / 100

end ItchMessage

namespace ItchParser

open ItchMessage

theorem rdBytes_eq {n off : Nat} {m : List UInt8} (h : off + n ≤ m.length)
    : rdBytes n m off = word ((m.drop off).take n) := by
  induction n with
  | zero => rfl
  | succ n ih =>
    have hget : (m.drop off).take (n + 1) = (m.drop off).take n ++ [m.getD (off + n) 0] := by
      have hlt : off + n < m.length := by omega
      have hdrop : n < (m.drop off).length := by
        rw [List.length_drop]
        omega
      rw [List.take_succ_eq_append_getElem hdrop, List.getElem_drop, List.getD_eq_getElem?_getD,
        List.getElem?_eq_getElem hlt, Option.getD_some]
    rw [hget, Positional.word_append_singleton, ← ih (by omega)]
    unfold rdBytes
    rw [List.range_succ, List.foldl_append]
    rfl

theorem rdBytes_append {pre post x : List UInt8} {n off : Nat} (hpre : pre.length = off) (hx : x.length = n)
    : rdBytes n (pre ++ x ++ post) off = word x := by
  have hlen : off + n ≤ (pre ++ x ++ post).length := by
    simp only [List.length_append]
    omega
  rw [rdBytes_eq hlen, List.append_assoc, List.drop_left' hpre, List.take_left' hx]

theorem length_layOut (fs : List (Nat × Nat)) : (layOut fs).length = (fs.map Prod.fst).sum := by
  simp [layOut, List.length_flatMap]

theorem rdBytes_field (type : UInt8) (pre post : List (Nat × Nat)) {n v : Nat} (hv : v < 256 ^ n)
    : rdBytes n (type :: layOut (pre ++ (n, v) :: post)) (1 + (pre.map Prod.fst).sum) = v := by
  have hsplit : type :: layOut (pre ++ (n, v) :: post) = (type :: layOut pre) ++ bytes n v ++ layOut post := by
    unfold layOut
    rw [List.flatMap_append, List.flatMap_cons, List.cons_append, List.cons_append, List.append_assoc]
  have hlen : (type :: layOut pre).length = 1 + (pre.map Prod.fst).sum := by
    rw [List.length_cons, length_layOut, Nat.add_comm]
  rw [hsplit, rdBytes_append hlen (length_bytes n v), word_bytes, Nat.mod_eq_of_lt hv]

theorem layOut_split (pre post : List (Nat × Nat)) (m n v : Nat)
    : layOut (pre ++ (m + n, v) :: post) = layOut (pre ++ (m, v / 256 ^ n) :: (n, v % 256 ^ n) :: post) := by
  have hmod : bytes n (v % 256 ^ n) = bytes n v := by
    apply Positional.bytes_congr
    rw [Nat.mod_mod]
  unfold layOut
  simp only [List.flatMap_append, List.flatMap_cons]
  rw [Positional.bytes_add, hmod, List.append_assoc]

theorem rdSide_eq (m : List UInt8) : rdSide m = if rdBytes 1 m 19 = 83 then .SELL else .BUY := by
  have hbyte : rdBytes 1 m 19 = (m.getD 19 0).toNat := by
    unfold rdBytes
    simp
  have hiff : m.getD 19 0 = 83 ↔ rdBytes 1 m 19 = 83 := by
    rw [hbyte]
    constructor
    . intro h
      rw [h]
      rfl
    . intro h
      exact UInt8.toNat_inj.1 h
  unfold rdSide
  simp only [hiff]

section Fields

variable (h : ItchHeader) (m : ItchMessage)

theorem length_encode : (encode h m).length = 11 + (m.fields.map Prod.fst).sum := by
  unfold encode
  rw [List.length_cons, length_layOut, List.map_append, List.sum_append]
  have hheader : ((header h).map Prod.fst).sum = 10 := rfl
  rw [hheader]
  omega

theorem emit_encode (seq : Nat) (body : MarketEvent.Body)
    : emit (encode h m) seq body = {
        seqId := seq, locate := h.locate, timestamp := h.timestamp, body := body } := by
  have hlocate : rdU16 (encode h m) 1 = h.locate :=
    rdBytes_field m.type [] ((2, h.track) :: (6, h.timestamp) :: m.fields) h.locate.isLt
  have htimestamp : rdTs (encode h m) 5 = h.timestamp :=
    rdBytes_field m.type [(2, h.locate), (2, h.track)] m.fields h.timestamp.isLt
  unfold emit
  rw [hlocate, htimestamp]

theorem rdBytes_encode (pre post : List (Nat × Nat)) {n v : Nat} (hfields : m.fields = pre ++ (n, v) :: post)
    (hv : v < 256 ^ n) : rdBytes n (encode h m) (11 + (pre.map Prod.fst).sum) = v := by
  have hread := rdBytes_field m.type (header h ++ pre) post hv
  have hsum : 1 + ((header h ++ pre).map Prod.fst).sum = 11 + (pre.map Prod.fst).sum := by
    rw [List.map_append, List.sum_append]
    have hheader : ((header h).map Prod.fst).sum = 10 := rfl
    rw [hheader]
    omega
  rw [hsum, List.append_assoc, ← hfields] at hread
  exact hread

theorem rdSide_encode (b : BuySell) (pre post : List (Nat × Nat)) (hfields : m.fields = pre ++ (1, b.letter) :: post)
    (hpre : (pre.map Prod.fst).sum = 8) : rdSide (encode h m) = b.side := by
  have hletter : b.letter < 256 ^ 1 := by
    cases b <;> decide
  have hread := rdBytes_encode h m pre post hfields hletter
  rw [hpre] at hread
  rw [rdSide_eq, hread]
  cases b <;> rfl

end Fields

def decoded (m : ItchMessage) : MarketEvent.Body :=
  match m with
  | .A orderRef buysell shares _ price | .F orderRef buysell shares _ price _ =>
    .ADD { side := buysell.side, price := itchToCents price, shares := shares, orderRef := orderRef }
  | .D orderRef => .DELETE { orderRef := orderRef }
  | .X orderRef cancelledShares => .CANCEL { orderRef := orderRef, shares := cancelledShares }
  | .U oldRef newRef shares price =>
    .REPLACE { orderRef := oldRef, newOrderRef := newRef, price := itchToCents price, shares := shares }
  | .P orderRef buysell shares _ price _ =>
    .TRADE { side := buysell.side, price := itchToCents price, volume := shares, orderRef := orderRef }
  | .E orderRef shares _ => .EXECUTE { side := .NONE, price := -1, volume := shares, orderRef := orderRef }
  | .C orderRef shares stock _ _ =>
    .TRADE { side := .NONE, price := itchToCents (stock % 2 ^ 32 : Nat), volume := shares, orderRef := orderRef }

section Decoded

variable (h : ItchHeader) (seq : Nat)

theorem rd_layoutA (m : ItchMessage) (orderRef : Fin (2 ^ 64)) (buysell : BuySell) (shares : Fin (2 ^ 32))
    (stock : Fin (2 ^ 64)) (price : Fin (2 ^ 32)) (post : List (Nat × Nat))
    (hfields : m.fields =
      [(8, orderRef.val), (1, buysell.letter), (4, shares.val), (8, stock.val), (4, price.val)] ++ post)
    : rdU64 (encode h m) 11 = orderRef ∧ rdSide (encode h m) = buysell.side ∧ rdU32 (encode h m) 20 = shares ∧
      rdU32 (encode h m) 32 = price := by
  refine ⟨?_, ?_, ?_, ?_⟩
  . exact rdBytes_encode h m [] _ hfields orderRef.isLt
  . exact rdSide_encode h m buysell [(8, orderRef.val)] _ hfields rfl
  . exact rdBytes_encode h m [(8, orderRef.val), (1, buysell.letter)] _ hfields shares.isLt
  . exact rdBytes_encode h m [(8, orderRef.val), (1, buysell.letter), (4, shares.val), (8, stock.val)] post
      hfields price.isLt

theorem rd_priceC (orderRef : Fin (2 ^ 64)) (shares : Fin (2 ^ 32)) (stock : Fin (2 ^ 64)) (price : Fin (2 ^ 32))
    (matchNum : Fin (2 ^ 64))
    : rdU32 (encode h (.C orderRef shares stock price matchNum)) 27 = stock.val % 2 ^ 32 := by
  -- The offset from which the parser takes the price of a `C` lies in the middle of the stock field.
  have hsplit := layOut_split (header h ++ [(8, orderRef.val), (4, shares.val)])
    [(4, price.val), (8, matchNum.val)] 4 4 stock.val
  have hlt : stock.val % 256 ^ 4 < 256 ^ 4 := Nat.mod_lt _ (by decide)
  have hread := rdBytes_field 67 (header h ++ [(8, orderRef.val), (4, shares.val), (4, stock.val / 256 ^ 4)])
    [(4, price.val), (8, matchNum.val)] hlt
  rw [List.append_assoc] at hsplit hread
  rw [List.append_assoc] at hsplit
  dsimp only [List.cons_append, List.nil_append] at hsplit hread
  rw [← hsplit] at hread
  exact hread

theorem feed_dispatch (m : ItchMessage)
    : feed (encode h m) seq =
      match m with
      | .A .. | .F .. => parseA (encode h m) seq
      | .D .. => parseD (encode h m) seq
      | .X .. => parseX (encode h m) seq
      | .U .. => parseU (encode h m) seq
      | .P .. => parseP (encode h m) seq
      | .E .. => parseE (encode h m) seq
      | .C .. => parseC (encode h m) seq := by
  have hlen : ¬(encode h m).length < 3 := by
    rw [length_encode]
    omega
  unfold feed
  rw [if_neg hlen]
  cases m <;> rfl

theorem feed_encode (m : ItchMessage)
    : feed (encode h m) seq = some {
        seqId := seq, locate := h.locate, timestamp := h.timestamp, body := decoded m } := by
  have hlen := length_encode h m
  rw [feed_dispatch]
  cases m with
  | A orderRef buysell shares stock price =>
    have hrd := rd_layoutA h (.A orderRef buysell shares stock price) orderRef buysell shares stock price [] rfl
    dsimp only [parseA]
    rw [if_neg (by simp [hlen, fields]), emit_encode, hrd.1, hrd.2.1, hrd.2.2.1, hrd.2.2.2]
    rfl
  | F orderRef buysell shares stock price attribution =>
    have hrd := rd_layoutA h (.F orderRef buysell shares stock price attribution) orderRef buysell shares
      stock price [(4, attribution.val)] rfl
    dsimp only [parseA]
    rw [if_neg (by simp [hlen, fields]), emit_encode, hrd.1, hrd.2.1, hrd.2.2.1, hrd.2.2.2]
    rfl
  | P orderRef buysell shares stock price matchNum =>
    have hrd := rd_layoutA h (.P orderRef buysell shares stock price matchNum) orderRef buysell shares
      stock price [(8, matchNum.val)] rfl
    dsimp only [parseP]
    rw [if_neg (by simp [hlen, fields]), emit_encode, hrd.1, hrd.2.1, hrd.2.2.1, hrd.2.2.2]
    rfl
  | D orderRef =>
    have hread : rdU64 (encode h (.D orderRef)) 11 = orderRef :=
      rdBytes_encode h _ [] [] rfl orderRef.isLt
    dsimp only [parseD]
    rw [if_neg (by simp [hlen, fields]), emit_encode, hread]
    rfl
  | X orderRef cancelledShares =>
    have hread : rdU64 (encode h (.X orderRef cancelledShares)) 11 = orderRef :=
      rdBytes_encode h _ [] _ rfl orderRef.isLt
    have hshares : rdU32 (encode h (.X orderRef cancelledShares)) 19 = cancelledShares :=
      rdBytes_encode h _ [(8, orderRef.val)] [] rfl cancelledShares.isLt
    dsimp only [parseX]
    rw [if_neg (by simp [hlen, fields]), emit_encode, hread, hshares]
    rfl
  | U oldRef newRef shares price =>
    have hold : rdU64 (encode h (.U oldRef newRef shares price)) 11 = oldRef :=
      rdBytes_encode h _ [] _ rfl oldRef.isLt
    have hnew : rdU64 (encode h (.U oldRef newRef shares price)) 19 = newRef :=
      rdBytes_encode h _ [(8, oldRef.val)] _ rfl newRef.isLt
    have hshares : rdU32 (encode h (.U oldRef newRef shares price)) 27 = shares :=
      rdBytes_encode h _ [(8, oldRef.val), (8, newRef.val)] _ rfl shares.isLt
    have hprice : rdU32 (encode h (.U oldRef newRef shares price)) 31 = price :=
      rdBytes_encode h _ [(8, oldRef.val), (8, newRef.val), (4, shares.val)] [] rfl price.isLt
    dsimp only [parseU]
    rw [if_neg (by simp [hlen, fields]), emit_encode, hold, hnew, hshares, hprice]
    rfl
  | E orderRef shares matchNum =>
    have hread : rdU64 (encode h (.E orderRef shares matchNum)) 11 = orderRef :=
      rdBytes_encode h _ [] _ rfl orderRef.isLt
    have hshares : rdU32 (encode h (.E orderRef shares matchNum)) 19 = shares :=
      rdBytes_encode h _ [(8, orderRef.val)] _ rfl shares.isLt
    dsimp only [parseE]
    rw [if_neg (by simp [hlen, fields]), emit_encode, hread, hshares]
    rfl
  | C orderRef shares stock price matchNum =>
    have hread : rdU64 (encode h (.C orderRef shares stock price matchNum)) 11 = orderRef :=
      rdBytes_encode h _ [] _ rfl orderRef.isLt
    have hshares : rdU32 (encode h (.C orderRef shares stock price matchNum)) 19 = shares :=
      rdBytes_encode h _ [(8, orderRef.val)] _ rfl shares.isLt
    have hprice := rd_priceC h orderRef shares stock price matchNum
    dsimp only [parseC]
    rw [if_neg (by simp [hlen, fields]), emit_encode, hread, hshares, hprice]
    rfl

theorem carries_decoded_iff (m : ItchMessage)
    : Carries h m seq { seqId := seq, locate := h.locate, timestamp := h.timestamp, body := decoded m } ↔
      m.Faithful := by
  cases m with
  | A orderRef buysell shares stock price => simp [Carries, Faithful, decoded, itchToCents]
  | F orderRef buysell shares stock price attribution => simp [Carries, Faithful, decoded, itchToCents]
  | P orderRef buysell shares stock price matchNum => simp [Carries, Faithful, decoded, itchToCents]
  | E orderRef shares matchNum => simp [Carries, Faithful, decoded]
  -- the side that these leave unset is `BUY`
  | D orderRef => simp [Carries, Faithful, decoded]
  | X orderRef cancelledShares => simp [Carries, Faithful, decoded]
  | U oldRef newRef shares price => simp [Carries, Faithful, decoded]
  | C orderRef shares stock price matchNum =>
    simp only [Carries, Faithful, decoded, itchToCents, true_and, MarketEvent.Body.TRADE.injEq, exists_eq_left',
      Int.ofNat_inj]

/--
The parser decodes a message as the document lays it out if and only if it is an `A`, an `F`, a `P`, an `E`, or a
`C` whose stock field ends in the price.
-/
theorem feed_carries_iff (m : ItchMessage)
    : (∃ ev, feed (encode h m) seq = some ev ∧ Carries h m seq ev) ↔ m.Faithful := by
  rw [feed_encode, ← carries_decoded_iff h seq m]
  simp

end Decoded

theorem not_feed_carries
    : ¬∀ (h : ItchHeader) (m : ItchMessage) (seq : Nat),
        ∃ ev, feed (encode h m) seq = some ev ∧ Carries h m seq ev := by
  intro hall
  cases hall ⟨1, 0, 0⟩ (.D 7) 1 with
  | intro ev hev =>
    rw [feed_encode] at hev
    cases hev with
    | intro hfeed hcarries =>
      cases Option.some.inj hfeed
      exact (carries_decoded_iff ⟨1, 0, 0⟩ 1 (.D 7)).1 hcarries

end ItchParser

end NebulaXTrader
