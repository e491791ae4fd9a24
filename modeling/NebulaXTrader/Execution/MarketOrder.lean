import NebulaXTrader.Execution.Flatten
import NebulaXTrader.Execution.OrderFrames

/-!
This module contains the quote of an empty side on its way through a `B` frame, and the limit orders that the engine
derives from the quotes it reads.
-/

namespace NebulaXTrader

namespace ExecutionEngine

/--
A market order as a limit order. `query` is what `query_book` has returned for the symbol of the signal.
-/
def submitMarketAsLimit (ex : ExecutionEngine) (env : Env) (query : Option BookQuote) (sig : Signal)
    (strategyId : Nat) : ExecutionEngine × Nat × List OrderMsg :=
  if sig.side = .NONE then
    (ex, 0, [])
  else
    match query with
    | none => (ex, 0, [])
    | some q =>
      let limitPrice := if sig.side = .BUY then q.ask else q.bid
      if limitPrice ≤ 0 then
        (ex, 0, [])
      else
        ex.submitSignal env { sig with price := limitPrice } strategyId .LIMIT

end ExecutionEngine

namespace OuchOrderCodec

open Positional (bytes word)

/--
The price that the book reports for a side without orders.
-/
def noPrice : Int := -1

/--
The prices of a book that a frame has room for.
-/
def Quotable (price : Int) : Prop := price = noPrice ∨ (0 ≤ price ∧ price ≤ 21474836)

/--
The quote comes back as it was sent, and no order is derived from a side without a price.
-/
structure KeepsNoPrice (symbolId : Nat) (bid : Int) (bidVol : Nat) (ask : Int) (askVol : Nat) : Prop where
  roundTrip : decodeBook (encodeBook symbolId bid bidVol ask askVol) = some ⟨symbolId, bid, bidVol, ask, askVol⟩
  noOrder : ∀ ex env sig strategyId, (sig.side = .BUY → ask = noPrice) → (sig.side = .SELL → bid = noPrice) →
    ExecutionEngine.submitMarketAsLimit ex env (decodeBook (encodeBook symbolId bid bidVol ask askVol)) sig
      strategyId = (ex, 0, [])

theorem Quotable.read_iff {price : Int} (h : Quotable price)
    : ((word (bytesOfInt 4 (price * 100)) / 100 : Nat) : Int) = price ↔ price ≠ noPrice := by
  rw [price_iff]
  unfold Quotable noPrice at *
  omega

/--
A quote is kept if and only if both of its sides have a price.
-/
theorem keepsNoPrice_iff {symbolId bidVol askVol : Nat} {bid ask : Int} (hsymbol : symbolId < 10 ^ 10)
    (hbidVol : bidVol < 2 ^ 32) (haskVol : askVol < 2 ^ 32) (hbid : Quotable bid) (hask : Quotable ask)
    : KeepsNoPrice symbolId bid bidVol ask askVol ↔ bid ≠ noPrice ∧ ask ≠ noPrice := by
  have hread := decodeBook_encodeBook symbolId bid bidVol ask askVol
  have hname := (strtoull_bookFor symbolId).2 hsymbol
  rw [← hbid.read_iff, ← hask.read_iff]
  constructor
  . intro h
    have hquote := h.roundTrip
    rw [hread, Option.some_inj] at hquote
    exact ⟨congrArg BookQuote.bid hquote, congrArg BookQuote.ask hquote⟩
  . intro h
    have hquote : quoted symbolId bid bidVol ask askVol = ⟨symbolId, bid, bidVol, ask, askVol⟩ := by
      unfold quoted
      rw [h.1, h.2, hname, Nat.mod_eq_of_lt hbidVol, Nat.mod_eq_of_lt haskVol]
    constructor
    . rw [hread, hquote]
    . intro ex env sig strategyId hbuy hsell
      rw [hbid.read_iff, hask.read_iff] at h
      cases hside : sig.side with
      | NONE =>
        unfold ExecutionEngine.submitMarketAsLimit
        rw [if_pos hside]
      | BUY => exact absurd (hbuy hside) h.2
      | SELL => exact absurd (hsell hside) h.1

theorem keepsNoPrice_twoSided : KeepsNoPrice 65535 10000 300 10500 200 :=
  (keepsNoPrice_iff (by decide) (by decide) (by decide) (.inr (by decide)) (.inr (by decide))).2 (by decide)

theorem not_keepsNoPrice
    : decodeBook (encodeBook 7 noPrice 0 10500 200) = some ⟨7, 42949671, 0, 10500, 200⟩ ∧
        (((ExecutionEngine.connected {} 100).submitMarketAsLimit {} (decodeBook (encodeBook 7 noPrice 0 10500 200))
          ⟨.SELL, 7, 10500, 0, 10000⟩ 1).1.om.orders 1).map (fun e => e.order.price) = some 42949671 := by
  -- The scaled -100 is read back as 2 ^ 32 - 100, and the sell order gets that price.
  decide +kernel

end OuchOrderCodec

end NebulaXTrader
