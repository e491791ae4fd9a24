import NebulaXTrader.Execution.Lemmas.OrderCodec

/-!
This module contains the theorem which orders the exchange reads back from an OUCH frame as they were sent:
the ones whose numbers fit into the fields, since nothing is refused.
-/

namespace NebulaXTrader

open Positional (bytes word length_bytes word_bytes)

namespace OuchOrderCodec

/--
`encode_order` with the size of the buffer, which is the only thing that it refuses.
-/
def encodeOrderTo (c : OuchOrderCodec) (o : Order) (cap : Nat) : Option (OuchOrderCodec × List UInt8) :=
  if cap < kOrderMsgLen then none else some (c.encodeOrder o)

/--
The order that was read is the one that was sent. An iceberg order is read as a limit order.
-/
structure SameOrder (o o' : Order) : Prop where
  orderId : o'.orderId = o.orderId
  symbolId : o'.symbolId = o.symbolId
  quantity : o'.quantity = o.quantity
  price : o'.price = o.price
  side : o'.side = o.side
  type : o'.type = if o.type = .MARKET then .MARKET else .LIMIT

def Faithful (c : OuchOrderCodec) (o : Order) (cap : Nat) : Prop :=
  match c.encodeOrderTo o cap with
  | none => True
  | some (_, frame) => ∃ o', decodeOrder frame = some o' ∧ SameOrder o o'

/--
The numbers of the order fit into the fields of the frame.
-/
structure Fits (o : Order) : Prop where
  orderId : o.orderId < 10 ^ 14
  symbolId : o.symbolId < 10 ^ 10
  quantity : o.quantity < 2 ^ 32
  price_nonneg : 0 ≤ o.price
  price_le : o.price ≤ 42949672

theorem strtoull_tokenFor_lt (orderId : Nat) : strtoull (tokenFor orderId) < 10 ^ 14 := by
  generalize hds : ((Positional.digits 10 (max 14 (Nat.log 10 orderId + 1)) orderId).take 14) = ds
  have htoken : tokenFor orderId = ds.map digitChar := by
    rw [← hds, List.map_take]
    rfl
  have hlen : ds.length = 14 := by
    rw [← hds]
    simp
  have hdigit : ∀ d ∈ ds, d < 10 := by
    intro d hd
    rw [← hds] at hd
    exact Positional.digit_lt (by decide) (List.mem_of_mem_take hd)
  have hlt := Positional.number_lt hdigit
  rw [hlen] at hlt
  have hne : ds ≠ [] := by
    intro hnil
    rw [hnil] at hlen
    cases hlen
  have hread := @strtoull_digits ds [] hdigit hne rfl (by omega)
  rw [List.append_nil] at hread
  rw [htoken, hread]
  exact hlt

theorem price_iff (p : Int)
    : ((word (bytesOfInt 4 (p * 100)) / 100 : Nat) : Int) = p ↔ 0 ≤ p ∧ p ≤ 42949672 := by
  have hword : (word (bytesOfInt 4 (p * 100)) : Int) = p * 100 % 4294967296 := by
    have hnonneg : 0 ≤ p * 100 % 256 ^ 4 := Int.emod_nonneg _ (by decide)
    have hlt : p * 100 % 256 ^ 4 < 256 ^ 4 := Int.emod_lt_of_pos _ (by decide)
    unfold bytesOfInt
    rw [word_bytes, Nat.mod_eq_of_lt (by omega), Int.toNat_of_nonneg hnonneg]
    rfl
  rw [Int.natCast_ediv, hword]
  omega

theorem faithful_of_cap (c : OuchOrderCodec) (o : Order) {cap : Nat} (hcap : ¬ cap < kOrderMsgLen)
    : c.Faithful o cap ↔ ∃ o', decodeOrder (c.encodeOrder o).2 = some o' ∧ SameOrder o o' := by
  unfold Faithful encodeOrderTo
  rw [if_neg hcap]

/--
An order comes back as it was sent if and only if its numbers fit into the fields, or the buffer is too
short for any frame.
-/
theorem faithful_iff (c : OuchOrderCodec) (o : Order) (cap : Nat) (hside : o.side = .BUY ∨ o.side = .SELL)
    : c.Faithful o cap ↔ cap < kOrderMsgLen ∨ Fits o := by
  by_cases hcap : cap < kOrderMsgLen
  . simp [Faithful, encodeOrderTo, hcap]
  . rw [c.faithful_of_cap o hcap, or_iff_right hcap, decodeOrder_encodeOrder]
    constructor
    . intro h
      obtain ⟨o', heq, h⟩ := h
      rw [Option.some_inj] at heq
      subst heq
      obtain ⟨hid, hsymbol, hqty, hprice, _, _⟩ := h
      unfold received at hid hsymbol hqty hprice
      dsimp only at hid hsymbol hqty hprice
      rw [price_iff] at hprice
      constructor
      . rw [← hid]
        exact strtoull_tokenFor_lt _
      . rw [← hsymbol]
        exact (strtoull_bookFor _).1
      . omega
      . exact hprice.1
      . exact hprice.2
    . intro h
      refine ⟨received o, rfl, ?_⟩
      unfold received
      constructor
      . rw [strtoull_tokenFor h.orderId]
      . rw [(strtoull_bookFor o.symbolId).2 h.symbolId]
      . rw [Nat.mod_eq_of_lt h.quantity]
      . rw [(price_iff o.price).2 ⟨h.price_nonneg, h.price_le⟩]
      . cases hside with
        | inl hbuy => simp [hbuy]
        | inr hsell => simp [hsell]
      . cases o.type with
        | MARKET => rfl
        | LIMIT => rfl
        | ICEBERG => rfl

def iceberg : Order where
  orderId := 99999999999999
  strategyId := 3
  symbolId := 9999999999
  side := .SELL
  type := .ICEBERG
  price := 42949672
  quantity := 4294967295
  timestamp := 1

theorem faithful_iceberg : Faithful {} iceberg 49 := by
  -- The largest numbers that fit.
  apply (faithful_iff {} iceberg 49 (by decide)).2
  right
  constructor
  . decide
  . decide
  . decide
  . decide
  . decide

theorem not_faithful : ¬ ∀ (c : OuchOrderCodec) (o : Order) (cap : Nat), o.side = .BUY ∨ o.side = .SELL →
    c.Faithful o cap := by
  -- A quantity of 32 bits and one share is sent as one share.
  intro h
  have hfaithful := h {} { iceberg with quantity := 4294967297 } 49 (by decide)
  rw [faithful_of_cap _ _ (by decide), decodeOrder_encodeOrder] at hfaithful
  obtain ⟨o', ho', hsame⟩ := hfaithful
  rw [Option.some_inj] at ho'
  subst ho'
  have hqty := hsame.quantity
  revert hqty
  decide

end OuchOrderCodec

end NebulaXTrader
