import NebulaXTrader.Execution.ExecutionEngine
import NebulaXTrader.Execution.Lemmas.OrderManager
import NebulaXTrader.Execution.Lemmas.RiskManager

/-!
This module contains what every call of the execution engine can do.
-/

namespace NebulaXTrader

namespace ExecutionEngine

variable (ex : ExecutionEngine) (env : Env)

theorem flattenOnDrawdown_frame
    : (ex.flattenOnDrawdown env).1.rm = ex.rm ∧
      (ex.flattenOnDrawdown env).1.hasSender = ex.hasSender ∧
      (ex.flattenOnDrawdown env).1.hasCodec = ex.hasCodec ∧
      (ex.flattenOnDrawdown env).1.baseQty = ex.baseQty := by
  unfold flattenOnDrawdown
  split
  . exact ⟨rfl, rfl, rfl, rfl⟩
  . split
    . exact ⟨rfl, rfl, rfl, rfl⟩
    . exact ⟨rfl, rfl, rfl, rfl⟩

theorem flattenOnDrawdown_ind {P : OrderManager → List OrderMsg → Prop} (h : P ex.om [])
    (hsent : ∀ om msgs id e, P om msgs → om.orders id = some e → e.isActive →
      P (om.requestCancel id).1 (msgs ++ [.X id]))
    (hmarked : ∀ om msgs id e, P om msgs → om.orders id = some e → e.isActive →
      ¬ (ex.hasSender ∧ ex.hasCodec) → P (om.requestCancel id).1 msgs)
    : P (ex.flattenOnDrawdown env).1.om (ex.flattenOnDrawdown env).2 := by
  have hone : ∀ (s : OrderManager × List OrderMsg) (id : Nat), P s.1 s.2 →
      P (ex.flattenOrder env s id).1 (ex.flattenOrder env s id).2 := by
    intro s id hs
    unfold flattenOrder
    split
    . exact hs
    . next e he =>
      split
      . next hactive =>
        split
        . split
          . exact hs
          . exact hs
          . exact hsent _ _ _ _ hs he hactive
        . next hwire => exact hmarked _ _ _ _ hs he hactive hwire
      . exact hs
  have hall : ∀ (ids : List Nat) (s : OrderManager × List OrderMsg), P s.1 s.2 →
      P (ids.foldl (ex.flattenOrder env) s).1 (ids.foldl (ex.flattenOrder env) s).2 := by
    intro ids
    induction ids with
    | nil =>
      intro s hs
      exact hs
    | cons id ids ih =>
      intro s hs
      exact ih _ (hone s id hs)
  unfold flattenOnDrawdown
  split
  . exact h
  . split
    . exact h
    . exact hall _ _ h

theorem flattenOnDrawdown_entry {id : Nat} {e : OrderManager.Entry}
    (he : ex.om.orders id = some e) (hnot : ¬ e.isActive)
    : (ex.flattenOnDrawdown env).1.om.orders id = some e := by
  have hone : ∀ (om : OrderManager) (i : Nat) (e₁ : OrderManager.Entry), om.orders id = some e →
      om.orders i = some e₁ → e₁.isActive → (om.requestCancel i).1.orders id = some e := by
    intro om i e₁ he he₁ hactive
    rw [(OrderManager.requestCancel_writes he₁ hactive).of_ne id]
    . exact he
    . intro heq
      rw [← heq, he] at he₁
      cases he₁
      exact hnot hactive
  apply ex.flattenOnDrawdown_ind env (P := fun om _ => om.orders id = some e)
  . exact he
  . intro om msgs i e₁ he he₁ hactive
    exact hone om i e₁ he he₁ hactive
  . intro om msgs i e₁ he he₁ hactive _
    exact hone om i e₁ he he₁ hactive

theorem orderFor_spec {sig : Signal} {strategyId : Nat} {type : OrderType} {order : Order}
    (h : ex.orderFor sig strategyId type = some order)
    : order.side ≠ .NONE ∧ 0 < order.quantity ∧ order.quantity < 2 ^ 64 ∧
      order.symbolId = sig.locate ∧ order.side = sig.side ∧
      order.quantity = sig.quantity ex.baseQty := by
  unfold orderFor at h
  split at h
  . cases h
  . next hside =>
    split at h
    . cases h
    . dsimp only at h
      split at h
      . cases h
      . next hqty =>
        cases h
        have hlt : sig.quantity ex.baseQty < 2 ^ 64 := by
          unfold Signal.quantity
          apply lt_of_le_of_lt (Nat.div_le_self _ _)
          apply Nat.mod_lt
          decide
        exact ⟨fun hs => hside (Or.inl hs), Nat.pos_of_ne_zero hqty, hlt, rfl, rfl, rfl⟩

theorem submitSignal_cases {sig : Signal} {strategyId : Nat} {type : OrderType} {order : Order}
    (h : ex.orderFor sig strategyId type = some order)
    : let om := (ex.om.newOrder order).1
      let o := (ex.om.newOrder order).2
      let r := ex.submitSignal env sig strategyId type
      (r.1 = { ex with om := om.onReject ex.om.nextId } ∧ r.2.2 = []) ∨
      (ex.hasSender ∧ ex.rm.checkOrder o ∧ r.1 = { ex with om := om } ∧ r.2.2 = [.O o]) ∨
      (¬ ex.hasSender ∧ ex.rm.checkOrder o ∧ r.1 = { ex with
        om := (om.onAccept ex.om.nextId 0).onFill ex.om.nextId o.quantity o.price
        rm := ex.rm.onFill o o.quantity } ∧ r.2.2 = []) := by
  have hid : (ex.om.newOrder order).2.orderId = ex.om.nextId := rfl
  intro om o r
  have hr : r = ex.submitSignal env sig strategyId type := rfl
  unfold submitSignal at hr
  rw [h] at hr
  dsimp only at hr
  split at hr
  . rw [hr]
    exact Or.inl ⟨rfl, rfl⟩
  . next hcheck =>
    split at hr
    . next hsender =>
      split at hr
      . rw [hr]
        exact Or.inl ⟨rfl, rfl⟩
      . split at hr
        . rw [hr]
          exact Or.inl ⟨rfl, rfl⟩
        . rw [hr]
          exact Or.inl ⟨rfl, rfl⟩
        . rw [hr]
          exact Or.inr (Or.inl ⟨hsender, not_not.1 hcheck, rfl, rfl⟩)
    . next hsender =>
      rw [hr]
      exact Or.inr (Or.inr ⟨hsender, not_not.1 hcheck, rfl, rfl⟩)

theorem submitSignal_none {sig : Signal} {strategyId : Nat} {type : OrderType}
    (h : ex.orderFor sig strategyId type = none)
    : ex.submitSignal env sig strategyId type = (ex, 0, []) := by
  unfold submitSignal
  rw [h]

section

variable {f : Fill} {e : OrderManager.Entry}

theorem onOrderReport_A (he : ex.om.orders f.orderId = some e) (ht : f.type = .A)
    : ex.onOrderReport env f = ({ ex with om := ex.om.onAccept f.orderId f.exchangeRef }, []) := by
  unfold onOrderReport
  rw [he, ht]

theorem onOrderReport_E (he : ex.om.orders f.orderId = some e) (ht : f.type = .E)
    : ex.onOrderReport env f = flattenOnDrawdown { ex with
        om := ex.om.onFill f.orderId f.filledQty f.fillPrice
        rm := ex.rm.onFill e.order f.filledQty } env := by
  unfold onOrderReport
  rw [he, ht]

theorem onOrderReport_C (he : ex.om.orders f.orderId = some e) (ht : f.type = .C)
    : ex.onOrderReport env f = ({ ex with om := ex.om.onCancel f.orderId }, []) := by
  unfold onOrderReport
  rw [he, ht]

end

end ExecutionEngine

end NebulaXTrader
