import Mathlib.Algebra.BigOperators.Intervals
import NebulaXTrader.Execution.OrderManager
import NebulaXTrader.Lib.Tally

/-!
This module contains the effect of every operation of the order manager on the entries, and the net
quantity that the entries of a symbol add up to.
-/

namespace NebulaXTrader

namespace OrderManager

variable {om om' : OrderManager} {id : Nat} {e : Entry}

/--
The entry of one order gets a new status and a new filled quantity, the order itself stays.
-/
structure Writes (om om' : OrderManager) (id : Nat) (e : Entry) (status : OrderStatus) (filled : Nat)
    : Prop where
  known : om.orders id = some e
  nextId : om'.nextId = om.nextId
  of_ne : ∀ i, i ≠ id → om'.orders i = om.orders i
  self : ∃ e', om'.orders id = some e' ∧ e'.order = e.order ∧ e'.status = status ∧ e'.filled = filled

theorem store_writes {e' : Entry} (h : om.orders id = some e) (ho : e'.order = e.order)
    : om.Writes (om.store id e') id e e'.status e'.filled := by
  constructor
  . exact h
  . rfl
  . intro i hi
    apply Function.update_of_ne
    exact hi
  . refine ⟨_, Function.update_self _ _ _, ho, rfl, rfl⟩

theorem retire_writes {e' : Entry} (h : om.orders id = some e) (ho : e'.order = e.order)
    : om.Writes (om.retire id e') id e e'.status e'.filled := by
  constructor
  . exact h
  . rfl
  . intro i hi
    apply Function.update_of_ne
    exact hi
  . refine ⟨_, Function.update_self _ _ _, ho, rfl, rfl⟩

theorem onAccept_writes (ref : Nat) (h : om.orders id = some e) (hs : e.status = .PENDING)
    : om.Writes (om.onAccept id ref) id e .SUBMITTED e.filled := by
  unfold onAccept
  rw [h]
  dsimp only
  rw [if_pos hs]
  exact store_writes h rfl

theorem onAccept_eq (ref : Nat) (h : om.orders id = some e) (hs : e.status ≠ .PENDING)
    : om.onAccept id ref = om := by
  unfold onAccept
  rw [h]
  exact if_neg hs

theorem requestCancel_writes (h : om.orders id = some e) (hs : e.isActive)
    : om.Writes (om.requestCancel id).1 id e .PENDING_CANCEL e.filled := by
  unfold requestCancel
  rw [h]
  dsimp only
  rw [if_pos hs]
  exact store_writes h rfl

theorem onCancel_writes (h : om.orders id = some e) (hs : e.status = .PENDING_CANCEL)
    : om.Writes (om.onCancel id) id e .CANCELLED e.filled := by
  unfold onCancel
  rw [h]
  dsimp only
  rw [if_pos hs]
  exact retire_writes h rfl

theorem onCancel_eq (h : om.orders id = some e) (hs : e.status ≠ .PENDING_CANCEL)
    : om.onCancel id = om := by
  unfold onCancel
  rw [h]
  exact if_neg hs

theorem onReject_writes (h : om.orders id = some e) (hs : e.status = .PENDING)
    : om.Writes (om.onReject id) id e .REJECTED e.filled := by
  unfold onReject
  rw [h]
  dsimp only
  rw [if_pos hs]
  exact retire_writes h rfl

theorem onReject_eq (h : om.orders id = some e) (hs : e.status ≠ .PENDING)
    : om.onReject id = om := by
  unfold onReject
  rw [h]
  exact if_neg hs

theorem onFill_writes (q : Nat) (p : Int) (h : om.orders id = some e) (hs : e.isActive)
    : om.Writes (om.onFill id q p) id e (e.fill q p).status (e.fill q p).filled := by
  unfold onFill
  rw [h]
  dsimp only
  rw [if_pos hs]
  split
  . exact retire_writes h rfl
  . exact store_writes h rfl

theorem onFill_eq (q : Nat) (p : Int) (h : om.orders id = some e) (hs : ¬ e.isActive)
    : om.onFill id q p = om := by
  unfold onFill
  rw [h]
  exact if_neg hs

theorem Entry.fill_filled (e : Entry) (q : Nat) (p : Int)
    : (e.fill q p).filled =
      if (e.filled + q) % 2 ^ 64 > e.order.quantity then e.order.quantity
      else (e.filled + q) % 2 ^ 64 := rfl

theorem Entry.fill_filled_le (e : Entry) (q : Nat) (p : Int)
    : (e.fill q p).filled ≤ e.order.quantity := by
  rw [e.fill_filled]
  split
  . exact le_refl _
  . next h => exact not_lt.1 h

theorem Entry.fill_filled_of_le (e : Entry) {q : Nat} (p : Int)
    (hq : e.filled + q ≤ e.order.quantity) (hlt : e.order.quantity < 2 ^ 64)
    : (e.fill q p).filled = e.filled + q := by
  rw [e.fill_filled, Nat.mod_eq_of_lt (lt_of_le_of_lt hq hlt), if_neg (not_lt.2 hq)]

theorem Entry.fill_status (e : Entry) (q : Nat) (p : Int)
    : (e.fill q p).status =
      if (e.fill q p).filled = e.order.quantity then .FILLED else .PARTIAL_FILL := by
  have hle := e.fill_filled_le q p
  have hstatus : (e.fill q p).status =
      if (e.fill q p).filled ≥ e.order.quantity then .FILLED else .PARTIAL_FILL := rfl
  rw [hstatus]
  by_cases h : (e.fill q p).filled = e.order.quantity
  . rw [if_pos h, if_pos h.ge]
  . have hlt : ¬ (e.fill q p).filled ≥ e.order.quantity := by omega
    rw [if_neg h, if_neg hlt]

theorem newOrder_orders (om : OrderManager) (order : Order)
    : ∃ e, (om.newOrder order).1.orders om.nextId = some e ∧ e.order = (om.newOrder order).2 ∧
        e.status = .PENDING ∧ e.filled = 0 := by
  refine ⟨_, Function.update_self _ _ _, rfl, rfl, rfl⟩

theorem newOrder_orders_of_ne (om : OrderManager) (order : Order) {i : Nat} (hi : i ≠ om.nextId)
    : (om.newOrder order).1.orders i = om.orders i := by
  apply Function.update_of_ne
  exact hi

structure Wf (om : OrderManager) : Prop where
  fresh : ∀ i, om.nextId ≤ i → om.orders i = none
  filled : ∀ i e, om.orders i = some e → e.filled ≤ e.order.quantity
  quantity : ∀ i e, om.orders i = some e → e.order.quantity < 2 ^ 64

theorem Wf.lt (h : om.Wf) (he : om.orders id = some e) : id < om.nextId := by
  apply lt_of_not_ge
  intro hge
  rw [h.fresh id hge] at he
  cases he

theorem Wf.init : Wf {} := by
  constructor
  . intro i _
    rfl
  . intro i e he
    cases he
  . intro i e he
    cases he

theorem Wf.writes (h : om.Wf) {status : OrderStatus} {filled : Nat}
    (hw : om.Writes om' id e status filled) (hf : filled ≤ e.order.quantity) : om'.Wf := by
  obtain ⟨e', he', ho, _, hfilled⟩ := hw.self
  constructor
  . intro i hi
    rw [hw.nextId] at hi
    rw [hw.of_ne i]
    . exact h.fresh i hi
    . intro heq
      have hlt := h.lt hw.known
      omega
  . intro i e₁ he₁
    by_cases hi : i = id
    . rw [hi, he'] at he₁
      cases he₁
      rw [hfilled, ho]
      exact hf
    . rw [hw.of_ne i hi] at he₁
      exact h.filled i e₁ he₁
  . intro i e₁ he₁
    by_cases hi : i = id
    . rw [hi, he'] at he₁
      cases he₁
      rw [ho]
      exact h.quantity id e hw.known
    . rw [hw.of_ne i hi] at he₁
      exact h.quantity i e₁ he₁

theorem Wf.onFill (h : om.Wf) (id q : Nat) (p : Int) : (om.onFill id q p).Wf := by
  cases he : om.orders id with
  | none =>
    unfold OrderManager.onFill
    rw [he]
    exact h
  | some e =>
    by_cases hactive : e.isActive
    . exact h.writes (onFill_writes q p he hactive) (e.fill_filled_le q p)
    . rw [onFill_eq q p he hactive]
      exact h

theorem Wf.newOrder (h : om.Wf) {order : Order} (hq : order.quantity < 2 ^ 64)
    : (om.newOrder order).1.Wf := by
  obtain ⟨e, he, ho, _, hf⟩ := om.newOrder_orders order
  have hnext : (om.newOrder order).1.nextId = om.nextId + 1 := rfl
  constructor
  . intro i hi
    rw [hnext] at hi
    rw [om.newOrder_orders_of_ne order (by omega)]
    apply h.fresh
    omega
  . intro i e₁ he₁
    by_cases hi : i = om.nextId
    . rw [hi, he] at he₁
      cases he₁
      rw [hf]
      exact Nat.zero_le _
    . rw [om.newOrder_orders_of_ne order hi] at he₁
      exact h.filled i e₁ he₁
  . intro i e₁ he₁
    by_cases hi : i = om.nextId
    . rw [hi, he] at he₁
      cases he₁
      rw [ho]
      exact hq
    . rw [om.newOrder_orders_of_ne order hi] at he₁
      exact h.quantity i e₁ he₁

def signed (side : OrderSide) (filled : Nat) : Int :=
  match side with
  | .BUY => filled
  | .SELL => -filled
  | .NONE => 0

def Entry.netOf (e : Entry) (symbolId : Nat) : Int :=
  if e.order.symbolId = symbolId then signed e.order.side e.filled else 0

/--
The filled quantity of the orders to buy a symbol less that of the orders to sell it.
-/
def net (om : OrderManager) (symbolId : Nat) : Int :=
  ∑ i ∈ Finset.range om.nextId, (om.orders i).elim 0 (fun e => e.netOf symbolId)

theorem Wf.net_writes (h : om.Wf) {status : OrderStatus} {filled : Nat}
    (hw : om.Writes om' id e status filled) (symbolId : Nat)
    : om'.net symbolId = om.net symbolId +
        if e.order.symbolId = symbolId then
          signed e.order.side filled - signed e.order.side e.filled
        else 0 := by
  obtain ⟨e', he', ho, _, hfilled⟩ := hw.self
  unfold net
  rw [hw.nextId, Tally.sum_change (f := fun i => (om.orders i).elim 0 (fun e => e.netOf symbolId))
    (h.lt hw.known)]
  . rw [he', hw.known]
    unfold Entry.netOf
    dsimp only [Option.elim_some]
    rw [ho, hfilled]
    split
    . rfl
    . rfl
  . intro i hi
    rw [hw.of_ne i hi]

theorem Wf.net_writes_same (h : om.Wf) {status : OrderStatus} (hw : om.Writes om' id e status e.filled)
    (symbolId : Nat) : om'.net symbolId = om.net symbolId := by
  rw [h.net_writes hw, sub_self, ite_self, add_zero]

theorem net_newOrder (om : OrderManager) (order : Order) (symbolId : Nat)
    : (om.newOrder order).1.net symbolId = om.net symbolId := by
  obtain ⟨e, he, _, _, hf⟩ := om.newOrder_orders order
  unfold net
  rw [show (om.newOrder order).1.nextId = om.nextId + 1 from rfl,
    Tally.sum_extend (f := fun i => (om.orders i).elim 0 (fun e => e.netOf symbolId)), he]
  . unfold Entry.netOf signed
    dsimp only [Option.elim_some]
    rw [hf]
    cases e.order.side with
    | BUY => simp
    | SELL => simp
    | NONE => simp
  . intro i hi
    rw [om.newOrder_orders_of_ne order (Nat.ne_of_lt hi)]

end OrderManager

end NebulaXTrader
