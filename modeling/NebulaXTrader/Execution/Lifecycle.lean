import NebulaXTrader.Execution.Lemmas.OrderManager

/-!
This module contains the theorem about the life cycle of the orders: what holds of the order manager after
any sequence of calls, and which status can follow which.
-/

namespace NebulaXTrader

/--
The arrows of the documented diagram. An execution of the whole quantity leads to `FILLED` at once.
-/
def OrderStatus.follows (a b : OrderStatus) : Bool :=
  match a, b with
  | .NOT_FOUND, .PENDING => true
  | .PENDING, .SUBMITTED => true
  | .PENDING, .REJECTED => true
  | .SUBMITTED, .PARTIAL_FILL => true
  | .SUBMITTED, .FILLED => true
  | .SUBMITTED, .PENDING_CANCEL => true
  | .PARTIAL_FILL, .FILLED => true
  | .PARTIAL_FILL, .PENDING_CANCEL => true
  | .PENDING_CANCEL, .CANCELLED => true
  | _, _ => false

def OrderStatus.isFinal (a : OrderStatus) : Bool := a = .FILLED ∨ a = .CANCELLED ∨ a = .REJECTED

theorem OrderStatus.follows_of_isFinal {a : OrderStatus} (b : OrderStatus) (h : a.isFinal)
    : a.follows b = false := by
  cases a with
  | FILLED => rfl
  | CANCELLED => rfl
  | REJECTED => rfl
  | _ => cases h

namespace OrderManager

inductive Op where
  | newOrder (order : Order)
  | onAccept (id ref : Nat)
  | onFill (id filledQty : Nat) (fillPrice : Int)
  | requestCancel (id : Nat)
  | onCancel (id : Nat)
  | onReject (id : Nat)
  deriving DecidableEq, Repr

/--
The quantities of orders and executions are positive and below `2 ^ 63`.
-/
def Op.Valid (op : Op) : Prop :=
  match op with
  | .newOrder order => 0 < order.quantity ∧ order.quantity < 2 ^ 63
  | .onFill _ filledQty _ => 0 < filledQty ∧ filledQty < 2 ^ 63
  | _ => True

instance (op : Op) : Decidable op.Valid :=
  match op with
  | .newOrder order => inferInstanceAs (Decidable (0 < order.quantity ∧ order.quantity < 2 ^ 63))
  | .onFill _ filledQty _ => inferInstanceAs (Decidable (0 < filledQty ∧ filledQty < 2 ^ 63))
  | .onAccept _ _ => isTrue trivial
  | .requestCancel _ => isTrue trivial
  | .onCancel _ => isTrue trivial
  | .onReject _ => isTrue trivial

def apply (om : OrderManager) (op : Op) : OrderManager :=
  match op with
  | .newOrder order => (om.newOrder order).1
  | .onAccept id ref => om.onAccept id ref
  | .onFill id filledQty fillPrice => om.onFill id filledQty fillPrice
  | .requestCancel id => (om.requestCancel id).1
  | .onCancel id => om.onCancel id
  | .onReject id => om.onReject id

structure Entry.Sound (e : Entry) : Prop where
  quantity : 0 < e.order.quantity ∧ e.order.quantity < 2 ^ 63
  remaining : e.filled + e.remaining = e.order.quantity
  filled_iff : e.status = .FILLED ↔ e.filled = e.order.quantity
  unfilled : e.status = .PENDING ∨ e.status = .SUBMITTED ∨ e.status = .REJECTED → e.filled = 0
  partlyFilled : e.status = .PARTIAL_FILL → 0 < e.filled ∧ e.filled < e.order.quantity

def Indexes (om : OrderManager) (key : Order → Nat) (idx : Nat → Finset Nat) : Prop :=
  ∀ k i, i ∈ idx k ↔ ∃ e, om.orders i = some e ∧ key e.order = k ∧ e.status.isFinal = false

structure Sound (om : OrderManager) : Prop where
  fresh : ∀ i, om.nextId ≤ i → om.orders i = none
  orderId : ∀ i e, om.orders i = some e → e.order.orderId = i
  entry : ∀ i e, om.orders i = some e → e.Sound
  found : ∀ i e, om.orders i = some e → e.status ≠ .NOT_FOUND
  symOrders : om.Indexes Order.symbolId om.symOrders
  stratOrders : om.Indexes Order.strategyId om.stratOrders

/--
One entry changes. It keeps its order, and it leaves the indexes if and only if it reaches a final status.
-/
structure Moves (om om' : OrderManager) (id : Nat) (e e' : Entry) : Prop where
  known : om.orders id = some e
  nextId : om'.nextId = om.nextId
  orders : om'.orders = Function.update om.orders id (some e')
  order : e'.order = e.order
  follows : e.status = e'.status ∨ e.status.follows e'.status
  symOrders : om'.symOrders = if e'.status.isFinal then
    Function.update om.symOrders e.order.symbolId ((om.symOrders e.order.symbolId).erase id)
    else om.symOrders
  stratOrders : om'.stratOrders = if e'.status.isFinal then
    Function.update om.stratOrders e.order.strategyId ((om.stratOrders e.order.strategyId).erase id)
    else om.stratOrders

variable {om om' : OrderManager} {id : Nat} {e e' : Entry}

theorem Moves.store (hknown : om.orders id = some e) (horder : e'.order = e.order)
    (hfollows : e.status = e'.status ∨ e.status.follows e'.status) (hfinal : e'.status.isFinal = false)
    : om.Moves (om.store id e') id e { e' with updateTime := om.counter + 1 } := by
  constructor
  . exact hknown
  . rfl
  . rfl
  . exact horder
  . exact hfollows
  . dsimp only
    rw [hfinal]
    rfl
  . dsimp only
    rw [hfinal]
    rfl

theorem Moves.retire (hknown : om.orders id = some e) (horder : e'.order = e.order)
    (hfollows : e.status.follows e'.status) (hfinal : e'.status.isFinal)
    : om.Moves (om.retire id e') id e { e' with updateTime := om.counter + 1 } := by
  constructor
  . exact hknown
  . rfl
  . rfl
  . exact horder
  . exact Or.inr hfollows
  . dsimp only
    rw [if_pos hfinal, ← horder]
    rfl
  . dsimp only
    rw [if_pos hfinal, ← horder]
    rfl

theorem Entry.Sound.setTime (h : e.Sound) (t : Nat) : Entry.Sound { e with updateTime := t } :=
  ⟨h.quantity, h.remaining, h.filled_iff, h.unfilled, h.partlyFilled⟩

theorem Entry.Sound.fill (h : e.Sound) {q : Nat} (p : Int)
    (hq : 0 < q ∧ q < 2 ^ 63) : (e.fill q p).Sound := by
  have hle := e.fill_filled_le q p
  have hfilled := e.fill_filled q p
  have hstatus := e.fill_status q p
  have hrem := h.remaining
  have hqty := h.quantity
  have hnowrap : (e.filled + q) % 2 ^ 64 = e.filled + q := by
    apply Nat.mod_eq_of_lt
    omega
  have hpos : 0 < (e.fill q p).filled := by
    rw [hfilled, hnowrap]
    split
    . exact hqty.1
    . omega
  constructor
  . exact hqty
  . show (e.fill q p).filled + (e.order.quantity - (e.fill q p).filled) = e.order.quantity
    omega
  . show _ ↔ (e.fill q p).filled = e.order.quantity
    rw [hstatus]
    split
    . next heq => simp [heq]
    . next hne => simp [hne]
  . intro hs
    rw [hstatus] at hs
    split at hs
    . simp at hs
    . simp at hs
  . intro hs
    rw [hstatus] at hs
    split at hs
    . cases hs
    . next hne =>
      constructor
      . exact hpos
      . show (e.fill q p).filled < e.order.quantity
        omega

theorem Entry.Sound.setStatus (h : e.Sound) {status : OrderStatus} (ref : Nat)
    (hfilled : e.status ≠ .FILLED ∧ status ≠ .FILLED) (hpart : status ≠ .PARTIAL_FILL)
    (hzero : status = .SUBMITTED ∨ status = .REJECTED → e.status = .PENDING)
    (hpending : status ≠ .PENDING)
    : Entry.Sound { e with status := status, exchangeRef := ref } := by
  constructor
  . exact h.quantity
  . exact h.remaining
  . constructor
    . intro hs
      exact absurd hs hfilled.2
    . intro hs
      exact absurd (h.filled_iff.2 hs) hfilled.1
  . intro hs
    apply h.unfilled
    apply Or.inl
    cases hs with
    | inl hs => exact absurd hs hpending
    | inr hs => exact hzero hs
  . intro hs
    exact absurd hs hpart

theorem status_of_isActive (h : e.isActive) : e.status = .SUBMITTED ∨ e.status = .PARTIAL_FILL :=
  of_decide_eq_true h

theorem onAccept_moves (ref : Nat) (he : om.orders id = some e) (hs : e.status = .PENDING)
    : ∃ e', om.Moves (om.onAccept id ref) id e e' ∧ (e.Sound → e'.Sound) := by
  have heq : om.onAccept id ref =
      om.store id { e with status := .SUBMITTED, exchangeRef := ref } := by
    unfold onAccept
    rw [he]
    exact if_pos hs
  rw [heq]
  refine ⟨_, Moves.store he ?_ ?_ ?_, ?_⟩
  . rfl
  . apply Or.inr
    rw [hs]
    rfl
  . rfl
  . intro h
    apply Entry.Sound.setTime
    apply h.setStatus
    . rw [hs]
      decide
    . decide
    . intro _
      exact hs
    . decide

theorem requestCancel_moves (he : om.orders id = some e) (hactive : e.isActive)
    : ∃ e', om.Moves (om.requestCancel id).1 id e e' ∧ (e.Sound → e'.Sound) := by
  have hs := status_of_isActive hactive
  have heq : (om.requestCancel id).1 = om.store id { e with status := .PENDING_CANCEL } := by
    unfold requestCancel
    rw [he]
    dsimp only
    rw [if_pos hactive]
  rw [heq]
  refine ⟨_, Moves.store he ?_ ?_ ?_, ?_⟩
  . rfl
  . apply Or.inr
    cases hs with
    | inl hs => rw [hs]; rfl
    | inr hs => rw [hs]; rfl
  . rfl
  . intro h
    apply Entry.Sound.setTime
    apply h.setStatus
    . constructor
      . cases hs with
        | inl hs => rw [hs]; decide
        | inr hs => rw [hs]; decide
      . decide
    . decide
    . intro hs
      cases hs with
      | inl hs => cases hs
      | inr hs => cases hs
    . decide

theorem retire_moves {status : OrderStatus} (he : om.orders id = some e) (hfollows : e.status.follows status)
    (hfinal : status.isFinal) (hfilled : status ≠ .FILLED) (hzero : status = .REJECTED → e.status = .PENDING)
    : ∃ e', om.Moves (om.retire id { e with status := status }) id e e' ∧ (e.Sound → e'.Sound) := by
  refine ⟨_, Moves.retire he rfl hfollows hfinal, ?_⟩
  intro h
  apply Entry.Sound.setTime
  apply h.setStatus
  . constructor
    . intro hs
      rw [hs] at hfollows
      cases hfollows
    . exact hfilled
  . intro hs
    rw [hs] at hfinal
    cases hfinal
  . intro hs
    cases hs with
    | inl hs =>
      rw [hs] at hfinal
      cases hfinal
    | inr hs => exact hzero hs
  . intro hs
    rw [hs] at hfinal
    cases hfinal

theorem onCancel_moves (he : om.orders id = some e) (hs : e.status = .PENDING_CANCEL)
    : ∃ e', om.Moves (om.onCancel id) id e e' ∧ (e.Sound → e'.Sound) := by
  have heq : om.onCancel id = om.retire id { e with status := .CANCELLED } := by
    unfold onCancel
    rw [he]
    exact if_pos hs
  rw [heq]
  apply retire_moves he
  . rw [hs]
    rfl
  . rfl
  . decide
  . intro hrejected
    cases hrejected

theorem onReject_moves (he : om.orders id = some e) (hs : e.status = .PENDING)
    : ∃ e', om.Moves (om.onReject id) id e e' ∧ (e.Sound → e'.Sound) := by
  have heq : om.onReject id = om.retire id { e with status := .REJECTED } := by
    unfold onReject
    rw [he]
    exact if_pos hs
  rw [heq]
  apply retire_moves he
  . rw [hs]
    rfl
  . rfl
  . decide
  . exact fun _ => hs

theorem onFill_moves (q : Nat) (p : Int) (he : om.orders id = some e) (hactive : e.isActive)
    : ∃ e', om.Moves (om.onFill id q p) id e e' ∧ (0 < q ∧ q < 2 ^ 63 → e.Sound → e'.Sound) := by
  have hs := status_of_isActive hactive
  have heq : om.onFill id q p = if (e.fill q p).status = .FILLED then
      om.retire id (e.fill q p) else om.store id (e.fill q p) := by
    unfold onFill
    rw [he]
    exact if_pos hactive
  rw [heq]
  split
  . next hfull =>
    refine ⟨_, Moves.retire he ?_ ?_ ?_, ?_⟩
    . rfl
    . rw [hfull]
      cases hs with
      | inl hs => rw [hs]; rfl
      | inr hs => rw [hs]; rfl
    . rw [hfull]
      rfl
    . intro hq h
      exact (h.fill p hq).setTime _
  . next hnot =>
    have hpart : (e.fill q p).status = .PARTIAL_FILL := by
      rw [e.fill_status] at hnot ⊢
      split at hnot
      . exact absurd rfl hnot
      . next hne => rw [if_neg hne]
    refine ⟨_, Moves.store he ?_ ?_ ?_, ?_⟩
    . rfl
    . rw [hpart]
      cases hs with
      | inl hs => rw [hs]; exact Or.inr rfl
      | inr hs => exact Or.inl hs
    . rw [hpart]
      rfl
    . intro hq h
      exact (h.fill p hq).setTime _

theorem apply_cases (om : OrderManager) (op : Op)
    : (∃ order, op = .newOrder order) ∨ om.apply op = om ∨
        ∃ id e e', om.Moves (om.apply op) id e e' ∧ (op.Valid → e.Sound → e'.Sound) := by
  cases op with
  | newOrder order => exact Or.inl ⟨order, rfl⟩
  | onAccept id ref =>
    apply Or.inr
    cases he : om.orders id with
    | none => exact Or.inl (by simp [apply, onAccept, he])
    | some e =>
      by_cases hs : e.status = .PENDING
      . cases onAccept_moves ref he hs with
        | intro e' h => exact Or.inr ⟨id, e, e', h.1, fun _ => h.2⟩
      . exact Or.inl (onAccept_eq ref he hs)
  | onFill id q p =>
    apply Or.inr
    cases he : om.orders id with
    | none => exact Or.inl (by simp [apply, onFill, he])
    | some e =>
      by_cases hs : e.isActive
      . exact Or.inr ⟨id, e, onFill_moves q p he hs⟩
      . exact Or.inl (onFill_eq q p he hs)
  | requestCancel id =>
    apply Or.inr
    cases he : om.orders id with
    | none => exact Or.inl (by simp [apply, requestCancel, he])
    | some e =>
      by_cases hs : e.isActive
      . cases requestCancel_moves he hs with
        | intro e' h => exact Or.inr ⟨id, e, e', h.1, fun _ => h.2⟩
      . exact Or.inl (by simp [apply, requestCancel, he, hs])
  | onCancel id =>
    apply Or.inr
    cases he : om.orders id with
    | none => exact Or.inl (by simp [apply, onCancel, he])
    | some e =>
      by_cases hs : e.status = .PENDING_CANCEL
      . cases onCancel_moves he hs with
        | intro e' h => exact Or.inr ⟨id, e, e', h.1, fun _ => h.2⟩
      . exact Or.inl (onCancel_eq he hs)
  | onReject id =>
    apply Or.inr
    cases he : om.orders id with
    | none => exact Or.inl (by simp [apply, onReject, he])
    | some e =>
      by_cases hs : e.status = .PENDING
      . cases onReject_moves he hs with
        | intro e' h => exact Or.inr ⟨id, e, e', h.1, fun _ => h.2⟩
      . exact Or.inl (onReject_eq he hs)

theorem Moves.self (h : om.Moves om' id e e') : om'.orders id = some e' := by
  rw [h.orders]
  apply Function.update_self

theorem Moves.of_ne (h : om.Moves om' id e e') {i : Nat} (hi : i ≠ id)
    : om'.orders i = om.orders i := by
  rw [h.orders]
  apply Function.update_of_ne
  exact hi

theorem Moves.open_before (h : om.Moves om' id e e') (hopen : e'.status.isFinal = false)
    : e.status.isFinal = false := by
  cases h.follows with
  | inl heq =>
    rw [heq]
    exact hopen
  | inr hfollows =>
    apply Bool.eq_false_of_not_eq_true
    intro hfinal
    rw [OrderStatus.follows_of_isFinal _ hfinal] at hfollows
    cases hfollows

theorem Indexes.moves {key : Order → Nat} {idx idx' : Nat → Finset Nat} (hidx : om.Indexes key idx)
    (h : om.Moves om' id e e') (hidx' : idx' = if e'.status.isFinal then
      Function.update idx (key e.order) ((idx (key e.order)).erase id) else idx)
    : om'.Indexes key idx' := by
  intro k i
  by_cases hi : i = id
  . subst hi
    have hmem : i ∈ idx' k ↔ key e.order = k ∧ e'.status.isFinal = false := by
      cases hfinal : e'.status.isFinal with
      | true =>
        rw [hidx', if_pos hfinal]
        by_cases hk : k = key e.order
        . rw [hk, Function.update_self]
          simp
        . rw [Function.update_of_ne hk, hidx k i, h.known]
          constructor
          . intro hex
            cases hex with
            | intro e₁ he₁ =>
              cases he₁.1
              exact absurd he₁.2.1.symm hk
          . intro hand
            cases hand.2
      | false =>
        rw [hidx', if_neg (by rw [hfinal]; decide), hidx k i, h.known]
        constructor
        . intro hex
          cases hex with
          | intro e₁ he₁ =>
            cases he₁.1
            exact ⟨he₁.2.1, rfl⟩
        . intro hand
          exact ⟨e, rfl, hand.1, h.open_before hfinal⟩
    rw [hmem, h.self]
    constructor
    . intro hand
      refine ⟨e', rfl, ?_, hand.2⟩
      rw [h.order]
      exact hand.1
    . intro hex
      cases hex with
      | intro e₁ he₁ =>
        cases he₁.1
        rw [← h.order]
        exact he₁.2
  . have hmem : i ∈ idx' k ↔ i ∈ idx k := by
      rw [hidx']
      split
      . by_cases hk : k = key e.order
        . rw [hk, Function.update_self, Finset.mem_erase]
          simp [hi]
        . rw [Function.update_of_ne hk]
      . rfl
    rw [hmem, h.of_ne hi]
    exact hidx k i

theorem Sound.moves (hs : om.Sound) (h : om.Moves om' id e e') (hsound : e.Sound → e'.Sound)
    : om'.Sound := by
  have hcases : ∀ i e₁, om'.orders i = some e₁ → (i = id ∧ e₁ = e') ∨ om.orders i = some e₁ := by
    intro i e₁ he₁
    by_cases hi : i = id
    . subst hi
      rw [h.self] at he₁
      cases he₁
      exact Or.inl ⟨rfl, rfl⟩
    . rw [h.of_ne hi] at he₁
      exact Or.inr he₁
  constructor
  . intro i hi
    rw [h.nextId] at hi
    rw [h.of_ne]
    . exact hs.fresh i hi
    . intro heq
      have hnone := hs.fresh i hi
      rw [heq, h.known] at hnone
      cases hnone
  . intro i e₁ he₁
    cases hcases i e₁ he₁ with
    | inl heq =>
      rw [heq.1, heq.2, h.order]
      exact hs.orderId id e h.known
    | inr hold => exact hs.orderId i e₁ hold
  . intro i e₁ he₁
    cases hcases i e₁ he₁ with
    | inl heq =>
      rw [heq.2]
      exact hsound (hs.entry id e h.known)
    | inr hold => exact hs.entry i e₁ hold
  . intro i e₁ he₁
    cases hcases i e₁ he₁ with
    | inl heq =>
      rw [heq.2]
      intro hnot
      cases h.follows with
      | inl hsame => exact hs.found id e h.known (hsame.trans hnot)
      | inr hfollows =>
        rw [hnot] at hfollows
        revert hfollows
        cases e.status with
        | _ => simp [OrderStatus.follows]
    | inr hold => exact hs.found i e₁ hold
  . exact hs.symOrders.moves h h.symOrders
  . exact hs.stratOrders.moves h h.stratOrders

theorem Indexes.newOrder {key : Order → Nat} {idx : Nat → Finset Nat} (hidx : om.Indexes key idx)
    (hs : om.Sound) {o : Order} (he : om'.orders = Function.update om.orders om.nextId (some e))
    (ho : e.order = o) (hstatus : e.status = .PENDING)
    : om'.Indexes key (Function.update idx (key o) (insert om.nextId (idx (key o)))) := by
  have hnone := hs.fresh om.nextId (Nat.le_refl _)
  have hnew : ∀ k, om.nextId ∉ idx k := by
    intro k hmem
    rw [hidx k om.nextId, hnone] at hmem
    cases hmem with
    | intro e₁ he₁ => cases he₁.1
  intro k i
  by_cases hi : i = om.nextId
  . subst hi
    rw [he, Function.update_self]
    by_cases hk : k = key o
    . rw [hk, Function.update_self]
      constructor
      . intro _
        refine ⟨e, rfl, by rw [ho], ?_⟩
        rw [hstatus]
        rfl
      . intro _
        apply Finset.mem_insert_self
    . rw [Function.update_of_ne hk]
      constructor
      . intro hmem
        exact absurd hmem (hnew k)
      . intro hex
        cases hex with
        | intro e₁ he₁ =>
          cases he₁.1
          rw [ho] at he₁
          exact absurd he₁.2.1.symm hk
  . have hmem : i ∈ Function.update idx (key o) (insert om.nextId (idx (key o))) k ↔ i ∈ idx k := by
      by_cases hk : k = key o
      . rw [hk, Function.update_self, Finset.mem_insert]
        simp [hi]
      . rw [Function.update_of_ne hk]
    rw [hmem, he, Function.update_of_ne hi]
    exact hidx k i

theorem Sound.newOrder (hs : om.Sound) {order : Order} (hq : 0 < order.quantity ∧ order.quantity < 2 ^ 63)
    : (om.newOrder order).1.Sound := by
  have hcases : ∀ i e, (om.newOrder order).1.orders i = some e →
      (i = om.nextId ∧ e.order = { order with orderId := om.nextId } ∧ e.status = .PENDING ∧
        e.filled = 0 ∧ e.remaining = order.quantity) ∨ om.orders i = some e := by
    intro i e he
    by_cases hi : i = om.nextId
    . subst hi
      have hself : (om.newOrder order).1.orders om.nextId = some _ := Function.update_self _ _ _
      rw [hself] at he
      cases he
      exact Or.inl ⟨rfl, rfl, rfl, rfl, rfl⟩
    . rw [om.newOrder_orders_of_ne order hi] at he
      exact Or.inr he
  constructor
  . intro i hi
    have hnext : om.nextId + 1 ≤ i := hi
    rw [om.newOrder_orders_of_ne order (by omega)]
    apply hs.fresh
    omega
  . intro i e he
    cases hcases i e he with
    | inl hnew =>
      rw [hnew.1, hnew.2.1]
    | inr hold => exact hs.orderId i e hold
  . intro i e he
    cases hcases i e he with
    | inl hnew =>
      have hqty : e.order.quantity = order.quantity := by rw [hnew.2.1]
      have hstatus := hnew.2.2.1
      have hfilled := hnew.2.2.2.1
      have hrem := hnew.2.2.2.2
      constructor
      . rw [hqty]
        exact hq
      . omega
      . rw [hstatus, hfilled, hqty]
        constructor
        . intro hf
          cases hf
        . omega
      . intro _
        exact hfilled
      . intro hp
        rw [hstatus] at hp
        cases hp
    | inr hold => exact hs.entry i e hold
  . intro i e he
    cases hcases i e he with
    | inl hnew =>
      rw [hnew.2.2.1]
      decide
    | inr hold => exact hs.found i e hold
  . exact hs.symOrders.newOrder hs rfl rfl rfl
  . exact hs.stratOrders.newOrder hs rfl rfl rfl

theorem Sound.init : Sound {} := by
  have hnone : ∀ i e, (({} : OrderManager).orders i) ≠ some e := by
    intro i e he
    cases he
  have hindex : ∀ key, Indexes {} key (fun _ => ∅) := by
    intro key k i
    constructor
    . intro hmem
      simp at hmem
    . intro hex
      cases hex with
      | intro e he => cases he.1
  constructor
  . intro i _
    rfl
  . intro i e he
    cases he
  . intro i e he
    cases he
  . intro i e he
    cases he
  . apply hindex
  . apply hindex

theorem Sound.apply (hs : om.Sound) {op : Op} (hop : op.Valid) : (om.apply op).Sound := by
  cases om.apply_cases op with
  | inl hnew =>
    cases hnew with
    | intro order heq =>
      subst heq
      exact hs.newOrder hop
  | inr hrest =>
    cases hrest with
    | inl hsame =>
      rw [hsame]
      exact hs
    | inr hmoves =>
      cases hmoves with
      | intro id hmoves =>
        cases hmoves with
        | intro e hmoves =>
          cases hmoves with
          | intro e' h => exact hs.moves h.1 (h.2 hop)

theorem Sound.run (hs : om.Sound) {ops : List Op} (hops : ∀ op ∈ ops, op.Valid)
    : (ops.foldl OrderManager.apply om).Sound := by
  induction ops generalizing om with
  | nil => exact hs
  | cons op ops ih =>
    rw [List.foldl_cons]
    apply ih
    . apply hs.apply
      apply hops
      simp
    . intro op' hmem
      apply hops
      simp [hmem]

def Fresh (om : OrderManager) : Prop := ∀ i, om.nextId ≤ i → om.orders i = none

theorem Fresh.follows (hs : om.Fresh) (op : Op) (i : Nat)
    : (om.apply op).status i = om.status i ∨ (om.status i).follows ((om.apply op).status i) := by
  cases om.apply_cases op with
  | inl hnew =>
    cases hnew with
    | intro order heq =>
      subst heq
      by_cases hi : i = om.nextId
      . apply Or.inr
        have hself : (om.newOrder order).1.orders om.nextId = some _ := Function.update_self _ _ _
        have hnone := hs om.nextId (Nat.le_refl _)
        show OrderStatus.follows _ ((om.newOrder order).1.status i) = true
        unfold status
        rw [hi, hself, hnone]
        rfl
      . apply Or.inl
        show (om.newOrder order).1.status i = om.status i
        unfold status
        rw [om.newOrder_orders_of_ne order hi]
  | inr hrest =>
    cases hrest with
    | inl hsame =>
      rw [hsame]
      exact Or.inl rfl
    | inr hmoves =>
      cases hmoves with
      | intro id hmoves =>
        cases hmoves with
        | intro e hmoves =>
          cases hmoves with
          | intro e' h =>
            unfold status
            by_cases hi : i = id
            . subst hi
              rw [h.1.self, h.1.known]
              cases h.1.follows with
              | inl heq => exact Or.inl heq.symm
              | inr hfollows => exact Or.inr hfollows
            . rw [h.1.of_ne hi]
              exact Or.inl rfl

/--
After any sequence of calls every entry is sound, the two queries return each order without a final status
exactly once, a new order gets a greater id than all before it, and a further call moves every status along
the diagram.
-/
theorem lifecycle {ops : List Op} (hops : ∀ op ∈ ops, op.Valid)
    : let om := ops.foldl apply {}
      (∀ i e, om.orders i = some e → e.order.orderId = i ∧ i < om.nextId ∧ e.Sound) ∧
      (∀ symbolId, (om.openOrders symbolId).Nodup ∧ ∀ i, i ∈ om.openOrders symbolId ↔
        ∃ e, om.orders i = some e ∧ e.order.symbolId = symbolId ∧ e.status.isFinal = false) ∧
      (∀ strategyId, (om.openOrdersByStrategy strategyId).Nodup ∧
        ∀ i, i ∈ om.openOrdersByStrategy strategyId ↔
          ∃ e, om.orders i = some e ∧ e.order.strategyId = strategyId ∧ e.status.isFinal = false) ∧
      (∀ order i e, om.orders i = some e → i < (om.newOrder order).2.orderId) ∧
      (∀ op, op.Valid → ∀ i,
        ((om.apply op).status i = om.status i ∨ (om.status i).follows ((om.apply op).status i)) ∧
        ((om.status i).isFinal → (om.apply op).status i = om.status i)) := by
  intro om
  have hs : om.Sound := Sound.init.run hops
  have hlt : ∀ i e, om.orders i = some e → i < om.nextId := by
    intro i e he
    apply Nat.lt_of_not_le
    intro hge
    rw [hs.fresh i hge] at he
    cases he
  refine ⟨?_, ?_, ?_, ?_, ?_⟩
  . intro i e he
    exact ⟨hs.orderId i e he, hlt i e he, hs.entry i e he⟩
  . intro symbolId
    exact ⟨(om.symOrders symbolId).nodup, hs.symOrders symbolId⟩
  . intro strategyId
    exact ⟨(om.stratOrders strategyId).nodup, hs.stratOrders strategyId⟩
  . intro order i e he
    exact hlt i e he
  . intro op _ i
    have hfollows := Fresh.follows hs.fresh op i
    constructor
    . exact hfollows
    . intro hfinal
      apply hfollows.resolve_right
      rw [OrderStatus.follows_of_isFinal _ hfinal]
      decide

def partialCancel : List Op := [
  .newOrder ⟨0, 60, 7, .BUY, .LIMIT, 2000, 100, 0⟩,
  .newOrder ⟨0, 60, 7, .SELL, .MARKET, 0, 30, 1⟩,
  .onAccept 1 11,
  .onAccept 2 12,
  .onFill 1 40 2000,
  .onFill 2 30 2010,
  .requestCancel 1,
  .onCancel 1
]

theorem lifecycle_partialCancel
    : let om := partialCancel.foldl apply {}
      (∀ i e, om.orders i = some e → e.order.orderId = i ∧ i < om.nextId ∧ e.Sound) ∧
      (∀ op, op.Valid → ∀ i,
        ((om.apply op).status i = om.status i ∨ (om.status i).follows ((om.apply op).status i)) ∧
        ((om.status i).isFinal → (om.apply op).status i = om.status i)) := by
  have h := @lifecycle partialCancel (by decide)
  exact ⟨h.1, h.2.2.2.2⟩

end OrderManager

end NebulaXTrader
