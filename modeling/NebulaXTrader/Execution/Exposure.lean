import Mathlib.Algebra.BigOperators.Ring.Finset
import Mathlib.Algebra.Order.BigOperators.Group.Finset
import NebulaXTrader.Execution.Lemmas.Session

/-!
This module contains the bounds on what the orders of a symbol can do together: the position stays within
its limits if every order leaves room for the orders that are still open.
-/

namespace NebulaXTrader

def OrderManager.Entry.isOpen (e : Entry) : Bool :=
  e.status = .PENDING ∨ e.isActive ∨ e.status = .PENDING_CANCEL

def OrderManager.Entry.committed (e : Entry) (v : Option VenueOrder) : Nat :=
  match v with
  | none => if e.status = .PENDING then e.order.quantity else 0
  | some v => if v.closed then v.executed else v.order.quantity

namespace Session

def weigh (side : OrderSide) (buy sell : Nat) : Int :=
  match side with
  | .BUY => buy
  | .SELL => -sell
  | .NONE => 0

/--
A signed sum over the orders of a symbol: `buy` for the orders to buy and `sell` for those to sell.
-/
def tally (n : Nat) (ords : Nat → Option Order) (buy sell : Nat → Nat) (symbolId : Nat) : Int :=
  ∑ i ∈ Finset.range n, (ords i).elim 0 (fun o =>
    if o.symbolId = symbolId then weigh o.side (buy i) (sell i) else 0)

def ords (s : Session) (i : Nat) : Option Order :=
  (s.trader.om.orders i).map OrderManager.Entry.order

def sum (s : Session) (buy sell : Nat → Nat) (symbolId : Nat) : Int :=
  tally s.trader.om.nextId s.ords buy sell symbolId

def executed (s : Session) (i : Nat) : Nat := (s.venue i).elim 0 VenueOrder.executed

def net (s : Session) (symbolId : Nat) : Int := s.sum s.executed s.executed symbolId

def reported (s : Session) (i : Nat) : Nat :=
  (s.trader.om.orders i).elim 0 OrderManager.Entry.filled + s.missed i

def committed (s : Session) (i : Nat) : Nat :=
  (s.trader.om.orders i).elim 0 (fun e => e.committed (s.venue i))

/--
The quantity of the open orders of a symbol and side that the trader does not know to be filled.
-/
def openQty (s : Session) (side : OrderSide) (symbolId : Nat) : Nat :=
  ∑ i ∈ Finset.range s.trader.om.nextId, (s.trader.om.orders i).elim 0 (fun e =>
    if e.order.symbolId = symbolId ∧ e.order.side = side ∧ e.isOpen then
      e.order.quantity - e.filled
    else
      0)

/--
An order that passes `check_order` would pass it also with the open orders of its side counted in.
-/
def Fits (s : Session) (a : Action) : Prop :=
  match a with
  | .submit _ sig strategyId type =>
    ∀ order ∈ s.trader.orderFor sig strategyId type, s.trader.rm.checkOrder order →
      order.symbolId < RiskManager.kMaxLocate ∧
        (order.side = .BUY → s.trader.rm.position order.symbolId + s.openQty .BUY order.symbolId +
          order.quantity ≤ s.trader.rm.config.maxPosition) ∧
        (order.side = .SELL → s.openQty .SELL order.symbolId + order.quantity ≤
          s.trader.rm.position order.symbolId)
  | _ => True

instance (s : Session) (a : Action) : Decidable (s.Fits a) :=
  match a with
  | .submit _ _ _ _ => inferInstanceAs (Decidable (∀ _ ∈ _, _))
  | .cancel _ _ | .mark _ _ | .receive _ | .execute _ _ _ | .deliver _ => isTrue trivial

variable {s s' : Session}

theorem Accounted.bounds {missed : Nat} {e : OrderManager.Entry} {v : VenueOrder} {es : List Fill}
    (acc : Accounted e v es missed) (hopen : e.isOpen)
    : e.filled + missed ≤ v.executed ∧ v.executed ≤ e.committed (some v) ∧
        e.committed (some v) ≤ e.filled + missed + if e.isOpen then e.order.quantity - e.filled else 0 := by
  have hsum := acc.sum
  have hle := acc.executed_le
  rw [if_pos hopen]
  unfold OrderManager.Entry.committed
  dsimp only
  rw [acc.order]
  split
  . omega
  . omega

theorem Phase.bounds {id missed : Nat} {e : OrderManager.Entry} {msgs : List OrderMsg}
    {ov : Option VenueOrder} {reports : List Fill} (h : Phase id (some e) msgs ov reports missed)
    : e.filled + missed ≤ ov.elim 0 VenueOrder.executed ∧
        ov.elim 0 VenueOrder.executed ≤ e.committed ov ∧
        e.committed ov ≤ e.filled + missed + if e.isOpen then e.order.quantity - e.filled else 0 := by
  -- What the two parties know about an order: the reported quantity is executed, the executed one
  -- committed, and the trader knows a bound for the difference.
  have hopen : e.isOpen = (e.status = .PENDING ∨ e.isActive ∨ e.status = .PENDING_CANCEL : Bool) := rfl
  cases h with
  | rejected status filled => simp [filled, OrderManager.Entry.committed, status]
  | sent status filled pos => simp [filled, OrderManager.Entry.committed, status, hopen]
  | accepted status filled type closed acc => exact acc.bounds (by simp [hopen, status])
  | working active closed acc => exact acc.bounds (by simp [hopen, active])
  | cancelling status request closed acc => exact acc.bounds (by simp [hopen, status])
  | answered status closed type acc => exact acc.bounds (by simp [hopen, status])
  | cancelled status closed acc =>
    have hsum : e.filled + missed = _ := acc.sum
    simp [hsum, OrderManager.Entry.committed, closed]
  | filled status closed order filled executed =>
    simp [filled, executed, order, OrderManager.Entry.committed, closed]

theorem weigh_mono (side : OrderSide) {buy buy' sell sell' : Nat} (hb : buy ≤ buy') (hs : sell' ≤ sell)
    : weigh side buy sell ≤ weigh side buy' sell' := by
  unfold weigh
  cases side with
  | BUY =>
    dsimp only
    omega
  | SELL =>
    dsimp only
    omega
  | NONE => exact le_refl _

theorem tally_mono {n : Nat} {ords : Nat → Option Order} {buy buy' sell sell' : Nat → Nat}
    (hb : ∀ i o, ords i = some o → buy i ≤ buy' i) (hs : ∀ i o, ords i = some o → sell' i ≤ sell i)
    (symbolId : Nat) : tally n ords buy sell symbolId ≤ tally n ords buy' sell' symbolId := by
  apply Finset.sum_le_sum
  intro i _
  cases ho : ords i with
  | none => exact le_refl _
  | some o =>
    dsimp only [Option.elim_some]
    split
    . exact weigh_mono o.side (hb i o ho) (hs i o ho)
    . exact le_refl _

theorem tally_update {n k : Nat} {ords : Nat → Option Order} {buy : Nat → Nat} {o : Order} {b : Nat}
    (hk : k < n) (ho : ords k = some o) (symbolId : Nat)
    : tally n ords (Function.update buy k b) (Function.update buy k b) symbolId =
      tally n ords buy buy symbolId +
        if o.symbolId = symbolId then weigh o.side b b - weigh o.side (buy k) (buy k) else 0 := by
  unfold tally
  rw [Tally.sum_change (f := fun i => (ords i).elim 0 (fun o =>
    if o.symbolId = symbolId then weigh o.side (buy i) (buy i) else 0)) hk]
  . rw [ho, Function.update_self]
    dsimp only [Option.elim_some]
    split
    . rfl
    . rfl
  . intro i hi
    rw [Function.update_of_ne hi]

theorem Inv.bounds (h : s.Inv) {i : Nat} {e : OrderManager.Entry} (he : s.trader.om.orders i = some e)
    : s.reported i ≤ s.executed i ∧ s.executed i ≤ s.committed i ∧
        s.committed i ≤ s.reported i + if e.isOpen then e.order.quantity - e.filled else 0 := by
  have hphase := h.phase i
  unfold InPhase at hphase
  rw [he] at hphase
  unfold reported committed executed
  rw [he]
  exact hphase.bounds

theorem ords_eq_some {i : Nat} {o : Order} (h : s.ords i = some o)
    : ∃ e, s.trader.om.orders i = some e ∧ e.order = o := Option.map_eq_some_iff.1 h

theorem Inv.net_bounds (h : s.Inv) (symbolId : Nat)
    : s.sum s.reported s.committed symbolId ≤ s.net symbolId ∧
      s.net symbolId ≤ s.sum s.committed s.reported symbolId := by
  -- The exchange is between what is reported and what is committed.
  constructor
  . apply tally_mono
    . intro i o ho
      obtain ⟨e, he, _⟩ := ords_eq_some ho
      exact (h.bounds he).1
    . intro i o ho
      obtain ⟨e, he, _⟩ := ords_eq_some ho
      exact (h.bounds he).2.1
  . apply tally_mono
    . intro i o ho
      obtain ⟨e, he, _⟩ := ords_eq_some ho
      exact (h.bounds he).2.1
    . intro i o ho
      obtain ⟨e, he, _⟩ := ords_eq_some ho
      exact (h.bounds he).1

theorem Inv.reported_bounds (h : s.Inv) (symbolId : Nat)
    : s.sum s.reported s.committed symbolId ≤ s.sum s.reported s.reported symbolId ∧
      s.sum s.reported s.reported symbolId ≤ s.sum s.committed s.reported symbolId := by
  have hle : ∀ i o, s.ords i = some o → s.reported i ≤ s.committed i := by
    intro i o ho
    obtain ⟨e, he, _⟩ := ords_eq_some ho
    exact le_trans (h.bounds he).1 (h.bounds he).2.1
  constructor
  . exact tally_mono (fun _ _ _ => le_refl _) hle symbolId
  . exact tally_mono hle (fun _ _ _ => le_refl _) symbolId

theorem weigh_le_of_buy {side : OrderSide} {committed reported remaining : Nat}
    (hle : committed ≤ reported + remaining)
    : weigh side committed reported ≤
        weigh side reported reported + ((if side = .BUY then remaining else 0 : Nat) : Int) := by
  unfold weigh
  cases side with
  | BUY =>
    rw [if_pos rfl]
    dsimp only
    omega
  | SELL => simp
  | NONE => simp

theorem weigh_le_of_sell {side : OrderSide} {committed reported remaining : Nat}
    (hle : committed ≤ reported + remaining)
    : weigh side reported reported ≤
        weigh side reported committed + ((if side = .SELL then remaining else 0 : Nat) : Int) := by
  unfold weigh
  cases side with
  | BUY => simp
  | SELL =>
    rw [if_pos rfl]
    dsimp only
    omega
  | NONE => simp

theorem Inv.sum_le_openQty (h : s.Inv) (symbolId : Nat)
    : s.sum s.committed s.reported symbolId ≤
        s.sum s.reported s.reported symbolId + s.openQty .BUY symbolId ∧
      s.sum s.reported s.reported symbolId ≤
        s.sum s.reported s.committed symbolId + s.openQty .SELL symbolId := by
  -- What is committed but not reported is known to be open.
  unfold sum tally openQty
  constructor
  . rw [Nat.cast_sum, ← Finset.sum_add_distrib]
    apply Finset.sum_le_sum
    intro i _
    unfold ords
    cases he : s.trader.om.orders i with
    | none => simp
    | some e =>
      have hweigh := @weigh_le_of_buy e.order.side _ _ _ (h.bounds he).2.2
      dsimp only [Option.map_some, Option.elim_some]
      by_cases hsym : e.order.symbolId = symbolId
      . simp only [hsym, true_and, if_true, ite_and]
        exact hweigh
      . simp [hsym]
  . rw [Nat.cast_sum, ← Finset.sum_add_distrib]
    apply Finset.sum_le_sum
    intro i _
    unfold ords
    cases he : s.trader.om.orders i with
    | none => simp
    | some e =>
      have hweigh := @weigh_le_of_sell e.order.side _ _ _ (h.bounds he).2.2
      dsimp only [Option.map_some, Option.elim_some]
      by_cases hsym : e.order.symbolId = symbolId
      . simp only [hsym, true_and, if_true, ite_and]
        exact hweigh
      . simp [hsym]

structure Progress (s s' : Session) : Prop where
  nextId : s'.trader.om.nextId = s.trader.om.nextId
  ords : s'.ords = s.ords
  committed : ∀ i, s'.committed i ≤ s.committed i
  reported : ∀ i, s.reported i ≤ s'.reported i

theorem Progress.sums (h : Progress s s') (symbolId : Nat)
    : s.sum s.reported s.committed symbolId ≤ s'.sum s'.reported s'.committed symbolId ∧
      s'.sum s'.committed s'.reported symbolId ≤ s.sum s.committed s.reported symbolId := by
  unfold sum
  rw [h.nextId, h.ords]
  constructor
  . apply tally_mono
    . exact fun i _ _ => h.reported i
    . exact fun i _ _ => h.committed i
  . apply tally_mono
    . exact fun i _ _ => h.committed i
    . exact fun i _ _ => h.reported i

/--
The positions are what is reported, and whatever is executed of the committed quantities they stay within
the limits.
-/
structure Exposed (s : Session) (maxPosition : Nat) : Prop where
  limit : s.trader.rm.config.maxPosition = maxPosition
  word : maxPosition < 2 ^ 64
  symbol : ∀ i o, s.ords i = some o → o.symbolId < RiskManager.kMaxLocate ∨ s.committed i = 0
  booked : ∀ l, l < RiskManager.kMaxLocate →
    (s.trader.rm.position l : Int) = s.sum s.reported s.reported l
  low : ∀ l, 0 ≤ s.sum s.reported s.committed l
  high : ∀ l, s.sum s.committed s.reported l ≤ maxPosition

variable {maxPosition : Nat}

theorem Exposed.progress (h : s.Exposed maxPosition) (hp : Progress s s')
    (hconfig : s'.trader.rm.config = s.trader.rm.config)
    (hbooked : ∀ l, l < RiskManager.kMaxLocate →
      (s'.trader.rm.position l : Int) = s'.sum s'.reported s'.reported l)
    : s'.Exposed maxPosition := by
  constructor
  . rw [hconfig]
    exact h.limit
  . exact h.word
  . intro i o ho
    rw [hp.ords] at ho
    cases h.symbol i o ho with
    | inl hlt => exact Or.inl hlt
    | inr hzero =>
      have hle := hp.committed i
      exact Or.inr (by omega)
  . exact hbooked
  . intro l
    exact le_trans (h.low l) (hp.sums l).1
  . intro l
    exact le_trans (hp.sums l).2 (h.high l)

theorem Exposed.unreported (h : s.Exposed maxPosition) (hp : Progress s s')
    (hconfig : s'.trader.rm.config = s.trader.rm.config) (hreported : s'.reported = s.reported)
    (hpos : ∀ l, s'.trader.rm.position l = s.trader.rm.position l) : s'.Exposed maxPosition := by
  apply h.progress hp hconfig
  intro l hl
  unfold sum
  rw [hpos, hp.nextId, hp.ords, hreported]
  exact h.booked l hl

theorem Exposed.execution (h : s.Exposed maxPosition) (hinv : s'.Inv) (hp : Progress s s') {id q : Nat} {o : Order}
    (ho : s.ords id = some o) (hq : 0 < q)
    (hreported : s'.reported = Function.update s.reported id (s.reported id + q))
    (hrm : s'.trader.rm = s.trader.rm.onFill o q) : s'.Exposed maxPosition := by
  have ho' : s'.ords id = some o := by
    rw [hp.ords]
    exact ho
  obtain ⟨e', he', _⟩ := ords_eq_some ho'
  have hid : id < s.trader.om.nextId := by
    rw [← hp.nextId]
    exact hinv.wf.lt he'
  have hsym : o.symbolId < RiskManager.kMaxLocate := by
    apply (h.symbol id o ho).resolve_right
    have hbounds := hinv.bounds he'
    have hle := hp.committed id
    rw [hreported, Function.update_self] at hbounds
    omega
  apply h.progress hp
  . rw [hrm, RiskManager.config_onFill]
  . intro l hl
    have hsum : s'.sum s'.reported s'.reported l = s.sum s.reported s.reported l +
        if o.symbolId = l then weigh o.side (s.reported id + q) (s.reported id + q) -
          weigh o.side (s.reported id) (s.reported id) else 0 := by
      unfold sum
      rw [hp.nextId, hp.ords, hreported]
      exact tally_update hid ho l
    rw [hrm, RiskManager.position_onFill]
    by_cases hl' : o.symbolId = l
    . rw [if_pos (by rw [hl']), hsum, if_pos hl', hl', ← h.booked l hl]
      -- the sums after the step bound the new position
      obtain ⟨hlow, hhigh⟩ := hinv.reported_bounds l
      have hlow := le_trans (h.low l) (le_trans (hp.sums l).1 hlow)
      have hhigh := le_trans hhigh (le_trans (hp.sums l).2 (h.high l))
      rw [hsum, if_pos hl', ← h.booked l hl] at hlow hhigh
      have hword := h.word
      unfold RiskManager.filledPosition
      unfold weigh at hlow hhigh ⊢
      cases hside : o.side with
      | BUY =>
        rw [hside] at hlow hhigh
        dsimp only at hlow hhigh ⊢
        rw [Nat.mod_eq_of_lt (by omega)]
        omega
      | SELL =>
        rw [hside] at hlow hhigh
        dsimp only at hlow hhigh ⊢
        omega
      | NONE => simp
    . rw [if_neg (RiskManager.locateIdx_ne hl hsym (Ne.symm hl')), hsum, if_neg hl', add_zero]
      exact h.booked l hl

structure Cancels (om om' : OrderManager) : Prop where
  nextId : om'.nextId = om.nextId
  unknown : ∀ i, om.orders i = none → om'.orders i = none
  known : ∀ i e, om.orders i = some e → ∃ e', om'.orders i = some e' ∧ e'.order = e.order ∧
    e'.filled = e.filled ∧ (e'.status = .PENDING ↔ e.status = .PENDING)

theorem Cancels.refl (om : OrderManager) : Cancels om om :=
  ⟨rfl, fun _ h => h, fun _ e h => ⟨e, h, rfl, rfl, Iff.rfl⟩⟩

theorem Cancels.requestCancel {om om' : OrderManager} (h : Cancels om om') {id : Nat}
    {e : OrderManager.Entry} (he : om'.orders id = some e) (hactive : e.isActive)
    : Cancels om (om'.requestCancel id).1 := by
  have hw := OrderManager.requestCancel_writes he hactive
  obtain ⟨e', he', ho, hs, hf⟩ := hw.self
  have hpending : e.status ≠ .PENDING := by
    intro hs
    unfold OrderManager.Entry.isActive at hactive
    simp [hs] at hactive
  constructor
  . exact hw.nextId.trans h.nextId
  . intro i hi
    have hnone := h.unknown i hi
    rw [hw.of_ne i]
    . exact hnone
    . intro heq
      rw [heq, he] at hnone
      cases hnone
  . intro i e₁ he₁
    obtain ⟨e₂, he₂, ho₂, hf₂, hs₂⟩ := h.known i e₁ he₁
    by_cases hi : i = id
    . rw [hi, he] at he₂
      cases he₂
      refine ⟨e', ?_, ho.trans ho₂, hf.trans hf₂, ?_⟩
      . rw [hi]
        exact he'
      . rw [hs, ← hs₂]
        constructor
        . intro hp
          cases hp
        . intro hp
          exact absurd hp hpending
    . refine ⟨e₂, ?_, ho₂, hf₂, hs₂⟩
      rw [hw.of_ne i hi]
      exact he₂

theorem Cancels.flattenOnDrawdown (ex : ExecutionEngine) (env : Env)
    : Cancels ex.om (ex.flattenOnDrawdown env).1.om := by
  apply ex.flattenOnDrawdown_ind env (P := fun om _ => Cancels ex.om om)
  . exact Cancels.refl ex.om
  . intro om _ id e h he hactive
    exact h.requestCancel he hactive
  . intro om _ id e h he hactive _
    exact h.requestCancel he hactive

theorem Cancels.cancelOrder (ex : ExecutionEngine) (env : Env) (id : Nat)
    : Cancels ex.om (ex.cancelOrder env id).1.om ∧ (ex.cancelOrder env id).1.rm = ex.rm := by
  have hreq : ∀ om, ex.om.requestCancel id = (om, true) → Cancels ex.om om := by
    intro om hom
    cases he : ex.om.orders id with
    | none =>
      unfold OrderManager.requestCancel at hom
      rw [he] at hom
      cases hom
    | some e =>
      by_cases hactive : e.isActive
      . have h := (Cancels.refl ex.om).requestCancel he hactive
        rw [hom] at h
        exact h
      . unfold OrderManager.requestCancel at hom
        rw [he] at hom
        dsimp only at hom
        rw [if_neg hactive] at hom
        cases hom
  unfold ExecutionEngine.cancelOrder
  split
  . exact ⟨Cancels.refl ex.om, rfl⟩
  . split
    . exact ⟨Cancels.refl ex.om, rfl⟩
    . next om hom =>
      split
      . exact ⟨hreq om hom, rfl⟩
      . exact ⟨hreq om hom, rfl⟩
      . exact ⟨hreq om hom, rfl⟩

theorem Cancels.progress (h : Cancels s.trader.om s'.trader.om) (hvenue : s'.venue = s.venue)
    (hmissed : s'.missed = s.missed) : Progress s s' ∧ s'.reported = s.reported := by
  have hords : s'.ords = s.ords := by
    funext i
    unfold ords
    cases he : s.trader.om.orders i with
    | none => rw [h.unknown i he]
    | some e =>
      obtain ⟨e', he', ho, _, _⟩ := h.known i e he
      rw [he', Option.map_some, Option.map_some, ho]
  have hreported : s'.reported = s.reported := by
    funext i
    unfold reported
    rw [hmissed]
    cases he : s.trader.om.orders i with
    | none => rw [h.unknown i he]
    | some e =>
      obtain ⟨e', he', _, hf, _⟩ := h.known i e he
      rw [he', Option.elim_some, Option.elim_some, hf]
  have hcommitted : s'.committed = s.committed := by
    funext i
    unfold committed
    rw [hvenue]
    cases he : s.trader.om.orders i with
    | none => rw [h.unknown i he]
    | some e =>
      obtain ⟨e', he', ho, _, hs⟩ := h.known i e he
      rw [he', Option.elim_some, Option.elim_some]
      unfold OrderManager.Entry.committed
      rw [ho]
      simp only [hs]
  constructor
  . constructor
    . exact h.nextId
    . exact hords
    . intro i
      rw [hcommitted]
    . intro i
      rw [hreported]
  . exact hreported

theorem Progress.of_ne (id : Nat) {e e' : OrderManager.Entry}
    (hnext : s'.trader.om.nextId = s.trader.om.nextId) (he : s.trader.om.orders id = some e)
    (he' : s'.trader.om.orders id = some e') (ho : e'.order = e.order)
    (horders : ∀ i, i ≠ id → s'.trader.om.orders i = s.trader.om.orders i)
    (hvenue : ∀ i, i ≠ id → s'.venue i = s.venue i) (hmissed : ∀ i, i ≠ id → s'.missed i = s.missed i)
    (hc : e'.committed (s'.venue id) ≤ e.committed (s.venue id))
    (hr : e.filled + s.missed id ≤ e'.filled + s'.missed id)
    : Progress s s' ∧ s'.reported =
        Function.update s.reported id (e'.filled + s'.missed id) := by
  have hreported : s'.reported = Function.update s.reported id (e'.filled + s'.missed id) := by
    funext i
    unfold Session.reported
    by_cases hi : i = id
    . rw [hi, Function.update_self, he', Option.elim_some]
    . rw [Function.update_of_ne hi, horders i hi, hmissed i hi]
  constructor
  . constructor
    . exact hnext
    . funext i
      unfold Session.ords
      by_cases hi : i = id
      . rw [hi, he, he', Option.map_some, Option.map_some, ho]
      . rw [horders i hi]
    . intro i
      unfold Session.committed
      by_cases hi : i = id
      . rw [hi, he, he']
        exact hc
      . rw [horders i hi, hvenue i hi]
    . intro i
      rw [hreported]
      by_cases hi : i = id
      . rw [hi, Function.update_self]
        unfold Session.reported
        rw [he]
        exact hr
      . rw [Function.update_of_ne hi]
  . exact hreported

theorem Exposed.unreported_of_ne (h : s.Exposed maxPosition) {id : Nat} {e e' : OrderManager.Entry}
    (hnext : s'.trader.om.nextId = s.trader.om.nextId) (he : s.trader.om.orders id = some e)
    (he' : s'.trader.om.orders id = some e') (ho : e'.order = e.order)
    (horders : ∀ i, i ≠ id → s'.trader.om.orders i = s.trader.om.orders i)
    (hvenue : ∀ i, i ≠ id → s'.venue i = s.venue i) (hmissed : s'.missed = s.missed)
    (hc : e'.committed (s'.venue id) ≤ e.committed (s.venue id)) (hf : e'.filled = e.filled)
    (hrm : s'.trader.rm = s.trader.rm) : s'.Exposed maxPosition := by
  obtain ⟨hp, hreported⟩ := Progress.of_ne id hnext he he' ho horders hvenue
    (fun i _ => congrFun hmissed i) hc (by rw [hf, hmissed])
  apply h.unreported hp
  . rw [hrm]
  . rw [hreported, hf, hmissed]
    apply Function.update_eq_self_iff.2
    unfold reported
    rw [he]
    rfl
  . intro l
    rw [hrm]

theorem Exposed.receive (h : s.Exposed maxPosition) (hinv : s.Inv) {ref : Nat}
    (hs : s.receive ref = some s') : s'.Exposed maxPosition := by
  unfold Session.receive at hs
  split at hs
  . cases hs
  . next o msgs htv =>
    cases hs
    have hphase := hinv.phase o.orderId
    unfold InPhase out at hphase
    have hid : (OrderMsg.O o).id = o.orderId := rfl
    rw [htv, filter_cons_eq OrderMsg.id msgs hid] at hphase
    obtain ⟨e, he, hstatus, _, _, ho, _, hvenue, _⟩ := hphase.of_order
    refine h.unreported_of_ne rfl he he rfl (fun _ _ => rfl) ?_ rfl ?_ rfl rfl
    . intro i hi
      exact Function.update_of_ne hi _ _
    . dsimp only
      rw [Function.update_self, hvenue]
      unfold OrderManager.Entry.committed
      simp [hstatus, ho]
  . next id msgs htv =>
    cases hs
    have hphase := hinv.phase id
    unfold InPhase out at hphase
    have hid : (OrderMsg.X id).id = id := rfl
    rw [htv, filter_cons_eq OrderMsg.id msgs hid] at hphase
    obtain ⟨e, v, he, hv, _, _, hclosed, hacc⟩ := hphase.of_request
    refine h.unreported_of_ne rfl he he rfl (fun _ _ => rfl) ?_ rfl ?_ rfl rfl
    . intro i hi
      exact Function.update_of_ne hi _ _
    . have hle := hacc.executed_le
      rw [← hacc.order] at hle
      dsimp only
      rw [Function.update_self, hv]
      unfold OrderManager.Entry.committed
      simp [hclosed, hle]

theorem Exposed.execute (h : s.Exposed maxPosition) (hinv : s.Inv) {id q : Nat} {price : Int}
    (hs : s.execute id q price = some s') : s'.Exposed maxPosition := by
  unfold Session.execute at hs
  split at hs
  . cases hs
  . next v hv =>
    split at hs
    . next hguard =>
      cases hs
      cases he : s.trader.om.orders id with
      | none =>
        obtain ⟨_, hnone, _⟩ := (hinv.phase id).of_none he
        rw [hv] at hnone
        cases hnone
      | some e =>
        refine h.unreported_of_ne rfl he he rfl (fun _ _ => rfl) ?_ rfl ?_ rfl rfl
        . intro i hi
          exact Function.update_of_ne hi _ _
        . dsimp only
          rw [Function.update_self, hv]
          unfold OrderManager.Entry.committed
          simp [hguard.1]
    . cases hs

theorem Exposed.of_cancels (h : s.Exposed maxPosition) (hcancels : Cancels s.trader.om s'.trader.om)
    (hvenue : s'.venue = s.venue) (hmissed : s'.missed = s.missed)
    (hconfig : s'.trader.rm.config = s.trader.rm.config)
    (hpos : ∀ l, s'.trader.rm.position l = s.trader.rm.position l) : s'.Exposed maxPosition := by
  obtain ⟨hp, hreported⟩ := hcancels.progress hvenue hmissed
  exact h.unreported hp hconfig hreported hpos

theorem Exposed.flatten (h : s.Exposed maxPosition) (env : Env) : (s.flatten env).Exposed maxPosition := by
  have hrm : (s.flatten env).trader.rm = s.trader.rm := (s.trader.flattenOnDrawdown_frame env).1
  refine h.of_cancels (Cancels.flattenOnDrawdown s.trader env) rfl rfl ?_ ?_
  . rw [hrm]
  . intro l
    rw [hrm]

theorem Exposed.cancel (h : s.Exposed maxPosition) (env : Env) (id : Nat)
    : (s.cancel env id).Exposed maxPosition := by
  obtain ⟨hcancels, hrm⟩ := Cancels.cancelOrder s.trader env id
  have hrm' : (s.cancel env id).trader.rm = s.trader.rm := hrm
  refine h.of_cancels hcancels rfl rfl ?_ ?_
  . rw [hrm']
  . intro l
    rw [hrm']

theorem Exposed.mark (h : s.Exposed maxPosition) (symbolId : Nat) (price : Int)
    : (s.mark symbolId price).Exposed maxPosition := by
  refine h.of_cancels (.refl _) rfl rfl ?_ ?_
  . exact s.trader.rm.config_mark symbolId price
  . exact fun l => s.trader.rm.position_mark symbolId l price

theorem Exposed.book (h : s.Exposed maxPosition) (hinv : s.Inv) {f : Fill} {reports : List Fill}
    {e : OrderManager.Entry} (hreports : s.toTrader = f :: reports)
    (he : s.trader.om.orders f.orderId = some e) (ht : f.type = .E)
    : (s.book f e reports).Exposed maxPosition := by
  have hnext := hinv.book hreports he ht
  have hphase := hinv.phase f.orderId
  unfold InPhase at hphase
  rw [inn_eq hreports] at hphase
  have hpos := hphase.exec_pos ht
  obtain ⟨e₁, he₁, hcases⟩ := hphase.deliver
  rw [he] at he₁
  cases he₁
  have ho : s.ords f.orderId = some e.order := by
    unfold ords
    rw [he]
    rfl
  have hrep : s.reported f.orderId = e.filled + s.missed f.orderId := by
    unfold reported
    rw [he]
    rfl
  rcases hcases with ⟨ht', _⟩ | ⟨_, hactive, hle, _⟩ | ⟨_, hs, _⟩ | ⟨ht', _⟩
  . rw [ht] at ht'
    cases ht'
  . have hw := OrderManager.onFill_writes f.filledQty f.fillPrice he hactive
    obtain ⟨e', he', ho', hs', hf⟩ := hw.self
    rw [e.fill_filled_of_le f.fillPrice hle (hinv.wf.quantity _ e he)] at hf
    rw [he] at hphase
    obtain ⟨v, hv, _⟩ := hphase.of_active hactive
    have hmissed : (s.book f e reports).missed = s.missed := by
      have hpending : e.status ≠ .PENDING_CANCEL := by
        intro hs
        unfold OrderManager.Entry.isActive at hactive
        simp [hs] at hactive
      exact if_neg hpending
    have hvenue : (s.book f e reports).venue = s.venue := rfl
    have hc : e'.committed ((s.book f e reports).venue f.orderId) ≤ e.committed (s.venue f.orderId) := by
      rw [hvenue, hv]
      exact le_refl _
    have hr : e.filled + s.missed f.orderId ≤ e'.filled + (s.book f e reports).missed f.orderId := by
      rw [hf, hmissed]
      omega
    have hprogress : Progress s (s.book f e reports) ∧ (s.book f e reports).reported =
        Function.update s.reported f.orderId
          (e'.filled + (s.book f e reports).missed f.orderId) :=
      Progress.of_ne f.orderId hw.nextId he he' ho' hw.of_ne (fun _ _ => rfl)
        (fun i _ => congrFun hmissed i) hc hr
    obtain ⟨hp, hreported⟩ := hprogress
    refine h.execution hnext hp ho hpos ?_ rfl
    rw [hreported, hf, hmissed, hrep]
    congr 1
    omega
  . have hactive : ¬ e.isActive := by
      unfold OrderManager.Entry.isActive
      simp [hs]
    have hom : (s.book f e reports).trader.om = s.trader.om :=
      OrderManager.onFill_eq f.filledQty f.fillPrice he hactive
    have hmissed : (s.book f e reports).missed =
        Function.update s.missed f.orderId (s.missed f.orderId + f.filledQty) := if_pos hs
    have hr : e.filled + s.missed f.orderId ≤ e.filled + (s.book f e reports).missed f.orderId := by
      rw [hmissed, Function.update_self]
      omega
    have horders : ∀ i, (s.book f e reports).trader.om.orders i = s.trader.om.orders i := by
      intro i
      rw [hom]
    have hnextId : (s.book f e reports).trader.om.nextId = s.trader.om.nextId := by
      rw [hom]
    have hother : ∀ i, i ≠ f.orderId → (s.book f e reports).missed i = s.missed i := by
      intro i hi
      rw [hmissed, Function.update_of_ne hi]
    obtain ⟨hp, hreported⟩ := Progress.of_ne f.orderId hnextId he ((horders _).trans he) rfl
      (fun i _ => horders i) (fun _ _ => rfl) hother (le_refl _) hr
    refine h.execution hnext hp ho hpos ?_ rfl
    rw [hreported, hmissed, Function.update_self, hrep]
    congr 1
    omega
  . rw [ht] at ht'
    cases ht'

theorem Exposed.deliver (h : s.Exposed maxPosition) (hinv : s.Inv) {env : Env}
    (hs : s.deliver env = some s') : s'.Exposed maxPosition := by
  cases hreports : s.toTrader with
  | nil =>
    unfold Session.deliver at hs
    rw [hreports] at hs
    cases hs
  | cons f reports =>
    have hphase := hinv.phase f.orderId
    unfold InPhase at hphase
    rw [inn_eq hreports] at hphase
    obtain ⟨e, he, hcases⟩ := hphase.deliver
    have hexec : f.type = .E → s'.Exposed maxPosition := by
      intro ht
      rw [deliver_E hreports he ht] at hs
      cases hs
      exact (h.book hinv hreports he ht).flatten env
    -- acceptance and cancellation only change the status
    have hstatus : ∀ (om : OrderManager) (status : OrderStatus),
        s.trader.om.Writes om f.orderId e status e.filled →
        s' = { s with trader := { s.trader with om := om }, toTrader := reports } →
        s'.Exposed maxPosition := by
      intro om status hw hs'
      obtain ⟨e', he', ho, _, hf⟩ := hw.self
      rw [hs']
      refine h.unreported_of_ne hw.nextId he he' ho hw.of_ne (fun _ _ => rfl) rfl ?_ hf rfl
      obtain ⟨v, hv⟩ := Option.ne_none_iff_exists'.1 hphase.venue_of_report
      dsimp only
      rw [hv]
      exact le_refl _
    rcases hcases with ⟨ht, hpending, _⟩ | ⟨ht, _⟩ | ⟨ht, _⟩ | ⟨ht, hpending, _⟩
    . rw [deliver_eq hreports he, s.trader.onOrderReport_A env he ht, if_neg (by simp [ht]),
        List.append_nil] at hs
      cases hs
      exact hstatus _ _ (OrderManager.onAccept_writes f.exchangeRef he hpending) rfl
    . exact hexec ht
    . exact hexec ht
    . rw [deliver_eq hreports he, s.trader.onOrderReport_C env he ht, if_neg (by simp [ht]),
        List.append_nil] at hs
      cases hs
      exact hstatus _ _ (OrderManager.onCancel_writes he hpending) rfl

theorem Exposed.added (h : s.Exposed maxPosition) (hinv : s.Inv) {o : Order}
    (hnext : s'.trader.om.nextId = s.trader.om.nextId + 1)
    (hords : ∀ i, i < s.trader.om.nextId → s'.ords i = s.ords i)
    (hnew : s'.ords s.trader.om.nextId = some o)
    (hfresh : ∀ i, s.trader.om.nextId < i → s'.ords i = none)
    (hcommitted : ∀ i, i < s.trader.om.nextId → s'.committed i = s.committed i)
    (hreported : ∀ i, i < s.trader.om.nextId → s'.reported i = s.reported i)
    (hzero : s'.reported s.trader.om.nextId = 0) (hrm : s'.trader.rm = s.trader.rm)
    (hfits : s'.committed s.trader.om.nextId = 0 ∨ (o.symbolId < RiskManager.kMaxLocate ∧
      (o.side = .BUY → s.trader.rm.position o.symbolId + s.openQty .BUY o.symbolId +
        s'.committed s.trader.om.nextId ≤ s.trader.rm.config.maxPosition) ∧
      (o.side = .SELL → s.openQty .SELL o.symbolId + s'.committed s.trader.om.nextId ≤
        s.trader.rm.position o.symbolId))) : s'.Exposed maxPosition := by
  have hsum : ∀ (b c b' c' : Nat → Nat) (l : Nat),
      (∀ i, i < s.trader.om.nextId → b' i = b i) → (∀ i, i < s.trader.om.nextId → c' i = c i) →
      s'.sum b' c' l = s.sum b c l +
        if o.symbolId = l then weigh o.side (b' s.trader.om.nextId) (c' s.trader.om.nextId) else 0 := by
    intro b c b' c' l hb hc
    unfold sum tally
    rw [hnext, Tally.sum_extend (f := fun i => (s.ords i).elim 0 (fun o =>
      if o.symbolId = l then weigh o.side (b i) (c i) else 0)), hnew]
    . rfl
    . intro i hi
      rw [hords i hi, hb i hi, hc i hi]
  constructor
  . rw [hrm]
    exact h.limit
  . exact h.word
  . intro i o' ho'
    rcases Nat.lt_trichotomy i s.trader.om.nextId with hi | hi | hi
    . rw [hords i hi] at ho'
      rw [hcommitted i hi]
      exact h.symbol i o' ho'
    . rw [hi, hnew] at ho'
      cases ho'
      rw [hi]
      cases hfits with
      | inl hc => exact Or.inr hc
      | inr hc => exact Or.inl hc.1
    . rw [hfresh i hi] at ho'
      cases ho'
  . intro l hl
    rw [hrm, hsum _ _ _ _ l hreported hreported, hzero, h.booked l hl]
    unfold weigh
    cases o.side with
    | BUY => simp
    | SELL => simp
    | NONE => simp
  . intro l
    have hlow := h.low l
    rw [hsum _ _ _ _ l hreported hcommitted, hzero]
    by_cases hl : o.symbolId = l
    . rw [if_pos hl]
      unfold weigh
      cases hside : o.side with
      | BUY => simpa using hlow
      | SELL =>
        dsimp only
        cases hfits with
        | inl hc =>
          rw [hc]
          simpa using hlow
        | inr hc =>
          have hsell := hc.2.2 hside
          have hopen := (hinv.sum_le_openQty l).2
          rw [← h.booked l (hl ▸ hc.1), ← hl] at hopen
          rw [hl] at hsell hopen
          omega
      | NONE => simpa using hlow
    . rw [if_neg hl]
      simpa using hlow
  . intro l
    have hhigh := h.high l
    rw [hsum _ _ _ _ l hcommitted hreported, hzero]
    by_cases hl : o.symbolId = l
    . rw [if_pos hl]
      unfold weigh
      cases hside : o.side with
      | BUY =>
        dsimp only
        cases hfits with
        | inl hc =>
          rw [hc]
          simpa using hhigh
        | inr hc =>
          have hbuy := hc.2.1 hside
          have hopen := (hinv.sum_le_openQty l).1
          rw [← h.booked l (hl ▸ hc.1), ← hl] at hopen
          rw [h.limit] at hbuy
          rw [hl] at hbuy hopen
          omega
      | SELL => simpa using hhigh
      | NONE => simpa using hhigh
    . rw [if_neg hl]
      simpa using hhigh

theorem Exposed.added_entry (h : s.Exposed maxPosition) (hinv : s.Inv) {order : Order}
    {e : OrderManager.Entry} (hnext : s'.trader.om.nextId = s.trader.om.nextId + 1)
    (horders : ∀ i, i ≠ s.trader.om.nextId → s'.trader.om.orders i = s.trader.om.orders i)
    (he : s'.trader.om.orders s.trader.om.nextId = some e)
    (ho : e.order = (s.trader.om.newOrder order).2) (hf : e.filled = 0)
    (hvenue : s'.venue = s.venue) (hmissed : s'.missed = s.missed)
    (hrm : s'.trader.rm = s.trader.rm)
    (hfits : e.status ≠ .PENDING ∨ (order.symbolId < RiskManager.kMaxLocate ∧
      (order.side = .BUY → s.trader.rm.position order.symbolId + s.openQty .BUY order.symbolId +
        order.quantity ≤ s.trader.rm.config.maxPosition) ∧
      (order.side = .SELL → s.openQty .SELL order.symbolId + order.quantity ≤
        s.trader.rm.position order.symbolId))) : s'.Exposed maxPosition := by
  obtain ⟨_, hnone, _, hzero⟩ :=
    (hinv.phase s.trader.om.nextId).of_none (hinv.wf.fresh _ (le_refl _))
  have hcommitted : s'.committed s.trader.om.nextId =
      if e.status = .PENDING then order.quantity else 0 := by
    unfold committed
    rw [he, hvenue, hnone, Option.elim_some]
    unfold OrderManager.Entry.committed
    rw [ho]
    rfl
  apply h.added hinv hnext (o := e.order)
  . intro i hi
    unfold ords
    rw [horders i (Nat.ne_of_lt hi)]
  . unfold ords
    rw [he]
    rfl
  . intro i hi
    unfold ords
    rw [horders i (Nat.ne_of_gt hi), hinv.wf.fresh i hi.le]
    rfl
  . intro i hi
    unfold committed
    rw [horders i (Nat.ne_of_lt hi), hvenue]
  . intro i hi
    unfold reported
    rw [horders i (Nat.ne_of_lt hi), hmissed]
  . unfold reported
    rw [he, hmissed, hzero, Option.elim_some, hf]
  . exact hrm
  . rw [hcommitted]
    cases hfits with
    | inl hs => exact Or.inl (if_neg hs)
    | inr hc =>
      by_cases hs : e.status = .PENDING
      . rw [if_pos hs, ho]
        exact Or.inr hc
      . exact Or.inl (if_neg hs)

theorem Exposed.submit (h : s.Exposed maxPosition) (hinv : s.Inv) {env : Env} {sig : Signal}
    {strategyId : Nat} {type : OrderType} (hfits : s.Fits (.submit env sig strategyId type))
    : (s.submit env sig strategyId type).Exposed maxPosition := by
  unfold Session.submit
  dsimp only
  cases horder : s.trader.orderFor sig strategyId type with
  | none =>
    rw [s.trader.submitSignal_none env horder, List.append_nil]
    exact h
  | some order =>
    obtain ⟨e, he, ho, hstatus, hzero⟩ := s.trader.om.newOrder_orders order
    rcases s.trader.submitSignal_cases env horder with ⟨hr, _⟩ | ⟨_, hcheck, hr, _⟩ | ⟨hsender, _⟩
    . have hw := OrderManager.onReject_writes he hstatus
      obtain ⟨e', he', ho', hstatus', hf'⟩ := hw.self
      rw [hr]
      refine h.added_entry hinv hw.nextId ?_ he' (ho'.trans ho) (hf'.trans hzero) rfl rfl rfl ?_
      . intro i hi
        dsimp only
        rw [hw.of_ne i hi]
        exact s.trader.om.newOrder_orders_of_ne order hi
      . rw [hstatus']
        apply Or.inl
        exact OrderStatus.noConfusion
    . rw [hr]
      refine h.added_entry hinv rfl ?_ he ho hzero rfl rfl rfl ?_
      . intro i hi
        exact s.trader.om.newOrder_orders_of_ne order hi
      . exact Or.inr (hfits order horder hcheck)
    . exact absurd hinv.wired.1 hsender

theorem Exposed.step (h : s.Exposed maxPosition) (hinv : s.Inv) {a : Action} (hfits : s.Fits a)
    (hs : s.step a = some s') : s'.Exposed maxPosition := by
  cases a with
  | submit env sig strategyId type =>
    cases hs
    exact h.submit hinv hfits
  | cancel env orderId =>
    cases hs
    exact h.cancel env orderId
  | mark symbolId price =>
    cases hs
    exact h.mark symbolId price
  | receive ref => exact h.receive hinv hs
  | execute orderId qty price => exact h.execute hinv hs
  | deliver env => exact h.deliver hinv hs

theorem Exposed.start (config : RiskManager.Config) (baseQty : Nat) (h : config.maxPosition < 2 ^ 64)
    : (start config baseQty).Exposed config.maxPosition := by
  constructor
  . rfl
  . exact h
  . intro i o ho
    cases ho
  . intro l _
    rfl
  . intro l
    exact le_refl _
  . intro l
    exact Int.natCast_nonneg _

/--
Every order leaves room for the open ones: then the exchange never holds a position outside the limits.
-/
theorem net_within (config : RiskManager.Config) (baseQty : Nat) (hword : config.maxPosition < 2 ^ 64)
    (actions : List Action) (hfits : Run.Along step Fits (start config baseQty) actions)
    (hrun : Run.exec step (start config baseQty) actions = some s) (symbolId : Nat)
    : 0 ≤ s.net symbolId ∧ s.net symbolId ≤ config.maxPosition := by
  have hinv : s.Inv ∧ s.Exposed config.maxPosition := by
    apply Run.exec_inv _ ⟨Inv.start config baseQty, Exposed.start config baseQty hword⟩ hfits hrun
    intro t a t' ht hgood hstep
    exact ⟨ht.1.step hstep, ht.2.step ht.1 hgood hstep⟩
  obtain ⟨hlow, hhigh⟩ := hinv.1.net_bounds symbolId
  constructor
  . exact le_trans (hinv.2.low symbolId) hlow
  . exact le_trans hhigh (hinv.2.high symbolId)

theorem net_within_cancelled
    : ∃ s, Run.exec step (start { maxPosition := 150 } 100)
        [.submit {} { side := .BUY, locate := 7, strength := 10000 } 1 .MARKET, .receive 1,
          .deliver {}, .execute 1 40 1000, .deliver {}, .cancel {} 1, .receive 1, .deliver {},
          .submit {} { side := .BUY, locate := 7, strength := 10000 } 1 .MARKET, .receive 2,
          .execute 2 100 1000] = some s ∧
      0 ≤ s.net 7 ∧ s.net 7 ≤ 150 := by
  -- Two orders to buy 100 shares each under a limit of 150: the second one is sent once the first
  -- is cancelled with 40 shares executed.
  have hsome : (Run.exec step (start { maxPosition := 150 } 100)
      [.submit {} { side := .BUY, locate := 7, strength := 10000 } 1 .MARKET, .receive 1,
        .deliver {}, .execute 1 40 1000, .deliver {}, .cancel {} 1, .receive 1, .deliver {},
        .submit {} { side := .BUY, locate := 7, strength := 10000 } 1 .MARKET, .receive 2,
        .execute 2 100 1000]).isSome := by
    decide +kernel
  obtain ⟨s, hrun⟩ := Option.isSome_iff_exists.1 hsome
  apply Exists.intro s
  constructor
  . exact hrun
  . exact net_within { maxPosition := 150 } 100 (by decide) _ (by decide +kernel) hrun 7

theorem not_net_within
    : ¬ ∀ (config : RiskManager.Config) (baseQty : Nat) (actions : List Action) (s : Session),
        config.maxPosition < 2 ^ 64 → Run.exec step (start config baseQty) actions = some s →
        ∀ symbolId, 0 ≤ s.net symbolId ∧ s.net symbolId ≤ config.maxPosition := by
  -- Two orders to buy 100 shares each are both let through, because nothing is filled yet.
  intro h
  generalize hr : Run.exec step (start { maxPosition := 150 } 100)
    [.submit {} { side := .BUY, locate := 7, strength := 10000 } 1 .MARKET,
      .submit {} { side := .BUY, locate := 7, strength := 10000 } 1 .MARKET,
      .receive 1, .receive 2, .execute 1 100 1000, .execute 2 100 1000] = r
  have hnet : r.map (fun s => s.net 7) = some 200 := by
    rw [← hr]
    decide +kernel
  obtain ⟨s, rfl, hs⟩ := Option.map_eq_some_iff.1 hnet
  have hle := (h { maxPosition := 150 } 100 _ s (by decide) hr 7).2
  rw [hs] at hle
  revert hle
  decide

end Session

end NebulaXTrader
