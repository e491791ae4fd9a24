import NebulaXTrader.Execution.Lemmas.ExecutionEngine
import NebulaXTrader.Lib.Run

/-!
This module contains the comparison of the two stores that a report drives: the quantities that the order
manager accepts and the positions that the risk manager books.
-/

namespace NebulaXTrader

namespace OrderManager

def NoShort (om : OrderManager) : Prop := ∀ s, 0 ≤ om.net s

theorem noShort_iff (om : OrderManager)
    : (∀ i, i < om.nextId → ∀ e ∈ om.orders i, 0 ≤ om.net e.order.symbolId) ↔ om.NoShort := by
  constructor
  . intro h s
    by_cases hs : ∃ i, i < om.nextId ∧ ∃ e ∈ om.orders i, e.order.symbolId = s
    . obtain ⟨i, hi, e, he, hes⟩ := hs
      rw [← hes]
      exact h i hi e he
    . have hzero : om.net s = 0 := by
        apply Finset.sum_eq_zero
        intro i hi
        cases he : om.orders i with
        | none => rfl
        | some e =>
          apply if_neg
          intro hes
          exact hs ⟨i, Finset.mem_range.1 hi, e, he, hes⟩
      rw [hzero]
  . intro h i _ e _
    exact h e.order.symbolId

instance (om : OrderManager) : Decidable om.NoShort := decidable_of_iff _ om.noShort_iff

end OrderManager

namespace ExecutionEngine

inductive Call where
  | submit (env : Env) (sig : Signal) (strategyId : Nat) (type : OrderType)
  | report (env : Env) (f : Fill)
  | fill (env : Env) (orderId filledQty : Nat) (fillPrice : Int)

def call (ex : ExecutionEngine) (c : Call) : ExecutionEngine :=
  match c with
  | .submit env sig strategyId type => (ex.submitSignal env sig strategyId type).1
  | .report env f => (ex.onOrderReport env f).1
  | .fill env orderId filledQty fillPrice => (ex.onOrderFill env orderId filledQty fillPrice).1

def Call.WellTyped (c : Call) : Prop :=
  match c with
  | .submit _ _ _ _ => True
  | .report _ f => f.filledQty < 2 ^ 64
  | .fill _ _ filledQty _ => filledQty < 2 ^ 64

instance (c : Call) : Decidable c.WellTyped :=
  match c with
  | .submit _ _ _ _ => isTrue trivial
  | .report _ _ => inferInstanceAs (Decidable (_ < _))
  | .fill _ _ _ _ => inferInstanceAs (Decidable (_ < _))

/--
Both stores book the same for an execution of `q` shares of an order. The second case of an order to buy
is an execution that wraps around the filled quantity and the position alike.
-/
def BooksAlike (ex : ExecutionEngine) (e : OrderManager.Entry) (q : Nat) : Prop :=
  (e.order.side = .BUY →
    if e.order.symbolId < RiskManager.kMaxLocate ∧ e.isActive then
      (e.filled + q ≤ e.order.quantity ∧ ex.rm.position e.order.symbolId + q < 2 ^ 64) ∨
        (2 ^ 64 ≤ e.filled + q ∧ e.filled + q - 2 ^ 64 ≤ e.order.quantity)
    else
      q = 0) ∧
  (e.order.side = .SELL →
    if e.order.symbolId < RiskManager.kMaxLocate ∧ e.isActive then
      e.filled + q ≤ e.order.quantity ∨
        (e.order.quantity < (e.filled + q) % 2 ^ 64 ∧
          ex.rm.position e.order.symbolId = e.order.quantity - e.filled)
    else
      q = 0 ∨ ex.rm.position e.order.symbolId = 0)

instance (ex : ExecutionEngine) (e : OrderManager.Entry) (q : Nat) : Decidable (ex.BooksAlike e q) :=
  inferInstanceAs (Decidable (_ ∧ _))

/--
The condition on a call under which both stores book the same.
-/
def Agrees (ex : ExecutionEngine) (c : Call) : Prop :=
  match c with
  | .submit _ sig strategyId type =>
    ∀ order ∈ ex.orderFor sig strategyId type, ¬ ex.hasSender → ex.rm.checkOrder order →
      order.symbolId < RiskManager.kMaxLocate ∧
        (order.side = .BUY → ex.rm.position order.symbolId + order.quantity < 2 ^ 64)
  | .report _ f => f.type = .E → ∀ e ∈ ex.om.orders f.orderId, ex.BooksAlike e f.filledQty
  | .fill _ orderId filledQty _ => ∀ e ∈ ex.om.orders orderId, ex.BooksAlike e filledQty

instance (ex : ExecutionEngine) (c : Call) : Decidable (ex.Agrees c) :=
  match c with
  | .submit _ _ _ _ => inferInstanceAs (Decidable (∀ _ ∈ _, _))
  | .report _ _ => inferInstanceAs (Decidable (_ → _))
  | .fill _ _ _ _ => inferInstanceAs (Decidable (∀ _ ∈ _, _))

structure Booked (ex : ExecutionEngine) : Prop where
  wf : ex.om.Wf
  word : ∀ s, ex.rm.position s < 2 ^ 64
  agree : ∀ s, s < RiskManager.kMaxLocate → (ex.rm.position s : Int) = ex.om.net s

variable {ex : ExecutionEngine} {e : OrderManager.Entry} {q : Nat}

theorem filledPosition_lt {side : OrderSide} {pos : Nat} (h : pos < 2 ^ 64) (q : Nat)
    : RiskManager.filledPosition side pos q < 2 ^ 64 := by
  unfold RiskManager.filledPosition
  split
  . apply Nat.mod_lt
    decide
  . exact lt_of_le_of_lt (Nat.sub_le _ _) h
  . exact h

theorem BooksAlike.ignored (h : ex.BooksAlike e q) (hpos : ex.rm.position e.order.symbolId < 2 ^ 64)
    (hbooked : ¬ (e.order.symbolId < RiskManager.kMaxLocate ∧ e.isActive))
    : RiskManager.filledPosition e.order.side (ex.rm.position e.order.symbolId) q =
        ex.rm.position e.order.symbolId := by
  obtain ⟨hbuy, hsell⟩ := h
  unfold RiskManager.filledPosition
  cases hs : e.order.side with
  | BUY =>
    have hq := hbuy hs
    rw [if_neg hbooked] at hq
    dsimp only
    rw [hq, Nat.add_zero, Nat.mod_eq_of_lt hpos]
  | SELL =>
    have hq := hsell hs
    rw [if_neg hbooked] at hq
    dsimp only
    cases hq with
    | inl hzero =>
      rw [hzero]
      omega
    | inr hzero =>
      rw [hzero]
      omega
  | NONE => rfl

theorem BooksAlike.booked (h : ex.BooksAlike e q) (p : Int) (hq : q < 2 ^ 64)
    (hpos : ex.rm.position e.order.symbolId < 2 ^ 64) (hfilled : e.filled ≤ e.order.quantity)
    (hquantity : e.order.quantity < 2 ^ 64)
    (hbooked : e.order.symbolId < RiskManager.kMaxLocate ∧ e.isActive)
    (hnet : 0 ≤ (ex.rm.position e.order.symbolId : Int) +
      (OrderManager.signed e.order.side (e.fill q p).filled -
        OrderManager.signed e.order.side e.filled))
    : (RiskManager.filledPosition e.order.side (ex.rm.position e.order.symbolId) q : Int) =
      ex.rm.position e.order.symbolId +
        (OrderManager.signed e.order.side (e.fill q p).filled -
          OrderManager.signed e.order.side e.filled) := by
  -- An execution that the order manager books moves the position as much as the filled quantity.
  obtain ⟨hbuy, hsell⟩ := h
  have hfill := e.fill_filled q p
  generalize ex.rm.position e.order.symbolId = pos at *
  generalize (e.fill q p).filled = filled at *
  cases hs : e.order.side with
  | BUY =>
    have hcond := hbuy hs
    rw [if_pos hbooked] at hcond
    rw [hs] at hnet
    unfold RiskManager.filledPosition OrderManager.signed
    unfold OrderManager.signed at hnet
    dsimp only at hnet ⊢
    cases hcond with
    | inl hfits =>
      rw [Nat.mod_eq_of_lt (by omega), if_neg (by omega)] at hfill
      rw [Nat.mod_eq_of_lt hfits.2, hfill]
      omega
    | inr hwraps =>
      have hmod : (e.filled + q) % 2 ^ 64 = e.filled + q - 2 ^ 64 := by omega
      rw [hmod, if_neg (by omega)] at hfill
      have hmod' : (pos + q) % 2 ^ 64 = pos + q - 2 ^ 64 := by omega
      rw [hmod']
      omega
  | SELL =>
    have hcond := hsell hs
    rw [if_pos hbooked] at hcond
    rw [hs] at hnet
    unfold RiskManager.filledPosition OrderManager.signed
    unfold OrderManager.signed at hnet
    dsimp only at hnet ⊢
    cases hcond with
    | inl hfits =>
      rw [Nat.mod_eq_of_lt (by omega), if_neg (by omega)] at hfill
      omega
    | inr hclamped =>
      rw [if_pos hclamped.1] at hfill
      omega
  | NONE =>
    unfold RiskManager.filledPosition OrderManager.signed
    simp

theorem Booked.fill (h : ex.Booked) {id : Nat} (he : ex.om.orders id = some e)
    (ha : ex.BooksAlike e q) (p : Int) (hq : q < 2 ^ 64) (hnet : (ex.om.onFill id q p).NoShort)
    : Booked { ex with om := ex.om.onFill id q p, rm := ex.rm.onFill e.order q } := by
  have hfilled := h.wf.filled id e he
  have hquantity := h.wf.quantity id e he
  have hpos := h.word e.order.symbolId
  constructor
  . by_cases hactive : e.isActive
    . exact h.wf.writes (OrderManager.onFill_writes q p he hactive) (e.fill_filled_le q p)
    . dsimp only
      rw [OrderManager.onFill_eq q p he hactive]
      exact h.wf
  . intro s
    dsimp only
    rw [ex.rm.position_onFill]
    split
    . apply filledPosition_lt hpos
    . exact h.word s
  . intro s hs
    dsimp only
    rw [ex.rm.position_onFill]
    by_cases hbooked : e.order.symbolId < RiskManager.kMaxLocate ∧ e.isActive
    . have hw := OrderManager.onFill_writes q p he hbooked.2
      rw [h.wf.net_writes hw]
      by_cases hsym : e.order.symbolId = s
      . rw [if_pos hsym, ← hsym, if_pos rfl, ← h.agree _ hbooked.1]
        apply ha.booked p hq hpos hfilled hquantity hbooked
        have hshort := hnet e.order.symbolId
        rw [h.wf.net_writes hw, if_pos rfl, ← h.agree _ hbooked.1] at hshort
        exact hshort
      . rw [if_neg (RiskManager.locateIdx_ne hs hbooked.1 (Ne.symm hsym)), if_neg hsym, add_zero]
        exact h.agree s hs
    . have hsame : (if RiskManager.locateIdx s = RiskManager.locateIdx e.order.symbolId then
          RiskManager.filledPosition e.order.side (ex.rm.position e.order.symbolId) q
          else ex.rm.position s) = ex.rm.position s := by
        split
        . next hidx =>
          rw [ha.ignored hpos hbooked]
          unfold RiskManager.position RiskManager.cell
          rw [hidx]
        . rfl
      rw [hsame, h.agree s hs]
      by_cases hactive : e.isActive
      . rw [h.wf.net_writes (OrderManager.onFill_writes q p he hactive), if_neg, add_zero]
        intro hsym
        apply hbooked
        rw [hsym]
        exact ⟨hs, hactive⟩
      . rw [OrderManager.onFill_eq q p he hactive]

theorem Booked.congr (h : ex.Booked) {om : OrderManager} (hwf : om.Wf)
    (hnet : ∀ s, om.net s = ex.om.net s) : Booked { ex with om := om } := by
  constructor
  . exact hwf
  . exact h.word
  . intro s hs
    rw [hnet]
    exact h.agree s hs

theorem Booked.writes (h : ex.Booked) {om : OrderManager} {id : Nat} {status : OrderStatus}
    (hw : ex.om.Writes om id e status e.filled) : Booked { ex with om := om } := by
  apply h.congr
  . exact h.wf.writes hw (h.wf.filled id e hw.known)
  . exact h.wf.net_writes_same hw

theorem flattenOnDrawdown_net (ex : ExecutionEngine) (env : Env) (h : ex.om.Wf)
    : (ex.flattenOnDrawdown env).1.om.Wf ∧
      ∀ s, (ex.flattenOnDrawdown env).1.om.net s = ex.om.net s := by
  have hcancel : ∀ (om : OrderManager) (id : Nat) (e : OrderManager.Entry),
      (om.Wf ∧ ∀ s, om.net s = ex.om.net s) → om.orders id = some e → e.isActive →
      (om.requestCancel id).1.Wf ∧ ∀ s, (om.requestCancel id).1.net s = ex.om.net s := by
    intro om id e hom he hactive
    have hw := OrderManager.requestCancel_writes he hactive
    constructor
    . exact hom.1.writes hw (hom.1.filled id e he)
    . intro s
      rw [hom.1.net_writes_same hw]
      exact hom.2 s
  apply ex.flattenOnDrawdown_ind env (P := fun om _ => om.Wf ∧ ∀ s, om.net s = ex.om.net s)
  . exact ⟨h, fun _ => rfl⟩
  . intro om _ id e hom he hactive
    exact hcancel om id e hom he hactive
  . intro om _ id e hom he hactive _
    exact hcancel om id e hom he hactive

theorem Booked.execution (h : ex.Booked) (env : Env) {id : Nat} (he : ex.om.orders id = some e)
    (ha : ex.BooksAlike e q) (p : Int) (hq : q < 2 ^ 64)
    (hnet : (({ ex with om := ex.om.onFill id q p, rm := ex.rm.onFill e.order q } :
      ExecutionEngine).flattenOnDrawdown env).1.om.NoShort)
    : (({ ex with om := ex.om.onFill id q p, rm := ex.rm.onFill e.order q } :
      ExecutionEngine).flattenOnDrawdown env).1.Booked := by
  obtain ⟨hwf, hsame⟩ := flattenOnDrawdown_net
    { ex with om := ex.om.onFill id q p, rm := ex.rm.onFill e.order q } env (h.wf.onFill id q p)
  have hbooked := h.fill he ha p hq (fun s => by
    have hs := hnet s
    rw [hsame s] at hs
    exact hs)
  obtain ⟨hrm, _⟩ := flattenOnDrawdown_frame
    { ex with om := ex.om.onFill id q p, rm := ex.rm.onFill e.order q } env
  constructor
  . exact hwf
  . intro s
    rw [hrm]
    exact hbooked.word s
  . intro s hs
    rw [hrm, hsame]
    exact hbooked.agree s hs

theorem Booked.call (h : ex.Booked) {c : Call} (hc : c.WellTyped) (ha : ex.Agrees c)
    (hnet : (ex.call c).om.NoShort) : (ex.call c).Booked := by
  cases c with
  | submit env sig strategyId type =>
    unfold ExecutionEngine.call at hnet ⊢
    dsimp only at hnet ⊢
    cases horder : ex.orderFor sig strategyId type with
    | none =>
      rw [ex.submitSignal_none env horder]
      exact h
    | some order =>
      obtain ⟨_, _, hlt, _⟩ := ex.orderFor_spec horder
      obtain ⟨e, he, ho, hstatus, hzero⟩ := ex.om.newOrder_orders order
      have hnew : Booked { ex with om := (ex.om.newOrder order).1 } := by
        apply h.congr
        . exact h.wf.newOrder hlt
        . exact ex.om.net_newOrder order
      rcases ex.submitSignal_cases env horder with ⟨hr, _⟩ | ⟨_, _, hr, _⟩ | ⟨hsender, hcheck, hr, _⟩
      . rw [hr]
        exact hnew.writes (OrderManager.onReject_writes he hstatus)
      . rw [hr]
        exact hnew
      . rw [hr] at hnet ⊢
        obtain ⟨hsym, hbuy⟩ := ha order horder hsender hcheck
        have hw := OrderManager.onAccept_writes 0 he hstatus
        obtain ⟨e', he', ho', hstatus', hfilled'⟩ := hw.self
        have hactive : e'.isActive := by
          unfold OrderManager.Entry.isActive
          rw [hstatus']
          rfl
        have horder' : e'.order = (ex.om.newOrder order).2 := ho'.trans ho
        rw [← horder'] at hnet ⊢
        apply (hnew.writes hw).fill he' _ e'.order.price
        . rw [horder']
          exact hlt
        . exact hnet
        . rw [hzero] at hfilled'
          constructor
          . intro hs
            rw [horder'] at hs
            rw [if_pos ⟨by rw [horder']; exact hsym, hactive⟩, hfilled']
            apply Or.inl
            constructor
            . omega
            . rw [horder']
              exact hbuy hs
          . intro _
            rw [if_pos ⟨by rw [horder']; exact hsym, hactive⟩, hfilled']
            apply Or.inl
            omega
  | report env f =>
    unfold ExecutionEngine.call ExecutionEngine.onOrderReport at hnet ⊢
    dsimp only at hnet ⊢
    cases he : ex.om.orders f.orderId with
    | none => exact h
    | some e =>
      rw [he] at hnet
      dsimp only at hnet ⊢
      cases ht : f.type with
      | A =>
        dsimp only
        by_cases hs : e.status = .PENDING
        . exact h.writes (OrderManager.onAccept_writes f.exchangeRef he hs)
        . rw [OrderManager.onAccept_eq f.exchangeRef he hs]
          exact h
      | E =>
        rw [ht] at hnet
        exact h.execution env he (ha ht e he) f.fillPrice hc hnet
      | C =>
        dsimp only
        by_cases hs : e.status = .PENDING_CANCEL
        . exact h.writes (OrderManager.onCancel_writes he hs)
        . rw [OrderManager.onCancel_eq he hs]
          exact h
      | J =>
        dsimp only
        by_cases hs : e.status = .PENDING
        . exact h.writes (OrderManager.onReject_writes he hs)
        . rw [OrderManager.onReject_eq he hs]
          exact h
      | F => exact h
  | fill env orderId filledQty fillPrice =>
    unfold ExecutionEngine.call ExecutionEngine.onOrderFill at hnet ⊢
    dsimp only at hnet ⊢
    cases he : ex.om.orders orderId with
    | none => exact h
    | some e =>
      rw [he] at hnet
      exact h.execution env he (ha e he) fillPrice hc hnet

def start (config : RiskManager.Config) (hasSender hasCodec : Bool) (baseQty : Nat)
    : ExecutionEngine where
  rm := RiskManager.init config
  hasSender := hasSender
  hasCodec := hasCodec
  baseQty := baseQty

theorem Booked.start (config : RiskManager.Config) (hasSender hasCodec : Bool) (baseQty : Nat)
    : (start config hasSender hasCodec baseQty).Booked := by
  constructor
  . exact OrderManager.Wf.init
  . intro s
    exact Nat.two_pow_pos 64
  . intro s _
    rfl

/--
In every run whose calls meet the condition the positions are the net quantities of the orders, after
every call.
-/
theorem position_eq_net (config : RiskManager.Config) (hasSender hasCodec : Bool) (baseQty : Nat)
    (calls : List Call) (hcalls : ∀ c ∈ calls, c.WellTyped)
    (hnet : Run.Along (fun ex c => some (call ex c)) (fun ex c => (call ex c).om.NoShort)
      (start config hasSender hasCodec baseQty) calls)
    (hagree : Run.Along (fun ex c => some (call ex c)) Agrees
      (start config hasSender hasCodec baseQty) calls)
    : ∀ pre, pre <+: calls → ∀ s, s < RiskManager.kMaxLocate →
        ((pre.foldl call (start config hasSender hasCodec baseQty)).rm.position s : Int) =
          (pre.foldl call (start config hasSender hasCodec baseQty)).om.net s := by
  have hrun : ∀ (cs : List Call) (ex : ExecutionEngine), ex.Booked → (∀ c ∈ cs, c.WellTyped) →
      Run.Along (fun ex c => some (call ex c)) (fun ex c => (call ex c).om.NoShort) ex cs →
      Run.Along (fun ex c => some (call ex c)) Agrees ex cs → (cs.foldl call ex).Booked := by
    intro cs
    induction cs with
    | nil =>
      intro ex hex _ _ _
      exact hex
    | cons c cs ih =>
      intro ex hex hw hn ha
      unfold Run.Along at hn ha
      apply ih
      . exact hex.call (hw c List.mem_cons_self) ha.1 hn.1
      . intro d hd
        exact hw d (List.mem_cons_of_mem _ hd)
      . exact hn.2 _ rfl
      . exact ha.2 _ rfl
  intro pre hpre s hs
  obtain ⟨post, rfl⟩ := hpre
  have hbooked := hrun pre _ (Booked.start config hasSender hasCodec baseQty)
    (fun c hc => hcalls c (List.mem_append_left _ hc)) hnet.append_left hagree.append_left
  exact hbooked.agree s hs

theorem position_eq_net_parts
    : let calls := [Call.submit {} { side := .BUY, locate := 7, strength := 10000 } 1 .MARKET,
        .report {} { type := .A, orderId := 1 },
        .report {} { type := .E, orderId := 1, filledQty := 40, fillPrice := 1000 },
        .report {} { type := .E, orderId := 1, filledQty := 60, fillPrice := 1001 }]
      ((calls.foldl call (start {} true true 100)).rm.position 7 : Int) =
        (calls.foldl call (start {} true true 100)).om.net 7 := by
  -- A signal to buy 100 shares that is accepted and executed in two parts.
  intro calls
  apply position_eq_net {} true true 100 calls
  . decide
  . decide +kernel
  . decide +kernel
  . exact List.prefix_refl calls
  . decide

theorem not_position_eq_net
    : ¬ ∀ (config : RiskManager.Config) (hasSender hasCodec : Bool) (baseQty : Nat)
        (calls : List Call), (∀ c ∈ calls, c.WellTyped) →
        Run.Along (fun ex c => some (call ex c)) (fun ex c => (call ex c).om.NoShort)
          (start config hasSender hasCodec baseQty) calls →
        ∀ pre, pre <+: calls → ∀ s, s < RiskManager.kMaxLocate →
          ((pre.foldl call (start config hasSender hasCodec baseQty)).rm.position s : Int) =
            (pre.foldl call (start config hasSender hasCodec baseQty)).om.net s := by
  -- An execution of more shares than the order has.
  intro h
  have hpos := h {} true true 100
    [.submit {} { side := .BUY, locate := 7, strength := 10000 } 1 .MARKET,
      .report {} { type := .A, orderId := 1 },
      .report {} { type := .E, orderId := 1, filledQty := 150, fillPrice := 1000 }]
    (by decide) (by decide +kernel) _ (List.prefix_refl _) 7 (by decide)
  revert hpos
  decide +kernel

end ExecutionEngine

end NebulaXTrader
