import NebulaXTrader.Execution.SimExchange
import NebulaXTrader.Execution.Lemmas.ExecutionEngine

/-!
This module contains the theorem that the order manager knows exactly the orders that have been submitted: the reports of
the exchange change their entries and never the orders.
-/

namespace NebulaXTrader

namespace OrderManager

variable {om om' om'' : OrderManager} {id : Nat} {e : Entry}

/--
The orders in the order in which they have been given their ids.
-/
def placed (om : OrderManager) : List Order :=
  (List.range' 1 (om.nextId - 1)).filterMap (fun id => (om.orders id).map Entry.order)

/--
The entries may change, but not the orders.
-/
structure Keeps (om om' : OrderManager) : Prop where
  nextId : om'.nextId = om.nextId
  orders : ∀ id, (om'.orders id).map Entry.order = (om.orders id).map Entry.order

theorem Keeps.refl (om : OrderManager) : om.Keeps om := ⟨rfl, fun _ => rfl⟩

theorem Keeps.trans (h : om.Keeps om') (h' : om'.Keeps om'') : om.Keeps om'' where
  nextId := h'.nextId.trans h.nextId
  orders := fun id => (h'.orders id).trans (h.orders id)

theorem Keeps.placed (h : om.Keeps om') : om'.placed = om.placed := by
  unfold OrderManager.placed
  rw [h.nextId]
  apply List.filterMap_congr
  intro id _
  exact h.orders id

theorem Writes.keeps {status : OrderStatus} {filled : Nat} (h : om.Writes om' id e status filled) : om.Keeps om' := by
  constructor
  . exact h.nextId
  . intro i
    by_cases hi : i = id
    . obtain ⟨e', he', horder, _, _⟩ := h.self
      rw [hi, he', h.known, Option.map_some, Option.map_some, horder]
    . rw [h.of_ne i hi]

theorem keeps_onAccept (om : OrderManager) (id ref : Nat) : om.Keeps (om.onAccept id ref) := by
  cases he : om.orders id with
  | none =>
    unfold onAccept
    rw [he]
    exact Keeps.refl om
  | some e =>
    by_cases hs : e.status = .PENDING
    . exact (onAccept_writes ref he hs).keeps
    . rw [onAccept_eq ref he hs]
      exact Keeps.refl om

theorem keeps_onFill (om : OrderManager) (id q : Nat) (p : Int) : om.Keeps (om.onFill id q p) := by
  cases he : om.orders id with
  | none =>
    unfold onFill
    rw [he]
    exact Keeps.refl om
  | some e =>
    by_cases hs : e.isActive
    . exact (onFill_writes q p he hs).keeps
    . rw [onFill_eq q p he hs]
      exact Keeps.refl om

theorem keeps_onCancel (om : OrderManager) (id : Nat) : om.Keeps (om.onCancel id) := by
  cases he : om.orders id with
  | none =>
    unfold onCancel
    rw [he]
    exact Keeps.refl om
  | some e =>
    by_cases hs : e.status = .PENDING_CANCEL
    . exact (onCancel_writes he hs).keeps
    . rw [onCancel_eq he hs]
      exact Keeps.refl om

theorem keeps_onReject (om : OrderManager) (id : Nat) : om.Keeps (om.onReject id) := by
  cases he : om.orders id with
  | none =>
    unfold onReject
    rw [he]
    exact Keeps.refl om
  | some e =>
    by_cases hs : e.status = .PENDING
    . exact (onReject_writes he hs).keeps
    . rw [onReject_eq he hs]
      exact Keeps.refl om

theorem placed_newOrder (h : 1 ≤ om.nextId) (order : Order)
    : (om.newOrder order).1.placed = om.placed ++ [{ order with orderId := om.nextId }] := by
  have hnext : (om.newOrder order).1.nextId - 1 = (om.nextId - 1) + 1 := by
    change om.nextId + 1 - 1 = _
    omega
  obtain ⟨e, he, horder, _, _⟩ := newOrder_orders om order
  unfold placed
  rw [hnext, List.range'_concat, List.filterMap_append]
  congr 1
  . apply List.filterMap_congr
    intro id hid
    rw [newOrder_orders_of_ne]
    have hlt := List.mem_range'_1.1 hid
    omega
  . rw [Nat.one_mul, Nat.add_sub_cancel' h, List.filterMap_cons_some (b := e.order)]
    . rw [List.filterMap_nil, horder]
      rfl
    . rw [he]
      rfl

end OrderManager

namespace ExecutionEngine

variable (ex : ExecutionEngine) (env : Env)

theorem keeps_flattenOnDrawdown : ex.om.Keeps (ex.flattenOnDrawdown env).1.om := by
  apply ex.flattenOnDrawdown_ind env (P := fun om _ => ex.om.Keeps om)
  . exact OrderManager.Keeps.refl ex.om
  . intro om msgs id e hkeeps he hactive
    exact hkeeps.trans (OrderManager.requestCancel_writes he hactive).keeps
  . intro om msgs id e hkeeps he hactive _
    exact hkeeps.trans (OrderManager.requestCancel_writes he hactive).keeps

theorem keeps_onOrderReport (f : Fill) : ex.om.Keeps (ex.onOrderReport env f).1.om := by
  unfold onOrderReport
  split
  . exact OrderManager.Keeps.refl ex.om
  . next e _ =>
    split
    . exact OrderManager.keeps_onAccept ex.om f.orderId f.exchangeRef
    . exact (OrderManager.keeps_onFill ex.om f.orderId f.filledQty f.fillPrice).trans (keeps_flattenOnDrawdown
        { ex with
          om := ex.om.onFill f.orderId f.filledQty f.fillPrice
          rm := ex.rm.onFill e.order f.filledQty } env)
    . exact OrderManager.keeps_onCancel ex.om f.orderId
    . exact OrderManager.keeps_onReject ex.om f.orderId
    . exact OrderManager.Keeps.refl ex.om

theorem placed_submitSignal (sig : Signal) (strategyId : Nat) (type : OrderType) (h : 1 ≤ ex.om.nextId)
    : (ex.submitSignal env sig strategyId type).1.om.placed =
        ex.om.placed ++ ((ex.orderFor sig strategyId type).map (fun o => { o with orderId := ex.om.nextId })).toList ∧
      (ex.submitSignal env sig strategyId type).1.om.nextId =
        ex.om.nextId + (ex.orderFor sig strategyId type).toList.length := by
  cases horder : ex.orderFor sig strategyId type with
  | none =>
    rw [ex.submitSignal_none env horder]
    exact ⟨(List.append_nil _).symm, rfl⟩
  | some order =>
    have hnew := OrderManager.placed_newOrder h order
    have hkept : ∀ {om : OrderManager}, (ex.om.newOrder order).1.Keeps om →
        om.placed = ex.om.placed ++ [{ order with orderId := ex.om.nextId }] ∧ om.nextId = ex.om.nextId + 1 := by
      intro om hkeeps
      exact ⟨hkeeps.placed.trans hnew, hkeeps.nextId⟩
    rcases ex.submitSignal_cases env horder with ⟨hr, _⟩ | ⟨_, _, hr, _⟩ | ⟨_, _, hr, _⟩
    . rw [hr]
      exact hkept (OrderManager.keeps_onReject _ _)
    . rw [hr]
      exact hkept (OrderManager.Keeps.refl _)
    . rw [hr]
      exact hkept ((OrderManager.keeps_onAccept _ _ _).trans (OrderManager.keeps_onFill _ _ _ _))

theorem baseQty_onOrderReport (f : Fill) : (ex.onOrderReport env f).1.baseQty = ex.baseQty := by
  unfold onOrderReport
  split
  . rfl
  . split
    . rfl
    . exact (flattenOnDrawdown_frame _ env).2.2.2
    . rfl
    . rfl
    . rfl

theorem baseQty_submitSignal (sig : Signal) (strategyId : Nat) (type : OrderType)
    : (ex.submitSignal env sig strategyId type).1.baseQty = ex.baseQty := by
  cases horder : ex.orderFor sig strategyId type with
  | none => rw [ex.submitSignal_none env horder]
  | some order =>
    rcases ex.submitSignal_cases env horder with ⟨hr, _⟩ | ⟨_, _, hr, _⟩ | ⟨_, _, hr, _⟩
    . rw [hr]
    . rw [hr]
    . rw [hr]

end ExecutionEngine

namespace OrderLink

variable {w w' : OrderLink}

theorem ex_send (w : OrderLink) (msgs : List OrderMsg) : (send w msgs).ex = w.ex := by
  induction msgs generalizing w with
  | nil => rfl
  | cons m msgs ih =>
    cases m with
    | O o =>
      unfold send
      rw [ih]
    | X id =>
      unfold send
      rw [ih]

theorem keeps_handle (w : OrderLink) (env : Env) (o : Option ReportFrame)
    : w.ex.om.Keeps (w.handle env o).ex.om ∧ (w.handle env o).ex.baseQty = w.ex.baseQty := by
  unfold handle
  split
  . exact ⟨OrderManager.Keeps.refl _, rfl⟩
  . exact ⟨OrderManager.Keeps.refl _, rfl⟩
  . split
    . exact ⟨OrderManager.Keeps.refl _, rfl⟩
    . dsimp only
      rw [ex_send]
      exact ⟨w.ex.keeps_onOrderReport env _, w.ex.baseQty_onOrderReport env _⟩

/--
The steps of the exchange and of the thread that receives its reports.
-/
def Action.ofVenue (a : Action) : Bool :=
  match a with
  | .submit _ _ _ _ | .cancel _ _ | .query _ | .mark _ _ => false
  | .exchangeRecv _ | .hangup | .recv _ | .frame _ => true

theorem keeps_step {a : Action} (ha : a.ofVenue = true) (h : step w a = some w')
    : w.ex.om.Keeps w'.ex.om ∧ w'.ex.baseQty = w.ex.baseQty := by
  cases a with
  | submit env sig strategyId type => cases ha
  | cancel env orderId => cases ha
  | query symbolId => cases ha
  | mark symbolId price => cases ha
  | exchangeRecv n =>
    unfold step at h
    dsimp only at h
    split at h
    . cases h
      exact ⟨OrderManager.Keeps.refl _, rfl⟩
    . cases h
  | hangup =>
    unfold step at h
    dsimp only at h
    split at h
    . cases h
      exact ⟨OrderManager.Keeps.refl _, rfl⟩
    . cases h
  | recv n =>
    unfold step at h
    dsimp only at h
    split at h
    . cases h
      exact ⟨OrderManager.Keeps.refl _, rfl⟩
    . cases h
  | frame env =>
    unfold step at h
    dsimp only at h
    split at h
    . cases h
    . next o stream _ =>
      cases h
      exact keeps_handle { w with stream := stream } env o

end OrderLink

end NebulaXTrader
