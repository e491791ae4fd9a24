import NebulaXTrader.Execution.Lemmas.ExecutionEngine
import NebulaXTrader.Execution.Lifecycle

/-!
This module contains the theorem about the cancel requests that a drawdown of the second level causes: the
orders that are working when it is noticed, and whose request can be sent, never work again.
-/

namespace NebulaXTrader

namespace OrderManager

def Later (om om' : OrderManager) : Prop := ∃ ops, om' = List.foldl apply om ops

theorem Later.refl (om : OrderManager) : om.Later om := ⟨[], rfl⟩

theorem Later.trans {om om' om'' : OrderManager} (h : om.Later om') (h' : om'.Later om'')
    : om.Later om'' := by
  cases h with
  | intro ops hops =>
    cases h' with
    | intro ops' hops' =>
      exists ops ++ ops'
      rw [List.foldl_append, ← hops]
      exact hops'

theorem Later.one (om : OrderManager) (op : Op) : om.Later (om.apply op) := ⟨[op], rfl⟩

theorem Fresh.apply {om : OrderManager} (h : om.Fresh) (op : Op) : (om.apply op).Fresh := by
  cases om.apply_cases op with
  | inl hnew =>
    cases hnew with
    | intro order heq =>
      subst heq
      intro i hi
      have hnext : om.nextId + 1 ≤ i := hi
      show (om.newOrder order).1.orders i = none
      rw [om.newOrder_orders_of_ne order (by omega)]
      apply h
      omega
  | inr hrest =>
    cases hrest with
    | inl hsame =>
      rw [hsame]
      exact h
    | inr hmoves =>
      cases hmoves with
      | intro id hmoves =>
        cases hmoves with
        | intro e hmoves =>
          cases hmoves with
          | intro e' hm =>
            intro i hi
            rw [hm.1.nextId] at hi
            have hnone := h i hi
            rw [hm.1.of_ne]
            . exact hnone
            . intro heq
              rw [heq, hm.1.known] at hnone
              cases hnone

theorem Later.fresh {om om' : OrderManager} (h : om.Later om') (hf : om.Fresh) : om'.Fresh := by
  cases h with
  | intro ops hops =>
    subst hops
    induction ops generalizing om with
    | nil => exact hf
    | cons op ops ih =>
      apply ih
      apply hf.apply

theorem Later.nextId_le {om om' : OrderManager} (h : om.Later om') : om.nextId ≤ om'.nextId := by
  cases h with
  | intro ops hops =>
    subst hops
    induction ops generalizing om with
    | nil => exact Nat.le_refl _
    | cons op ops ih =>
      apply Nat.le_trans _ (@ih (om.apply op))
      cases om.apply_cases op with
      | inl hnew =>
        cases hnew with
        | intro order heq =>
          subst heq
          exact Nat.le_succ _
      | inr hrest =>
        cases hrest with
        | inl hsame => rw [hsame]
        | inr hmoves =>
          cases hmoves with
          | intro id hmoves =>
            cases hmoves with
            | intro e hmoves =>
              cases hmoves with
              | intro e' hm => rw [hm.1.nextId]

theorem Later.stays {om om' : OrderManager} (h : om.Later om') (hf : om.Fresh) {p : OrderStatus → Bool}
    (hp : ∀ a b, p a → a.follows b → p b) (i : Nat) (hi : p (om.status i)) : p (om'.status i) := by
  cases h with
  | intro ops hops =>
    subst hops
    induction ops generalizing om with
    | nil => exact hi
    | cons op ops ih =>
      apply ih (hf.apply op)
      cases hf.follows op i with
      | inl hsame =>
        rw [hsame]
        exact hi
      | inr hfollows => exact hp _ _ hi hfollows

end OrderManager

def OrderStatus.isCancelling (a : OrderStatus) : Bool := a = .PENDING_CANCEL ∨ a = .CANCELLED

def OrderStatus.isWorking (a : OrderStatus) : Bool := a = .SUBMITTED ∨ a = .PARTIAL_FILL

def OrderStatus.isOver (a : OrderStatus) : Bool := a.isFinal ∨ a = .PENDING_CANCEL

theorem OrderStatus.isCancelling_closed (a b : OrderStatus) (h : a.isCancelling) (hab : a.follows b)
    : b.isCancelling := by
  revert h hab
  cases a with
  | _ =>
    cases b with
    | _ => decide

theorem OrderStatus.isOver_closed (a b : OrderStatus) (h : a.isOver) (hab : a.follows b)
    : b.isOver := by
  revert h hab
  cases a with
  | _ =>
    cases b with
    | _ => decide

namespace ExecutionEngine

open OrderManager

inductive Request where
  | submit (env : Env) (sig : Signal) (strategyId : Nat) (type : OrderType)
  | report (env : Env) (f : Fill)
  | fill (env : Env) (orderId filledQty : Nat) (fillPrice : Int)
  | cancel (env : Env) (orderId : Nat)
  | mark (symbolId : Nat) (price : Int)
  | flatten (env : Env)

def Request.env (c : Request) : Env :=
  match c with
  | .submit env _ _ _ => env
  | .report env _ => env
  | .fill env _ _ _ => env
  | .cancel env _ => env
  | .mark _ _ => {}
  | .flatten env => env

def serve (ex : ExecutionEngine) (c : Request) : ExecutionEngine × List OrderMsg :=
  match c with
  | .submit env sig strategyId type =>
    let (ex, _, msgs) := ex.submitSignal env sig strategyId type
    (ex, msgs)
  | .report env f => ex.onOrderReport env f
  | .fill env orderId filledQty fillPrice => ex.onOrderFill env orderId filledQty fillPrice
  | .cancel env orderId =>
    let (ex, _, msgs) := ex.cancelOrder env orderId
    (ex, msgs)
  | .mark symbolId price => ({ ex with rm := ex.rm.mark symbolId price }, [])
  | .flatten env => ex.flattenOnDrawdown env

def run (ex : ExecutionEngine) (calls : List Request) : ExecutionEngine :=
  calls.foldl (fun ex c => (ex.serve c).1) ex

def connected (config : RiskManager.Config) (baseQty : Nat) : ExecutionEngine where
  rm := .init config
  hasSender := true
  hasCodec := true
  baseQty := baseQty

def swept (ex : ExecutionEngine) (c : Request) : OrderManager :=
  match c with
  | .report _ f => if f.type = .E then ex.om.onFill f.orderId f.filledQty f.fillPrice else ex.om
  | .fill _ orderId filledQty fillPrice => ex.om.onFill orderId filledQty fillPrice
  | _ => ex.om

theorem flattenOnDrawdown_later (ex : ExecutionEngine) (env : Env)
    : ex.om.Later (ex.flattenOnDrawdown env).1.om := by
  apply ex.flattenOnDrawdown_ind env (P := fun om _ => ex.om.Later om)
  . exact .refl _
  . intro om msgs id e h _ _
    exact h.trans (.one om (.requestCancel id))
  . intro om msgs id e h _ _ _
    exact h.trans (.one om (.requestCancel id))

theorem serve_later (ex : ExecutionEngine) (c : Request) : ex.om.Later (ex.serve c).1.om := by
  cases c with
  | submit env sig strategyId type =>
    show ex.om.Later (ex.submitSignal env sig strategyId type).1.om
    cases ho : ex.orderFor sig strategyId type with
    | none =>
      rw [ex.submitSignal_none env ho]
      exact .refl _
    | some order =>
      have hnew : ex.om.Later (ex.om.newOrder order).1 := .one ex.om (.newOrder order)
      cases ex.submitSignal_cases env ho with
      | inl h =>
        rw [h.1]
        exact hnew.trans (.one _ (.onReject ex.om.nextId))
      | inr h =>
        cases h with
        | inl h =>
          rw [h.2.2.1]
          exact hnew
        | inr h =>
          rw [h.2.2.1]
          exact (hnew.trans (.one _ (.onAccept ex.om.nextId 0))).trans (.one _ (.onFill _ _ _))
  | report env f =>
    show ex.om.Later (ex.onOrderReport env f).1.om
    unfold onOrderReport
    split
    . exact .refl _
    . split
      . exact .one ex.om (.onAccept _ _)
      . exact (Later.one ex.om (.onFill f.orderId f.filledQty f.fillPrice)).trans
          (flattenOnDrawdown_later _ env)
      . exact .one ex.om (.onCancel _)
      . exact .one ex.om (.onReject _)
      . exact .refl _
  | fill env orderId filledQty fillPrice =>
    show ex.om.Later (ex.onOrderFill env orderId filledQty fillPrice).1.om
    unfold onOrderFill
    split
    . exact .refl _
    . exact (Later.one ex.om (.onFill orderId filledQty fillPrice)).trans
        (flattenOnDrawdown_later _ env)
  | cancel env orderId =>
    show ex.om.Later (ex.cancelOrder env orderId).1.om
    have hone := Later.one ex.om (.requestCancel orderId)
    unfold cancelOrder
    split
    . exact .refl _
    . split
      . exact .refl _
      . next om hreq =>
        have hom : ex.om.apply (.requestCancel orderId) = om := by
          show (ex.om.requestCancel orderId).1 = om
          rw [hreq]
        rw [hom] at hone
        split
        . exact hone
        . exact hone
        . exact hone
  | mark s p => exact .refl _
  | flatten env => exact flattenOnDrawdown_later ex env

theorem run_later (ex : ExecutionEngine) (calls : List Request) : ex.om.Later (ex.run calls).om := by
  induction calls generalizing ex with
  | nil => exact .refl _
  | cons c calls ih => exact (ex.serve_later c).trans (ih (ex.serve c).1)

section

variable (ex : ExecutionEngine) (env : Env) (s : OrderManager × List OrderMsg)

theorem flattenOrder_of_ne {id i : Nat} (h : i ≠ id)
    : (ex.flattenOrder env s id).1.orders i = s.1.orders i := by
  unfold flattenOrder
  split
  . rfl
  . next e he =>
    split
    . next hactive =>
      have hne := (requestCancel_writes he hactive).of_ne i h
      split
      . split
        . rfl
        . rfl
        . exact hne
      . exact hne
    . rfl

theorem flattenOrder_msgs (id : Nat) {msg : OrderMsg} (h : msg ∈ s.2)
    : msg ∈ (ex.flattenOrder env s id).2 := by
  unfold flattenOrder
  split
  . exact h
  . split
    . split
      . split
        . exact h
        . exact h
        . exact List.mem_append_left _ h
      . exact h
    . exact h

def Requested (om : OrderManager) (msgs : List OrderMsg) (id : Nat) : Prop :=
  om.status id = .PENDING_CANCEL ∧ .X id ∈ msgs

theorem flattenOrder_sent {id : Nat} (hwire : ex.hasSender ∧ ex.hasCodec)
    (hactive : (s.1.status id).isWorking) (hsent : env.wire id = .sent)
    : Requested (ex.flattenOrder env s id).1 (ex.flattenOrder env s id).2 id := by
  cases he : s.1.orders id with
  | none =>
    unfold status at hactive
    rw [he] at hactive
    cases hactive
  | some e =>
    have hisActive : e.isActive := by
      unfold status at hactive
      rw [he] at hactive
      exact hactive
    have hwrites := requestCancel_writes he hisActive
    have heq : ex.flattenOrder env s id = ((s.1.requestCancel id).1, s.2 ++ [.X id]) := by
      unfold flattenOrder
      rw [he]
      dsimp only
      rw [if_pos hisActive, if_pos hwire, hsent]
    rw [heq]
    constructor
    . cases hwrites.self with
      | intro e' h =>
        unfold status
        rw [h.1]
        exact h.2.2.1
    . simp

theorem flattenOrder_unsent {id : Nat} (hwire : ex.hasSender ∧ ex.hasCodec)
    (h : (s.1.status id).isWorking → env.wire id ≠ .sent)
    : (ex.flattenOrder env s id).1.status id = s.1.status id := by
  unfold flattenOrder
  split
  . rfl
  . next e he =>
    split
    . next hactive =>
      have hsent : env.wire id ≠ .sent := by
        apply h
        unfold status
        rw [he]
        exact hactive
      split
      . rfl
      . rfl
      . next hw => exact absurd hw hsent
    . rfl

theorem sweep_spec {ids : List Nat} (hnodup : ids.Nodup) (hwire : ex.hasSender ∧ ex.hasCodec) (id : Nat)
    : let r := ids.foldl (ex.flattenOrder env) s
      (id ∈ ids → (s.1.status id).isWorking → env.wire id = .sent → Requested r.1 r.2 id) ∧
      ((s.1.status id).isWorking → env.wire id ≠ .sent → r.1.status id = s.1.status id) ∧
      (Requested s.1 s.2 id → Requested r.1 r.2 id) ∧
      (¬ (s.1.status id).isWorking → r.1.status id = s.1.status id) := by
  -- What the sweep over `ids` does to a single order.
  induction ids generalizing s with
  | nil =>
    refine ⟨?_, fun _ _ => rfl, fun h => h, fun _ => rfl⟩
    intro hmem
    cases hmem
  | cons i ids ih =>
    rw [List.nodup_cons] at hnodup
    have hrest := ih (ex.flattenOrder env s i) hnodup.2
    intro r
    by_cases hi : id = i
    . subst hi
      refine ⟨?_, ?_, ?_, ?_⟩
      . intro _ hworking hsent
        exact hrest.2.2.1 (ex.flattenOrder_sent env s hwire hworking hsent)
      . intro hworking hsent
        have hsame := ex.flattenOrder_unsent env s hwire (fun _ => hsent)
        have hnext := hrest.2.1
        rw [hsame] at hnext
        exact hnext hworking hsent
      . intro hreq
        apply hrest.2.2.1
        constructor
        . rw [ex.flattenOrder_unsent env s hwire]
          . exact hreq.1
          . intro hworking
            rw [hreq.1] at hworking
            cases hworking
        . exact ex.flattenOrder_msgs env s _ hreq.2
      . intro hnot
        have hsame := ex.flattenOrder_unsent env s hwire (fun h => absurd h hnot)
        have hnext := hrest.2.2.2
        rw [hsame] at hnext
        exact hnext hnot
    . have hsame : (ex.flattenOrder env s i).1.status id = s.1.status id := by
        unfold status
        rw [ex.flattenOrder_of_ne env s hi]
      rw [hsame] at hrest
      refine ⟨?_, hrest.2.1, ?_, hrest.2.2.2⟩
      . intro hmem
        apply hrest.1
        cases List.mem_cons.1 hmem with
        | inl heq => exact absurd heq hi
        | inr hmem => exact hmem
      . intro hreq
        apply hrest.2.2.1
        constructor
        . rw [hsame]
          exact hreq.1
        . exact ex.flattenOrder_msgs env s _ hreq.2

end

theorem visit_nodup (env : Env) (om : OrderManager) : (env.visit om.ids).Nodup := by
  rw [(env.visit_perm om.ids).nodup_iff]
  unfold ids
  apply List.Nodup.filter
  exact List.nodup_range

theorem mem_visit (env : Env) {om : OrderManager} (hf : om.Fresh) {id : Nat}
    (h : om.status id ≠ .NOT_FOUND) : id ∈ env.visit om.ids := by
  rw [(env.visit_perm om.ids).mem_iff]
  unfold ids
  rw [List.mem_filter, List.mem_range]
  unfold status at h
  cases he : om.orders id with
  | none =>
    rw [he] at h
    exact absurd rfl h
  | some e =>
    constructor
    . apply Nat.lt_of_not_le
      intro hge
      rw [hf id hge] at he
      cases he
    . rfl

theorem flattenOnDrawdown_spec (ex : ExecutionEngine) (env : Env) (hf : ex.om.Fresh)
    (hwire : ex.hasSender ∧ ex.hasCodec) (hbefore : ex.flattenIssued = false)
    (hafter : (ex.flattenOnDrawdown env).1.flattenIssued) (id : Nat)
    : let r := ex.flattenOnDrawdown env
      ((ex.om.status id).isWorking → env.wire id = .sent → Requested r.1.om r.2 id) ∧
      ((r.1.om.status id).isWorking → (ex.om.status id).isWorking ∧ env.wire id ≠ .sent) ∧
      ((ex.om.status id).isOver → (r.1.om.status id).isOver) := by
  have heq : ex.flattenOnDrawdown env =
      ({ ex with
        om := ((env.visit ex.om.ids).foldl (ex.flattenOrder env) (ex.om, [])).1
        flattenIssued := true }, ((env.visit ex.om.ids).foldl (ex.flattenOrder env) (ex.om, [])).2) := by
    unfold flattenOnDrawdown at hafter ⊢
    rw [hbefore] at hafter ⊢
    rw [if_neg (by decide)] at hafter ⊢
    split at hafter
    . rw [hbefore] at hafter
      cases hafter
    . next hdd =>
      rw [if_neg hdd]
  have hspec := ex.sweep_spec env (ex.om, []) (visit_nodup env ex.om) hwire id
  intro r
  have hr : r = ex.flattenOnDrawdown env := rfl
  rw [heq] at hr
  rw [hr]
  refine ⟨?_, ?_, ?_⟩
  . intro hworking hsent
    apply hspec.1
    . apply mem_visit env hf
      intro hnot
      rw [hnot] at hworking
      cases hworking
    . exact hworking
    . exact hsent
  . intro hworking
    by_cases hold : (ex.om.status id).isWorking
    . constructor
      . exact hold
      . intro hsent
        have hreq := hspec.1 (mem_visit env hf (by
          intro hnot
          rw [hnot] at hold
          cases hold)) hold hsent
        rw [hreq.1] at hworking
        cases hworking
    . rw [hspec.2.2.2 hold] at hworking
      exact absurd hworking hold
  . intro hover
    have hnot : ¬ (ex.om.status id).isWorking := by
      intro hworking
      revert hover hworking
      cases ex.om.status id with
      | _ => decide
    dsimp only
    rw [hspec.2.2.2 hnot]
    exact hover

theorem serve_wired (ex : ExecutionEngine) (c : Request)
    : (ex.serve c).1.hasSender = ex.hasSender ∧ (ex.serve c).1.hasCodec = ex.hasCodec := by
  cases c with
  | submit env sig strategyId type =>
    show (ex.submitSignal env sig strategyId type).1.hasSender = _ ∧
      (ex.submitSignal env sig strategyId type).1.hasCodec = _
    cases ho : ex.orderFor sig strategyId type with
    | none =>
      rw [ex.submitSignal_none env ho]
      exact ⟨rfl, rfl⟩
    | some order =>
      cases ex.submitSignal_cases env ho with
      | inl h =>
        rw [h.1]
        exact ⟨rfl, rfl⟩
      | inr h =>
        cases h with
        | inl h =>
          rw [h.2.2.1]
          exact ⟨rfl, rfl⟩
        | inr h =>
          rw [h.2.2.1]
          exact ⟨rfl, rfl⟩
  | report env f =>
    show (ex.onOrderReport env f).1.hasSender = _ ∧ (ex.onOrderReport env f).1.hasCodec = _
    unfold onOrderReport
    split
    . exact ⟨rfl, rfl⟩
    . next e he =>
      split
      . exact ⟨rfl, rfl⟩
      . have hframe := flattenOnDrawdown_frame { ex with
          om := ex.om.onFill f.orderId f.filledQty f.fillPrice
          rm := ex.rm.onFill e.order f.filledQty } env
        exact ⟨hframe.2.1, hframe.2.2.1⟩
      . exact ⟨rfl, rfl⟩
      . exact ⟨rfl, rfl⟩
      . exact ⟨rfl, rfl⟩
  | fill env orderId filledQty fillPrice =>
    show (ex.onOrderFill env orderId filledQty fillPrice).1.hasSender = _ ∧
      (ex.onOrderFill env orderId filledQty fillPrice).1.hasCodec = _
    unfold onOrderFill
    split
    . exact ⟨rfl, rfl⟩
    . next e he =>
      have hframe := flattenOnDrawdown_frame { ex with
        om := ex.om.onFill orderId filledQty fillPrice
        rm := ex.rm.onFill e.order filledQty } env
      exact ⟨hframe.2.1, hframe.2.2.1⟩
  | cancel env orderId =>
    show (ex.cancelOrder env orderId).1.hasSender = _ ∧ (ex.cancelOrder env orderId).1.hasCodec = _
    unfold cancelOrder
    split
    . exact ⟨rfl, rfl⟩
    . split
      . exact ⟨rfl, rfl⟩
      . split
        . exact ⟨rfl, rfl⟩
        . exact ⟨rfl, rfl⟩
        . exact ⟨rfl, rfl⟩
  | mark s p => exact ⟨rfl, rfl⟩
  | flatten env =>
    have hframe := ex.flattenOnDrawdown_frame env
    exact ⟨hframe.2.1, hframe.2.2.1⟩

theorem run_wired (ex : ExecutionEngine) (calls : List Request)
    : (ex.run calls).hasSender = ex.hasSender ∧ (ex.run calls).hasCodec = ex.hasCodec := by
  induction calls generalizing ex with
  | nil => exact ⟨rfl, rfl⟩
  | cons c calls ih =>
    have hone := ex.serve_wired c
    have hrest := ih (ex.serve c).1
    exact ⟨hrest.1.trans hone.1, hrest.2.trans hone.2⟩

theorem serve_fires {ex : ExecutionEngine} {c : Request} (hbefore : ex.flattenIssued = false)
    (hafter : (ex.serve c).1.flattenIssued)
    : ∃ ex' : ExecutionEngine, ex'.om = ex.swept c ∧ ex'.hasSender = ex.hasSender ∧
        ex'.hasCodec = ex.hasCodec ∧ ex'.flattenIssued = false ∧
        ex.serve c = ex'.flattenOnDrawdown c.env := by
  -- Only the calls that assess the drawdown set the flag, and they do so in `flatten_on_drawdown`.
  cases c with
  | submit env sig strategyId type =>
    have hflag : (ex.submitSignal env sig strategyId type).1.flattenIssued = ex.flattenIssued := by
      cases ho : ex.orderFor sig strategyId type with
      | none => rw [ex.submitSignal_none env ho]
      | some order =>
        cases ex.submitSignal_cases env ho with
        | inl h => rw [h.1]
        | inr h =>
          cases h with
          | inl h => rw [h.2.2.1]
          | inr h => rw [h.2.2.1]
    have hafter : (ex.submitSignal env sig strategyId type).1.flattenIssued = true := hafter
    rw [hflag, hbefore] at hafter
    cases hafter
  | report env f =>
    have hafter : (ex.onOrderReport env f).1.flattenIssued = true := hafter
    show ∃ ex', _ ∧ _ ∧ _ ∧ _ ∧ ex.onOrderReport env f = _
    unfold onOrderReport at hafter ⊢
    split at hafter
    . rw [hbefore] at hafter
      cases hafter
    . split at hafter
      . rw [hbefore] at hafter
        cases hafter
      . next ht =>
        refine ⟨_, ?_, ?_, ?_, ?_, rfl⟩
        . unfold swept
          dsimp only
          rw [if_pos ht]
        . rfl
        . rfl
        . exact hbefore
      . rw [hbefore] at hafter
        cases hafter
      . rw [hbefore] at hafter
        cases hafter
      . rw [hbefore] at hafter
        cases hafter
  | fill env orderId filledQty fillPrice =>
    have hafter : (ex.onOrderFill env orderId filledQty fillPrice).1.flattenIssued = true := hafter
    show ∃ ex', _ ∧ _ ∧ _ ∧ _ ∧ ex.onOrderFill env orderId filledQty fillPrice = _
    unfold onOrderFill at hafter ⊢
    split at hafter
    . rw [hbefore] at hafter
      cases hafter
    . refine ⟨_, ?_, ?_, ?_, ?_, rfl⟩
      . rfl
      . rfl
      . rfl
      . exact hbefore
  | cancel env orderId =>
    have hflag : (ex.cancelOrder env orderId).1.flattenIssued = ex.flattenIssued := by
      unfold cancelOrder
      split
      . rfl
      . split
        . rfl
        . split
          . rfl
          . rfl
          . rfl
    have hafter : (ex.cancelOrder env orderId).1.flattenIssued = true := hafter
    rw [hflag, hbefore] at hafter
    cases hafter
  | mark s p =>
    have hafter : ex.flattenIssued = true := hafter
    rw [hbefore] at hafter
    cases hafter
  | flatten env => exact ⟨ex, rfl, rfl, rfl, hbefore, rfl⟩

/--
Let a call of a run be the one that sets the flag. An order that works at its sweep, and whose cancel request
can be sent, is requested to be cancelled and stays so. An order that works in a later state worked at the
sweep already but its request could not be sent, or was not yet accepted then, or did not exist.
-/
theorem flattened (config : RiskManager.Config) (baseQty : Nat) (pre post : List Request) (c : Request)
    (hbefore : ((connected config baseQty).run pre).flattenIssued = false)
    (hafter : (((connected config baseQty).run pre).serve c).1.flattenIssued) (id : Nat)
    : let ex := (connected config baseQty).run pre
      let now := (ex.swept c).status id
      let later := ((connected config baseQty).run (pre ++ c :: post)).om.status id
      (now.isWorking → c.env.wire id = .sent → .X id ∈ (ex.serve c).2 ∧ later.isCancelling) ∧
      (later.isWorking →
        (now.isWorking ∧ c.env.wire id ≠ .sent) ∨ now = .PENDING ∨ now = .NOT_FOUND) := by
  intro ex now later
  have hinit : Fresh (connected config baseQty).om := fun _ _ => rfl
  have hfresh : ex.om.Fresh := (run_later _ pre).fresh hinit
  have hwired := run_wired (connected config baseQty) pre
  have hlater : (ex.serve c).1.om.Later ((connected config baseQty).run (pre ++ c :: post)).om := by
    have hrun : (connected config baseQty).run (pre ++ c :: post) = (ex.serve c).1.run post := by
      unfold run
      rw [List.foldl_append]
      rfl
    rw [hrun]
    apply run_later
  have hfresh₁ : (ex.serve c).1.om.Fresh := (ex.serve_later c).fresh hfresh
  cases serve_fires hbefore hafter with
  | intro ex' h =>
    have hcall := h.2.2.2.2
    have hfresh' : ex'.om.Fresh := by
      rw [h.1]
      unfold swept
      split
      . split
        . exact hfresh.apply (.onFill _ _ _)
        . exact hfresh
      . exact hfresh.apply (.onFill _ _ _)
      . exact hfresh
    have hissued : (ex'.flattenOnDrawdown c.env).1.flattenIssued := by
      rw [← hcall]
      exact hafter
    have hspec := ex'.flattenOnDrawdown_spec c.env hfresh' ⟨h.2.1.trans hwired.1, h.2.2.1.trans hwired.2⟩
      h.2.2.2.1 hissued id
    rw [← hcall, h.1] at hspec
    constructor
    . intro hworking hsent
      have hreq := hspec.1 hworking hsent
      constructor
      . exact hreq.2
      . apply hlater.stays hfresh₁ OrderStatus.isCancelling_closed
        rw [hreq.1]
        rfl
    . intro hworking
      by_cases hold : now.isWorking
      . apply Or.inl
        constructor
        . exact hold
        . intro hsent
          have hcancelling := hlater.stays hfresh₁ OrderStatus.isCancelling_closed id (by
            rw [(hspec.1 hold hsent).1]
            rfl)
          have hclash : later.isCancelling := hcancelling
          revert hworking hclash
          cases later with
          | _ => decide
      . apply Or.inr
        have hnotOver : ¬ now.isOver := by
          intro hover
          have hlast : later.isOver :=
            hlater.stays hfresh₁ OrderStatus.isOver_closed id (hspec.2.2 hover)
          revert hworking hlast
          cases later with
          | _ => decide
        revert hold hnotOver
        cases now with
        | _ => decide

def fall : List Request := [
  .submit {} ⟨.BUY, 1, 10000, 0, 10000⟩ 1 .LIMIT,
  .submit {} ⟨.BUY, 2, 10000, 0, 10000⟩ 1 .LIMIT,
  .report {} { type := .A, orderId := 1, exchangeRef := 1 },
  .report {} { type := .E, orderId := 1, exchangeRef := 1, filledQty := 40, fillPrice := 10000 },
  .mark 1 1000
]

def nextExecution : Request :=
  .report {} { type := .E, orderId := 1, exchangeRef := 1, filledQty := 10, fillPrice := 10000 }

def fallLimits : RiskManager.Config where
  maxPosition := 10000
  initialEquity := 1000000
  maxDrawdownPause := 1000000000
  maxDrawdownFlatten := 100000

theorem flattened_fall
    : let ex := (connected fallLimits 100).run fall
      let now := (ex.swept nextExecution).status 1
      let later := ((connected fallLimits 100).run (fall ++ [nextExecution])).om.status 1
      (now.isWorking → nextExecution.env.wire 1 = .sent →
        .X 1 ∈ (ex.serve nextExecution).2 ∧ later.isCancelling) ∧
      (later.isWorking → (now.isWorking ∧ nextExecution.env.wire 1 ≠ .sent) ∨ now = .PENDING ∨
        now = .NOT_FOUND) :=
  flattened fallLimits 100 fall [] nextExecution (by decide +kernel) (by decide +kernel) 1

theorem not_flattened
    : let ex := (connected fallLimits 100).run
        (fall ++ [nextExecution, .report {} { type := .A, orderId := 2, exchangeRef := 2 }])
      ex.flattenIssued ∧ ex.om.status 2 = .SUBMITTED := by
  -- The second order was not accepted yet at the sweep. It is accepted after it, and works on.
  decide +kernel

end ExecutionEngine

end NebulaXTrader
