import NebulaXTrader.Execution.Flatten
import NebulaXTrader.Execution.Lemmas.OrderCodec
import NebulaXTrader.Lib.Chain

/-!
This module contains the theorem about the choice of the order protocol: the engine ignores the reports of
`CustomOrderCodec`, so both protocols lead to the same state only in runs without an acknowledgement.
-/

namespace NebulaXTrader

/--
A trader and an exchange that talk through a codec on each side. The exchange keeps the orders it received
and the ids of those it accepted.
-/
structure World (c : OrderCodec) where
  ex : ExecutionEngine
  trader : c.State
  venue : c.State
  received : List Order
  accepted : List Nat

namespace World

inductive Event where
  | submit (env : Env) (sig : Signal) (strategyId : Nat) (type : OrderType)
  | mark (symbolId : Nat) (price : Int)
  | accept (env : Env) (orderId : Nat)
  | execute (env : Env) (orderId qty : Nat) (price : Int)

variable {c : OrderCodec}

def init (c : OrderCodec) (config : RiskManager.Config) (baseQty : Nat) : World c where
  ex := .connected config baseQty
  trader := c.init
  venue := c.init
  received := []
  accepted := []

def send (w : World c) (msgs : List OrderMsg) : World c :=
  match msgs with
  | [] => w
  | .X _ :: msgs => w.send msgs
  | .O o :: msgs =>
    let (trader, frame) := c.encodeOrder w.trader o
    send { w with
      trader := trader
      received := w.received ++ (c.decodeOrder frame).toList } msgs

def deliver (w : World c) (env : Env) (frame : List UInt8) : World c :=
  let (trader, fill) := c.decodeFill w.trader frame
  match fill with
  | none => { w with trader := trader }
  | some f => { w with trader := trader, ex := (w.ex.onOrderReport env f).1 }

/--
An exchange accepts an order once, and executes orders that it accepted. It acknowledges the acceptance if
the protocol has a message for it.
-/
def step (w : World c) (e : Event) : World c :=
  match e with
  | .submit env sig strategyId type =>
    let (ex, _, msgs) := w.ex.submitSignal env sig strategyId type
    send { w with ex := ex } msgs
  | .mark symbolId price => { w with ex := { w.ex with rm := w.ex.rm.mark symbolId price } }
  | .accept env orderId =>
    match w.received.find? (fun o => o.orderId = orderId) with
    | none => w
    | some o =>
      if orderId ∈ w.accepted then
        w
      else
        let w := { w with accepted := orderId :: w.accepted }
        match c.encodeAck with
        | none => w
        | some encodeAck =>
          let (venue, frame) := encodeAck w.venue o
          deliver { w with venue := venue } env frame
  | .execute env orderId qty price =>
    if orderId ∈ w.accepted then
      let (venue, frame) := c.encodeFill w.venue orderId qty price
      deliver { w with venue := venue } env frame
    else
      w

def run (w : World c) (events : List Event) : World c := events.foldl step w

def Agree {c d : OrderCodec} (w : World c) (v : World d) : Prop :=
  (∀ id, w.ex.om.status id = v.ex.om.status id) ∧
  (∀ id, (w.ex.om.orders id).map OrderManager.Entry.filled =
    (v.ex.om.orders id).map OrderManager.Entry.filled) ∧
  ∀ s, w.ex.rm.position s = v.ex.rm.position s

def unreported (ex : ExecutionEngine) (e : Event) : ExecutionEngine :=
  match e with
  | .submit env sig strategyId type => (ex.submitSignal env sig strategyId type).1
  | .mark symbolId price => { ex with rm := ex.rm.mark symbolId price }
  | .accept _ _ => ex
  | .execute _ _ _ _ => ex

theorem send_ex (w : World c) (msgs : List OrderMsg) : (w.send msgs).ex = w.ex := by
  induction msgs generalizing w with
  | nil => rfl
  | cons msg msgs ih =>
    cases msg with
    | O o => exact ih _
    | X id => exact ih _

theorem send_accepted (w : World c) (msgs : List OrderMsg) : (w.send msgs).accepted = w.accepted := by
  induction msgs generalizing w with
  | nil => rfl
  | cons msg msgs ih =>
    cases msg with
    | O o => exact ih _
    | X id => exact ih _

theorem deliver_accepted (w : World c) (env : Env) (frame : List UInt8)
    : (w.deliver env frame).accepted = w.accepted := by
  unfold deliver
  dsimp only
  split
  . rfl
  . rfl

theorem custom_step_ex (w : World CustomOrderCodec.codec) (e : Event)
    : (w.step e).ex = unreported w.ex e := by
  -- The engine drops the executions of the custom protocol, and this protocol has no
  -- acknowledgements.
  cases e with
  | submit env sig strategyId type => exact send_ex _ _
  | mark s p => rfl
  | accept env orderId =>
    show (w.step _).ex = w.ex
    unfold step
    dsimp only
    split
    . rfl
    . split
      . rfl
      . rfl
  | execute env orderId qty price =>
    show (w.step _).ex = w.ex
    unfold step
    dsimp only
    split
    . unfold deliver
      dsimp only
      split
      . rfl
      . next f hf =>
        have htype := CustomOrderCodec.codec_decodeFill_type hf
        show (w.ex.onOrderReport env f).1 = w.ex
        unfold ExecutionEngine.onOrderReport
        split
        . rfl
        . rw [htype]
    . rfl

theorem custom_run_ex (w : World CustomOrderCodec.codec) (events : List Event)
    : (w.run events).ex = events.foldl unreported w.ex := by
  induction events generalizing w with
  | nil => rfl
  | cons e events ih =>
    show ((w.step e).run events).ex = _
    rw [ih, custom_step_ex]
    rfl

theorem accepted_mono (w : World c) (e : Event) : w.accepted ⊆ (w.step e).accepted := by
  cases e with
  | submit env sig strategyId type =>
    show w.accepted ⊆ (send _ _).accepted
    rw [send_accepted]
    exact fun _ h => h
  | mark s p => exact fun _ h => h
  | accept env orderId =>
    unfold step
    dsimp only
    split
    . exact fun _ h => h
    . split
      . exact fun _ h => h
      . split
        . exact List.subset_cons_self _ _
        . rw [deliver_accepted]
          exact List.subset_cons_self _ _
  | execute env orderId qty price =>
    unfold step
    dsimp only
    split
    . rw [deliver_accepted]
      exact fun _ h => h
    . exact fun _ h => h

theorem run_accepted_mono (w : World c) (events : List Event) : w.accepted ⊆ (w.run events).accepted := by
  induction events generalizing w with
  | nil => exact fun _ h => h
  | cons e events ih => exact fun id h => ih (w.step e) (w.accepted_mono e h)

theorem step_ex_of_accepted_nil (w : World c) (e : Event) (h : (w.step e).accepted = [])
    : (w.step e).ex = unreported w.ex e := by
  have hmono := w.accepted_mono e
  rw [h] at hmono
  have hnil : w.accepted = [] := List.subset_nil.1 hmono
  cases e with
  | submit env sig strategyId type => exact send_ex _ _
  | mark s p => rfl
  | accept env orderId =>
    show (w.step _).ex = w.ex
    unfold step at h ⊢
    dsimp only at h ⊢
    split at h
    . rfl
    . split at h
      . next hmem =>
        rw [hnil] at hmem
        cases hmem
      . split at h
        . cases h
        . rw [deliver_accepted] at h
          cases h
  | execute env orderId qty price =>
    show (w.step _).ex = w.ex
    unfold step
    dsimp only
    rw [hnil, if_neg (List.not_mem_nil)]

theorem run_ex_of_accepted_nil (w : World c) (events : List Event) (h : (w.run events).accepted = [])
    : (w.run events).ex = events.foldl unreported w.ex := by
  induction events generalizing w with
  | nil => rfl
  | cons e events ih =>
    have hfirst : (w.step e).accepted = [] := by
      have hmono := (w.step e).run_accepted_mono events
      rw [show (w.step e).run events = w.run (e :: events) from rfl, h] at hmono
      exact List.subset_nil.1 hmono
    show ((w.step e).run events).ex = _
    rw [ih (w.step e) h, w.step_ex_of_accepted_nil e hfirst]
    rfl

open OrderManager

theorem submit_spec {ex : ExecutionEngine} (hsender : ex.hasSender) (env : Env) (sig : Signal)
    (strategyId : Nat) (type : OrderType)
    : let r := ex.submitSignal env sig strategyId type
      (r.1 = ex ∧ r.2.2 = []) ∨
      (r.1.om.nextId = ex.om.nextId + 1 ∧
        (∀ i, i ≠ ex.om.nextId → r.1.om.status i = ex.om.status i) ∧
        ((r.1.om.status ex.om.nextId = .REJECTED ∧ r.2.2 = []) ∨
          ∃ o, o.orderId = ex.om.nextId ∧ r.1.om.status ex.om.nextId = .PENDING ∧ r.2.2 = [.O o])) := by
  intro r
  cases ho : ex.orderFor sig strategyId type with
  | none =>
    have hr : r = (ex, 0, []) := ex.submitSignal_none env ho
    rw [hr]
    exact Or.inl ⟨rfl, rfl⟩
  | some order =>
    apply Or.inr
    have hcases := ex.submitSignal_cases env ho
    cases ex.om.newOrder_orders order with
    | intro e he =>
      have hne : ∀ i, i ≠ ex.om.nextId → (ex.om.newOrder order).1.status i = ex.om.status i := by
        intro i hi
        unfold status
        rw [ex.om.newOrder_orders_of_ne order hi]
      cases hcases with
      | inl hreject =>
        have hw := onReject_writes he.1 he.2.2.1
        rw [show r.1 = _ from hreject.1]
        refine ⟨?_, ?_, Or.inl ⟨?_, hreject.2⟩⟩
        . exact hw.nextId
        . intro i hi
          rw [← hne i hi]
          unfold status
          dsimp only
          rw [hw.of_ne i hi]
        . cases hw.self with
          | intro e' he' =>
            unfold status
            dsimp only
            rw [he'.1]
            exact he'.2.2.1
      | inr hcases =>
        cases hcases with
        | inl hsent =>
          rw [show r.1 = _ from hsent.2.2.1]
          refine ⟨rfl, hne, Or.inr ⟨_, rfl, ?_, hsent.2.2.2⟩⟩
          unfold status
          dsimp only
          rw [he.1]
          exact he.2.2.1
        | inr hsim => exact absurd hsender hsim.1

structure Unanswered (ex : ExecutionEngine) : Prop where
  sender : ex.hasSender
  status : ∀ i, ex.om.status i = .NOT_FOUND ∨ ex.om.status i = .PENDING ∨ ex.om.status i = .REJECTED

theorem Unanswered.unreported {ex : ExecutionEngine} (h : Unanswered ex) (e : Event)
    : Unanswered (unreported ex e) := by
  cases e with
  | submit env sig strategyId type =>
    have hwired : (ex.submitSignal env sig strategyId type).1.hasSender = ex.hasSender :=
      (ex.serve_wired (.submit env sig strategyId type)).1
    constructor
    . exact hwired.trans h.sender
    . intro i
      rw [show World.unreported ex (.submit env sig strategyId type) =
        (ex.submitSignal env sig strategyId type).1 from rfl]
      cases submit_spec h.sender env sig strategyId type with
      | inl hsame =>
        rw [hsame.1]
        exact h.status i
      | inr hnew =>
        by_cases hi : i = ex.om.nextId
        . subst hi
          cases hnew.2.2 with
          | inl hreject => exact Or.inr (Or.inr hreject.1)
          | inr hsent =>
            cases hsent with
            | intro o ho => exact Or.inr (Or.inl ho.2.1)
        . rw [hnew.2.1 i hi]
          exact h.status i
  | mark s p => exact ⟨h.sender, h.status⟩
  | accept env orderId => exact h
  | execute env orderId qty price => exact h

theorem Unanswered.run {ex : ExecutionEngine} (h : Unanswered ex) (events : List Event)
    : Unanswered (events.foldl World.unreported ex) := by
  induction events generalizing ex with
  | nil => exact h
  | cons e events ih => exact ih (h.unreported e)

end World

def OrderStatus.isAccepted (a : OrderStatus) : Bool :=
  a ≠ .NOT_FOUND ∧ a ≠ .PENDING ∧ a ≠ .REJECTED

theorem OrderStatus.isAccepted_closed (a b : OrderStatus) (h : a.isAccepted) (hab : a.follows b)
    : b.isAccepted := by
  revert h hab
  cases a with
  | _ =>
    cases b with
    | _ => decide

namespace World

open OrderManager OuchOrderCodec

/--
What holds between the two sides while the ids fit into a token: each accepted order has a reference number
that the trader has learned, and the orders that are received but not accepted are still pending.
-/
structure Linked (w : World OuchOrderCodec.codec) : Prop where
  fresh : w.ex.om.Fresh
  sender : w.ex.hasSender
  received : ∀ o ∈ w.received, o.orderId < w.ex.om.nextId ∧
    (o.orderId ∉ w.accepted → w.ex.om.status o.orderId = .PENDING)
  accepted : ∀ id ∈ w.accepted, id < w.ex.om.nextId ∧ (w.ex.om.status id).isAccepted
  nodup : w.accepted.Nodup
  learned : ∀ id ∈ w.accepted, ∃ ref, OuchOrderCodec.idToRef w.venue id = some ref ∧
    OuchOrderCodec.refToId w.trader ref = some id
  assigned : ∀ id ref, OuchOrderCodec.idToRef w.venue id = some ref →
    id ∈ w.accepted ∧ ref < OuchOrderCodec.nextRef w.venue
  known : ∀ ref id, OuchOrderCodec.refToId w.trader ref = some id →
    ref < OuchOrderCodec.nextRef w.venue
  nextRef : OuchOrderCodec.nextRef w.venue = w.accepted.length + 1

theorem Linked.init (config : RiskManager.Config) (baseQty : Nat)
    : Linked (init OuchOrderCodec.codec config baseQty) := by
  constructor
  . intro i _
    rfl
  . rfl
  . intro o ho
    cases ho
  . intro id hid
    cases hid
  . exact List.nodup_nil
  . intro id hid
    cases hid
  . intro id ref h
    cases h
  . intro ref id h
    cases h
  . rfl

theorem send_order (w : World OuchOrderCodec.codec) (o : Order)
    : w.send [.O o] = { w with
        trader := (OuchOrderCodec.encodeOrder w.trader o).1
        received := w.received ++ (decodeOrder (OuchOrderCodec.encodeOrder w.trader o).2).toList } := by
  simp only [send, codec_encodeOrder, codec_decodeOrder]

theorem Linked.submit {w : World OuchOrderCodec.codec} (h : Linked w) (env : Env) (sig : Signal)
    (strategyId : Nat) (type : OrderType)
    (hsmall : (w.step (.submit env sig strategyId type)).ex.om.nextId ≤ 10 ^ 14)
    : Linked (w.step (.submit env sig strategyId type)) := by
  have hstep : w.step (.submit env sig strategyId type) =
      send { w with ex := (w.ex.submitSignal env sig strategyId type).1 }
        (w.ex.submitSignal env sig strategyId type).2.2 := rfl
  have hex := send_ex { w with ex := (w.ex.submitSignal env sig strategyId type).1 }
    (w.ex.submitSignal env sig strategyId type).2.2
  rw [← hstep] at hex
  have hwired : (w.ex.submitSignal env sig strategyId type).1.hasSender = w.ex.hasSender :=
    (w.ex.serve_wired (.submit env sig strategyId type)).1
  have hlater : w.ex.om.Later (w.ex.submitSignal env sig strategyId type).1.om :=
    w.ex.serve_later (.submit env sig strategyId type)
  have hfresh := hlater.fresh h.fresh
  cases submit_spec h.sender env sig strategyId type with
  | inl hsame =>
    rw [hstep, hsame.1, hsame.2]
    exact h
  | inr hnew =>
    rw [hex] at hsmall
    -- the orders that the exchange knew before are older than the new one
    have hold : ∀ i, i < w.ex.om.nextId →
        (w.ex.submitSignal env sig strategyId type).1.om.status i = w.ex.om.status i := by
      intro i hi
      apply hnew.2.1
      omega
    have hreceived : ∀ o ∈ w.received, o.orderId < (w.ex.submitSignal env sig strategyId type).1.om.nextId ∧
        (o.orderId ∉ w.accepted →
          (w.ex.submitSignal env sig strategyId type).1.om.status o.orderId = .PENDING) := by
      intro o ho
      have hbefore := h.received o ho
      constructor
      . omega
      . intro hnot
        rw [hold o.orderId hbefore.1]
        exact hbefore.2 hnot
    have haccepted : ∀ id ∈ w.accepted, id < (w.ex.submitSignal env sig strategyId type).1.om.nextId ∧
        ((w.ex.submitSignal env sig strategyId type).1.om.status id).isAccepted := by
      intro id hid
      have hbefore := h.accepted id hid
      constructor
      . omega
      . rw [hold id hbefore.1]
        exact hbefore.2
    cases hnew.2.2 with
    | inl hreject =>
      rw [hstep, hreject.2]
      exact ⟨hfresh, hwired.trans h.sender, hreceived, haccepted, h.nodup, h.learned, h.assigned,
        h.known, h.nextRef⟩
    | inr hsent =>
      cases hsent with
      | intro o ho =>
        have hid : o.orderId < 10 ^ 14 := by
          have hnext : (w.ex.submitSignal env sig strategyId type).1.om.nextId ≤ 10 ^ 14 := hsmall
          omega
        cases decodeOrder_orderId w.trader hid with
        | intro o' ho' =>
          rw [hstep, ho.2.2, send_order]
          have htrader : OuchOrderCodec.refToId (OuchOrderCodec.encodeOrder w.trader o).1 =
              OuchOrderCodec.refToId w.trader := encodeOrder_refToId w.trader o
          have hone : (decodeOrder (OuchOrderCodec.encodeOrder w.trader o).2).toList = [o'] := by
            rw [ho'.1]
            rfl
          refine ⟨hfresh, hwired.trans h.sender, ?_, haccepted, h.nodup, ?_, h.assigned, ?_, h.nextRef⟩
          rotate_left
          . intro id hmem
            dsimp only
            rw [htrader]
            exact h.learned id hmem
          . intro ref id href
            dsimp only at href
            rw [htrader] at href
            exact h.known ref id href
          dsimp only
          rw [hone]
          intro o₁ ho₁
          cases List.mem_append.1 ho₁ with
          | inl hmem => exact hreceived o₁ hmem
          | inr hmem =>
            rw [List.mem_singleton.1 hmem, ho'.2, ho.1]
            constructor
            . omega
            . intro _
              exact ho.2.1

theorem report_pending (ex : ExecutionEngine) (env : Env) (f : Fill) {i : Nat} (hi : i ≠ f.orderId)
    (h : ex.om.status i = .PENDING) : (ex.onOrderReport env f).1.om.status i = .PENDING := by
  have hset : ∀ om : OrderManager, om.orders i = ex.om.orders i → om.status i = .PENDING := by
    intro om hsame
    unfold status at h ⊢
    rw [hsame]
    exact h
  cases hother : ex.om.orders i with
  | none =>
    unfold status at h
    rw [hother] at h
    cases h
  | some e =>
    have hpending : e.status = .PENDING := by
      unfold status at h
      rw [hother] at h
      exact h
    unfold ExecutionEngine.onOrderReport
    split
    . exact h
    . next e₁ he₁ =>
      split
      . apply hset
        by_cases hs : e₁.status = .PENDING
        . exact (onAccept_writes _ he₁ hs).of_ne i hi
        . rw [onAccept_eq _ he₁ hs]
      . have hfill : (ex.om.onFill f.orderId f.filledQty f.fillPrice).orders i = some e := by
          rw [← hother]
          by_cases hs : e₁.isActive
          . exact (onFill_writes _ _ he₁ hs).of_ne i hi
          . rw [onFill_eq _ _ he₁ hs]
        have hnot : ¬ e.isActive := by
          unfold Entry.isActive
          rw [hpending]
          decide
        apply hset
        rw [hother]
        exact ExecutionEngine.flattenOnDrawdown_entry _ env hfill hnot
      . apply hset
        by_cases hs : e₁.status = .PENDING_CANCEL
        . exact (onCancel_writes he₁ hs).of_ne i hi
        . rw [onCancel_eq he₁ hs]
      . apply hset
        by_cases hs : e₁.status = .PENDING
        . exact (onReject_writes he₁ hs).of_ne i hi
        . rw [onReject_eq he₁ hs]
      . exact h

theorem report_later (ex : ExecutionEngine) (env : Env) (f : Fill)
    : ex.om.Later (ex.onOrderReport env f).1.om :=
  ex.serve_later (.report env f)

theorem Linked.length_lt {w : World OuchOrderCodec.codec} (h : Linked w)
    (hsmall : w.ex.om.nextId ≤ 10 ^ 14) : w.accepted.length < 2 ^ 63 := by
  have hle := Chain.length_le_of_nodup_of_lt h.nodup (fun id hid => (h.accepted id hid).1)
  omega

theorem report_accept_status (ex : ExecutionEngine) (env : Env) {orderId ref : Nat}
    (h : ex.om.status orderId = .PENDING)
    : (ex.onOrderReport env ⟨.A, orderId, ref, 0, 0⟩).1.om.status orderId = .SUBMITTED := by
  cases he : ex.om.orders orderId with
  | none =>
    unfold status at h
    rw [he] at h
    cases h
  | some e =>
    have hs : e.status = .PENDING := by
      unfold status at h
      rw [he] at h
      exact h
    have hex : (ex.onOrderReport env ⟨.A, orderId, ref, 0, 0⟩).1.om = ex.om.onAccept orderId ref := by
      unfold ExecutionEngine.onOrderReport
      dsimp only
      rw [he]
    rw [hex]
    cases (onAccept_writes ref he hs).self with
    | intro e' he' =>
      unfold status
      rw [he'.1]
      exact he'.2.2.1

theorem Linked.reported {w : World OuchOrderCodec.codec} (h : Linked w) (env : Env) (f : Fill)
    {ids : List Nat} (hids : ∀ id, id ∈ ids ↔ id = f.orderId ∨ id ∈ w.accepted)
    (hlt : f.orderId < w.ex.om.nextId)
    (haccepted : ((w.ex.onOrderReport env f).1.om.status f.orderId).isAccepted)
    : let ex := (w.ex.onOrderReport env f).1
      ex.om.Fresh ∧ ex.hasSender ∧
      (∀ o ∈ w.received, o.orderId < ex.om.nextId ∧
        (o.orderId ∉ ids → ex.om.status o.orderId = .PENDING)) ∧
      ∀ id ∈ ids, id < ex.om.nextId ∧ (ex.om.status id).isAccepted := by
  -- A report about an accepted order, or one that becomes accepted, keeps the orders of both sides
  -- in step.
  intro ex
  have hlater : w.ex.om.Later ex.om := report_later w.ex env f
  have hwired : ex.hasSender = w.ex.hasSender := (w.ex.serve_wired (.report env f)).1
  have hnext := hlater.nextId_le
  refine ⟨hlater.fresh h.fresh, hwired.trans h.sender, ?_, ?_⟩
  . intro o ho
    have hbefore := h.received o ho
    constructor
    . omega
    . intro hnot
      rw [hids] at hnot
      apply report_pending w.ex env f
      . exact fun heq => hnot (Or.inl heq)
      . exact hbefore.2 (fun hmem => hnot (Or.inr hmem))
  . intro id hid
    cases (hids id).1 hid with
    | inl heq =>
      subst heq
      constructor
      . omega
      . exact haccepted
    | inr hmem =>
      have hbefore := h.accepted id hmem
      constructor
      . omega
      . exact hlater.stays h.fresh OrderStatus.isAccepted_closed id hbefore.2

theorem step_later {c : OrderCodec} (w : World c) (e : Event) : w.ex.om.Later (w.step e).ex.om := by
  have hdeliver : ∀ (v : World c) (env : Env) (frame : List UInt8),
      v.ex.om.Later (v.deliver env frame).ex.om := by
    intro v env frame
    unfold deliver
    dsimp only
    split
    . exact .refl _
    . exact report_later v.ex env _
  cases e with
  | submit env sig strategyId type =>
    show w.ex.om.Later (send _ _).ex.om
    rw [send_ex]
    exact w.ex.serve_later (.submit env sig strategyId type)
  | mark s p => exact .refl _
  | accept env orderId =>
    unfold step
    dsimp only
    split
    . exact .refl _
    . split
      . exact .refl _
      . split
        . exact .refl _
        . exact hdeliver _ env _
  | execute env orderId qty price =>
    unfold step
    dsimp only
    split
    . exact hdeliver _ env _
    . exact .refl _

theorem run_later {c : OrderCodec} (w : World c) (events : List Event)
    : w.ex.om.Later (w.run events).ex.om := by
  induction events generalizing w with
  | nil => exact .refl _
  | cons e events ih => exact (w.step_later e).trans (ih (w.step e))

theorem deliver_some (w : World OuchOrderCodec.codec) (env : Env) {frame : List UInt8}
    {trader : OuchOrderCodec} {f : Fill} (h : OuchOrderCodec.decodeFill w.trader frame = (trader, some f))
    : w.deliver env frame =
      { w with trader := trader, ex := (w.ex.onOrderReport env f).1 } := by
  unfold deliver
  rw [codec_decodeFill, h]

theorem Linked.accept {w : World OuchOrderCodec.codec} (h : Linked w) (env : Env) (orderId : Nat)
    (hsmall : w.ex.om.nextId ≤ 10 ^ 14) : Linked (w.step (.accept env orderId)) := by
  cases hfind : w.received.find? (fun o => o.orderId = orderId) with
  | none =>
    have hstep : w.step (.accept env orderId) = w := by
      unfold step
      dsimp only
      rw [hfind]
    rw [hstep]
    exact h
  | some o =>
    have ho : o.orderId = orderId := by simpa using List.find?_some hfind
    subst ho
    have hreceived := h.received o (List.mem_of_find?_eq_some hfind)
    by_cases hmem : o.orderId ∈ w.accepted
    . have hstep : w.step (.accept env o.orderId) = w := by
        unfold step
        dsimp only
        rw [hfind]
        exact if_pos hmem
      rw [hstep]
      exact h
    . have hpending := hreceived.2 hmem
      have hlength := h.length_lt hsmall
      have hnextRef := h.nextRef
      have hnone : OuchOrderCodec.idToRef w.venue o.orderId = none := by
        cases href : OuchOrderCodec.idToRef w.venue o.orderId with
        | none => rfl
        | some ref => exact absurd (h.assigned _ _ href).1 hmem
      have hunknown : OuchOrderCodec.refToId w.trader (OuchOrderCodec.nextRef w.venue) = none := by
        cases hid : OuchOrderCodec.refToId w.trader (OuchOrderCodec.nextRef w.venue) with
        | none => rfl
        | some id => exact absurd (h.known _ _ hid) (lt_irrefl _)
      have href := OuchOrderCodec.refFor_of_none hnone
      have hread := decodeFill_encodeAck w.venue w.trader (o := o) (by omega)
      have hvenue : (OuchOrderCodec.encodeAck w.venue o).1 =
          (OuchOrderCodec.refFor w.venue o.orderId).1 := rfl
      rw [href] at hvenue hread
      dsimp only at hvenue hread
      rw [Nat.mod_eq_of_lt (show OuchOrderCodec.nextRef w.venue < 2 ^ 64 by omega),
        OuchOrderCodec.orderOf_of_none hunknown] at hread
      rw [Nat.mod_eq_of_lt (show OuchOrderCodec.nextRef w.venue + 1 < 2 ^ 64 by omega)] at hvenue
      have hstep : w.step (.accept env o.orderId) =
          deliver { w with
            accepted := o.orderId :: w.accepted
            venue := (OuchOrderCodec.encodeAck w.venue o).1 } env
            (OuchOrderCodec.encodeAck w.venue o).2 := by
        unfold step
        dsimp only
        rw [hfind]
        dsimp only
        rw [if_neg hmem, codec_encodeAck]
      rw [hstep.trans (deliver_some _ env hread), hvenue]
      have hreport := h.reported env
        { type := .A, orderId := o.orderId, exchangeRef := OuchOrderCodec.nextRef w.venue, filledQty := 0,
          fillPrice := 0 }
        (fun id => List.mem_cons) hreceived.1
        (by
          rw [report_accept_status w.ex env hpending]
          rfl)
      refine ⟨hreport.1, hreport.2.1, hreport.2.2.1, hreport.2.2.2, List.nodup_cons.2 ⟨hmem, h.nodup⟩,
        ?_, ?_, ?_, ?_⟩
      . intro id hid
        dsimp only
        cases List.mem_cons.1 hid with
        | inl heq =>
          subst heq
          exact ⟨_, Function.update_self _ _ _, Function.update_self _ _ _⟩
        | inr hold =>
          cases h.learned id hold with
          | intro ref href =>
            refine ⟨ref, ?_, ?_⟩
            . have hne : id ≠ o.orderId := by
                intro heq
                rw [heq] at hold
                exact hmem hold
              rw [Function.update_of_ne hne]
              exact href.1
            . have hlt := h.known ref id href.2
              rw [Function.update_of_ne (by omega)]
              exact href.2
      . intro id ref href
        dsimp only at href ⊢
        by_cases heq : id = o.orderId
        . subst heq
          rw [Function.update_self] at href
          cases href
          exact ⟨List.mem_cons_self, Nat.lt_succ_self _⟩
        . rw [Function.update_of_ne heq] at href
          have hold := h.assigned id ref href
          exact ⟨List.mem_cons_of_mem _ hold.1, by omega⟩
      . intro ref id hid
        dsimp only at hid ⊢
        by_cases heq : ref = OuchOrderCodec.nextRef w.venue
        . omega
        . rw [Function.update_of_ne heq] at hid
          have hlt := h.known ref id hid
          omega
      . dsimp only
        rw [List.length_cons, hnextRef]

theorem Linked.execute {w : World OuchOrderCodec.codec} (h : Linked w) (env : Env) (orderId qty : Nat)
    (price : Int) (hsmall : w.ex.om.nextId ≤ 10 ^ 14) : Linked (w.step (.execute env orderId qty price)) := by
  by_cases hmem : orderId ∈ w.accepted
  . have haccepted := h.accepted orderId hmem
    have hlength := h.length_lt hsmall
    have hnextRef := h.nextRef
    cases h.learned orderId hmem with
    | intro ref href =>
      have hlt := (h.assigned orderId ref href.1).2
      have hsmallId : orderId < 10 ^ 14 := by omega
      have hfor : OuchOrderCodec.refFor w.venue orderId = (w.venue, ref) := OuchOrderCodec.refFor_of_some href.1
      cases decodeFill_encodeExec w.venue w.trader hsmallId qty price with
      | intro f hf =>
        have hvenue : (OuchOrderCodec.encodeExec w.venue orderId qty price).1 =
            (OuchOrderCodec.refFor w.venue orderId).1 := rfl
        rw [hfor] at hf hvenue
        have hid : f.orderId = orderId := by
          rw [hf.2.2, Nat.mod_eq_of_lt (show ref < 2 ^ 64 by omega)]
          exact OuchOrderCodec.orderOf_of_refToId href.2
        have hstep : w.step (.execute env orderId qty price) =
            deliver { w with venue := (OuchOrderCodec.encodeExec w.venue orderId qty price).1 } env
              (OuchOrderCodec.encodeExec w.venue orderId qty price).2 := by
          unfold step
          exact if_pos hmem
        rw [hstep.trans (deliver_some _ env hf.1), hvenue]
        have hids : ∀ id, id ∈ w.accepted ↔ id = f.orderId ∨ id ∈ w.accepted := by
          intro id
          rw [hid]
          constructor
          . exact Or.inr
          . intro hor
            cases hor with
            | inl heq => rw [heq]; exact hmem
            | inr hold => exact hold
        rw [← hid] at haccepted
        have hreport := h.reported env f hids haccepted.1
          ((report_later w.ex env f).stays h.fresh OrderStatus.isAccepted_closed _ haccepted.2)
        exact ⟨hreport.1, hreport.2.1, hreport.2.2.1, hreport.2.2.2, h.nodup, h.learned, h.assigned,
          h.known, hnextRef⟩
  . have hstep : w.step (.execute env orderId qty price) = w := by
      unfold step
      dsimp only
      exact if_neg hmem
    rw [hstep]
    exact h

theorem Linked.step {w : World OuchOrderCodec.codec} (h : Linked w) (e : Event)
    (hsmall : (w.step e).ex.om.nextId ≤ 10 ^ 14) : Linked (w.step e) := by
  have hle : w.ex.om.nextId ≤ (w.step e).ex.om.nextId := (w.step_later e).nextId_le
  cases e with
  | submit env sig strategyId type => exact h.submit env sig strategyId type hsmall
  | mark s p => exact ⟨h.fresh, h.sender, h.received, h.accepted, h.nodup, h.learned, h.assigned, h.known,
      h.nextRef⟩
  | accept env orderId =>
    apply h.accept env orderId
    omega
  | execute env orderId qty price =>
    apply h.execute env orderId qty price
    omega

theorem Linked.run {w : World OuchOrderCodec.codec} (h : Linked w) (events : List Event)
    (hsmall : (w.run events).ex.om.nextId ≤ 10 ^ 14) : Linked (w.run events) := by
  induction events generalizing w with
  | nil => exact h
  | cons e events ih =>
    have hle := ((w.step e).run_later events).nextId_le
    have hrest : ((w.step e).run events).ex.om.nextId ≤ 10 ^ 14 := hsmall
    apply ih _ hsmall
    apply h.step e
    omega

/--
With the custom protocol no order ever leaves its first status, so the two protocols agree as long as the
exchange accepts nothing, and only then.
-/
theorem codecs_agree_iff (config : RiskManager.Config) (baseQty : Nat) (events : List Event)
    : let w := (init OuchOrderCodec.codec config baseQty).run events
      let v := (init CustomOrderCodec.codec config baseQty).run events
      (w.accepted = [] → Agree w v) ∧
        (w.ex.om.nextId ≤ 10 ^ 14 → Agree w v → w.accepted = []) := by
  intro w v
  have hcustom : v.ex = events.foldl World.unreported (.connected config baseQty) :=
    custom_run_ex (init CustomOrderCodec.codec config baseQty) events
  constructor
  . intro hnil
    have hsame : w.ex = v.ex := by
      rw [hcustom]
      exact run_ex_of_accepted_nil (init OuchOrderCodec.codec config baseQty) events hnil
    rw [Agree, hsame]
    exact ⟨fun _ => rfl, fun _ => rfl, fun _ => rfl⟩
  . intro hsmall hagree
    have hlinked : Linked w := (Linked.init config baseQty).run events hsmall
    have hstart : Unanswered (.connected config baseQty) := ⟨rfl, fun _ => Or.inl rfl⟩
    have hunanswered : Unanswered v.ex := by
      rw [hcustom]
      exact hstart.run events
    apply List.eq_nil_iff_forall_not_mem.2
    intro id hid
    have haccepted := (hlinked.accepted id hid).2
    rw [hagree.1 id] at haccepted
    cases hunanswered.status id with
    | inl hs =>
      rw [hs] at haccepted
      cases haccepted
    | inr hs =>
      cases hs with
      | inl hs =>
        rw [hs] at haccepted
        cases haccepted
      | inr hs =>
        rw [hs] at haccepted
        cases haccepted

theorem codecs_agree_unanswered
    : let events : List Event := [.submit {} ⟨.BUY, 1, 100, 0, 10000⟩ 0 .MARKET]
      Agree ((init OuchOrderCodec.codec {} 100).run events)
        ((init CustomOrderCodec.codec {} 100).run events) :=
  (codecs_agree_iff {} 100 [.submit {} ⟨.BUY, 1, 100, 0, 10000⟩ 0 .MARKET]).1 (by decide +kernel)

theorem not_codecs_agree
    : let events : List Event := [.submit {} ⟨.BUY, 1, 100, 0, 10000⟩ 0 .MARKET, .accept {} 1,
        .execute {} 1 100 100]
      ¬ Agree ((init OuchOrderCodec.codec {} 100).run events)
        ((init CustomOrderCodec.codec {} 100).run events) := by
  -- The exchange accepts and executes the only order. With one protocol it is filled, with the
  -- other it is pending for ever.
  intro events hagree
  have hstatus := hagree.1 1
  revert hstatus
  decide +kernel

end World

end NebulaXTrader
