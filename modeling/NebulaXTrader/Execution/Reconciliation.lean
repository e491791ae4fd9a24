import NebulaXTrader.Execution.WireRefinement

/-!
This module contains what the trader knows once no byte is on its way any more: the simulated exchange executes every
order in full, and the positions of the trader are the sums of what it has executed.
-/

namespace NebulaXTrader

namespace Session

variable {s : Session}

theorem Phase.quiet_full {id : Nat} {e : OrderManager.Entry} {v : Option VenueOrder} {missed : Nat}
    (h : Phase id (some e) [] v [] missed) (hfull : ∀ v', v = some v' → v'.executed = v'.order.quantity)
    : e.status = .REJECTED ∧ e.filled = 0 ∧ missed = 0 ∨
      e.status = .FILLED ∧ e.filled = e.order.quantity ∧ missed = 0 ∨
      (e.status = .PENDING_CANCEL ∨ e.status = .CANCELLED) ∧ e.filled < e.order.quantity ∧
        e.filled + missed = e.order.quantity := by
  -- If the exchange has executed everything in full, then an order that is not complete once nothing is on its way
  -- has been cancelled too late.
  have hacc : ∀ {v : VenueOrder} {es : List Fill} {missed : Nat}, Accounted e v es missed → es = [] →
      v.executed = v.order.quantity → e.filled < e.order.quantity ∧ e.filled + missed = e.order.quantity := by
    intro v es missed acc hes hv
    have hsum := acc.sum
    rw [hes, hv, acc.order] at hsum
    exact ⟨acc.filled_lt, hsum⟩
  generalize hreports : ([] : List Fill) = reports at h
  cases h with
  | rejected status filled => exact Or.inl ⟨status, filled, rfl⟩
  | accepted => cases hreports
  | working active closed acc =>
    obtain ⟨hlt, heq⟩ := hacc acc hreports.symm (hfull _ rfl)
    omega
  | cancelling status request closed acc =>
    exact Or.inr (Or.inr ⟨Or.inl status, hacc acc hreports.symm (hfull _ rfl)⟩)
  | answered => simp at hreports
  | cancelled status closed acc => exact Or.inr (Or.inr ⟨Or.inr status, hacc acc rfl (hfull _ rfl)⟩)
  | filled status closed order filled executed => exact Or.inr (Or.inl ⟨status, filled, rfl⟩)

theorem tally_congr {n : Nat} {ords : Nat → Option Order} {f g : Nat → Nat} (h : ∀ i o, ords i = some o → f i = g i)
    (symbolId : Nat) : tally n ords f f symbolId = tally n ords g g symbolId := by
  apply le_antisymm
  . exact tally_mono (fun i o ho => (h i o ho).le) (fun i o ho => (h i o ho).ge) symbolId
  . exact tally_mono (fun i o ho => (h i o ho).ge) (fun i o ho => (h i o ho).le) symbolId

end Session

namespace OrderLink

variable {w w' : OrderLink} {s : Session}

/--
An order leaves room for the orders of its side that are still open.
-/
def Room (w : OrderLink) (a : Action) : Prop :=
  match a with
  | .submit env sig strategyId type =>
    Session.Fits
      { trader := w.ex, toVenue := [], venue := fun _ => none, toTrader := [], missed := fun _ => 0 }
      (.submit env sig strategyId type)
  | _ => True

instance (w : OrderLink) (a : Action) : Decidable (Room w a) :=
  match a with
  | .submit env sig strategyId type => inferInstanceAs (Decidable (Session.Fits _ (.submit env sig strategyId type)))
  | .cancel _ _ | .query _ | .mark _ _ | .exchangeRecv _ | .hangup | .recv _ | .frame _ => isTrue trivial

def Drained (w : OrderLink) : Prop :=
  w.venue.connected = true ∧ w.venue.buf = [] ∧ w.toVenue = [] ∧ w.toTrader = [] ∧ w.stream = []

instance (w : OrderLink) : Decidable w.Drained := inferInstanceAs (Decidable (_ ∧ _))

/--
The whole quantity of every order that has reached the exchange.
-/
def dealt (w : OrderLink) (i : Nat) : Nat :=
  (w.ex.om.orders i).elim 0 (fun e => if e.status = .REJECTED then 0 else e.order.quantity)

def net (w : OrderLink) (symbolId : Nat) : Int :=
  Session.tally w.ex.om.nextId (fun i => (w.ex.om.orders i).map OrderManager.Entry.order) w.dealt w.dealt symbolId

theorem Sim.room (h : Sim w s) {env : Env} {sig : Signal} {strategyId : Nat} {type : OrderType}
    (hroom : Room w (.submit env sig strategyId type)) : s.Fits (.submit env sig strategyId type) := by
  unfold Room Session.Fits Session.openQty at hroom
  unfold Session.Fits Session.openQty
  rw [h.trader]
  exact hroom

theorem Sim.drained (h : Sim w s) (hdrained : w.Drained) : s.toVenue = [] ∧ s.toTrader = [] := by
  obtain ⟨hconnected, hbuf, htoVenue, htoTrader, hstream⟩ := hdrained
  constructor
  . obtain ⟨seen, lost, tail, hmsgs, hbytes, htail⟩ := h.carried hconnected
    rw [hbuf, htoVenue] at hbytes
    obtain ⟨hseen, hnil⟩ := List.append_eq_nil_iff.1 hbytes.symm
    have hlost : lost = [] := by
      cases htail with
      | inl h => exact h.1
      | inr hquery =>
        rw [hnil] at hquery
        cases hquery
    cases seen with
    | nil => rw [hmsgs, hlost, List.append_nil]
    | cons m seen =>
      have hencode := SimExchange.msgLen_encode m
      rw [List.flatMap_cons] at hseen
      rw [(List.append_eq_nil_iff.1 hseen).1] at hencode
      cases hencode
  . obtain ⟨frames, hframes, hbytes⟩ := h.reports
    rw [hstream, htoTrader] at hbytes
    generalize s.toTrader = pending at hframes
    cases hframes with
    | nil => rfl
    | @cons f frame reports rest hflight _ =>
      have hframe := hflight.isFrame.1
      rw [List.flatten_cons] at hbytes
      rw [(List.append_eq_nil_iff.1 hbytes.symm).1] at hframe
      cases hframe

theorem Sim.quiet (h : Sim w s) (hinv : s.Inv) (hdrained : w.Drained) {i : Nat} {e : OrderManager.Entry}
    (he : w.ex.om.orders i = some e)
    : e.status = .REJECTED ∧ e.filled = 0 ∧ s.missed i = 0 ∨
      e.status = .FILLED ∧ e.filled = e.order.quantity ∧ s.missed i = 0 ∨
      (e.status = .PENDING_CANCEL ∨ e.status = .CANCELLED) ∧ e.filled < e.order.quantity ∧
        e.filled + s.missed i = e.order.quantity := by
  obtain ⟨hout, hinn⟩ := h.drained hdrained
  have hphase := hinv.phase i
  unfold Session.InPhase Session.out Session.inn at hphase
  rw [h.trader, he, hout, hinn] at hphase
  exact hphase.quiet_full (h.full i)

theorem Sim.reported (h : Sim w s) (hinv : s.Inv) (hdrained : w.Drained) {i : Nat} {o : Order} (ho : s.ords i = some o)
    : s.reported i = w.dealt i := by
  obtain ⟨e, he, _⟩ := Session.ords_eq_some ho
  rw [h.trader] at he
  unfold Session.reported dealt
  rw [h.trader, he, Option.elim_some, Option.elim_some]
  rcases h.quiet hinv hdrained he with ⟨hs, hf, hm⟩ | ⟨hs, hf, hm⟩ | ⟨hs, _, hsum⟩
  . rw [if_pos hs, hf, hm]
  . rw [if_neg (by rw [hs]; decide), hf, hm]
    rfl
  . rw [if_neg, hsum]
    intro hrejected
    rw [hrejected] at hs
    cases hs with
    | inl h => cases h
    | inr h => cases h

/--
Once nothing is on its way, an order has been rejected by the trader itself, or it is filled, or its cancel request has
come too late. The positions count every order that has reached the exchange in full, also the cancelled ones.
-/
theorem reconciled {config : RiskManager.Config} {baseQty : Nat} (hword : config.maxPosition < 2 ^ 64)
    {actions : List Action} (hsmall : Run.Along step Small (start config baseQty) actions)
    (hroom : Run.Along step Room (start config baseQty) actions)
    (hrun : Run.exec step (start config baseQty) actions = some w) (hdrained : w.Drained)
    : (∀ i e, w.ex.om.orders i = some e → e.status = .REJECTED ∧ e.filled = 0 ∨
        e.status = .FILLED ∧ e.filled = e.order.quantity ∨
        (e.status = .PENDING_CANCEL ∨ e.status = .CANCELLED) ∧ e.filled < e.order.quantity) ∧
      ∀ symbolId, symbolId < RiskManager.kMaxLocate → (w.ex.rm.position symbolId : Int) = w.net symbolId := by
  have hstep : ∀ (w : OrderLink) (s : Session) (a : Action) (w' : OrderLink),
      Sim w s ∧ s.Inv ∧ s.Exposed config.maxPosition → Small w a ∧ Room w a → step w a = some w' →
      ∃ s', Run.Reaches (Run.restrict Session.step Session.Fits) s s' ∧
        Sim w' s' ∧ s'.Inv ∧ s'.Exposed config.maxPosition := by
    intro w s a w' h hgood hs
    obtain ⟨hsim, hinv⟩ := h
    have hkeeps : ∀ {s' : Session}, Run.Reaches (Run.restrict Session.step Session.Fits) s s' →
        s'.Inv ∧ s'.Exposed config.maxPosition := by
      intro s' hreaches
      refine hreaches.keeps (p := fun s => s.Inv ∧ s.Exposed config.maxPosition) ?_ hinv
      intro s b s' h hs
      obtain ⟨hfits, hs⟩ := Run.restrict_eq_some.1 hs
      exact ⟨h.1.step hs, h.2.step h.1 hfits hs⟩
    by_cases ha : a.isSubmit = false
    . obtain ⟨s', hreaches, hsim'⟩ := hsim.step hinv.1 ha hgood.1 hs
      exact ⟨s', hreaches, hsim', hkeeps hreaches⟩
    . cases a with
      | submit env sig strategyId type =>
        obtain ⟨s', hmatch, hsim'⟩ := step_submit hsim hgood.1 hs
        have hreaches := Run.Reaches.of_step (Run.restrict_eq_some.2 ⟨hsim.room hgood.2, hmatch⟩)
        exact ⟨s', hreaches, hsim', hkeeps hreaches⟩
      | _ => exact absurd rfl ha
  have hstart := Session.Exposed.start config baseQty hword
  obtain ⟨s, _, hsim, hinv, hexposed⟩ := Run.simulates hstep
    ⟨Sim.start config baseQty, Session.Inv.start config baseQty, hstart⟩ (hsmall.and hroom) hrun
  constructor
  . intro i e he
    rcases hsim.quiet hinv hdrained he with ⟨hs, hf, _⟩ | ⟨hs, hf, _⟩ | ⟨hs, hf, _⟩
    . exact Or.inl ⟨hs, hf⟩
    . exact Or.inr (Or.inl ⟨hs, hf⟩)
    . exact Or.inr (Or.inr ⟨hs, hf⟩)
  . intro symbolId hlt
    have hbooked := hexposed.booked symbolId hlt
    unfold Session.sum at hbooked
    rw [Session.tally_congr (fun i o => hsim.reported hinv hdrained) symbolId] at hbooked
    unfold Session.ords at hbooked
    rw [hsim.trader] at hbooked
    exact hbooked

/--
The trader has cancelled the order and booked nothing on it, but its position is that of the exchange.
-/
theorem reconciled_lateCancel
    : ∃ w, Run.exec step (start { maxPosition := 150 } 100) lateCancel = some w ∧ w.ex.rm.position 7 = 100 ∧
        (w.ex.om.orders 1).any (fun e => e.status = .CANCELLED ∧ e.filled = 0) ∧ (w.ex.rm.position 7 : Int) = w.net 7 := by
  have hany : (Run.exec step (start { maxPosition := 150 } 100) lateCancel).any (fun w => w.Drained ∧
      w.ex.rm.position 7 = 100 ∧ (w.ex.om.orders 1).any (fun e => e.status = .CANCELLED ∧ e.filled = 0)) := by
    decide +kernel
  rw [Option.any_eq_true] at hany
  obtain ⟨w, hrun, hw⟩ := hany
  obtain ⟨hdrained, hposition, hcancelled⟩ := of_decide_eq_true hw
  have hnet := (reconciled (by decide) (by decide +kernel) (by decide +kernel) hrun hdrained).2 7 (by decide)
  exact ⟨w, hrun, hposition, hcancelled, hnet⟩

end OrderLink

end NebulaXTrader
