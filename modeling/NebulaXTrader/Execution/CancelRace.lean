import NebulaXTrader.Execution.Lemmas.Session

/-!
This module contains what the order manager knows about an order once no message is on its way any more,
also when the cancel request and the executions of the order have crossed.
-/

namespace NebulaXTrader

namespace Session

structure Settled (s : Session) (id : Nat) (e : OrderManager.Entry) (v : VenueOrder) : Prop where
  order : v.order = e.order
  filled : e.filled + s.missed id = v.executed
  filled_iff : e.status = .FILLED ↔ v.executed = e.order.quantity ∧ s.missed id = 0
  cancelled_iff : e.status = .CANCELLED ↔ v.closed

/--
Full agreement: the trader has booked everything, and an order is cancelled exactly if the exchange
cancelled a remainder of it.
-/
structure Exact (e : OrderManager.Entry) (v : VenueOrder) : Prop where
  filled : e.filled = v.executed
  filled_iff : e.status = .FILLED ↔ v.executed = e.order.quantity
  cancelled_iff : e.status = .CANCELLED ↔ v.closed ∧ v.executed < e.order.quantity

variable {s : Session} {id : Nat} {e : OrderManager.Entry} {v : VenueOrder}

theorem Phase.quiet {v : Option VenueOrder} {missed : Nat} (h : Phase id (some e) [] v [] missed)
    (hr : e.status ≠ .REJECTED)
    : ∃ v', v = some v' ∧ v'.order = e.order ∧ e.filled + missed = v'.executed ∧
        (e.status = .FILLED ↔ e.filled = e.order.quantity ∧ missed = 0) ∧
        (e.status = .CANCELLED ↔ v'.closed) ∧ (v'.closed → e.filled < e.order.quantity) ∧
        v'.executed ≤ e.order.quantity := by
  generalize hreports : ([] : List Fill) = reports at h
  cases h with
  | rejected status => exact absurd status hr
  | accepted => cases hreports
  | working active closed acc =>
    have hsum := acc.sum
    have hlt := acc.filled_lt
    rw [← hreports] at hsum
    unfold OrderManager.Entry.isActive at active
    refine ⟨_, rfl, acc.order, hsum, ?_, ?_, ?_, acc.executed_le⟩
    . constructor
      . intro hs
        simp [hs] at active
      . intro hf
        omega
    . constructor
      . intro hs
        simp [hs] at active
      . intro hc
        rw [closed] at hc
        cases hc
    . intro _
      exact hlt
  | cancelling status request closed acc =>
    have hsum := acc.sum
    have hlt := acc.filled_lt
    rw [← hreports] at hsum
    refine ⟨_, rfl, acc.order, hsum, ?_, ?_, ?_, acc.executed_le⟩
    . constructor
      . intro hs
        rw [status] at hs
        cases hs
      . intro hf
        omega
    . constructor
      . intro hs
        rw [status] at hs
        cases hs
      . intro hc
        rw [closed] at hc
        cases hc
    . intro _
      exact hlt
  | answered => simp at hreports
  | cancelled status closed acc =>
    have hsum := acc.sum
    have hlt := acc.filled_lt
    refine ⟨_, rfl, acc.order, hsum, ?_, ?_, ?_, acc.executed_le⟩
    . constructor
      . intro hs
        rw [status] at hs
        cases hs
      . intro hf
        omega
    . exact ⟨fun _ => closed, fun _ => status⟩
    . intro _
      exact hlt
  | filled status closed order filled executed =>
    refine ⟨_, rfl, order, ?_, ?_, ?_, ?_, executed.le⟩
    . rw [filled, executed]
      rfl
    . exact ⟨fun _ => ⟨filled, rfl⟩, fun _ => status⟩
    . constructor
      . intro hs
        rw [status] at hs
        cases hs
      . intro hc
        rw [closed] at hc
        cases hc
    . intro hc
      rw [closed] at hc
      cases hc

/--
After any run that leaves both channels empty, the trader knows every order up to the executions that
crossed its cancel request.
-/
theorem settled (config : RiskManager.Config) (baseQty : Nat) (actions : List Action)
    (hrun : Run.exec step (start config baseQty) actions = some s) (hout : s.toVenue = [])
    (hinn : s.toTrader = []) (he : s.trader.om.orders id = some e) (hr : e.status ≠ .REJECTED)
    : ∃ v, s.venue id = some v ∧ s.Settled id e v ∧ (s.missed id = 0 ↔ Exact e v) := by
  have hinv : s.Inv := by
    apply Run.exec_keeps _ (Inv.start config baseQty) hrun
    intro t a t' ht hstep
    exact ht.step hstep
  have hphase := hinv.phase id
  unfold InPhase out inn at hphase
  rw [he, hout, hinn] at hphase
  obtain ⟨v, hv, ho, hsum, hfilled, hcancelled, hopen, hle⟩ := hphase.quiet hr
  refine ⟨v, hv, ?_, ?_⟩
  . constructor
    . exact ho
    . exact hsum
    . rw [hfilled]
      omega
    . exact hcancelled
  . constructor
    . intro hmissed
      constructor
      . omega
      . rw [hfilled]
        omega
      . rw [hcancelled]
        constructor
        . intro hc
          have hlt := hopen hc
          exact ⟨hc, by omega⟩
        . exact And.left
    . intro hexact
      have heq := hexact.filled
      omega

theorem settled_partial
    : ∃ s e v, Run.exec step (start {} 100)
        [.submit {} { side := .BUY, locate := 7, strength := 10000 } 1 .MARKET, .receive 1,
          .deliver {}, .execute 1 40 1000, .deliver {}, .cancel {} 1, .receive 1, .deliver {}] = some s ∧
      s.trader.om.orders 1 = some e ∧ s.venue 1 = some v ∧ s.Settled 1 e v ∧
      (s.missed 1 = 0 ↔ Exact e v) := by
  -- An order to buy 100 shares of which 40 are executed before the cancel request is sent.
  generalize hr : Run.exec step (start {} 100)
    [.submit {} { side := .BUY, locate := 7, strength := 10000 } 1 .MARKET, .receive 1,
      .deliver {}, .execute 1 40 1000, .deliver {}, .cancel {} 1, .receive 1, .deliver {}] = r
  have hend : r.map (fun s => (s.toVenue, s.toTrader, (s.trader.om.orders 1).map (·.status))) =
      some ([], [], some .CANCELLED) := by
    rw [← hr]
    decide +kernel
  obtain ⟨s, rfl, hs⟩ := Option.map_eq_some_iff.1 hend
  simp only [Prod.mk.injEq] at hs
  obtain ⟨e, he, hstatus⟩ := Option.map_eq_some_iff.1 hs.2.2
  obtain ⟨v, hv, hsettled⟩ := settled {} 100 _ hr hs.1 hs.2.1 he (by rw [hstatus]; decide)
  exact ⟨s, e, v, rfl, he, hv, hsettled⟩

theorem not_exact
    : ¬ ∀ (config : RiskManager.Config) (baseQty : Nat) (actions : List Action) (s : Session)
        (id : Nat) (e : OrderManager.Entry), Run.exec step (start config baseQty) actions = some s →
        s.toVenue = [] → s.toTrader = [] → s.trader.om.orders id = some e → e.status ≠ .REJECTED →
        ∃ v, s.venue id = some v ∧ Exact e v := by
  -- The execution of 40 shares is on its way when the cancel request is sent: the trader never
  -- books it.
  intro h
  generalize hr : Run.exec step (start {} 100)
    [.submit {} { side := .BUY, locate := 7, strength := 10000 } 1 .MARKET, .receive 1,
      .deliver {}, .execute 1 40 1000, .cancel {} 1, .deliver {}, .receive 1, .deliver {}] = r
  have hend : r.map (fun s => (s.toVenue, s.toTrader)) = some ([], []) := by
    rw [← hr]
    decide +kernel
  have hentry : (r.bind (fun s => s.trader.om.orders 1)).map (fun e => (e.status, e.filled)) =
      some (.CANCELLED, 0) := by
    rw [← hr]
    decide +kernel
  have hvenue : (r.bind (fun s => s.venue 1)).map VenueOrder.executed = some 40 := by
    rw [← hr]
    decide +kernel
  obtain ⟨s, rfl, hs⟩ := Option.map_eq_some_iff.1 hend
  simp only [Prod.mk.injEq] at hs
  obtain ⟨e, he, hfields⟩ := Option.map_eq_some_iff.1 hentry
  simp only [Prod.mk.injEq] at hfields
  obtain ⟨v, hv, hexact⟩ := h {} 100 _ s 1 e hr hs.1 hs.2 he (by rw [hfields.1]; decide)
  rw [Option.bind_some, hv, Option.map_some, ← hexact.filled, hfields.2] at hvenue
  revert hvenue
  decide

end Session

end NebulaXTrader
