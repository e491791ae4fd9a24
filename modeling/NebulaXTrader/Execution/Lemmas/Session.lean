import NebulaXTrader.Execution.Session
import NebulaXTrader.Execution.Lemmas.ExecutionEngine

/-!
This module contains the phases that an order goes through, as the trader, the exchange and the messages
between them see it, and the proof that every order is always in one of them.
-/

namespace NebulaXTrader

def OrderMsg.id (m : OrderMsg) : Nat :=
  match m with
  | .O o => o.orderId
  | .X id => id

namespace Session

def Execs (es : List Fill) : Prop := ∀ f ∈ es, f.type = .E ∧ 0 < f.filledQty

def total (es : List Fill) : Nat := (es.map Fill.filledQty).sum

theorem total_cons (f : Fill) (es : List Fill) : total (f :: es) = f.filledQty + total es := by
  unfold total
  rw [List.map_cons, List.sum_cons]

theorem total_append_singleton (es : List Fill) (f : Fill)
    : total (es ++ [f]) = total es + f.filledQty := by
  unfold total
  simp

theorem Execs.nil : Execs [] := by
  intro f hf
  cases hf

theorem Execs.append {es : List Fill} (h : Execs es) {f : Fill} (ht : f.type = .E)
    (hq : 0 < f.filledQty) : Execs (es ++ [f]) := by
  intro g hg
  cases List.mem_append.1 hg with
  | inl hmem => exact h g hmem
  | inr hmem =>
    rw [List.mem_singleton.1 hmem]
    exact ⟨ht, hq⟩

theorem Execs.of_cons {f : Fill} {es : List Fill} (h : Execs (f :: es))
    : f.type = .E ∧ 0 < f.filledQty ∧ Execs es := by
  have hf := h f List.mem_cons_self
  exact ⟨hf.1, hf.2, fun g hg => h g (List.mem_cons_of_mem _ hg)⟩

theorem Execs.eq_nil {es : List Fill} (h : Execs es) (ht : total es = 0) : es = [] := by
  cases es with
  | nil => rfl
  | cons f es =>
    have hpos := (h f List.mem_cons_self).2
    rw [total_cons] at ht
    omega

/--
The quantities of an order that both parties work on: what the trader has booked or missed and what is
still on its way adds up to what the exchange has executed.
-/
structure Accounted (e : OrderManager.Entry) (v : VenueOrder) (es : List Fill) (missed : Nat) : Prop where
  order : v.order = e.order
  execs : Execs es
  sum : e.filled + missed + total es = v.executed
  executed_le : v.executed ≤ e.order.quantity
  filled_lt : e.filled < e.order.quantity

theorem Accounted.congr {e e' : OrderManager.Entry} {v : VenueOrder} {es : List Fill} {missed : Nat}
    (h : Accounted e v es missed) (ho : e'.order = e.order) (hf : e'.filled = e.filled)
    : Accounted e' v es missed := by
  constructor
  . rw [ho]
    exact h.order
  . exact h.execs
  . rw [hf]
    exact h.sum
  . rw [ho]
    exact h.executed_le
  . rw [ho, hf]
    exact h.filled_lt

/--
The phases of the order `id`: the entry of the trader, the messages on the way to the exchange, the order
at the exchange, the reports on the way to the trader and the missed quantity.
-/
inductive Phase (id : Nat) : Option OrderManager.Entry → List OrderMsg → Option VenueOrder → List Fill →
    Nat → Prop where
  | unknown : Phase id none [] none [] 0
  | rejected {e} (status : e.status = .REJECTED) (filled : e.filled = 0) : Phase id (some e) [] none [] 0
  | sent {e} (status : e.status = .PENDING) (filled : e.filled = 0) (pos : 0 < e.order.quantity)
    : Phase id (some e) [.O e.order] none [] 0
  | accepted {e v a es} (status : e.status = .PENDING) (filled : e.filled = 0) (type : a.type = .A)
    (closed : v.closed = false) (acc : Accounted e v es 0) : Phase id (some e) [] (some v) (a :: es) 0
  | working {e v es} (active : e.isActive) (closed : v.closed = false) (acc : Accounted e v es 0)
    : Phase id (some e) [] (some v) es 0
  | cancelling {e v es missed} {msgs : List OrderMsg} (status : e.status = .PENDING_CANCEL)
    (request : msgs = [] ∨ msgs = [.X id]) (closed : v.closed = false)
    (acc : Accounted e v es missed) : Phase id (some e) msgs (some v) es missed
  | answered {e v es c missed} (status : e.status = .PENDING_CANCEL) (closed : v.closed = true)
    (type : c.type = .C) (acc : Accounted e v es missed) : Phase id (some e) [] (some v) (es ++ [c]) missed
  | cancelled {e v missed} (status : e.status = .CANCELLED) (closed : v.closed = true)
    (acc : Accounted e v [] missed) : Phase id (some e) [] (some v) [] missed
  | filled {e v} (status : e.status = .FILLED) (closed : v.closed = false) (order : v.order = e.order)
    (filled : e.filled = e.order.quantity) (executed : v.executed = e.order.quantity)
    : Phase id (some e) [] (some v) [] 0

def out (s : Session) (id : Nat) : List OrderMsg := s.toVenue.filter (fun m => m.id = id)

def inn (s : Session) (id : Nat) : List Fill := s.toTrader.filter (fun f => f.orderId = id)

def InPhase (s : Session) (id : Nat) : Prop :=
  Phase id (s.trader.om.orders id) (s.out id) (s.venue id) (s.inn id) (s.missed id)

structure Inv (s : Session) : Prop where
  wf : s.trader.om.Wf
  wired : s.trader.hasSender ∧ s.trader.hasCodec
  phase : ∀ id, s.InPhase id

structure SameOff (s s' : Session) (id : Nat) : Prop where
  orders : ∀ i, i ≠ id → s'.trader.om.orders i = s.trader.om.orders i
  out : ∀ i, i ≠ id → s'.out i = s.out i
  venue : ∀ i, i ≠ id → s'.venue i = s.venue i
  inn : ∀ i, i ≠ id → s'.inn i = s.inn i
  missed : ∀ i, i ≠ id → s'.missed i = s.missed i

theorem Inv.change {s s' : Session} (h : s.Inv) (id : Nat) (hwf : s'.trader.om.Wf)
    (hwired : s'.trader.hasSender ∧ s'.trader.hasCodec) (hoff : s.SameOff s' id)
    (hid : s'.InPhase id) : s'.Inv := by
  constructor
  . exact hwf
  . exact hwired
  . intro i
    by_cases hi : i = id
    . rw [hi]
      exact hid
    . have hphase := h.phase i
      unfold InPhase at hphase ⊢
      rw [hoff.orders i hi, hoff.out i hi, hoff.venue i hi, hoff.inn i hi, hoff.missed i hi]
      exact hphase

theorem InPhase.of {s : Session} {id missed : Nat} {oe : Option OrderManager.Entry}
    {msgs : List OrderMsg} {v : Option VenueOrder} {reports : List Fill}
    (h : Phase id oe msgs v reports missed) (horders : s.trader.om.orders id = oe)
    (hout : s.out id = msgs) (hvenue : s.venue id = v) (hinn : s.inn id = reports)
    (hmissed : s.missed id = missed) : s.InPhase id := by
  unfold InPhase
  rw [horders, hout, hvenue, hinn, hmissed]
  exact h

theorem filter_append_ne {α : Type} (key : α → Nat) (xs : List α) {x : α} {id : Nat} (h : key x ≠ id)
    : (xs ++ [x]).filter (fun y => key y = id) = xs.filter (fun y => key y = id) := by
  rw [List.filter_append, List.filter_cons_of_neg (by simpa using h), List.filter_nil,
    List.append_nil]

theorem filter_append_eq {α : Type} (key : α → Nat) (xs : List α) {x : α} {id : Nat} (h : key x = id)
    : (xs ++ [x]).filter (fun y => key y = id) = xs.filter (fun y => key y = id) ++ [x] := by
  rw [List.filter_append, List.filter_cons_of_pos (by simpa using h), List.filter_nil]

theorem Inv.start (config : RiskManager.Config) (baseQty : Nat) : (start config baseQty).Inv := by
  constructor
  . exact OrderManager.Wf.init
  . exact ⟨rfl, rfl⟩
  . intro id
    exact Phase.unknown

namespace Phase

variable {id missed : Nat} {e : OrderManager.Entry} {msgs : List OrderMsg} {v : Option VenueOrder}
  {reports : List Fill}

theorem of_none {oe : Option OrderManager.Entry} (h : Phase id oe msgs v reports missed)
    (he : oe = none) : msgs = [] ∧ v = none ∧ reports = [] ∧ missed = 0 := by
  cases h with
  | unknown => exact ⟨rfl, rfl, rfl, rfl⟩
  | rejected => cases he
  | sent => cases he
  | accepted => cases he
  | working => cases he
  | cancelling => cases he
  | answered => cases he
  | cancelled => cases he
  | filled => cases he

theorem of_active (h : Phase id (some e) msgs v reports missed) (ha : e.isActive)
    : ∃ v', v = some v' ∧ msgs = [] ∧ missed = 0 ∧ v'.closed = false ∧ Accounted e v' reports 0 := by
  unfold OrderManager.Entry.isActive at ha
  cases h with
  | rejected status => simp [status] at ha
  | sent status => simp [status] at ha
  | accepted status => simp [status] at ha
  | working _ closed acc => exact ⟨_, rfl, rfl, rfl, closed, acc⟩
  | cancelling status => simp [status] at ha
  | answered status => simp [status] at ha
  | cancelled status => simp [status] at ha
  | filled status => simp [status] at ha

theorem of_order {oe : Option OrderManager.Entry} {o : Order} {rest : List OrderMsg}
    (h : Phase id oe (.O o :: rest) v reports missed)
    : ∃ e, oe = some e ∧ e.status = .PENDING ∧ e.filled = 0 ∧ 0 < e.order.quantity ∧ o = e.order ∧
        rest = [] ∧ v = none ∧ reports = [] ∧ missed = 0 := by
  generalize hmsgs : OrderMsg.O o :: rest = msgs at h
  cases h with
  | unknown => cases hmsgs
  | rejected => cases hmsgs
  | sent status filled pos =>
    cases hmsgs
    exact ⟨_, rfl, status, filled, pos, rfl, rfl, rfl, rfl, rfl⟩
  | accepted => cases hmsgs
  | working => cases hmsgs
  | cancelling _ request =>
    cases request with
    | inl hnil =>
      rw [hnil] at hmsgs
      cases hmsgs
    | inr hx =>
      rw [hx] at hmsgs
      cases hmsgs
  | answered => cases hmsgs
  | cancelled => cases hmsgs
  | filled => cases hmsgs

theorem of_request {oe : Option OrderManager.Entry} {i : Nat} {rest : List OrderMsg}
    (h : Phase id oe (.X i :: rest) v reports missed)
    : ∃ e v', oe = some e ∧ v = some v' ∧ e.status = .PENDING_CANCEL ∧ rest = [] ∧
        v'.closed = false ∧ Accounted e v' reports missed := by
  generalize hmsgs : OrderMsg.X i :: rest = msgs at h
  cases h with
  | unknown => cases hmsgs
  | rejected => cases hmsgs
  | sent => cases hmsgs
  | accepted => cases hmsgs
  | working => cases hmsgs
  | cancelling status request closed acc =>
    cases request with
    | inl hnil =>
      rw [hnil] at hmsgs
      cases hmsgs
    | inr hx =>
      rw [hx] at hmsgs
      cases hmsgs
      exact ⟨_, _, rfl, rfl, status, rfl, closed, acc⟩
  | answered => cases hmsgs
  | cancelled => cases hmsgs
  | filled => cases hmsgs

theorem deliver {oe : Option OrderManager.Entry} {f : Fill}
    (h : Phase id oe msgs v (f :: reports) missed)
    : ∃ e, oe = some e ∧
        ((f.type = .A ∧ e.status = .PENDING ∧
          ∀ e', e'.order = e.order → e'.status = .SUBMITTED → e'.filled = e.filled →
            Phase id (some e') msgs v reports missed) ∨
        (f.type = .E ∧ e.isActive ∧ e.filled + f.filledQty ≤ e.order.quantity ∧
          ∀ e', e'.order = e.order → e'.filled = e.filled + f.filledQty →
            e'.status = (if e'.filled = e.order.quantity then .FILLED else .PARTIAL_FILL) →
            Phase id (some e') msgs v reports missed) ∨
        (f.type = .E ∧ e.status = .PENDING_CANCEL ∧
          Phase id (some e) msgs v reports (missed + f.filledQty)) ∨
        (f.type = .C ∧ e.status = .PENDING_CANCEL ∧
          ∀ e', e'.order = e.order → e'.status = .CANCELLED → e'.filled = e.filled →
            Phase id (some e') msgs v reports missed)) := by
  generalize hreports : f :: reports = rs at h
  cases h with
  | unknown => cases hreports
  | rejected => cases hreports
  | sent => cases hreports
  | @accepted e v a es status filled type closed acc =>
    cases hreports
    refine ⟨e, rfl, Or.inl ⟨type, status, ?_⟩⟩
    intro e' ho hs hf
    apply Phase.working _ closed (acc.congr ho hf)
    unfold OrderManager.Entry.isActive
    rw [hs]
    rfl
  | @working e v es active closed acc =>
    rw [← hreports] at acc
    obtain ⟨htype, hpos, hexecs⟩ := acc.execs.of_cons
    have hsum := acc.sum
    have hle := acc.executed_le
    rw [total_cons] at hsum
    refine ⟨e, rfl, Or.inr (Or.inl ⟨htype, active, by omega, ?_⟩)⟩
    intro e' ho hf hs
    by_cases hfull : e'.filled = e.order.quantity
    . rw [if_pos hfull] at hs
      have hnil : reports = [] := hexecs.eq_nil (by omega)
      rw [hnil]
      apply Phase.filled hs closed (acc.order.trans ho.symm)
      . rw [ho]
        exact hfull
      . rw [ho]
        omega
    . rw [if_neg hfull] at hs
      apply Phase.working _ closed
      . constructor
        . exact acc.order.trans ho.symm
        . exact hexecs
        . omega
        . rw [ho]
          exact hle
        . rw [ho]
          omega
      . unfold OrderManager.Entry.isActive
        rw [hs]
        rfl
  | @cancelling e v es missed msgs status request closed acc =>
    rw [← hreports] at acc
    obtain ⟨htype, _, hexecs⟩ := acc.execs.of_cons
    have hsum := acc.sum
    rw [total_cons] at hsum
    refine ⟨e, rfl, Or.inr (Or.inr (Or.inl ⟨htype, status, ?_⟩))⟩
    apply Phase.cancelling status request closed
    exact ⟨acc.order, hexecs, by omega, acc.executed_le, acc.filled_lt⟩
  | @answered e v es c missed status closed type acc =>
    cases es with
    | nil =>
      cases hreports
      refine ⟨e, rfl, Or.inr (Or.inr (Or.inr ⟨type, status, ?_⟩))⟩
      intro e' ho hs hf
      exact Phase.cancelled hs closed (acc.congr ho hf)
    | cons g es =>
      cases hreports
      obtain ⟨htype, _, hexecs⟩ := acc.execs.of_cons
      have hsum := acc.sum
      rw [total_cons] at hsum
      refine ⟨e, rfl, Or.inr (Or.inr (Or.inl ⟨htype, status, ?_⟩))⟩
      apply Phase.answered status closed type
      exact ⟨acc.order, hexecs, by omega, acc.executed_le, acc.filled_lt⟩
  | cancelled => cases hreports
  | filled => cases hreports

theorem venue_of_report {oe : Option OrderManager.Entry} {f : Fill}
    (h : Phase id oe msgs v (f :: reports) missed) : v ≠ none := by
  generalize hreports : f :: reports = rs at h
  cases h with
  | unknown => cases hreports
  | rejected => cases hreports
  | sent => cases hreports
  | accepted => exact Option.some_ne_none _
  | working => exact Option.some_ne_none _
  | cancelling => exact Option.some_ne_none _
  | answered => exact Option.some_ne_none _
  | cancelled => exact Option.some_ne_none _
  | filled => exact Option.some_ne_none _

theorem exec_pos {oe : Option OrderManager.Entry} {f : Fill}
    (h : Phase id oe msgs v (f :: reports) missed) (ht : f.type = .E) : 0 < f.filledQty := by
  have hacc : ∀ {e : OrderManager.Entry} {w : VenueOrder} {es : List Fill} {missed : Nat},
      Accounted e w es missed → f :: reports = es → 0 < f.filledQty := by
    intro e w es missed acc hes
    rw [← hes] at acc
    exact acc.execs.of_cons.2.1
  generalize hreports : f :: reports = rs at h
  cases h with
  | unknown => cases hreports
  | rejected => cases hreports
  | sent => cases hreports
  | accepted _ _ type =>
    cases hreports
    rw [ht] at type
    cases type
  | working _ _ acc => exact hacc acc hreports
  | cancelling _ _ _ acc => exact hacc acc hreports
  | @answered e w es c missed _ _ type acc =>
    cases es with
    | nil =>
      cases hreports
      rw [ht] at type
      cases type
    | cons g es =>
      cases hreports
      exact acc.execs.of_cons.2.1
  | cancelled => cases hreports
  | filled => cases hreports

theorem execute {oe : Option OrderManager.Entry} {w : VenueOrder} {f : Fill}
    (h : Phase id oe msgs (some w) reports missed) (hclosed : w.closed = false) (htype : f.type = .E)
    (hpos : 0 < f.filledQty) (hle : w.executed + f.filledQty ≤ w.order.quantity)
    : Phase id oe msgs (some { w with executed := w.executed + f.filledQty }) (reports ++ [f])
        missed := by
  have hacc : ∀ (e : OrderManager.Entry) (es : List Fill) (missed : Nat), Accounted e w es missed →
      Accounted e { w with executed := w.executed + f.filledQty } (es ++ [f]) missed := by
    intro e es missed acc
    have hsum := acc.sum
    constructor
    . exact acc.order
    . exact acc.execs.append htype hpos
    . rw [total_append_singleton]
      dsimp only
      omega
    . rw [← acc.order]
      exact hle
    . exact acc.filled_lt
  cases h with
  | accepted status filled type closed acc =>
    exact Phase.accepted status filled type closed (hacc _ _ _ acc)
  | working active closed acc => exact Phase.working active closed (hacc _ _ _ acc)
  | cancelling status request closed acc =>
    exact Phase.cancelling status request closed (hacc _ _ _ acc)
  | answered _ closed =>
    rw [hclosed] at closed
    cases closed
  | cancelled _ closed =>
    rw [hclosed] at closed
    cases closed
  | filled _ _ order filled executed =>
    rw [order, executed] at hle
    omega

end Phase

theorem Inv.requestCancel {s : Session} (h : s.Inv) {id : Nat} {e : OrderManager.Entry}
    (he : s.trader.om.orders id = some e) (hactive : e.isActive) {msgs : List OrderMsg}
    (hmsgs : msgs = [] ∨ msgs = [.X id])
    : Inv { s with
        trader := { s.trader with om := (s.trader.om.requestCancel id).1 }
        toVenue := s.toVenue ++ msgs } := by
  have hw := OrderManager.requestCancel_writes he hactive
  obtain ⟨e', he', ho, hstatus, hfilled⟩ := hw.self
  have hphase := h.phase id
  unfold InPhase at hphase
  rw [he] at hphase
  apply h.change id
  . exact h.wf.writes hw (h.wf.filled id e he)
  . exact h.wired
  . constructor
    . exact hw.of_ne
    . intro i hi
      cases hmsgs with
      | inl hnil =>
        rw [hnil, List.append_nil]
        rfl
      | inr hx =>
        rw [hx]
        exact filter_append_ne OrderMsg.id _ (Ne.symm hi)
    . intro i _
      rfl
    . intro i _
      rfl
    . intro i _
      rfl
  . obtain ⟨v, hv, hout, hmissed, hclosed, hacc⟩ := hphase.of_active hactive
    have hout' : (s.toVenue ++ msgs).filter (fun m => m.id = id) = msgs := by
      cases hmsgs with
      | inl hnil =>
        rw [hnil, List.append_nil]
        exact hout
      | inr hx =>
        have hid : (OrderMsg.X id).id = id := rfl
        rw [hx, filter_append_eq OrderMsg.id _ hid]
        exact congrArg (fun ms => ms ++ [OrderMsg.X id]) hout
    refine InPhase.of ?_ he' hout' hv rfl hmissed
    apply Phase.cancelling hstatus hmsgs hclosed
    exact hacc.congr ho hfilled

theorem Inv.cancel {s : Session} (h : s.Inv) (env : Env) (orderId : Nat) : (s.cancel env orderId).Inv := by
  have hsame : ∀ r : ExecutionEngine × Bool × List OrderMsg, r.1 = s.trader → r.2.2 = [] →
      Inv { s with trader := r.1, toVenue := s.toVenue ++ r.2.2 } := by
    intro r hr hm
    rw [hr, hm, List.append_nil]
    exact h
  unfold Session.cancel ExecutionEngine.cancelOrder
  rw [if_neg (not_not.2 h.wired)]
  cases he : s.trader.om.orders orderId with
  | none =>
    have hreq : s.trader.om.requestCancel orderId = (s.trader.om, false) := by
      unfold OrderManager.requestCancel
      rw [he]
    rw [hreq]
    exact hsame (s.trader, false, []) rfl rfl
  | some e =>
    by_cases hactive : e.isActive
    . have hreq : s.trader.om.requestCancel orderId =
          ((s.trader.om.requestCancel orderId).1, true) := by
        unfold OrderManager.requestCancel
        rw [he]
        dsimp only
        rw [if_pos hactive]
      rw [hreq]
      dsimp only
      cases env.wire orderId with
      | encodeFails => exact h.requestCancel he hactive (Or.inl rfl)
      | sendFails => exact h.requestCancel he hactive (Or.inl rfl)
      | sent => exact h.requestCancel he hactive (Or.inr rfl)
    . have hreq : s.trader.om.requestCancel orderId = (s.trader.om, false) := by
        unfold OrderManager.requestCancel
        rw [he]
        dsimp only
        rw [if_neg hactive]
      rw [hreq]
      exact hsame (s.trader, false, []) rfl rfl

theorem Inv.flatten {s : Session} (h : s.Inv) (env : Env)
    : Inv { s with
        trader := (s.trader.flattenOnDrawdown env).1
        toVenue := s.toVenue ++ (s.trader.flattenOnDrawdown env).2 } := by
  have hind : Inv { s with
      trader := { s.trader with om := (s.trader.flattenOnDrawdown env).1.om }
      toVenue := s.toVenue ++ (s.trader.flattenOnDrawdown env).2 } := by
    apply s.trader.flattenOnDrawdown_ind env (P := fun om msgs =>
      Inv { s with trader := { s.trader with om := om }, toVenue := s.toVenue ++ msgs })
    . rw [List.append_nil]
      exact h
    . intro om msgs id e hom he hactive
      have hnext := hom.requestCancel he hactive (Or.inr rfl)
      rw [List.append_assoc] at hnext
      exact hnext
    . intro om msgs id e _ _ _ hwired
      exact absurd h.wired hwired
  obtain ⟨_, hsender, hcodec, _⟩ := s.trader.flattenOnDrawdown_frame env
  constructor
  . exact hind.wf
  . dsimp only
    rw [hsender, hcodec]
    exact h.wired
  . exact hind.phase

theorem Inv.mark {s : Session} (h : s.Inv) (symbolId : Nat) (price : Int) : (s.mark symbolId price).Inv :=
  ⟨h.wf, h.wired, h.phase⟩

theorem Inv.submit {s : Session} (h : s.Inv) (env : Env) (sig : Signal) (strategyId : Nat)
    (type : OrderType) : (s.submit env sig strategyId type).Inv := by
  unfold Session.submit
  dsimp only
  cases horder : s.trader.orderFor sig strategyId type with
  | none =>
    rw [s.trader.submitSignal_none env horder, List.append_nil]
    exact h
  | some order =>
    obtain ⟨_, hpos, hlt, _⟩ := s.trader.orderFor_spec horder
    obtain ⟨e, he, ho, hstatus, hzero⟩ := s.trader.om.newOrder_orders order
    have hphase := h.phase s.trader.om.nextId
    obtain ⟨hout, hvenue, hinn, hmissed⟩ := hphase.of_none (h.wf.fresh _ (le_refl _))
    have hquantity : 0 < e.order.quantity := by
      rw [ho]
      exact hpos
    rcases s.trader.submitSignal_cases env horder with ⟨hr, hm⟩ | ⟨_, _, hr, hm⟩ | ⟨hsender, _⟩
    . have hw := OrderManager.onReject_writes he hstatus
      obtain ⟨e', he', _, hstatus', hfilled'⟩ := hw.self
      rw [hr, hm, List.append_nil]
      apply h.change s.trader.om.nextId
      . exact (h.wf.newOrder hlt).writes hw ((h.wf.newOrder hlt).filled _ e he)
      . exact h.wired
      . constructor
        . intro i hi
          dsimp only
          rw [hw.of_ne i hi]
          exact s.trader.om.newOrder_orders_of_ne order hi
        . exact fun _ _ => rfl
        . exact fun _ _ => rfl
        . exact fun _ _ => rfl
        . exact fun _ _ => rfl
      . refine InPhase.of ?_ he' hout hvenue hinn hmissed
        exact Phase.rejected hstatus' (hfilled'.trans hzero)
    . rw [hr, hm, ← ho]
      have hid : (OrderMsg.O e.order).id = s.trader.om.nextId := by
        rw [ho]
        rfl
      apply h.change s.trader.om.nextId
      . exact h.wf.newOrder hlt
      . exact h.wired
      . constructor
        . intro i hi
          exact s.trader.om.newOrder_orders_of_ne order hi
        . intro i hi
          apply filter_append_ne OrderMsg.id
          rw [hid]
          exact Ne.symm hi
        . exact fun _ _ => rfl
        . exact fun _ _ => rfl
        . exact fun _ _ => rfl
      . have hout' : (s.toVenue ++ [OrderMsg.O e.order]).filter
            (fun m => m.id = s.trader.om.nextId) = [.O e.order] := by
          rw [filter_append_eq OrderMsg.id _ hid]
          exact congrArg (fun ms => ms ++ [OrderMsg.O e.order]) hout
        refine InPhase.of ?_ he hout' hvenue hinn hmissed
        exact Phase.sent hstatus hzero hquantity
    . exact absurd h.wired.1 hsender

theorem filter_cons_ne {α : Type} (key : α → Nat) (xs : List α) {x : α} {id : Nat} (h : key x ≠ id)
    : (x :: xs).filter (fun y => key y = id) = xs.filter (fun y => key y = id) :=
  List.filter_cons_of_neg (by simpa using h)

theorem filter_cons_eq {α : Type} (key : α → Nat) (xs : List α) {x : α} {id : Nat} (h : key x = id)
    : (x :: xs).filter (fun y => key y = id) = x :: xs.filter (fun y => key y = id) :=
  List.filter_cons_of_pos (by simpa using h)

theorem Inv.receive {s s' : Session} (h : s.Inv) {ref : Nat} (hs : s.receive ref = some s') : s'.Inv := by
  unfold Session.receive at hs
  split at hs
  . cases hs
  . next o msgs htv =>
    cases hs
    have hout : s.out o.orderId = .O o :: msgs.filter (fun m => m.id = o.orderId) := by
      have hid : (OrderMsg.O o).id = o.orderId := rfl
      unfold out
      rw [htv, filter_cons_eq OrderMsg.id _ hid]
    have hphase := h.phase o.orderId
    unfold InPhase at hphase
    rw [hout] at hphase
    obtain ⟨e, he, hstatus, hzero, hpos, ho, hrest, _, hinn, hmissed⟩ := hphase.of_order
    apply h.change o.orderId
    . exact h.wf
    . exact h.wired
    . constructor
      . exact fun _ _ => rfl
      . intro i hi
        unfold out
        rw [htv, filter_cons_ne OrderMsg.id msgs (x := .O o) (Ne.symm hi)]
      . intro i hi
        exact Function.update_of_ne hi _ _
      . intro i hi
        exact filter_append_ne Fill.orderId _ (Ne.symm hi)
      . exact fun _ _ => rfl
    . have hinn' : (s.toTrader ++ [({ type := .A, orderId := o.orderId, exchangeRef := ref } : Fill)]).filter
          (fun f => f.orderId = o.orderId) =
            [{ type := .A, orderId := o.orderId, exchangeRef := ref }] := by
        have hid : ({ type := .A, orderId := o.orderId, exchangeRef := ref } : Fill).orderId =
          o.orderId := rfl
        rw [filter_append_eq Fill.orderId _ hid]
        exact congrArg (fun fs => fs ++ [_]) hinn
      refine InPhase.of ?_ he hrest (Function.update_self _ _ _) hinn' hmissed
      apply Phase.accepted hstatus hzero rfl rfl
      constructor
      . exact ho
      . exact Execs.nil
      . rw [hzero]
        rfl
      . exact Nat.zero_le _
      . rw [hzero]
        exact hpos
  . next id msgs htv =>
    cases hs
    have hout : s.out id = .X id :: msgs.filter (fun m => m.id = id) := by
      have hid : (OrderMsg.X id).id = id := rfl
      unfold out
      rw [htv, filter_cons_eq OrderMsg.id _ hid]
    have hphase := h.phase id
    unfold InPhase at hphase
    rw [hout] at hphase
    obtain ⟨e, v, he, hv, hstatus, hrest, hclosed, hacc⟩ := hphase.of_request
    apply h.change id
    . exact h.wf
    . exact h.wired
    . constructor
      . exact fun _ _ => rfl
      . intro i hi
        unfold out
        rw [htv, filter_cons_ne OrderMsg.id msgs (x := .X id) (Ne.symm hi)]
      . intro i hi
        exact Function.update_of_ne hi _ _
      . intro i hi
        exact filter_append_ne Fill.orderId _ (Ne.symm hi)
      . exact fun _ _ => rfl
    . have hinn' : (s.toTrader ++ [({ type := .C, orderId := id } : Fill)]).filter
          (fun f => f.orderId = id) = s.inn id ++ [{ type := .C, orderId := id }] := by
        have hid : ({ type := .C, orderId := id } : Fill).orderId = id := rfl
        exact filter_append_eq Fill.orderId _ hid
      have hv' : Function.update s.venue id ((s.venue id).map (fun v => { v with closed := true })) id =
          some { v with closed := true } := by
        rw [Function.update_self, hv]
        rfl
      refine InPhase.of ?_ he hrest hv' hinn' rfl
      apply Phase.answered hstatus rfl rfl
      exact ⟨hacc.order, hacc.execs, hacc.sum, hacc.executed_le, hacc.filled_lt⟩

theorem Inv.execute {s s' : Session} (h : s.Inv) {id q : Nat} {price : Int}
    (hs : s.execute id q price = some s') : s'.Inv := by
  unfold Session.execute at hs
  split at hs
  . cases hs
  . next v hv =>
    split at hs
    . next hguard =>
      cases hs
      have hphase := h.phase id
      unfold InPhase at hphase
      rw [hv] at hphase
      apply h.change id
      . exact h.wf
      . exact h.wired
      . constructor
        . exact fun _ _ => rfl
        . exact fun _ _ => rfl
        . intro i hi
          exact Function.update_of_ne hi _ _
        . intro i hi
          exact filter_append_ne Fill.orderId _ (Ne.symm hi)
        . exact fun _ _ => rfl
      . have hid : ({ type := .E, orderId := id, filledQty := q, fillPrice := price } : Fill).orderId =
          id := rfl
        refine InPhase.of ?_ rfl rfl (Function.update_self _ _ _)
          (filter_append_eq Fill.orderId _ hid) rfl
        exact hphase.execute (f := { type := .E, orderId := id, filledQty := q, fillPrice := price })
          hguard.1 rfl hguard.2.1 hguard.2.2
    . cases hs

theorem Inv.take {s s' : Session} (h : s.Inv) {f : Fill} {reports : List Fill}
    (hreports : s.toTrader = f :: reports) (hwf : s'.trader.om.Wf)
    (hwired : s'.trader.hasSender ∧ s'.trader.hasCodec)
    (horders : ∀ i, i ≠ f.orderId → s'.trader.om.orders i = s.trader.om.orders i)
    (htoVenue : s'.toVenue = s.toVenue) (hvenue : s'.venue = s.venue) (htoTrader : s'.toTrader = reports)
    (hmissed : ∀ i, i ≠ f.orderId → s'.missed i = s.missed i)
    (hphase : Phase f.orderId (s'.trader.om.orders f.orderId) (s.out f.orderId) (s.venue f.orderId)
      (reports.filter (fun g => g.orderId = f.orderId)) (s'.missed f.orderId)) : s'.Inv := by
  apply h.change f.orderId
  . exact hwf
  . exact hwired
  . constructor
    . exact horders
    . intro i _
      unfold out
      rw [htoVenue]
    . intro i _
      rw [hvenue]
    . intro i hi
      unfold inn
      rw [htoTrader, hreports, filter_cons_ne Fill.orderId reports (Ne.symm hi)]
    . exact hmissed
  . unfold InPhase out inn
    rw [htoVenue, hvenue, htoTrader]
    exact hphase

theorem deliver_eq {s : Session} {f : Fill} {reports : List Fill} {e : OrderManager.Entry}
    (hreports : s.toTrader = f :: reports) (he : s.trader.om.orders f.orderId = some e) (env : Env)
    : s.deliver env = some { s with
        trader := (s.trader.onOrderReport env f).1
        toVenue := s.toVenue ++ (s.trader.onOrderReport env f).2
        toTrader := reports
        missed :=
          if f.type = .E ∧ e.status = .PENDING_CANCEL then
            Function.update s.missed f.orderId (s.missed f.orderId + f.filledQty)
          else
            s.missed } := by
  unfold Session.deliver
  rw [hreports]
  dsimp only
  rw [he, Option.any_some]
  simp only [decide_eq_true_eq]

def book (s : Session) (f : Fill) (e : OrderManager.Entry) (reports : List Fill) : Session :=
  { s with
    trader := { s.trader with
      om := s.trader.om.onFill f.orderId f.filledQty f.fillPrice
      rm := s.trader.rm.onFill e.order f.filledQty }
    toTrader := reports
    missed :=
      if e.status = .PENDING_CANCEL then
        Function.update s.missed f.orderId (s.missed f.orderId + f.filledQty)
      else
        s.missed }

def flatten (s : Session) (env : Env) : Session :=
  { s with
    trader := (s.trader.flattenOnDrawdown env).1
    toVenue := s.toVenue ++ (s.trader.flattenOnDrawdown env).2 }

theorem deliver_E {s : Session} {f : Fill} {reports : List Fill} {e : OrderManager.Entry}
    (hreports : s.toTrader = f :: reports) (he : s.trader.om.orders f.orderId = some e)
    (ht : f.type = .E) (env : Env) : s.deliver env = some ((s.book f e reports).flatten env) := by
  rw [deliver_eq hreports he, s.trader.onOrderReport_E env he ht]
  simp only [ht, true_and]
  rfl

theorem inn_eq {s : Session} {f : Fill} {reports : List Fill} (hreports : s.toTrader = f :: reports)
    : s.inn f.orderId = f :: reports.filter (fun g => g.orderId = f.orderId) := by
  unfold inn
  rw [hreports, filter_cons_eq Fill.orderId reports rfl]

theorem Inv.book {s : Session} (h : s.Inv) {f : Fill} {reports : List Fill} {e : OrderManager.Entry}
    (hreports : s.toTrader = f :: reports) (he : s.trader.om.orders f.orderId = some e)
    (ht : f.type = .E) : (s.book f e reports).Inv := by
  have hphase := h.phase f.orderId
  unfold InPhase at hphase
  rw [inn_eq hreports] at hphase
  obtain ⟨e₁, he₁, hcases⟩ := hphase.deliver
  rw [he] at he₁
  cases he₁
  unfold Session.book
  rcases hcases with ⟨ht', _⟩ | ⟨_, hactive, hle, hnext⟩ | ⟨_, hs, hnext⟩ | ⟨ht', _⟩
  . rw [ht] at ht'
    cases ht'
  . have hw := OrderManager.onFill_writes f.filledQty f.fillPrice he hactive
    obtain ⟨e', he', ho, hs', hf⟩ := hw.self
    have hfill := e.fill_filled_of_le f.fillPrice hle (h.wf.quantity _ e he)
    have hstatus := e.fill_status f.filledQty f.fillPrice
    have hpending : e.status ≠ .PENDING_CANCEL := by
      intro hs
      unfold OrderManager.Entry.isActive at hactive
      simp [hs] at hactive
    rw [if_neg hpending]
    apply h.take hreports
    . exact h.wf.onFill f.orderId f.filledQty f.fillPrice
    . exact h.wired
    . exact hw.of_ne
    . rfl
    . rfl
    . rfl
    . exact fun _ _ => rfl
    . dsimp only
      rw [he']
      apply hnext e' ho (hf.trans hfill)
      rw [hs', hstatus, hf]
  . have hactive : ¬ e.isActive := by
      unfold OrderManager.Entry.isActive
      simp [hs]
    rw [if_pos hs, OrderManager.onFill_eq f.filledQty f.fillPrice he hactive]
    apply h.take hreports
    . exact h.wf
    . exact h.wired
    . exact fun _ _ => rfl
    . rfl
    . rfl
    . rfl
    . intro i hi
      exact Function.update_of_ne hi _ _
    . dsimp only
      rw [he, Function.update_self]
      exact hnext
  . rw [ht] at ht'
    cases ht'

theorem Inv.deliver {s s' : Session} (h : s.Inv) {env : Env} (hs : s.deliver env = some s') : s'.Inv := by
  cases hreports : s.toTrader with
  | nil =>
    unfold Session.deliver at hs
    rw [hreports] at hs
    cases hs
  | cons f reports =>
    have hphase := h.phase f.orderId
    unfold InPhase at hphase
    rw [inn_eq hreports] at hphase
    obtain ⟨e, he, hcases⟩ := hphase.deliver
    have hexec : f.type = .E → s'.Inv := by
      intro ht
      rw [deliver_E hreports he ht] at hs
      cases hs
      exact (h.book hreports he ht).flatten env
    -- acceptance and cancellation only change the status
    have hstatus : ∀ (om : OrderManager) (status : OrderStatus),
        s.trader.om.Writes om f.orderId e status e.filled →
        s' = { s with trader := { s.trader with om := om }, toTrader := reports } →
        (∀ e' : OrderManager.Entry, e'.order = e.order → e'.status = status → e'.filled = e.filled →
          Phase f.orderId (some e') (s.out f.orderId) (s.venue f.orderId)
            (reports.filter (fun g => g.orderId = f.orderId)) (s.missed f.orderId)) → s'.Inv := by
      intro om status hw heq hnext
      obtain ⟨e', he', ho, hs', hf⟩ := hw.self
      rw [heq]
      apply h.take hreports
      . exact h.wf.writes hw (h.wf.filled _ e he)
      . exact h.wired
      . exact hw.of_ne
      . rfl
      . rfl
      . rfl
      . exact fun _ _ => rfl
      . dsimp only
        rw [he']
        exact hnext e' ho hs' hf
    rcases hcases with ⟨ht, hpending, hnext⟩ | ⟨ht, _⟩ | ⟨ht, _⟩ | ⟨ht, hpending, hnext⟩
    . rw [deliver_eq hreports he, s.trader.onOrderReport_A env he ht, if_neg (by simp [ht]),
        List.append_nil] at hs
      cases hs
      exact hstatus _ _ (OrderManager.onAccept_writes f.exchangeRef he hpending) rfl hnext
    . exact hexec ht
    . exact hexec ht
    . rw [deliver_eq hreports he, s.trader.onOrderReport_C env he ht, if_neg (by simp [ht]),
        List.append_nil] at hs
      cases hs
      exact hstatus _ _ (OrderManager.onCancel_writes he hpending) rfl hnext

theorem Inv.step {s s' : Session} (h : s.Inv) {a : Action} (hs : s.step a = some s') : s'.Inv := by
  cases a with
  | submit env sig strategyId type =>
    cases hs
    exact h.submit env sig strategyId type
  | cancel env orderId =>
    cases hs
    exact h.cancel env orderId
  | mark symbolId price =>
    cases hs
    exact h.mark symbolId price
  | receive ref => exact h.receive hs
  | execute orderId qty price => exact h.execute hs
  | deliver env => exact h.deliver hs

end Session

end NebulaXTrader
