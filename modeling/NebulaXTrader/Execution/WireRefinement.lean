import NebulaXTrader.Execution.Exposure
import NebulaXTrader.Execution.WireMessages

/-!
This module contains the theorem that the bytes on the connection carry the messages of `Session`: however TCP cuts them
into pieces, the trader and the simulated exchange behave as the two parties that send each other whole messages.
-/

namespace NebulaXTrader

open OuchOrderCodec (kMsgBookQuery)

namespace ExecutionEngine

variable {ex : ExecutionEngine}

theorem nextId_onFill (om : OrderManager) (id qty : Nat) (price : Int) : (om.onFill id qty price).nextId = om.nextId := by
  unfold OrderManager.onFill
  split
  . rfl
  . split
    . dsimp only
      split
      . rfl
      . rfl
    . rfl

theorem nextId_onOrderReport (env : Env) (f : Fill) : (ex.onOrderReport env f).1.om.nextId = ex.om.nextId := by
  unfold onOrderReport
  split
  . rfl
  . split
    . dsimp only
      unfold OrderManager.onAccept
      split
      . rfl
      . split
        . rfl
        . rfl
    . dsimp only
      rw [(Session.Cancels.flattenOnDrawdown _ env).nextId]
      exact nextId_onFill ex.om _ _ _
    . dsimp only
      unfold OrderManager.onCancel
      split
      . rfl
      . split
        . rfl
        . rfl
    . dsimp only
      unfold OrderManager.onReject
      split
      . rfl
      . split
        . rfl
        . rfl
    . rfl

theorem cancelOrder_msgs (env : Env) (orderId : Nat) : ∀ m ∈ (ex.cancelOrder env orderId).2.2, ∃ id, m = .X id := by
  intro m hm
  unfold cancelOrder at hm
  split at hm
  . cases hm
  . split at hm
    . cases hm
    . split at hm
      . cases hm
      . cases hm
      . exact ⟨orderId, List.mem_singleton.1 hm⟩

theorem onOrderReport_msgs (env : Env) (f : Fill) : ∀ m ∈ (ex.onOrderReport env f).2, ∃ id, m = .X id := by
  have hflatten : ∀ ex : ExecutionEngine, ∀ m ∈ (ex.flattenOnDrawdown env).2, ∃ id, m = .X id := by
    intro ex
    apply ex.flattenOnDrawdown_ind env (P := fun _ msgs => ∀ m ∈ msgs, ∃ id, m = .X id)
    . exact fun m hm => absurd hm List.not_mem_nil
    . intro om msgs id e h _ _ m hm
      cases List.mem_append.1 hm with
      | inl hold => exact h m hold
      | inr hnew => exact ⟨id, List.mem_singleton.1 hnew⟩
    . intro om msgs id e h _ _ _
      exact h
  intro m hm
  unfold onOrderReport at hm
  split at hm
  . cases hm
  . split at hm
    . cases hm
    . exact hflatten _ m hm
    . cases hm
    . cases hm
    . cases hm

theorem submitSignal_msgs (env : Env) (sig : Signal) (strategyId : Nat) (type : OrderType)
    : let r := ex.submitSignal env sig strategyId type
      r.1.om.nextId ≤ ex.om.nextId + 1 ∧ ∀ m ∈ r.2.2, ∃ o, m = .O o ∧ o.orderId = ex.om.nextId ∧ 0 < o.quantity ∧
        o.quantity = sig.quantity ex.baseQty ∧ 0 ≤ o.price ∧ o.price = sig.price := by
  intro r
  cases ho : ex.orderFor sig strategyId type with
  | none =>
    have hr : r = (ex, 0, []) := ex.submitSignal_none env ho
    rw [hr]
    exact ⟨Nat.le_succ _, fun m hm => absurd hm List.not_mem_nil⟩
  | some order =>
    have hnumbers : 0 < order.quantity ∧ order.quantity = sig.quantity ex.baseQty ∧ 0 ≤ order.price ∧
        order.price = sig.price := by
      unfold orderFor at ho
      split at ho
      . cases ho
      . next hside =>
        split at ho
        . cases ho
        . dsimp only at ho
          split at ho
          . cases ho
          . next hqty =>
            cases ho
            rw [not_or] at hside
            exact ⟨Nat.pos_of_ne_zero hqty, rfl, Int.not_lt.1 hside.2, rfl⟩
    rcases ex.submitSignal_cases env ho with hreject | hsent | hfilled
    . rw [show r.1 = _ from hreject.1, show r.2.2 = [] from hreject.2]
      refine ⟨?_, fun m hm => absurd hm List.not_mem_nil⟩
      unfold OrderManager.onReject
      split
      . exact Nat.le_refl _
      . split
        . exact Nat.le_refl _
        . exact Nat.le_refl _
    . rw [show r.1 = _ from hsent.2.2.1, show r.2.2 = _ from hsent.2.2.2]
      refine ⟨Nat.le_refl _, ?_⟩
      intro m hm
      rw [List.mem_singleton] at hm
      exact ⟨_, hm, rfl, hnumbers⟩
    . rw [show r.1 = _ from hfilled.2.2.1, show r.2.2 = [] from hfilled.2.2.2]
      refine ⟨?_, fun m hm => absurd hm List.not_mem_nil⟩
      dsimp only
      rw [nextId_onFill]
      unfold OrderManager.onAccept
      split
      . exact Nat.le_refl _
      . split
        . exact Nat.le_refl _
        . exact Nat.le_refl _

end ExecutionEngine

namespace Session

variable {s : Session} {msgs : List OrderMsg}

theorem reaches_executed {o : Order} (ref : Nat) (hmsgs : s.toVenue = .O o :: msgs) (hpos : 0 < o.quantity)
    : Run.Reaches (Run.restrict step Fits) s { s with
        toVenue := msgs
        venue := Function.update s.venue o.orderId (some { order := o, executed := o.quantity, closed := false })
        toTrader := s.toTrader ++ [{ type := .A, orderId := o.orderId, exchangeRef := ref },
          { type := .E, orderId := o.orderId, filledQty := o.quantity, fillPrice := o.price }] } := by
  have hreceive : s.step (.receive ref) = some { s with
      toVenue := msgs
      venue := Function.update s.venue o.orderId (some { order := o, executed := 0, closed := false })
      toTrader := s.toTrader ++ [{ type := .A, orderId := o.orderId, exchangeRef := ref }] } := by
    show s.receive ref = _
    unfold Session.receive
    rw [hmsgs]
  apply Run.Reaches.head (Run.restrict_eq_some.2 ⟨trivial, hreceive⟩)
  apply Run.Reaches.of_step (a := .execute o.orderId o.quantity o.price)
  refine Run.restrict_eq_some.2 ⟨trivial, ?_⟩
  show Session.execute _ o.orderId o.quantity o.price = _
  unfold Session.execute
  dsimp only
  rw [Function.update_self]
  dsimp only
  rw [if_pos ⟨rfl, hpos, by omega⟩, Function.update_idem, List.append_assoc, Nat.zero_add]
  rfl

theorem reaches_cancelled {id : Nat} (hmsgs : s.toVenue = .X id :: msgs)
    : Run.Reaches (Run.restrict step Fits) s { s with
        toVenue := msgs
        venue := Function.update s.venue id ((s.venue id).map (fun v => { v with closed := true }))
        toTrader := s.toTrader ++ [{ type := .C, orderId := id }] } := by
  apply Run.Reaches.of_step (a := .receive 0)
  refine Run.restrict_eq_some.2 ⟨trivial, ?_⟩
  show s.receive 0 = _
  unfold Session.receive
  rw [hmsgs]

theorem step_deliver {f : Fill} {reports : List Fill} (hreports : s.toTrader = f :: reports) (env : Env)
    : ∃ missed, s.step (.deliver env) = some {
        trader := (s.trader.onOrderReport env f).1
        toVenue := s.toVenue ++ (s.trader.onOrderReport env f).2
        venue := s.venue
        toTrader := reports
        missed := missed } := by
  have hdeliver : s.step (.deliver env) = s.deliver env := rfl
  rw [hdeliver]
  unfold Session.deliver
  rw [hreports]
  exact ⟨_, rfl⟩

end Session

namespace OrderLink

variable {w w' : OrderLink} {s s' : Session}

theorem send_eq (w : OrderLink) (msgs : List OrderMsg)
    : ∃ codec, w.send msgs = { w with codec := codec, toVenue := w.toVenue ++ msgs.flatMap OrderMsg.encode } ∧
        codec.refToId = w.codec.refToId := by
  induction msgs generalizing w with
  | nil =>
    refine ⟨w.codec, ?_, rfl⟩
    rw [List.flatMap_nil, List.append_nil]
    rfl
  | cons m msgs ih =>
    cases m with
    | O o =>
      obtain ⟨codec, hsend, href⟩ :=
        ih { w with codec := (w.codec.encodeOrder o).1, toVenue := w.toVenue ++ OrderMsg.encode (.O o) }
      refine ⟨codec, ?_, href.trans (w.codec.encodeOrder_refToId o)⟩
      rw [List.flatMap_cons, ← List.append_assoc]
      exact hsend
    | X id =>
      obtain ⟨codec, hsend, href⟩ := ih { w with toVenue := w.toVenue ++ OrderMsg.encode (.X id) }
      refine ⟨codec, ?_, href⟩
      rw [List.flatMap_cons, ← List.append_assoc]
      exact hsend

/--
The bytes between the trader and the exchange are those of the messages on their way. A query, which the exchange does
not know, hides all that the trader sends behind it.
-/
def Carried (bytes : List UInt8) (msgs : List OrderMsg) : Prop :=
  ∃ seen lost tail, msgs = seen ++ lost ∧ bytes = seen.flatMap OrderMsg.encode ++ tail ∧
    (lost = [] ∧ tail = [] ∨ tail.head? = some kMsgBookQuery)

theorem Carried.append {bytes : List UInt8} {msgs : List OrderMsg} (h : Carried bytes msgs) (more : List OrderMsg)
    : Carried (bytes ++ more.flatMap OrderMsg.encode) (msgs ++ more) := by
  obtain ⟨seen, lost, tail, hmsgs, hbytes, htail⟩ := h
  cases htail with
  | inl hnil =>
    refine ⟨seen ++ more, [], [], ?_, ?_, Or.inl ⟨rfl, rfl⟩⟩
    . rw [hmsgs, hnil.1, List.append_nil, List.append_nil]
    . rw [hbytes, hnil.2, List.append_nil, List.append_nil, List.flatMap_append]
  | inr hquery =>
    refine ⟨seen, lost ++ more, tail ++ more.flatMap OrderMsg.encode, ?_, ?_, Or.inr ?_⟩
    . rw [hmsgs, List.append_assoc]
    . rw [hbytes, List.append_assoc]
    . rw [List.head?_append, hquery]
      rfl

theorem Carried.query {bytes : List UInt8} {msgs : List OrderMsg} (h : Carried bytes msgs) (symbolId : Nat)
    : Carried (bytes ++ OuchOrderCodec.encodeBookQuery symbolId) msgs := by
  obtain ⟨seen, lost, tail, hmsgs, hbytes, htail⟩ := h
  refine ⟨seen, lost, tail ++ OuchOrderCodec.encodeBookQuery symbolId, hmsgs, ?_, Or.inr ?_⟩
  . rw [hbytes, List.append_assoc]
  . rw [List.head?_append]
    cases htail with
    | inl hnil =>
      rw [hnil.2]
      rfl
    | inr hquery =>
      rw [hquery]
      rfl

structure Sim (w : OrderLink) (s : Session) : Prop where
  trader : s.trader = w.ex
  carried : w.venue.connected = true → Carried (w.venue.buf ++ w.toVenue) s.toVenue
  buf : w.venue.buf = [] ∨
    ∃ mlen, w.venue.buf.head?.bind SimExchange.msgLen = some mlen ∧ w.venue.buf.length < mlen
  fits : ∀ m ∈ s.toVenue, m.Fits
  reports : ∃ frames, List.Forall₂ (InFlight w.venue.codec) s.toTrader frames ∧ w.stream ++ w.toTrader = frames.flatten
  assigned : w.venue.codec.Assigned
  learned : Learned w.codec w.venue.codec
  few : w.ex.om.nextId ≤ 10 ^ 14
  full : ∀ id v, s.venue id = some v → v.executed = v.order.quantity

theorem Sim.start (config : RiskManager.Config) (baseQty : Nat)
    : Sim (start config baseQty) (Session.start config baseQty) where
  trader := rfl
  carried := fun _ => ⟨[], [], [], rfl, rfl, Or.inl ⟨rfl, rfl⟩⟩
  buf := Or.inl rfl
  fits := fun _ hm => absurd hm List.not_mem_nil
  reports := ⟨[], List.Forall₂.nil, rfl⟩
  assigned := .init
  learned := nofun
  few := by
    show 1 ≤ 10 ^ 14
    decide
  full := nofun

theorem Sim.engine (h : Sim w s) {ex : ExecutionEngine} (hfew : ex.om.nextId ≤ 10 ^ 14)
    : Sim { w with ex := ex } { s with trader := ex } :=
  ⟨rfl, h.carried, h.buf, h.fits, h.reports, h.assigned, h.learned, hfew, h.full⟩

theorem Sim.send (h : Sim w s) {msgs : List OrderMsg} (hmsgs : ∀ m ∈ msgs, m.Fits)
    : Sim (w.send msgs) { s with toVenue := s.toVenue ++ msgs } := by
  obtain ⟨codec, hsend, href⟩ := w.send_eq msgs
  rw [hsend]
  refine ⟨h.trader, ?_, h.buf, ?_, h.reports, h.assigned, ?_, h.few, h.full⟩
  . intro hconnected
    dsimp only
    rw [← List.append_assoc]
    exact (h.carried hconnected).append msgs
  . intro m hm
    cases List.mem_append.1 hm with
    | inl hold => exact h.fits m hold
    | inr hnew => exact hmsgs m hnew
  . intro ref id hid
    dsimp only at hid
    rw [href] at hid
    exact h.learned ref id hid

/--
The numbers of an order that is submitted fit into its frame, and what the trader reads at once fits into its buffer.
-/
def Small (w : OrderLink) (a : Action) : Prop :=
  match a with
  | .submit _ sig _ _ =>
    w.ex.om.nextId < 10 ^ 14 ∧ sig.price ≤ 42949672 ∧ sig.quantity w.ex.baseQty < 2 ^ 32
  | .recv n => n ≤ kRecvLen
  | _ => True

instance (w : OrderLink) (a : Action) : Decidable (Small w a) :=
  match a with
  | .submit _ _ _ _ => inferInstanceAs (Decidable (_ ∧ _ ∧ _))
  | .recv n => inferInstanceAs (Decidable (n ≤ kRecvLen))
  | .cancel _ _ | .query _ | .mark _ _ | .exchangeRecv _ | .hangup | .frame _ => isTrue trivial

theorem known_of_mem (h : s.Inv) {m : OrderMsg} (hm : m ∈ s.toVenue) : m.id < s.trader.om.nextId := by
  -- Every message on its way is about an order that the trader knows.
  have hphase := h.phase m.id
  unfold Session.InPhase at hphase
  cases he : s.trader.om.orders m.id with
  | some e => exact h.wf.lt he
  | none =>
    have hout : m ∈ s.out m.id := by
      unfold Session.out
      rw [List.mem_filter]
      exact ⟨hm, decide_eq_true rfl⟩
    rw [(hphase.of_none he).1] at hout
    exact absurd hout List.not_mem_nil

theorem fits_requests (hinv : s'.Inv) (hfew : s'.trader.om.nextId ≤ 10 ^ 14) {msgs : List OrderMsg}
    (hmem : ∀ m ∈ msgs, m ∈ s'.toVenue) (hreq : ∀ m ∈ msgs, ∃ id, m = .X id) : ∀ m ∈ msgs, m.Fits := by
  intro m hm
  have hlt := known_of_mem hinv (hmem m hm)
  obtain ⟨id, rfl⟩ := hreq m hm
  exact lt_of_lt_of_le hlt hfew

theorem step_submit (h : Sim w s) {env : Env} {sig : Signal} {strategyId : Nat} {type : OrderType}
    (hsmall : Small w (.submit env sig strategyId type)) (hstep : step w (.submit env sig strategyId type) = some w')
    : ∃ s', s.step (.submit env sig strategyId type) = some s' ∧ Sim w' s' := by
  obtain ⟨hid, hprice, hqty⟩ := hsmall
  obtain ⟨hfew, hmsgs⟩ := w.ex.submitSignal_msgs env sig strategyId type
  cases hstep
  refine ⟨_, rfl, ?_⟩
  unfold Session.submit
  rw [h.trader]
  refine (h.engine (hfew.trans hid)).send ?_
  intro m hm
  obtain ⟨o, rfl, horderId, hpos, hquantity, h0, heq⟩ := hmsgs m hm
  refine ⟨?_, hpos, ?_, h0, ?_⟩
  . rw [horderId]
    exact hid
  . rw [hquantity]
    exact hqty
  . rw [heq]
    exact hprice

theorem step_cancel (h : Sim w s) (hinv : s.Inv) {env : Env} {orderId : Nat}
    (hstep : step w (.cancel env orderId) = some w')
    : ∃ s', s.step (.cancel env orderId) = some s' ∧ Sim w' s' := by
  have hinv' := hinv.cancel env orderId
  cases hstep
  refine ⟨_, rfl, ?_⟩
  unfold Session.cancel at hinv' ⊢
  rw [h.trader] at hinv' ⊢
  have hfew : (w.ex.cancelOrder env orderId).1.om.nextId ≤ 10 ^ 14 := by
    rw [(Session.Cancels.cancelOrder w.ex env orderId).1.nextId]
    exact h.few
  apply (h.engine hfew).send
  apply fits_requests hinv' hfew
  . intro m hm
    exact List.mem_append_right _ hm
  . exact w.ex.cancelOrder_msgs env orderId

theorem length_recv_le {x : SimExchange} {chunk : List UInt8} {mlen : Nat} (hwanted : chunk.length ≤ x.wanted)
    (hbuf : x.buf = [] ∨ ∃ mlen, x.buf.head?.bind SimExchange.msgLen = some mlen ∧ x.buf.length < mlen)
    (hlen : (x.buf ++ chunk).head?.bind SimExchange.msgLen = some mlen) : (x.buf ++ chunk).length ≤ mlen := by
  obtain ⟨type, _, htype⟩ := Option.bind_eq_some_iff.1 hlen
  have hpos := SimExchange.msgLen_pos htype
  unfold SimExchange.wanted at hwanted
  rw [List.length_append]
  cases hbuf with
  | inl hnil =>
    rw [hnil] at hwanted ⊢
    simp only [List.head?_nil, Option.bind_none] at hwanted
    rw [List.length_nil]
    omega
  | inr hsome =>
    obtain ⟨mlen', hmlen', hlt⟩ := hsome
    have hne : x.buf ≠ [] := by
      intro hnil
      rw [hnil] at hmlen'
      cases hmlen'
    rw [List.head?_append_of_ne_nil _ hne, hmlen'] at hlen
    cases hlen
    rw [hmlen'] at hwanted
    dsimp only at hwanted
    omega

theorem take_message {msgs : List OrderMsg} {buf rest : List UInt8} {mlen : Nat} (hcarried : Carried (buf ++ rest) msgs)
    (hlen : buf.head?.bind SimExchange.msgLen = some mlen) (hmlen : buf.length = mlen)
    : ∃ m ms, msgs = m :: ms ∧ buf = m.encode ∧ Carried rest ms := by
  obtain ⟨seen, lost, tail, hmsgs, hbytes, htail⟩ := hcarried
  have hne : buf ≠ [] := by
    intro hnil
    rw [hnil] at hlen
    cases hlen
  have hhead : (buf ++ rest).head? = buf.head? := List.head?_append_of_ne_nil _ hne
  rw [hbytes] at hhead
  cases seen with
  | nil =>
    rw [List.flatMap_nil, List.nil_append] at hhead
    rw [← hhead] at hlen
    cases htail with
    | inl hnil =>
      rw [hnil.2] at hlen
      cases hlen
    | inr hquery =>
      rw [hquery] at hlen
      cases hlen
  | cons m seen =>
    have hencode := SimExchange.msgLen_encode m
    have hne' : m.encode ≠ [] := by
      intro hnil
      rw [hnil] at hencode
      cases hencode
    rw [List.flatMap_cons, List.append_assoc] at hbytes hhead
    rw [List.head?_append_of_ne_nil _ hne'] at hhead
    rw [← hhead, hencode, Option.some_inj] at hlen
    obtain ⟨hbuf, hrest⟩ := List.append_inj hbytes (hmlen.trans hlen.symm)
    exact ⟨m, seen ++ lost, hmsgs, hbuf, seen, lost, tail, rfl, hrest, htail⟩

theorem Sim.report (h : Sim w s) {codec : OuchOrderCodec} (sent : Nat) {m : OrderMsg} {toVenue : List OrderMsg}
    {bytes : List UInt8} {venue : Nat → Option VenueOrder} {reports : List Fill} {frames : List (List UInt8)}
    (hmsgs : s.toVenue = m :: toVenue) (hcarried : Carried bytes toVenue) (hassigned : codec.Assigned)
    (hkeep : ∀ id ref, w.venue.codec.idToRef id = some ref → codec.idToRef id = some ref)
    (hflight : List.Forall₂ (InFlight codec) reports frames)
    (hfull : ∀ id v, venue id = some v → v.executed = v.order.quantity)
    : Sim { w with
          toVenue := bytes
          venue := { w.venue with codec := codec, buf := [], ordersReceived := sent }
          toTrader := w.toTrader ++ frames.flatten }
        { s with toVenue := toVenue, venue := venue, toTrader := s.toTrader ++ reports } := by
  obtain ⟨frames₀, hframes, hbytes⟩ := h.reports
  refine ⟨h.trader, fun _ => hcarried, Or.inl rfl, ?_, ⟨frames₀ ++ frames, ?_, ?_⟩, hassigned, ?_, h.few, hfull⟩
  . intro m' hm'
    apply h.fits
    rw [hmsgs]
    exact List.mem_cons_of_mem _ hm'
  . exact List.rel_append (hframes.imp fun _ _ h => h.mono hkeep) hflight
  . dsimp only
    rw [← List.append_assoc, hbytes, List.flatten_append]
  . intro ref id hlearn
    exact hkeep _ _ (h.learned ref id hlearn)

theorem Sim.full_update (h : Sim w s) (orderId : Nat) {v : VenueOrder} (hv : v.executed = v.order.quantity)
    (id : Nat) (v' : VenueOrder) (hv' : Function.update s.venue orderId (some v) id = some v')
    : v'.executed = v'.order.quantity := by
  by_cases hid : id = orderId
  . rw [hid, Function.update_self] at hv'
    cases hv'
    exact hv
  . rw [Function.update_of_ne hid] at hv'
    exact h.full id v' hv'

theorem Sim.full_close (h : Sim w s) (orderId id : Nat) (v' : VenueOrder)
    (hv' : Function.update s.venue orderId ((s.venue orderId).map (fun v => { v with closed := true })) id = some v')
    : v'.executed = v'.order.quantity := by
  by_cases hid : id = orderId
  . rw [hid, Function.update_self] at hv'
    obtain ⟨v, hv, hclose⟩ := Option.map_eq_some_iff.1 hv'
    rw [← hclose]
    exact h.full orderId v hv
  . rw [Function.update_of_ne hid] at hv'
    exact h.full id v' hv'

theorem step_exchangeRecv (h : Sim w s) {n : Nat} (hstep : step w (.exchangeRecv n) = some w')
    : ∃ s', Run.Reaches (Run.restrict Session.step Session.Fits) s s' ∧ Sim w' s' := by
  unfold step at hstep
  dsimp only at hstep
  split at hstep
  . next hcan =>
    obtain ⟨hconnected, hn, hwanted, hle⟩ := hcan
    have hcarried := h.carried hconnected
    have hlength : (w.toVenue.take n).length = n := by
      rw [List.length_take]
      omega
    rw [← List.take_append_drop n w.toVenue, ← List.append_assoc] at hcarried
    cases hstep
    unfold SimExchange.recv
    dsimp only
    cases hlen : (w.venue.buf ++ w.toVenue.take n).head?.bind SimExchange.msgLen with
    | none =>
      refine ⟨s, Run.Reaches.refl s, h.trader, nofun, Or.inl rfl, h.fits, ?_, h.assigned, h.learned, h.few, h.full⟩
      dsimp only
      rw [List.append_nil]
      exact h.reports
    | some mlen =>
      dsimp only
      split
      . next hlt =>
        refine ⟨s, Run.Reaches.refl s, h.trader, fun _ => hcarried, Or.inr ⟨mlen, hlen, hlt⟩, h.fits, ?_, h.assigned,
          h.learned, h.few, h.full⟩
        dsimp only
        rw [List.append_nil]
        exact h.reports
      . next hge =>
        have hmlen : (w.venue.buf ++ w.toVenue.take n).length ≤ mlen :=
          length_recv_le (by rw [hlength]; exact hwanted) h.buf hlen
        obtain ⟨m, ms, hmsgs, hencode, hrest⟩ := take_message hcarried hlen (by omega)
        have hfits := h.fits m (by rw [hmsgs]; exact List.mem_cons_self)
        rw [hencode]
        cases m with
        | O o =>
          obtain ⟨codec, ref, ack, exec, hhandle, hassigned, hkeep, hack, hexec⟩ :=
            SimExchange.handle_order (x := { w.venue with buf := [] }) h.assigned hfits
          rw [hhandle]
          refine ⟨_, Session.reaches_executed ref hmsgs hfits.2.1, ?_⟩
          have hnext := h.report (w.venue.ordersReceived + 1) hmsgs hrest hassigned hkeep
            (.cons hack (.cons hexec .nil)) (h.full_update o.orderId (v := ⟨o, o.quantity, false⟩) rfl)
          rw [List.flatten_cons, List.flatten_cons, List.flatten_nil, List.append_nil] at hnext
          exact hnext
        | X id =>
          obtain ⟨codec, cmsg, hhandle, hassigned, hkeep, hcmsg⟩ :=
            SimExchange.handle_cancel (x := { w.venue with buf := [] }) h.assigned hfits
          rw [hhandle]
          refine ⟨_, Session.reaches_cancelled hmsgs, ?_⟩
          have hnext := h.report w.venue.ordersReceived hmsgs hrest hassigned hkeep (.cons hcmsg .nil)
            (h.full_close id)
          rw [List.flatten_cons, List.flatten_nil, List.append_nil] at hnext
          exact hnext
  . cases hstep

theorem step_frame (h : Sim w s) (hinv : s.Inv) {env : Env} (hstep : step w (.frame env) = some w')
    : ∃ s', s.step (.deliver env) = some s' ∧ Sim w' s' := by
  obtain ⟨frames, hframes, hbytes⟩ := h.reports
  unfold step at hstep
  dsimp only at hstep
  cases hnext : ReportStream.next w.stream with
  | none =>
    rw [hnext] at hstep
    cases hstep
  | some p =>
    obtain ⟨o, stream⟩ := p
    rw [hnext] at hstep
    have hfront := ReportStream.deframer.extend w.stream o stream w.toTrader hnext
    rw [hbytes] at hfront
    generalize hpending : s.toTrader = pending at hframes
    cases hframes with
    | nil => cases hfront
    | @cons f frame reports rest hflight hrest =>
      obtain ⟨hframe, hhand⟩ := hflight.isFrame
      have hfirst := ReportStream.next_frame hframe rest.flatten
      rw [hhand] at hfirst
      have heq := hfirst.symm.trans hfront
      rw [Option.some_inj, Prod.mk.injEq] at heq
      obtain ⟨rfl, hstream⟩ := heq
      obtain ⟨codec, g, hdecode, hlearned, hengine⟩ := hflight.decodeFill h.assigned h.learned
      obtain ⟨missed, hdeliver⟩ := Session.step_deliver hpending env
      have hinv' := hinv.step hdeliver
      refine ⟨_, hdeliver, ?_⟩
      rw [h.trader] at hinv' ⊢
      unfold handle at hstep
      dsimp only at hstep
      rw [hdecode] at hstep
      dsimp only at hstep
      rw [hengine] at hstep
      cases hstep
      have hfew : (w.ex.onOrderReport env f).1.om.nextId ≤ 10 ^ 14 := by
        rw [ExecutionEngine.nextId_onOrderReport]
        exact h.few
      have hsim : Sim { w with stream := stream, codec := codec, ex := (w.ex.onOrderReport env f).1 }
          { s with trader := (w.ex.onOrderReport env f).1, toTrader := reports, missed := missed } :=
        ⟨rfl, h.carried, h.buf, h.fits, ⟨rest, hrest, hstream.symm⟩, h.assigned, hlearned, hfew, h.full⟩
      apply hsim.send
      apply fits_requests hinv' hfew
      . intro m hm
        exact List.mem_append_right _ hm
      . exact w.ex.onOrderReport_msgs env f

def Action.isSubmit (a : Action) : Bool :=
  match a with
  | .submit _ _ _ _ => true
  | _ => false

theorem Sim.step (h : Sim w s) (hinv : s.Inv) {a : Action} (ha : a.isSubmit = false) (hsmall : Small w a)
    (hstep : step w a = some w')
    : ∃ s', Run.Reaches (Run.restrict Session.step Session.Fits) s s' ∧ Sim w' s' := by
  -- The bytes are one way to carry the messages of the session: each step of the connection is matched.
  cases a with
  | submit env sig strategyId type => cases ha
  | cancel env orderId =>
    obtain ⟨s', hmatch, hsim⟩ := step_cancel h hinv hstep
    exact ⟨s', Run.Reaches.of_step (a := .cancel env orderId) (Run.restrict_eq_some.2 ⟨trivial, hmatch⟩), hsim⟩
  | query symbolId =>
    cases hstep
    refine ⟨s, Run.Reaches.refl s, h.trader, ?_, h.buf, h.fits, h.reports, h.assigned, h.learned, h.few, h.full⟩
    intro hconnected
    dsimp only
    rw [← List.append_assoc]
    exact (h.carried hconnected).query symbolId
  | mark symbolId price =>
    cases hstep
    have hmatch : Run.restrict Session.step Session.Fits s (.mark symbolId price) = some (s.mark symbolId price) := rfl
    refine ⟨_, Run.Reaches.of_step hmatch, ?_⟩
    unfold Session.mark
    rw [h.trader]
    exact h.engine h.few
  | exchangeRecv n => exact step_exchangeRecv h hstep
  | hangup =>
    unfold OrderLink.step at hstep
    dsimp only at hstep
    split at hstep
    . cases hstep
      exact ⟨s, Run.Reaches.refl s, h.trader, nofun, Or.inl rfl, h.fits, h.reports, h.assigned, h.learned, h.few, h.full⟩
    . cases hstep
  | recv n =>
    unfold OrderLink.step at hstep
    dsimp only at hstep
    split at hstep
    . cases hstep
      obtain ⟨frames, hframes, hbytes⟩ := h.reports
      refine ⟨s, Run.Reaches.refl s, h.trader, h.carried, h.buf, h.fits, ⟨frames, hframes, ?_⟩, h.assigned, h.learned,
        h.few, h.full⟩
      have hall : (w.toTrader.take n).take kRecvLen = w.toTrader.take n := by
        apply List.take_of_length_le
        exact (List.length_take_le n _).trans hsmall
      dsimp only
      rw [hall, List.append_assoc, List.take_append_drop]
      exact hbytes
    . cases hstep
  | frame env =>
    obtain ⟨s', hmatch, hsim⟩ := step_frame h hinv hstep
    exact ⟨s', Run.Reaches.of_step (a := .deliver env) (Run.restrict_eq_some.2 ⟨trivial, hmatch⟩), hsim⟩

/--
Whatever pieces `recv` returns on either side, if the trader never reads more at once than its buffer holds it is in a
state that it also reaches when whole messages are exchanged, and the bytes on their way are those of the messages on
their way.
-/
theorem refines {config : RiskManager.Config} {baseQty : Nat} {actions : List Action}
    (hsmall : Run.Along step Small (start config baseQty) actions)
    (hrun : Run.exec step (start config baseQty) actions = some w)
    : ∃ s, Run.Reaches Session.step (Session.start config baseQty) s ∧ Sim w s := by
  have hstep : ∀ (w : OrderLink) (s : Session) (a : Action) (w' : OrderLink), Sim w s ∧ s.Inv → Small w a →
      step w a = some w' → ∃ s', Run.Reaches Session.step s s' ∧ Sim w' s' ∧ s'.Inv := by
    intro w s a w' h hgood hs
    obtain ⟨hsim, hinv⟩ := h
    have hkeeps : ∀ {s' : Session}, Run.Reaches Session.step s s' → s'.Inv := by
      intro s' hreaches
      exact hreaches.keeps (fun _ _ _ h hs => h.step hs) hinv
    by_cases ha : a.isSubmit = false
    . obtain ⟨s', hreaches, hsim'⟩ := hsim.step hinv ha hgood hs
      exact ⟨s', hreaches.of_restrict, hsim', hkeeps hreaches.of_restrict⟩
    . cases a with
      | submit env sig strategyId type =>
        obtain ⟨s', hmatch, hsim'⟩ := step_submit hsim hgood hs
        have hreaches := Run.Reaches.of_step hmatch
        exact ⟨s', hreaches, hsim', hkeeps hreaches⟩
      | _ => exact absurd rfl ha
  obtain ⟨s, hreaches, hsim, _⟩ :=
    Run.simulates hstep ⟨Sim.start config baseQty, Session.Inv.start config baseQty⟩ hsmall hrun
  exact ⟨s, hreaches, hsim⟩

theorem perm_id (ids : List Nat) : (id ids).Perm ids := by
  exact .rfl

/--
Every message is sent, and the orders are visited in the order of their ids.
-/
def reliable : Env := { visit_perm := perm_id }

/--
An order that is executed before its cancel request arrives. Both sides read in pieces.
-/
def lateCancel : List Action := [
  .submit reliable { side := .BUY, locate := 7, strength := 10000, price := 1000 } 1 .LIMIT,
  .exchangeRecv 1, .exchangeRecv 20, .exchangeRecv 28, .recv 30, .recv 40, .frame reliable, .cancel reliable 1,
  .recv 11, .frame reliable, .exchangeRecv 1, .exchangeRecv 18, .recv 39, .frame reliable]

theorem refines_lateCancel
    : ∃ w, Run.exec step (start { maxPosition := 150 } 100) lateCancel = some w ∧
        ∃ s, Run.Reaches Session.step (Session.start { maxPosition := 150 } 100) s ∧ Sim w s := by
  have hsome : (Run.exec step (start { maxPosition := 150 } 100) lateCancel).isSome := by decide +kernel
  obtain ⟨w, hrun⟩ := Option.isSome_iff_exists.1 hsome
  exact ⟨w, hrun, refines (by decide +kernel) hrun⟩

end OrderLink

end NebulaXTrader
