import NebulaXTrader.Runtime.ProgramsBooks
import NebulaXTrader.Runtime.Trading
import NebulaXTrader.Strategy.Arbitration

/-!
This module contains the theorem about a replay with trading: the orders of the trader are the decisions that its
strategies take on the file, each of them once.
-/

namespace NebulaXTrader

theorem Ledger.ofEvents_concat (lg : Option Ledger) (evs : List MarketEvent) (ev : MarketEvent)
    : ofEvents lg (evs ++ [ev]) ev.locate = some (((ofEvents lg evs ev.locate).getD empty).onEvent 0 ev.body) := by
  unfold ofEvents
  rw [List.filter_append, List.filter_cons_of_pos (by simp), List.filter_nil, List.foldl_append]
  rfl

theorem Ledger.ofEvents_update (lgs : Nat → Option Ledger) (ev : MarketEvent) (evs : List MarketEvent) (l : Nat)
    : ofEvents (Function.update lgs ev.locate (some (((lgs ev.locate).getD empty).onEvent 0 ev.body)) l) evs l =
      ofEvents (lgs l) (ev :: evs) l := by
  unfold ofEvents
  by_cases hl : l = ev.locate
  . rw [hl, Function.update_self, List.filter_cons_of_pos (by simp)]
    rfl
  . rw [Function.update_of_ne hl, List.filter_cons_of_neg (by simpa using fun he => hl he.symm)]

namespace BookWorkers

theorem ledgerContexts_concat (lgs : Nat → Option Ledger) (evs : List MarketEvent) (ev : MarketEvent)
    : ledgerContexts lgs (evs ++ [ev]) =
      ledgerContexts lgs evs ++ [((Ledger.ofEvents (lgs ev.locate) (evs ++ [ev]) ev.locate).getD .empty).context ev] := by
  induction evs generalizing lgs with
  | nil =>
    unfold ledgerContexts
    rw [Ledger.ofEvents_concat]
    rfl
  | cons e evs ih =>
    rw [List.cons_append]
    unfold ledgerContexts
    dsimp only
    rw [ih, Ledger.ofEvents_update]
    rfl

theorem length_ledgerContexts (lgs : Nat → Option Ledger) (evs : List MarketEvent)
    : (ledgerContexts lgs evs).length = evs.length := by
  induction evs generalizing lgs with
  | nil => rfl
  | cons ev evs ih =>
    unfold ledgerContexts
    dsimp only
    rw [List.length_cons, List.length_cons, ih]

end BookWorkers

namespace Machine

variable {k pool index : Nat} {messages : List Message} {s s' : Machine} {i : Nat}

/--
The events that a worker has processed.
-/
def done (s : Machine) (i : Nat) : List MarketEvent := (s.channels i).popped.take (s.processed i)

theorem done_eq_of_popped (hle : s.processed i ≤ (s.channels i).popped.length)
    (hpopped : (s.channels i).popped <+: (s'.channels i).popped) (hprocessed : s'.processed = s.processed)
    : s'.done i = s.done i := by
  obtain ⟨more, hmore⟩ := hpopped
  unfold done
  rw [hprocessed, ← hmore, List.take_append_of_le_length hle]

theorem popped_dispatch {ev : MarketEvent} (h : s.dispatch ev = some s') (i : Nat)
    : (s'.channels i).popped = (s.channels i).popped ∧ s'.processed = s.processed := by
  unfold dispatch at h
  split at h
  . cases h
  . next registry owner _ =>
    cases h
    refine ⟨?_, rfl⟩
    dsimp only
    by_cases hi : i = owner
    . rw [hi, Function.update_self]
    . rw [Function.update_of_ne hi]

theorem popped_setChannel {j : Nat} {channel : Dispatcher MarketEvent} (h : (s.channels j).popped <+: channel.popped) (i : Nat)
    : (s.channels i).popped <+: (Function.update s.channels j channel i).popped := by
  by_cases hi : i = j
  . rw [hi, Function.update_self]
    exact h
  . rw [Function.update_of_ne hi]

theorem popped_stepParse (h : s.stepParse = some s') (i : Nat)
    : (s.channels i).popped <+: (s'.channels i).popped ∧ s'.processed = s.processed := by
  unfold stepParse at h
  split at h
  . split at h
    . next channel hchannel =>
      cases h
      refine ⟨popped_setChannel ?_ i, rfl⟩
      rw [Dispatcher.popped_stepParser hchannel]
    . cases h
      exact ⟨List.prefix_refl _, rfl⟩
  . split at h
    . obtain ⟨_, _, rfl⟩ := Option.map_eq_some_iff.1 h
      exact ⟨List.prefix_refl _, rfl⟩
    . dsimp only at h
      split at h
      . cases h
        exact ⟨List.prefix_refl _, rfl⟩
      . obtain ⟨hpopped, hprocessed⟩ := popped_dispatch h i
        rw [hpopped]
        exact ⟨List.prefix_refl _, hprocessed⟩

theorem done_step (hle : ∀ i, s.processed i ≤ (s.channels i).popped.length) {a : Action} (h : step s a = some s')
    (hnone : ∀ j, a = .work j → (s.channels j).popped.drop (s.processed j) = []) (i : Nat) : s'.done i = s.done i := by
  cases a with
  | receive =>
    obtain ⟨_, _, rfl⟩ := Option.map_eq_some_iff.1 h
    rfl
  | parse =>
    obtain ⟨hpopped, hprocessed⟩ := popped_stepParse h i
    exact done_eq_of_popped (hle i) hpopped hprocessed
  | retry j =>
    have hretry : s.stepRetry j = some s' := h
    unfold stepRetry at hretry
    split at hretry
    . obtain ⟨channel, hchannel, rfl⟩ := Option.map_eq_some_iff.1 hretry
      have hpopped : (s.channels j).popped <+: channel.popped := by
        rw [(Dispatcher.frame_stepRetry hchannel).2.2]
      exact done_eq_of_popped (hle i) (popped_setChannel hpopped i) rfl
    . cases hretry
  | work j =>
    have hwork : s.stepWork j = some s' := h
    unfold stepWork at hwork
    split at hwork
    . rw [hnone j rfl] at hwork
      obtain ⟨channel, hchannel, rfl⟩ := Option.map_eq_some_iff.1 hwork
      exact done_eq_of_popped (hle i) (popped_setChannel (Dispatcher.frame_stepWorker hchannel).2.2 i) rfl
    . cases hwork

theorem done_process {ev : MarketEvent} {rest : List MarketEvent}
    (hdrop : (s.channels i).popped.drop (s.processed i) = ev :: rest) (h : s.stepWork i = some s')
    : s'.done i = s.done i ++ [ev] ∧ ∀ j, j ≠ i → s'.done j = s.done j := by
  unfold stepWork at h
  split at h
  . rw [hdrop] at h
    cases h
    unfold done
    dsimp only
    constructor
    . rw [Function.update_self]
      exact (take_succ_of_drop hdrop).1
    . intro j hj
      rw [Function.update_of_ne hj]
  . cases h

theorem Inv.done_eq (h : s.Inv k pool index messages) (i : Nat)
    : s.done i = s.log.filter (fun ev => s.registry.owner ev.locate = i) := (h.log i).symm

theorem Inv.done_stream (h : s.Inv k pool index messages) (i : Nat) : s.done i <+: s.stream i :=
  (List.take_prefix _ _).trans (h.popped i)

theorem Inv.ofEvents_done (h : s.Inv k pool index messages) (l : Nat)
    : Ledger.ofEvents none (s.done (s.registry.owner l)) l = Ledger.ofEvents none s.log l := by
  unfold Ledger.ofEvents
  rw [h.done_eq, filter_owner]

theorem Inv.context (h : s.Inv k pool index messages) (hk' : k < 64) (h0 : 0 < pool) (hle : pool ≤ noIdx)
    (h0' : 0 < index) (hle' : index ≤ noIdx) {loc : Nat → Nat}
    (hloc : ∀ ev ∈ events messages, ∀ r ∈ ev.body.refs, loc r = ev.locate)
    (hfresh : Run.Along (fun (rb : RefBook) ev => some (rb.onEvent ev.body)) (fun rb ev => rb.Fresh ev.body) []
      (events messages)) {evs : List MarketEvent} {ev : MarketEvent} (hdone : s.done i = evs ++ [ev])
    : BookWorker.context ((s.workers.consumers i).book s.workers.store ev.locate) ev =
      ((Ledger.ofEvents none (s.done i) ev.locate).getD .empty).context ev := by
  have hmem : ev ∈ s.stream i := by
    apply (h.done_stream i).subset
    rw [hdone]
    exact List.mem_append_right _ List.mem_cons_self
  have howner : s.registry.owner ev.locate = i := of_decide_eq_true (List.mem_filter.1 hmem).2
  have hlocate := hloc ev ((h.given_prefix hk').subset (List.mem_filter.1 hmem).1)
  have hledger := h.ofEvents_done ev.locate
  rw [howner] at hledger
  have hsplit := h.split hk' h0 hle h0' hle' hloc hfresh
  have hopened := hsplit.opened ev.locate
  rw [← hledger, hdone, Ledger.ofEvents_concat, Option.isSome_some, howner] at hopened
  obtain ⟨sides, hsides⟩ := Option.isSome_iff_exists.1 hopened
  obtain ⟨lg, hsim, hsame, horders⟩ := hsplit.sim ev.locate
  rw [howner, hsides, Option.getD_some] at hsim
  have hbook : (s.workers.consumers i).book s.workers.store ev.locate = some (OrderBook.ofStore s.workers.store sides) := by
    unfold OrderBookConsumer.book
    rw [hsides]
    rfl
  rw [hbook, hsim.context]
  apply Ledger.context_congr
  . rw [hledger]
    exact hsame.sides
  . intro r hr
    rw [horders r, hlocate r hr, hledger]

theorem Inv.seqId_ne (h : s.Inv k pool index messages) (hk' : k < 64)
    (hnodup : ((events messages).map MarketEvent.seqId).Nodup) {evs : List MarketEvent} {ev : MarketEvent} {j : Nat}
    (hdone : s.done j = evs ++ [ev]) {e : MarketEvent} (he : e ∈ s.done i) (hold : i = j → e ∈ evs) : e.seqId ≠ ev.seqId := by
  -- The event on which a worker is about to vote has another number than those on which the workers have voted.
  have hgiven := h.given_prefix hk'
  by_cases hij : i = j
  . have hsub : (s.done j).Sublist (events messages) :=
      ((h.done_stream j).sublist.trans List.filter_sublist).trans hgiven.sublist
    have hpair := hnodup.sublist (hsub.map MarketEvent.seqId)
    rw [hdone, List.map_append] at hpair
    intro heq
    apply List.disjoint_of_nodup_append hpair (List.mem_map_of_mem (hold hij))
    rw [heq]
    exact List.mem_cons_self
  . intro heq
    have hev : ev ∈ s.done j := by
      rw [hdone]
      exact List.mem_append_right _ List.mem_cons_self
    obtain ⟨hmem, howner⟩ := List.mem_filter.1 ((h.done_stream i).subset he)
    obtain ⟨hmem', howner'⟩ := List.mem_filter.1 ((h.done_stream j).subset hev)
    have hsame := List.inj_on_of_nodup_map hnodup (hgiven.subset hmem) (hgiven.subset hmem') heq
    rw [hsame] at howner
    exact hij ((of_decide_eq_true howner).symm.trans (of_decide_eq_true howner'))

end Machine

namespace ItchParser

end ItchParser

namespace BookWorker

/--
The worker after its votes.
-/
def decided (config : Config) (w : BookWorker) (votes : List (MarketEvent × BookContext × (Nat → Nat))) : BookWorker :=
  votes.foldl (fun w v => (w.decide config v.1 v.2.1 v.2.2).1) w

theorem decided_concat (config : Config) (w : BookWorker) (votes : List (MarketEvent × BookContext × (Nat → Nat)))
    (v : MarketEvent × BookContext × (Nat → Nat))
    : w.decided config (votes ++ [v]) = ((w.decided config votes).decide config v.1 v.2.1 v.2.2).1 := by
  unfold decided
  rw [List.foldl_append]
  rfl

theorem decideAll_concat (config : Config) (w : BookWorker) (votes : List (MarketEvent × BookContext × (Nat → Nat)))
    (v : MarketEvent × BookContext × (Nat → Nat))
    : w.decideAll config (votes ++ [v]) =
      w.decideAll config votes ++ [((w.decided config votes).decide config v.1 v.2.1 v.2.2).2] := by
  induction votes generalizing w with
  | nil => rfl
  | cons u votes ih =>
    rw [List.cons_append]
    unfold decideAll
    rw [ih]
    rfl

end BookWorker

namespace ArbDecision

theorem order_eq (d : ArbDecision) (ex : ExecutionEngine) : ex.orderFor d.signal 1 .MARKET = d.order ex.baseQty := by
  have hside : (d.signal.side = .NONE ∨ d.signal.price < 0) ↔ d.dir = .NONE := by simp [signal]
  unfold ExecutionEngine.orderFor order
  by_cases hdir : d.dir = .NONE
  . rw [if_pos (hside.2 hdir), if_pos (Or.inl hdir)]
  . rw [if_neg (mt hside.1 hdir), if_neg nofun]
    dsimp only
    by_cases hqty : d.signal.quantity ex.baseQty = 0
    . rw [if_pos hqty, if_pos (Or.inr hqty)]
    . rw [if_neg hqty, if_neg (not_or.2 ⟨hdir, hqty⟩)]
      rfl

end ArbDecision

namespace OrderManager

theorem number_concat (os : List Order) (o : Order)
    : number (os ++ [o]) = number os ++ [{ o with orderId := os.length + 1 }] := by
  unfold number
  rw [List.zipIdx_append, List.map_append, Nat.add_comm 1]
  rfl

end OrderManager

namespace Task

/--
The decision that has not been handed to the engine.
-/
def decision (t : Task) : List ArbDecision :=
  match t with
  | .submit d => [d]
  | .idle | .mark _ _ | .vote _ _ => []

/--
The event on which the worker has not voted.
-/
def pending (t : Task) : List (MarketEvent × BookContext) :=
  match t with
  | .mark ev ctx | .vote ev ctx => [(ev, ctx)]
  | .idle | .submit _ => []

end Task

namespace Trading

variable {replay : PackingLoop.Config} {config : BookWorker.Config} {capacity k pool index : Nat} {s s' : Trading}

/--
A worker has voted on the events that it has processed, with the contexts of a market on its own.
-/
structure Voted (config : BookWorker.Config) (s : Trading) (i : Nat)
    (votes : List (MarketEvent × BookContext × (Nat → Nat))) : Prop where
  worker : s.workers i = BookWorker.init.decided config votes
  handed : s.handed i ++ (s.tasks i).decision = (BookWorker.init.decideAll config votes).filterMap id
  told : votes.map (fun v => (v.1, v.2.1)) ++ (s.tasks i).pending =
    (s.programs.machine.done i).zip (BookWorkers.ledgerContexts (fun _ => none) (s.programs.machine.done i))
  answered : ∀ v ∈ votes, v.2.2 = s.answers v.1.seqId

def messages (replay : PackingLoop.Config) : List Message := Message.numbered 0 (FileWalk.messages replay.file)

/--
The orders for the decisions that have been handed to the engine.
-/
def ordered (config : BookWorker.Config) (s : Trading) : List Order :=
  s.submitted.filterMap (fun x => x.2.order config.baseQty)

structure Inv (replay : PackingLoop.Config) (config : BookWorker.Config) (k pool index : Nat) (s : Trading) : Prop where
  programs : Programs.Inv replay s.programs
  machine : (s.programs.machine.offer (s.programs.rest replay)).Inv k pool index (messages replay)
  voted : ∀ i, ∃ votes, s.Voted config i votes
  placed : s.link.ex.om.placed = OrderManager.number (s.ordered config)
  nextId : s.link.ex.om.nextId = (s.ordered config).length + 1
  baseQty : s.link.ex.baseQty = config.baseQty

theorem Inv.start {risk : RiskManager.Config} {c nworkers : Nat} (hc : c < 64) (hpos : 1 ≤ nworkers)
    (buf : Nat → UInt8) (slots : Nat → MarketEvent)
    : Inv replay config k pool index (start risk config.baseQty k c nworkers pool index buf slots) where
  programs := Programs.Inv.start buf slots
  machine := Machine.Inv.start hc hpos buf slots
  voted := fun _ => ⟨[], rfl, rfl, rfl, fun _ hv => absurd hv List.not_mem_nil⟩
  placed := rfl
  nextId := rfl
  baseQty := rfl

theorem Voted.congr {i : Nat} {votes : List (MarketEvent × BookContext × (Nat → Nat))} (h : s.Voted config i votes)
    (hworker : s'.workers i = s.workers i) (hhanded : s'.handed i = s.handed i) (htask : s'.tasks i = s.tasks i)
    (hdone : s'.programs.machine.done i = s.programs.machine.done i) (hanswers : s'.answers = s.answers)
    : s'.Voted config i votes where
  worker := hworker.trans h.worker
  handed := by
    rw [hhanded, htask]
    exact h.handed
  told := by
    rw [htask, hdone]
    exact h.told
  answered := by
    rw [hanswers]
    exact h.answered

theorem stepPrograms_cases {l : Programs.Label} (h : s.stepPrograms replay capacity l = some s')
    : ∃ programs, s.programs.step replay capacity l = some programs ∧
        ((s' = { s with programs := programs } ∧ ∀ j, l = .machine (.work j) → s.next j = none) ∨
          ∃ j ev, l = .machine (.work j) ∧ s.tasks j = .idle ∧ s.next j = some ev ∧ s' = { s with
            programs := programs
            tasks := Function.update s.tasks j (.mark ev (context programs j ev)) }) := by
  unfold stepPrograms at h
  split at h
  . next j =>
    split at h
    . next hidle =>
      obtain ⟨programs, hprograms, heq⟩ := Option.map_eq_some_iff.1 h
      refine ⟨programs, hprograms, ?_⟩
      split at heq
      . next hnext =>
        refine Or.inl ⟨heq.symm, ?_⟩
        intro i hi
        cases hi
        exact hnext
      . next ev hnext => exact Or.inr ⟨j, ev, rfl, hidle, hnext, heq.symm⟩
    . cases h
  . next hother =>
    obtain ⟨programs, hprograms, rfl⟩ := Option.map_eq_some_iff.1 h
    refine ⟨programs, hprograms, Or.inl ⟨rfl, ?_⟩⟩
    intro j hj
    exact absurd hj (hother j)

theorem Inv.ofPrograms (h : s.Inv replay config k pool index) (hpack : 1 ≤ replay.packMax) (hfc : replay.fc = true)
    (hcapacity : 0 < capacity) (hfits : FlowControl.Fits replay) (hk : 9 ≤ k) (hk' : k < 64) {l : Programs.Label}
    (hcareful : s.programs.Careful l) {programs : Programs} (hstep : s.programs.step replay capacity l = some programs)
    : Programs.Inv replay programs ∧
        (programs.machine.offer (programs.rest replay)).Inv k pool index (messages replay) := by
  refine ⟨h.programs.step hpack hfc hcapacity hcareful hstep, ?_⟩
  cases l with
  | flow l =>
    rw [h.programs.offer_flow hpack hfc hcapacity hfits hcareful hstep]
    exact h.machine
  | machine a =>
    obtain ⟨hgood, hmachine⟩ := Run.restrict_eq_some.1 (Programs.offer_machine hcareful hstep)
    exact h.machine.step hk hk' hgood hmachine

theorem Inv.done_of_none (h : s.Inv replay config k pool index) {l : Programs.Label} {programs : Programs}
    (hstep : s.programs.step replay capacity l = some programs) (hnone : ∀ j, l = .machine (.work j) → s.next j = none)
    (i : Nat) : programs.machine.done i = s.programs.machine.done i := by
  cases l with
  | flow l =>
    obtain ⟨_, ms, hmachine, _⟩ := Programs.step_flow hstep
    rw [hmachine]
    rfl
  | machine a =>
    obtain ⟨hmachine, _⟩ := Programs.step_machine hstep
    have hle : ∀ j, s.programs.machine.processed j ≤ (s.programs.machine.channels j).popped.length := h.machine.processed
    apply Machine.done_step hle hmachine
    intro j hj
    rw [hj] at hnone
    exact List.head?_eq_none_iff.1 (hnone j rfl)

theorem Inv.process (h : s.Inv replay config k pool index) {j : Nat} {ev : MarketEvent} {programs : Programs}
    (hidle : s.tasks j = .idle) (hdone : programs.machine.done j = s.programs.machine.done j ++ [ev])
    (hothers : ∀ i, i ≠ j → programs.machine.done i = s.programs.machine.done i)
    (hcontext : context programs j ev =
      ((Ledger.ofEvents none (s.programs.machine.done j ++ [ev]) ev.locate).getD .empty).context ev) (i : Nat)
    : ∃ votes, Voted config { s with
        programs := programs
        tasks := Function.update s.tasks j (.mark ev (context programs j ev)) } i votes := by
  obtain ⟨votes, hvoted⟩ := h.voted i
  refine ⟨votes, ?_⟩
  by_cases hi : i = j
  . subst hi
    have hhanded := hvoted.handed
    have htold := hvoted.told
    rw [hidle] at hhanded htold
    refine ⟨hvoted.worker, ?_, ?_, hvoted.answered⟩
    . dsimp only
      rw [Function.update_self]
      exact hhanded
    . have hlen := BookWorkers.length_ledgerContexts (fun _ => none) (s.programs.machine.done i)
      have hnil : (Task.idle).pending = [] := rfl
      dsimp only
      rw [Function.update_self, hdone, BookWorkers.ledgerContexts_concat, List.zip_append hlen.symm, ← htold, hnil,
        List.append_nil, hcontext]
      rfl
  . exact hvoted.congr rfl rfl (Function.update_of_ne hi _ _) (hothers i hi) rfl

theorem Inv.setLink (h : s.Inv replay config k pool index) {link : OrderLink} (hkeeps : s.link.ex.om.Keeps link.ex.om)
    (hbaseQty : link.ex.baseQty = s.link.ex.baseQty) : Inv replay config k pool index { s with link := link } where
  programs := h.programs
  machine := h.machine
  voted := by
    intro i
    obtain ⟨votes, hvoted⟩ := h.voted i
    exact ⟨votes, hvoted.congr rfl rfl rfl rfl rfl⟩
  placed := hkeeps.placed.trans h.placed
  nextId := hkeeps.nextId.trans h.nextId
  baseQty := hbaseQty.trans h.baseQty

theorem Inv.mark (h : s.Inv replay config k pool index) {j : Nat} {ev : MarketEvent} {ctx : BookContext}
    (htask : s.tasks j = .mark ev ctx)
    : Inv replay config k pool index { s with tasks := Function.update s.tasks j (.vote ev ctx) } := by
  refine ⟨h.programs, h.machine, ?_, h.placed, h.nextId, h.baseQty⟩
  intro i
  obtain ⟨votes, hvoted⟩ := h.voted i
  refine ⟨votes, ?_⟩
  by_cases hi : i = j
  . subst hi
    have hhanded := hvoted.handed
    have htold := hvoted.told
    rw [htask] at hhanded htold
    refine ⟨hvoted.worker, ?_, ?_, hvoted.answered⟩
    . dsimp only
      rw [Function.update_self]
      exact hhanded
    . dsimp only
      rw [Function.update_self]
      exact htold
  . exact hvoted.congr rfl rfl (Function.update_of_ne hi _ _) rfl rfl

theorem Voted.done_eq {i : Nat} {votes : List (MarketEvent × BookContext × (Nat → Nat))} (h : s.Voted config i votes)
    : s.programs.machine.done i = votes.map Prod.fst ++ (s.tasks i).pending.map Prod.fst := by
  have hlen := BookWorkers.length_ledgerContexts (fun _ => none) (s.programs.machine.done i)
  have hfst := congrArg (List.map Prod.fst) h.told
  rw [List.map_append, List.map_map, List.map_fst_zip hlen.ge] at hfst
  exact hfst.symm

theorem Inv.vote (h : s.Inv replay config k pool index) (hk' : k < 64)
    (hnodup : ((Machine.events (messages replay)).map MarketEvent.seqId).Nodup) {j : Nat} {ev : MarketEvent}
    {ctx : BookContext} (htask : s.tasks j = .vote ev ctx) (position : Nat → Nat)
    : Inv replay config k pool index { s with
        tasks := Function.update s.tasks j (((s.workers j).decide config ev ctx position).2.elim .idle .submit)
        workers := Function.update s.workers j ((s.workers j).decide config ev ctx position).1
        answers := Function.update s.answers ev.seqId position } := by
  refine ⟨h.programs, h.machine, ?_, h.placed, h.nextId, h.baseQty⟩
  obtain ⟨votes', hvoted'⟩ := h.voted j
  have hdone := hvoted'.done_eq
  rw [htask] at hdone
  have hanswers : ∀ i votes, s.Voted config i votes → ∀ v ∈ votes,
      v.2.2 = Function.update s.answers ev.seqId position v.1.seqId := by
    intro i votes hvoted v hv
    have hmem : v.1 ∈ s.programs.machine.done i := by
      rw [hvoted.done_eq]
      exact List.mem_append_left _ (List.mem_map_of_mem hv)
    rw [Function.update_of_ne, hvoted.answered v hv]
    apply h.machine.seqId_ne hk' hnodup hdone hmem
    intro hij
    subst hij
    have hsame := hdone.symm.trans hvoted.done_eq
    rw [htask] at hsame
    rw [List.append_cancel_right hsame]
    exact List.mem_map_of_mem hv
  intro i
  obtain ⟨votes, hvoted⟩ := h.voted i
  by_cases hi : i = j
  . subst hi
    have hhanded := hvoted.handed
    have htold := hvoted.told
    rw [htask] at hhanded htold
    refine ⟨votes ++ [(ev, ctx, position)], ?_, ?_, ?_, ?_⟩
    . dsimp only
      rw [Function.update_self, BookWorker.decided_concat, hvoted.worker]
    . have hnil : (Task.vote ev ctx).decision = [] := rfl
      rw [hnil, List.append_nil] at hhanded
      dsimp only
      rw [Function.update_self, BookWorker.decideAll_concat, List.filterMap_append, ← hhanded, ← hvoted.worker]
      cases ((s.workers i).decide config ev ctx position).2 with
      | none => rfl
      | some d => rfl
    . dsimp only
      rw [Function.update_self, ← htold, List.map_append, List.append_assoc]
      cases ((s.workers i).decide config ev ctx position).2 with
      | none => rfl
      | some d => rfl
    . intro v hv
      rcases List.mem_append.1 hv with hold | hnew
      . exact hanswers i votes hvoted v hold
      . rw [List.mem_singleton.1 hnew]
        dsimp only
        rw [Function.update_self]
  . refine ⟨votes, ?_, ?_, ?_, hanswers i votes hvoted⟩
    . dsimp only
      rw [Function.update_of_ne hi]
      exact hvoted.worker
    . dsimp only
      rw [Function.update_of_ne hi]
      exact hvoted.handed
    . dsimp only
      rw [Function.update_of_ne hi]
      exact hvoted.told

theorem Inv.submit (h : s.Inv replay config k pool index) {j : Nat} {d : ArbDecision} (htask : s.tasks j = .submit d)
    {env : Env} {link : OrderLink} (hlink : s.link.step (.submit env d.signal 1 .MARKET) = some link)
    : Inv replay config k pool index { s with
        link := link
        tasks := Function.update s.tasks j .idle
        submitted := s.submitted ++ [(j, d)] } := by
  have hex : link.ex = (s.link.ex.submitSignal env d.signal 1 .MARKET).1 := by
    cases hlink
    exact OrderLink.ex_send _ _
  have hfirst : 1 ≤ s.link.ex.om.nextId := by
    rw [h.nextId]
    exact Nat.le_add_left 1 _
  obtain ⟨hplaced, hnextId⟩ := s.link.ex.placed_submitSignal env d.signal 1 .MARKET hfirst
  rw [d.order_eq, h.baseQty] at hplaced hnextId
  have hordered : ordered config { s with
      link := link
      tasks := Function.update s.tasks j .idle
      submitted := s.submitted ++ [(j, d)] } = s.ordered config ++ (d.order config.baseQty).toList := by
    unfold ordered
    dsimp only
    rw [List.filterMap_append]
    cases hd : d.order config.baseQty with
    | none => simp [hd]
    | some o => simp [hd]
  refine ⟨h.programs, h.machine, ?_, ?_, ?_, ?_⟩
  . intro i
    obtain ⟨votes, hvoted⟩ := h.voted i
    refine ⟨votes, ?_⟩
    by_cases hi : i = j
    . subst hi
      have hhanded := hvoted.handed
      have htold := hvoted.told
      rw [htask] at hhanded htold
      refine ⟨hvoted.worker, ?_, ?_, hvoted.answered⟩
      . rw [← hhanded]
        unfold handed
        dsimp only
        rw [Function.update_self, List.filter_append, List.filter_cons_of_pos (by simp), List.filter_nil, List.map_append]
        exact List.append_nil _
      . dsimp only
        rw [Function.update_self]
        exact htold
    . refine hvoted.congr rfl ?_ (Function.update_of_ne hi _ _) rfl rfl
      unfold handed
      dsimp only
      rw [List.filter_append, List.filter_cons_of_neg (by simpa using Ne.symm hi), List.filter_nil, List.append_nil]
  . dsimp only
    rw [hordered, hex, hplaced, h.placed, h.nextId]
    cases d.order config.baseQty with
    | none => simp
    | some o => exact (OrderManager.number_concat _ _).symm
  . dsimp only
    rw [hordered, hex, hnextId, h.nextId, List.length_append]
    omega
  . dsimp only
    rw [hex, s.link.ex.baseQty_submitSignal env]
    exact h.baseQty

theorem Inv.step (h : s.Inv replay config k pool index) (hpack : 1 ≤ replay.packMax) (hfc : replay.fc = true)
    (hcapacity : 0 < capacity) (hfits : FlowControl.Fits replay) (hk : 9 ≤ k) (hk' : k < 64) (h0 : 0 < pool)
    (hle : pool ≤ noIdx) (h0' : 0 < index) (hle' : index ≤ noIdx) {loc : Nat → Nat}
    (hloc : ∀ ev ∈ Machine.events (messages replay), ∀ r ∈ ev.body.refs, loc r = ev.locate)
    (hfresh : Run.Along (fun (rb : RefBook) ev => some (rb.onEvent ev.body)) (fun rb ev => rb.Fresh ev.body) []
      (Machine.events (messages replay)))
    (hnodup : ((Machine.events (messages replay)).map MarketEvent.seqId).Nodup) {l : Label} (hcareful : s.Careful l)
    (hstep : Trading.step replay capacity config s l = some s') : s'.Inv replay config k pool index := by
  cases l with
  | programs l =>
    obtain ⟨programs, hprograms, hcases⟩ := stepPrograms_cases hstep
    obtain ⟨hinv, hmachine⟩ := h.ofPrograms hpack hfc hcapacity hfits hk hk' hcareful hprograms
    rcases hcases with ⟨rfl, hnone⟩ | ⟨j, ev, rfl, hidle, hnext, rfl⟩
    . refine ⟨hinv, hmachine, ?_, h.placed, h.nextId, h.baseQty⟩
      intro i
      obtain ⟨votes, hvoted⟩ := h.voted i
      exact ⟨votes, hvoted.congr rfl rfl rfl (h.done_of_none hprograms hnone i) rfl⟩
    . obtain ⟨rest, hdrop⟩ := List.head?_eq_some_iff.1 hnext
      obtain ⟨hdone, hothers⟩ := Machine.done_process hdrop (Programs.step_machine hprograms).1
      refine ⟨hinv, hmachine, ?_, h.placed, h.nextId, h.baseQty⟩
      apply h.process hidle hdone hothers
      rw [← hdone]
      exact hmachine.context hk' h0 hle h0' hle' hloc hfresh hdone
  | worker j env =>
    have hworker : s.stepWorker config j env = some s' := hstep
    unfold stepWorker at hworker
    split at hworker
    . cases hworker
    . next ev ctx htask =>
      dsimp only at hworker
      split at hworker
      . obtain ⟨link, hlink, rfl⟩ := Option.map_eq_some_iff.1 hworker
        cases hlink
        exact (h.mark htask).setLink (OrderManager.Keeps.refl _) rfl
      . cases hworker
        exact h.mark htask
    . next ev ctx htask =>
      cases hworker
      exact h.vote hk' hnodup htask s.link.ex.rm.position
    . next d htask =>
      obtain ⟨link, hlink, rfl⟩ := Option.map_eq_some_iff.1 hworker
      exact h.submit htask hlink
  | venue a =>
    unfold Trading.step at hstep
    dsimp only at hstep
    split at hstep
    . next hvenue =>
      obtain ⟨link, hlink, rfl⟩ := Option.map_eq_some_iff.1 hstep
      obtain ⟨hkeeps, hbaseQty⟩ := OrderLink.keeps_step hvenue hlink
      exact h.setLink hkeeps hbaseQty
    . cases hstep

def everySent : Env where
  visit_perm := List.Perm.refl

/--
The worker marks the price, votes and submits, and the exchange fills the order.
-/
def filled : List Label :=
  Programs.replay.map .programs ++ List.replicate 3 (.worker 0 everySent) ++
    [.venue (.exchangeRecv 1), .venue (.exchangeRecv 48), .venue (.recv 81), .venue (.frame everySent),
      .venue (.frame everySent)]

end Trading

end NebulaXTrader
