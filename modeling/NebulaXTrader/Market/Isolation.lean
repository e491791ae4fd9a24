import NebulaXTrader.Market.Sharding
import NebulaXTrader.Market.SideContext

/-!
This module contains what the orders of a worker depend on: the market data of a symbol come from the
events of that symbol alone, the votes of a worker from the events of its own symbols.
-/

namespace NebulaXTrader

/--
The context of an event, computed from the ledger of its locate after the event.
-/
def Ledger.context (lg : Ledger) (ev : MarketEvent) : BookContext :=
  let sideOf := fun ref => ((lg.orders ref).map OrderSlotView.side).getD .NONE
  let ctx : BookContext := { hasBook := true, seq := ev.seqId }
  let ctx :=
    if lg.sides.bestBid ≥ 0 ∧ lg.sides.bestAsk ≥ 0 then
      { ctx with
        bid := lg.sides.bestBid
        bidVol := lg.sides.bestBidVolume
        ask := lg.sides.bestAsk
        askVol := lg.sides.bestAskVolume
        mid := (lg.sides.bestBid + lg.sides.bestAsk).tdiv 2 }
    else
      ctx
  match ev.body with
  | .ADD o | .REPLACE o => { ctx with side := o.side }
  | .TRADE t | .EXECUTE t => { ctx with side := sideOf t.orderRef }
  | .DELETE o | .CANCEL o => { ctx with side := sideOf o.orderRef }

theorem Sim.context {bk : OrderBook} {lg : Ledger} (h : Sim bk lg) (ev : MarketEvent)
    : BookWorker.context (some bk) ev = lg.context ev := by
  have hside : ∀ ref, bk.sideOf ref = ((lg.orders ref).map OrderSlotView.side).getD .NONE := by
    intro ref
    rw [← bk.get_side, h.get]
  unfold BookWorker.context Ledger.context
  cases ev.body with
  | _ =>
    simp only [h.bestBid, h.bestAsk, h.bestBidVolume, h.bestAskVolume, hside, Option.isSome_some,
      Option.elim_some]

theorem Ledger.context_congr {lg lg' : Ledger} {ev : MarketEvent} (hsides : lg.sides = lg'.sides)
    (horders : ∀ r ∈ ev.body.refs,
      (lg.orders r).map OrderSlotView.unsequenced = lg'.orders r)
    : lg.context ev = lg'.context ev := by
  have hside : ∀ r ∈ ev.body.refs, (lg.orders r).map OrderSlotView.side =
      (lg'.orders r).map OrderSlotView.side := by
    intro r hr
    rw [← horders r hr, Option.map_map]
    rfl
  unfold Ledger.context
  rw [hsides]
  cases hb : ev.body with
  | ADD o => rfl
  | REPLACE o => rfl
  | DELETE o =>
    dsimp only
    rw [hside o.orderRef (by simp [hb, MarketEvent.Body.refs])]
  | CANCEL o =>
    dsimp only
    rw [hside o.orderRef (by simp [hb, MarketEvent.Body.refs])]
  | TRADE t =>
    dsimp only
    rw [hside t.orderRef (by simp [hb, MarketEvent.Body.refs])]
  | EXECUTE t =>
    dsimp only
    rw [hside t.orderRef (by simp [hb, MarketEvent.Body.refs])]

namespace BookWorker

theorem decide_withObc (cfg : Config) (w : BookWorker) (c : OrderBookConsumer) (ev : MarketEvent)
    (ctx : BookContext) (position : Nat → Nat)
    : { w with obc := c }.decide cfg ev ctx position =
      ({ (w.decide cfg ev ctx position).1 with obc := c }, (w.decide cfg ev ctx position).2) := by
  unfold decide arbitrate feed
  dsimp only
  cases arbitrateDecide _ cfg.weightBp cfg.primaryIdx cfg.thresholdBp with
  | none => rfl
  | some d =>
    dsimp only
    split
    . split
      . rfl
      . rfl
    . rfl

def decideAll (cfg : Config) (w : BookWorker)
    (as : List (MarketEvent × BookContext × (Nat → Nat))) : List (Option ArbDecision) :=
  match as with
  | [] => []
  | (ev, ctx, position) :: as =>
    (w.decide cfg ev ctx position).2 :: decideAll cfg (w.decide cfg ev ctx position).1 as

theorem decideAll_withObc (cfg : Config) (w : BookWorker) (c : OrderBookConsumer)
    (as : List (MarketEvent × BookContext × (Nat → Nat)))
    : { w with obc := c }.decideAll cfg as = w.decideAll cfg as := by
  induction as generalizing w with
  | nil => rfl
  | cons a as ih =>
    unfold decideAll
    rw [decide_withObc]
    exact congrArg _ (ih _)

end BookWorker

namespace BookWorkers

def trace (cfg : BookWorker.Config) (s : BookWorkers) (run : List Input)
    : List (Input × BookContext × Option ArbDecision) :=
  match run with
  | [] => []
  | a :: run => (a, s.context cfg a, s.decision cfg a) :: trace cfg (s.process cfg a) run

def decisions (cfg : BookWorker.Config) (s : BookWorkers) (run : List Input) (i : Nat)
    : List (Option ArbDecision) :=
  ((trace cfg s run).filter (fun e => e.1.worker = i)).map (fun e => e.2.2)

def contexts (cfg : BookWorker.Config) (s : BookWorkers) (run : List Input) (locate : Nat)
    : List BookContext :=
  ((trace cfg s run).filter (fun e => e.1.event.locate = locate)).map (fun e => e.2.1)

def HasRoom (s : BookWorkers) (a : Input) : Prop :=
  (s.workers a.worker).obc.HasRoom s.store a.event

instance (s : BookWorkers) (a : Input) : Decidable (s.HasRoom a) :=
  inferInstanceAs (Decidable (OrderBookConsumer.HasRoom _ _ _))

def ledgerContexts (lgs : Nat → Option Ledger) (evs : List MarketEvent) : List BookContext :=
  match evs with
  | [] => []
  | ev :: evs =>
    let lg := ((lgs ev.locate).getD .empty).onEvent 0 ev.body
    lg.context ev :: ledgerContexts (Function.update lgs ev.locate (some lg)) evs

theorem ledgerContexts_congr {p : Nat → Prop} {lgs lgs' : Nat → Option Ledger}
    {evs : List MarketEvent} (hp : ∀ ev ∈ evs, p ev.locate) (h : ∀ l, p l → lgs l = lgs' l)
    : ledgerContexts lgs evs = ledgerContexts lgs' evs := by
  induction evs generalizing lgs lgs' with
  | nil => rfl
  | cons ev evs ih =>
    have hev : lgs ev.locate = lgs' ev.locate := h _ (hp ev List.mem_cons_self)
    unfold ledgerContexts
    dsimp only
    rw [hev]
    apply congrArg
    apply ih
    . intro e he
      exact hp e (List.mem_cons_of_mem _ he)
    . intro l hl
      by_cases he : l = ev.locate
      . rw [he, Function.update_self, Function.update_self]
      . rw [Function.update_of_ne he, Function.update_of_ne he]
        exact h l hl

def books (s : BookWorkers) (owner : Nat → Nat) (locate : Nat) : Option BookSides :=
  (s.workers (owner locate)).obc.books locate

theorem process_workers (cfg : BookWorker.Config) (s : BookWorkers) (a : Input)
    : (s.process cfg a).workers = Function.update s.workers a.worker
        { ((s.workers a.worker).decide cfg a.event (s.context cfg a) a.position).1 with
          obc := ((s.workers a.worker).obc.onEvent s.store a.event).1 } := by
  have hdecide := BookWorker.decide_withObc cfg (s.workers a.worker)
    ((s.workers a.worker).obc.onEvent s.store a.event).1 a.event (s.context cfg a) a.position
  exact congrArg (fun r => Function.update s.workers a.worker r.1) hdecide

theorem decision_eq (cfg : BookWorker.Config) (s : BookWorkers) (a : Input)
    : s.decision cfg a =
      ((s.workers a.worker).decide cfg a.event (s.context cfg a) a.position).2 := by
  have hdecide := BookWorker.decide_withObc cfg (s.workers a.worker)
    ((s.workers a.worker).obc.onEvent s.store a.event).1 a.event (s.context cfg a) a.position
  exact congrArg Prod.snd hdecide

theorem process_books (cfg : BookWorker.Config) (s : BookWorkers) (a : Input) {owner : Nat → Nat}
    (howner : a.worker = owner a.event.locate)
    : (s.process cfg a).books owner = Function.update (s.books owner) a.event.locate
        (((s.workers a.worker).obc.onEvent s.store a.event).1.books a.event.locate) := by
  have hbooks := ((s.workers a.worker).obc.onEvent_books s.store a.event).2
  funext l
  unfold books
  rw [process_workers]
  by_cases hl : l = a.event.locate
  . rw [hl, Function.update_self, ← howner, Function.update_self]
  . rw [Function.update_of_ne hl]
    by_cases ho : owner l = a.worker
    . rw [ho, Function.update_self]
      exact hbooks l hl
    . rw [Function.update_of_ne ho]

theorem process_split (cfg : BookWorker.Config) {owner loc : Nat → Nat} {s : BookWorkers}
    {lgs : Nat → Option Ledger} (h : Split loc s.store (s.books owner) lgs) {a : Input}
    (howner : a.worker = owner a.event.locate) (hloc : ∀ r ∈ a.event.body.refs, loc r = a.event.locate)
    (hfresh : ((lgs a.event.locate).getD .empty).Fresh a.event.body) (hroom : s.HasRoom a)
    : let lg := ((lgs a.event.locate).getD .empty).onEvent 0 a.event.body
      Split loc (s.process cfg a).store ((s.process cfg a).books owner)
          (Function.update lgs a.event.locate (some lg)) ∧
        s.context cfg a = lg.context a.event := by
  intro lg
  have hbooks : (s.workers a.worker).obc.books a.event.locate = s.books owner a.event.locate := by
    rw [howner]
    rfl
  have hnext := h.onEvent (s.workers a.worker).obc a.event hbooks hloc hfresh hroom
  constructor
  . rw [process_books cfg s a howner]
    exact hnext
  . obtain ⟨lg', hsim, hsame, horders⟩ := hnext.sim a.event.locate
    obtain ⟨sides, hsides⟩ := Option.isSome_iff_exists.1
      ((s.workers a.worker).obc.onEvent_books s.store a.event).1
    rw [Function.update_self, hsides, Option.getD_some] at hsim
    rw [Function.update_self, Option.getD_some] at hsame
    have hctx : s.context cfg a = BookWorker.context
        (some (OrderBook.ofStore ((s.workers a.worker).obc.onEvent s.store a.event).2 sides))
        a.event := by
      unfold context BookWorker.process OrderBookConsumer.book
      dsimp only
      rw [hsides]
      rfl
    rw [hctx, hsim.context]
    apply Ledger.context_congr
    . exact hsame.sides
    . intro r hr
      rw [horders r, hloc r hr, Function.update_self, Option.getD_some]

theorem trace_contexts (cfg : BookWorker.Config) {owner loc : Nat → Nat} (p : Nat → Prop)
    [DecidablePred p] {s : BookWorkers} {lgs : Nat → Option Ledger} {run : List Input}
    (h : Split loc s.store (s.books owner) lgs)
    (howner : ∀ a ∈ run, a.worker = owner a.event.locate)
    (hloc : ∀ a ∈ run, ∀ r ∈ a.event.body.refs, loc r = a.event.locate)
    (hfresh : ∀ l, Run.Along (fun lg ev => some (Split.advance lg ev))
      (fun lg ev => (lg.getD .empty).Fresh ev.body) (lgs l)
      ((run.map Input.event).filter (fun ev => ev.locate = l)))
    (hroom : Run.Along (fun s a => some (process cfg s a)) HasRoom s run)
    : ((trace cfg s run).filter (fun e => p e.1.event.locate)).map (fun e => e.2.1) =
      ledgerContexts lgs ((run.map Input.event).filter (fun ev => p ev.locate)) := by
  induction run generalizing s lgs with
  | nil => rfl
  | cons a run ih =>
    unfold Run.Along at hroom
    have hself := hfresh a.event.locate
    rw [List.map_cons, List.filter_cons_of_pos (by simp)] at hself
    unfold Run.Along at hself
    obtain ⟨hnext, hctx⟩ := process_split cfg h (howner a List.mem_cons_self)
      (hloc a List.mem_cons_self) hself.1 hroom.1
    have hrest := ih hnext (fun b hb => howner b (List.mem_cons_of_mem _ hb))
      (fun b hb => hloc b (List.mem_cons_of_mem _ hb))
      (by
        intro l
        by_cases hl : l = a.event.locate
        . rw [hl, Function.update_self]
          exact hself.2 _ rfl
        . rw [Function.update_of_ne hl]
          have hother := hfresh l
          rw [List.map_cons, List.filter_cons_of_neg (by simpa using fun he => hl he.symm)] at hother
          exact hother)
      (hroom.2 _ rfl)
    unfold trace
    rw [List.map_cons]
    by_cases hp : p a.event.locate
    . rw [List.filter_cons_of_pos (by simpa using hp), List.filter_cons_of_pos (by simpa using hp),
        List.map_cons, hrest, hctx]
      rfl
    . rw [List.filter_cons_of_neg (by simpa using hp), List.filter_cons_of_neg (by simpa using hp),
        hrest]
      apply ledgerContexts_congr
      . intro ev hev
        exact of_decide_eq_true (List.mem_filter.1 hev).2
      . intro l hl
        rw [Function.update_of_ne]
        intro he
        exact hp (he ▸ hl)

theorem trace_inputs (cfg : BookWorker.Config) (s : BookWorkers) (run : List Input)
    : (trace cfg s run).map Prod.fst = run := by
  induction run generalizing s with
  | nil => rfl
  | cons a run ih =>
    unfold trace
    rw [List.map_cons, ih]

theorem decisions_eq (cfg : BookWorker.Config) (s : BookWorkers) (run : List Input) (i : Nat)
    : decisions cfg s run i = (s.workers i).decideAll cfg
        (((trace cfg s run).filter (fun e => e.1.worker = i)).map
          (fun e => (e.1.event, e.2.1, e.1.position))) := by
  unfold decisions
  induction run generalizing s with
  | nil => rfl
  | cons a run ih =>
    unfold trace
    by_cases hi : a.worker = i
    . rw [List.filter_cons_of_pos (by simpa using hi), List.map_cons, List.map_cons, ih,
        process_workers, ← hi, Function.update_self, BookWorker.decideAll_withObc, decision_eq]
      rfl
    . rw [List.filter_cons_of_neg (by simpa using hi), ih, process_workers,
        Function.update_of_ne (Ne.symm hi)]

/--
A run in which every locate belongs to one worker, every order reference to one locate, no live order is
added again and the shared pool and index never run out.
-/
structure Orderly (cfg : BookWorker.Config) (pool index : Nat) (run : List Input) : Prop where
  pool_pos : 0 < pool
  pool_le : pool ≤ noIdx
  index_two : 2 ≤ index
  index_le : index ≤ 2 ^ 31
  owned : ∃ owner : Nat → Nat, ∀ a ∈ run, a.worker = owner a.event.locate
  located : ∃ loc : Nat → Nat, ∀ a ∈ run, ∀ r ∈ a.event.body.refs, loc r = a.event.locate
  fresh : Run.Along (fun (rb : RefBook) ev => some (rb.onEvent ev.body))
    (fun rb ev => rb.Fresh ev.body) [] (run.map Input.event)
  room : Run.Along (fun s a => some (process cfg s a)) HasRoom (init pool index) run

namespace Orderly

variable {cfg : BookWorker.Config} {pool index : Nat} {run : List Input}

theorem ledger_contexts (h : Orderly cfg pool index run) (p : Nat → Prop) [DecidablePred p]
    : ((trace cfg (init pool index) run).filter (fun e => p e.1.event.locate)).map
        (fun e => e.2.1) =
      ledgerContexts (fun _ => none) ((run.map Input.event).filter (fun ev => p ev.locate)) := by
  obtain ⟨owner, howner⟩ := h.owned
  obtain ⟨loc, hloc⟩ := h.located
  have hloc' : ∀ ev ∈ run.map Input.event, ∀ r ∈ ev.body.refs, loc r = ev.locate := by
    intro ev hev
    obtain ⟨a, ha, rfl⟩ := List.mem_map.1 hev
    exact hloc a ha
  have hsplit : Split loc (init pool index).store ((init pool index).books owner) (fun _ => none) :=
    Split.init loc h.pool_pos h.pool_le (Nat.zero_lt_of_lt h.index_two) (OrderMap.le_noIdx h.index_le)
  apply trace_contexts cfg p hsplit howner hloc _ h.room
  . intro l
    have hinit : Tracks ((none : Option Ledger).getD .empty).orders [] := Tracks.init
    apply Split.fresh_along hinit
    exact RefBook.fresh_filter l hloc' (fun _ _ => rfl) h.fresh

theorem ledger_decisions (h : Orderly cfg pool index run) (i : Nat)
    : decisions cfg (init pool index) run i = BookWorker.init.decideAll cfg
        (List.zipWith (fun a ctx => (a.event, ctx, a.position))
          (run.filter (fun a => a.worker = i))
          (ledgerContexts (fun _ => none) ((run.filter (fun a => a.worker = i)).map Input.event))) := by
  obtain ⟨owner, howner⟩ := h.owned
  have hfilter : (trace cfg (init pool index) run).filter (fun e => e.1.worker = i) =
      (trace cfg (init pool index) run).filter (fun e => owner e.1.event.locate = i) := by
    apply List.filter_congr
    intro e he
    have hmem : e.1 ∈ run := by
      rw [← trace_inputs cfg (init pool index) run]
      exact List.mem_map_of_mem he
    rw [howner e.1 hmem]
  have hinputs : ((trace cfg (init pool index) run).filter (fun e => e.1.worker = i)).map Prod.fst =
      run.filter (fun a => a.worker = i) := by
    conv_rhs => rw [← trace_inputs cfg (init pool index) run]
    rw [List.filter_map]
    rfl
  have hevents : (run.map Input.event).filter (fun ev => owner ev.locate = i) =
      (run.filter (fun a => a.worker = i)).map Input.event := by
    rw [List.filter_map]
    congr 1
    apply List.filter_congr
    intro a ha
    rw [howner a ha]
    rfl
  have hctx := h.ledger_contexts (fun l => owner l = i)
  rw [← hfilter, hevents] at hctx
  rw [decisions_eq, ← hctx, ← hinputs, List.zipWith_map, List.zipWith_self]
  rfl

end Orderly

/--
What a worker orders depends on the events of its own locates, and what its strategies are told about a
locate on the events of that locate.
-/
theorem isolated {cfg : BookWorker.Config} {pool index pool' index' : Nat} {run run' : List Input}
    (h : Orderly cfg pool index run) (h' : Orderly cfg pool' index' run')
    : (∀ i, run.filter (fun a => a.worker = i) = run'.filter (fun a => a.worker = i) →
        decisions cfg (init pool index) run i = decisions cfg (init pool' index') run' i) ∧
      ∀ l, (run.map Input.event).filter (fun ev => ev.locate = l) =
          (run'.map Input.event).filter (fun ev => ev.locate = l) →
        contexts cfg (init pool index) run l = contexts cfg (init pool' index') run' l := by
  constructor
  . intro i hi
    rw [h.ledger_decisions, h'.ledger_decisions, hi]
  . intro l hl
    unfold contexts
    rw [h.ledger_contexts (fun k => k = l), h'.ledger_contexts (fun k => k = l), hl]

def decisionsFor (cfg : BookWorker.Config) (s : BookWorkers) (run : List Input) (locate : Nat)
    : List ArbDecision :=
  ((trace cfg s run).filterMap (fun e => e.2.2)).filter (fun d => d.locate = locate)

def addBuy (worker locate seq shares : Nat) : Input where
  worker := worker
  event := {
    seqId := seq
    locate := locate
    timestamp := 0
    body := .ADD { side := .BUY, price := 1000, shares := shares, orderRef := seq }
  }
  position _ := 0

theorem isolated_other_worker
    : (∀ i, [addBuy 0 1 1 600, addBuy 1 2 2 700].filter (fun a => a.worker = i) =
          [addBuy 1 2 2 700, addBuy 0 1 1 600].filter (fun a => a.worker = i) →
        decisions { maxPosition := 1000, baseQty := 100 } (init 4 4)
            [addBuy 0 1 1 600, addBuy 1 2 2 700] i =
          decisions { maxPosition := 1000, baseQty := 100 } (init 8 8)
            [addBuy 1 2 2 700, addBuy 0 1 1 600] i) ∧
      ∀ l, ([addBuy 0 1 1 600, addBuy 1 2 2 700].map Input.event).filter (fun ev => ev.locate = l) =
          ([addBuy 1 2 2 700, addBuy 0 1 1 600].map Input.event).filter (fun ev => ev.locate = l) →
        contexts { maxPosition := 1000, baseQty := 100 } (init 4 4)
            [addBuy 0 1 1 600, addBuy 1 2 2 700] l =
          contexts { maxPosition := 1000, baseQty := 100 } (init 8 8)
            [addBuy 1 2 2 700, addBuy 0 1 1 600] l := by
  apply isolated
  . constructor
    . decide
    . decide
    . decide
    . decide
    . exact ⟨fun l => l - 1, by decide⟩
    . exact ⟨id, by decide⟩
    . decide
    . decide +kernel
  . constructor
    . decide
    . decide
    . decide
    . decide
    . exact ⟨fun l => l - 1, by decide⟩
    . exact ⟨id, by decide⟩
    . decide
    . decide +kernel

theorem not_isolated
    : (¬ ∀ (cfg : BookWorker.Config) (pool index : Nat) (run run' : List Input) (l : Nat),
        Orderly cfg pool index run → Orderly cfg pool index run' →
        (∀ a ∈ run, a.worker = 0) → (∀ a ∈ run', a.worker = 0) →
        run.filter (fun a => a.event.locate = l) = run'.filter (fun a => a.event.locate = l) →
        decisionsFor cfg (init pool index) run l = decisionsFor cfg (init pool index) run' l) ∧
      ¬ ∀ (cfg : BookWorker.Config) (run run' : List Input) (l : Nat),
        (∀ a ∈ run, a.worker = 0) → (∀ a ∈ run', a.worker = 0) →
        run.filter (fun a => a.event.locate = l) = run'.filter (fun a => a.event.locate = l) →
        contexts cfg (init 4 4) run l = contexts cfg (init 4 4) run' l := by
  -- An order of another symbol of the same worker tips the flow over the threshold. And where two
  -- symbols use one order reference, even what the strategies are told about a symbol depends on
  -- the other one.
  constructor
  . intro h
    have hdec := h { maxPosition := 1000, baseQty := 100 } 4 4 [addBuy 0 1 2 100]
      [addBuy 0 2 1 450, addBuy 0 1 2 100] 1
      ⟨by decide, by decide, by decide, by decide, ⟨fun _ => 0, by decide⟩, ⟨fun _ => 1, by decide⟩,
        by decide, by decide +kernel⟩
      ⟨by decide, by decide, by decide, by decide, ⟨fun _ => 0, by decide⟩,
        ⟨fun r => 3 - r, by decide⟩, by decide, by decide +kernel⟩
      (by decide) (by decide) rfl
    revert hdec
    decide +kernel
  . intro h
    have hctx := h { maxPosition := 1000, baseQty := 100 }
      [addBuy 0 1 7 100, { addSell with event := { addSell.event with
        seqId := 9, body := .CANCEL { orderRef := 7, shares := 10 } } }]
      [addBuy 0 1 7 100, { addBuy 0 2 8 100 with event := { (addBuy 0 2 8 100).event with
        body := .DELETE { orderRef := 7 } } }, { addSell with event := { addSell.event with
        seqId := 9, body := .CANCEL { orderRef := 7, shares := 10 } } }] 1
      (by decide) (by decide) rfl
    revert hctx
    decide +kernel

end BookWorkers

end NebulaXTrader
