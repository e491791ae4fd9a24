import NebulaXTrader.Market.Isolation
import NebulaXTrader.Runtime.MachineAnswers

/-!
This module contains the theorem that the schedule of the threads does not matter to the strategies: what the workers tell
them, and what they decide, is what they would be told and decide if every event were processed at once.
-/

namespace NebulaXTrader

namespace BookWorkers

variable {cfg : BookWorker.Config} {owner loc : Nat → Nat} {pos : MarketEvent → Nat → Nat} {evs : List MarketEvent}

/--
Each event goes to the worker of its locate, and `pos` is what the risk manager answers meanwhile.
-/
def inputs (owner : Nat → Nat) (pos : MarketEvent → Nat → Nat) (evs : List MarketEvent) : List Input :=
  evs.map (fun ev => { worker := owner ev.locate, event := ev, position := pos ev })

theorem inputs_event : (inputs owner pos evs).map Input.event = evs := by
  unfold inputs
  rw [List.map_map]
  exact List.map_id evs

/--
The workers process the events of `evs`, and nothing is wrong with them.
-/
structure Sound (cfg : BookWorker.Config) (pool index : Nat) (owner loc : Nat → Nat) (pos : MarketEvent → Nat → Nat)
    (evs : List MarketEvent) : Prop where
  pool_pos : 0 < pool
  pool_le : pool ≤ noIdx
  index_pos : 0 < index
  index_le : index ≤ noIdx
  located : ∀ ev ∈ evs, ∀ r ∈ ev.body.refs, loc r = ev.locate
  fresh : ∀ l, Run.Along (fun lg ev => some (Split.advance lg ev)) (fun lg ev => (lg.getD .empty).Fresh ev.body) none
    (evs.filter (fun ev => ev.locate = l))
  room : Run.Along (fun s a => some (process cfg s a)) HasRoom (init pool index) (inputs owner pos evs)

/--
What a worker is told and decides about its events.
-/
def told (lgs : Nat → Option Ledger) (pos : MarketEvent → Nat → Nat) (evs : List MarketEvent)
    : List (MarketEvent × BookContext × (Nat → Nat)) :=
  List.zipWith (fun ev ctx => (ev, ctx, pos ev)) evs (ledgerContexts lgs evs)

variable {pool index : Nat}

theorem Sound.trace_contexts (h : Sound cfg pool index owner loc pos evs) (p : Nat → Prop) [DecidablePred p]
    : ((trace cfg (init pool index) (inputs owner pos evs)).filter (fun e => p e.1.event.locate)).map (fun e => e.2.1) =
      ledgerContexts (fun _ => none) (evs.filter (fun ev => p ev.locate)) := by
  have hsplit : Split loc (init pool index).store ((init pool index).books owner) (fun _ => none) :=
    Split.init loc h.pool_pos h.pool_le h.index_pos h.index_le
  have hinputs : ∀ a ∈ inputs owner pos evs, a.worker = owner a.event.locate ∧ a.event ∈ evs := by
    intro a ha
    obtain ⟨ev, hev, rfl⟩ := List.mem_map.1 ha
    exact ⟨rfl, hev⟩
  have htrace := BookWorkers.trace_contexts cfg p hsplit (fun a ha => (hinputs a ha).1)
    (fun a ha => h.located a.event (hinputs a ha).2) (by rw [inputs_event]; exact h.fresh) h.room
  rw [inputs_event] at htrace
  exact htrace

theorem Sound.contexts (h : Sound cfg pool index owner loc pos evs) (l : Nat)
    : contexts cfg (init pool index) (inputs owner pos evs) l =
      ledgerContexts (fun _ => none) (evs.filter (fun ev => ev.locate = l)) := h.trace_contexts (fun k => k = l)

theorem Sound.decisions (h : Sound cfg pool index owner loc pos evs) (i : Nat)
    : decisions cfg (init pool index) (inputs owner pos evs) i =
      BookWorker.init.decideAll cfg (told (fun _ => none) pos (evs.filter (fun ev => owner ev.locate = i))) := by
  have hfilter : (trace cfg (init pool index) (inputs owner pos evs)).filter (fun e => e.1.worker = i) =
      (trace cfg (init pool index) (inputs owner pos evs)).filter (fun e => owner e.1.event.locate = i) := by
    apply List.filter_congr
    intro e he
    have hmem : e.1 ∈ inputs owner pos evs := by
      rw [← trace_inputs cfg (init pool index) (inputs owner pos evs)]
      exact List.mem_map_of_mem he
    obtain ⟨ev, _, hev⟩ := List.mem_map.1 hmem
    rw [← hev]
  have hinputs : ((trace cfg (init pool index) (inputs owner pos evs)).filter
      (fun e => owner e.1.event.locate = i)).map Prod.fst =
        inputs owner pos (evs.filter (fun ev => owner ev.locate = i)) := by
    have hall := trace_inputs cfg (init pool index) (inputs owner pos evs)
    have hfiltered := congrArg (List.filter (fun a => owner a.event.locate = i)) hall
    rw [List.filter_map] at hfiltered
    unfold inputs at hfiltered ⊢
    rw [List.filter_map] at hfiltered
    exact hfiltered
  have hctx := h.trace_contexts (fun l => owner l = i)
  rw [decisions_eq, hfilter]
  unfold told
  rw [← hctx]
  have hzip : ∀ es : List (Input × BookContext × Option ArbDecision), ∀ evs', es.map Prod.fst = inputs owner pos evs' →
      es.map (fun e => (e.1.event, e.2.1, e.1.position)) =
        List.zipWith (fun ev ctx => (ev, ctx, pos ev)) evs' (es.map (fun e => e.2.1)) := by
    intro es
    induction es with
    | nil =>
      intro evs' hes
      cases evs' with
      | nil => rfl
      | cons ev evs' => cases hes
    | cons e es ih =>
      intro evs' hes
      cases evs' with
      | nil => cases hes
      | cons ev evs' =>
        unfold inputs at hes
        rw [List.map_cons, List.map_cons, List.cons.injEq] at hes
        rw [List.map_cons, List.map_cons, List.zipWith_cons_cons, ih evs' hes.2, hes.1]
  exact congrArg _ (hzip _ _ hinputs)

theorem room_of_consumers {s : BookWorkers} {w : Workers} (hstore : s.store = w.store)
    (hobc : ∀ i, (s.workers i).obc = w.consumers i)
    (h : Run.Along (fun w ev => some (Workers.deliver owner w ev)) (Workers.HasRoom owner) w evs)
    : Run.Along (fun s a => some (process cfg s a)) HasRoom s (inputs owner pos evs) := by
  induction evs generalizing s w with
  | nil => trivial
  | cons ev evs ih =>
    obtain ⟨hroom, hrest⟩ := h
    refine ⟨?_, ?_⟩
    . show (s.workers (owner ev.locate)).obc.HasRoom s.store ev
      rw [hobc, hstore]
      exact hroom
    . intro s' hs'
      cases hs'
      apply ih _ _ (hrest _ rfl)
      . show ((s.workers (owner ev.locate)).obc.onEvent s.store ev).2 = _
        rw [hobc, hstore]
        rfl
      . intro i
        rw [process_workers]
        unfold Workers.deliver
        dsimp only
        by_cases hi : i = owner ev.locate
        . rw [hi, Function.update_self, Function.update_self, hobc, hstore]
        . rw [Function.update_of_ne hi, Function.update_of_ne hi]
          exact hobc i

end BookWorkers

namespace Machine

variable {k pool index : Nat} {messages : List Message} {s s' : Machine}

/--
The workers to which the parser assigns the locates.
-/
def owners (nworkers : Nat) (evs : List MarketEvent) : Nat → Nat :=
  ((Run.exec (Registry.step nworkers) Registry.init (evs.map MarketEvent.locate)).getD Registry.init).owner

theorem Inv.sound (h : s.Inv k pool index messages) (hk' : k < 64) (cfg : BookWorker.Config) (pos : MarketEvent → Nat → Nat)
    (h0 : 0 < pool) (hle : pool ≤ noIdx) (h0' : 0 < index) (hle' : index ≤ noIdx) {loc : Nat → Nat}
    (hloc : ∀ ev ∈ events messages, ∀ r ∈ ev.body.refs, loc r = ev.locate)
    (hfresh : Run.Along (fun (rb : RefBook) ev => some (rb.onEvent ev.body)) (fun rb ev => rb.Fresh ev.body) []
      (events messages))
    : BookWorkers.Sound cfg pool index s.registry.owner loc pos s.log where
  pool_pos := h0
  pool_le := hle
  index_pos := h0'
  index_le := hle'
  located := fun ev hev => hloc ev ((h.given_prefix hk').subset (h.mem_given hev))
  fresh := by
    intro l
    obtain ⟨rest, hrest⟩ := h.log_prefix hk' l
    have hall := fresh_locate hloc hfresh l
    rw [← hrest] at hall
    exact hall.append_left
  room := BookWorkers.room_of_consumers (w := Workers.init pool index) rfl (fun _ => rfl) (Run.exec_restrict.1 h.workers).1

/--
What holds of the threads and of the events that they process.
-/
structure Follows (cfg : BookWorker.Config) (k nworkers pool index pool' index' : Nat) (loc : Nat → Nat)
    (pos : MarketEvent → Nat → Nat) (messages : List Message) (s : Machine) : Prop where
  inv : s.Inv k pool index messages
  nworkers_eq : s.nworkers = nworkers
  nworkers_lt : nworkers < 2 ^ 32
  processed : BookWorkers.Sound cfg pool index s.registry.owner loc pos s.log
  atOnce : BookWorkers.Sound cfg pool' index' (owners nworkers (events messages)) loc pos (events messages)

variable {cfg : BookWorker.Config} {nworkers pool' index' : Nat} {loc : Nat → Nat} {pos : MarketEvent → Nat → Nat}

theorem Inv.follows (hinv : s.Inv k pool index messages) (hk' : k < 64) (hsame : s.nworkers = nworkers)
    (hn : nworkers < 2 ^ 32) (h0 : 0 < pool) (h : pool ≤ noIdx) (h0' : 0 < index) (h' : index ≤ noIdx) (g0 : 0 < pool')
    (g : pool' ≤ noIdx) (g0' : 0 < index') (g' : index' ≤ noIdx)
    (hloc : ∀ ev ∈ events messages, ∀ r ∈ ev.body.refs, loc r = ev.locate)
    (hfresh : Run.Along (fun (rb : RefBook) ev => some (rb.onEvent ev.body)) (fun rb ev => rb.Fresh ev.body) []
      (events messages))
    (hroom : Run.Along (fun s a => some (BookWorkers.process cfg s a)) BookWorkers.HasRoom (BookWorkers.init pool' index')
      (BookWorkers.inputs (owners nworkers (events messages)) pos (events messages)))
    : Follows cfg k nworkers pool index pool' index' loc pos messages s where
  inv := hinv
  nworkers_eq := hsame
  nworkers_lt := hn
  processed := hinv.sound hk' cfg pos h0 h h0' h' hloc hfresh
  atOnce := ⟨g0, g, g0', g', hloc, fresh_locate hloc hfresh, hroom⟩

end Machine

end NebulaXTrader
