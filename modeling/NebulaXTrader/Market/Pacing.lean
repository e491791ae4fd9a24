import NebulaXTrader.Execution.Lemmas.ExecutionEngine
import NebulaXTrader.Market.BookWorker
import NebulaXTrader.Strategy.Arbitration

/-!
This module contains the model of `BookWorker<Strategies...>` over any strategies, and the theorem that its memory of
the last order bounds the orders that it submits in one direction.
-/

namespace NebulaXTrader

/--
The strategies a worker is instantiated with. Each of them has a slot.
-/
structure Strategies where
  State : Type
  count : Nat
  onMarket : State → MarketEvent → BookContext → State
  signal : State → Fin count → Signal

structure Submission where
  dir : OrderSide
  strength : Int
  orderId : Nat
  deriving DecidableEq, Repr

/--
What a call of `process` meets in the state that the worker shares with the other threads. They may change it between
any two of its accesses, so nothing relates the position that is read to the engine that gets the order.
-/
structure Shared where
  store : OrderStore
  rm : RiskManager
  ex : ExecutionEngine
  env : Env

structure StrategyWorker (S : Strategies) where
  obc : OrderBookConsumer
  strategies : S.State
  slots : List ArbSignal
  lastOrderSide : OrderSide
  lastOrderStr : Int

namespace StrategyWorker

variable {S : Strategies}

def init (strategies : S.State) : StrategyWorker S where
  obc := OrderBookConsumer.init
  strategies := strategies
  slots := List.replicate S.count {}
  lastOrderSide := .NONE
  lastOrderStr := -1

def feed (w : StrategyWorker S) (ev : MarketEvent) (ctx : BookContext) : StrategyWorker S :=
  let strategies := S.onMarket w.strategies ev ctx
  { w with
    strategies := strategies
    slots := List.ofFn (fun i => BookWorker.slotOf (S.signal strategies i) ev) }

def arbitrate (cfg : BookWorker.Config) (w : StrategyWorker S) (sh : Shared)
    : StrategyWorker S × Option Submission :=
  match arbitrateDecide w.slots cfg.weightBp cfg.primaryIdx cfg.thresholdBp with
  | none => (w, none)
  | some d =>
    let pos := sh.rm.position d.locate
    let blocked := d.dir = .BUY ∧ pos ≥ cfg.maxPosition ∨ d.dir = .SELL ∧ pos = 0
    let freshDir := d.dir ≠ w.lastOrderSide
    let strengthGe := d.strength ≥ w.lastOrderStr + BookWorker.kStrengthStep
    if ¬ blocked ∧ (freshDir ∨ strengthGe) then
      let decision : Signal := { side := d.dir, locate := d.locate, strength := d.strength }
      let oid := (sh.ex.submitSignal sh.env decision 1 .MARKET).2.1
      let w := if oid ≠ 0 then { w with lastOrderSide := d.dir, lastOrderStr := d.strength } else w
      (w, some { dir := d.dir, strength := d.strength, orderId := oid })
    else
      (w, none)

def process (cfg : BookWorker.Config) (w : StrategyWorker S) (ev : MarketEvent) (sh : Shared)
    : StrategyWorker S × Option Submission :=
  let (obc, st) := w.obc.onEvent sh.store ev
  let ctx := BookWorker.context (obc.book st ev.locate) ev
  ({ w with obc := obc }.feed ev ctx).arbitrate cfg sh

/--
The worker and its submissions so far, also the ones that the engine ignores with the id 0.
-/
def step (cfg : BookWorker.Config) (s : StrategyWorker S × List Submission) (a : MarketEvent × Shared)
    : StrategyWorker S × List Submission :=
  let (w, sub) := s.1.process cfg a.1 a.2
  (w, s.2 ++ sub.toList)

def run (cfg : BookWorker.Config) (strategies : S.State) (inputs : List (MarketEvent × Shared))
    : StrategyWorker S × List Submission :=
  inputs.foldl (step cfg) (init strategies, [])

def orders (subs : List Submission) : List Submission := subs.filter (fun s => s.orderId ≠ 0)

/--
An order in the direction of the one before is stronger than it by a full step.
-/
def Spaced (a b : Submission) : Prop := a.dir = b.dir → a.strength + BookWorker.kStrengthStep ≤ b.strength

section

variable {cfg : BookWorker.Config} {w w' : StrategyWorker S} {sh : Shared} {sub : Option Submission}

theorem arbitrate_cases (h : w.arbitrate cfg sh = (w', sub))
    : w'.slots = w.slots ∧
      ((orders sub.toList = [] ∧ w'.lastOrderSide = w.lastOrderSide ∧ w'.lastOrderStr = w.lastOrderStr) ∨
        ∃ o d, orders sub.toList = [o] ∧ arbitrateDecide w.slots cfg.weightBp cfg.primaryIdx cfg.thresholdBp = some d ∧
          o.strength = d.strength ∧ w'.lastOrderSide = o.dir ∧ w'.lastOrderStr = o.strength ∧
          (w.lastOrderSide = o.dir → w.lastOrderStr + BookWorker.kStrengthStep ≤ o.strength)) := by
  unfold arbitrate at h
  split at h
  . cases h
    exact ⟨rfl, .inl ⟨rfl, rfl, rfl⟩⟩
  . next d hd =>
    simp only at h
    split at h
    . next hgo =>
      generalize (sh.ex.submitSignal sh.env
        { side := d.dir, locate := d.locate, strength := d.strength } 1 .MARKET).2.1 = oid at h
      cases h
      by_cases hid : oid = 0
      . rw [if_neg (not_not.2 hid)]
        refine ⟨rfl, .inl ⟨?_, rfl, rfl⟩⟩
        simp [orders, hid]
      . rw [if_pos hid]
        refine ⟨rfl, .inr ⟨⟨d.dir, d.strength, oid⟩, d, ?_, hd, rfl, rfl, rfl, ?_⟩⟩
        . simp [orders, hid]
        . intro hsame
          cases hgo.2 with
          | inl hfresh => exact absurd hsame.symm hfresh
          | inr hge => exact hge
    . cases h
      exact ⟨rfl, .inl ⟨rfl, rfl, rfl⟩⟩

theorem process_eq (cfg : BookWorker.Config) (w : StrategyWorker S) (ev : MarketEvent) (sh : Shared)
    : ∃ fed : StrategyWorker S, fed.slots.length = S.count ∧ fed.lastOrderSide = w.lastOrderSide ∧
        fed.lastOrderStr = w.lastOrderStr ∧ w.process cfg ev sh = fed.arbitrate cfg sh := by
  let r := w.obc.onEvent sh.store ev
  refine ⟨({ w with obc := r.1 } : StrategyWorker S).feed ev (BookWorker.context (r.1.book r.2 ev.locate) ev), ?_⟩
  exact ⟨List.length_ofFn, rfl, rfl, rfl⟩

end

/--
The invariant of a run: the memory is the last order with an id.
-/
structure Paced (w : StrategyWorker S) (l : List Submission) : Prop where
  spaced : l.IsChain Spaced
  last : ∀ o, l.getLast? = some o → w.lastOrderSide = o.dir ∧ w.lastOrderStr = o.strength
  range : ∀ o ∈ l, 0 ≤ o.strength ∧ o.strength ≤ Signal.kStrengthScale

def SlotsInRange (w : StrategyWorker S) : Prop :=
  ∀ slot ∈ w.slots, 0 ≤ slot.strength ∧ slot.strength ≤ Signal.kStrengthScale

section

variable {cfg : BookWorker.Config} {w w' : StrategyWorker S} {sh : Shared} {sub : Option Submission}
  {l : List Submission}

theorem Paced.congr (h : Paced w l) (hside : w'.lastOrderSide = w.lastOrderSide)
    (hstr : w'.lastOrderStr = w.lastOrderStr) : Paced w' l := by
  constructor
  . exact h.spaced
  . rw [hside, hstr]
    exact h.last
  . exact h.range

theorem Paced.push {o : Submission} (h : Paced w l)
    (hspaced : w.lastOrderSide = o.dir → w.lastOrderStr + BookWorker.kStrengthStep ≤ o.strength)
    (hrange : 0 ≤ o.strength ∧ o.strength ≤ Signal.kStrengthScale) (hside : w'.lastOrderSide = o.dir)
    (hstr : w'.lastOrderStr = o.strength) : Paced w' (l ++ [o]) := by
  constructor
  . apply List.isChain_append.2
    refine ⟨h.spaced, List.isChain_singleton o, ?_⟩
    intro a ha b hb hsame
    have hlast := h.last a ha
    have heq : o = b := Option.some.inj hb
    rw [← heq] at hsame ⊢
    rw [← hlast.2]
    apply hspaced
    rw [hlast.1, hsame]
  . intro b hb
    rw [List.getLast?_append] at hb
    have heq : o = b := Option.some.inj hb
    rw [← heq]
    exact ⟨hside, hstr⟩
  . intro b hb
    cases List.mem_append.1 hb with
    | inl hold => exact h.range b hold
    | inr hnew =>
      rw [List.mem_singleton.1 hnew]
      exact hrange

theorem Paced.arbitrate (h : Paced w l) (hw : ∀ i < w.slots.length, 0 ≤ cfg.weightBp i)
    (hslots : SlotsInRange w) (heq : w.arbitrate cfg sh = (w', sub)) : Paced w' (l ++ orders sub.toList) := by
  obtain ⟨_, hkeep | hpush⟩ := arbitrate_cases heq
  . obtain ⟨hnone, hside, hstr⟩ := hkeep
    rw [hnone, List.append_nil]
    exact h.congr hside hstr
  . obtain ⟨o, d, hone, hd, hstrength, hside, hstr, hspaced⟩ := hpush
    rw [hone]
    apply h.push hspaced _ hside hstr
    rw [hstrength]
    exact Arbitration.decision_range hw (by decide) (by decide) hslots hd

end

/--
The weights of the slots are not negative.
-/
def Weighted (S : Strategies) (cfg : BookWorker.Config) : Prop := ∀ i < S.count, 0 ≤ cfg.weightBp i

section

variable {cfg : BookWorker.Config} {strategies : S.State} {inputs : List (MarketEvent × Shared)}
  {w : StrategyWorker S} {l : List Submission}

theorem run_concat (cfg : BookWorker.Config) (strategies : S.State) (inputs : List (MarketEvent × Shared))
    (a : MarketEvent × Shared)
    : run cfg strategies (inputs ++ [a]) = step cfg (run cfg strategies inputs) a := by
  unfold run
  rw [List.foldl_append]
  rfl

theorem Paced.run (hw : Weighted S cfg) (inputs : List (MarketEvent × Shared))
    (hslots : ∀ pre, pre <+: inputs → SlotsInRange (StrategyWorker.run cfg strategies pre).1)
    : Paced (StrategyWorker.run cfg strategies inputs).1 (orders (StrategyWorker.run cfg strategies inputs).2) := by
  induction inputs using List.reverseRecOn with
  | nil =>
    constructor
    . exact List.isChain_nil
    . intro o ho
      cases ho
    . intro o ho
      cases ho
  | append_singleton inputs a ih =>
    have hbefore := ih (fun pre hpre => hslots pre (hpre.trans (List.prefix_append inputs [a])))
    have hafter := hslots _ (List.prefix_refl (inputs ++ [a]))
    rw [run_concat] at hafter ⊢
    generalize StrategyWorker.run cfg strategies inputs = s at hbefore hafter ⊢
    obtain ⟨fed, hlength, hside, hstr, hprocess⟩ := process_eq cfg s.1 a.1 a.2
    have hstep : step cfg s a = ((fed.arbitrate cfg a.2).1, s.2 ++ (fed.arbitrate cfg a.2).2.toList) := by
      rw [← hprocess]
      rfl
    rw [hstep] at hafter ⊢
    generalize hres : fed.arbitrate cfg a.2 = res at hafter ⊢
    have hsame := (arbitrate_cases hres).1
    have hfed : SlotsInRange fed := by
      intro slot hslot
      apply hafter slot
      show slot ∈ res.1.slots
      rw [hsame]
      exact hslot
    have hweights : ∀ i < fed.slots.length, 0 ≤ cfg.weightBp i := by
      rw [hlength]
      exact hw
    have hpaced := (hbefore.congr hside hstr).arbitrate hweights hfed hres
    unfold orders at hpaced ⊢
    rw [List.filter_append]
    exact hpaced

theorem length_le_of_spaced {k hi a : Int} {l : List Int} (hchain : (a :: l).IsChain (fun x y => x + k ≤ y))
    (hhi : ∀ x ∈ a :: l, x ≤ hi) : a + k * l.length ≤ hi := by
  induction l generalizing a with
  | nil => simpa using hhi a (List.mem_singleton_self a)
  | cons b l ih =>
    have hcons := List.isChain_cons_cons.1 hchain
    have hrest := ih hcons.2 (fun x hx => hhi x (List.mem_cons_of_mem a hx))
    have hstep := hcons.1
    rw [List.length_cons, Nat.cast_succ, Int.mul_add, Int.mul_one]
    omega

theorem Paced.length_le (h : Paced w l) {stretch : List Submission} (hslice : stretch <:+: l)
    (hsame : ∀ a ∈ stretch, ∀ b ∈ stretch, a.dir = b.dir) : stretch.length ≤ 21 := by
  cases stretch with
  | nil => decide
  | cons a rest =>
    have hchain := h.spaced.infix hslice
    have hrange : ∀ o ∈ a :: rest, 0 ≤ o.strength ∧ o.strength ≤ 10000 :=
      fun o ho => h.range o (hslice.subset ho)
    have hstrengths : ((a :: rest).map Submission.strength).IsChain (fun x y => x + 500 ≤ y) := by
      rw [List.isChain_map]
      apply hchain.imp_of_mem_imp
      intro b c hb hc hspaced
      exact hspaced (hsame b hb c hc)
    have hfew : a.strength + 500 * ((rest.map Submission.strength).length : Int) ≤ 10000 := by
      apply length_le_of_spaced hstrengths
      intro x hx
      rw [← List.map_cons] at hx
      obtain ⟨o, ho, rfl⟩ := List.mem_map.1 hx
      exact (hrange o ho).2
    have hfirst := (hrange a List.mem_cons_self).1
    rw [List.length_map] at hfew
    rw [List.length_cons]
    omega

/--
Of the orders with an id, one in the direction of the one before is stronger by a full step. So the orders between two
changes of direction are at most 21, however long the run.
-/
theorem order_pacing (hw : Weighted S cfg)
    (hslots : ∀ pre, pre <+: inputs → SlotsInRange (StrategyWorker.run cfg strategies pre).1)
    : (orders (StrategyWorker.run cfg strategies inputs).2).IsChain Spaced ∧
      ∀ stretch, stretch <:+: orders (StrategyWorker.run cfg strategies inputs).2 →
        (∀ a ∈ stretch, ∀ b ∈ stretch, a.dir = b.dir) → stretch.length ≤ 21 := by
  have hpaced := Paced.run hw inputs hslots
  refine ⟨hpaced.spaced, ?_⟩
  intro stretch hslice hsame
  exact hpaced.length_le hslice hsame

end

/--
The strategies of the default configuration.
-/
def flowAndBook : Strategies where
  State := OrderFlowImbalanceStrategy × OrderBookImbalanceStrategy
  count := 2
  onMarket s ev ctx := (s.1.onMarket ev ctx, s.2.onMarket ev ctx)
  signal s i := if i = 0 then s.1.signal else s.2.signal

end StrategyWorker

theorem ExecutionEngine.submitSignal_id {ex : ExecutionEngine} {sig : Signal} (env : Env) (strategyId : Nat)
    (hnext : ex.om.nextId ≠ 0) (hside : sig.side ≠ .NONE) (hprice : sig.price = 0)
    : (ex.submitSignal env sig strategyId .MARKET).2.1 ≠ 0 ↔ sig.quantity ex.baseQty ≠ 0 := by
  have hsignal : ¬ (sig.side = .NONE ∨ sig.price < 0) := by
    intro h
    cases h with
    | inl hnone => exact hside hnone
    | inr hneg => omega
  have hmarket : ¬ (OrderType.MARKET = .LIMIT ∧ sig.price ≤ 0) := by
    intro h
    cases h.1
  by_cases hqty : sig.quantity ex.baseQty = 0
  . have hnone : ex.orderFor sig strategyId .MARKET = none := by
      unfold orderFor
      rw [if_neg hsignal, if_neg hmarket]
      exact if_pos hqty
    rw [submitSignal_none ex env hnone]
    exact ⟨fun h => absurd rfl h, fun h => absurd hqty h⟩
  . have hid : (ex.submitSignal env sig strategyId .MARKET).2.1 = ex.om.nextId := by
      unfold submitSignal orderFor
      rw [if_neg hsignal, if_neg hmarket]
      dsimp only
      rw [if_neg hqty]
      dsimp only
      repeat' split
      all_goals rfl
    rw [hid]
    exact ⟨fun _ => hqty, fun _ => hnext⟩

namespace BookWorker

def toStrategyWorker (w : BookWorker) : StrategyWorker StrategyWorker.flowAndBook where
  obc := w.obc
  strategies := (w.ofi, w.obi)
  slots := w.slots
  lastOrderSide := w.lastOrderSide
  lastOrderStr := w.lastOrderStr

section

variable {cfg : Config} {sh : Shared}

theorem arbitrate_agrees (w : BookWorker) (hqty : sh.ex.baseQty = cfg.baseQty) (hnext : sh.ex.om.nextId ≠ 0)
    : (w.toStrategyWorker.arbitrate cfg sh).1 = (w.arbitrate cfg sh.rm.position).1.toStrategyWorker := by
  unfold StrategyWorker.arbitrate BookWorker.arbitrate
  have hslots : w.toStrategyWorker.slots = w.slots := rfl
  rw [hslots]
  cases hd : arbitrateDecide w.slots cfg.weightBp cfg.primaryIdx cfg.thresholdBp with
  | none => rfl
  | some d =>
    have hid := @ExecutionEngine.submitSignal_id sh.ex { side := d.dir, locate := d.locate, strength := d.strength }
      sh.env 1 hnext (Arbitration.decision_dir hd) rfl
    rw [hqty] at hid
    simp only [hid]
    have hside : w.toStrategyWorker.lastOrderSide = w.lastOrderSide := rfl
    have hstr : w.toStrategyWorker.lastOrderStr = w.lastOrderStr := rfl
    rw [hside, hstr]
    split
    . split
      . rfl
      . rfl
    . rfl

theorem feed_agrees (w : BookWorker) (ev : MarketEvent) (ctx : BookContext)
    : w.toStrategyWorker.feed ev ctx = (w.feed ev ctx).toStrategyWorker := by
  unfold StrategyWorker.feed
  have hslots : List.ofFn (fun i => slotOf (StrategyWorker.flowAndBook.signal
      (StrategyWorker.flowAndBook.onMarket w.toStrategyWorker.strategies ev ctx) i) ev) =
      (w.feed ev ctx).toStrategyWorker.slots := List.ofFn_succ
  dsimp only
  rw [hslots]
  rfl

theorem process_agrees (w : BookWorker) (ev : MarketEvent) (hqty : sh.ex.baseQty = cfg.baseQty)
    (hnext : sh.ex.om.nextId ≠ 0)
    : (w.toStrategyWorker.process cfg ev sh).1 =
        (w.process cfg sh.store ev sh.rm.position).1.toStrategyWorker := by
  -- The worker of the two strategies is the one over any strategies.
  let r := w.obc.onEvent sh.store ev
  let ctx := context (r.1.book r.2 ev.locate) ev
  have hprocess : (w.toStrategyWorker.process cfg ev sh).1 =
      ((({ w with obc := r.1 } : BookWorker).toStrategyWorker.feed ev ctx).arbitrate cfg sh).1 := rfl
  rw [hprocess, feed_agrees, arbitrate_agrees _ hqty hnext]
  rfl

end

end BookWorker

namespace StrategyWorker

def freshEngine : ExecutionEngine where
  rm := RiskManager.init {}

def freshShared : Shared where
  store := { pool := OrderPool.init 4, index := OrderMap.init 4 }
  rm := RiskManager.init {}
  ex := freshEngine
  env := { visit_perm := List.Perm.refl }

def buy (ref shares : Nat) : MarketEvent where
  seqId := ref
  locate := 1
  timestamp := ref
  body := .ADD { side := .BUY, price := 1000, shares := shares, orderRef := ref }

def buys : List (MarketEvent × Shared) := [(buy 1 750, freshShared), (buy 2 250, freshShared)]

theorem order_pacing_twice :
    let subs := (StrategyWorker.run (S := flowAndBook) { maxPosition := 1000, baseQty := 100 } ({}, {}) buys).2
    subs = [⟨.BUY, 5000, 1⟩, ⟨.BUY, 10000, 1⟩] ∧ (orders subs).IsChain Spaced := by
  have hweights : Weighted flowAndBook { maxPosition := 1000, baseQty := 100 } := by
    intro i _
    show (0 : Int) ≤ 10000
    decide
  have hslots : ∀ pre ∈ buys.inits,
      SlotsInRange (StrategyWorker.run (S := flowAndBook) { maxPosition := 1000, baseQty := 100 } ({}, {}) pre).1 := by
    unfold SlotsInRange
    decide +kernel
  intro subs
  constructor
  . decide +kernel
  . apply (order_pacing hweights _).1
    intro pre hpre
    exact hslots pre ((List.mem_inits pre buys).2 hpre)

end StrategyWorker

end NebulaXTrader
