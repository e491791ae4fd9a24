import NebulaXTrader.Market.Lemmas.OrderBookConsumer

/-!
This module contains the sharded market: several order book consumers that share one order pool and one
order index, each of them responsible for some of the locates. Every book comes out as if one consumer
had processed the whole stream.
-/

namespace NebulaXTrader

structure Workers where
  store : OrderStore
  consumers : Nat → OrderBookConsumer

namespace Workers

def init (pool index : Nat) : Workers where
  store := { pool := OrderPool.init pool, index := OrderMap.init index }
  consumers _ := OrderBookConsumer.init

def deliver (owner : Nat → Nat) (w : Workers) (ev : MarketEvent) : Workers :=
  let (c, st) := (w.consumers (owner ev.locate)).onEvent w.store ev
  { store := st, consumers := Function.update w.consumers (owner ev.locate) c }

def book (w : Workers) (owner : Nat → Nat) (locate : Nat) : Option OrderBook :=
  (w.consumers (owner locate)).book w.store locate

def HasRoom (owner : Nat → Nat) (w : Workers) (ev : MarketEvent) : Prop :=
  (w.consumers (owner ev.locate)).HasRoom w.store ev

instance (owner : Nat → Nat) (w : Workers) (ev : MarketEvent) : Decidable (w.HasRoom owner ev) :=
  inferInstanceAs (Decidable (OrderBookConsumer.HasRoom _ _ _))

end Workers

def OrderBookConsumer.deliver (s : OrderBookConsumer × OrderStore) (ev : MarketEvent)
    : OrderBookConsumer × OrderStore :=
  s.1.onEvent s.2 ev

structure OrderBook.SameAnswers (bk bk' : OrderBook) : Prop where
  bestBid : bk.bestBid = bk'.bestBid
  bestAsk : bk.bestAsk = bk'.bestAsk
  bestBidVolume : bk.bestBidVolume = bk'.bestBidVolume
  bestAskVolume : bk.bestAskVolume = bk'.bestAskVolume
  bidLevels : bk.bidLevels = bk'.bidLevels
  askLevels : bk.askLevels = bk'.askLevels
  bidVolumeAt : ∀ p, bk.bidVolumeAt p = bk'.bidVolumeAt p
  askVolumeAt : ∀ p, bk.askVolumeAt p = bk'.askVolumeAt p
  get : ∀ ref, (bk.get ref).map OrderSlotView.unsequenced =
    (bk'.get ref).map OrderSlotView.unsequenced

/--
A store and the books of all locates, split into one ledger per locate. The map `loc` tells which locate
an order reference belongs to.
-/
structure Split (loc : Nat → Nat) (st : OrderStore) (books : Nat → Option BookSides)
    (lgs : Nat → Option Ledger) : Prop where
  stored : ∃ orders, Stored st.pool st.index orders ∧ ∀ ref,
    (orders ref).map OrderSlotView.unsequenced = ((lgs (loc ref)).getD .empty).orders ref
  opened : ∀ l, (books l).isSome = (lgs l).isSome
  bids : ∀ l, ((books l).getD .init).bids.mapLvl PriceLevel.qty =
    ((lgs l).getD .empty).sides.bids
  asks : ∀ l, ((books l).getD .init).asks.mapLvl PriceLevel.qty =
    ((lgs l).getD .empty).sides.asks

namespace Split

variable {loc : Nat → Nat} {st : OrderStore} {books : Nat → Option BookSides}
  {lgs : Nat → Option Ledger}

theorem init (loc : Nat → Nat) {pool index : Nat} (h0 : 0 < pool) (h : pool ≤ noIdx) (h0' : 0 < index)
    (h' : index ≤ noIdx)
    : Split loc (Workers.init pool index).store (fun _ => none) (fun _ => none) := by
  constructor
  . exact ⟨_, Stored.init h0 h h0' h', fun _ => rfl⟩
  . intro l
    rfl
  . intro l
    rfl
  . intro l
    rfl

theorem sim (h : Split loc st books lgs) (l : Nat)
    : ∃ lg, Sim (OrderBook.ofStore st ((books l).getD .init)) lg ∧
        lg.unsequenced.SameOn (fun ref => loc ref = l) ((lgs l).getD .empty) ∧
        ∀ ref, (lg.orders ref).map OrderSlotView.unsequenced =
          ((lgs (loc ref)).getD .empty).orders ref := by
  obtain ⟨orders, hst, horders⟩ := h.stored
  apply Exists.intro { orders := orders, sides := ((lgs l).getD .empty).sides }
  constructor
  . exact ⟨hst, h.bids l, h.asks l⟩
  . constructor
    . constructor
      . rfl
      . intro ref href
        rw [← href]
        exact horders ref
    . exact horders

theorem onEvent (h : Split loc st books lgs) (c : OrderBookConsumer) (ev : MarketEvent)
    (hc : c.books ev.locate = books ev.locate) (hloc : ∀ r ∈ ev.body.refs, loc r = ev.locate)
    (hfresh : ((lgs ev.locate).getD .empty).Fresh ev.body) (hroom : c.HasRoom st ev)
    : Split loc (c.onEvent st ev).2
        (Function.update books ev.locate ((c.onEvent st ev).1.books ev.locate))
        (Function.update lgs ev.locate
          (some (((lgs ev.locate).getD .empty).onEvent 0 ev.body))) := by
  obtain ⟨lg, hsim, hsame, horders⟩ := h.sim ev.locate
  rw [← hc] at hsim
  have hfresh' : lg.Fresh ev.body := by
    apply hfresh.congr
    intro r hr
    rw [← hsame.orders r (hloc r hr), Ledger.unsequenced_orders, Option.map_eq_none_iff]
  obtain ⟨seq, hsim'⟩ := c.onEvent_sim st ev hsim hfresh' hroom
  have hsame' := hsame.onEvent 0 hloc
  rw [← Ledger.unsequenced_onEvent lg seq] at hsame'
  have hopen := (c.onEvent_books st ev).1
  constructor
  . apply Exists.intro (lg.onEvent seq ev.body).orders
    constructor
    . exact hsim'.stored
    . intro ref
      by_cases hl : loc ref = ev.locate
      . rw [hl, Function.update_self]
        exact hsame'.orders ref hl
      . rw [Function.update_of_ne hl, Ledger.onEvent_orders_of_not_mem]
        . exact horders ref
        . intro hr
          exact hl (hloc ref hr)
  . intro l
    by_cases hl : l = ev.locate
    . rw [hl, Function.update_self, Function.update_self, hopen]
      rfl
    . rw [Function.update_of_ne hl, Function.update_of_ne hl]
      exact h.opened l
  . intro l
    by_cases hl : l = ev.locate
    . rw [hl, Function.update_self, Function.update_self, Option.getD_some, ← hsame'.sides]
      exact hsim'.bids
    . rw [Function.update_of_ne hl, Function.update_of_ne hl]
      exact h.bids l
  . intro l
    by_cases hl : l = ev.locate
    . rw [hl, Function.update_self, Function.update_self, Option.getD_some, ← hsame'.sides]
      exact hsim'.asks
    . rw [Function.update_of_ne hl, Function.update_of_ne hl]
      exact h.asks l

theorem sameAnswers {st' : OrderStore} {books' : Nat → Option BookSides}
    (h : Split loc st books lgs) (h' : Split loc st' books' lgs) (l : Nat)
    : Option.Rel OrderBook.SameAnswers ((books l).map (OrderBook.ofStore st))
        ((books' l).map (OrderBook.ofStore st')) := by
  have hopen := (h.opened l).trans (h'.opened l).symm
  obtain ⟨lg, hsim, hsame, horders⟩ := h.sim l
  obtain ⟨lg', hsim', hsame', horders'⟩ := h'.sim l
  have hsides : lg.sides = lg'.sides := hsame.sides.trans hsame'.sides.symm
  cases hb : books l with
  | none =>
    rw [hb] at hopen
    rw [Option.isSome_eq_false_iff.1 hopen.symm |> Option.isNone_iff_eq_none.1]
    exact Option.Rel.none
  | some s =>
    rw [hb] at hopen hsim
    obtain ⟨s', hb'⟩ := Option.isSome_iff_exists.1 hopen.symm
    rw [hb'] at hsim' ⊢
    rw [Option.getD_some] at hsim hsim'
    apply Option.Rel.some
    constructor
    . rw [hsim.bestBid, hsim'.bestBid, hsides]
    . rw [hsim.bestAsk, hsim'.bestAsk, hsides]
    . rw [hsim.bestBidVolume, hsim'.bestBidVolume, hsides]
    . rw [hsim.bestAskVolume, hsim'.bestAskVolume, hsides]
    . rw [hsim.bidLevels, hsim'.bidLevels, hsides]
    . rw [hsim.askLevels, hsim'.askLevels, hsides]
    . intro p
      rw [hsim.bidVolumeAt, hsim'.bidVolumeAt, hsides]
    . intro p
      rw [hsim.askVolumeAt, hsim'.askVolumeAt, hsides]
    . intro ref
      rw [hsim.get, hsim'.get, horders, horders']

def advance (lg : Option Ledger) (ev : MarketEvent) : Option Ledger :=
  some ((lg.getD .empty).onEvent 0 ev.body)

theorem fresh_along {lg : Option Ledger} {rb : RefBook} {evs : List MarketEvent}
    (h : Tracks (lg.getD .empty).orders rb)
    (hf : Run.Along (fun rb ev => some (rb.onEvent ev.body)) (fun rb ev => rb.Fresh ev.body) rb evs)
    : Run.Along (fun lg ev => some (advance lg ev)) (fun lg ev => (lg.getD .empty).Fresh ev.body) lg
        evs := by
  induction evs generalizing lg rb with
  | nil => trivial
  | cons ev evs ih =>
    unfold Run.Along at hf ⊢
    constructor
    . exact h.fresh hf.1
    . intro lg' hlg
      cases hlg
      apply ih _ (hf.2 _ rfl)
      exact h.onEvent 0 hf.1

theorem run {σ : Type} {step : σ → MarketEvent → σ} {room : σ → MarketEvent → Prop}
    (storeOf : σ → OrderStore) (booksOf : σ → Nat → Option BookSides)
    (hstep : ∀ s ev, ∃ c : OrderBookConsumer, c.books ev.locate = booksOf s ev.locate ∧
      (room s ev → c.HasRoom (storeOf s) ev) ∧
      storeOf (step s ev) = (c.onEvent (storeOf s) ev).2 ∧
      booksOf (step s ev) = Function.update (booksOf s) ev.locate
        ((c.onEvent (storeOf s) ev).1.books ev.locate))
    {s : σ} {evs : List MarketEvent} (hs : Split loc (storeOf s) (booksOf s) lgs)
    (hloc : ∀ ev ∈ evs, ∀ r ∈ ev.body.refs, loc r = ev.locate)
    (hroom : Run.Along (fun s ev => some (step s ev)) room s evs)
    (hfresh : ∀ l, Run.Along (fun lg ev => some (advance lg ev))
      (fun lg ev => (lg.getD .empty).Fresh ev.body) (lgs l) (evs.filter (fun ev => ev.locate = l)))
    : Split loc (storeOf (evs.foldl step s)) (booksOf (evs.foldl step s))
        (fun l => Ledger.ofEvents (lgs l) evs l) := by
  induction evs generalizing s lgs with
  | nil => exact hs
  | cons ev evs ih =>
    unfold Run.Along at hroom
    obtain ⟨c, hc, hcroom, hstore, hbooks⟩ := hstep s ev
    have hself := hfresh ev.locate
    rw [List.filter_cons_of_pos (by simp)] at hself
    unfold Run.Along at hself
    have hnext := hs.onEvent c ev hc (hloc ev List.mem_cons_self) hself.1 (hcroom hroom.1)
    rw [← hstore, ← hbooks] at hnext
    have hrest := ih hnext (fun e he => hloc e (List.mem_cons_of_mem _ he)) (hroom.2 _ rfl)
    have hlgs : (fun l => Ledger.ofEvents (lgs l) (ev :: evs) l) = fun l =>
        Ledger.ofEvents (Function.update lgs ev.locate
          (some (((lgs ev.locate).getD .empty).onEvent 0 ev.body)) l) evs l := by
      funext l
      unfold Ledger.ofEvents
      by_cases hl : l = ev.locate
      . rw [hl, Function.update_self, List.filter_cons_of_pos (by simp)]
        rfl
      . rw [Function.update_of_ne hl, List.filter_cons_of_neg (by simpa using fun he => hl he.symm)]
    rw [hlgs]
    apply hrest
    intro l
    by_cases hl : l = ev.locate
    . rw [hl, Function.update_self]
      exact hself.2 _ rfl
    . rw [Function.update_of_ne hl]
      have hother := hfresh l
      rw [List.filter_cons_of_neg (by simpa using fun he => hl he.symm)] at hother
      exact hother

end Split

namespace Workers

theorem deliver_step (owner : Nat → Nat) (w : Workers) (ev : MarketEvent)
    : ∃ c : OrderBookConsumer,
        c.books ev.locate = (w.consumers (owner ev.locate)).books ev.locate ∧
        (w.HasRoom owner ev → c.HasRoom w.store ev) ∧
        (w.deliver owner ev).store = (c.onEvent w.store ev).2 ∧
        (fun l => ((w.deliver owner ev).consumers (owner l)).books l) =
          Function.update (fun l => (w.consumers (owner l)).books l) ev.locate
            ((c.onEvent w.store ev).1.books ev.locate) := by
  apply Exists.intro (w.consumers (owner ev.locate))
  constructor
  . rfl
  . constructor
    . intro h
      exact h
    . constructor
      . rfl
      . have hbooks := ((w.consumers (owner ev.locate)).onEvent_books w.store ev).2
        funext l
        by_cases hl : l = ev.locate
        . rw [hl, Function.update_self]
          unfold deliver
          dsimp only
          rw [Function.update_self]
        . rw [Function.update_of_ne hl]
          unfold deliver
          dsimp only
          by_cases ho : owner l = owner ev.locate
          . rw [ho, Function.update_self]
            exact hbooks l hl
          . rw [Function.update_of_ne ho]

theorem deliver_single_step (s : OrderBookConsumer × OrderStore) (ev : MarketEvent)
    : ∃ c : OrderBookConsumer, c.books ev.locate = s.1.books ev.locate ∧
        (s.1.HasRoom s.2 ev → c.HasRoom s.2 ev) ∧
        (OrderBookConsumer.deliver s ev).2 = (c.onEvent s.2 ev).2 ∧
        (OrderBookConsumer.deliver s ev).1.books =
          Function.update s.1.books ev.locate ((c.onEvent s.2 ev).1.books ev.locate) := by
  apply Exists.intro s.1
  constructor
  . rfl
  . constructor
    . intro h
      exact h
    . constructor
      . rfl
      . funext l
        by_cases hl : l = ev.locate
        . rw [hl, Function.update_self]
          rfl
        . rw [Function.update_of_ne hl]
          exact (s.1.onEvent_books s.2 ev).2 l hl

def initSingle (pool index : Nat) : OrderBookConsumer × OrderStore :=
  (OrderBookConsumer.init, (init pool index).store)

/--
Every book of the sharded market, after any schedule that keeps the events of each locate in order,
answers like the book of one consumer that processed the stream.
-/
theorem sharded_sameAnswers {pool index pool' index' : Nat} (h0 : 0 < pool) (h : pool ≤ noIdx)
    (h0' : 2 ≤ index) (h' : index ≤ 2 ^ 31) (g0 : 0 < pool') (g : pool' ≤ noIdx) (g0' : 2 ≤ index')
    (g' : index' ≤ 2 ^ 31) (owner loc : Nat → Nat) (stream sched : List MarketEvent)
    (hloc : ∀ ev ∈ stream, ∀ r ∈ ev.body.refs, loc r = ev.locate)
    (hfresh : Run.Along (fun (rb : RefBook) ev => some (rb.onEvent ev.body))
      (fun rb ev => rb.Fresh ev.body) [] stream)
    (hsched : ∀ l, sched.filter (fun ev => ev.locate = l) = stream.filter (fun ev => ev.locate = l))
    (hroom : Run.Along (fun w ev => some (deliver owner w ev)) (HasRoom owner) (init pool index) sched)
    (hroom' : Run.Along (fun s ev => some (OrderBookConsumer.deliver s ev))
      (fun s ev => s.1.HasRoom s.2 ev) (initSingle pool' index') stream)
    : ∀ l, Option.Rel OrderBook.SameAnswers
        ((sched.foldl (deliver owner) (init pool index)).book owner l)
        ((stream.foldl OrderBookConsumer.deliver (initSingle pool' index')).1.book
          (stream.foldl OrderBookConsumer.deliver (initSingle pool' index')).2 l) := by
  have hloc' : ∀ ev ∈ sched, ∀ r ∈ ev.body.refs, loc r = ev.locate := by
    intro ev hev
    apply hloc
    have hmem : ev ∈ sched.filter (fun e => e.locate = ev.locate) := by
      simpa using hev
    rw [hsched] at hmem
    exact (List.mem_filter.1 hmem).1
  have halong : ∀ l, Run.Along (fun lg ev => some (Split.advance lg ev))
      (fun lg ev => (lg.getD .empty).Fresh ev.body) none
      (stream.filter (fun ev => ev.locate = l)) := by
    intro l
    have hinit : Tracks ((none : Option Ledger).getD .empty).orders [] := Tracks.init
    apply Split.fresh_along hinit
    exact RefBook.fresh_filter l hloc (fun _ _ => rfl) hfresh
  have hw := Split.run store (fun w l => (w.consumers (owner l)).books l) (deliver_step owner)
    (s := init pool index) (Split.init loc h0 h (Nat.zero_lt_of_lt h0') (OrderMap.le_noIdx h')) hloc' hroom
    (by simpa only [hsched] using halong)
  have hs := Split.run Prod.snd (fun s => s.1.books) deliver_single_step
    (s := initSingle pool' index') (Split.init loc g0 g (Nat.zero_lt_of_lt g0') (OrderMap.le_noIdx g')) hloc hroom'
    halong
  intro l
  apply hw.sameAnswers
  have hlgs : (fun l => Ledger.ofEvents none sched l) = fun l => Ledger.ofEvents none stream l := by
    funext l
    unfold Ledger.ofEvents
    rw [hsched]
  rw [hlgs]
  exact hs

theorem sharded_sameAnswers_swap
    : Option.Rel OrderBook.SameAnswers
        (([{ seqId := 2, locate := 2, timestamp := 0,
             body := .ADD { side := .SELL, price := 510, shares := 5, orderRef := 2 } },
           { seqId := 1, locate := 1, timestamp := 0,
             body := .ADD { side := .BUY, price := 500, shares := 7, orderRef := 1 } }].foldl
          (deliver id) (init 4 4)).book id 2)
        (([{ seqId := 1, locate := 1, timestamp := 0,
             body := .ADD { side := .BUY, price := 500, shares := 7, orderRef := 1 } },
           { seqId := 2, locate := 2, timestamp := 0,
             body := .ADD { side := .SELL, price := 510, shares := 5, orderRef := 2 } }].foldl
          OrderBookConsumer.deliver (initSingle 4 4)).1.book
          ([{ seqId := 1, locate := 1, timestamp := 0,
              body := .ADD { side := .BUY, price := 500, shares := 7, orderRef := 1 } },
            { seqId := 2, locate := 2, timestamp := 0,
              body := .ADD { side := .SELL, price := 510, shares := 5, orderRef := 2 } }].foldl
            OrderBookConsumer.deliver (initSingle 4 4)).2 2) := by
  -- Two locates with two owners whose events are delivered in the other order.
  apply sharded_sameAnswers (by decide) (by decide) (by decide) (by decide) (by decide) (by decide)
    (by decide) (by decide) id id
  . decide
  . decide
  . intro l
    by_cases h1 : 1 = l
    . subst h1
      decide
    . by_cases h2 : 2 = l
      . subst h2
        decide
      . simp [h1, h2]
  . decide +kernel
  . decide +kernel

end Workers

end NebulaXTrader
