import NebulaXTrader.Market.Lemmas.OrderStore
import NebulaXTrader.Market.Sharding

/-!
This module contains what an event leaves alone in the books of the other symbols, for any feed: the price
levels always, the orders as far as the event does not name them.
-/

namespace NebulaXTrader

structure OrderBook.SameLevels (bk bk' : OrderBook) : Prop where
  bestBid : bk.bestBid = bk'.bestBid
  bestAsk : bk.bestAsk = bk'.bestAsk
  bestBidVolume : bk.bestBidVolume = bk'.bestBidVolume
  bestAskVolume : bk.bestAskVolume = bk'.bestAskVolume
  bidLevels : bk.bidLevels = bk'.bidLevels
  askLevels : bk.askLevels = bk'.askLevels
  bidVolumeAt : ∀ p, bk.bidVolumeAt p = bk'.bidVolumeAt p
  askVolumeAt : ∀ p, bk.askVolumeAt p = bk'.askVolumeAt p

theorem OrderBook.sameLevels_ofStore (st st' : OrderStore) (sides : BookSides)
    : (OrderBook.ofStore st sides).SameLevels (OrderBook.ofStore st' sides) :=
  ⟨rfl, rfl, rfl, rfl, rfl, rfl, fun _ => rfl, fun _ => rfl⟩

namespace OrderStore

variable {st st' : OrderStore} {pl : List Nat} {r ref s idx : Nat}

def get (st : OrderStore) (ref : Nat) : Option OrderSlotView :=
  (st.index.find ref).map (fun s => (st.pool.storage s).view)

theorem Tidy.get_eq (h : st.Tidy pl) (h' : ∃ pl', st'.Tidy pl')
    (hentries : st'.index.entries r = st.index.entries r)
    (hview : ∀ s ∈ st.index.entries r, (st'.pool.storage s).view = (st.pool.storage s).view)
    : st'.get r = st.get r := by
  obtain ⟨pl', h'⟩ := h'
  unfold get
  rw [h.find_eq, h'.find_eq, hentries]
  cases he : (st.index.entries r).head? with
  | none => rfl
  | some s => simp [hview s (List.mem_of_head? he)]

theorem Tidy.get_written (h : st.Tidy pl) (hs : st.index.find ref = some s) (hw : st.Written st' s)
    (hr : r ≠ ref) : st'.get r = st.get r := by
  apply h.get_eq ⟨pl, h.written hw⟩
  . rw [hw.2]
  . intro i hi
    apply hw.1.view
    intro his
    rw [his] at hi
    exact hr (h.apart r ref s hi (h.mem_of_find hs))

theorem Tidy.get_dropped (h : st.Tidy pl) (hs : st.index.find ref = some s)
    (hd : st.Dropped st' ref s) (hr : r ≠ ref) : st'.get r = st.get r := by
  apply h.get_eq ⟨_, h.dropped hs hd⟩
  . exact (h.entries_dropped hd).2.2 r hr
  . intro i hi
    obtain ⟨pool, hpool, hdealloc, _⟩ := hd
    have hi' : i ≠ s := by
      intro his
      rw [his] at hi
      exact hr (h.apart r ref s hi (h.mem_of_find hs))
    rw [hdealloc, ← hpool.view i hi']
    apply OrderPool.deallocate_storage_field pool s OrderSlot.view
    intro slot n
    rfl

theorem Tidy.get_entered (h : st.Tidy pl) (he : st.Entered st' ref idx) (hr : r ≠ ref)
    (hone : (st.index.entries r).length ≤ 1) : st'.get r = st.get r := by
  obtain ⟨pl', hpl, h'⟩ := h.entered he
  obtain ⟨il, hwf⟩ := h.wf
  obtain ⟨pool, halloc, hpool, hindex⟩ := he
  have hstorage : pool.storage = st.pool.storage := by
    rw [h.free.allocate, hpl] at halloc
    cases halloc
    rfl
  apply h.get_eq ⟨pl', h'⟩
  . rw [hindex]
    exact ((hwf.insert_sublist ref idx).2.2 r hr).2 hone
  . intro i hi
    have hi' : i ≠ idx := by
      intro hii
      rw [hii] at hi
      have htaken := (h.taken r idx hi).1
      rw [hpl] at htaken
      exact htaken List.mem_cons_self
    rw [hpool.view i hi', hstorage]

theorem Effect.get {b : MarketEvent.Body} (he : st.Effect b st') (h : st.Tidy pl) (hr : r ∉ b.refs)
    (hone : (st.index.entries r).length ≤ 1) : st'.get r = st.get r := by
  have hreduced : ∀ {ref}, b.reduced = some ref → r ≠ ref := by
    intro ref hb hrr
    subst hrr
    cases b with
    | ADD o => cases hb
    | REPLACE o => cases hb
    | DELETE o =>
      cases hb
      simp [MarketEvent.Body.refs] at hr
    | CANCEL o =>
      cases hb
      simp [MarketEvent.Body.refs] at hr
    | TRADE t =>
      cases hb
      simp [MarketEvent.Body.refs] at hr
    | EXECUTE t =>
      cases hb
      simp [MarketEvent.Body.refs] at hr
  cases he with
  | full o hfull => rfl
  | enter o he =>
    apply h.get_entered he _ hone
    simpa [MarketEvent.Body.refs] using hr
  | unknown b hb hs => rfl
  | write b hb hs hw => exact h.get_written hs hw (hreduced hb)
  | drop b hb hs hd => exact h.get_dropped hs hd (hreduced hb)
  | stale o hs => rfl
  | lose o hs hd hfull =>
    simp only [MarketEvent.Body.refs, List.mem_cons, not_or] at hr
    exact h.get_dropped hs hd hr.1
  | swap o hs hd he =>
    simp only [MarketEvent.Body.refs, List.mem_cons, not_or] at hr
    rw [← h.get_dropped hs hd hr.1]
    apply (h.dropped hs hd).get_entered he hr.2.1
    rw [(h.entries_dropped hd).2.2 r hr.1]
    exact hone

end OrderStore

namespace Workers

def handle (w : Workers) (i : Nat) (ev : MarketEvent) : Workers :=
  let (c, st) := (w.consumers i).onEvent w.store ev
  { store := st, consumers := Function.update w.consumers i c }

def bookOf (w : Workers) (i locate : Nat) : Option OrderBook := (w.consumers i).book w.store locate

def feed (w : Workers) (evs : List (Nat × MarketEvent)) : Workers :=
  evs.foldl (fun w e => w.handle e.1 e.2) w

theorem handle_tidy {w : Workers} (h : ∃ pl, w.store.Tidy pl) (i : Nat) (ev : MarketEvent)
    : ∃ pl, (w.handle i ev).store.Tidy pl := by
  obtain ⟨pl, h⟩ := h
  have heffect := (w.consumers i).onEvent_effect w.store ev
  exact heffect.tidy h

theorem feed_tidy {w : Workers} (h : ∃ pl, w.store.Tidy pl) (evs : List (Nat × MarketEvent))
    : ∃ pl, (w.feed evs).store.Tidy pl := by
  induction evs generalizing w with
  | nil => exact h
  | cons e evs ih => exact ih (handle_tidy h e.1 e.2)

theorem handle_books (w : Workers) (i : Nat) (ev : MarketEvent) {j l : Nat} (hjl : (j, l) ≠ (i, ev.locate))
    : ((w.handle i ev).consumers j).books l = (w.consumers j).books l := by
  unfold handle
  dsimp only
  by_cases hj : j = i
  . have hl : l ≠ ev.locate := by
      intro hl
      rw [hj, hl] at hjl
      exact hjl rfl
    rw [hj, Function.update_self]
    exact ((w.consumers i).onEvent_books w.store ev).2 l hl
  . rw [Function.update_of_ne hj]

/--
Whatever the feed was, an event changes the price levels of its own book only, and what `get` answers,
which is the same for all books, for the references that it names only.
-/
theorem books_apart {pool index : Nat} (h0 : 0 < pool) (h : pool ≤ noIdx) (h0' : 2 ≤ index)
    (h' : index ≤ 2 ^ 31) (evs : List (Nat × MarketEvent)) (i : Nat) (ev : MarketEvent)
    : let w := (init pool index).feed evs
      (∀ j l, (j, l) ≠ (i, ev.locate) →
        Option.Rel OrderBook.SameLevels (w.bookOf j l) ((w.handle i ev).bookOf j l)) ∧
        ∀ j l bk bk', w.bookOf j l = some bk → (w.handle i ev).bookOf j l = some bk' →
          ∀ ref, ref ∉ ev.body.refs → (bk.index.entries ref).length ≤ 1 → bk'.get ref = bk.get ref := by
  intro w
  have htidy : ∃ pl, w.store.Tidy pl := feed_tidy ⟨_, .init h0 h (Nat.zero_lt_of_lt h0') (OrderMap.le_noIdx h')⟩ evs
  constructor
  . intro j l hjl
    unfold bookOf OrderBookConsumer.book
    rw [handle_books w i ev hjl]
    cases (w.consumers j).books l with
    | none => exact .none
    | some sides => exact .some (OrderBook.sameLevels_ofStore _ _ sides)
  . intro j l bk bk' hbk hbk' ref href hone
    obtain ⟨pl, htidy⟩ := htidy
    have hstore : ∀ (w : Workers) (bk : OrderBook), w.bookOf j l = some bk → bk.store = w.store := by
      intro w bk hbk
      obtain ⟨sides, _, rfl⟩ := Option.map_eq_some_iff.1 hbk
      rfl
    have hget : ∀ bk : OrderBook, bk.get ref = bk.store.get ref := fun _ => rfl
    rw [hget bk, hget bk', hstore w bk hbk, hstore _ bk' hbk']
    apply ((w.consumers i).onEvent_effect w.store ev).get htidy href
    rw [← hstore w bk hbk]
    exact hone

def resting : Nat × MarketEvent :=
  (1, { seqId := 1, locate := 2, timestamp := 0,
        body := .ADD { side := .BUY, price := 500, shares := 7, orderRef := 3 } })

def foreignDelete : MarketEvent where
  seqId := 2
  locate := 1
  timestamp := 0
  body := .DELETE { orderRef := 3 }

theorem books_apart_foreign
    : Option.Rel OrderBook.SameLevels (((init 4 4).feed [resting]).bookOf 1 2)
        ((((init 4 4).feed [resting]).handle 0 foreignDelete).bookOf 1 2) := by
  apply (books_apart (by decide) (by decide) (by decide) (by decide) [resting] 0 foreignDelete).1
  decide

theorem not_books_apart
    : ¬ ∀ (pool index : Nat) (evs : List (Nat × MarketEvent)) (i : Nat) (ev : MarketEvent),
        0 < pool → pool ≤ noIdx → 2 ≤ index → index ≤ 2 ^ 31 →
        let w := (init pool index).feed evs
        ∀ j l, l ≠ ev.locate → ∀ ref,
          ((w.handle i ev).bookOf j l).map (·.get ref) = (w.bookOf j l).map (·.get ref) := by
  -- An order that rests in the book of locate 2 is deleted by an event of locate 1.
  intro h
  have hget := h 4 4 [resting] 0 foreignDelete (by decide) (by decide) (by decide) (by decide) 1 2
    (by decide) 3
  revert hget
  decide +kernel

end Workers

end NebulaXTrader
