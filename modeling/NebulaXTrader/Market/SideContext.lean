import NebulaXTrader.Market.BookWorker
import NebulaXTrader.Market.Lemmas.OrderStore

/-!
This module contains the analysis of the side that the strategies are told for an event: for which
events it is the side of the order that the event is about.
-/

namespace NebulaXTrader

/--
What holds of the store in every reachable state, also after references were added twice or the pool
ran out: the index is well formed and every slot in it has a side.
-/
structure OrderStore.Sound (st : OrderStore) : Prop where
  wf : ∃ il, st.index.Wf il
  side : ∀ ref, ∀ s ∈ st.index.entries ref, (st.pool.storage s).side ≠ .NONE

def OrderStore.SameSides (st st' : OrderStore) : Prop :=
  ∀ s, (st'.pool.storage s).side = (st.pool.storage s).side

namespace OrderBook

variable {bk : OrderBook}

theorem linkFront_side (p : OrderPool) (lvl : PriceLevel) (idx i : Nat)
    : ((linkFront p lvl idx).storage i).side = (p.storage i).side :=
  congrArg OrderSlotView.side ((OrderPool.Relinks.linkFront p lvl idx).view i)

theorem add_store (bk : OrderBook) (ref : Nat) (side : OrderSide) (p : Int) (shares seq : Nat)
    : (bk.add ref side p shares seq).1.store = bk.store ∨
      ∃ idx pool,
        (∀ s, (pool.storage s).side = if s = idx then side else (bk.pool.storage s).side) ∧
        (bk.add ref side p shares seq).1.store =
          { pool := pool, index := bk.index.insert ref idx } := by
  unfold add
  cases ha : bk.pool.allocate with
  | none => exact Or.inl rfl
  | some r =>
    obtain ⟨idx, pool⟩ := r
    have hpool : pool.storage = bk.pool.storage := by
      unfold OrderPool.allocate at ha
      dsimp only at ha
      split at ha
      . cases ha
      . cases ha
        rfl
    apply Or.inr
    apply Exists.intro idx
    dsimp only
    rw [setTable_store]
    refine ⟨_, ?_, rfl⟩
    intro s
    apply Eq.trans (linkFront_side _ _ _ s)
    by_cases hs : s = idx
    . rw [hs, if_pos rfl, OrderPool.modify_storage_self]
    . rw [if_neg hs, OrderPool.modify_storage_of_ne _ _ _ hs, hpool]

theorem unlinkAndFree_store (bk : OrderBook) (s : Nat)
    : bk.store.SameSides (bk.unlinkAndFree s).store ∧
      (bk.unlinkAndFree s).store.index = bk.index := by
  unfold unlinkAndFree
  dsimp only
  rw [setTable_store]
  constructor
  . intro i
    apply Eq.trans (OrderPool.deallocate_storage_field _ s OrderSlot.side (fun _ _ => rfl) i)
    exact congrArg OrderSlotView.side ((OrderPool.Relinks.unlinkSlot _ _ _).view i)
  . rfl

theorem remove_store (bk : OrderBook) {ref s : Nat} (hs : bk.index.find ref = some s)
    : bk.store.SameSides (bk.remove ref).1.store ∧
      (bk.remove ref).1.store.index = bk.index.erase ref := by
  unfold remove
  rw [hs]
  constructor
  . exact (bk.unlinkAndFree_store s).1
  . exact congrArg (fun ix => OrderMap.erase ix ref) (bk.unlinkAndFree_store s).2

theorem reduce_store (bk : OrderBook) {ref s : Nat} (shares : Nat)
    (hs : bk.index.find ref = some s)
    : bk.store.SameSides (bk.reduce ref shares).1.store ∧
      (bk.reduce ref shares).1.store.index =
        if shares < (bk.pool.storage s).remaining then bk.index else bk.index.erase ref := by
  unfold reduce
  rw [hs]
  dsimp only
  generalize hn : (if shares > (bk.pool.storage s).remaining then (bk.pool.storage s).remaining
    else shares) = n
  have hdec : ∀ (b : OrderBook) (side : OrderSide) (p : Int) (n : Nat),
      (b.decLevelQty side p n).store = b.store := by
    intro b side p n
    unfold decLevelQty
    exact setTable_store _ _ _
  generalize hb : OrderBook.decLevelQty _ _ _ n = b
  have hstore : b.store = { pool := bk.pool.modify s (fun slot =>
      { slot with remaining := slot.remaining - n }), index := bk.index } := by
    rw [← hb, hdec]
    rfl
  have hpool : b.pool = bk.pool.modify s (fun slot =>
      { slot with remaining := slot.remaining - n }) := congrArg OrderStore.pool hstore
  have hindex : b.index = bk.index := congrArg OrderStore.index hstore
  have hsides : bk.store.SameSides b.store := by
    intro i
    rw [hstore]
    exact OrderPool.modify_storage_field bk.pool s
      (fun slot => { slot with remaining := slot.remaining - n }) OrderSlot.side (fun _ => rfl) i
  have hrem : (b.pool.storage s).remaining = (bk.pool.storage s).remaining - n := by
    rw [hpool, OrderPool.modify_storage_self]
  by_cases hlt : shares < (bk.pool.storage s).remaining
  . have hn' : n = shares := by
      rw [← hn, if_neg (by omega)]
    rw [if_neg (by omega), if_pos hlt]
    exact ⟨hsides, hindex⟩
  . have hn' : n = (bk.pool.storage s).remaining := by
      rw [← hn]
      split
      . rfl
      . omega
    rw [if_pos (by omega), if_neg hlt]
    constructor
    . intro i
      exact ((b.unlinkAndFree_store s).1 i).trans (hsides i)
    . have herase := congrArg (fun ix => OrderMap.erase ix ref) (b.unlinkAndFree_store s).2
      rw [hindex] at herase
      exact herase

end OrderBook

namespace OrderStore

variable {st st' : OrderStore}

theorem Sound.init {pool index : Nat} (h0 : 0 < index) (h : index ≤ noIdx)
    : Sound (BookWorkers.init pool index).store := by
  have hwf := OrderMap.Wf.init h0 h
  constructor
  . exact ⟨_, hwf⟩
  . intro ref s hs
    have hnil : (BookWorkers.init pool index).store.index.entries ref = [] :=
      OrderMap.entries_init index ref
    rw [hnil] at hs
    cases hs

theorem Sound.shrink (h : st.Sound) (hwf : ∃ il, st'.index.Wf il) (hsides : st.SameSides st')
    (hsub : ∀ ref, ∀ s ∈ st'.index.entries ref, s ∈ st.index.entries ref) : st'.Sound := by
  constructor
  . exact hwf
  . intro ref s hs
    rw [hsides s]
    exact h.side ref s (hsub ref s hs)

theorem Sound.erase (h : st.Sound) {ref : Nat} (hsides : st.SameSides st')
    (hindex : st'.index = st.index.erase ref) : st'.Sound := by
  obtain ⟨il, hwf⟩ := h.wf
  obtain ⟨hwf', _, hself, hother⟩ := hwf.erase ref
  apply h.shrink _ hsides
  . intro r s hs
    rw [hindex] at hs
    by_cases hr : r = ref
    . rw [hr, hself] at hs
      rw [hr]
      exact List.mem_of_mem_tail hs
    . rw [hother r hr] at hs
      exact hs
  . rw [hindex]
    exact hwf'

end OrderStore

namespace OrderBook

variable {bk : OrderBook}

theorem add_sound (h : bk.store.Sound) (ref : Nat) {side : OrderSide} (p : Int) (shares seq : Nat)
    (hside : side ≠ .NONE) : (bk.add ref side p shares seq).1.store.Sound := by
  rcases bk.add_store ref side p shares seq with heq | ⟨idx, pool, hpool, heq⟩
  . rw [heq]
    exact h
  . rw [heq]
    obtain ⟨il, hwf⟩ := h.wf
    have hwf' : ∃ il', (bk.index.insert ref idx).Wf il' := (hwf.mem_insert idx).1
    have hmem : ∀ r, ∀ s ∈ (bk.index.insert ref idx).entries r, s = idx ∨ s ∈ bk.index.entries r :=
      (hwf.mem_insert idx).2
    constructor
    . exact hwf'
    . intro r s hs
      dsimp only at hs ⊢
      rw [hpool s]
      split
      . exact hside
      . next hne => exact h.side r s ((hmem r s hs).resolve_left hne)

theorem remove_sound (h : bk.store.Sound) (ref : Nat) : (bk.remove ref).1.store.Sound := by
  cases hs : bk.index.find ref with
  | none =>
    rw [bk.remove_unknown hs]
    exact h
  | some s => exact h.erase (bk.remove_store hs).1 (bk.remove_store hs).2

theorem reduce_sound (h : bk.store.Sound) (ref shares : Nat)
    : (bk.reduce ref shares).1.store.Sound := by
  cases hs : bk.index.find ref with
  | none =>
    rw [bk.reduce_unknown shares hs]
    exact h
  | some s =>
    obtain ⟨hsides, hindex⟩ := bk.reduce_store shares hs
    split at hindex
    . apply h.shrink _ hsides
      . intro r t ht
        rw [hindex] at ht
        exact ht
      . rw [hindex]
        exact h.wf
    . exact h.erase hsides hindex

theorem side_of_get (h : bk.store.Sound) {ref : Nat} {v : OrderSlotView} (hv : bk.get ref = some v)
    : v.side ≠ .NONE := by
  unfold get at hv
  obtain ⟨s, hs, rfl⟩ := Option.map_eq_some_iff.1 hv
  obtain ⟨il, hwf⟩ := h.wf
  have hfind : bk.index.find ref = (bk.index.entries ref).head? := hwf.find_eq
  rw [hs] at hfind
  exact h.side ref s (List.mem_of_mem_head? hfind.symm)

theorem replace_sound (h : bk.store.Sound) (ref new : Nat) {side : OrderSide} (p : Int)
    (shares seq : Nat) (hside : side ≠ .NONE)
    : (bk.replace ref new side p shares seq).1.store.Sound := by
  unfold replace
  cases bk.index.find ref with
  | none => exact h
  | some s => exact add_sound (remove_sound h ref) new p shares _ hside

end OrderBook

def MarketEvent.Parsed (ev : MarketEvent) : Prop := ∃ msg seq, ItchParser.feed msg seq = some ev

theorem MarketEvent.Parsed.side {ev : MarketEvent} (h : ev.Parsed)
    : (∀ o, ev.body = .ADD o → o.side ≠ .NONE) ∧ ∀ o, ev.body = .REPLACE o → o.side = .BUY := by
  -- The parser knows the side of a new order, and it never knows the side of a replacement: the
  -- field keeps its zero, which is `BUY`.
  have hside : ∀ m, ItchParser.rdSide m ≠ .NONE := by
    intro m
    unfold ItchParser.rdSide
    split
    . exact OrderSide.noConfusion
    . exact OrderSide.noConfusion
  have hguard : ∀ (c : Prop) [Decidable c] (e : MarketEvent), (if c then none else some e) = some ev →
      e = ev := by
    intro c _ e he
    split at he
    . cases he
    . exact Option.some.inj he
  have hother : ∀ (c : Prop) [Decidable c] (e : MarketEvent),
      (if c then none else some e) = some ev → (∀ o, e.body ≠ .ADD o) → (∀ o, e.body ≠ .REPLACE o) →
      (∀ o, ev.body = .ADD o → o.side ≠ .NONE) ∧ ∀ o, ev.body = .REPLACE o → o.side = .BUY := by
    intro c _ e he hadd hrep
    rw [← hguard c e he]
    constructor
    . intro o ho
      exact absurd ho (hadd o)
    . intro o ho
      exact absurd ho (hrep o)
  have hadd : ∀ msg seq, ItchParser.parseA msg seq = some ev →
      (∀ o, ev.body = .ADD o → o.side ≠ .NONE) ∧ ∀ o, ev.body = .REPLACE o → o.side = .BUY := by
    intro msg seq hfeed
    rw [← hguard _ _ hfeed]
    constructor
    . intro o ho
      cases ho
      exact hside msg
    . intro o ho
      cases ho
  obtain ⟨msg, seq, hfeed⟩ := h
  unfold ItchParser.feed at hfeed
  split at hfeed
  . cases hfeed
  . split at hfeed
    . exact hadd msg seq hfeed
    . exact hadd msg seq hfeed
    . exact hother _ _ hfeed (by simp [ItchParser.emit]) (by simp [ItchParser.emit])
    . exact hother _ _ hfeed (by simp [ItchParser.emit]) (by simp [ItchParser.emit])
    . rw [← hguard _ _ hfeed]
      constructor
      . intro o ho
        cases ho
      . intro o ho
        cases ho
        rfl
    . exact hother _ _ hfeed (by simp [ItchParser.emit]) (by simp [ItchParser.emit])
    . exact hother _ _ hfeed (by simp [ItchParser.emit]) (by simp [ItchParser.emit])
    . exact hother _ _ hfeed (by simp [ItchParser.emit]) (by simp [ItchParser.emit])
    . cases hfeed

namespace OrderBook

variable {bk : OrderBook}

theorem sideOf_eq (h : ∃ il, bk.index.Wf il) (ref : Nat)
    : bk.sideOf ref = ((bk.index.entries ref).head?.map (fun s => (bk.pool.storage s).side)).getD
        .NONE := by
  obtain ⟨il, hwf⟩ := h
  unfold sideOf
  rw [hwf.find_eq]
  cases (bk.index.entries ref).head? with
  | none => rfl
  | some s => rfl

/--
An older order is stored under the same reference, on the same side.
-/
def Shadowed (bk : OrderBook) (ref : Nat) : Prop :=
  ∃ s s' l, bk.index.entries ref = s :: s' :: l ∧
    (bk.pool.storage s').side = (bk.pool.storage s).side

def SideTrue (bk : OrderBook) (b : MarketEvent.Body) (side : OrderSide) : Prop :=
  match b with
  | .ADD o => side = o.side
  | .DELETE o | .CANCEL o | .REPLACE o =>
    side = ((bk.get o.orderRef).map OrderSlotView.side).getD .NONE
  | .TRADE t | .EXECUTE t => side = ((bk.get t.orderRef).map OrderSlotView.side).getD .NONE

instance (bk : OrderBook) (b : MarketEvent.Body) (side : OrderSide)
    : Decidable (bk.SideTrue b side) :=
  match b with
  | .ADD o => inferInstanceAs (Decidable (side = o.side))
  | .DELETE o | .CANCEL o | .REPLACE o =>
    inferInstanceAs (Decidable (side = ((bk.get o.orderRef).map OrderSlotView.side).getD .NONE))
  | .TRADE t | .EXECUTE t =>
    inferInstanceAs (Decidable (side = ((bk.get t.orderRef).map OrderSlotView.side).getD .NONE))

/--
The event leaves the order that it is about in the index, or an order of the same side in its place. A
replacement is reported as `BUY` whatever it replaces.
-/
def SideKept (bk : OrderBook) (b : MarketEvent.Body) : Prop :=
  match b with
  | .ADD _ => True
  | .DELETE o => ∀ v ∈ bk.get o.orderRef, bk.Shadowed o.orderRef
  | .CANCEL o => ∀ v ∈ bk.get o.orderRef, o.shares < v.remaining ∨ bk.Shadowed o.orderRef
  | .REPLACE o => ∃ v ∈ bk.get o.orderRef, v.side = .BUY
  | .TRADE t | .EXECUTE t =>
    ∀ v ∈ bk.get t.orderRef, t.volume < v.remaining ∨ bk.Shadowed t.orderRef

/--
The side of the order that is stored under the same reference before the last one.
-/
def nextSide (bk : OrderBook) (ref : Nat) : Option OrderSide :=
  (bk.index.entries ref).tail.head?.map (fun s => (bk.pool.storage s).side)

theorem sideOf_erased (h : bk.store.Sound) {bk' : OrderBook} {ref : Nat}
    (hsides : bk.store.SameSides bk'.store) (hindex : bk'.store.index = bk.index.erase ref)
    : bk'.sideOf ref = (bk.nextSide ref).getD .NONE := by
  -- The side that is found under a reference once its first entry is erased.
  obtain ⟨il, hwf⟩ := h.wf
  obtain ⟨hwf', _, hself, _⟩ := hwf.erase ref
  rw [show bk.store.index = bk.index from rfl] at hwf' hself
  rw [sideOf_eq (by rw [show bk'.index = bk.index.erase ref from hindex]; exact hwf'),
    show bk'.index = bk.index.erase ref from hindex, hself]
  unfold nextSide
  cases (bk.index.entries ref).tail.head? with
  | none => rfl
  | some s => exact hsides s

theorem nextSide_iff (h : bk.store.Sound) {ref s : Nat} (hs : bk.index.find ref = some s)
    : (bk.nextSide ref).getD .NONE = (bk.pool.storage s).side ↔ bk.Shadowed ref := by
  obtain ⟨il, hwf⟩ := h.wf
  have hfind : bk.index.find ref = (bk.index.entries ref).head? := hwf.find_eq
  rw [hs] at hfind
  unfold Shadowed nextSide
  cases he : bk.index.entries ref with
  | nil =>
    rw [he] at hfind
    cases hfind
  | cons s₀ l =>
    rw [he] at hfind
    cases hfind
    cases l with
    | nil =>
      have hne := h.side ref s (by rw [show bk.store.index = bk.index from rfl, he]; simp)
      constructor
      . intro hnone
        exact absurd hnone.symm hne
      . rintro ⟨_, _, _, hl, _⟩
        simp at hl
    | cons s' l =>
      simp only [List.tail_cons, List.head?_cons, Option.map_some, Option.getD_some]
      constructor
      . intro heq
        exact ⟨s, s', l, rfl, heq⟩
      . rintro ⟨_, _, _, hl, heq⟩
        simp only [List.cons.injEq] at hl
        rw [hl.1, hl.2.1]
        exact heq

theorem mem_get_iff {ref s : Nat} (hs : bk.index.find ref = some s) (v : OrderSlotView)
    : v ∈ bk.get ref ↔ v = (bk.pool.storage s).view := by
  unfold get
  rw [hs]
  exact ⟨fun h => (Option.some.inj h).symm, fun h => congrArg some h.symm⟩

theorem get_side (bk : OrderBook) (ref : Nat)
    : ((bk.get ref).map OrderSlotView.side).getD .NONE = bk.sideOf ref := by
  unfold get sideOf
  cases bk.index.find ref with
  | none => rfl
  | some s => rfl

theorem sideOf_of_find {ref s : Nat} (hs : bk.index.find ref = some s)
    : bk.sideOf ref = (bk.pool.storage s).side := by
  unfold sideOf
  rw [hs]

theorem get_of_unknown {ref : Nat} (hs : bk.index.find ref = none) (v : OrderSlotView)
    : v ∉ bk.get ref := by
  unfold get
  rw [hs]
  exact Option.not_mem_none v

theorem remove_sideOf_iff (h : bk.store.Sound) (ref : Nat)
    : (bk.remove ref).1.sideOf ref = bk.sideOf ref ↔ ∀ v ∈ bk.get ref, bk.Shadowed ref := by
  cases hs : bk.index.find ref with
  | none =>
    rw [bk.remove_unknown hs]
    exact ⟨fun _ v hv => absurd hv (get_of_unknown hs v), fun _ => rfl⟩
  | some s =>
    obtain ⟨hsides, hindex⟩ := bk.remove_store hs
    rw [sideOf_of_find hs, sideOf_erased h hsides hindex, nextSide_iff h hs]
    constructor
    . intro hsh v _
      exact hsh
    . intro hall
      exact hall _ ((mem_get_iff hs _).2 rfl)

theorem reduce_sideOf_iff (h : bk.store.Sound) (ref shares : Nat)
    : (bk.reduce ref shares).1.sideOf ref = bk.sideOf ref ↔
      ∀ v ∈ bk.get ref, shares < v.remaining ∨ bk.Shadowed ref := by
  cases hs : bk.index.find ref with
  | none =>
    rw [bk.reduce_unknown shares hs]
    exact ⟨fun _ v hv => absurd hv (get_of_unknown hs v), fun _ => rfl⟩
  | some s =>
    obtain ⟨hsides, hindex⟩ := bk.reduce_store shares hs
    have hiff : (∀ v ∈ bk.get ref, shares < v.remaining ∨ bk.Shadowed ref) ↔
        shares < (bk.pool.storage s).remaining ∨ bk.Shadowed ref := by
      constructor
      . intro hall
        exact hall _ ((mem_get_iff hs _).2 rfl)
      . intro hone v hv
        rw [(mem_get_iff hs v).1 hv]
        exact hone
    rw [hiff, sideOf_of_find hs]
    by_cases hlt : shares < (bk.pool.storage s).remaining
    . rw [if_pos hlt] at hindex
      have hside : (bk.reduce ref shares).1.sideOf ref = (bk.pool.storage s).side := by
        rw [sideOf_of_find (s := s)]
        . exact hsides s
        . rw [show (bk.reduce ref shares).1.index = bk.index from hindex]
          exact hs
      exact ⟨fun _ => Or.inl hlt, fun _ => hside⟩
    . rw [if_neg hlt] at hindex
      rw [sideOf_erased h hsides hindex, nextSide_iff h hs]
      exact ⟨Or.inr, fun hor => hor.resolve_left hlt⟩

def sideAfter (bk : OrderBook) (b : MarketEvent.Body) : OrderSide :=
  match b with
  | .ADD o | .REPLACE o => o.side
  | .DELETE o => (bk.remove o.orderRef).1.sideOf o.orderRef
  | .CANCEL o => (bk.reduce o.orderRef o.shares).1.sideOf o.orderRef
  | .TRADE t | .EXECUTE t => (bk.reduce t.orderRef t.volume).1.sideOf t.orderRef

end OrderBook

namespace BookWorker

theorem book_after (c : OrderBookConsumer) (st : OrderStore) (ev : MarketEvent)
    : ∃ sides, (c.onEvent st ev).1.book (c.onEvent st ev).2 ev.locate =
        some (OrderBook.ofStore (c.onEvent st ev).2 sides) := by
  obtain ⟨s, hs⟩ := Option.isSome_iff_exists.1 (c.onEvent_books st ev).1
  apply Exists.intro s
  unfold OrderBookConsumer.book
  rw [hs]
  rfl

theorem context_side (bk : OrderBook) (ev : MarketEvent)
    : (context (some bk) ev).side =
      match ev.body with
      | .ADD o | .REPLACE o => o.side
      | .TRADE t | .EXECUTE t => bk.sideOf t.orderRef
      | .DELETE o | .CANCEL o => bk.sideOf o.orderRef := by
  unfold context
  cases ev.body with
  | ADD o => rfl
  | DELETE o => rfl
  | CANCEL o => rfl
  | REPLACE o => rfl
  | TRADE t => rfl
  | EXECUTE t => rfl

theorem process_side (cfg : Config) (w : BookWorker) (st : OrderStore) (ev : MarketEvent)
    (position : Nat → Nat)
    : (w.process cfg st ev position).2.2.1.side =
      (OrderBook.ofStore st (w.obc.bookFor ev.locate)).sideAfter ev.body := by
  have hctx : (w.process cfg st ev position).2.2.1 =
      context ((w.obc.onEvent st ev).1.book (w.obc.onEvent st ev).2 ev.locate) ev := rfl
  have hstore : ∀ f : OrderBook → OrderBook,
      (w.obc.withBook st ev.locate f).2 = (f (OrderBook.ofStore st (w.obc.bookFor ev.locate))).store :=
    fun _ => rfl
  obtain ⟨sides, hbook⟩ := book_after w.obc st ev
  rw [hctx, hbook, context_side]
  generalize hbk : OrderBook.ofStore st (w.obc.bookFor ev.locate) = bk at *
  have hside : ∀ (b : OrderBook) (ref : Nat), (w.obc.onEvent st ev).2 = b.store →
      (OrderBook.ofStore (w.obc.onEvent st ev).2 sides).sideOf ref = b.sideOf ref := by
    intro b ref hb
    rw [hb]
    rfl
  cases hb : ev.body with
  | ADD o => rfl
  | REPLACE o => rfl
  | DELETE o =>
    apply hside (bk.remove o.orderRef).1
    unfold OrderBookConsumer.onEvent
    rw [hb]
    exact hstore _
  | CANCEL o =>
    apply hside (bk.reduce o.orderRef o.shares).1
    unfold OrderBookConsumer.onEvent
    rw [hb]
    exact hstore _
  | TRADE t =>
    apply hside (bk.reduce t.orderRef t.volume).1
    unfold OrderBookConsumer.onEvent
    rw [hb]
    exact hstore (fun b => (b.execute t.orderRef t.volume).1)
  | EXECUTE t =>
    apply hside (bk.reduce t.orderRef t.volume).1
    unfold OrderBookConsumer.onEvent
    rw [hb]
    exact hstore (fun b => (b.execute t.orderRef t.volume).1)

theorem context_side_iff (cfg : Config) (w : BookWorker) (st : OrderStore) (h : st.Sound)
    (ev : MarketEvent) (hev : ev.Parsed) (position : Nat → Nat)
    : (OrderBook.ofStore st (w.obc.bookFor ev.locate)).SideTrue ev.body
        (w.process cfg st ev position).2.2.1.side ↔
      (OrderBook.ofStore st (w.obc.bookFor ev.locate)).SideKept ev.body := by
  rw [process_side]
  generalize hbk : OrderBook.ofStore st (w.obc.bookFor ev.locate) = bk
  have hsound : bk.store.Sound := by
    rw [← hbk]
    exact h
  unfold OrderBook.SideTrue OrderBook.SideKept OrderBook.sideAfter
  cases hb : ev.body with
  | ADD o => exact ⟨fun _ => trivial, fun _ => rfl⟩
  | DELETE o =>
    dsimp only
    rw [OrderBook.get_side]
    exact OrderBook.remove_sideOf_iff hsound o.orderRef
  | CANCEL o =>
    dsimp only
    rw [OrderBook.get_side]
    exact OrderBook.reduce_sideOf_iff hsound o.orderRef o.shares
  | REPLACE o =>
    have hbuy := hev.side.2 o hb
    dsimp only
    rw [hbuy]
    cases bk.get o.orderRef with
    | none => simp
    | some v => simp [eq_comm]
  | TRADE t =>
    dsimp only
    rw [OrderBook.get_side]
    exact OrderBook.reduce_sideOf_iff hsound t.orderRef t.volume
  | EXECUTE t =>
    dsimp only
    rw [OrderBook.get_side]
    exact OrderBook.reduce_sideOf_iff hsound t.orderRef t.volume

end BookWorker

namespace BookWorkers

theorem process_sound (cfg : BookWorker.Config) (s : BookWorkers) (a : Input) (h : s.store.Sound)
    (ha : a.event.Parsed) : (s.process cfg a).store.Sound := by
  have hst : (s.process cfg a).store = ((s.workers a.worker).obc.onEvent s.store a.event).2 := rfl
  rw [hst]
  generalize (s.workers a.worker).obc = c
  have hbk : (OrderBook.ofStore s.store (c.bookFor a.event.locate)).store.Sound := h
  unfold OrderBookConsumer.onEvent
  cases hb : a.event.body with
  | ADD o => exact OrderBook.add_sound hbk _ _ _ _ (ha.side.1 o hb)
  | DELETE o => exact OrderBook.remove_sound hbk _
  | CANCEL o => exact OrderBook.reduce_sound hbk _ _
  | REPLACE o =>
    unfold OrderBookConsumer.handleReplace
    dsimp only
    cases hv : (OrderBook.ofStore s.store (c.bookFor a.event.locate)).get o.orderRef with
    | none => exact h
    | some v => exact OrderBook.replace_sound hbk _ _ _ _ _ (OrderBook.side_of_get hbk hv)
  | TRADE t => exact OrderBook.reduce_sound hbk _ _
  | EXECUTE t => exact OrderBook.reduce_sound hbk _ _

theorem foldl_process_sound (cfg : BookWorker.Config) (run : List Input) (s : BookWorkers)
    (h : s.store.Sound) (hrun : ∀ a ∈ run, a.event.Parsed)
    : (run.foldl (process cfg) s).store.Sound := by
  induction run generalizing s with
  | nil => exact h
  | cons a run ih =>
    apply ih
    . apply process_sound cfg s a h
      apply hrun
      simp
    . intro b hb
      apply hrun
      simp [hb]

def bookBefore (s : BookWorkers) (a : Input) : OrderBook :=
  OrderBook.ofStore s.store ((s.workers a.worker).obc.bookFor a.event.locate)

/--
In every reachable state the strategies are told the true side exactly if the event keeps it.
-/
theorem side_true_iff (cfg : BookWorker.Config) (pool index : Nat) (h0 : 2 ≤ index)
    (hidx : index ≤ 2 ^ 31) (run : List Input) (hrun : ∀ a ∈ run, a.event.Parsed) (a : Input)
    (ha : a.event.Parsed)
    : let s := run.foldl (process cfg) (init pool index)
      (s.bookBefore a).SideTrue a.event.body (s.context cfg a).side ↔
        (s.bookBefore a).SideKept a.event.body := by
  intro s
  have hsound : s.store.Sound := by
    apply foldl_process_sound
    . exact OrderStore.Sound.init (Nat.zero_lt_of_lt h0) (OrderMap.le_noIdx hidx)
    . exact hrun
  exact BookWorker.context_side_iff cfg (s.workers a.worker) s.store hsound a.event ha a.position

def addSell : Input where
  worker := 0
  event := {
    seqId := 1
    locate := 1
    timestamp := 0
    body := .ADD { side := .SELL, price := 1000, shares := 100, orderRef := 7 }
  }
  position _ := 0

def deleteSell : Input where
  worker := 0
  event := { seqId := 2, locate := 1, timestamp := 0, body := .DELETE { orderRef := 7 } }
  position _ := 0

theorem addSell_parsed : addSell.event.Parsed :=
  ⟨[65, 0, 1, 0, 0, 0, 0, 0, 0, 0, 0, 0, 0, 0, 0, 0, 0, 0, 7, 83, 0, 0, 0, 100,
    65, 66, 67, 68, 32, 32, 32, 32, 0, 1, 134, 160], 1, by decide⟩

theorem deleteSell_parsed : deleteSell.event.Parsed :=
  ⟨[68, 0, 1, 0, 0, 0, 0, 0, 0, 0, 0, 0, 0, 0, 0, 0, 0, 0, 7], 2, by decide⟩

theorem side_true_iff_deleteSell
    : let s := [addSell].foldl (process { maxPosition := 1000, baseQty := 100 }) (init 4 4)
      (s.bookBefore deleteSell).SideTrue deleteSell.event.body
          (s.context { maxPosition := 1000, baseQty := 100 } deleteSell).side ↔
        (s.bookBefore deleteSell).SideKept deleteSell.event.body := by
  apply side_true_iff
  . decide
  . decide
  . intro a ha
    rw [List.mem_singleton.1 ha]
    exact addSell_parsed
  . exact deleteSell_parsed

theorem not_side_true
    : ¬ ∀ (cfg : BookWorker.Config) (pool index : Nat), 2 ≤ index → index ≤ 2 ^ 31 →
        ∀ run : List Input, (∀ a ∈ run, a.event.Parsed) → ∀ a : Input, a.event.Parsed →
          let s := run.foldl (process cfg) (init pool index)
          (s.bookBefore a).SideTrue a.event.body (s.context cfg a).side := by
  -- The side of an order is looked up after the event that removes the order.
  intro h
  have hside := h { maxPosition := 1000, baseQty := 100 } 4 4 (by decide) (by decide) [addSell]
    (fun a ha => List.mem_singleton.1 ha ▸ addSell_parsed) deleteSell deleteSell_parsed
  revert hside
  decide +kernel

end BookWorkers

end NebulaXTrader
