import NebulaXTrader.Market.Lemmas.MarketLedger

/-!
This module contains the proof that one event changes the shared store and the book of its locate exactly
as it changes the ledger, and that no other book notices.
-/

namespace NebulaXTrader

namespace OrderBookConsumer

variable (c : OrderBookConsumer) (st : OrderStore)

theorem withBook_bookFor_self (locate : Nat) (f : OrderBook → OrderBook)
    : OrderBook.ofStore (c.withBook st locate f).2 ((c.withBook st locate f).1.bookFor locate) =
      f (OrderBook.ofStore st (c.bookFor locate)) := by
  unfold withBook bookFor
  simp only [Function.update_self, Option.getD_some]
  rfl

theorem withBook_books (locate : Nat) (f : OrderBook → OrderBook)
    : (c.withBook st locate f).1.books =
      Function.update c.books locate (some (f (OrderBook.ofStore st (c.bookFor locate))).sides) := rfl

theorem onEvent_books (ev : MarketEvent)
    : ((c.onEvent st ev).1.books ev.locate).isSome ∧
      ∀ l, l ≠ ev.locate → (c.onEvent st ev).1.books l = c.books l := by
  have hwith : ∀ (c' : OrderBookConsumer) (f : OrderBook → OrderBook), c'.books = c.books →
      ((c'.withBook st ev.locate f).1.books ev.locate).isSome ∧
        ∀ l, l ≠ ev.locate → (c'.withBook st ev.locate f).1.books l = c.books l := by
    intro c' f hc
    constructor
    . rw [withBook_books, Function.update_self]
      rfl
    . intro l hl
      rw [withBook_books, Function.update_of_ne hl, hc]
  unfold onEvent
  cases ev.body with
  | ADD o => exact hwith c.nextOrderSeq _ rfl
  | DELETE o => exact hwith c _ rfl
  | CANCEL o => exact hwith c _ rfl
  | REPLACE o =>
    unfold handleReplace
    dsimp only
    split
    . exact hwith c _ rfl
    . exact hwith c.nextOrderSeq _ rfl
  | TRADE t => exact hwith c (fun bk => (bk.execute t.orderRef t.volume).1) rfl
  | EXECUTE t => exact hwith c (fun bk => (bk.execute t.orderRef t.volume).1) rfl

def RoomFor (bk : OrderBook) (b : MarketEvent.Body) : Prop :=
  match b with
  | .ADD o => bk.HasRoom o.orderRef
  | .REPLACE o => (bk.get o.orderRef).isSome → (bk.remove o.orderRef).1.HasRoom o.newOrderRef
  | .DELETE _ | .CANCEL _ | .TRADE _ | .EXECUTE _ => True

instance (bk : OrderBook) (b : MarketEvent.Body) : Decidable (RoomFor bk b) :=
  match b with
  | .ADD o => inferInstanceAs (Decidable (bk.HasRoom o.orderRef))
  | .REPLACE _ => inferInstanceAs (Decidable (_ → _))
  | .DELETE _ | .CANCEL _ | .TRADE _ | .EXECUTE _ => isTrue trivial

def HasRoom (ev : MarketEvent) : Prop :=
  RoomFor (OrderBook.ofStore st (c.bookFor ev.locate)) ev.body

instance (ev : MarketEvent) : Decidable (c.HasRoom st ev) :=
  inferInstanceAs (Decidable (RoomFor _ _))

theorem onEvent_sim (ev : MarketEvent) {lg : Ledger}
    (h : Sim (OrderBook.ofStore st (c.bookFor ev.locate)) lg) (hfresh : lg.Fresh ev.body)
    (hroom : c.HasRoom st ev)
    : ∃ seq, Sim
        (OrderBook.ofStore (c.onEvent st ev).2 ((c.onEvent st ev).1.bookFor ev.locate))
        (lg.onEvent seq ev.body) := by
  unfold HasRoom at hroom
  unfold onEvent
  cases hb : ev.body with
  | ADD o =>
    rw [hb] at hfresh hroom
    apply Exists.intro c.nextOrderSeq.orderSeq
    unfold handleAdd
    rw [withBook_bookFor_self]
    exact h.add _ _ _ _ _ hfresh hroom
  | DELETE o =>
    apply Exists.intro 0
    unfold handleDelete
    rw [withBook_bookFor_self]
    exact h.remove _
  | CANCEL o =>
    apply Exists.intro 0
    unfold handleCancel
    rw [withBook_bookFor_self]
    exact h.reduce _ _
  | REPLACE o =>
    rw [hb] at hfresh hroom
    apply Exists.intro c.nextOrderSeq.orderSeq
    unfold handleReplace Ledger.onEvent
    unfold RoomFor at hroom
    dsimp only at hroom ⊢
    rw [h.get o.orderRef] at hroom ⊢
    cases hv : lg.orders o.orderRef with
    | none =>
      dsimp only
      rw [withBook_bookFor_self]
      exact h
    | some v =>
      dsimp only
      rw [withBook_bookFor_self]
      apply h.replace
      intro hs
      constructor
      . by_cases hself : o.newOrderRef = o.orderRef
        . rw [hself]
          exact lg.remove_orders_self o.orderRef
        . rw [Ledger.remove_orders_of_ne hself]
          have hold : lg.orders o.orderRef ≠ none := by
            rw [hv]
            exact Option.some_ne_none v
          exact (hfresh hold).resolve_left hself
      . rw [hv] at hroom
        exact hroom rfl
  | TRADE t =>
    apply Exists.intro 0
    have hw := withBook_bookFor_self c st ev.locate (fun bk => (bk.execute t.orderRef t.volume).1)
    have hr := h.reduce t.orderRef t.volume
    exact hw ▸ hr
  | EXECUTE t =>
    apply Exists.intro 0
    have hw := withBook_bookFor_self c st ev.locate (fun bk => (bk.execute t.orderRef t.volume).1)
    have hr := h.reduce t.orderRef t.volume
    exact hw ▸ hr

end OrderBookConsumer

end NebulaXTrader
