import NebulaXTrader.Book.TableLevels
import NebulaXTrader.Lib.Links
import NebulaXTrader.Market.CheckedBook

/-!
This module contains the model of any number of order books that share one order pool and one order index, and the
lists of orders that the links in the pool and the heads of the levels form.
-/

namespace NebulaXTrader

def OrderBook.Call.refs (c : OrderBook.Call) : List Nat :=
  match c with
  | .add orderRef _ _ _ _ => [orderRef]
  | .remove orderRef => [orderRef]
  | .cancel orderRef _ => [orderRef]
  | .execute orderRef _ => [orderRef]
  | .replace oldRef newRef _ _ _ _ => [oldRef, newRef]

def OrderBook.Call.prices (c : OrderBook.Call) : List Int :=
  match c with
  | .add _ _ price _ _ => [price]
  | .replace _ _ _ newPrice _ _ => [newPrice]
  | .remove _ | .cancel _ _ | .execute _ _ => []

structure SharedBooks (B : Type) where
  store : OrderStore
  books : B → BookSides

/--
The level of a price in one half of a book.
-/
structure LevelKey (B : Type) where
  book : B
  buy : Bool
  price : Int
  deriving DecidableEq

def BookSides.half (s : BookSides) (buy : Bool) : PriceLevelTable PriceLevel := if buy then s.bids else s.asks

namespace SharedBooks

variable {B : Type}

def init (B : Type) (pool index : Nat) : SharedBooks B where
  store := { pool := OrderPool.init pool, index := OrderMap.init index }
  books _ := BookSides.init

def book (s : SharedBooks B) (b : B) : OrderBook := OrderBook.ofStore s.store (s.books b)

/--
The lists of the orders. An order is in the list of the book that its reference belongs to, of its side and price.
-/
def links (home : Nat → B) (s : SharedBooks B) : Links Nat (LevelKey B) where
  alive := s.store.pool.Allocated
  tag i :=
    let slot := s.store.pool.storage i
    { book := home slot.orderRef, buy := slot.side.isBuy, price := slot.price }
  next i := (s.store.pool.storage i).nextIdx
  prev i := (s.store.pool.storage i).prevIdx
  head k :=
    if k.price = PriceLevelTable.kTombstone then
      noIdx
    else
      (((s.books k.book).half k.buy).level k.price).headIdx

instance (home : Nat → B) (s : SharedBooks B) (i : Nat) : Decidable ((s.links home).alive i) :=
  inferInstanceAs (Decidable (s.store.pool.Allocated i))

/--
The call names only references of its book, and it does not enter an order at the marker of the erased levels.
-/
def Own (home : Nat → B) (b : B) (c : OrderBook.Call) : Prop :=
  (∀ ref ∈ c.refs, home ref = b) ∧ ∀ price ∈ c.prices, PriceLevelTable.Usable price

variable [DecidableEq B]

instance (home : Nat → B) (b : B) (c : OrderBook.Call) : Decidable (Own home b c) :=
  inferInstanceAs (Decidable (_ ∧ _))

def put (s : SharedBooks B) (b : B) (bk : OrderBook) : SharedBooks B where
  store := bk.store
  books := Function.update s.books b bk.sides

def call (s : SharedBooks B) (b : B) (c : OrderBook.Call) : SharedBooks B := s.put b ((s.book b).call c)

def call? (s : SharedBooks B) (b : B) (c : OrderBook.Call) : Option (SharedBooks B) :=
  ((s.book b).call? c).map (s.put b)

def run (s : SharedBooks B) (calls : List (B × OrderBook.Call)) : SharedBooks B :=
  calls.foldl (fun s e => s.call e.1 e.2) s

end SharedBooks

end NebulaXTrader
