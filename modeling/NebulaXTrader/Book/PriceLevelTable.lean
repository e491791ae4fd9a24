import NebulaXTrader.Core.Types
import NebulaXTrader.Lib.Probe

/-!
This module contains the model of `OrderBook::PriceLevelTable`, the open addressing hash table from
prices to price levels with a cached best price. The table is generic in what it stores per level.
-/

namespace NebulaXTrader

structure PriceLevelTable.Slot (β : Type) where
  price : Int
  lvl : β

structure PriceLevelTable (β : Type) where
  isBid : Bool
  best : Int
  slots : Nat → PriceLevelTable.Slot β
  cap : Nat
  count : Nat

namespace PriceLevelTable

variable {β : Type}

def kInitCapacity : Nat := 1024

/--
`INT64_MIN`: a slot that was never used.
-/
def kEmpty : Int := -9223372036854775808

/--
`INT64_MIN + 1`: a slot whose level was erased.
-/
def kTombstone : Int := -9223372036854775807

def kInt64Max : Int := 9223372036854775807

def worst (isBid : Bool) : Int := if isBid then kEmpty else kInt64Max

def init (isBid : Bool) [Inhabited β] : PriceLevelTable β where
  isBid := isBid
  best := worst isBid
  slots _ := { price := kEmpty, lvl := default }
  cap := kInitCapacity
  count := 0

def better (isBid : Bool) (price best : Int) : Bool :=
  if isBid then best < price else price < best

def isPrice (price : Int) : Bool := price ≠ kEmpty ∧ price ≠ kTombstone

/--
The golden ratio hash: the high `log2 cap` bits of `(uint64_t)price * 0x9E3779B97F4A7C15`.
-/
def probe (cap : Nat) (price : Int) : Nat :=
  let h := ((price % 2 ^ 64).toNat * 0x9E3779B97F4A7C15) % 2 ^ 64
  (h >>> (64 - Nat.log2 cap)) &&& (cap - 1)

def search (t : PriceLevelTable β) (price : Int) : Option Nat :=
  Probe.scan (fun i => (t.slots i).price = price ∨ (t.slots i).price = kEmpty) t.cap t.cap
    (probe t.cap price)

def freeSlot (t : PriceLevelTable β) (price : Int) : Option Nat :=
  Probe.scan (fun i => (t.slots i).price = kTombstone ∨ (t.slots i).price = kEmpty) t.cap t.cap
    (probe t.cap price)

def raiseBest (t : PriceLevelTable β) (price : Int) : PriceLevelTable β :=
  if better t.isBid price t.best then { t with best := price } else t

def rehash (cap : Nat) (slots : Nat → Slot β) (s : Slot β) : Nat → Slot β :=
  match Probe.scan (fun i => (slots i).price = kEmpty) cap cap (probe cap s.price) with
  | some j => Function.update slots j s
  | none => slots

def grow [Inhabited β] (t : PriceLevelTable β) : PriceLevelTable β :=
  { t with
    slots :=
      (List.range t.cap).foldl
        (fun ns i =>
          if isPrice (t.slots i).price then rehash (t.cap * 2) ns (t.slots i) else ns)
        (fun _ => { price := kEmpty, lvl := default })
    cap := t.cap * 2 }

def place [Inhabited β] (t : PriceLevelTable β) (price : Int) (i : Nat) : PriceLevelTable β :=
  { t with
    slots := Function.update t.slots i { price := price, lvl := default }
    count := t.count + 1 }.raiseBest price

/--
`operator[]`: the table and the slot of the level, which is inserted when it is missing.
-/
def access [Inhabited β] (t : PriceLevelTable β) (price : Int) : PriceLevelTable β × Nat :=
  match t.search price with
  | some i =>
    if (t.slots i).price = price then
      (t.raiseBest price, i)
    else
      let ins := (t.freeSlot price).getD i
      (t.place price ins, ins)
  | none =>
    -- no empty slot on the whole cycle: the table grows, which also drops the tombstones
    let t := t.grow
    let ins := (t.freeSlot price).getD 0
    (t.place price ins, ins)

def rescanBest (t : PriceLevelTable β) : PriceLevelTable β :=
  { t with
    best :=
      (List.range t.cap).foldl
        (fun best i =>
          if isPrice (t.slots i).price ∧ better t.isBid (t.slots i).price best then
            (t.slots i).price
          else
            best)
        (worst t.isBid) }

def erase (t : PriceLevelTable β) (price : Int) : PriceLevelTable β :=
  match t.search price with
  | some i =>
    if (t.slots i).price = price then
      let t' := { t with
        slots := Function.update t.slots i { t.slots i with price := kTombstone }
        count := t.count - 1 }
      if price = t.best then t'.rescanBest else t'
    else
      t
  | none => t

def find (t : PriceLevelTable β) (price : Int) : Option β :=
  match t.search price with
  | some i => if (t.slots i).price = price then some (t.slots i).lvl else none
  | none => none

def modifyLvl (t : PriceLevelTable β) (i : Nat) (f : β → β) : PriceLevelTable β :=
  { t with slots := Function.update t.slots i { t.slots i with lvl := f (t.slots i).lvl } }

def size (t : PriceLevelTable β) : Nat := t.count

def isEmpty (t : PriceLevelTable β) : Bool := t.count = 0

def bestQty (qty : β → Nat) (t : PriceLevelTable β) : Nat :=
  if t.isEmpty then
    0
  else
    match t.find t.best with
    | some lvl => qty lvl
    | none => 0

end PriceLevelTable

end NebulaXTrader
