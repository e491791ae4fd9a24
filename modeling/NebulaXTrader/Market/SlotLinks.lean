import NebulaXTrader.Market.Lemmas.SharedBooks

/-!
This module contains the theorem that no book follows a link to a free slot, whatever books share the pool.
-/

namespace NebulaXTrader

def OrderBook.Call.added (c : OrderBook.Call) : List Nat :=
  match c with
  | .add orderRef _ _ _ _ => [orderRef]
  | .replace _ newRef _ _ _ _ => [newRef]
  | .remove _ | .cancel _ _ | .execute _ _ => []

namespace SharedBooks

variable {B : Type} [DecidableEq B] {home : Nat → B}

/--
In every reachable state every link of a taken slot and every head of a level leads to a taken slot of the same book,
side and price, the links are inverse to each other, and every call that follows finds taken slots only.
-/
theorem run_linked {pool index : Nat} (h0 : 0 < pool) (h : pool ≤ noIdx) (h0' : 2 ≤ index) (h' : index ≤ 2 ^ 31)
    {calls : List (B × OrderBook.Call)} (hown : ∀ e ∈ calls, Own home e.1 e.2)
    : (((init B pool index).run calls).links home).WellLinked noIdx ∧
      ∀ b c, Own home b c →
        ((init B pool index).run calls).call? b c = some (((init B pool index).run calls).call b c) := by
  have hkept := (Kept.init home h0 h (Nat.zero_lt_of_lt h0') (OrderMap.le_noIdx h')).run hown
  constructor
  . exact hkept.linked
  . intro b c hc
    exact (hkept.call hc).2

def buy (ref : Nat) (price : Int) (shares : Nat) : OrderBook.Call := .add ref .BUY price shares ref

/--
The level of 1293 is erased while the second order rests there, and created again when that order is removed.
-/
def recreated : List OrderBook.Call :=
  [buy 1 683 100, buy 2 1293 100, buy 3 1293 100, buy 4 500 100, .cancel 3 40, .remove 3, .cancel 2 60, .remove 1,
    .remove 2]

theorem run_linked_recreated
    : (((init Bool 4 4).run (recreated.map (fun c => (true, c)))).links (fun _ => true)).WellLinked noIdx ∧
        ((init Bool 4 4).run (recreated.map (fun c => (true, c)))).call? true (buy 5 1293 10) =
          some (((init Bool 4 4).run (recreated.map (fun c => (true, c)))).call true (buy 5 1293 10)) := by
  have hpos : 0 < 4 := by decide
  have hle : 4 ≤ noIdx := by decide
  have htwo : 2 ≤ 4 := by decide
  have hle' : 4 ≤ 2 ^ 31 := by decide
  have hown : ∀ e ∈ recreated.map (fun c => (true, c)), Own (fun _ => true) e.1 e.2 := by decide
  have h := run_linked hpos hle htwo hle' hown
  exact ⟨h.1, h.2 true (buy 5 1293 10) (by decide)⟩

theorem not_run_linked
    : ¬ ∀ (pool index : Nat) (home : Nat → Bool) (calls : List (Bool × OrderBook.Call)), 0 < pool → pool ≤ noIdx →
        2 ≤ index → index ≤ 2 ^ 31 → (∀ e ∈ calls, ∀ ref ∈ e.2.refs, home ref = e.1) →
        (calls.flatMap (fun e => e.2.added)).Nodup →
        (((init Bool pool index).run calls).links home).WellLinked noIdx := by
  -- An order at the marker of the erased levels finds the old head of 1293, whose slot is free by then.
  intro h
  have hlinked := h 4 4 (fun _ => true)
    ((recreated ++ [.remove 4, buy 5 PriceLevelTable.kTombstone 10]).map (fun c => (true, c)))
    (by decide) (by decide) (by decide) (by decide) (by decide) (by decide)
  have hnext := hlinked.next 3 (by decide +kernel) (by decide +kernel)
  have hfree := hnext.1
  revert hfree
  decide +kernel

end SharedBooks

end NebulaXTrader
