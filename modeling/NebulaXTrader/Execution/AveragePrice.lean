import Mathlib.Tactic.Linarith
import NebulaXTrader.Execution.Lemmas.OrderManager
import NebulaXTrader.Lib.RunningAverage

/-!
This module contains how far the average fill price of an order may be from the volume weighted average of its
executions.
-/

namespace NebulaXTrader

open RunningAverage (update lost)

theorem toInt64_of_lt {n : Nat} (h : n < 2 ^ 63) : toInt64 n = n := by
  unfold toInt64
  rw [if_pos h]

namespace OrderManager

structure FillCall where
  orderId : Nat
  filledQty : Nat
  fillPrice : Int
  deriving DecidableEq, Repr

def runFills (om : OrderManager) (calls : List FillCall) : OrderManager :=
  calls.foldl (fun om c => om.onFill c.orderId c.filledQty c.fillPrice) om

structure Accepted where
  price : Int
  qty : Nat
  deriving DecidableEq, Repr

/--
What the order takes of an execution: no more than what is left of it.
-/
def Entry.take (e : Entry) (filledQty : Nat) : Nat := min filledQty (e.order.quantity - e.filled)

def acceptedBy (om : OrderManager) (id : Nat) (c : FillCall) : Option Accepted :=
  if c.orderId = id then
    match om.orders id with
    | none => none
    | some e => if e.isActive then some ⟨c.fillPrice, e.take c.filledQty⟩ else none
  else
    none

def accepted (om : OrderManager) (id : Nat) (calls : List FillCall) : List Accepted :=
  match calls with
  | [] => []
  | c :: calls => (om.acceptedBy id c).toList ++
      (om.onFill c.orderId c.filledQty c.fillPrice).accepted id calls

def worth (fills : List Accepted) : Int := (fills.map (fun f => f.price * (f.qty : Int))).sum

def shares (fills : List Accepted) : Nat := (fills.map Accepted.qty).sum

/--
The calls of one order are positive quantities at prices that are not negative, all of 64 signed bits.
-/
def FillCall.Proper (c : FillCall) : Prop := 0 < c.filledQty ∧ c.filledQty < 2 ^ 63 ∧ 0 ≤ c.fillPrice

instance (c : FillCall) : Decidable c.Proper :=
  inferInstanceAs (Decidable (_ ∧ _))

theorem Entry.fill_take {e : Entry} {q : Nat} (p : Int) (hle : e.filled ≤ e.order.quantity)
    (hquantity : e.order.quantity < 2 ^ 63) (hq : q < 2 ^ 63)
    : (e.fill q p).filled = e.filled + e.take q ∧
      (e.fill q p).avgFillPrice = update e.avgFillPrice e.filled p (e.take q) := by
  have hmod : (e.filled + q) % 2 ^ 64 = e.filled + q := Nat.mod_eq_of_lt (by omega)
  have htake : (if e.filled + q > e.order.quantity then e.order.quantity - e.filled else q) = e.take q := by
    unfold take
    split
    . omega
    . omega
  have hfilled : (if e.filled + q > e.order.quantity then e.order.quantity else e.filled + q) =
      e.filled + e.take q := by
    unfold take
    split
    . omega
    . omega
  have hlt : e.filled + e.take q < 2 ^ 63 := by
    unfold take
    omega
  constructor
  . rw [e.fill_filled, hmod, hfilled]
  . unfold fill update
    dsimp only
    rw [hmod, htake, hfilled, toInt64_of_lt (by omega), toInt64_of_lt (by omega), toInt64_of_lt hlt,
      Int.natCast_add]
    split
    . next hzero =>
      rw [← Int.natCast_add, hzero]
      exact (Int.tdiv_zero _).symm
    . rfl

theorem worth_append (fills : List Accepted) (f : Accepted)
    : worth (fills ++ [f]) = worth fills + f.price * f.qty := by
  unfold worth
  simp

theorem shares_append (fills : List Accepted) (f : Accepted)
    : shares (fills ++ [f]) = shares fills + f.qty := by
  unfold shares
  simp

/--
The entry of an order after `fills`: each of them but the first has cost less than a cent for each share that is
filled by now.
-/
structure Averages (fills : List Accepted) (e : Entry) : Prop where
  quantity : e.order.quantity < 2 ^ 63
  filled : e.filled = shares fills
  filled_le : e.filled ≤ e.order.quantity
  started : e.isActive → fills ≠ [] → 0 < e.filled
  nonneg : 0 ≤ e.avgFillPrice * e.filled
  le_worth : e.avgFillPrice * e.filled ≤ worth fills
  worth_le : worth fills ≤ e.avgFillPrice * e.filled + ((fills.length - 1) * (e.filled - 1) : Nat)

theorem Averages.of_fresh {e : Entry} (hquantity : e.order.quantity < 2 ^ 63) (hfilled : e.filled = 0)
    : Averages [] e := by
  refine ⟨hquantity, hfilled, ?_, ?_, ?_, ?_, ?_⟩
  . omega
  . intro _ hne
    exact absurd rfl hne
  . rw [hfilled]
    exact le_of_eq (Int.mul_zero _).symm
  . rw [hfilled]
    exact le_of_eq (Int.mul_zero _)
  . rw [hfilled, Int.natCast_zero, Int.mul_zero]
    exact Int.natCast_nonneg _

theorem Entry.take_pos {e : Entry} {q : Nat} (hq : 0 < q) (hlt : e.filled < e.order.quantity)
    : 0 < e.take q := by
  unfold take
  omega

theorem Entry.fill_pos {e : Entry} {q : Nat} {p : Int} (hq : 0 < q)
    (hfilled : (e.fill q p).filled = e.filled + e.take q) (hactive : (e.fill q p).isActive)
    : 0 < e.filled + e.take q := by
  have hle := e.fill_filled_le q p
  have hstatus := e.fill_status q p
  by_cases hfull : (e.fill q p).filled = e.order.quantity
  . rw [if_pos hfull] at hstatus
    unfold isActive at hactive
    rw [hstatus] at hactive
    cases hactive
  . have htake := e.take_pos hq (by omega)
    omega

theorem Averages.update {fills : List Accepted} {e : Entry} (h : Averages fills e) (hactive : e.isActive)
    {t : Nat} {p : Int} (hp : 0 ≤ p)
    : let avg := update e.avgFillPrice e.filled p t
      let filled := e.filled + t
      0 ≤ avg * filled ∧ avg * filled ≤ worth fills + p * t ∧
        worth fills + p * t ≤ avg * filled + (fills.length * (filled - 1) : Nat) := by
  intro avg filled
  have hmul : avg * filled = e.avgFillPrice * e.filled + p * t - lost e.avgFillPrice e.filled p t := by
    rw [← RunningAverage.update_mul, Int.natCast_add]
  have hlost := RunningAverage.lost_nonneg h.nonneg hp (Int.natCast_nonneg t)
  have hnonneg : 0 ≤ avg := RunningAverage.update_nonneg h.nonneg (Int.natCast_nonneg _) hp (Int.natCast_nonneg t)
  have hle := h.le_worth
  refine ⟨mul_nonneg hnonneg (Int.natCast_nonneg _), by omega, ?_⟩
  cases fills with
  | nil =>
    have hzero : e.filled = 0 := h.filled
    have hfirst : lost e.avgFillPrice e.filled p t = 0 := by
      rw [hzero]
      exact RunningAverage.lost_of_first
    have hworth : worth [] = 0 := rfl
    have hstart := h.nonneg
    omega
  | cons f fills =>
    have hpos : 0 < e.filled := h.started hactive (List.cons_ne_nil f fills)
    have hlt : lost e.avgFillPrice e.filled p t < e.filled + t := RunningAverage.lost_lt (by omega)
    have hbefore := h.worth_le
    have hgrow : fills.length * (e.filled - 1) ≤ fills.length * (filled - 1) := by
      apply Nat.mul_le_mul_left
      omega
    have hlen : (f :: fills).length * (filled - 1) = fills.length * (filled - 1) + (filled - 1) := by
      rw [List.length_cons, Nat.succ_mul]
    rw [List.length_cons, Nat.add_sub_cancel] at hbefore
    omega

theorem Averages.fill {fills : List Accepted} {e : Entry} {q : Nat} {p : Int} (h : Averages fills e)
    (hpos : 0 < q) (hq : q < 2 ^ 63) (hp : 0 ≤ p) (hactive : e.isActive)
    : Averages (fills ++ [⟨p, e.take q⟩]) (e.fill q p) := by
  obtain ⟨hfilled, havg⟩ := e.fill_take p h.filled_le h.quantity hq
  obtain ⟨hnonneg, hle, hworth⟩ := h.update hactive hp (t := e.take q)
  refine ⟨h.quantity, ?_, e.fill_filled_le q p, ?_, ?_, ?_, ?_⟩
  . rw [hfilled, h.filled, shares_append]
  . intro hact _
    rw [hfilled]
    exact Entry.fill_pos hpos hfilled hact
  . rw [havg, hfilled]
    exact hnonneg
  . rw [havg, hfilled, worth_append]
    exact hle
  . rw [havg, hfilled, worth_append, List.length_append, List.length_singleton, Nat.add_sub_cancel]
    exact hworth

theorem Averages.stamp {fills : List Accepted} {e : Entry} (h : Averages fills e) (time : Nat)
    : Averages fills { e with updateTime := time } :=
  ⟨h.quantity, h.filled, h.filled_le, h.started, h.nonneg, h.le_worth, h.worth_le⟩

theorem onFill_orders {om : OrderManager} {id : Nat} {e : Entry} (he : om.orders id = some e)
    (hactive : e.isActive) (q : Nat) (p : Int)
    : (om.onFill id q p).orders id = some { e.fill q p with updateTime := om.counter + 1 } := by
  unfold onFill
  rw [he]
  dsimp only
  rw [if_pos hactive]
  split
  . exact Function.update_self _ _ _
  . exact Function.update_self _ _ _

theorem onFill_orders_of_ne {om : OrderManager} {id i : Nat} (h : i ≠ id) (q : Nat) (p : Int)
    : (om.onFill id q p).orders i = om.orders i := by
  cases he : om.orders id with
  | none =>
    unfold onFill
    rw [he]
  | some e =>
    by_cases hactive : e.isActive
    . exact (onFill_writes q p he hactive).of_ne i h
    . rw [onFill_eq q p he hactive]

theorem Averages.onFill {om : OrderManager} {id : Nat} {e : Entry} {fills : List Accepted}
    (h : Averages fills e) (he : om.orders id = some e) {c : FillCall} (hc : c.orderId = id → c.Proper)
    : ∃ e', (om.onFill c.orderId c.filledQty c.fillPrice).orders id = some e' ∧
        Averages (fills ++ (om.acceptedBy id c).toList) e' := by
  unfold acceptedBy
  by_cases hid : c.orderId = id
  . rw [if_pos hid, he]
    obtain ⟨hpos, hq, hp⟩ := hc hid
    by_cases hactive : e.isActive
    . dsimp only
      rw [if_pos hactive, hid]
      exact ⟨_, onFill_orders he hactive c.filledQty c.fillPrice, (h.fill hpos hq hp hactive).stamp _⟩
    . refine ⟨e, ?_, ?_⟩
      . rw [hid, onFill_eq c.filledQty c.fillPrice he hactive]
        exact he
      . simpa [hactive] using h
  . rw [if_neg hid]
    refine ⟨e, ?_, by simpa using h⟩
    rw [onFill_orders_of_ne (Ne.symm hid)]
    exact he

theorem Averages.runFills {om : OrderManager} {id : Nat} {e : Entry} {fills : List Accepted}
    (h : Averages fills e) (he : om.orders id = some e) {calls : List FillCall}
    (hcalls : ∀ c ∈ calls, c.orderId = id → c.Proper)
    : ∃ e', (om.runFills calls).orders id = some e' ∧ Averages (fills ++ om.accepted id calls) e' := by
  induction calls generalizing om e fills with
  | nil => exact ⟨e, he, by simpa [accepted] using h⟩
  | cons c calls ih =>
    obtain ⟨e', he', h'⟩ := h.onFill he (hcalls c (by simp))
    have hrest := ih h' he' (fun c' hc' => hcalls c' (by simp [hc']))
    rw [List.append_assoc] at hrest
    exact hrest

/--
The average is never above the worth of the executions per share, and below it by less than a cent for each
execution after the first.
-/
theorem avgFillPrice_near {om : OrderManager} {id : Nat} {e : Entry} (he : om.orders id = some e)
    (hfresh : e.filled = 0) (hquantity : e.order.quantity < 2 ^ 63) (calls : List FillCall)
    (hcalls : ∀ c ∈ calls, c.orderId = id → c.Proper)
    : let fills := om.accepted id calls
      ∃ e', (om.runFills calls).orders id = some e' ∧ e'.filled = shares fills ∧
        e'.avgFillPrice * e'.filled ≤ worth fills ∧
        worth fills ≤ e'.avgFillPrice * e'.filled + ((fills.length - 1) * (e'.filled - 1) : Nat) := by
  intro fills
  obtain ⟨e', he', h⟩ := (Averages.of_fresh hquantity hfresh).runFills he hcalls
  exact ⟨e', he', h.filled, h.le_worth, h.worth_le⟩

def oneOrder : OrderManager where
  orders := Function.update (fun _ => none) 1 (some {
    order := {
      orderId := 1, strategyId := 1, symbolId := 7, side := .BUY, type := .LIMIT, price := 10002, quantity := 3,
      timestamp := 0 }
    status := .SUBMITTED
    remaining := 3 })

def threeFills : List FillCall := [⟨1, 1, 10001⟩, ⟨1, 1, 10000⟩, ⟨1, 1, 10002⟩]

theorem avgFillPrice_near_threeFills
    : ∃ e', (oneOrder.runFills threeFills).orders 1 = some e' ∧
        worth (oneOrder.accepted 1 threeFills) ≤ e'.avgFillPrice * e'.filled + 4 := by
  obtain ⟨e', he', hfilled, _, hle⟩ := @avgFillPrice_near oneOrder 1 _ rfl rfl (by decide) threeFills (by decide)
  have hthree : shares (oneOrder.accepted 1 threeFills) = 3 := by decide
  have hlen : (oneOrder.accepted 1 threeFills).length = 3 := by decide
  refine ⟨e', he', ?_⟩
  rw [hlen, hfilled.trans hthree] at hle
  rw [hfilled.trans hthree]
  exact hle

/--
The average differs by less than a cent from the worth of the executions divided by the filled quantity.
-/
def WithinCent (fills : List Accepted) (e : Entry) : Prop := |worth fills - e.avgFillPrice * e.filled| < e.filled

instance (fills : List Accepted) (e : Entry) : Decidable (WithinCent fills e) :=
  inferInstanceAs (Decidable (_ < _))

theorem not_withinCent
    : ∃ e', (oneOrder.runFills threeFills).orders 1 = some e' ∧
        ¬ WithinCent (oneOrder.accepted 1 threeFills) e' := by
  -- Two of the three updates have dropped a fraction, together a whole cent: 10000 instead of 10001.
  exact ⟨_, rfl, by decide +kernel⟩

end OrderManager

end NebulaXTrader
