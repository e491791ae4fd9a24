import NebulaXTrader.Market.OrderFlow

/-!
This module contains the theorem that the order flow imbalance strategy sums the last events since its reset exactly,
and that its signal is a bounded and monotone function of the sum.
-/

namespace NebulaXTrader

namespace OrderFlowImbalanceStrategy

def reset (s : OrderFlowImbalanceStrategy) : OrderFlowImbalanceStrategy :=
  { s with ofi := 0, current := .NONE, strength := 0, win := fun _ => 0, widx := 0 }

inductive Call where
  | onEvent (ev : MarketEvent) (side : OrderSide)
  | reset
  deriving DecidableEq

def call (s : OrderFlowImbalanceStrategy) (c : Call) : OrderFlowImbalanceStrategy :=
  match c with
  | .onEvent ev side => s.onEvent ev side
  | .reset => s.reset

def run (threshold : Int) (calls : List Call) : OrderFlowImbalanceStrategy :=
  calls.foldl call { threshold := threshold }

def record (l : List Int) (c : Call) : List Int :=
  match c with
  | .onEvent ev side => delta ev.body side :: l
  | .reset => []

/--
The contributions of the events since the last reset, the newest one first.
-/
def sinceReset (calls : List Call) : List Int := calls.foldl record []

def size (b : MarketEvent.Body) : Nat :=
  match b with
  | .ADD o | .DELETE o | .CANCEL o | .REPLACE o => o.shares
  | .TRADE t | .EXECUTE t => t.volume

def Call.size (c : Call) : Nat :=
  match c with
  | .onEvent ev _ => OrderFlowImbalanceStrategy.size ev.body
  | .reset => 0

/--
The sizes have 32 bits, and there are fewer than `2 ^ 63` events since the last reset.
-/
structure Admissible (calls : List Call) : Prop where
  sizes : ∀ c ∈ calls, c.size < 2 ^ 32
  count : (sinceReset calls).length < 2 ^ 63

/--
A part of `scale` that grows with `excess` up to `span`.
-/
def ramp (scale excess span : Int) : Int := if excess ≥ span then scale else (excess * scale).tdiv span

section

variable {scale excess excess' span : Int}

theorem ramp_nonneg (hscale : 0 ≤ scale) (hexcess : 0 ≤ excess) : 0 ≤ ramp scale excess span := by
  unfold ramp
  split
  . exact hscale
  . next hlt =>
    have hprod := Int.mul_nonneg hexcess hscale
    rw [Int.tdiv_eq_ediv_of_nonneg hprod]
    apply Int.ediv_nonneg hprod
    omega

theorem ramp_le (hscale : 0 ≤ scale) (hexcess : 0 ≤ excess) : ramp scale excess span ≤ scale := by
  unfold ramp
  split
  . exact Int.le_refl scale
  . next hlt =>
    rw [Int.tdiv_eq_ediv_of_nonneg (Int.mul_nonneg hexcess hscale)]
    apply Int.ediv_le_of_le_mul (by omega)
    rw [Int.mul_comm]
    apply Int.mul_le_mul_of_nonneg_left
    . omega
    . exact hscale

theorem ramp_mono (hscale : 0 ≤ scale) (hexcess : 0 ≤ excess) (hle : excess ≤ excess')
    : ramp scale excess span ≤ ramp scale excess' span := by
  by_cases hfull : excess' ≥ span
  . have htop : ramp scale excess' span = scale := if_pos hfull
    rw [htop]
    exact ramp_le hscale hexcess
  . have hpart : ¬ excess ≥ span := by omega
    have hprod : excess * scale ≤ excess' * scale := Int.mul_le_mul_of_nonneg_right hle hscale
    have hnonneg := Int.mul_nonneg hexcess hscale
    unfold ramp
    rw [if_neg hfull, if_neg hpart, Int.tdiv_eq_ediv_of_nonneg hnonneg,
      Int.tdiv_eq_ediv_of_nonneg (Int.le_trans hnonneg hprod)]
    apply Int.ediv_le_ediv
    . omega
    . exact hprod

end

def signalSide (threshold ofi : Int) : OrderSide :=
  if ofi > threshold then .BUY else if ofi < -threshold then .SELL else .NONE

def signalStrength (threshold ofi : Int) : Int :=
  if signalSide threshold ofi = .NONE then
    0
  else
    ramp Signal.kStrengthScale ((if ofi > 0 then ofi else -ofi) - threshold) (threshold * (kSaturate - 1))

section

variable {t x y : Int}

theorem signalSide_eq_buy : signalSide t x = .BUY ↔ x > t := by
  unfold signalSide
  split
  . simpa
  . next hbuy =>
    split
    . simp [hbuy]
    . simp [hbuy]

theorem signalSide_eq_sell (ht : 0 ≤ t) : signalSide t x = .SELL ↔ x < -t := by
  unfold signalSide
  split
  . next hbuy =>
    have hsell : ¬ x < -t := by omega
    simp [hsell]
  . split
    . next hsell => simp [hsell]
    . next hsell => simp [hsell]

theorem signalSide_eq_none : signalSide t x = .NONE ↔ -t ≤ x ∧ x ≤ t := by
  unfold signalSide
  split
  . simp
    omega
  . split
    . simp
      omega
    . simp
      omega

theorem lt_abs_of_signal (hside : signalSide t x ≠ .NONE) : t < |x| := by
  rw [Ne, signalSide_eq_none] at hside
  rw [lt_abs]
  omega

theorem signalStrength_of_signal (hside : signalSide t x ≠ .NONE)
    : signalStrength t x = ramp Signal.kStrengthScale (|x| - t) t := by
  have hmag : (if x > 0 then x else -x) = |x| := by
    split
    . next hpos => exact (abs_of_pos hpos).symm
    . next hneg => exact (abs_of_nonpos (Int.not_lt.1 hneg)).symm
  unfold signalStrength
  rw [if_neg hside, hmag]
  show ramp Signal.kStrengthScale (|x| - t) (t * 1) = _
  rw [Int.mul_one]

theorem signalStrength_of_none (hside : signalSide t x = .NONE) : signalStrength t x = 0 := if_pos hside

theorem signalStrength_bounds : 0 ≤ signalStrength t x ∧ signalStrength t x ≤ Signal.kStrengthScale := by
  by_cases hside : signalSide t x = .NONE
  . rw [signalStrength_of_none hside]
    decide
  . have hexcess := lt_abs_of_signal hside
    rw [signalStrength_of_signal hside]
    constructor
    . apply ramp_nonneg
      . decide
      . omega
    . apply ramp_le
      . decide
      . omega

theorem signalStrength_mono (hsame : signalSide t x = signalSide t y) (hle : |x| ≤ |y|)
    : signalStrength t x ≤ signalStrength t y := by
  by_cases hside : signalSide t x = .NONE
  . rw [signalStrength_of_none hside, signalStrength_of_none (hsame.symm.trans hside)]
  . have hexcess := lt_abs_of_signal hside
    rw [signalStrength_of_signal hside, signalStrength_of_signal (hsame ▸ hside)]
    apply ramp_mono
    . decide
    . omega
    . omega

end

/--
The invariant of the calls: the window holds the events since the last reset and the signal is the one of their sum.
-/
structure Signalled (t : Int) (l : List Int) (s : OrderFlowImbalanceStrategy) : Prop where
  windowed : Windowed s l
  threshold : s.threshold = t
  current : s.current = signalSide t s.ofi
  strength : s.strength = signalStrength t s.ofi

variable {t : Int} {l : List Int} {s : OrderFlowImbalanceStrategy}

theorem Signalled.idle (ht : 0 ≤ t) (hwindowed : Windowed s []) (hthreshold : s.threshold = t)
    (hcurrent : s.current = .NONE) (hstrength : s.strength = 0) : Signalled t [] s := by
  have hofi : s.ofi = 0 := hwindowed.ofi
  have hnone : signalSide t 0 = .NONE := by
    rw [signalSide_eq_none]
    omega
  constructor
  . exact hwindowed
  . exact hthreshold
  . rw [hofi, hnone, hcurrent]
  . rw [hofi, signalStrength_of_none hnone, hstrength]

theorem Signalled.call (ht : 0 ≤ t) (h : Signalled t l s) (c : Call) : Signalled t (record l c) (s.call c) := by
  cases c with
  | onEvent ev side =>
    have hthreshold := h.threshold
    subst hthreshold
    constructor
    . exact h.windowed.onEvent ev side
    . rfl
    . rfl
    . rfl
  | reset => exact Signalled.idle ht ⟨rfl, Window.Holds.nil, rfl⟩ h.threshold rfl rfl

theorem Signalled.foldl (ht : 0 ≤ t) (calls : List Call) (h : Signalled t l s)
    : Signalled t (calls.foldl record l) (calls.foldl OrderFlowImbalanceStrategy.call s) := by
  induction calls generalizing l s with
  | nil => exact h
  | cons c calls ih => exact ih (h.call ht c)

theorem Signalled.run (ht : 0 ≤ t) (calls : List Call)
    : Signalled t (sinceReset calls) (OrderFlowImbalanceStrategy.run t calls) := by
  apply Signalled.foldl ht
  exact Signalled.idle ht ⟨rfl, Window.Holds.nil, rfl⟩ rfl rfl rfl

theorem abs_delta (b : MarketEvent.Body) (side : OrderSide) : |delta b side| = size b := by
  have hcast : ∀ n : Nat, |(n : Int)| = n := fun n => abs_of_nonneg (Int.natCast_nonneg n)
  unfold delta size
  split
  all_goals
    split
    . simp only [abs_neg, hcast]
    . simp only [abs_neg, hcast]

theorem mem_sinceReset {calls : List Call} {d : Int} (hd : d ∈ sinceReset calls)
    : ∃ ev side, .onEvent ev side ∈ calls ∧ d = delta ev.body side := by
  induction calls using List.reverseRecOn with
  | nil => cases hd
  | append_singleton calls c ih =>
    unfold sinceReset at hd
    rw [List.foldl_append] at hd
    cases c with
    | onEvent ev side =>
      cases List.mem_cons.1 hd with
      | inl hnew => exact ⟨ev, side, List.mem_append_right _ (List.mem_singleton_self _), hnew⟩
      | inr hold =>
        obtain ⟨ev', side', hmem, heq⟩ := ih hold
        exact ⟨ev', side', List.mem_append_left _ hmem, heq⟩
    | reset => cases hd

theorem Admissible.abs_le {calls : List Call} (h : Admissible calls)
    : |((sinceReset calls).take kWindow).sum| ≤ 1024 * (2 ^ 32 - 1) := by
  have hbound : ∀ d ∈ (sinceReset calls).take kWindow, |d| ≤ 2 ^ 32 - 1 := by
    intro d hd
    obtain ⟨ev, side, hmem, heq⟩ := mem_sinceReset (List.mem_of_mem_take hd)
    have hsize : size ev.body < 2 ^ 32 := h.sizes _ hmem
    rw [heq, abs_delta]
    omega
  have hsum := Window.abs_sum_le hbound
  have hlength : ((sinceReset calls).take kWindow).length ≤ 1024 := List.length_take_le _ _
  have hprod : (((sinceReset calls).take kWindow).length : Int) * (2 ^ 32 - 1) ≤ 1024 * (2 ^ 32 - 1) := by
    apply Int.mul_le_mul_of_nonneg_right
    . omega
    . decide
  exact Int.le_trans hsum hprod

/--
What the strategy promises after calls that have left the contributions `l` since the last reset. No value leaves
its 64 bits: `words` bounds the counter of the window and the largest product.
-/
structure Exact (t : Int) (l : List Int) (s : OrderFlowImbalanceStrategy) : Prop where
  ofi : s.ofi = (l.take kWindow).sum
  buy : s.signal.side = .BUY ↔ s.ofi > t
  sell : s.signal.side = .SELL ↔ s.ofi < -t
  none : s.signal.side = .NONE ↔ -t ≤ s.ofi ∧ s.ofi ≤ t
  bounds : 0 ≤ s.signal.strength ∧ s.signal.strength ≤ 10000
  idle : s.signal.side = .NONE → s.signal.strength = 0
  words : s.widx < 2 ^ 63 ∧ |s.ofi| * Signal.kStrengthScale < 2 ^ 63

theorem Signalled.exact (ht : 0 ≤ t) {calls : List Call} (h : Signalled t (sinceReset calls) s)
    (hcalls : Admissible calls) : Exact t (sinceReset calls) s := by
  have hside : s.signal.side = signalSide t s.ofi := h.current
  have hstrength : s.signal.strength = signalStrength t s.ofi := h.strength
  constructor
  . exact h.windowed.ofi
  . rw [hside, signalSide_eq_buy]
  . rw [hside, signalSide_eq_sell ht]
  . rw [hside, signalSide_eq_none]
  . rw [hstrength]
    exact signalStrength_bounds
  . intro hnone
    rw [hside] at hnone
    rw [hstrength, signalStrength_of_none hnone]
  . rw [h.windowed.widx, h.windowed.ofi, Signal.kStrengthScale]
    have habs := hcalls.abs_le
    have hcount := hcalls.count
    omega

/--
Of two states on one side, the one with the larger sum has no smaller strength.
-/
theorem exact_and_monotone (ht : 1 ≤ t) (calls calls' : List Call) (h : Admissible calls)
    : Exact t (sinceReset calls) (run t calls) ∧
      ((run t calls).signal.side = (run t calls').signal.side → |(run t calls).ofi| ≤ |(run t calls').ofi| →
        (run t calls).signal.strength ≤ (run t calls').signal.strength) := by
  have hpos : 0 ≤ t := by omega
  have hrun := Signalled.run hpos calls
  have hrun' := Signalled.run hpos calls'
  refine ⟨hrun.exact hpos h, ?_⟩
  intro hside hle
  show (run t calls).strength ≤ (run t calls').strength
  rw [hrun.strength, hrun'.strength]
  apply signalStrength_mono
  . rw [← hrun.current, ← hrun'.current]
    exact hside
  . exact hle

def flowEvent (body : MarketEvent.Body) : MarketEvent where
  seqId := 1
  locate := 1
  timestamp := 1
  body := body

def buying : List Call := [
  .reset,
  .onEvent (flowEvent (.ADD { side := .BUY, price := 1000, shares := 100, orderRef := 1 })) .BUY,
  .onEvent (flowEvent (.DELETE { side := .NONE, shares := 50, orderRef := 2 })) .SELL]

theorem exact_buying : Exact 100 [50, 100] (run 100 buying) ∧
    (run 100 buying).signal.strength ≤ (run 100 (buying ++ buying.tail)).signal.strength := by
  have hexact := exact_and_monotone (t := 100) (by decide) buying (buying ++ buying.tail) ⟨by decide, by decide⟩
  exact ⟨hexact.1, hexact.2 rfl (by decide)⟩

end OrderFlowImbalanceStrategy

end NebulaXTrader
