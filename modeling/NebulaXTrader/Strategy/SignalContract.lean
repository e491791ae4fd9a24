import Mathlib.Algebra.Order.Ring.Abs
import NebulaXTrader.Strategy.FlowWindow
import NebulaXTrader.Strategy.TickTrades

/-!
This module contains the contract of a signal, and the theorem when the strategies keep it: a strength between 0 and
the full strength, and none without a side.
-/

namespace NebulaXTrader

def Signal.Contract (sig : Signal) : Prop :=
  (0 ≤ sig.strength ∧ sig.strength ≤ Signal.kStrengthScale) ∧ (sig.side = .NONE → sig.strength = 0)

instance (sig : Signal) : Decidable sig.Contract := inferInstanceAs (Decidable (_ ∧ _))

theorem Signal.contract_of_zero {sig : Signal} (h : sig.strength = 0) : sig.Contract := by
  unfold Contract
  rw [h]
  exact ⟨by decide, fun _ => rfl⟩

theorem Signal.contract_of_pos {sig : Signal} (h : 0 ≤ sig.strength ∧ sig.strength ≤ kStrengthScale)
    (hside : sig.side ≠ .NONE) : sig.Contract := by
  refine ⟨h, ?_⟩
  intro hnone
  exact absurd hnone hside

theorem cappedStrength_bounds {excess span : Int} (h : 0 < span → 0 ≤ excess)
    : 0 ≤ cappedStrength excess span ∧ cappedStrength excess span ≤ Signal.kStrengthScale := by
  unfold cappedStrength
  split
  . decide
  . next hspan =>
    have hexcess := h (by omega)
    have hprod : 0 ≤ excess * Signal.kStrengthScale := Int.mul_nonneg hexcess (by decide)
    have hquotient : 0 ≤ (excess * Signal.kStrengthScale).tdiv span := Int.tdiv_nonneg hprod (by omega)
    dsimp only
    split
    . decide
    . omega

theorem Signal.contract_of_capped {sig : Signal} {up down : Prop} [Decidable up] [Decidable down]
    {buy sell span : Int} (hside : sig.side = if up then .BUY else if down then .SELL else .NONE)
    (hbuy : up → 0 < span → 0 ≤ buy) (hsell : down → 0 < span → 0 ≤ sell)
    (hstrength : sig.strength =
      match sig.side with
      | .BUY => cappedStrength buy span
      | .SELL => cappedStrength sell span
      | .NONE => 0) : sig.Contract := by
  by_cases hup : up
  . rw [if_pos hup] at hside
    rw [hside] at hstrength
    apply Signal.contract_of_pos
    . rw [hstrength]
      exact cappedStrength_bounds (hbuy hup)
    . rw [hside]
      decide
  . rw [if_neg hup] at hside
    by_cases hdown : down
    . rw [if_pos hdown] at hside
      rw [hside] at hstrength
      apply Signal.contract_of_pos
      . rw [hstrength]
        exact cappedStrength_bounds (hsell hdown)
      . rw [hside]
        decide
    . rw [if_neg hdown] at hside
      rw [hside] at hstrength
      exact Signal.contract_of_zero hstrength

theorem OrderFlowImbalanceStrategy.run_contract {threshold : Int} (h : 0 ≤ threshold) (calls : List Call)
    : (run threshold calls).signal.Contract := by
  have hrun := Signalled.run h calls
  have hside : (run threshold calls).signal.side = signalSide threshold (run threshold calls).ofi := hrun.current
  have hstrength : (run threshold calls).signal.strength = signalStrength threshold (run threshold calls).ofi :=
    hrun.strength
  constructor
  . rw [hstrength]
    exact signalStrength_bounds
  . intro hnone
    rw [hside] at hnone
    rw [hstrength, signalStrength_of_none hnone]

namespace OrderBookImbalanceStrategy

structure Snapshot where
  locate : Nat := 1
  bidPrice : Int
  bidVol : Nat
  askPrice : Int
  askVol : Nat
  timestamp : Nat := 0

def onSnapshot (s : OrderBookImbalanceStrategy) (b : Snapshot) : OrderBookImbalanceStrategy :=
  s.onBook b.locate b.bidPrice b.bidVol b.askPrice b.askVol b.timestamp

/--
The imbalance is above the threshold, or it rounds to nothing.
-/
def Decided (th : Int) (b : Snapshot) : Prop :=
  let volume : Int := b.bidVol + b.askVol
  let excess : Int := 10000 * |(b.bidVol : Int) - b.askVol|
  volume = 0 ∨ (th + 1) * volume ≤ excess ∨ 0 < th ∧ excess < volume ∨ th = 10000 ∧ excess < 2 * volume

theorem abs_tdiv {x d : Int} (hd : 0 < d) : |x.tdiv d| = |x| / d := by
  rw [Int.abs_eq_natAbs, Int.natAbs_tdiv, Int.abs_eq_natAbs x]
  have hcast : (d.natAbs : Int) = d := Int.natAbs_of_nonneg hd.le
  show ((x.natAbs / d.natAbs : Nat) : Int) = _
  rw [Int.natCast_ediv, hcast]

section

variable {th : Int}

theorem imbalance_contract {x : Int} (hth : 0 ≤ th ∧ th ≤ 10000) (hx : |x| ≤ 10000) (sig : Signal)
    (hside : sig.side = if x > th then .BUY else if x < -th then .SELL else .NONE)
    (hstrength : sig.strength =
      if (if x > 0 then x else -x) ≥ th then
        Signal.kStrengthScale
      else
        ((if x > 0 then x else -x) * Signal.kStrengthScale).tdiv (th + 1))
    : sig.Contract ↔ th < |x| ∨ 0 < th ∧ |x| = 0 ∨ th = 10000 ∧ |x| ≤ 1 := by
  have hmag : (if x > 0 then x else -x) = |x| := by
    split
    . next hpos => exact (abs_of_pos hpos).symm
    . next hneg => exact (abs_of_nonpos (Int.not_lt.1 hneg)).symm
  have hnone : sig.side = .NONE ↔ |x| ≤ th := by
    rw [hside, abs_le]
    exact OrderFlowImbalanceStrategy.signalSide_eq_none
  have hnonneg := abs_nonneg x
  rw [hmag, Signal.kStrengthScale] at hstrength
  unfold Signal.Contract
  rw [hnone, hstrength, Signal.kStrengthScale]
  by_cases hfull : |x| ≥ th
  . rw [if_pos hfull]
    omega
  . have hprod : 0 ≤ |x| * 10000 := by omega
    rw [if_neg hfull, Int.tdiv_eq_ediv_of_nonneg hprod]
    have hle : |x| * 10000 / (th + 1) ≤ 10000 := by
      apply Int.ediv_le_of_le_mul
      . omega
      . omega
    have hge : 0 ≤ |x| * 10000 / (th + 1) := Int.ediv_nonneg hprod (by omega)
    have hzero : |x| * 10000 / (th + 1) = 0 ↔ |x| * 10000 < th + 1 := by
      have hlt : |x| * 10000 / (th + 1) < 1 ↔ |x| * 10000 < 1 * (th + 1) := by
        apply Int.ediv_lt_iff_lt_mul
        omega
      omega
    rw [hzero]
    omega

theorem onSnapshot_contract {s : OrderBookImbalanceStrategy} (hth : 0 ≤ s.th ∧ s.th ≤ 10000) (b : Snapshot)
    : (s.onSnapshot b).signal.Contract ↔ Decided s.th b := by
  unfold Decided
  by_cases hempty : b.bidVol + b.askVol = 0
  . have hstep : s.onSnapshot b = { s with
        locate := b.locate
        bidPrice := b.bidPrice
        askPrice := b.askPrice
        timestamp := b.timestamp
        current := .NONE
        strength := 0 } := if_pos hempty
    rw [hstep]
    constructor
    . intro _
      left
      omega
    . intro _
      exact Signal.contract_of_zero rfl
  . let x : Int := (((b.bidVol : Int) - b.askVol) * Signal.kStrengthScale).tdiv ((b.bidVol + b.askVol : Nat) : Int)
    have hstep : s.onSnapshot b = { s with
        locate := b.locate
        bidPrice := b.bidPrice
        askPrice := b.askPrice
        timestamp := b.timestamp
        current := if x > s.th then .BUY else if x < -s.th then .SELL else .NONE
        strength :=
          if (if x > 0 then x else -x) ≥ s.th then
            Signal.kStrengthScale
          else
            ((if x > 0 then x else -x) * Signal.kStrengthScale).tdiv (s.th + 1) } := if_neg hempty
    have hvolume : (0 : Int) < (b.bidVol : Int) + b.askVol := by omega
    have habs : |x| = 10000 * |(b.bidVol : Int) - b.askVol| / ((b.bidVol : Int) + b.askVol) := by
      have hcast : ((b.bidVol + b.askVol : Nat) : Int) = b.bidVol + b.askVol := Nat.cast_add _ _
      show |Int.tdiv _ _| = _
      rw [hcast, abs_tdiv hvolume, abs_mul, Int.mul_comm]
      rfl
    have hle : |x| ≤ 10000 := by
      rw [habs]
      apply Int.ediv_le_of_le_mul hvolume
      have hdiff : |(b.bidVol : Int) - b.askVol| ≤ b.bidVol + b.askVol := by
        rw [abs_le]
        omega
      omega
    rw [imbalance_contract hth hle _ (congrArg current hstep) (congrArg strength hstep), habs]
    have hexcess : 0 ≤ 10000 * |(b.bidVol : Int) - b.askVol| := by
      have hdiff := abs_nonneg ((b.bidVol : Int) - b.askVol)
      omega
    generalize 10000 * |(b.bidVol : Int) - b.askVol| = excess at hexcess ⊢
    generalize hsum : (b.bidVol : Int) + b.askVol = volume at hvolume ⊢
    have hquotient : 0 ≤ excess / volume := Int.ediv_nonneg hexcess hvolume.le
    have hgt : s.th + 1 ≤ excess / volume ↔ (s.th + 1) * volume ≤ excess := Int.le_ediv_iff_mul_le hvolume
    have hone : excess / volume < 1 ↔ excess < 1 * volume := Int.ediv_lt_iff_lt_mul hvolume
    have htwo : excess / volume < 2 ↔ excess < 2 * volume := Int.ediv_lt_iff_lt_mul hvolume
    omega

def run (th : Int) (snapshots : List Snapshot) : OrderBookImbalanceStrategy :=
  snapshots.foldl onSnapshot { th := th }

theorem run_contract (hth : 0 ≤ th ∧ th ≤ 10000) (snapshots : List Snapshot)
    : (∀ pre, pre <+: snapshots → (run th pre).signal.Contract) ↔ ∀ b ∈ snapshots, Decided th b := by
  let p : OrderBookImbalanceStrategy → Prop := fun s => s.th = th ∧ s.signal.Contract
  have hthreshold : ∀ s b, (onSnapshot s b).th = s.th := by
    intro s b
    unfold onSnapshot onBook
    dsimp only
    split
    . rfl
    . rfl
  have hgood : ∀ s b, p s → (p (onSnapshot s b) ↔ Decided th b) := by
    intro s b hp
    have hs := hp.1
    subst hs
    rw [← onSnapshot_contract hth b]
    exact ⟨fun h => h.2, fun h => ⟨hthreshold s b, h⟩⟩
  have hrun : ∀ pre, (run th pre).th = th := by
    intro pre
    induction pre using List.reverseRecOn with
    | nil => rfl
    | append_singleton pre b ih =>
      unfold run at ih ⊢
      rw [List.foldl_append]
      exact (hthreshold _ b).trans ih
  have hinit : p { th := th } := ⟨rfl, Signal.contract_of_zero rfl⟩
  rw [← Run.along_forall, ← Run.along_iff hgood hinit]
  constructor
  . intro h pre hpre
    exact ⟨hrun pre, h pre hpre⟩
  . intro h pre hpre
    exact (h pre hpre).2

end

end OrderBookImbalanceStrategy

namespace VolumeBreakoutStrategy

/--
The scaled excess of the window is not a negative number when it is read as one of `int64_t`.
-/
def Fits (s : VolumeBreakoutStrategy) (ev : MarketEvent) : Prop :=
  ∀ t, tradeOf ev = some t → s.threshold = 1 →
    ((pushWindow s.window s.vols t.volume).sum % 2 ^ 64 - 1) * 10000 % 2 ^ 64 < 2 ^ 63

theorem capped_toInt64 {q : Nat} (hq : q < 2 ^ 64)
    : (0 ≤ (if toInt64 q > Signal.kStrengthScale then Signal.kStrengthScale else toInt64 q) ∧
        (if toInt64 q > Signal.kStrengthScale then Signal.kStrengthScale else toInt64 q) ≤ Signal.kStrengthScale) ↔
        q < 2 ^ 63 := by
  unfold toInt64 Signal.kStrengthScale
  by_cases hlt : q < 2 ^ 63
  . rw [if_pos hlt]
    split
    . simpa using hlt
    . omega
  . rw [if_neg hlt, if_neg (by omega)]
    omega

theorem quotient_lt {product threshold : Nat} (hthreshold : threshold ≠ 0)
    : product % 2 ^ 64 / threshold < 2 ^ 63 ↔ threshold = 1 → product % 2 ^ 64 < 2 ^ 63 := by
  have hlt : product % 2 ^ 64 < 2 ^ 64 := Nat.mod_lt _ (by decide)
  by_cases hone : threshold = 1
  . rw [hone, Nat.div_one]
    exact ⟨fun h _ => h, fun h => h rfl⟩
  . have hsmall : product % 2 ^ 64 / threshold < 2 ^ 63 := by
      rw [Nat.div_lt_iff_lt_mul (by omega)]
      omega
    exact ⟨fun _ h => absurd h hone, fun _ => hsmall⟩

theorem onEvent_idle {s : VolumeBreakoutStrategy} {ev : MarketEvent} (ht : tradeOf ev = none)
    : s.onEvent ev = s := by
  unfold onEvent
  rw [ht]

theorem onEvent_side {s : VolumeBreakoutStrategy} {ev : MarketEvent} {t : MarketEvent.Trade}
    (ht : tradeOf ev = some t)
    : (s.onEvent ev).signal.side =
        if (pushWindow s.window s.vols t.volume).sum % 2 ^ 64 > s.threshold then .BUY else .NONE := by
  unfold onEvent
  rw [ht]
  rfl

theorem onEvent_strength {s : VolumeBreakoutStrategy} {ev : MarketEvent} {t : MarketEvent.Trade}
    (ht : tradeOf ev = some t)
    : let sum := (pushWindow s.window s.vols t.volume).sum % 2 ^ 64
      let q := (sum - s.threshold) * 10000 % 2 ^ 64 / s.threshold
      (s.onEvent ev).signal.strength =
        if (s.onEvent ev).signal.side = .BUY then
          if s.threshold = 0 then
            Signal.kStrengthScale
          else
            if toInt64 q > Signal.kStrengthScale then Signal.kStrengthScale else toInt64 q
        else
          0 := by
  unfold onEvent
  rw [ht]
  rfl

theorem onEvent_contract {s : VolumeBreakoutStrategy} (h : s.signal.Contract) (ev : MarketEvent)
    : (s.onEvent ev).signal.Contract ↔ s.Fits ev := by
  unfold Fits
  cases ht : tradeOf ev with
  | none =>
    rw [onEvent_idle ht]
    constructor
    . intro _ t ht'
      cases ht'
    . intro _
      exact h
  | some t =>
    have hside := onEvent_side (s := s) ht
    have hstrength := onEvent_strength (s := s) ht
    simp only [Option.some.injEq, forall_eq']
    dsimp only at hstrength
    generalize (pushWindow s.window s.vols t.volume).sum % 2 ^ 64 = sum at hside hstrength ⊢
    by_cases hbuy : sum > s.threshold
    . rw [if_pos hbuy] at hside
      rw [if_pos hside] at hstrength
      have hcontract : (s.onEvent ev).signal.Contract ↔
          0 ≤ (s.onEvent ev).signal.strength ∧ (s.onEvent ev).signal.strength ≤ Signal.kStrengthScale := by
        constructor
        . intro hc
          exact hc.1
        . intro hrange
          apply Signal.contract_of_pos hrange
          rw [hside]
          decide
      rw [hcontract, hstrength]
      by_cases hzero : s.threshold = 0
      . rw [if_pos hzero]
        constructor
        . intro _ hone
          omega
        . intro _
          decide
      . have hword : (sum - s.threshold) * 10000 % 2 ^ 64 / s.threshold < 2 ^ 64 := by
          apply Nat.lt_of_le_of_lt (Nat.div_le_self _ _)
          exact Nat.mod_lt _ (by decide)
        rw [if_neg hzero, capped_toInt64 hword, quotient_lt hzero]
        constructor
        . intro hfit hone
          have hlt := hfit hone
          rw [hone] at hlt
          exact hlt
        . intro hfit hone
          rw [hone]
          exact hfit hone
    . rw [if_neg hbuy] at hside
      have hnone : ¬ (s.onEvent ev).signal.side = .BUY := by
        rw [hside]
        decide
      rw [if_neg hnone] at hstrength
      constructor
      . intro _ hone
        have hzero : sum - 1 = 0 := by omega
        rw [hzero]
        decide
      . intro _
        exact Signal.contract_of_zero hstrength

def run (window threshold : Nat) (events : List MarketEvent) : VolumeBreakoutStrategy :=
  events.foldl onEvent { window := window, threshold := threshold }

theorem run_contract (window threshold : Nat) (events : List MarketEvent)
    : (∀ pre, pre <+: events → (run window threshold pre).signal.Contract) ↔
        Run.Along (fun s ev => some (onEvent s ev)) Fits { window := window, threshold := threshold } events := by
  have hinit : ({ window := window, threshold := threshold } : VolumeBreakoutStrategy).signal.Contract :=
    Signal.contract_of_zero rfl
  exact Run.along_iff (p := fun s : VolumeBreakoutStrategy => s.signal.Contract)
    (fun s ev h => onEvent_contract h ev) hinit events

end VolumeBreakoutStrategy

namespace PriceBreakoutStrategy

def step (s : Option PriceBreakoutStrategy) (ev : MarketEvent) : Option PriceBreakoutStrategy :=
  s.bind (fun s => s.onEvent ev)

/--
The price of a trade that enters the window.
-/
def Priced (ev : MarketEvent) : Prop := ∃ t, tradeOf ev = some t ∧ 0 ≤ t.price

structure Keeps (n : Nat) (s : PriceBreakoutStrategy) : Prop where
  window : s.window = n
  length : s.prices.length ≤ n
  contract : s.signal.Contract

variable {n : Nat} {s : PriceBreakoutStrategy}

theorem length_pushWindow {α : Type} {l : List α} (h : l.length ≤ n) (x : α)
    : (pushWindow n l x).length ≤ n := by
  have hlength : (l ++ [x]).length = l.length + 1 := List.length_append
  unfold pushWindow
  dsimp only
  split
  . rw [List.length_tail]
    omega
  . omega

theorem Keeps.push (h : Keeps n s) (price : Int)
    : Keeps n { s with prices := pushWindow s.window s.prices price } := by
  constructor
  . exact h.window
  . show (pushWindow s.window s.prices price).length ≤ n
    rw [h.window]
    exact length_pushWindow h.length price
  . exact h.contract

theorem Keeps.decide (h : Keeps n s) {price hi lo : Int} {current : OrderSide} {strength : Int} (locate lastTs : Nat)
    (hstrength : strength =
      match current with
      | .BUY => cappedStrength (price - hi) (hi - lo)
      | .SELL => cappedStrength (lo - price) (hi - lo)
      | .NONE => 0)
    (hcurrent : current = if price > hi then .BUY else if price < lo then .SELL else .NONE)
    : Keeps n { s with
        locate := locate
        lastTs := lastTs
        lastPrice := price
        current := current
        strength := strength } := by
  constructor
  . exact h.window
  . exact h.length
  . apply Signal.contract_of_capped hcurrent _ _ hstrength
    . intro hup _
      omega
    . intro hdown _
      omega

theorem Keeps.idle (h : Keeps n s) (locate lastTs : Nat) (lastPrice : Int)
    : Keeps n { s with locate := locate, lastTs := lastTs, lastPrice := lastPrice } := by
  constructor
  . exact h.window
  . exact h.length
  . exact h.contract

theorem exists_max_min {l : List Int} (h : l ≠ []) : ∃ hi lo, l.max? = some hi ∧ l.min? = some lo := by
  cases l with
  | nil => exact absurd rfl h
  | cons x l => exact ⟨_, _, rfl, rfl⟩

theorem onEvent_some (h : Keeps n s) {ev : MarketEvent} (hev : Priced ev → 0 < n)
    : ∃ s', s.onEvent ev = some s' ∧ Keeps n s' := by
  unfold Priced at hev
  unfold onEvent
  cases ht : tradeOf ev with
  | none => exact ⟨s, rfl, h⟩
  | some t =>
    dsimp only
    by_cases hneg : t.price < 0
    . rw [if_pos hneg]
      exact ⟨s, rfl, h⟩
    . have hpos : 0 < n := hev ⟨t, ht, by omega⟩
      rw [if_neg hneg]
      by_cases hlen : s.prices.length ≥ s.window
      . have hne : s.prices ≠ [] := by
          rw [h.window] at hlen
          apply List.length_pos_iff.1
          omega
        obtain ⟨hi, lo, hhi, hlo⟩ := exists_max_min hne
        rw [if_pos hlen, hhi, hlo]
        refine ⟨_, rfl, ?_⟩
        exact (h.decide ev.locate ev.timestamp rfl rfl).push t.price
      . rw [if_neg hlen]
        refine ⟨_, rfl, ?_⟩
        exact (h.idle ev.locate ev.timestamp t.price).push t.price

theorem onEvent_none (h : Keeps n s) {ev : MarketEvent} (hev : ¬ (Priced ev → 0 < n)) : s.onEvent ev = none := by
  rw [Classical.not_imp] at hev
  obtain ⟨⟨t, ht, hprice⟩, hzero⟩ := hev
  have hempty : s.prices = [] := by
    have hlength := h.length
    apply List.length_eq_zero_iff.1
    omega
  have hlen : s.prices.length ≥ s.window := by
    rw [h.window]
    omega
  unfold onEvent
  rw [ht]
  dsimp only
  rw [if_neg (by omega), if_pos hlen, hempty]
  rfl

/--
The state of the strategy after events, or none after the largest price of an empty deque was read.
-/
def run (window : Nat) (events : List MarketEvent) : Option PriceBreakoutStrategy :=
  events.foldl step (some { window := window })

theorem run_concat (n : Nat) (events : List MarketEvent) (ev : MarketEvent)
    : run n (events ++ [ev]) = step (run n events) ev := by
  unfold run
  rw [List.foldl_append]
  rfl

theorem init_keeps (n : Nat) : Keeps n { window := n } := ⟨rfl, Nat.zero_le _, Signal.contract_of_zero rfl⟩

theorem run_keeps {events : List MarketEvent} (h : ∀ ev ∈ events, Priced ev → 0 < n)
    : ∃ s, run n events = some s ∧ Keeps n s := by
  induction events using List.reverseRecOn with
  | nil => exact ⟨_, rfl, init_keeps n⟩
  | append_singleton events ev ih =>
    obtain ⟨s, hs, hkeeps⟩ := ih (fun ev' hev' => h ev' (List.mem_append_left _ hev'))
    rw [run_concat, hs]
    exact onEvent_some hkeeps (h ev (by simp))

theorem run_contract (n : Nat) (events : List MarketEvent)
    : (∀ pre, pre <+: events → ∃ s, run n pre = some s ∧ s.signal.Contract) ↔
        ∀ ev ∈ events, Priced ev → 0 < n := by
  constructor
  . intro h
    induction events using List.reverseRecOn with
    | nil => simp
    | append_singleton events ev ih =>
      have hbefore := ih (fun pre hpre => h pre (hpre.trans (List.prefix_append events [ev])))
      obtain ⟨s, hs, hkeeps⟩ := run_keeps hbefore
      obtain ⟨s', hs', _⟩ := h _ (List.prefix_refl (events ++ [ev]))
      rw [run_concat, hs] at hs'
      intro ev' hev'
      cases List.mem_append.1 hev' with
      | inl hold => exact hbefore ev' hold
      | inr hnew =>
        rw [List.mem_singleton.1 hnew]
        by_contra hbad
        have hnone : step (some s) ev = none := onEvent_none hkeeps hbad
        rw [hnone] at hs'
        cases hs'
  . intro h pre hpre
    obtain ⟨s, hs, hkeeps⟩ := run_keeps (fun ev hev => h ev (hpre.subset hev))
    exact ⟨s, hs, hkeeps.contract⟩

end PriceBreakoutStrategy

namespace TickMomentumStrategy

variable {s : TickMomentumStrategy} {ev : MarketEvent} {t : MarketEvent.Trade}

/--
The deques with the trade.
-/
def push (s : TickMomentumStrategy) (t : MarketEvent.Trade) : List Int × List Nat :=
  (pushWindow s.window s.prices t.price,
    if (s.prices ++ [t.price]).length > s.window then (s.vols ++ [t.volume]).tail else s.vols ++ [t.volume])

/--
Both halves of the window have volume.
-/
def Weighed (w : List Int × List Nat) : Prop :=
  sumV (w.2.take (w.1.length / 2)) ≠ 0 ∧ sumV (w.2.drop (w.1.length / 2)) ≠ 0

/--
A window with a half without volume is met without strength.
-/
def Fresh (s : TickMomentumStrategy) (ev : MarketEvent) : Prop :=
  ∀ t, tradeOf ev = some t → 0 ≤ t.price → 2 ≤ (s.push t).1.length → s.strength ≠ 0 → Weighed (s.push t)

/--
Before the window holds two trades there is no strength.
-/
def Short (s : TickMomentumStrategy) : Prop := s.prices.length ≤ 1 → s.strength = 0

theorem onEvent_idle (h : ∀ t, tradeOf ev = some t → t.price < 0) : s.onEvent ev = s := by
  unfold onEvent
  cases ht : tradeOf ev with
  | none => rfl
  | some t => exact if_pos (h t ht)

theorem onEvent_early (ht : tradeOf ev = some t) (hprice : 0 ≤ t.price)
    (hearly : (s.push t).1.length < 2 ∨ ¬ Weighed (s.push t))
    : s.onEvent ev = { s with
        locate := ev.locate
        lastTs := ev.timestamp
        lastPrice := t.price
        prices := (s.push t).1
        vols := (s.push t).2
        current := .NONE } := by
  unfold onEvent
  rw [ht]
  dsimp only
  rw [if_neg (by omega)]
  by_cases hlength : (s.push t).1.length < 2
  . exact if_pos hlength
  . have hzero : sumV ((s.push t).2.take ((s.push t).1.length / 2)) = 0 ∨
        sumV ((s.push t).2.drop ((s.push t).1.length / 2)) = 0 := by
      have hweighed := hearly.resolve_left hlength
      unfold Weighed at hweighed
      omega
    exact (if_neg hlength).trans (if_pos hzero)

theorem onEvent_late (ht : tradeOf ev = some t) (hprice : 0 ≤ t.price) (hlength : 2 ≤ (s.push t).1.length)
    (hweighed : Weighed (s.push t))
    : (s.onEvent ev).prices = (s.push t).1 ∧ (s.onEvent ev).signal.Contract := by
  have hzero : ¬ (sumV ((s.push t).2.take ((s.push t).1.length / 2)) = 0 ∨
      sumV ((s.push t).2.drop ((s.push t).1.length / 2)) = 0) := by
    unfold Weighed at hweighed
    omega
  let half := (s.push t).1.length / 2
  let vwap1 := vwap ((s.push t).1.take half) ((s.push t).2.take half)
  let vwap2 := vwap ((s.push t).1.drop half) ((s.push t).2.drop half)
  let current :=
    if vwap2 - vwap1 > s.threshold then OrderSide.BUY else if vwap1 - vwap2 > s.threshold then .SELL else .NONE
  have hstep : s.onEvent ev = { s with
      locate := ev.locate
      lastTs := ev.timestamp
      lastPrice := t.price
      prices := (s.push t).1
      vols := (s.push t).2
      current := current
      strength :=
        match current with
        | .BUY => cappedStrength (vwap2 - vwap1) s.threshold
        | .SELL => cappedStrength (-(vwap2 - vwap1)) s.threshold
        | .NONE => 0 } := by
    unfold onEvent
    rw [ht]
    dsimp only
    rw [if_neg (by omega)]
    exact (if_neg (Nat.not_lt.2 hlength)).trans (if_neg hzero)
  rw [hstep]
  refine ⟨rfl, ?_⟩
  apply Signal.contract_of_capped rfl _ _ rfl
  . intro hup hpos
    omega
  . intro hdown hpos
    omega

theorem length_push (s : TickMomentumStrategy) (t : MarketEvent.Trade) : s.prices.length ≤ (s.push t).1.length := by
  have hlength : (s.prices ++ [t.price]).length = s.prices.length + 1 := List.length_append
  unfold push pushWindow
  dsimp only
  split
  . rw [List.length_tail]
    omega
  . omega

theorem onEvent_cases (s : TickMomentumStrategy) (ev : MarketEvent)
    : ((∀ t, tradeOf ev = some t → t.price < 0) ∧ s.onEvent ev = s) ∨
      ∃ t, tradeOf ev = some t ∧ 0 ≤ t.price ∧ (s.onEvent ev).prices = (s.push t).1 ∧
        (((s.push t).1.length < 2 ∨ ¬ Weighed (s.push t)) ∧ (s.onEvent ev).current = .NONE ∧
            (s.onEvent ev).strength = s.strength ∨
          2 ≤ (s.push t).1.length ∧ Weighed (s.push t) ∧ (s.onEvent ev).signal.Contract) := by
  -- The three ways through the event: nothing enters the window, it has a half without volume, or the halves are
  -- compared.
  by_cases hidle : ∀ t, tradeOf ev = some t → t.price < 0
  . exact .inl ⟨hidle, onEvent_idle hidle⟩
  . push Not at hidle
    obtain ⟨t, ht, hprice⟩ := hidle
    right
    refine ⟨t, ht, hprice, ?_⟩
    by_cases hearly : (s.push t).1.length < 2 ∨ ¬ Weighed (s.push t)
    . rw [onEvent_early ht hprice hearly]
      exact ⟨rfl, .inl ⟨hearly, rfl, rfl⟩⟩
    . rw [not_or, not_not, Nat.not_lt] at hearly
      obtain ⟨hprices, hcontract⟩ := onEvent_late ht hprice hearly.1 hearly.2
      exact ⟨hprices, .inr ⟨hearly.1, hearly.2, hcontract⟩⟩

theorem Short.onEvent (h : Short s) (ev : MarketEvent) : Short (s.onEvent ev) := by
  intro hshort
  obtain ⟨_, hsame⟩ | ⟨t, _, _, hprices, hrest⟩ := onEvent_cases s ev
  . rw [hsame] at hshort ⊢
    exact h hshort
  . have hgrow := length_push s t
    rw [hprices] at hshort
    obtain ⟨_, _, hstrength⟩ | ⟨hlength, _⟩ := hrest
    . rw [hstrength]
      exact h (by omega)
    . omega

theorem onEvent_contract (h : Short s) (hcontract : s.signal.Contract) (ev : MarketEvent)
    : (s.onEvent ev).signal.Contract ↔ s.Fresh ev := by
  obtain ⟨hidle, hsame⟩ | ⟨t, ht, hprice, _, hrest⟩ := onEvent_cases s ev
  . rw [hsame]
    constructor
    . intro _ t ht hprice
      have hneg := hidle t ht
      omega
    . intro _
      exact hcontract
  . have hfresh : s.Fresh ev ↔ (2 ≤ (s.push t).1.length → s.strength ≠ 0 → Weighed (s.push t)) := by
      constructor
      . intro hall
        exact hall t ht hprice
      . intro hone t' ht' _
        rw [ht] at ht'
        cases ht'
        exact hone
    have hgrow := length_push s t
    rw [hfresh]
    obtain ⟨hearly, hnone, hstrength⟩ | ⟨_, hweighed, hlate⟩ := hrest
    . constructor
      . intro hafter hlength hne
        have hzero : (s.onEvent ev).strength = 0 := hafter.2 hnone
        exact absurd (hstrength ▸ hzero) hne
      . intro hone
        have hzero : s.strength = 0 := by
          by_contra hne
          cases hearly with
          | inl hshort => exact hne (h (by omega))
          | inr hweighed =>
            by_cases hlength : 2 ≤ (s.push t).1.length
            . exact hweighed (hone hlength hne)
            . exact hne (h (by omega))
        exact Signal.contract_of_zero (hstrength.trans hzero)
    . exact ⟨fun _ _ _ => hweighed, fun _ => hlate⟩

def run (window : Nat) (threshold : Int) (events : List MarketEvent) : TickMomentumStrategy :=
  events.foldl onEvent { window := window, threshold := threshold }

theorem run_short (window : Nat) (threshold : Int) (events : List MarketEvent)
    : Short (run window threshold events) := by
  induction events using List.reverseRecOn with
  | nil =>
    intro _
    rfl
  | append_singleton events ev ih =>
    unfold run at ih ⊢
    rw [List.foldl_append]
    exact ih.onEvent ev

theorem run_contract (window : Nat) (threshold : Int) (events : List MarketEvent)
    : (∀ pre, pre <+: events → (run window threshold pre).signal.Contract) ↔
        Run.Along (fun s ev => some (onEvent s ev)) Fresh { window := window, threshold := threshold } events := by
  let p : TickMomentumStrategy → Prop := fun s => Short s ∧ s.signal.Contract
  have hgood : ∀ s ev, p s → (p (onEvent s ev) ↔ Fresh s ev) := by
    intro s ev hp
    rw [← onEvent_contract hp.1 hp.2 ev]
    exact ⟨fun h => h.2, fun h => ⟨hp.1.onEvent ev, h⟩⟩
  have hinit : p { window := window, threshold := threshold } := ⟨fun _ => rfl, Signal.contract_of_zero rfl⟩
  rw [← Run.along_iff hgood hinit]
  constructor
  . intro h pre hpre
    exact ⟨run_short window threshold pre, h pre hpre⟩
  . intro h pre hpre
    exact (h pre hpre).2

end TickMomentumStrategy

/--
The flow of orders always keeps the contract. The others keep it in every state of a run exactly if no step of the run
meets its defect.
-/
theorem signal_contract {threshold th : Int} (hthreshold : 1 ≤ threshold) (hth : 0 ≤ th ∧ th ≤ 10000)
    : (∀ calls, (OrderFlowImbalanceStrategy.run threshold calls).signal.Contract) ∧
      (∀ snapshots, (∀ pre, pre <+: snapshots → (OrderBookImbalanceStrategy.run th pre).signal.Contract) ↔
        ∀ b ∈ snapshots, OrderBookImbalanceStrategy.Decided th b) ∧
      (∀ window limit events,
        (∀ pre, pre <+: events → (VolumeBreakoutStrategy.run window limit pre).signal.Contract) ↔
          Run.Along (fun s ev => some (VolumeBreakoutStrategy.onEvent s ev)) VolumeBreakoutStrategy.Fits
            { window := window, threshold := limit } events) ∧
      (∀ window events,
        (∀ pre, pre <+: events → ∃ s, PriceBreakoutStrategy.run window pre = some s ∧ s.signal.Contract) ↔
          ∀ ev ∈ events, PriceBreakoutStrategy.Priced ev → 0 < window) ∧
      ∀ window limit events,
        (∀ pre, pre <+: events → (TickMomentumStrategy.run window limit pre).signal.Contract) ↔
          Run.Along (fun s ev => some (TickMomentumStrategy.onEvent s ev)) TickMomentumStrategy.Fresh
            { window := window, threshold := limit } events := by
  refine ⟨?_, ?_, ?_, ?_, ?_⟩
  . exact OrderFlowImbalanceStrategy.run_contract (by omega)
  . exact OrderBookImbalanceStrategy.run_contract hth
  . exact VolumeBreakoutStrategy.run_contract
  . exact PriceBreakoutStrategy.run_contract
  . exact TickMomentumStrategy.run_contract

/--
A bid of 80 against an ask of 20 is an imbalance of 0.6, above the threshold of 0.3.
-/
theorem signal_contract_decided :
    (OrderBookImbalanceStrategy.run 3000 [⟨1, 999, 80, 1001, 20, 1⟩]).signal.Contract ∧
      OrderBookImbalanceStrategy.Decided 3000 ⟨1, 999, 80, 1001, 20, 1⟩ := by
  have hbook := (@signal_contract 500 3000 (by decide) (by decide)).2.1 [⟨1, 999, 80, 1001, 20, 1⟩]
  have hdecided : OrderBookImbalanceStrategy.Decided 3000 ⟨1, 999, 80, 1001, 20, 1⟩ := .inr (.inl (by decide))
  refine ⟨?_, hdecided⟩
  apply hbook.2 _ _ (List.prefix_refl _)
  intro b hb
  rw [List.mem_singleton.1 hb]
  exact hdecided

def tick (price : Int) (volume : Nat) : MarketEvent where
  seqId := 1
  locate := 1
  timestamp := 1
  body := .TRADE { side := .NONE, price := price, volume := volume, orderRef := 1 }

/--
A bid of 60 against an ask of 40 is an imbalance of 0.2, below the threshold of 0.3, and gives a strength of 6664
without a side. The momentum keeps its full strength when a trade without volume follows. A window of 0 is left with
an empty deque.
-/
theorem not_signal_contract :
    ¬ (OrderBookImbalanceStrategy.run 3000 [⟨1, 999, 60, 1001, 40, 1⟩]).signal.Contract ∧
      ¬ (TickMomentumStrategy.run 2 10 [tick 100 10, tick 200 10, tick 300 0]).signal.Contract ∧
      PriceBreakoutStrategy.run 0 [tick 100 10] = none := by
  refine ⟨by decide, by decide, by decide⟩

end NebulaXTrader
