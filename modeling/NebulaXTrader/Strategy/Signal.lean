import NebulaXTrader.Market.MarketEvent

/-!
This module contains the signals and the context that the strategies exchange with the framework, and
the model of `arbitrate_decide`, the weighted vote over the signals of all strategies.
-/

namespace NebulaXTrader

structure Signal where
  side : OrderSide := .NONE
  locate : Nat := 0
  price : Int := 0
  timestamp : Nat := 0
  strength : Int := 0
  deriving DecidableEq, Repr

namespace Signal

def kStrengthScale : Int := 10000

/--
`base_qty * (uint64_t)strength / kStrengthScale`.
-/
def quantity (sig : Signal) (baseQty : Nat) : Nat :=
  (baseQty * (sig.strength % 2 ^ 64).toNat % 2 ^ 64) / 10000

end Signal

/--
What the framework computes once per event for all strategies. The pointer to the book is only ever
compared with null.
-/
structure BookContext where
  hasBook : Bool := false
  side : OrderSide := .NONE
  mid : Int := -1
  bid : Int := -1
  bidVol : Nat := 0
  ask : Int := -1
  askVol : Nat := 0
  seq : Nat := 0
  deriving DecidableEq, Repr

structure ArbSignal where
  side : OrderSide := .NONE
  locate : Nat := 0
  strength : Int := 0
  seq : Nat := 0
  deriving DecidableEq, Repr

structure ArbDecision where
  dir : OrderSide
  locate : Nat
  strength : Int
  seq : Nat
  deriving DecidableEq, Repr

def OrderSide.sign (side : OrderSide) : Int :=
  match side with
  | .BUY => 1
  | .SELL => -1
  | .NONE => 0

/--
The vote: `none` stands for a decision with `act = false`.
-/
def arbitrateDecide (sigs : List ArbSignal) (weightsBp : Nat → Int) (primaryIdx : Nat)
    (thresholdBp : Int) : Option ArbDecision :=
  match sigs[primaryIdx]? with
  | none => none
  | some primary =>
    let net : Int := (sigs.zipIdx.map (fun s => s.1.side.sign * weightsBp s.2)).sum
    let dir := if net > thresholdBp then OrderSide.BUY else if net < -thresholdBp then .SELL else .NONE
    if dir = .NONE then
      none
    else
      let agreeing := sigs.zipIdx.filter (fun s => s.1.side = dir)
      let sumW : Int := (agreeing.map (fun s => weightsBp s.2)).sum
      let sumSW : Int := (agreeing.map (fun s => s.1.strength * weightsBp s.2)).sum
      some {
        dir := dir
        locate := primary.locate
        strength := if sumW > 0 then sumSW.tdiv sumW else 0
        seq := primary.seq
      }

end NebulaXTrader
