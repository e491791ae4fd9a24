import Mathlib.Data.List.FinRange
import Mathlib.Logic.Equiv.Defs
import NebulaXTrader.Lib.WeightedMean
import NebulaXTrader.Strategy.Signal

/-!
This module contains the theorem that `arbitrate_decide` is a weighted vote: what it decides is supported by a
signal of positive weight, and it treats the two directions and the order of the signals alike.
-/

namespace NebulaXTrader

def OrderSide.swap (side : OrderSide) : OrderSide :=
  match side with
  | .BUY => .SELL
  | .SELL => .BUY
  | .NONE => .NONE

def ArbSignal.swap (s : ArbSignal) : ArbSignal := { s with side := s.side.swap }

def ArbDecision.swap (d : ArbDecision) : ArbDecision := { d with dir := d.dir.swap }

namespace Arbitration

abbrev Ballot := ArbSignal × Int

def ballots (sigs : List ArbSignal) (w : Nat → Int) : List Ballot :=
  sigs.zipIdx.map (fun s => (s.1, w s.2))

def net (bs : List Ballot) : Int := (bs.map (fun b => b.1.side.sign * b.2)).sum

def direction (net th : Int) : OrderSide :=
  if net > th then .BUY else if net < -th then .SELL else .NONE

def agreeing (dir : OrderSide) (bs : List Ballot) : List Ballot := bs.filter (fun b => b.1.side = dir)

/--
The mean over the signals of the direction, or 0 when they have no weight.
-/
def strength (bs : List Ballot) : Int :=
  if WeightedMean.weight (fun b => b.2) bs > 0 then
    WeightedMean.mean (fun b => b.1.strength) (fun b => b.2) bs
  else
    0

def vote (primary : ArbSignal) (bs : List Ballot) (th : Int) : Option ArbDecision :=
  if direction (net bs) th = .NONE then
    none
  else
    some {
      dir := direction (net bs) th
      locate := primary.locate
      strength := strength (agreeing (direction (net bs) th) bs)
      seq := primary.seq
    }

theorem arbitrateDecide_eq (sigs : List ArbSignal) (w : Nat → Int) (p : Nat) (th : Int)
    : arbitrateDecide sigs w p th = sigs[p]?.bind (fun primary => vote primary (ballots sigs w) th) := by
  unfold arbitrateDecide vote net agreeing strength WeightedMean.mean WeightedMean.weight WeightedMean.total
    ballots direction
  cases sigs[p]? with
  | none => rfl
  | some primary =>
    simp only [Option.bind_some, List.map_map, List.filter_map, Function.comp_def]

section

variable {th n n' : Int}

theorem direction_eq_buy : direction n th = .BUY ↔ n > th := by
  unfold direction
  split
  . simpa
  . next hbuy =>
    split
    . simp [hbuy]
    . simp [hbuy]

theorem direction_neg (hth : 0 ≤ th) : direction (-n) th = (direction n th).swap := by
  unfold direction
  rcases lt_trichotomy n 0 with hneg | hzero | hpos
  . by_cases hsell : n < -th
    . rw [if_pos (by omega), if_neg (by omega), if_pos hsell]
      rfl
    . rw [if_neg (by omega), if_neg (by omega), if_neg (by omega), if_neg hsell]
      rfl
  . rw [if_neg (by omega), if_neg (by omega), if_neg (by omega), if_neg (by omega)]
    rfl
  . by_cases hbuy : n > th
    . rw [if_neg (by omega), if_pos (by omega), if_pos hbuy]
      rfl
    . rw [if_neg (by omega), if_neg (by omega), if_neg hbuy, if_neg (by omega)]
      rfl

end

section

variable {primary : ArbSignal} {bs bs' : List Ballot} {th : Int} {d : ArbDecision}

theorem vote_eq_some (h : vote primary bs th = some d)
    : d.dir = direction (net bs) th ∧ d.dir ≠ .NONE ∧ d.strength = strength (agreeing d.dir bs) := by
  unfold vote at h
  split at h
  . cases h
  . next hact =>
    cases h
    exact ⟨rfl, hact, rfl⟩

theorem sign_mul_sign_le (x y : OrderSide) : x.sign * y.sign ≤ if y = x then 1 else 0 := by
  cases x with
  | BUY => cases y <;> decide
  | SELL => cases y <;> decide
  | NONE => cases y <;> decide

theorem sign_mul_net_le (dir : OrderSide) (hw : ∀ b ∈ bs, 0 ≤ b.2)
    : dir.sign * net bs ≤ WeightedMean.weight (fun b => b.2) (agreeing dir bs) := by
  induction bs with
  | nil =>
    show dir.sign * 0 ≤ 0
    omega
  | cons b bs ih =>
    have hrest := ih (fun c hc => hw c (List.mem_cons_of_mem _ hc))
    have hb := hw b (List.mem_cons_self ..)
    have hsign := sign_mul_sign_le dir b.1.side
    have hnet : net (b :: bs) = b.1.side.sign * b.2 + net bs := by
      unfold net
      rw [List.map_cons, List.sum_cons]
    rw [hnet, Int.mul_add, ← Int.mul_assoc]
    unfold agreeing at hrest ⊢
    by_cases hdir : b.1.side = dir
    . rw [if_pos hdir] at hsign
      have hvote := Int.mul_le_mul_of_nonneg_right hsign hb
      have hweight : WeightedMean.weight (fun c => c.2) (b :: bs.filter (fun c => c.1.side = dir)) =
          b.2 + WeightedMean.weight (fun c => c.2) (bs.filter (fun c => c.1.side = dir)) := by
        unfold WeightedMean.weight
        rw [List.map_cons, List.sum_cons]
      rw [List.filter_cons_of_pos (by simpa using hdir), hweight]
      omega
    . rw [if_neg hdir] at hsign
      have hvote := Int.mul_le_mul_of_nonneg_right hsign hb
      rw [List.filter_cons_of_neg (by simpa using hdir)]
      omega

theorem weight_pos (hw : ∀ b ∈ bs, 0 ≤ b.2) (hth : 0 ≤ th) (hact : direction (net bs) th ≠ .NONE)
    : 0 < WeightedMean.weight (fun b => b.2) (agreeing (direction (net bs) th) bs) := by
  -- The signals of a direction that is decided have weight, because the net vote is at most their weight.
  apply Int.lt_of_lt_of_le _ (sign_mul_net_le _ hw)
  unfold direction at hact ⊢
  split
  . show 0 < 1 * net bs
    omega
  . next hbuy =>
    split
    . show 0 < -1 * net bs
      omega
    . next hsell => simp [hbuy, hsell] at hact

theorem strength_bounds (hw : ∀ b ∈ bs, 0 ≤ b.2) (hpos : 0 < WeightedMean.weight (fun b => b.2) bs)
    : (∃ b ∈ bs, 0 < b.2 ∧ b.1.strength ≤ strength bs) ∧ ∃ b ∈ bs, 0 < b.2 ∧ strength bs ≤ b.1.strength := by
  have hmean : strength bs = WeightedMean.mean (fun b => b.1.strength) (fun b => b.2) bs := if_pos hpos
  rw [hmean]
  constructor
  . exact WeightedMean.exists_le_mean hw hpos
  . exact WeightedMean.exists_mean_le hw hpos

theorem strength_mem {lo hi : Int} (hw : ∀ b ∈ bs, 0 ≤ b.2) (hlo : lo ≤ 0) (hhi : 0 ≤ hi)
    (hrange : ∀ b ∈ bs, lo ≤ b.1.strength ∧ b.1.strength ≤ hi) : lo ≤ strength bs ∧ strength bs ≤ hi := by
  by_cases hpos : 0 < WeightedMean.weight (fun b => b.2) bs
  . obtain ⟨⟨b, hb, _, hbLe⟩, ⟨c, hc, _, hcLe⟩⟩ := strength_bounds hw hpos
    constructor
    . exact Int.le_trans (hrange b hb).1 hbLe
    . exact Int.le_trans hcLe (hrange c hc).2
  . have hzero : strength bs = 0 := if_neg hpos
    rw [hzero]
    exact ⟨hlo, hhi⟩

theorem vote_perm (h : bs.Perm bs') (primary : ArbSignal) (th : Int) : vote primary bs th = vote primary bs' th := by
  have hnet : net bs = net bs' := (h.map _).sum_eq
  have hagree : ∀ dir, strength (agreeing dir bs) = strength (agreeing dir bs') := by
    intro dir
    have hfilter : (agreeing dir bs).Perm (agreeing dir bs') := h.filter _
    unfold strength WeightedMean.mean WeightedMean.weight WeightedMean.total
    rw [(hfilter.map _).sum_eq, (hfilter.map (fun b => b.1.strength * b.2)).sum_eq]
  unfold vote
  rw [hnet, hagree]

def swapBallot (b : Ballot) : Ballot := (b.1.swap, b.2)

theorem sign_swap (side : OrderSide) : side.swap.sign = -side.sign := by
  cases side with
  | BUY => rfl
  | SELL => rfl
  | NONE => rfl

theorem swap_eq_iff (x y : OrderSide) : x.swap = y.swap ↔ x = y := by
  cases x with
  | BUY => cases y <;> decide
  | SELL => cases y <;> decide
  | NONE => cases y <;> decide

theorem net_swap (bs : List Ballot) : net (bs.map swapBallot) = -net bs := by
  unfold net
  rw [List.map_map]
  induction bs with
  | nil => rfl
  | cons b bs ih =>
    rw [List.map_cons, List.sum_cons, List.map_cons, List.sum_cons, ih]
    show b.1.side.swap.sign * b.2 + _ = _
    rw [sign_swap, neg_mul, neg_add]

theorem agreeing_swap (dir : OrderSide) (bs : List Ballot)
    : agreeing dir.swap (bs.map swapBallot) = (agreeing dir bs).map swapBallot := by
  unfold agreeing
  rw [List.filter_map]
  congr 1
  apply List.filter_congr
  intro b _
  show decide (b.1.side.swap = dir.swap) = _
  simp only [swap_eq_iff]

theorem strength_swap (bs : List Ballot) : strength (bs.map swapBallot) = strength bs := by
  unfold strength WeightedMean.mean WeightedMean.weight WeightedMean.total
  simp only [List.map_map, Function.comp_def]
  rfl

theorem vote_swap (hth : 0 ≤ th) (primary : ArbSignal) (bs : List Ballot)
    : vote primary.swap (bs.map swapBallot) th = (vote primary bs th).map ArbDecision.swap := by
  unfold vote
  rw [net_swap, direction_neg hth, agreeing_swap, strength_swap]
  have hnone : (direction (net bs) th).swap = .NONE ↔ direction (net bs) th = .NONE := swap_eq_iff _ .NONE
  simp only [hnone]
  split
  . rfl
  . rfl

end

section

variable {sigs : List ArbSignal} {w : Nat → Int} {p : Nat} {th : Int} {d : ArbDecision}

theorem mem_ballots {b : Ballot} : b ∈ ballots sigs w ↔ ∃ i, ∃ hi : i < sigs.length, b = (sigs[i], w i) := by
  unfold ballots
  constructor
  . intro hb
    obtain ⟨s, hs, rfl⟩ := List.mem_map.1 hb
    obtain ⟨hlt, heq⟩ := List.mem_zipIdx' hs
    exact ⟨s.2, hlt, by rw [heq]⟩
  . rintro ⟨i, hi, rfl⟩
    apply List.mem_map.2
    exact ⟨(sigs[i], i), List.mk_mem_zipIdx_iff_getElem?.2 (List.getElem?_eq_getElem hi), rfl⟩

theorem ballots_nonneg (hw : ∀ i < sigs.length, 0 ≤ w i) : ∀ b ∈ ballots sigs w, 0 ≤ b.2 := by
  intro b hb
  obtain ⟨i, hi, rfl⟩ := mem_ballots.1 hb
  exact hw i hi

/--
The signal votes for the direction, with weight.
-/
def Supports (sigs : List ArbSignal) (w : Nat → Int) (dir : OrderSide) (s : ArbSignal) : Prop :=
  ∃ i, sigs[i]? = some s ∧ 0 < w i ∧ s.side = dir

theorem supports_of_mem {dir : OrderSide} {b : Ballot} (hb : b ∈ agreeing dir (ballots sigs w)) (hpos : 0 < b.2)
    : Supports sigs w dir b.1 := by
  obtain ⟨hmem, hside⟩ := List.mem_filter.1 hb
  obtain ⟨i, hi, rfl⟩ := mem_ballots.1 hmem
  exact ⟨i, List.getElem?_eq_getElem hi, hpos, by simpa using hside⟩

theorem decision_supported (hw : ∀ i < sigs.length, 0 ≤ w i) (hth : 0 ≤ th)
    (h : arbitrateDecide sigs w p th = some d)
    : (∃ s, Supports sigs w d.dir s ∧ s.strength ≤ d.strength) ∧
      ∃ s, Supports sigs w d.dir s ∧ d.strength ≤ s.strength := by
  rw [arbitrateDecide_eq] at h
  obtain ⟨primary, _, hvote⟩ := Option.bind_eq_some_iff.1 h
  obtain ⟨hdir, hact, hstrength⟩ := vote_eq_some hvote
  have hballots := ballots_nonneg hw
  have hagree : ∀ b ∈ agreeing d.dir (ballots sigs w), 0 ≤ b.2 := fun b hb => hballots b (List.mem_of_mem_filter hb)
  have hpos := weight_pos hballots hth (hdir ▸ hact)
  rw [← hdir] at hpos
  obtain ⟨⟨lo, hlo, hloPos, hloLe⟩, ⟨hi, hhi, hhiPos, hhiLe⟩⟩ := strength_bounds hagree hpos
  rw [hstrength]
  exact ⟨⟨lo.1, supports_of_mem hlo hloPos, hloLe⟩, ⟨hi.1, supports_of_mem hhi hhiPos, hhiLe⟩⟩

theorem decision_dir (h : arbitrateDecide sigs w p th = some d) : d.dir ≠ .NONE := by
  rw [arbitrateDecide_eq] at h
  obtain ⟨primary, _, hvote⟩ := Option.bind_eq_some_iff.1 h
  exact (vote_eq_some hvote).2.1

theorem decision_range {lo hi : Int} (hw : ∀ i < sigs.length, 0 ≤ w i) (hlo : lo ≤ 0) (hhi : 0 ≤ hi)
    (hrange : ∀ s ∈ sigs, lo ≤ s.strength ∧ s.strength ≤ hi) (h : arbitrateDecide sigs w p th = some d)
    : lo ≤ d.strength ∧ d.strength ≤ hi := by
  -- Also when the threshold is negative, and a direction without weight is decided with strength 0.
  rw [arbitrateDecide_eq] at h
  obtain ⟨primary, _, hvote⟩ := Option.bind_eq_some_iff.1 h
  rw [(vote_eq_some hvote).2.2]
  apply strength_mem _ hlo hhi
  . intro b hb
    obtain ⟨i, hi', rfl⟩ := mem_ballots.1 (List.mem_of_mem_filter hb)
    exact hrange _ (List.getElem_mem hi')
  . intro b hb
    exact ballots_nonneg hw b (List.mem_of_mem_filter hb)

theorem arbitrateDecide_swap (hth : 0 ≤ th) (sigs : List ArbSignal) (w : Nat → Int) (p : Nat)
    : arbitrateDecide (sigs.map ArbSignal.swap) w p th = (arbitrateDecide sigs w p th).map ArbDecision.swap := by
  have hballots : ballots (sigs.map ArbSignal.swap) w = (ballots sigs w).map swapBallot := by
    unfold ballots
    rw [List.zipIdx_map, List.map_map, List.map_map]
    rfl
  rw [arbitrateDecide_eq, arbitrateDecide_eq, List.getElem?_map, hballots]
  cases sigs[p]? with
  | none => rfl
  | some primary => exact vote_swap hth primary _

/--
The signal at `i` moves to `σ⁻¹ i`, and its weight with it.
-/
def permute (sigs : List ArbSignal) (σ : Equiv.Perm (Fin sigs.length)) : List ArbSignal :=
  List.ofFn (fun i => sigs[σ i])

def permuteWeights (sigs : List ArbSignal) (w : Nat → Int) (σ : Equiv.Perm (Fin sigs.length)) : Nat → Int :=
  fun i => if h : i < sigs.length then w (σ ⟨i, h⟩) else w i

theorem ballots_eq_ofFn (sigs : List ArbSignal) (w : Nat → Int)
    : ballots sigs w = List.ofFn (fun i : Fin sigs.length => (sigs[i], w i)) := by
  apply List.ext_getElem
  . simp [ballots]
  . intro i hi hi'
    simp [ballots]

theorem ballots_permute (sigs : List ArbSignal) (w : Nat → Int) (σ : Equiv.Perm (Fin sigs.length))
    : (ballots (permute sigs σ) (permuteWeights sigs w σ)).Perm (ballots sigs w) := by
  have hballots : ballots (permute sigs σ) (permuteWeights sigs w σ) =
      List.ofFn ((fun i : Fin sigs.length => (sigs[i], w i)) ∘ σ) := by
    apply List.ext_getElem
    . simp [ballots, permute]
    . intro i hi hi'
      have hlt : i < sigs.length := by simpa using hi'
      simp [ballots, permute, permuteWeights, hlt]
  rw [hballots, ballots_eq_ofFn]
  exact σ.ofFn_comp_perm _

theorem arbitrateDecide_permute (sigs : List ArbSignal) (w : Nat → Int) (σ : Equiv.Perm (Fin sigs.length))
    (p : Fin sigs.length)
    : arbitrateDecide (permute sigs σ) (permuteWeights sigs w σ) (σ.symm p) th = arbitrateDecide sigs w p th := by
  have hprimary : (permute sigs σ)[(σ.symm p : Nat)]? = sigs[(p : Nat)]? := by
    have hlt := (σ.symm p).isLt
    simp [permute, hlt]
  rw [arbitrateDecide_eq, arbitrateDecide_eq, hprimary]
  congr 1
  funext primary
  exact vote_perm (ballots_permute sigs w σ) primary th

theorem net_le_of_raise {i : Nat} {v : Int} {s : ArbSignal} (hi : sigs[i]? = some s) (hside : s.side = .BUY)
    (hv : w i ≤ v) : net (ballots sigs w) ≤ net (ballots sigs (Function.update w i v)) := by
  unfold net ballots
  rw [List.map_map, List.map_map]
  apply List.sum_le_sum
  intro x hx
  show x.1.side.sign * w x.2 ≤ x.1.side.sign * Function.update w i v x.2
  by_cases heq : x.2 = i
  . have hget := List.mk_mem_zipIdx_iff_getElem?.1 hx
    rw [heq, hi] at hget
    have hsame : s = x.1 := Option.some.inj hget
    rw [heq, Function.update_self, ← hsame, hside]
    show 1 * w i ≤ 1 * v
    omega
  . rw [Function.update_of_ne heq]

theorem buy_of_raise {i : Nat} {v : Int} {s : ArbSignal} (hi : sigs[i]? = some s) (hside : s.side = .BUY)
    (hv : w i ≤ v) (hbuy : (arbitrateDecide sigs w p th).map ArbDecision.dir = some .BUY)
    : (arbitrateDecide sigs (Function.update w i v) p th).map ArbDecision.dir = some .BUY := by
  rw [arbitrateDecide_eq] at hbuy ⊢
  cases hprimary : sigs[p]? with
  | none =>
    rw [hprimary] at hbuy
    cases hbuy
  | some primary =>
    rw [hprimary] at hbuy
    obtain ⟨d, hvote, hdir⟩ := Option.map_eq_some_iff.1 hbuy
    have hnet : direction (net (ballots sigs w)) th = .BUY := by
      rw [← (vote_eq_some hvote).1]
      exact hdir
    have hle := net_le_of_raise hi hside hv
    rw [direction_eq_buy] at hnet
    have hnet' : direction (net (ballots sigs (Function.update w i v))) th = .BUY := by
      rw [direction_eq_buy]
      omega
    show (vote primary (ballots sigs (Function.update w i v)) th).map ArbDecision.dir = some .BUY
    unfold vote
    rw [hnet']
    rfl

/--
The laws of a vote: its strength is between strengths of signals that support the direction, the two directions
and the positions of the signals are interchangeable, and more weight for BUY does not lose a BUY.
-/
structure Laws (sigs : List ArbSignal) (w : Nat → Int) (p : Fin sigs.length) (th : Int) : Prop where
  supported : ∀ d, arbitrateDecide sigs w p th = some d →
    (∃ s, Supports sigs w d.dir s ∧ s.strength ≤ d.strength) ∧ ∃ s, Supports sigs w d.dir s ∧ d.strength ≤ s.strength
  swapped : arbitrateDecide (sigs.map ArbSignal.swap) w p th = (arbitrateDecide sigs w p th).map ArbDecision.swap
  permuted : ∀ σ : Equiv.Perm (Fin sigs.length),
    arbitrateDecide (permute sigs σ) (permuteWeights sigs w σ) (σ.symm p) th = arbitrateDecide sigs w p th
  raised : ∀ (i : Fin sigs.length) (v : Int), sigs[i].side = .BUY → w i ≤ v →
    (arbitrateDecide sigs w p th).map ArbDecision.dir = some .BUY →
      (arbitrateDecide sigs (Function.update w i v) p th).map ArbDecision.dir = some .BUY

theorem weighted_vote (hw : ∀ i < sigs.length, 0 ≤ w i) (hth : 0 ≤ th) (p : Fin sigs.length) : Laws sigs w p th := by
  constructor
  . intro d hd
    exact decision_supported hw hth hd
  . exact arbitrateDecide_swap hth sigs w p
  . intro σ
    exact arbitrateDecide_permute sigs w σ p
  . intro i v hside hv hbuy
    exact buy_of_raise (List.getElem?_eq_getElem i.isLt) hside hv hbuy

/--
Buying with weight 1.0 against selling with weight 0.6, and a threshold of 0.4 in between.
-/
theorem weighted_vote_opposed :
    Laws [{ side := .BUY, locate := 1, strength := 10000 }, { side := .SELL, locate := 2, strength := 5000 }]
      (fun i => if i = 0 then 10000 else 6000) ⟨0, by decide⟩ 4000 := by
  apply weighted_vote
  . intro i _
    show 0 ≤ if i = 0 then (10000 : Int) else 6000
    split
    . decide
    . decide
  . decide

end

end Arbitration

end NebulaXTrader
