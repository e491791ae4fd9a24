import Mathlib.Algebra.BigOperators.Fin
import NebulaXTrader.Execution.Drawdown
import NebulaXTrader.Lib.Run

/-!
This module contains `mark` of the worker threads and `on_fill` of the report thread as sequences of single loads and
stores, and the theorem when the equity peak that they share is a high-water mark.
-/

namespace NebulaXTrader

namespace EquityPeak

open RiskManager (kMaxLocate Cell)

inductive Thread where
  | worker (n : Nat)
  | report
  deriving DecidableEq, Repr

/--
What a thread does next. The last four are the loop of `equity`, `store` is the comparison with the peak that was
loaded and the store behind it.
-/
inductive Pc where
  | idle
  | realize (symbolId : Nat) (profit : Int) (c : Cell)
  | storeQty (symbolId : Nat) (side : OrderSide) (c : Cell)
  | storeAvg (symbolId : Nat) (avgCost : Int)
  | loadRealized
  | loadQty (l : Nat) (eq : Int)
  | loadMark (l : Nat) (eq q : Int)
  | readAvg (l : Nat) (eq q mk : Int)
  | store (eq peak : Int)
  deriving DecidableEq, Repr

/--
`completed` are the equities that the finished calls of `update_equity` have computed.
-/
structure State where
  rm : RiskManager
  pcs : Thread → Pc := fun _ => .idle
  completed : List Int := []

inductive Label where
  | mark (n symbolId : Nat) (price : Int)
  | fill (order : Order) (filledQty : Nat)
  | run (t : Thread)
  deriving DecidableEq, Repr

def State.setPc (s : State) (t : Thread) (pc : Pc) : State := { s with pcs := Function.update s.pcs t pc }

def State.setCell (s : State) (symbolId : Nat) (c : Cell) : State := { s with rm := s.rm.setCell symbolId c }

variable (s : State)

def mark (n symbolId : Nat) (price : Int) : Option State :=
  match s.pcs (.worker n) with
  | .idle => some ((s.setCell symbolId { s.rm.cell symbolId with markPrice := price }).setPc (.worker n) .loadRealized)
  | _ => none

/--
The first load of `on_fill`. Only this thread writes the quantities and the costs.
-/
def fill (order : Order) (filledQty : Nat) : Option State :=
  match s.pcs .report with
  | .idle =>
    let c := s.rm.cell order.symbolId
    match order.side with
    | .BUY => some (s.setPc .report (.storeQty order.symbolId .BUY (c.bought order.price filledQty)))
    | .SELL =>
      some (s.setPc .report (.realize order.symbolId (c.profit order.price filledQty) (c.sold filledQty)))
    | .NONE => some (s.setPc .report .loadRealized)
  | _ => none

def finish (t : Thread) (eq peak : Int) : State :=
  let s := { s with completed := eq :: s.completed }.setPc t .idle
  if eq > peak then { s with rm := { s.rm with equityPeak := eq } } else s

def run (t : Thread) : Option State :=
  match s.pcs t with
  | .idle => none
  | .realize symbolId profit c =>
    some ({ s with rm := s.rm.realize profit }.setPc t (.storeQty symbolId .SELL c))
  | .storeQty symbolId side c =>
    let s := s.setCell symbolId { s.rm.cell symbolId with qty := c.qty }
    -- a sale touches the cost only when nothing is left
    some (s.setPc t (if side = .SELL ∧ c.qty ≠ 0 then .loadRealized else .storeAvg symbolId c.avgCost))
  | .storeAvg symbolId avgCost =>
    some ((s.setCell symbolId { s.rm.cell symbolId with avgCost := avgCost }).setPc t .loadRealized)
  | .loadRealized => some (s.setPc t (.loadQty 0 (s.rm.config.initialEquity + s.rm.realizedPnl)))
  | .loadQty l eq =>
    if l < kMaxLocate then
      some (s.setPc t (.loadMark l eq (toInt64 (s.rm.cell l).qty)))
    else
      some (s.setPc t (.store eq s.rm.equityPeak))
  | .loadMark l eq q =>
    let mk := (s.rm.cell l).markPrice
    some (s.setPc t (if q > 0 ∧ mk > 0 then .readAvg l eq q mk else .loadQty (l + 1) eq))
  | .readAvg l eq q mk => some (s.setPc t (.loadQty (l + 1) (eq + q * (mk - (s.rm.cell l).avgCost))))
  | .store eq peak => some (finish s t eq peak)

def step (l : Label) : Option State :=
  match l with
  | .mark n symbolId price => mark s n symbolId price
  | .fill order filledQty => fill s order filledQty
  | .run t => run s t

/--
The step does not lower the peak, and leaves it at or above every equity computed so far.
-/
def Rises (l : Label) : Prop :=
  ∀ s', step s l = some s' →
    s.rm.equityPeak ≤ s'.rm.equityPeak ∧ ∀ eq ∈ s'.completed, eq ≤ s'.rm.equityPeak

/--
A thread that is about to store its equity, because it is above the peak that was loaded, finds that no other thread
has meanwhile raised the peak above it.
-/
def Unraised (l : Label) : Prop :=
  match l with
  | .run t =>
    match s.pcs t with
    | .store eq peak => peak < eq → s.rm.equityPeak ≤ eq
    | _ => True
  | _ => True

/--
The steps that store no peak.
-/
structure Keeps (s s' : State) : Prop where
  peak : s'.rm.equityPeak = s.rm.equityPeak
  completed : s'.completed = s.completed
  loaded : ∀ t eq peak, s'.pcs t = .store eq peak → s.pcs t = .store eq peak ∨ peak = s.rm.equityPeak

structure Inv (s : State) : Prop where
  above : ∀ eq ∈ s.completed, eq ≤ s.rm.equityPeak
  loaded : ∀ t eq peak, s.pcs t = .store eq peak → peak ≤ s.rm.equityPeak

variable {s} {s' : State} {t : Thread} {l : Label}

theorem Keeps.of_pcs {pc : Pc} (hpcs : s'.pcs = Function.update s.pcs t pc)
    (hpeak : s'.rm.equityPeak = s.rm.equityPeak) (hdone : s'.completed = s.completed)
    (hpc : ∀ eq peak, pc = .store eq peak → peak = s.rm.equityPeak) : Keeps s s' := by
  refine ⟨hpeak, hdone, ?_⟩
  intro t' eq peak h
  rw [hpcs] at h
  by_cases heq : t' = t
  . rw [heq, Function.update_self] at h
    exact .inr (hpc eq peak h)
  . rw [Function.update_of_ne heq] at h
    exact .inl h

theorem run_cases (h : run s t = some s')
    : (∃ eq peak, s.pcs t = .store eq peak ∧ s' = finish s t eq peak) ∨
      ((∀ eq peak, s.pcs t ≠ .store eq peak) ∧ Keeps s s') := by
  unfold run at h
  cases hpc : s.pcs t with
  | store eq peak =>
    rw [hpc] at h
    cases h
    exact .inl ⟨eq, peak, rfl, rfl⟩
  | idle =>
    rw [hpc] at h
    cases h
  | realize symbolId profit c =>
    rw [hpc] at h
    cases h
    exact .inr ⟨by simp, Keeps.of_pcs rfl rfl rfl (by simp)⟩
  | storeQty symbolId side c =>
    rw [hpc] at h
    cases h
    refine .inr ⟨by simp, Keeps.of_pcs rfl rfl rfl ?_⟩
    intro eq peak hne
    split at hne
    . cases hne
    . cases hne
  | storeAvg symbolId avgCost =>
    rw [hpc] at h
    cases h
    exact .inr ⟨by simp, Keeps.of_pcs rfl rfl rfl (by simp)⟩
  | loadRealized =>
    rw [hpc] at h
    cases h
    exact .inr ⟨by simp, Keeps.of_pcs rfl rfl rfl (by simp)⟩
  | loadQty l eq =>
    rw [hpc] at h
    refine .inr ⟨by simp, ?_⟩
    dsimp only at h
    split at h
    . cases h
      exact Keeps.of_pcs rfl rfl rfl (by simp)
    . cases h
      -- the peak is loaded here
      refine Keeps.of_pcs rfl rfl rfl ?_
      intro eq' peak hstore
      cases hstore
      rfl
  | loadMark l eq q =>
    rw [hpc] at h
    cases h
    refine .inr ⟨by simp, Keeps.of_pcs rfl rfl rfl ?_⟩
    intro eq' peak hne
    split at hne
    . cases hne
    . cases hne
  | readAvg l eq q mk =>
    rw [hpc] at h
    cases h
    exact .inr ⟨by simp, Keeps.of_pcs rfl rfl rfl (by simp)⟩

theorem step_cases (h : step s l = some s')
    : (∃ t eq peak, l = .run t ∧ s.pcs t = .store eq peak ∧ s' = finish s t eq peak) ∨
      ((∀ t eq peak, l = .run t → s.pcs t ≠ .store eq peak) ∧ Keeps s s') := by
  cases l with
  | mark n symbolId price =>
    have h : mark s n symbolId price = some s' := h
    unfold mark at h
    split at h
    . cases h
      exact .inr ⟨by simp, Keeps.of_pcs rfl rfl rfl (by simp)⟩
    . cases h
  | fill order filledQty =>
    have h : fill s order filledQty = some s' := h
    unfold fill at h
    split at h
    . dsimp only at h
      split at h
      . cases h
        exact .inr ⟨by simp, Keeps.of_pcs rfl rfl rfl (by simp)⟩
      . cases h
        exact .inr ⟨by simp, Keeps.of_pcs rfl rfl rfl (by simp)⟩
      . cases h
        exact .inr ⟨by simp, Keeps.of_pcs rfl rfl rfl (by simp)⟩
    . cases h
  | run t =>
    cases run_cases h with
    | inl hstore =>
      obtain ⟨eq, peak, hpc, heq⟩ := hstore
      exact .inl ⟨t, eq, peak, rfl, hpc, heq⟩
    | inr hkeeps =>
      refine .inr ⟨?_, hkeeps.2⟩
      intro t' eq peak hl
      cases hl
      exact hkeeps.1 eq peak

theorem Inv.of_keeps (h : Inv s) (hk : Keeps s s') : Inv s' := by
  constructor
  . intro eq hmem
    rw [hk.completed] at hmem
    rw [hk.peak]
    exact h.above eq hmem
  . intro t eq peak hpc
    rw [hk.peak]
    cases hk.loaded t eq peak hpc with
    | inl hold => exact h.loaded t eq peak hold
    | inr hnew => exact le_of_eq hnew

theorem finish_peak (s : State) (t : Thread) (eq peak : Int)
    : (finish s t eq peak).rm.equityPeak = if eq > peak then eq else s.rm.equityPeak := by
  unfold finish
  dsimp only
  split
  . rfl
  . rfl

theorem finish_completed (s : State) (t : Thread) (eq peak : Int)
    : (finish s t eq peak).completed = eq :: s.completed := by
  unfold finish
  dsimp only
  split
  . rfl
  . rfl

theorem finish_pcs (s : State) (t : Thread) (eq peak : Int)
    : (finish s t eq peak).pcs = Function.update s.pcs t .idle := by
  unfold finish
  dsimp only
  split
  . rfl
  . rfl

theorem Inv.of_finish (h : Inv s) {eq peak : Int} (hpc : s.pcs t = .store eq peak)
    (hun : peak < eq → s.rm.equityPeak ≤ eq)
    : s.rm.equityPeak ≤ (finish s t eq peak).rm.equityPeak ∧ Inv (finish s t eq peak) := by
  have hloaded := h.loaded t eq peak hpc
  have hrise : s.rm.equityPeak ≤ (finish s t eq peak).rm.equityPeak ∧
      eq ≤ (finish s t eq peak).rm.equityPeak := by
    rw [finish_peak]
    split
    . next hlt => exact ⟨hun hlt, le_refl eq⟩
    . next hle => exact ⟨le_refl _, by omega⟩
  refine ⟨hrise.1, ?_, ?_⟩
  . intro eq' hmem
    rw [finish_completed] at hmem
    cases List.mem_cons.1 hmem with
    | inl heq =>
      rw [heq]
      exact hrise.2
    | inr hold => exact le_trans (h.above eq' hold) hrise.1
  . intro t' eq' peak' hpc'
    rw [finish_pcs] at hpc'
    by_cases ht : t' = t
    . rw [ht, Function.update_self] at hpc'
      cases hpc'
    . rw [Function.update_of_ne ht] at hpc'
      exact le_trans (h.loaded t' eq' peak' hpc') hrise.1

theorem Inv.next (h : Inv s) (hun : Unraised s l) (hstep : step s l = some s')
    : s.rm.equityPeak ≤ s'.rm.equityPeak ∧ Inv s' := by
  cases step_cases hstep with
  | inl hstore =>
    obtain ⟨t, eq, peak, hl, hpc, heq⟩ := hstore
    rw [hl] at hun
    unfold Unraised at hun
    dsimp only at hun
    rw [hpc] at hun
    rw [heq]
    exact h.of_finish hpc hun
  | inr hkeeps => exact ⟨le_of_eq hkeeps.2.peak.symm, h.of_keeps hkeeps.2⟩

theorem Rises.unraised (h : Rises s l) : Unraised s l := by
  unfold Unraised
  split
  . next t =>
    split
    . next eq peak hpc =>
      intro hlt
      have hstep : step s (.run t) = some (finish s t eq peak) := by
        show run s t = _
        unfold run
        rw [hpc]
      have hrise := (h _ hstep).1
      rw [finish_peak, if_pos hlt] at hrise
      exact hrise
    . trivial
  . trivial

theorem Inv.rises_iff (h : Inv s) (labels : List Label)
    : Run.Along step Rises s labels ↔ Run.Along step Unraised s labels := by
  induction labels generalizing s with
  | nil => exact ⟨fun _ => trivial, fun _ => trivial⟩
  | cons l labels ih =>
    unfold Run.Along
    constructor
    . intro hrun
      have hun := hrun.1.unraised
      refine ⟨hun, ?_⟩
      intro s' hstep
      exact (ih (h.next hun hstep).2).1 (hrun.2 s' hstep)
    . intro hrun
      refine ⟨?_, ?_⟩
      . intro s' hstep
        obtain ⟨hle, hinv⟩ := h.next hrun.1 hstep
        exact ⟨hle, hinv.above⟩
      . intro s' hstep
        exact (ih (h.next hrun.1 hstep).2).2 (hrun.2 s' hstep)

/--
The peak is a high-water mark along a run if and only if no thread stores an equity below a peak that another thread
has stored since it loaded the peak.
-/
theorem highWater_iff (rm : RiskManager) (labels : List Label)
    : Run.Along step Rises { rm := rm } labels ↔ Run.Along step Unraised { rm := rm } labels := by
  apply Inv.rises_iff
  constructor
  . intro eq hmem
    cases hmem
  . intro t eq peak hpc
    cases hpc

/-!
A thread that nobody interrupts computes the equity of the risk manager.
-/

def cellSteps (c : Cell) : Nat := if toInt64 c.qty > 0 ∧ c.markPrice > 0 then 3 else 2

def stepsTo (rm : RiskManager) (n : Nat) : Nat :=
  match n with
  | 0 => 0
  | n + 1 => stepsTo rm n + cellSteps (rm.cell n)

def floatingTo (rm : RiskManager) (n : Nat) : Int := ∑ l ∈ Finset.range n, (rm.cell l).floating

theorem setPc_setPc (s : State) (t : Thread) (a b : Pc) : (s.setPc t a).setPc t b = s.setPc t b := by
  unfold State.setPc
  dsimp only
  rw [Function.update_idem]

theorem setPc_self (s : State) (t : Thread) (a : Pc) : (s.setPc t a).pcs t = a := Function.update_self _ _ _

theorem setPc_rm (s : State) (t : Thread) (a : Pc) : (s.setPc t a).rm = s.rm := rfl

theorem exec_cell {n : Nat} {eq : Int} (hpc : s.pcs t = .loadQty n eq) (hn : n < kMaxLocate)
    : Run.exec step s (List.replicate (cellSteps (s.rm.cell n)) (.run t)) =
        some (s.setPc t (.loadQty (n + 1) (eq + (s.rm.cell n).floating))) := by
  generalize hc : s.rm.cell n = c
  have hqty : step s (.run t) = some (s.setPc t (.loadMark n eq (toInt64 c.qty))) := by
    show run s t = _
    unfold run
    rw [hpc, ← hc]
    exact if_pos hn
  have hmark : step (s.setPc t (.loadMark n eq (toInt64 c.qty))) (.run t) =
      some (s.setPc t (if toInt64 c.qty > 0 ∧ c.markPrice > 0 then .readAvg n eq (toInt64 c.qty) c.markPrice
        else .loadQty (n + 1) eq)) := by
    show run _ t = _
    unfold run
    rw [setPc_self]
    dsimp only
    rw [setPc_setPc, setPc_rm, hc]
  unfold cellSteps Cell.floating
  by_cases hheld : toInt64 c.qty > 0 ∧ c.markPrice > 0
  . rw [if_pos hheld] at hmark
    rw [if_pos hheld, if_pos hheld]
    have havg : step (s.setPc t (.readAvg n eq (toInt64 c.qty) c.markPrice)) (.run t) =
        some (s.setPc t (.loadQty (n + 1) (eq + toInt64 c.qty * (c.markPrice - c.avgCost)))) := by
      show run _ t = _
      unfold run
      rw [setPc_self]
      dsimp only
      rw [setPc_setPc, setPc_rm, hc]
    simp only [List.replicate, Run.exec, hqty, hmark, havg]
  . rw [if_neg hheld] at hmark
    rw [if_neg hheld, if_neg hheld, Int.add_zero]
    simp only [List.replicate, Run.exec, hqty, hmark]

theorem exec_cells {n : Nat} {eq : Int} (hpc : s.pcs t = .loadQty 0 eq) (hn : n ≤ kMaxLocate)
    : Run.exec step s (List.replicate (stepsTo s.rm n) (.run t)) =
        some (s.setPc t (.loadQty n (eq + floatingTo s.rm n))) := by
  induction n with
  | zero =>
    have hsame : s.setPc t (.loadQty 0 (eq + floatingTo s.rm 0)) = s := by
      unfold State.setPc floatingTo
      rw [Finset.sum_range_zero, Int.add_zero, ← hpc, Function.update_eq_self]
    rw [hsame]
    rfl
  | succ n ih =>
    have hcell := @exec_cell (s.setPc t (.loadQty n (eq + floatingTo s.rm n))) t n _ (setPc_self _ _ _) hn
    rw [setPc_rm, setPc_setPc, Int.add_assoc] at hcell
    have hsum : floatingTo s.rm (n + 1) = floatingTo s.rm n + (s.rm.cell n).floating :=
      Finset.sum_range_succ _ _
    unfold stepsTo
    rw [List.replicate_add, Run.exec_append, ih (by omega), hsum]
    exact hcell

theorem floatingTo_kMaxLocate (rm : RiskManager)
    : floatingTo rm kMaxLocate = ∑ l, (rm.cells.get {} l).floating := by
  unfold floatingTo
  rw [← Fin.sum_univ_eq_sum_range (fun l => (rm.cell l).floating) kMaxLocate]
  apply Finset.sum_congr rfl
  intro l _
  unfold RiskManager.cell
  rw [RiskManager.locateIdx_of_lt l.2]

def equitySteps (rm : RiskManager) : Nat := 1 + stepsTo rm kMaxLocate + 1

theorem exec_equity (hpc : s.pcs t = .loadRealized)
    : Run.exec step s (List.replicate (equitySteps s.rm) (.run t)) =
        some (s.setPc t (.store s.rm.equity s.rm.equityPeak)) := by
  -- the kernel must not count up to the number of the cells
  obtain ⟨n, hn⟩ : ∃ n, kMaxLocate = n := ⟨_, rfl⟩
  generalize heq : s.rm.config.initialEquity + s.rm.realizedPnl = eq
  have hfirst : step s (.run t) = some (s.setPc t (.loadQty 0 eq)) := by
    show run s t = _
    unfold run
    rw [hpc, ← heq]
  have hcells := @exec_cells (s.setPc t (.loadQty 0 eq)) t n eq (setPc_self _ _ _) (le_of_eq hn.symm)
  rw [setPc_rm, setPc_setPc] at hcells
  have hpeak : step (s.setPc t (.loadQty n (eq + floatingTo s.rm n))) (.run t) =
      some (s.setPc t (.store (eq + floatingTo s.rm n) s.rm.equityPeak)) := by
    show run _ t = _
    unfold run
    rw [setPc_self]
    dsimp only
    rw [if_neg (by omega), setPc_setPc, setPc_rm]
  have hequity : s.rm.equity = eq + floatingTo s.rm n := by
    rw [s.rm.equity_eq_sum, ← floatingTo_kMaxLocate, heq, hn]
  unfold equitySteps
  rw [hn, List.replicate_add, List.replicate_add, Run.exec_append, Run.exec_append]
  simp only [List.replicate_one, Run.exec, hfirst, Option.bind_some, hcells, hpeak, hequity]

def marked (s : State) (symbolId : Nat) (price : Int) : State :=
  s.setCell symbolId { s.rm.cell symbolId with markPrice := price }

/--
A whole `mark` up to its store.
-/
def markLabels (s : State) (n symbolId : Nat) (price : Int) : List Label :=
  .mark n symbolId price :: List.replicate (equitySteps (marked s symbolId price).rm) (.run (.worker n))

theorem exec_mark {n : Nat} (hpc : s.pcs (.worker n) = .idle) (symbolId : Nat) (price : Int)
    : let s₁ := marked s symbolId price
      Run.exec step s (markLabels s n symbolId price) =
        some (s₁.setPc (.worker n) (.store s₁.rm.equity s₁.rm.equityPeak)) := by
  intro s₁
  have hmark : step s (.mark n symbolId price) = some (s₁.setPc (.worker n) .loadRealized) := by
    show mark s n symbolId price = _
    unfold mark
    rw [hpc]
    rfl
  have hequity := @exec_equity (s₁.setPc (.worker n) .loadRealized) (.worker n) (setPc_self _ _ _)
  rw [setPc_rm, setPc_setPc] at hequity
  unfold markLabels Run.exec
  rw [hmark]
  exact hequity

def holding : RiskManager :=
  ((RiskManager.init {}).setCell 7 { qty := 10, avgCost := 100 }).setCell 8 { qty := 10, avgCost := 100 }

def firstMark : State := (marked { rm := holding } 7 110).setPc (.worker 1) (.store 100 0)

def secondMark : State := (marked firstMark 8 110).setPc (.worker 2) (.store 200 0)

/--
The second worker marks and stores its equity while the first one is about to store an older one.
-/
def overtaken : List Label :=
  markLabels { rm := holding } 1 7 110 ++ markLabels firstMark 2 8 110 ++ [.run (.worker 2)]

theorem exec_overtaken : Run.exec step { rm := holding } overtaken = some (finish secondMark (.worker 2) 200 0) := by
  have hfirst : Run.exec step { rm := holding } (markLabels { rm := holding } 1 7 110) = some firstMark :=
    exec_mark rfl 7 110
  have hsecond : Run.exec step firstMark (markLabels firstMark 2 8 110) = some secondMark :=
    exec_mark rfl 8 110
  have hstore : step secondMark (.run (.worker 2)) = some (finish secondMark (.worker 2) 200 0) := rfl
  unfold overtaken
  rw [Run.exec_append, Run.exec_append, hfirst, Option.bind_some, hsecond, Option.bind_some]
  simp only [Run.exec, hstore]

theorem not_rises : ¬ Run.Along step Rises { rm := holding } (overtaken ++ [.run (.worker 1)]) := by
  intro h
  have hlast : Run.Along step Rises (finish secondMark (.worker 2) 200 0) [.run (.worker 1)] :=
    h.append_right exec_overtaken
  -- the peak of 200 is replaced by 100
  have hfall := (hlast.1 (finish (finish secondMark (.worker 2) 200 0) (.worker 1) 100 0) rfl).1
  have hbefore : (finish secondMark (.worker 2) 200 0).rm.equityPeak = 200 := rfl
  have hafter := finish_peak (finish secondMark (.worker 2) 200 0) (.worker 1) 100 0
  rw [if_pos (by decide)] at hafter
  rw [hbefore, hafter] at hfall
  exact absurd hfall (by decide)

end EquityPeak

end NebulaXTrader
