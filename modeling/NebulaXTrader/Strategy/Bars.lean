import Mathlib.Algebra.BigOperators.Group.List.Basic
import Mathlib.Data.UInt
import NebulaXTrader.Lib.Run
import NebulaXTrader.Lib.Segments
import NebulaXTrader.Strategy.KLine

/-!
This module contains the bars that the aggregator owes for a stream of trades, and the theorems when it emits them.
-/

namespace NebulaXTrader

/--
The bar of a run of trades of one symbol.
-/
structure KLine.Aggregates (bar : KLine) (run : List BarTrade) : Prop where
  symbol : ∀ t ∈ run, t.locate = bar.symbolId
  opened : run.head?.map BarTrade.price = some bar.openPrice
  high : (run.map BarTrade.price).max? = some bar.high
  low : (run.map BarTrade.price).min? = some bar.low
  close : run.getLast?.map BarTrade.price = some bar.close
  volume : bar.volume = (run.map BarTrade.volume).sum

namespace KLineAggregator

def priced (trades : List BarTrade) : List BarTrade := trades.filter (fun t => 0 ≤ t.price)

/--
The rule by which the trades are cut into bars.
-/
def cut (s : KLineAggregator) (run : List BarTrade) (t : BarTrade) : Bool :=
  match s.mode with
  | .TIME => run.head?.map (fun t => t.timestamp / s.windowNs) ≠ some (t.timestamp / s.windowNs)
  | .COUNT => run.length ≥ s.tickCount

/--
The trade would become part of the open bar.
-/
def Joins (s : KLineAggregator) (t : BarTrade) : Prop :=
  s.cur.symbolId ≠ 0 ∧
    match s.mode with
    | .TIME => t.timestamp / s.windowNs * s.windowNs = s.curWinStart
    | .COUNT => s.curTickCnt < s.tickCount

/--
The trade has a locate that is not the mark of an empty bar, and it meets no open bar of another symbol.
-/
def Own (s : KLineAggregator) (t : BarTrade) : Prop :=
  0 ≤ t.price → t.locate ≠ 0 ∧ (s.Joins t → t.locate = s.cur.symbolId)

end KLineAggregator

section

variable {bar : KLine} {run : List BarTrade} {t : BarTrade}

theorem KLine.Aggregates.single (t : BarTrade) (ts : Nat)
    : KLine.Aggregates ⟨t.locate, ts, t.price, t.price, t.price, t.price, t.volume⟩ [t] := by
  constructor
  . intro t' ht'
    rw [List.mem_singleton.1 ht']
  . rfl
  . rfl
  . rfl
  . rfl
  . simp

theorem max?_concat {l : List Int} {hi x : Int} (h : l.max? = some hi)
    : (l ++ [x]).max? = some (if x > hi then x else hi) := by
  cases l with
  | nil => cases h
  | cons a l =>
    have hfold : l.foldl max a = hi := Option.some.inj h
    have hmax : (l ++ [x]).foldl max a = if x > hi then x else hi := by
      rw [List.foldl_append, hfold]
      show max hi x = _
      split
      . omega
      . omega
    exact congrArg some hmax

theorem min?_concat {l : List Int} {lo x : Int} (h : l.min? = some lo)
    : (l ++ [x]).min? = some (if x < lo then x else lo) := by
  cases l with
  | nil => cases h
  | cons a l =>
    have hfold : l.foldl min a = lo := Option.some.inj h
    have hmin : (l ++ [x]).foldl min a = if x < lo then x else lo := by
      rw [List.foldl_append, hfold]
      show min lo x = _
      split
      . omega
      . omega
    exact congrArg some hmin

theorem KLine.Aggregates.extend {s : KLineAggregator} (h : s.cur.Aggregates run) (hlocate : t.locate = s.cur.symbolId)
    : (s.extend t t.price).cur.Aggregates (run ++ [t]) := by
  have hne : run ≠ [] := by
    intro hnil
    have hopened := h.opened
    rw [hnil] at hopened
    cases hopened
  constructor
  . intro t' ht'
    cases List.mem_append.1 ht' with
    | inl hold => exact h.symbol t' hold
    | inr hnew =>
      rw [List.mem_singleton.1 hnew]
      exact hlocate
  . rw [List.head?_append_of_ne_nil _ hne]
    exact h.opened
  . rw [List.map_append]
    exact max?_concat h.high
  . rw [List.map_append]
    exact min?_concat h.low
  . rw [List.getLast?_concat]
    rfl
  . rw [List.map_append, List.sum_append, ← h.volume]
    simp [KLineAggregator.extend]

end

namespace KLineAggregator

/--
A window of time is not empty.
-/
def Timed (s : KLineAggregator) : Prop := s.mode = .TIME → 1 ≤ s.windowNs

/--
The aggregator has emitted the bars of the closed runs, and its current bar is the one of the open run.
-/
structure Follows (s : KLineAggregator) (g : List (List BarTrade) × List BarTrade) : Prop where
  emitted : List.Forall₂ KLine.Aggregates s.emitted g.1
  empty : g.2 = [] → s.cur.symbolId = 0
  marked : g.2 ≠ [] → s.cur.symbolId ≠ 0
  current : g.2 ≠ [] → s.cur.Aggregates g.2
  window : s.mode = .TIME → ∀ t, g.2.head? = some t → t.timestamp / s.windowNs * s.windowNs = s.curWinStart
  count : s.mode = .COUNT → g.2 ≠ [] → s.curTickCnt = g.2.length

section

variable {s : KLineAggregator} {g : List (List BarTrade) × List BarTrade} {t : BarTrade}

instance (s : KLineAggregator) (t : BarTrade) : Decidable (s.Joins t) :=
  match hmode : s.mode with
  | .TIME =>
    decidable_of_iff (s.cur.symbolId ≠ 0 ∧ t.timestamp / s.windowNs * s.windowNs = s.curWinStart)
      (by unfold Joins; rw [hmode])
  | .COUNT =>
    decidable_of_iff (s.cur.symbolId ≠ 0 ∧ s.curTickCnt < s.tickCount) (by unfold Joins; rw [hmode])

instance (s : KLineAggregator) (t : BarTrade) : Decidable (s.Own t) :=
  inferInstanceAs (Decidable (0 ≤ t.price → t.locate ≠ 0 ∧ (s.Joins t → t.locate = s.cur.symbolId)))

theorem onTrade_skip (hprice : t.price < 0) : s.onTrade t = s := if_pos hprice

theorem onTrade_join (hprice : 0 ≤ t.price) (h : s.Joins t)
    : s.onTrade t = { s.extend t t.price with
        curTickCnt := match s.mode with | .TIME => s.curTickCnt | .COUNT => s.curTickCnt + 1 } := by
  unfold Joins at h
  unfold onTrade
  rw [if_neg (by omega)]
  cases hmode : s.mode with
  | TIME =>
    rw [hmode] at h
    dsimp only at h ⊢
    rw [if_neg (by omega)]
    rfl
  | COUNT =>
    rw [hmode] at h
    dsimp only at h ⊢
    rw [if_neg h.1, if_neg (by omega)]

theorem onTrade_start (hprice : 0 ≤ t.price) (h : ¬ s.Joins t)
    : ∃ ts cnt, s.onTrade t = { s with
        emitted := if s.cur.symbolId ≠ 0 then s.emitted ++ [s.cur] else s.emitted
        cur := ⟨t.locate, ts, t.price, t.price, t.price, t.price, t.volume⟩
        curWinStart := match s.mode with | .TIME => t.timestamp / s.windowNs * s.windowNs | .COUNT => s.curWinStart
        curTickCnt := cnt } ∧ (s.mode = .COUNT → cnt = 1) := by
  unfold Joins at h
  unfold onTrade
  rw [if_neg (by omega)]
  cases hmode : s.mode with
  | TIME =>
    rw [hmode] at h
    dsimp only at h ⊢
    rw [if_pos (by omega)]
    refine ⟨t.timestamp / s.windowNs * s.windowNs, s.curTickCnt, ?_, fun hcount => nomatch hcount⟩
    by_cases hempty : s.cur.symbolId = 0
    . simp [startNew, hempty, hmode]
    . simp [startNew, push, hempty, hmode]
  | COUNT =>
    rw [hmode] at h
    dsimp only at h ⊢
    refine ⟨t.timestamp, 1, ?_, fun _ => rfl⟩
    by_cases hempty : s.cur.symbolId = 0
    . simp [startNew, hempty, hmode]
    . rw [if_neg hempty, if_pos (by omega)]
      simp [startNew, push, hempty, hmode]

theorem onTrade_config (s : KLineAggregator) (t : BarTrade)
    : (s.onTrade t).mode = s.mode ∧ (s.onTrade t).windowNs = s.windowNs ∧ (s.onTrade t).tickCount = s.tickCount := by
  by_cases hprice : t.price < 0
  . rw [onTrade_skip hprice]
    exact ⟨rfl, rfl, rfl⟩
  . by_cases hjoin : s.Joins t
    . rw [onTrade_join (by omega) hjoin]
      exact ⟨rfl, rfl, rfl⟩
    . obtain ⟨ts, cnt, hstart, _⟩ := onTrade_start (by omega) hjoin
      rw [hstart]
      exact ⟨rfl, rfl, rfl⟩

theorem cut_onTrade (s : KLineAggregator) (t : BarTrade) : (s.onTrade t).cut = s.cut := by
  obtain ⟨hmode, hwindow, hcount⟩ := onTrade_config s t
  unfold cut
  rw [hmode, hwindow, hcount]

theorem Follows.joins_iff (h : Follows s g) (htimed : s.Timed) (hopen : g.2 ≠ [])
    : s.Joins t ↔ s.cut g.2 t = false := by
  obtain ⟨first, rest, hrun⟩ := List.exists_cons_of_ne_nil hopen
  have hmarked := h.marked hopen
  unfold Joins cut
  cases hmode : s.mode with
  | TIME =>
    have hwindow := h.window hmode first (by rw [hrun]; rfl)
    have hpos : 0 < s.windowNs := htimed hmode
    dsimp only
    rw [hrun, ← hwindow, Nat.mul_left_inj (by omega), decide_eq_false_iff_not, not_not]
    constructor
    . intro hjoin
      exact congrArg some hjoin.2.symm
    . intro hsame
      exact ⟨hmarked, (Option.some.inj hsame).symm⟩
  | COUNT =>
    dsimp only
    rw [h.count hmode hopen]
    simp [hmarked]

theorem Follows.extend (h : Follows s g) (hprice : 0 ≤ t.price) (hopen : g.2 ≠ []) (hjoin : s.Joins t)
    (hlocate : t.locate = s.cur.symbolId) : Follows (s.onTrade t) (g.1, g.2 ++ [t]) := by
  have hnil : g.2 ++ [t] ≠ [] := by simp
  rw [onTrade_join hprice hjoin]
  constructor
  . exact h.emitted
  . intro hempty
    exact absurd hempty hnil
  . intro _
    exact h.marked hopen
  . intro _
    exact (h.current hopen).extend hlocate
  . intro hmode t' ht'
    apply h.window hmode t'
    rw [← List.head?_append_of_ne_nil _ hopen]
    exact ht'
  . intro hmode _
    have hcount := h.count hmode hopen
    have hmode' : s.mode = .COUNT := hmode
    simp [hmode', hcount]

theorem Follows.start (h : Follows s g) (hprice : 0 ≤ t.price) (hjoin : ¬ s.Joins t) (hlocate : t.locate ≠ 0)
    {closed : List (List BarTrade)} (hclosed : closed = if g.2 = [] then g.1 else g.1 ++ [g.2])
    : Follows (s.onTrade t) (closed, [t]) := by
  obtain ⟨ts, cnt, hstart, hcnt⟩ := onTrade_start hprice hjoin
  rw [hstart, hclosed]
  constructor
  . by_cases hopen : g.2 = []
    . have hempty := h.empty hopen
      simp only [hempty, hopen, ne_eq, not_true_eq_false, if_false, if_true]
      exact h.emitted
    . have hmarked := h.marked hopen
      simp only [hmarked, hopen, ne_eq, not_false_eq_true, if_false, if_true]
      exact List.rel_append h.emitted (.cons (h.current hopen) .nil)
  . intro hempty
    cases hempty
  . intro _
    exact hlocate
  . intro _
    exact KLine.Aggregates.single t ts
  . intro hmode t' ht'
    have hmode' : s.mode = .TIME := hmode
    cases ht'
    simp [hmode']
  . intro hmode _
    exact hcnt hmode

theorem Follows.onTrade (h : Follows s g) (htimed : s.Timed) (hprice : 0 ≤ t.price) (hown : s.Own t)
    : Follows (s.onTrade t) (Segments.step s.cut g t) := by
  obtain ⟨hlocate, hsame⟩ := hown hprice
  obtain ⟨closed, opened⟩ := g
  unfold Segments.step
  cases opened with
  | nil =>
    have hjoin : ¬ s.Joins t := fun hj => hj.1 (h.empty rfl)
    exact h.start hprice hjoin hlocate rfl
  | cons first rest =>
    have hopen : first :: rest ≠ [] := List.cons_ne_nil first rest
    have hiff := h.joins_iff (t := t) htimed hopen
    dsimp only at hiff ⊢
    split
    . next hcut =>
      have hjoin : ¬ s.Joins t := by
        rw [hiff, hcut]
        decide
      exact h.start hprice hjoin hlocate rfl
    . next hcut =>
      have hjoin : s.Joins t := hiff.2 (Bool.not_eq_true _ ▸ hcut)
      exact h.extend hprice hopen hjoin (hsame hjoin)

theorem Follows.foldl (h : Follows s g) (htimed : s.Timed) {trades : List BarTrade}
    (hown : Run.Along (fun s t => some (KLineAggregator.onTrade s t)) Own s trades)
    : Follows (trades.foldl KLineAggregator.onTrade s) ((priced trades).foldl (Segments.step s.cut) g) := by
  induction trades generalizing s g with
  | nil => exact h
  | cons t trades ih =>
    unfold Run.Along at hown
    have htimed' : (s.onTrade t).Timed := by
      obtain ⟨hmode, hwindow, _⟩ := onTrade_config s t
      unfold Timed
      rw [hmode, hwindow]
      exact htimed
    have hrest := hown.2 _ rfl
    rw [List.foldl_cons]
    by_cases hprice : t.price < 0
    . have hskip : priced (t :: trades) = priced trades := List.filter_cons_of_neg (by simpa using hprice)
      rw [onTrade_skip hprice] at hrest ⊢
      rw [hskip]
      exact ih h htimed hrest
    . have hcons : priced (t :: trades) = t :: priced trades := List.filter_cons_of_pos (by simpa using hprice)
      have hnext := h.onTrade htimed (by omega) hown.1
      rw [hcons, List.foldl_cons, ← cut_onTrade s t]
      rw [← cut_onTrade s t] at hnext
      exact ih hnext htimed' hrest

theorem Follows.flush (h : Follows s g) : List.Forall₂ KLine.Aggregates s.flush.emitted (Segments.close g) := by
  rw [Segments.close_eq]
  unfold KLineAggregator.flush
  by_cases hopen : g.2 = []
  . have hempty := h.empty hopen
    simp only [hempty, hopen, ne_eq, not_true_eq_false, if_false, if_true]
    exact h.emitted
  . have hmarked := h.marked hopen
    simp only [hmarked, hopen, ne_eq, not_false_eq_true, if_false, if_true]
    exact List.rel_append h.emitted (.cons (h.current hopen) .nil)

/--
Before its first trade.
-/
structure Fresh (s : KLineAggregator) : Prop where
  empty : s.cur.symbolId = 0
  emitted : s.emitted = []

theorem Fresh.follows (h : Fresh s) : Follows s ([], []) := by
  constructor
  . rw [h.emitted]
    exact .nil
  . intro _
    exact h.empty
  . intro hopen
    exact absurd rfl hopen
  . intro hopen
    exact absurd rfl hopen
  . intro _ t ht
    cases ht
  . intro _ hopen
    exact absurd rfl hopen

theorem bars_follow (hfresh : Fresh s) (htimed : s.Timed) {trades : List BarTrade}
    (hown : Run.Along (fun s t => some (onTrade s t)) Own s trades)
    : List.Forall₂ KLine.Aggregates (s.bars trades) (Segments.segments s.cut (priced trades)) :=
  (hfresh.follows.foldl htimed hown).flush

/--
The runs of a stream that its bars stand for, in order.
-/
structure Partition (bars : List KLine) (runs : List (List BarTrade)) (trades : List BarTrade) : Prop where
  flatten : runs.flatten = priced trades
  nonempty : ∀ r ∈ runs, r ≠ []
  bars : List.Forall₂ KLine.Aggregates bars runs

theorem Partition.of_split {bars : List KLine} {runs : List (List BarTrade)} {trades : List BarTrade}
    {rule : List BarTrade → BarTrade → Bool} (h : Segments.Split rule runs (priced trades))
    (hbars : List.Forall₂ KLine.Aggregates bars runs) : Partition bars runs trades :=
  ⟨h.flatten, h.nonempty, hbars⟩

theorem own_of_single {locate : Nat} (hlocate : locate ≠ 0) {trades : List BarTrade}
    (hsame : ∀ t ∈ trades, t.locate = locate) (hcur : s.cur.symbolId ≠ 0 → s.cur.symbolId = locate)
    : Run.Along (fun s t => some (onTrade s t)) Own s trades := by
  induction trades generalizing s with
  | nil => trivial
  | cons t trades ih =>
    have ht : t.locate = locate := hsame t List.mem_cons_self
    constructor
    . intro _
      rw [ht]
      refine ⟨hlocate, ?_⟩
      intro hjoin
      exact (hcur hjoin.1).symm
    . intro s' hs'
      cases hs'
      apply ih (fun t' ht' => hsame t' (List.mem_cons_of_mem t ht'))
      by_cases hprice : t.price < 0
      . rw [onTrade_skip hprice]
        exact hcur
      . by_cases hjoin : s.Joins t
        . rw [onTrade_join (by omega) hjoin]
          exact hcur
        . obtain ⟨ts, cnt, hstart, _⟩ := onTrade_start (by omega) hjoin
          rw [hstart]
          exact fun _ => ht

theorem single_follow {locate : Nat} (hlocate : locate ≠ 0) (hfresh : Fresh s) (htimed : s.Timed)
    {trades : List BarTrade} (hsame : ∀ t ∈ trades, t.locate = locate)
    : List.Forall₂ KLine.Aggregates (s.bars trades) (Segments.segments s.cut (priced trades)) := by
  apply bars_follow hfresh htimed
  apply own_of_single hlocate hsame
  intro hmarked
  exact absurd hfresh.empty hmarked

theorem length_le_of_grown {n : Nat} {rule : List BarTrade → BarTrade → Bool} {r : List BarTrade} (hn : 1 ≤ n)
    (hrule : ∀ r t, rule r t = true ↔ n ≤ r.length) (h : Segments.Grown rule r) : r.length ≤ n := by
  by_contra hlong
  have hlt : n < r.length := Nat.not_le.1 hlong
  have htake : (r.take n).length = n := by
    rw [List.length_take]
    omega
  have hne : r.take n ≠ [] := by
    intro hnil
    rw [hnil] at htake
    exact absurd htake.symm (by simp; omega)
  have hprefix : r.take n ++ [r[n]] <+: r := by
    rw [← List.take_succ_eq_append_getElem hlt]
    exact List.take_prefix _ _
  have hcut := h _ _ hne hprefix
  have hfull := (hrule (r.take n) r[n]).2 (by omega)
  rw [hcut] at hfull
  cases hfull

theorem window_of_grown {w : Nat} {rule : List BarTrade → BarTrade → Bool} {first : BarTrade} {rest : List BarTrade}
    (hrule : ∀ r t, rule r t = false → r.head?.map (fun t => t.timestamp / w) = some (t.timestamp / w))
    (h : Segments.Grown rule (first :: rest)) {t : BarTrade} (ht : t ∈ first :: rest)
    : t.timestamp / w = first.timestamp / w := by
  obtain ⟨pre, post, hsplit⟩ := List.append_of_mem ht
  cases pre with
  | nil =>
    cases hsplit
    rfl
  | cons x pre =>
    have hx : first = x := List.head_eq_of_cons_eq hsplit
    have hprefix : x :: pre ++ [t] <+: first :: rest := ⟨post, by rw [hsplit]; simp⟩
    have hsame := hrule _ _ (h _ _ (List.cons_ne_nil x pre) hprefix)
    rw [hx]
    exact (Option.some.inj hsame).symm

end

section

variable {locate : Nat} {trades : List BarTrade}

theorem bars_by_count (hlocate : locate ≠ 0) (hsame : ∀ t ∈ trades, t.locate = locate) {n : Nat} (hn : 1 ≤ n)
    : ∃ runs, Partition ((byCount n).bars trades) runs trades ∧
        (∀ r ∈ runs.dropLast, r.length = n) ∧ ∀ r ∈ runs, r.length ≤ n := by
  have htimed : (byCount n).Timed := by
    intro hmode
    cases hmode
  have hsplit := Segments.split_segments (byCount n).cut (priced trades)
  have hrule : ∀ r t, (byCount n).cut r t = true ↔ n ≤ r.length := fun r t => decide_eq_true_iff
  have hle : ∀ r ∈ Segments.segments (byCount n).cut (priced trades), r.length ≤ n :=
    fun r hr => length_le_of_grown hn hrule (hsplit.grown r hr)
  refine ⟨_, Partition.of_split hsplit (single_follow hlocate ⟨rfl, rfl⟩ htimed hsame), ?_, hle⟩
  intro r hr
  have hge := hsplit.forall_cut (p := fun r => n ≤ r.length) (fun r t hcut => (hrule r t).1 hcut) r hr
  have hmem := hle r (List.dropLast_subset _ hr)
  omega

def winStart (w : Nat) (t : BarTrade) : Nat := t.timestamp / w * w

theorem bars_by_time (hlocate : locate ≠ 0) (hsame : ∀ t ∈ trades, t.locate = locate) {w : Nat} (hw : 1 ≤ w)
    : ∃ runs, Partition ((byTime w).bars trades) runs trades ∧
        (∀ r ∈ runs, ∀ t ∈ r, ∀ t' ∈ r, winStart w t = winStart w t') ∧
        runs.IsChain (fun r r' => ∀ t ∈ r, ∀ t' ∈ r', winStart w t ≠ winStart w t') := by
  have hsplit := Segments.split_segments (byTime w).cut (priced trades)
  have hrule : ∀ r t, (byTime w).cut r t = false → r.head?.map (fun t => t.timestamp / w) = some (t.timestamp / w) :=
    fun r t hcut => not_not.1 (decide_eq_false_iff_not.1 hcut)
  -- every trade of a run is in the window of its first one
  have hfirst : ∀ r ∈ Segments.segments (byTime w).cut (priced trades), ∃ first ∈ r.head?,
      ∀ t ∈ r, t.timestamp / w = first.timestamp / w := by
    intro r hr
    obtain ⟨first, rest, hrun⟩ := List.exists_cons_of_ne_nil (hsplit.nonempty r hr)
    have hgrown := hsplit.grown r hr
    rw [hrun] at hgrown ⊢
    exact ⟨first, rfl, fun t ht => window_of_grown hrule hgrown ht⟩
  refine ⟨_, Partition.of_split hsplit (single_follow hlocate ⟨rfl, rfl⟩ (fun _ => hw) hsame), ?_, ?_⟩
  . intro r hr t ht t' ht'
    obtain ⟨first, _, hwindow⟩ := hfirst r hr
    unfold winStart
    rw [hwindow t ht, hwindow t' ht']
  . apply hsplit.chain.imp_of_mem_imp
    intro r r' hr hr' hcut t ht t' ht'
    obtain ⟨first, hhead, hwindow⟩ := hfirst r hr
    obtain ⟨first', hhead', hwindow'⟩ := hfirst r' hr'
    have hdiffer := of_decide_eq_true (hcut first' hhead')
    unfold winStart
    rw [hwindow t ht, hwindow' t' ht', Ne, Nat.mul_left_inj (by omega)]
    intro heq
    apply hdiffer
    rw [Option.mem_def.1 hhead]
    exact congrArg some heq

/--
After a final flush the bars of one symbol stand for consecutive runs of its priced trades. By number every run but the
last is full, and by time neighbouring runs are in different windows.
-/
theorem bars_partition (hlocate : locate ≠ 0) (hsame : ∀ t ∈ trades, t.locate = locate)
    : (∀ n, 1 ≤ n → ∃ runs, Partition ((byCount n).bars trades) runs trades ∧
        (∀ r ∈ runs.dropLast, r.length = n) ∧ ∀ r ∈ runs, r.length ≤ n) ∧
      ∀ w, 1 ≤ w → ∃ runs, Partition ((byTime w).bars trades) runs trades ∧
        (∀ r ∈ runs, ∀ t ∈ r, ∀ t' ∈ r, winStart w t = winStart w t') ∧
        runs.IsChain (fun r r' => ∀ t ∈ r, ∀ t' ∈ r', winStart w t ≠ winStart w t') := by
  constructor
  . intro n hn
    exact bars_by_count hlocate hsame hn
  . intro w hw
    exact bars_by_time hlocate hsame hw

def ticks : List BarTrade :=
  [⟨1, 0, 100, 10⟩, ⟨1, 500, 102, 20⟩, ⟨1, 600, -1, 7⟩, ⟨1, 900, 98, 5⟩, ⟨1, 1000, 105, 30⟩]

theorem bars_partition_ticks :
    (byCount 2).bars ticks = [⟨1, 0, 100, 102, 100, 102, 30⟩, ⟨1, 900, 98, 105, 98, 105, 35⟩] ∧
      (byTime 1000).bars ticks = [⟨1, 0, 100, 102, 98, 98, 35⟩, ⟨1, 1000, 105, 105, 105, 105, 30⟩] ∧
      ∃ runs, Partition ((byTime 1000).bars ticks) runs ticks := by
  have hpartition := @bars_partition 1 ticks (by decide) (by decide)
  obtain ⟨runs, hruns, _⟩ := hpartition.2 1000 (by decide)
  exact ⟨by decide, by decide, runs, hruns⟩

end

end KLineAggregator

end NebulaXTrader
