import NebulaXTrader.Strategy.Bars

/-!
This module contains the theorem when the bars of a stream over several symbols stand for trades of their own symbol
and miss none of them.
-/

namespace NebulaXTrader

namespace KLineAggregator

structure Unmixed (bars : List KLine) (trades : List BarTrade) : Prop where
  aggregates : ∀ bar ∈ bars, ∃ run, run ≠ [] ∧ run <:+: priced trades ∧ bar.Aggregates run
  volume : ∀ symbol, ((bars.filter (fun b => b.symbolId = symbol)).map KLine.volume).sum =
    (((priced trades).filter (fun t => t.locate = symbol)).map BarTrade.volume).sum

section

variable {bars : List KLine} {runs : List (List BarTrade)} {run : List BarTrade} {bar : KLine}

theorem filter_run (h : bar.Aggregates run) (symbol : Nat)
    : run.filter (fun t => t.locate = symbol) = if bar.symbolId = symbol then run else [] := by
  split
  . next heq =>
    apply List.filter_eq_self.2
    intro t ht
    simpa [heq] using h.symbol t ht
  . next hne =>
    apply List.filter_eq_nil_iff.2
    intro t ht
    simpa [h.symbol t ht] using hne

theorem volume_flatten (h : List.Forall₂ KLine.Aggregates bars runs) (symbol : Nat)
    : ((bars.filter (fun b => b.symbolId = symbol)).map KLine.volume).sum =
        ((runs.flatten.filter (fun t => t.locate = symbol)).map BarTrade.volume).sum := by
  induction h with
  | nil => rfl
  | @cons bar run bars runs hbar _ ih =>
    rw [List.flatten_cons, List.filter_append, List.map_append, List.sum_append, ← ih, filter_run hbar]
    by_cases heq : bar.symbolId = symbol
    . rw [List.filter_cons_of_pos (by simpa using heq), if_pos heq, List.map_cons, List.sum_cons, hbar.volume]
    . rw [List.filter_cons_of_neg (by simpa using heq), if_neg heq]
      simp

theorem exists_run (h : List.Forall₂ KLine.Aggregates bars runs) (hbar : bar ∈ bars)
    : ∃ run ∈ runs, bar.Aggregates run := by
  induction h with
  | nil => cases hbar
  | @cons b run bars runs hb _ ih =>
    cases List.mem_cons.1 hbar with
    | inl heq =>
      rw [heq]
      exact ⟨run, List.mem_cons_self, hb⟩
    | inr hrest =>
      obtain ⟨r, hr, hagg⟩ := ih hrest
      exact ⟨r, List.mem_cons_of_mem run hr, hagg⟩

end

/--
When every priced trade has a locate and meets no open bar of another symbol, no bar mixes symbols, and the volumes of
the bars add up to those of the trades for every symbol.
-/
theorem unmixed_of_own {s : KLineAggregator} (hfresh : Fresh s) (htimed : s.Timed) {trades : List BarTrade}
    (hown : Run.Along (fun s t => some (onTrade s t)) Own s trades) : Unmixed (s.bars trades) trades := by
  have hbars := bars_follow hfresh htimed hown
  have hsplit := Segments.split_segments s.cut (priced trades)
  constructor
  . intro bar hbar
    obtain ⟨run, hrun, hagg⟩ := exists_run hbars hbar
    refine ⟨run, hsplit.nonempty run hrun, ?_, hagg⟩
    have hslice := List.infix_of_mem_flatten hrun
    rw [hsplit.flatten] at hslice
    exact hslice
  . intro symbol
    rw [volume_flatten hbars symbol, hsplit.flatten]

def alternating : List BarTrade := [⟨1, 0, 100, 10⟩, ⟨1, 500, 101, 20⟩, ⟨2, 1000, 200, 5⟩, ⟨2, 1200, 201, 6⟩]

theorem unmixed_alternating : Unmixed ((byTime 1000).bars alternating) alternating := by
  apply unmixed_of_own
  . exact ⟨rfl, rfl⟩
  . intro _
    decide
  . decide

/--
By number, a bar of symbol 1 takes the trade of symbol 2. A trade of locate 0 is never emitted.
-/
theorem not_unmixed :
    (byCount 20).bars [⟨1, 0, 100, 10⟩, ⟨2, 1, 200, 20⟩] = [⟨1, 0, 100, 200, 100, 200, 30⟩] ∧
      ¬ Unmixed ((byCount 20).bars [⟨1, 0, 100, 10⟩, ⟨2, 1, 200, 20⟩]) [⟨1, 0, 100, 10⟩, ⟨2, 1, 200, 20⟩] ∧
      ¬ Unmixed ((byTime 1000).bars [⟨0, 0, 100, 10⟩]) [⟨0, 0, 100, 10⟩] := by
  refine ⟨by decide, ?_, ?_⟩
  . intro h
    have hvolume := h.volume 2
    revert hvolume
    decide
  . intro h
    have hvolume := h.volume 0
    revert hvolume
    decide

end KLineAggregator

end NebulaXTrader
