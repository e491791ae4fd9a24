import Mathlib.Algebra.BigOperators.Intervals
import Mathlib.Tactic.Abel

/-!
This module contains sums in which one summand changes or joins.
-/

namespace Tally

variable {M : Type}

theorem sum_change_of_mem {ι : Type} [DecidableEq ι] [AddCommGroup M] {f g : ι → M} {s : Finset ι} {k : ι}
    (hk : k ∈ s) (h : ∀ i, i ≠ k → g i = f i)
    : ∑ i ∈ s, g i = ∑ i ∈ s, f i + (g k - f k) := by
  have hrest : ∑ i ∈ s.erase k, g i = ∑ i ∈ s.erase k, f i := by
    apply Finset.sum_congr rfl
    intro i hi
    exact h i (Finset.mem_erase.1 hi).1
  rw [← Finset.add_sum_erase _ g hk, ← Finset.add_sum_erase _ f hk, hrest]
  abel

theorem sum_change [AddCommGroup M] {f g : Nat → M} {n k : Nat} (hk : k < n)
    (h : ∀ i, i ≠ k → g i = f i)
    : ∑ i ∈ Finset.range n, g i = ∑ i ∈ Finset.range n, f i + (g k - f k) := by
  apply sum_change_of_mem
  . exact Finset.mem_range.2 hk
  . exact h

theorem sum_extend [AddCommMonoid M] {f g : Nat → M} {n : Nat} (h : ∀ i, i < n → g i = f i)
    : ∑ i ∈ Finset.range (n + 1), g i = ∑ i ∈ Finset.range n, f i + g n := by
  rw [Finset.sum_range_succ]
  congr 1
  apply Finset.sum_congr rfl
  intro i hi
  exact h i (Finset.mem_range.1 hi)

theorem sum_update {ι σ : Type} [Fintype ι] [DecidableEq ι] [AddCommMonoid M] (f : σ → M) (g : ι → σ) (k : ι)
    (u : σ)
    : ∃ rest, ∑ i, f (g i) = rest + f (g k) ∧ ∑ i, f (Function.update g k u i) = rest + f u := by
  refine ⟨∑ i ∈ Finset.univ.erase k, f (g i), ?_, ?_⟩
  . rw [Finset.sum_erase_add _ _ (Finset.mem_univ k)]
  . rw [← Finset.sum_erase_add _ _ (Finset.mem_univ k), Function.update_self]
    congr 1
    apply Finset.sum_congr rfl
    intro i hi
    rw [Function.update_of_ne (Finset.ne_of_mem_erase hi)]

end Tally
