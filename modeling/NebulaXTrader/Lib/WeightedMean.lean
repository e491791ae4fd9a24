import Mathlib.Algebra.Order.BigOperators.Group.List
import Mathlib.Algebra.BigOperators.Ring.List
import Mathlib.Data.Finite.Prod
import Mathlib.Data.Set.Finite.Lemmas
import Mathlib.Data.Set.Finite.List
import Mathlib.Order.Preorder.Finite
import Mathlib.Tactic.Linarith

/-!
This module contains the weighted mean of a list. It is never outside the values of positive weight, also when its
quotient is truncated.
-/

namespace WeightedMean

variable {α : Type}

section

variable {R : Type} [CommRing R] [LinearOrder R] [IsStrictOrderedRing R] {v w : α → R} {l : List α}

def weight (w : α → R) (l : List α) : R := (l.map w).sum

def total (v w : α → R) (l : List α) : R := (l.map (fun a => v a * w a)).sum

theorem exists_pos (h : 0 < weight w l) : ∃ a ∈ l, 0 < w a := by
  apply List.exists_lt_of_sum_lt (fun _ => 0) w
  have hzero : (l.map (fun _ => (0 : R))).sum = 0 := by simp
  rw [hzero]
  exact h

theorem total_mono {v' : α → R} (hw : ∀ a ∈ l, 0 ≤ w a) (hv : ∀ a ∈ l, 0 < w a → v a ≤ v' a)
    : total v w l ≤ total v' w l := by
  unfold total
  apply List.sum_le_sum
  intro a ha
  cases (hw a ha).eq_or_lt with
  | inl hzero => rw [← hzero, mul_zero, mul_zero]
  | inr hpos => exact mul_le_mul_of_nonneg_right (hv a ha hpos) hpos.le

omit [LinearOrder R] [IsStrictOrderedRing R] in
theorem total_const (c : R) (w : α → R) (l : List α) : total (fun _ => c) w l = c * weight w l := by
  unfold total weight
  rw [← List.sum_map_mul_left]

theorem total_le {hi : R} (hw : ∀ a ∈ l, 0 ≤ w a) (hv : ∀ a ∈ l, 0 < w a → v a ≤ hi)
    : total v w l ≤ hi * weight w l := by
  rw [← total_const]
  exact total_mono hw hv

theorem le_total {lo : R} (hw : ∀ a ∈ l, 0 ≤ w a) (hv : ∀ a ∈ l, 0 < w a → lo ≤ v a)
    : lo * weight w l ≤ total v w l := by
  rw [← total_const]
  exact total_mono hw hv

omit [IsStrictOrderedRing R] in
theorem finite_pos : {a | a ∈ l ∧ 0 < w a}.Finite := by
  apply (List.finite_toSet l).subset
  intro a ha
  exact ha.1

theorem exists_total_le (hw : ∀ a ∈ l, 0 ≤ w a) (h : 0 < weight w l)
    : ∃ a ∈ l, 0 < w a ∧ total v w l ≤ v a * weight w l := by
  obtain ⟨a, hmem, hmax⟩ := Set.exists_max_image _ v (finite_pos (l := l) (w := w)) (exists_pos h)
  refine ⟨a, hmem.1, hmem.2, ?_⟩
  apply total_le hw
  intro b hb hpos
  exact hmax b ⟨hb, hpos⟩

theorem exists_le_total (hw : ∀ a ∈ l, 0 ≤ w a) (h : 0 < weight w l)
    : ∃ a ∈ l, 0 < w a ∧ v a * weight w l ≤ total v w l := by
  obtain ⟨a, hmem, hmin⟩ := Set.exists_min_image _ v (finite_pos (l := l) (w := w)) (exists_pos h)
  refine ⟨a, hmem.1, hmem.2, ?_⟩
  apply le_total hw
  intro b hb hpos
  exact hmin b ⟨hb, hpos⟩

end

section

variable {v w : α → Int} {l : List α}

/--
The mean is rounded towards zero.
-/
def mean (v w : α → Int) (l : List α) : Int := (total v w l).tdiv (weight w l)

theorem mean_le {x : Int} (h : 0 < weight w l) (htotal : total v w l ≤ x * weight w l) : mean v w l ≤ x := by
  have hdiv := Int.tdiv_le_tdiv h htotal
  rw [Int.mul_tdiv_cancel _ h.ne'] at hdiv
  exact hdiv

theorem le_mean {x : Int} (h : 0 < weight w l) (htotal : x * weight w l ≤ total v w l) : x ≤ mean v w l := by
  have hdiv := Int.tdiv_le_tdiv h htotal
  rw [Int.mul_tdiv_cancel _ h.ne'] at hdiv
  exact hdiv

theorem exists_le_mean (hw : ∀ a ∈ l, 0 ≤ w a) (h : 0 < weight w l) : ∃ a ∈ l, 0 < w a ∧ v a ≤ mean v w l := by
  obtain ⟨a, hmem, hpos, htotal⟩ := exists_le_total (v := v) hw h
  exact ⟨a, hmem, hpos, le_mean h htotal⟩

theorem exists_mean_le (hw : ∀ a ∈ l, 0 ≤ w a) (h : 0 < weight w l) : ∃ a ∈ l, 0 < w a ∧ mean v w l ≤ v a := by
  obtain ⟨a, hmem, hpos, htotal⟩ := exists_total_le (v := v) hw h
  exact ⟨a, hmem, hpos, mean_le h htotal⟩

end

end WeightedMean
