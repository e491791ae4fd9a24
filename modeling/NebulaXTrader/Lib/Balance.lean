import Mathlib.Algebra.Order.BigOperators.Group.Finset
import Mathlib.Algebra.BigOperators.Intervals

/-!
This module contains counts that grow one at a time, each time at a place where they are least.
-/

namespace Balance

variable {f : Nat → Nat} {n k : Nat}

/--
`k` is the first of the places below `n` at which `f` is least.
-/
structure FirstLeast (f : Nat → Nat) (n k : Nat) : Prop where
  lt : k < n
  least : ∀ i, i < n → f k ≤ f i
  first : ∀ i, i < k → f k < f i

theorem FirstLeast.one : FirstLeast f 1 0 := by
  constructor
  . exact Nat.zero_lt_one
  . intro i hi
    rw [Nat.lt_one_iff.1 hi]
  . intro i hi
    cases hi

theorem FirstLeast.keep (h : FirstLeast f n k) (hle : f k ≤ f n) : FirstLeast f (n + 1) k := by
  constructor
  . exact Nat.lt_succ_of_lt h.lt
  . intro i hi
    cases Nat.lt_succ_iff_lt_or_eq.1 hi with
    | inl hlt => exact h.least i hlt
    | inr heq =>
      rw [heq]
      exact hle
  . exact h.first

theorem FirstLeast.replace (h : FirstLeast f n k) (hlt : f n < f k) : FirstLeast f (n + 1) n := by
  constructor
  . exact Nat.lt_succ_self n
  . intro i hi
    cases Nat.lt_succ_iff_lt_or_eq.1 hi with
    | inl hi =>
      have hleast := h.least i hi
      omega
    | inr heq => rw [heq]
  . intro i hi
    have hleast := h.least i hi
    omega

def Even (f : Nat → Nat) (n : Nat) : Prop := ∀ i j, i < n → j < n → f i ≤ f j + 1

def bump (f : Nat → Nat) (k : Nat) : Nat → Nat := Function.update f k (f k + 1)

theorem bump_self : bump f k k = f k + 1 := Function.update_self _ _ _

theorem bump_of_ne {i : Nat} (hne : i ≠ k) : bump f k i = f i := Function.update_of_ne hne _ _

theorem le_bump (i : Nat) : f i ≤ bump f k i := by
  by_cases hi : i = k
  . rw [hi, bump_self]
    exact Nat.le_succ _
  . rw [bump_of_ne hi]

theorem Even.bump (heven : Even f n) (hleast : ∀ i, i < n → f k ≤ f i) : Even (bump f k) n := by
  intro i j hi hj
  have hmore : f j ≤ Balance.bump f k j := le_bump j
  by_cases heq : i = k
  . rw [heq, bump_self]
    have hle := hleast j hj
    omega
  . rw [bump_of_ne heq]
    have hle := heven i j hi hj
    omega

theorem sum_bump (hk : k < n) : ∑ i ∈ Finset.range n, bump f k i = ∑ i ∈ Finset.range n, f i + 1 := by
  have hmem : k ∈ Finset.range n := Finset.mem_range.2 hk
  rw [← Finset.add_sum_erase _ _ hmem, ← Finset.add_sum_erase _ f hmem, bump_self]
  have hrest : ∑ i ∈ (Finset.range n).erase k, bump f k i = ∑ i ∈ (Finset.range n).erase k, f i := by
    apply Finset.sum_congr rfl
    intro i hi
    exact bump_of_ne (Finset.ne_of_mem_erase hi)
  rw [hrest]
  omega

theorem le_sum (hk : k < n) : f k ≤ ∑ i ∈ Finset.range n, f i := by
  apply Finset.single_le_sum (fun i _ => Nat.zero_le _)
  exact Finset.mem_range.2 hk

end Balance
