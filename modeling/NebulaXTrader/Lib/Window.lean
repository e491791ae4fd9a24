import Mathlib.Algebra.BigOperators.Group.List.Basic
import Mathlib.Logic.Function.Basic
import Mathlib.Algebra.Order.Group.Unbundled.Int
import Mathlib.Tactic.Abel
import Mathlib.Tactic.Ring
import NebulaXTrader.Lib.Wrap

/-!
This module contains the ring of cells that holds the last values of a sequence, and their sum.
-/

namespace Window

variable {M : Type} {k : Nat} {cells : Nat → M} {l : List M}

/--
The values of `l`, the newest one first, were written into the `k` cells one after the other.
-/
def Holds (k : Nat) (cells : Nat → M) (l : List M) : Prop :=
  ∀ i (hi : i < l.length), i < k → cells ((l.length - 1 - i) % k) = l[i]

theorem Holds.nil : Holds k cells [] := by
  intro i hi
  cases hi

theorem Holds.push (h : Holds k cells l) (x : M)
    : Holds k (Function.update cells (l.length % k) x) (x :: l) := by
  intro i hi hik
  cases i with
  | zero =>
    simp
  | succ i =>
    rw [List.length_cons] at hi
    have hindex : (x :: l).length - 1 - (i + 1) = l.length - 1 - i := by
      rw [List.length_cons]
      omega
    -- fewer than `k` positions apart are different cells
    have hne : (l.length - 1 - i) % k ≠ l.length % k := by
      intro heq
      have hsame := Wrap.eq_of_mod_eq (W := k) (by omega) (by omega) heq.symm
      omega
    rw [hindex, Function.update_of_ne hne, List.getElem_cons_succ]
    exact h i (by omega) (by omega)

theorem Holds.oldest (h : Holds k cells l) (hk : 0 < k) (hlen : k ≤ l.length)
    : cells (l.length % k) = l[k - 1] := by
  have hread := h (k - 1) (by omega) (by omega)
  have hsub : l.length - 1 - (k - 1) = l.length - k := by omega
  rw [hsub, ← Nat.mod_eq_sub_mod hlen] at hread
  exact hread

theorem sum_push [AddCommGroup M] (x : M) (hlen : l.length < k)
    : ((x :: l).take k).sum = (l.take k).sum + x := by
  have hcons : (x :: l).length ≤ k := hlen
  rw [List.take_of_length_le hcons, List.take_of_length_le (by omega), List.sum_cons, add_comm]

theorem sum_shift [AddCommGroup M] (x : M) (hk : 0 < k) (hlen : k ≤ l.length)
    : ((x :: l).take k).sum = (l.take k).sum - l[k - 1] + x := by
  have hlast : (l.take k).sum = (l.take (k - 1)).sum + l[k - 1] := by
    have htake := List.sum_take_succ l (k - 1) (by omega)
    rw [Nat.sub_add_cancel hk] at htake
    exact htake
  have htake : (x :: l).take k = x :: l.take (k - 1) := by
    obtain ⟨n, rfl⟩ := Nat.exists_eq_succ_of_ne_zero (by omega : k ≠ 0)
    rfl
  rw [htake, hlast, List.sum_cons]
  abel

theorem abs_sum_le {l : List Int} {b : Int} (h : ∀ x ∈ l, |x| ≤ b) : |l.sum| ≤ l.length * b := by
  induction l with
  | nil => simp
  | cons x l ih =>
    have hx := h x List.mem_cons_self
    have hl := ih (fun y hy => h y (List.mem_cons_of_mem x hy))
    rw [List.sum_cons, List.length_cons]
    push_cast
    calc |x + l.sum|
      _ ≤ |x| + |l.sum| := abs_add_le x l.sum
      _ ≤ b + l.length * b := Int.add_le_add hx hl
      _ = (l.length + 1) * b := by ring

end Window
