import Mathlib.Algebra.Ring.Nat
import Mathlib.Data.Nat.Bitwise
import Mathlib.Data.Nat.Log

/-!
This module contains counters that only grow but are stored modulo `W`, as the positions of a ring
buffer are: what the stored numbers still say about the counters.
-/

namespace Wrap

variable (W : Nat)

def add (a b : Nat) : Nat := (a + b) % W

def sub (a b : Nat) : Nat := (a + (W - b % W)) % W

variable {W}

theorem add_eq_of_lt {a b : Nat} (h : a + b < W) : add W a b = a + b := by
  unfold add
  apply Nat.mod_eq_of_lt
  exact h

@[simp]
theorem add_mod (a b : Nat) : add W (a % W) b = (a + b) % W := by
  unfold add
  apply Nat.mod_add_mod

theorem sub_eq_of_le {a b : Nat} (hle : b ≤ a) (hlt : a < W) : sub W a b = a - b := by
  unfold sub
  have hb : b % W = b := Nat.mod_eq_of_lt (by omega)
  have heq : a + (W - b) = a - b + W := by omega
  rw [hb, heq, Nat.add_mod_right]
  apply Nat.mod_eq_of_lt
  omega

theorem sub_mod {a b : Nat} (hle : b ≤ a) (hlt : a - b < W) : sub W (a % W) (b % W) = a - b := by
  unfold sub
  rw [Nat.mod_mod, Nat.mod_add_mod]
  have hb : b % W < W := Nat.mod_lt _ (by omega)
  have hdiv : W * (b / W) + b % W = b := Nat.div_add_mod b W
  have heq : a + (W - b % W) = a - b + W * (b / W + 1) := by
    rw [Nat.mul_add]
    omega
  rw [heq, Nat.add_mul_mod_self_left]
  apply Nat.mod_eq_of_lt
  exact hlt

theorem sub_mod_left {a b : Nat} (hW : 0 < W) (hle : b ≤ a) : sub W (a % W) b = (a - b) % W := by
  unfold sub
  have hb : b % W < W := Nat.mod_lt _ hW
  have hdiv : W * (b / W) + b % W = b := Nat.div_add_mod b W
  have heq : a + (W - b % W) = a - b + W * (b / W + 1) := by
    rw [Nat.mul_add]
    omega
  rw [Nat.mod_add_mod, heq, Nat.add_mul_mod_self_left]

theorem add_one_mod {a b n : Nat} (h : (a + (b + 1)) % W = n % W) : (add W a 1 + b) % W = n % W := by
  unfold add
  rw [Nat.mod_add_mod, Nat.add_assoc, Nat.add_comm 1 b]
  exact h

theorem sub_one_mod {a b n : Nat} (hW : 1 < W) (h : (a + b) % W = (n + 1) % W)
    : (sub W a 1 + b) % W = n % W := by
  unfold sub
  have heq : a + (W - 1) + b = a + b + (W - 1) := by omega
  have hback : n + 1 + (W - 1) = n + W := by omega
  rw [Nat.mod_add_mod, Nat.mod_eq_of_lt hW, heq, Nat.add_mod, h, ← Nat.add_mod, hback, Nat.add_mod_right]

theorem eq_of_mod_eq {a b : Nat} (hle : b ≤ a) (hlt : a - b < W) (h : a % W = b % W) : a = b := by
  have hsub := sub_mod hle hlt
  have hself : sub W (b % W) (b % W) = b - b := sub_mod (Nat.le_refl b) (by omega)
  rw [h, hself] at hsub
  omega

theorem mod_and_mask {k : Nat} (hk : 2 ^ k ∣ W) (a : Nat) : (a % W) &&& (2 ^ k - 1) = a % 2 ^ k := by
  rw [Nat.and_two_pow_sub_one_eq_mod, Nat.mod_mod_of_dvd a hk]

theorem exists_masked_out {cap : Nat} (hcap : 0 < cap) (hpow : ¬ cap.isPowerOfTwo)
    : ∃ j, 2 ^ j < cap ∧ 2 ^ j &&& (cap - 1) = 0 := by
  by_contra hnone
  push Not at hnone
  have hbits : cap - 1 = 2 ^ Nat.clog 2 cap - 1 := by
    apply Nat.eq_of_testBit_eq
    intro i
    rw [Nat.testBit_two_pow_sub_one]
    by_cases hi : i < Nat.clog 2 cap
    . have hset := hnone i (Nat.pow_lt_of_lt_clog hi)
      rw [Nat.and_comm, Nat.and_two_pow] at hset
      cases hbit : (cap - 1).testBit i with
      | false => simp [hbit] at hset
      | true => simp [hi]
    . have hle : cap ≤ 2 ^ i := Nat.clog_le_iff_le_pow (by decide) |>.1 (Nat.le_of_not_lt hi)
      rw [Nat.testBit_lt_two_pow (by omega)]
      simp [hi]
  apply hpow
  refine ⟨Nat.clog 2 cap, ?_⟩
  have hpos := Nat.two_pow_pos (Nat.clog 2 cap)
  omega

/-!
A counter that runs over the laps of a buffer of `cap` cells.
-/

def nextLap (cap a : Nat) : Nat := (a / cap + 1) * cap

theorem nextLap_eq {cap : Nat} (a : Nat) (hcap : 0 < cap) : nextLap cap a = a + (cap - a % cap) := by
  unfold nextLap
  have hlt : a % cap < cap := Nat.mod_lt _ hcap
  have hdiv : cap * (a / cap) + a % cap = a := Nat.div_add_mod a cap
  rw [Nat.add_mul, Nat.mul_comm, Nat.one_mul]
  omega

@[simp]
theorem nextLap_mod_self (cap a : Nat) : nextLap cap a % cap = 0 := by
  unfold nextLap
  apply Nat.mul_mod_left

theorem nextLap_add_mod {cap : Nat} (hdvd : cap ∣ W) (a : Nat) {x : Nat} (hx : x < cap)
    : (nextLap cap a + x) % W = nextLap cap a % W + x := by
  -- A lap does not contain a multiple of `W` behind its begin.
  unfold nextLap
  cases hdvd with
  | intro w hw =>
    have hcap : 0 < cap := by omega
    have hmod : ((a / cap + 1) * cap + x) % cap = x := by
      rw [Nat.add_comm, Nat.add_mul_mod_self_right, Nat.mod_eq_of_lt hx]
    have hdiv : ((a / cap + 1) * cap + x) / cap = a / cap + 1 := by
      rw [Nat.add_comm, Nat.add_mul_div_right _ _ hcap, Nat.div_eq_of_lt hx, Nat.zero_add]
    rw [hw, Nat.mod_mul, hmod, hdiv, Nat.mul_comm _ cap, Nat.mul_mod_mul_left, Nat.add_comm]

theorem nextLap_mod {cap : Nat} (hdvd : cap ∣ W) (a : Nat)
    : nextLap cap (a % W) % W = nextLap cap a % W := by
  unfold nextLap
  cases hdvd with
  | intro w hw =>
    rw [hw, Nat.mod_mul_right_div_self, Nat.mul_comm, Nat.mul_mod_mul_left, Nat.mod_add_mod,
      Nat.mul_comm _ cap, Nat.mul_mod_mul_left]

end Wrap
