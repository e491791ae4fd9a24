import Mathlib.Algebra.Order.Ring.Int

/-!
This module contains the running average of integers that is kept as a quotient only. What the division of an
update drops is lost, and the losses of many updates add up.
-/

namespace RunningAverage

/--
The average of `n` units at `avg` and `q` further units at `price`, rounded towards zero.
-/
def update (avg n price q : Int) : Int := (avg * n + price * q).tdiv (n + q)

def lost (avg n price q : Int) : Int := (avg * n + price * q).tmod (n + q)

variable {avg n price q : Int}

theorem update_mul (avg n price q : Int)
    : update avg n price q * (n + q) = avg * n + price * q - lost avg n price q := by
  have hdiv := Int.tmod_add_mul_tdiv (avg * n + price * q) (n + q)
  have hcomm := Int.mul_comm (n + q) ((avg * n + price * q).tdiv (n + q))
  unfold update lost
  omega

theorem update_nonneg (hworth : 0 ≤ avg * n) (hn : 0 ≤ n) (hprice : 0 ≤ price) (hq : 0 ≤ q)
    : 0 ≤ update avg n price q := by
  apply Int.tdiv_nonneg
  . exact add_nonneg hworth (mul_nonneg hprice hq)
  . exact add_nonneg hn hq

theorem lost_nonneg (hworth : 0 ≤ avg * n) (hprice : 0 ≤ price) (hq : 0 ≤ q) : 0 ≤ lost avg n price q := by
  apply Int.tmod_nonneg
  exact add_nonneg hworth (mul_nonneg hprice hq)

theorem lost_lt (h : 0 < n + q) : lost avg n price q < n + q :=
  Int.tmod_lt_of_pos _ h

theorem lost_of_first : lost avg 0 price q = 0 := by
  unfold lost
  rw [Int.mul_zero, Int.zero_add, Int.zero_add, Int.mul_tmod_left]

end RunningAverage
