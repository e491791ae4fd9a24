/-!
This module contains a counter on which consumers sleep while it is 0: which steps can leave a consumer asleep
that has work.
-/

structure Doorbell (ι : Type) where
  count : Nat
  asleep : ι → Prop
  work : ι → Prop
  owed : Prop

namespace Doorbell

variable {ι : Type} {d d' : Doorbell ι}

/--
A sleeper that has work is woken by the counter, or a producer still owes a ring.
-/
def Sound (d : Doorbell ι) : Prop := ∀ i, d.asleep i → d.work i → d.count = 0 → d.owed

theorem Sound.of_owed (h : d.owed) : Sound d := by
  intro _ _ _ _
  exact h

theorem Sound.of_count (h : d.count ≠ 0) : Sound d := by
  intro _ _ _ hzero
  exact absurd hzero h

theorem Sound.frame (h : Sound d) (hasleep : ∀ i, d'.asleep i → d.asleep i ∧ (d'.work i → d.work i))
    (hcount : d'.count = 0 → d.count = 0) (howed : d.owed → d'.owed) : Sound d' := by
  intro i hi hwork hzero
  have hold := hasleep i hi
  exact howed (h i hold.1 (hold.2 hwork) (hcount hzero))

theorem Sound.sleep_iff (h : Sound d) {i : ι} (hi : d'.asleep i)
    (hasleep : ∀ j, d'.asleep j → j = i ∨ d.asleep j) (hwork : d'.work = d.work) (hcount : d'.count = d.count)
    (howed : d'.owed ↔ d.owed) : Sound d' ↔ (d.work i → d.count = 0 → d.owed) := by
  constructor
  . intro h' hw hzero
    rw [← howed]
    apply h' i hi
    . rw [hwork]
      exact hw
    . rw [hcount]
      exact hzero
  . intro hcase j hj hw hzero
    rw [hwork] at hw
    rw [hcount] at hzero
    rw [howed]
    cases hasleep j hj with
    | inl heq =>
      rw [heq] at hw
      exact hcase hw hzero
    | inr hold => exact h j hold hw hzero

theorem sound_take_iff (hasleep : ∀ j, d'.asleep j ↔ d.asleep j) (hwork : d'.work = d.work) (hcount : d'.count = 0)
    (howed : d'.owed ↔ d.owed) : Sound d' ↔ ∀ j, d.asleep j → d.work j → d.owed := by
  constructor
  . intro h' j hj hw
    rw [← howed]
    apply h' j
    . exact (hasleep j).2 hj
    . rw [hwork]
      exact hw
    . exact hcount
  . intro hall j hj hw _
    rw [howed]
    apply hall j
    . exact (hasleep j).1 hj
    . rw [← hwork]
      exact hw

end Doorbell
