import Mathlib.Data.List.Basic
import NebulaXTrader.Lib.Run

/-!
This module contains the termination of a labelled transition system by a rank of its states: a bound on the number of
the steps that lower the rank, and the arrival at a final state.
-/

namespace Run

variable {σ α : Type} {step : σ → α → Option σ} {p final : σ → Prop} {counts : α → Bool} {rank : σ → Nat}

/--
A run takes no more counted steps than its first state has rank, if a counted step lowers the rank and no step raises it.
-/
theorem countP_le
    (hstep : ∀ s a s', p s → step s a = some s' →
      p s' ∧ rank s' ≤ rank s ∧ (counts a = true → rank s' < rank s))
    {s s' : σ} {as : List α} (hs : p s) (hexec : exec step s as = some s')
    : as.countP counts + rank s' ≤ rank s := by
  induction as generalizing s with
  | nil =>
    cases hexec
    exact Nat.le_of_eq (Nat.zero_add _)
  | cons a as ih =>
    unfold exec at hexec
    split at hexec
    . next s₁ h₁ =>
      obtain ⟨hp, hle, hlt⟩ := hstep s a s₁ hs h₁
      have hrest := ih hp hexec
      rw [List.countP_cons]
      split
      . next hcounts =>
        have hdown := hlt hcounts
        omega
      . omega
    . cases hexec

theorem reaches_final
    (hstep : ∀ s, p s → final s ∨ ∃ a s', step s a = some s' ∧ p s' ∧ rank s' < rank s)
    {s : σ} (hs : p s) : ∃ s', Reaches step s s' ∧ final s' := by
  induction hrank : rank s using Nat.strongRecOn generalizing s with
  | ind n ih =>
    cases hstep s hs with
    | inl hfinal => exact ⟨s, Reaches.refl s, hfinal⟩
    | inr hnext =>
      obtain ⟨a, s₁, hs₁, hp, hlt⟩ := hnext
      obtain ⟨s', hreaches, hfinal⟩ := ih (rank s₁) (hrank ▸ hlt) hp rfl
      exact ⟨s', hreaches.head hs₁, hfinal⟩

end Run
