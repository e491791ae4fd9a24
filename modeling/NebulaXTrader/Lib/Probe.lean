import Mathlib.Logic.Function.Basic
import Mathlib.Data.Nat.ModEq

/-!
This module contains the theory of open addressing with linear probing: a table is a function from
slots to keys in which two keys are reserved, `empty` for slots that were never used and `tomb` for
slots whose key was deleted.
-/

namespace Probe

def scan (stop : Nat → Bool) (cap : Nat) : Nat → Nat → Option Nat
  | 0, _ => none
  | fuel + 1, i => if stop i then some i else scan stop cap fuel ((i + 1) % cap)

theorem mod_succ_add (cap i n : Nat) : ((i + 1) % cap + n) % cap = (i + (n + 1)) % cap := by
  rw [Nat.mod_add_mod]
  congr 1
  omega

theorem scan_eq_some {stop : Nat → Bool} {cap fuel i j : Nat} (hi : i < cap)
    (h : scan stop cap fuel i = some j)
    : ∃ n, n < fuel ∧ j = (i + n) % cap ∧ stop j = true ∧
        ∀ m, m < n → stop ((i + m) % cap) = false := by
  induction fuel generalizing i with
  | zero => simp [scan] at h
  | succ fuel ih =>
    unfold scan at h
    split at h
    . next hs =>
      cases h
      refine ⟨0, by omega, ?_, hs, by omega⟩
      rw [Nat.add_zero, Nat.mod_eq_of_lt hi]
    . next hs =>
      obtain ⟨n, hn, hj, hstop, hbefore⟩ := ih (Nat.mod_lt _ (by omega)) h
      refine ⟨n + 1, by omega, ?_, hstop, ?_⟩
      . rw [hj, mod_succ_add]
      . intro m hm
        cases m with
        | zero =>
          rw [Nat.add_zero, Nat.mod_eq_of_lt hi]
          simpa using hs
        | succ m =>
          have := hbefore m (by omega)
          rwa [mod_succ_add] at this

theorem scan_of_first {stop : Nat → Bool} {cap fuel i n : Nat} (hi : i < cap) (hn : n < fuel)
    (hstop : stop ((i + n) % cap) = true) (hbefore : ∀ m, m < n → stop ((i + m) % cap) = false)
    : scan stop cap fuel i = some ((i + n) % cap) := by
  induction fuel generalizing i n with
  | zero => omega
  | succ fuel ih =>
    cases n with
    | zero =>
      rw [Nat.add_zero, Nat.mod_eq_of_lt hi] at hstop
      simp [scan, hstop, Nat.mod_eq_of_lt hi]
    | succ n =>
      have h0 := hbefore 0 (by omega)
      rw [Nat.add_zero, Nat.mod_eq_of_lt hi] at h0
      simp only [scan, h0, Bool.false_eq_true, if_false]
      rw [← mod_succ_add] at hstop
      rw [← mod_succ_add cap i n]
      apply ih (Nat.mod_lt _ (by omega)) (by omega) hstop
      intro m hm
      rw [mod_succ_add]
      exact hbefore (m + 1) (by omega)

theorem scan_eq_none {stop : Nat → Bool} {cap fuel i : Nat} (hi : i < cap)
    (h : scan stop cap fuel i = none) : ∀ n, n < fuel → stop ((i + n) % cap) = false := by
  intro n
  induction n using Nat.strong_induction_on with
  | _ n ih =>
    intro hn
    cases hs : stop ((i + n) % cap) with
    | false => rfl
    | true =>
      rw [scan_of_first hi hn hs (fun m hm => ih m hm (by omega))] at h
      cases h

theorem exists_offset {cap h j : Nat} (hh : h < cap) (hj : j < cap)
    : ∃ n, n < cap ∧ (h + n) % cap = j := by
  by_cases hle : h ≤ j
  . refine ⟨j - h, by omega, ?_⟩
    rw [show h + (j - h) = j by omega, Nat.mod_eq_of_lt hj]
  . refine ⟨j + cap - h, by omega, ?_⟩
    rw [show h + (j + cap - h) = j + cap by omega, Nat.add_mod_right, Nat.mod_eq_of_lt hj]

theorem offset_inj {cap h m n : Nat} (hm : m < cap) (hn : n < cap)
    (heq : (h + m) % cap = (h + n) % cap) : m = n := by
  have : m ≡ n [MOD cap] := Nat.ModEq.add_left_cancel' h heq
  rwa [Nat.ModEq, Nat.mod_eq_of_lt hm, Nat.mod_eq_of_lt hn] at this

section Placed

variable {κ : Type} {home : κ → Nat} {cap : Nat} {empty tomb : κ} {key : Nat → κ}

/--
Every key sits in one slot only, and no empty slot interrupts the probe sequence that leads to it.
-/
structure Placed (home : κ → Nat) (cap : Nat) (empty tomb : κ) (key : Nat → κ) : Prop where
  home_lt : ∀ p, home p < cap
  inj : ∀ i j, i < cap → j < cap → key i ≠ empty → key i ≠ tomb → key i = key j → i = j
  reach : ∀ j, j < cap → key j ≠ empty → key j ≠ tomb →
    ∃ n, n < cap ∧ j = (home (key j) + n) % cap ∧
      ∀ m, m < n → key ((home (key j) + m) % cap) ≠ empty

theorem Placed.init (hhome : ∀ p, home p < cap) (h : ∀ i, i < cap → key i = empty)
    : Placed home cap empty tomb key := by
  refine ⟨hhome, ?_, ?_⟩
  . intro i _ hi _ hne
    exact absurd (h i hi) hne
  . intro j hj hne
    exact absurd (h j hj) hne

theorem Placed.scan_stored [DecidableEq κ] (h : Placed home cap empty tomb key) {j : Nat} (hj : j < cap)
    (he : key j ≠ empty) (ht : key j ≠ tomb)
    : scan (fun i => key i = key j ∨ key i = empty) cap cap (home (key j)) = some j := by
  obtain ⟨n, hn, hjn, hbefore⟩ := h.reach j hj he ht
  have hlt := h.home_lt (key j)
  conv => rhs; rw [hjn]
  apply scan_of_first hlt hn
  . rw [← hjn]
    simp
  . intro m hm
    have hne : key ((home (key j) + m) % cap) ≠ key j := by
      intro heq
      have hlt' : (home (key j) + m) % cap < cap := Nat.mod_lt _ (by omega)
      have hsame := h.inj j _ hj hlt' he ht heq.symm
      have := offset_inj (h := home (key j)) hn (by omega) (hjn.symm.trans hsame)
      omega
    simp [hne, hbefore m hm]

theorem Placed.insert (h : Placed home cap empty tomb key) {p : κ} {n : Nat} (hn : n < cap)
    (hpe : p ≠ empty) (hnew : ∀ i, i < cap → key i ≠ p)
    (hbefore : ∀ m, m < n → key ((home p + m) % cap) ≠ empty)
    : Placed home cap empty tomb (Function.update key ((home p + n) % cap) p) := by
  have hlt : (home p + n) % cap < cap := Nat.mod_lt _ (by omega)
  have hne : ∀ i, Function.update key ((home p + n) % cap) p i ≠ empty ∨
      Function.update key ((home p + n) % cap) p i = key i := by
    intro i
    by_cases hi : i = (home p + n) % cap
    . left
      subst hi
      simpa using hpe
    . right
      simp [hi]
  refine ⟨h.home_lt, ?_, ?_⟩
  . intro i j hi hj he ht heq
    by_cases hin : i = (home p + n) % cap
    . by_cases hjn : j = (home p + n) % cap
      . rw [hin, hjn]
      . subst hin
        rw [Function.update_self, Function.update_of_ne hjn] at heq
        exact absurd heq.symm (hnew j hj)
    . rw [Function.update_of_ne hin] at he ht heq
      by_cases hjn : j = (home p + n) % cap
      . subst hjn
        rw [Function.update_self] at heq
        exact absurd heq (hnew i hi)
      . rw [Function.update_of_ne hjn] at heq
        exact h.inj i j hi hj he ht heq
  . intro j hj he ht
    by_cases hjn : j = (home p + n) % cap
    . subst hjn
      rw [Function.update_self]
      refine ⟨n, hn, rfl, ?_⟩
      intro m hm
      cases hne ((home p + m) % cap) with
      | inl h1 => exact h1
      | inr h1 =>
        rw [h1]
        exact hbefore m hm
    . rw [Function.update_of_ne hjn] at he ht ⊢
      obtain ⟨k, hk, hjk, hpath⟩ := h.reach j hj he ht
      refine ⟨k, hk, hjk, ?_⟩
      intro m hm
      cases hne ((home (key j) + m) % cap) with
      | inl h1 => exact h1
      | inr h1 =>
        rw [h1]
        exact hpath m hm

theorem Placed.erase (h : Placed home cap empty tomb key) (hte : tomb ≠ empty) (i : Nat)
    : Placed home cap empty tomb (Function.update key i tomb) := by
  have hkeep : ∀ j, Function.update key i tomb j ≠ tomb → Function.update key i tomb j = key j := by
    intro j hj
    have : j ≠ i := by
      rintro rfl
      simp at hj
    simp [this]
  refine ⟨h.home_lt, ?_, ?_⟩
  . intro a b ha hb he ht heq
    have hka := hkeep a ht
    have hkb := hkeep b (heq ▸ ht)
    rw [hka] at he ht heq
    rw [hkb] at heq
    exact h.inj a b ha hb he ht heq
  . intro j hj he ht
    have hkj := hkeep j ht
    rw [hkj] at he ht ⊢
    obtain ⟨n, hn, hjn, hpath⟩ := h.reach j hj he ht
    refine ⟨n, hn, hjn, ?_⟩
    intro m hm
    by_cases hi : (home (key j) + m) % cap = i
    . rw [hi, Function.update_self]
      exact hte
    . rw [Function.update_of_ne hi]
      exact hpath m hm

end Placed

end Probe
