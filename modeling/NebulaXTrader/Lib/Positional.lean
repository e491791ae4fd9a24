import Mathlib.Algebra.Ring.Nat
import Mathlib.Data.List.Induction
import Mathlib.Data.Nat.Log

/-!
This module contains numbers of a fixed number of digits, the most significant one first, in any base.
-/

namespace Positional

def digits (b n v : Nat) : List Nat := (List.range n).map (fun i => v / b ^ (n - 1 - i) % b)

def number (b : Nat) (ds : List Nat) : Nat := ds.foldl (fun v d => v * b + d) 0

@[simp]
theorem length_digits (b n v : Nat) : (digits b n v).length = n := by
  simp [digits]

theorem digits_succ (b n v : Nat) : digits b (n + 1) v = digits b n (v / b) ++ [v % b] := by
  unfold digits
  rw [List.range_succ, List.map_append]
  congr 1
  . apply List.map_congr_left
    intro i hi
    have hlt : i < n := List.mem_range.1 hi
    have hexp : n + 1 - 1 - i = n - 1 - i + 1 := by omega
    rw [hexp, Nat.pow_succ', Nat.div_div_eq_div_mul]
  . simp

theorem digits_mod (b n v : Nat) : digits b n (v % b ^ n) = digits b n v := by
  induction n generalizing v with
  | zero => rfl
  | succ n ih =>
    rw [digits_succ, digits_succ, Nat.pow_succ', Nat.mod_mul_right_div_self, Nat.mod_mul_right_mod, ih]

theorem digits_add (b m n v : Nat) : digits b (m + n) v = digits b m (v / b ^ n) ++ digits b n v := by
  induction n generalizing v with
  | zero => simp [digits]
  | succ n ih =>
    rw [← Nat.add_assoc, digits_succ, ih, digits_succ b n, List.append_assoc, Nat.div_div_eq_div_mul,
      Nat.pow_succ']

theorem number_append_singleton (b d : Nat) (ds : List Nat)
    : number b (ds ++ [d]) = number b ds * b + d := by
  unfold number
  rw [List.foldl_append]
  rfl

theorem number_digits (b n v : Nat) : number b (digits b n v) = v % b ^ n := by
  induction n generalizing v with
  | zero =>
    rw [Nat.pow_zero, Nat.mod_one]
    rfl
  | succ n ih =>
    rw [digits_succ, number_append_singleton, ih, Nat.pow_succ', Nat.mod_mul, Nat.mul_comm]
    omega

theorem number_lt {b : Nat} {ds : List Nat} (h : ∀ d ∈ ds, d < b) : number b ds < b ^ ds.length := by
  induction ds using List.reverseRecOn with
  | nil => simp [number]
  | append_singleton ds d ih =>
    have hd : d < b := h d (by simp)
    have hds := ih (fun x hx => h x (by simp [hx]))
    rw [number_append_singleton, List.length_append, List.length_singleton, Nat.pow_succ]
    calc number b ds * b + d < number b ds * b + b := by omega
      _ = (number b ds + 1) * b := by rw [Nat.add_mul, Nat.one_mul]
      _ ≤ b ^ ds.length * b := Nat.mul_le_mul_right b hds

theorem digit_lt {b n v d : Nat} (hb : 0 < b) (h : d ∈ digits b n v) : d < b := by
  unfold digits at h
  cases List.mem_map.1 h with
  | intro i hi =>
    rw [← hi.2]
    apply Nat.mod_lt
    exact hb

theorem digits_number {b : Nat} {ds : List Nat} (h : ∀ d ∈ ds, d < b) : digits b ds.length (number b ds) = ds := by
  induction ds using List.reverseRecOn with
  | nil => rfl
  | append_singleton ds d ih =>
    have hd : d < b := h d (by simp)
    have hds := ih (fun x hx => h x (by simp [hx]))
    have hdiv : (number b ds * b + d) / b = number b ds := by
      rw [Nat.mul_comm, Nat.mul_add_div (by omega), Nat.div_eq_of_lt hd, Nat.add_zero]
    have hmod : (number b ds * b + d) % b = d := by
      rw [Nat.mul_comm, Nat.mul_add_mod, Nat.mod_eq_of_lt hd]
    rw [number_append_singleton, List.length_append, List.length_singleton, digits_succ, hdiv, hmod, hds]

/-!
Big endian words.
-/

def bytes (n v : Nat) : List UInt8 := (digits 256 n v).map UInt8.ofNat

def word (bs : List UInt8) : Nat := number 256 (bs.map UInt8.toNat)

@[simp]
theorem length_bytes (n v : Nat) : (bytes n v).length = n := by
  simp [bytes]

theorem bytes_add (m n v : Nat) : bytes (m + n) v = bytes m (v / 256 ^ n) ++ bytes n v := by
  unfold bytes
  rw [digits_add, List.map_append]

theorem word_append_singleton (bs : List UInt8) (b : UInt8) : word (bs ++ [b]) = word bs * 256 + b.toNat := by
  unfold word
  rw [List.map_append]
  exact number_append_singleton 256 b.toNat (bs.map UInt8.toNat)

theorem bytes_congr {n v w : Nat} (h : v % 256 ^ n = w % 256 ^ n) : bytes n v = bytes n w := by
  unfold bytes
  rw [← digits_mod 256 n v, h, digits_mod]

theorem word_bytes (n v : Nat) : word (bytes n v) = v % 256 ^ n := by
  unfold word bytes
  rw [List.map_map]
  have hid : (digits 256 n v).map (UInt8.toNat ∘ UInt8.ofNat) = digits 256 n v := by
    conv => rhs; rw [← List.map_id (digits 256 n v)]
    apply List.map_congr_left
    intro d hd
    have hlt := digit_lt (by decide) hd
    show (UInt8.ofNat d).toNat = d
    rw [UInt8.toNat_ofNat', Nat.mod_eq_of_lt (by omega)]
  rw [hid, number_digits]

theorem word_lt (bs : List UInt8) : word bs < 256 ^ bs.length := by
  have hlt : ∀ d ∈ bs.map UInt8.toNat, d < 256 := by
    intro d hd
    obtain ⟨x, _, rfl⟩ := List.mem_map.1 hd
    exact x.toNat_lt
  have hnumber := number_lt hlt
  rwa [List.length_map] at hnumber

theorem bytes_word (bs : List UInt8) : bytes bs.length (word bs) = bs := by
  have hlt : ∀ d ∈ bs.map UInt8.toNat, d < 256 := by
    intro d hd
    cases List.mem_map.1 hd with
    | intro x hx =>
      rw [← hx.2]
      exact x.toNat_lt
  have hdigits := digits_number hlt
  rw [List.length_map] at hdigits
  unfold bytes word
  rw [hdigits, List.map_map]
  conv => rhs; rw [← List.map_id bs]
  apply List.map_congr_left
  intro x _
  exact UInt8.ofNat_toNat

end Positional
