import Mathlib.Algebra.BigOperators.Group.Finset.Basic
import Mathlib.Data.Fintype.Basic
import Mathlib.Data.List.Nodup

/-!
This module contains arrays of a fixed length of which only few cells differ from the default: only the
cells that were written are stored.
-/

structure SparseArray (α : Type) (n : Nat) where
  entries : List (Fin n × α)
  nodup : (entries.map Prod.fst).Nodup

namespace SparseArray

variable {α : Type} {n : Nat}

def empty : SparseArray α n where
  entries := []
  nodup := List.nodup_nil

def read (entries : List (Fin n × α)) (dflt : α) (i : Fin n) : α :=
  match entries with
  | [] => dflt
  | e :: entries => if e.1 = i then e.2 else read entries dflt i

def get (a : SparseArray α n) (dflt : α) (i : Fin n) : α := read a.entries dflt i

def set (a : SparseArray α n) (i : Fin n) (x : α) : SparseArray α n where
  entries := (i, x) :: a.entries.filter (fun e => e.1 ≠ i)
  nodup := by
    rw [List.map_cons, List.nodup_cons]
    constructor
    . simp
    . apply List.Nodup.sublist _ a.nodup
      apply List.Sublist.map
      apply List.filter_sublist

theorem get_set_self (a : SparseArray α n) (dflt : α) (i : Fin n) (x : α)
    : (a.set i x).get dflt i = x := by
  unfold get set read
  simp

theorem read_filter_of_ne (entries : List (Fin n × α)) (dflt : α) {i j : Fin n} (h : j ≠ i)
    : read (entries.filter (fun e => e.1 ≠ i)) dflt j = read entries dflt j := by
  induction entries with
  | nil => rfl
  | cons e entries ih =>
    by_cases he : e.1 = i
    . have hj : ¬ e.1 = j := by
        intro hj
        apply h
        rw [← hj, he]
      rw [List.filter_cons_of_neg (by simpa using he)]
      simp only [read, if_neg hj]
      exact ih
    . rw [List.filter_cons_of_pos (by simpa using he)]
      simp only [read]
      rw [ih]

theorem get_set_of_ne (a : SparseArray α n) (dflt : α) {i j : Fin n} (x : α) (h : j ≠ i)
    : (a.set i x).get dflt j = a.get dflt j := by
  have hi : ¬ i = j := fun he => h he.symm
  unfold get set
  simp only [read, if_neg hi]
  apply read_filter_of_ne
  exact h

theorem get_set (a : SparseArray α n) (dflt : α) (i j : Fin n) (x : α)
    : (a.set i x).get dflt j = if j = i then x else a.get dflt j := by
  split
  . next h =>
    rw [h]
    apply get_set_self
  . next h =>
    apply get_set_of_ne
    exact h

theorem read_of_not_mem {entries : List (Fin n × α)} {dflt : α} {i : Fin n}
    (h : i ∉ entries.map Prod.fst) : read entries dflt i = dflt := by
  induction entries with
  | nil => rfl
  | cons e entries ih =>
    rw [List.map_cons, List.mem_cons, not_or] at h
    simp only [read, if_neg (Ne.symm h.1)]
    exact ih h.2

theorem sum_read {M : Type} [AddCommMonoid M] (f : α → M) {dflt : α} (hf : f dflt = 0)
    {entries : List (Fin n × α)} (hnodup : (entries.map Prod.fst).Nodup)
    : (entries.map (fun e => f e.2)).sum = ∑ i, f (read entries dflt i) := by
  induction entries with
  | nil => simp [read, hf]
  | cons e entries ih =>
    rw [List.map_cons, List.nodup_cons] at hnodup
    have hself : read (e :: entries) dflt e.1 = e.2 := by
      simp only [read, if_true]
    have hzero : read entries dflt e.1 = dflt := read_of_not_mem hnodup.1
    rw [List.map_cons, List.sum_cons, ih hnodup.2,
      ← Finset.add_sum_erase _ (fun i => f (read entries dflt i)) (Finset.mem_univ e.1),
      ← Finset.add_sum_erase _ (fun i => f (read (e :: entries) dflt i)) (Finset.mem_univ e.1),
      hzero, hf, zero_add, hself]
    congr 1
    apply Finset.sum_congr rfl
    intro i hi
    have hne : ¬ e.1 = i := fun he => (Finset.mem_erase.1 hi).1 he.symm
    simp only [read, if_neg hne]

theorem sum_entries {M : Type} [AddCommMonoid M] (a : SparseArray α n) (f : α → M) {dflt : α}
    (hf : f dflt = 0) : (a.entries.map (fun e => f e.2)).sum = ∑ i, f (a.get dflt i) :=
  sum_read f hf a.nodup

end SparseArray
