import Mathlib.Logic.Function.Basic
import NebulaXTrader.Lib.Cells

/-!
This module contains a queue in `cap` cells that are used round and round, with the position of its head and its length.
-/

namespace CircularQueue

variable {α : Type} {cells : Nat → α} {cap head len : Nat}

def items (cells : Nat → α) (cap head len : Nat) : List α := Cells.stream cells cap head len

@[simp]
theorem length_items (cells : Nat → α) (cap head len : Nat) : (items cells cap head len).length = len :=
  Cells.length_stream cells cap head len

theorem items_push (x : α) (h : len < cap)
    : items (Function.update cells ((head + len) % cap) x) cap head (len + 1) = items cells cap head len ++ [x] := by
  unfold items
  rw [Cells.stream_add]
  congr 1
  . apply Cells.stream_congr
    intro q hle hlt
    rw [Function.update_of_ne]
    intro heq
    have hsame := Wrap.eq_of_mod_eq (W := cap) (by omega) (by omega) heq.symm
    omega
  . show [Function.update cells ((head + len) % cap) x ((head + len) % cap)] = [x]
    rw [Function.update_self]

theorem items_pop (cells : Nat → α) (cap head len : Nat)
    : items cells cap head (len + 1) = cells (head % cap) :: items cells cap (head + 1) len := by
  unfold items
  rw [Nat.add_comm len 1, Cells.stream_add]
  rfl

theorem items_mod {W : Nat} (h : cap ∣ W) (cells : Nat → α) (head len : Nat)
    : items cells cap (head % W) len = items cells cap head len := by
  unfold items Cells.stream
  apply List.map_congr_left
  intro i _
  rw [Nat.add_mod (head % W), Nat.mod_mod_of_dvd head h, ← Nat.add_mod]

end CircularQueue
