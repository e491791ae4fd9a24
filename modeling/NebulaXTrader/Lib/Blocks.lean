import NebulaXTrader.Lib.Cells

/-!
This module contains memory in blocks of `size` cells that two parties lend to each other, and copies out of it that
take one cell after the other while somebody else writes.
-/

namespace Blocks

open Cells (read write)

variable {α : Type} {size a n : Nat}

/--
The `n` cells from the address on stand in one block.
-/
def Fits (size a n : Nat) : Prop := a % size + n ≤ size

instance : Decidable (Fits size a n) := inferInstanceAs (Decidable (_ ≤ _))

theorem Fits.block_eq (h : Fits size a n) {i : Nat} (hi : i < n) : (a + i) / size = a / size := by
  unfold Fits at h
  have hadd : a + i = (a % size + i) + size * (a / size) := by
    have hdiv := Nat.mod_add_div a size
    omega
  have hlt : a % size + i < size := by omega
  rw [hadd, Nat.add_mul_div_left _ _ (by omega), Nat.div_eq_of_lt hlt, Nat.zero_add]

theorem write_of_other_block (mem : Nat → α) {xs : List α} (h : Fits size a xs.length) {i : Nat}
    (hne : i / size ≠ a / size) : write mem a xs i = mem i := by
  rcases Nat.lt_or_ge i a with hlt | hge
  . apply Cells.write_of_lt
    exact hlt
  . apply Cells.write_of_ge
    by_contra hin
    apply hne
    have hi : i = a + (i - a) := by omega
    rw [hi]
    apply h.block_eq
    omega

theorem getElem_read (mem : Nat → α) {i : Nat} (h : i < (Cells.read mem a n).length)
    : (Cells.read mem a n)[i] = mem (a + i) := by
  simp [Cells.read]

theorem read_congr {mem mem' : Nat → α} (h : ∀ i, i < n → mem' (a + i) = mem (a + i))
    : read mem' a n = read mem a n := by
  unfold Cells.read
  apply List.map_congr_left
  intro i hi
  apply h
  exact List.mem_range.1 hi

theorem read_write_of_other_block (mem : Nat → α) {b : Nat} {xs : List α} (h : Fits size a xs.length)
    (hread : Fits size b n) (hne : b / size ≠ a / size) : read (write mem a xs) b n = read mem b n := by
  apply read_congr
  intro i hi
  apply write_of_other_block mem h
  rwa [hread.block_eq hi]

theorem read_write_self (mem : Nat → α) (a : Nat) (xs : List α) : read (write mem a xs) a xs.length = xs := by
  apply List.ext_getElem
  . simp
  . intro i _ hi
    rw [getElem_read, Cells.write_of_mem mem xs hi]

theorem slice_read (mem : Nat → α) {off m : Nat} (h : off + m ≤ n)
    : ((read mem a n).drop off).take m = read mem (a + off) m := by
  apply List.ext_getElem
  . simp only [List.length_take, List.length_drop, Cells.length_read]
    omega
  . intro i _ _
    rw [List.getElem_take, List.getElem_drop, getElem_read, getElem_read, Nat.add_assoc]

/-!
A copy of the cells from `a` on has got as far as `out`.
-/

section

variable {mem mem' : Nat → α} {out want : List α}

/--
What is copied, with what the cells behind it hold now, is what the copy is to be.
-/
def Intact (mem : Nat → α) (a n : Nat) (want out : List α) : Prop :=
  out ++ read mem (a + out.length) (n - out.length) = want

def Awaits (a n : Nat) (out : List α) (i : Nat) : Prop := a + out.length ≤ i ∧ i < a + n

instance (a n : Nat) (out : List α) (i : Nat) : Decidable (Awaits a n out i) := inferInstanceAs (Decidable (_ ∧ _))

theorem intact_nil (h : read mem a n = want) : Intact mem a n want [] := h

theorem Intact.next (h : Intact mem a n want out) (hlt : out.length < n)
    : Intact mem a n want (out ++ [mem (a + out.length)]) := by
  unfold Intact at h ⊢
  have hrest : n - out.length = (n - (out.length + 1)) + 1 := by omega
  have hsplit : read mem (a + out.length) (n - out.length) =
      mem (a + out.length) :: read mem (a + (out.length + 1)) (n - (out.length + 1)) := by
    rw [hrest]
    unfold Cells.read
    rw [List.range_succ_eq_map, List.map_cons, List.map_map]
    congr 1
    apply List.map_congr_left
    intro i _
    show mem _ = mem _
    congr 1
    omega
  rw [hsplit] at h
  rw [List.length_append, List.length_singleton, List.append_assoc]
  exact h

theorem Intact.done (h : Intact mem a n want out) (hge : n ≤ out.length) : out = want := by
  unfold Intact at h
  rw [Nat.sub_eq_zero_of_le hge] at h
  rw [← h]
  exact (List.append_nil out).symm

theorem Intact.congr (h : Intact mem a n want out) (hsame : ∀ i, Awaits a n out i → mem' i = mem i)
    : Intact mem' a n want out := by
  unfold Intact at h ⊢
  rw [← h]
  congr 1
  apply read_congr
  intro i hi
  apply hsame
  constructor
  . omega
  . omega

end

end Blocks
