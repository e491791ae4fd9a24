import NebulaXTrader.Lib.Positional

/-!
This module contains reads of bytes that are none outside of the bytes. A computation made of them has a value exactly
if every byte that it reads is there.
-/

namespace CheckedRead

variable {m : List UInt8} {n off : Nat}

def byte (m : List UInt8) (off : Nat) : Option Nat := m[off]?.map UInt8.toNat

/--
The big endian number in the `n` bytes at the offset, read byte by byte.
-/
def bigEndian (n : Nat) (m : List UInt8) (off : Nat) : Option Nat :=
  (List.range n).foldlM (fun v i => (byte m (off + i)).map (fun b => v * 256 + b)) 0

theorem byte_eq (h : off < m.length) : byte m off = some m[off].toNat := by
  unfold byte
  rw [List.getElem?_eq_getElem h]
  rfl

theorem bigEndian_eq (h : off + n ≤ m.length) : bigEndian n m off = some (Positional.word ((m.drop off).take n)) := by
  induction n with
  | zero => rfl
  | succ n ih =>
    have hlt : off + n < m.length := by omega
    have hdrop : n < (m.drop off).length := by
      rw [List.length_drop]
      omega
    have hread := ih (by omega)
    unfold bigEndian at hread ⊢
    rw [List.range_succ, List.foldlM_append, hread, List.take_succ_eq_append_getElem hdrop, List.getElem_drop,
      Positional.word_append_singleton]
    show (byte m (off + n)).map _ >>= pure = _
    rw [byte_eq hlt]
    rfl

theorem byte_append {pre post : List UInt8} {b : UInt8} (hpre : pre.length = off)
    : byte (pre ++ (b :: post)) off = some b.toNat := by
  unfold byte
  rw [← hpre, List.getElem?_append_right (Nat.le_refl _), Nat.sub_self]
  rfl

theorem bigEndian_append {pre x post : List UInt8} (hpre : pre.length = off) (hx : x.length = n)
    : bigEndian n (pre ++ (x ++ post)) off = some (Positional.word x) := by
  have hlength : off + n ≤ (pre ++ (x ++ post)).length := by
    simp only [List.length_append]
    omega
  rw [bigEndian_eq hlength, List.drop_left' hpre, List.take_left' hx]

end CheckedRead
