import NebulaXTrader.Lib.Wrap

/-!
This module contains memory as a function of the address, the copies into and out of it, and a buffer
of `cap` cells of it through which a stream is written lap after lap.
-/

namespace Cells

variable {α : Type}

def write (mem : Nat → α) (pos : Nat) (xs : List α) : Nat → α :=
  fun i => if pos ≤ i then xs.getD (i - pos) (mem i) else mem i

def writeAll (mem : Nat → α) (copies : List (Nat × List α)) : Nat → α :=
  copies.foldl (fun mem c => write mem c.1 c.2) mem

def read (mem : Nat → α) (pos n : Nat) : List α := (List.range n).map (fun i => mem (pos + i))

@[simp]
theorem length_read (mem : Nat → α) (pos n : Nat) : (read mem pos n).length = n := by
  simp [read]

theorem write_of_lt (mem : Nat → α) (xs : List α) {pos i : Nat} (h : i < pos)
    : write mem pos xs i = mem i := by
  unfold write
  rw [if_neg (by omega)]

theorem write_of_ge (mem : Nat → α) (xs : List α) {pos i : Nat} (h : pos + xs.length ≤ i)
    : write mem pos xs i = mem i := by
  unfold write
  split
  . rw [List.getD_eq_getElem?_getD, List.getElem?_eq_none (by omega), Option.getD_none]
  . rfl

theorem write_of_mem (mem : Nat → α) (xs : List α) {pos i : Nat} (h : i < xs.length)
    : write mem pos xs (pos + i) = xs[i] := by
  unfold write
  rw [if_pos (by omega), Nat.add_sub_cancel_left, List.getD_eq_getElem?_getD,
    List.getElem?_eq_getElem h, Option.getD_some]

/-!
A stream position `p` lives in the cell `p % cap`.
-/

def stream (mem : Nat → α) (cap p n : Nat) : List α :=
  (List.range n).map (fun i => mem ((p + i) % cap))

@[simp]
theorem length_stream (mem : Nat → α) (cap p n : Nat) : (stream mem cap p n).length = n := by
  simp [stream]

@[simp]
theorem stream_zero (mem : Nat → α) (cap p : Nat) : stream mem cap p 0 = [] := rfl

theorem getElem?_stream {mem : Nat → α} {cap p n i : Nat} {x : α} (h : (stream mem cap p n)[i]? = some x)
    : mem ((p + i) % cap) = x := by
  unfold stream at h
  rw [List.getElem?_map, Option.map_eq_some_iff] at h
  obtain ⟨j, hj, hx⟩ := h
  obtain ⟨hlt, hget⟩ := List.getElem?_eq_some_iff.1 hj
  rw [List.getElem_range] at hget
  rw [hget]
  exact hx

theorem stream_add (mem : Nat → α) (cap p m n : Nat)
    : stream mem cap p (m + n) = stream mem cap p m ++ stream mem cap (p + m) n := by
  unfold stream
  rw [List.range_add, List.map_append, List.map_map]
  congr 1
  apply List.map_congr_left
  intro i _
  simp [Nat.add_assoc]

theorem stream_congr {mem mem' : Nat → α} {cap p n : Nat}
    (h : ∀ q, p ≤ q → q < p + n → mem' (q % cap) = mem (q % cap))
    : stream mem' cap p n = stream mem cap p n := by
  unfold stream
  apply List.map_congr_left
  intro i hi
  have hlt : i < n := List.mem_range.1 hi
  apply h
  . omega
  . omega

theorem mod_add_of_fits {cap p i : Nat} (h : p % cap + i < cap) : (p + i) % cap = p % cap + i := by
  rw [Nat.add_mod, Nat.mod_eq_of_lt (a := i) (by omega), Nat.mod_eq_of_lt h]

theorem read_eq_stream {cap p n : Nat} (mem : Nat → α) (h : p % cap + n ≤ cap)
    : read mem (p % cap) n = stream mem cap p n := by
  unfold read stream
  apply List.map_congr_left
  intro i hi
  have hlt : i < n := List.mem_range.1 hi
  rw [mod_add_of_fits (by omega)]

theorem take_stream {mem : Nat → α} {cap p m n : Nat} (h : m ≤ n)
    : (stream mem cap p n).take m = stream mem cap p m := by
  have heq : n = m + (n - m) := by omega
  rw [heq, stream_add, List.take_left' (by simp)]

theorem drop_stream {mem : Nat → α} {cap p m n : Nat} (h : m ≤ n)
    : (stream mem cap p n).drop m = stream mem cap (p + m) (n - m) := by
  have heq : n = m + (n - m) := by omega
  rw [heq, stream_add, List.drop_left' (by simp)]
  simp

theorem write_at {cap p q : Nat} (mem : Nat → α) (xs : List α) (hfit : p % cap + xs.length ≤ cap)
    (hle : p ≤ q) (hlt : q < p + cap)
    : write mem (p % cap) xs (q % cap) = (xs[q - p]?).getD (mem (q % cap)) := by
  -- A copy at the stream position `p` that does not cross the end of the buffer: the stream has the
  -- new elements there, and all other positions of the lap from `p` on keep theirs.
  have hp : p % cap < cap := Nat.mod_lt _ (by omega)
  by_cases hin : q - p < xs.length
  . have hq : q % cap = p % cap + (q - p) := by
      rw [← mod_add_of_fits (by omega), Nat.add_sub_cancel' hle]
    rw [hq, write_of_mem mem xs hin, List.getElem?_eq_getElem hin, Option.getD_some]
  . rw [List.getElem?_eq_none (by omega), Option.getD_none]
    by_cases hwrap : p % cap + (q - p) < cap
    . have hq : q % cap = p % cap + (q - p) := by
        rw [← mod_add_of_fits hwrap, Nat.add_sub_cancel' hle]
      apply write_of_ge
      omega
    . have hq : q % cap = p % cap + (q - p) - cap := by
        have heq : q = p + (q - p) := by omega
        rw [heq, Nat.add_mod, Nat.mod_eq_of_lt (a := q - p) (by omega), Nat.add_sub_cancel_left,
          Nat.mod_eq_sub_mod (by omega), Nat.mod_eq_of_lt (by omega)]
      apply write_of_lt
      omega

theorem stream_write_self {cap p : Nat} (mem : Nat → α) (xs : List α)
    (hfit : p % cap + xs.length ≤ cap) : stream (write mem (p % cap) xs) cap p xs.length = xs := by
  apply List.ext_getElem
  . simp
  . intro i _ hi
    have hat := write_at (q := p + i) mem xs hfit (by omega) (by omega)
    rw [Nat.add_sub_cancel_left, List.getElem?_eq_getElem hi, Option.getD_some] at hat
    simp only [stream, List.getElem_map, List.getElem_range]
    exact hat

theorem stream_write_of_before {cap p q n : Nat} (mem : Nat → α) (xs : List α)
    (hfit : p % cap + xs.length ≤ cap) (hle : q + n ≤ p) (hlap : p + xs.length ≤ q + cap)
    : stream (write mem (p % cap) xs) cap q n = stream mem cap q n := by
  -- A copy at `p` keeps the stream at the positions up to one lap before its end.
  apply stream_congr
  intro i hqi hin
  have hat := write_at (q := i + cap) mem xs hfit (by omega) (by omega)
  rw [Nat.add_mod_right, List.getElem?_eq_none (by omega), Option.getD_none] at hat
  exact hat

/-!
A piece of the stream that crosses the end of the buffer is copied in parts, each of which does not.
-/

/--
The copies put their elements one after the other into the stream from the position `p` on. It does
not matter where nothing is copied to.
-/
def Placed (cap p : Nat) (copies : List (Nat × List α)) : Prop :=
  match copies with
  | [] => True
  | c :: copies =>
    (c.2 = [] ∨ (c.1 = p % cap ∧ c.1 + c.2.length ≤ cap)) ∧ Placed cap (p + c.2.length) copies

def content (copies : List (Nat × List α)) : List α := (copies.map Prod.snd).flatten

theorem content_cons (c : Nat × List α) (copies : List (Nat × List α))
    : content (c :: copies) = c.2 ++ content copies := by
  simp [content]

theorem write_nil (mem : Nat → α) (pos : Nat) : write mem pos [] = mem := by
  funext i
  simp [write]

theorem Placed.head_self {cap p : Nat} {c : Nat × List α} {copies : List (Nat × List α)}
    (h : Placed cap p (c :: copies)) (mem : Nat → α)
    : stream (write mem c.1 c.2) cap p c.2.length = c.2 := by
  cases h.1 with
  | inl hnil =>
    rw [hnil]
    rfl
  | inr hat =>
    rw [hat.1]
    apply stream_write_self
    omega

theorem Placed.head_before {cap p q n : Nat} {c : Nat × List α} {copies : List (Nat × List α)}
    (h : Placed cap p (c :: copies)) (mem : Nat → α) (hle : q + n ≤ p)
    (hlap : p + c.2.length ≤ q + cap)
    : stream (write mem c.1 c.2) cap q n = stream mem cap q n := by
  cases h.1 with
  | inl hnil => rw [hnil, write_nil]
  | inr hat =>
    rw [hat.1]
    apply stream_write_of_before
    . omega
    . exact hle
    . exact hlap

theorem Placed.before {cap p q n : Nat} {copies : List (Nat × List α)} (h : Placed cap p copies)
    (mem : Nat → α) (hle : q + n ≤ p) (hlap : p + (content copies).length ≤ q + cap)
    : stream (writeAll mem copies) cap q n = stream mem cap q n := by
  induction copies generalizing p mem with
  | nil => rfl
  | cons c copies ih =>
    rw [content_cons, List.length_append] at hlap
    have hrest := ih h.2 (write mem c.1 c.2) (by omega) (by omega)
    apply hrest.trans
    apply h.head_before
    . exact hle
    . omega

theorem Placed.self {cap p : Nat} {copies : List (Nat × List α)} (h : Placed cap p copies)
    (mem : Nat → α) (hlap : (content copies).length ≤ cap)
    : stream (writeAll mem copies) cap p (content copies).length = content copies := by
  induction copies generalizing p mem with
  | nil => rfl
  | cons c copies ih =>
    rw [content_cons, List.length_append] at hlap ⊢
    have hfirst : stream (writeAll (write mem c.1 c.2) copies) cap p c.2.length = c.2 := by
      rw [h.2.before _ (Nat.le_refl _) (by omega)]
      apply h.head_self
    have hrest := ih h.2 (write mem c.1 c.2) (by omega)
    rw [stream_add]
    congr 1

/--
Every cell that is copied to is that of a stream position in the piece.
-/
theorem Placed.cell {cap p : Nat} {copies : List (Nat × List α)} (h : Placed cap p copies) {c : Nat × List α}
    (hc : c ∈ copies) {i : Nat} (hi : i < c.2.length)
    : c.1 + i < cap ∧ ∃ j, j < (content copies).length ∧ c.1 + i = (p + j) % cap := by
  induction copies generalizing p with
  | nil => cases hc
  | cons d copies ih =>
    rw [content_cons, List.length_append]
    cases hc with
    | head =>
      cases h.1 with
      | inl hnil =>
        rw [hnil] at hi
        exact absurd hi (Nat.not_lt_zero i)
      | inr hat =>
        refine ⟨by omega, i, by omega, ?_⟩
        rw [mod_add_of_fits (by omega), hat.1]
    | tail _ hc =>
      obtain ⟨hlt, j, hj, hcell⟩ := ih h.2 hc
      refine ⟨hlt, d.2.length + j, by omega, ?_⟩
      rw [hcell, Nat.add_assoc]

/--
The copies with their elements replaced by `f` of where they are in the content.
-/
def number {β : Type} (f : Nat → β) (j : Nat) (copies : List (Nat × List α)) : List (Nat × List β) :=
  match copies with
  | [] => []
  | c :: copies => (c.1, (List.range c.2.length).map (fun x => f (j + x))) :: number f (j + c.2.length) copies

theorem content_number {β : Type} (f : Nat → β) (j : Nat) (copies : List (Nat × List α))
    : content (number f j copies) = (List.range (content copies).length).map (fun x => f (j + x)) := by
  induction copies generalizing j with
  | nil => rfl
  | cons c copies ih =>
    rw [number, content_cons, content_cons, ih, List.length_append, List.range_add, List.map_append, List.map_map]
    congr 1
    apply List.map_congr_left
    intro x _
    dsimp only [Function.comp]
    rw [Nat.add_assoc]

theorem Placed.number {β : Type} {cap p : Nat} {copies : List (Nat × List α)} (h : Placed cap p copies)
    (f : Nat → β) (j : Nat) : Placed cap p (Cells.number f j copies) := by
  induction copies generalizing p j with
  | nil => trivial
  | cons c copies ih =>
    have hlen : ((List.range c.2.length).map (fun x => f (j + x))).length = c.2.length := by simp
    unfold Cells.number Placed
    rw [hlen]
    refine ⟨?_, ih h.2 _⟩
    cases h.1 with
    | inl hnil =>
      rw [hnil]
      exact .inl rfl
    | inr hat => exact .inr hat

end Cells
