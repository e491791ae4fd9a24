import Mathlib.Data.List.Basic

/-!
This module contains buffers that are filled by writes at fixed offsets, on a ground of one blank element.
-/

namespace Buffer

variable {α : Type}

def put (buf : List α) (off : Nat) (xs : List α) : List α := buf.take off ++ xs ++ buf.drop (off + xs.length)

def putAll (buf : List α) (writes : List (Nat × List α)) : List α :=
  writes.foldl (fun buf w => put buf w.1 w.2) buf

def slice (buf : List α) (off n : Nat) : List α := (buf.drop off).take n

theorem put_append {pre old xs post : List α} {off : Nat} (hoff : pre.length = off) (hlen : old.length = xs.length)
    : put (pre ++ old ++ post) off xs = pre ++ xs ++ post := by
  unfold put
  have hdrop : (pre ++ old).length = off + xs.length := by
    rw [List.length_append, hoff, hlen]
  have htake : (pre ++ old ++ post).take off = pre := by
    rw [List.append_assoc, List.take_left' hoff]
  rw [List.drop_left' hdrop, htake]

/--
The writes stand one behind the other from the position `p` on and end at `n` at the latest.
-/
def Ascending (p n : Nat) (writes : List (Nat × List α)) : Prop :=
  match writes with
  | [] => p ≤ n
  | w :: writes => p ≤ w.1 ∧ Ascending (w.1 + w.2.length) n writes

/--
What the writes leave between the positions `p` and `n`.
-/
def render (blank : α) (p n : Nat) (writes : List (Nat × List α)) : List α :=
  match writes with
  | [] => List.replicate (n - p) blank
  | w :: writes => List.replicate (w.1 - p) blank ++ w.2 ++ render blank (w.1 + w.2.length) n writes

variable {blank : α} {p n : Nat} {writes : List (Nat × List α)}

theorem render_cons (blank : α) (p n : Nat) (w : Nat × List α) (writes : List (Nat × List α))
    : render blank p n (w :: writes) =
        List.replicate (w.1 - p) blank ++ w.2 ++ render blank (w.1 + w.2.length) n writes := rfl

theorem Ascending.le (h : Ascending p n writes) : p ≤ n := by
  induction writes generalizing p with
  | nil => exact h
  | cons w writes ih =>
    have hle := ih h.2
    have hfirst := h.1
    omega

theorem Ascending.mono (h : Ascending p n writes) {n' : Nat} (hn : n ≤ n') : Ascending p n' writes := by
  induction writes generalizing p with
  | nil => exact Nat.le_trans h hn
  | cons w writes ih => exact ⟨h.1, ih h.2⟩

theorem Ascending.bounds (h : Ascending p n writes) : ∀ w ∈ writes, p ≤ w.1 ∧ w.1 + w.2.length ≤ n := by
  induction writes generalizing p with
  | nil =>
    intro w hw
    cases hw
  | cons v writes ih =>
    intro w hw
    have hfirst := h.1
    cases hw with
    | head => exact ⟨hfirst, h.2.le⟩
    | tail _ hw =>
      have hbounds := ih h.2 w hw
      omega

theorem Ascending.pairwise (h : Ascending p n writes) : writes.Pairwise (fun v w => v.1 + v.2.length ≤ w.1) := by
  induction writes generalizing p with
  | nil => exact List.Pairwise.nil
  | cons v writes ih =>
    apply List.Pairwise.cons
    . intro w hw
      exact (h.2.bounds w hw).1
    . exact ih h.2

theorem length_render (h : Ascending p n writes) : (render blank p n writes).length = n - p := by
  induction writes generalizing p with
  | nil =>
    unfold render
    exact List.length_replicate
  | cons w writes ih =>
    have hfirst := h.1
    have hle := h.2.le
    rw [render_cons, List.length_append, List.length_append, List.length_replicate, ih h.2]
    omega

theorem putAll_blank {pre rest : List α} (h : Ascending p n writes) (hpre : pre.length = p)
    : putAll (pre ++ List.replicate (n - p) blank ++ rest) writes = pre ++ render blank p n writes ++ rest := by
  induction writes generalizing p pre with
  | nil => rfl
  | cons w writes ih =>
    have hfirst := h.1
    have hle := h.2.le
    -- the blanks before the write, under it and behind it
    have hsplit : List.replicate (n - p) blank = List.replicate (w.1 - p) blank ++
        (List.replicate w.2.length blank ++ List.replicate (n - (w.1 + w.2.length)) blank) := by
      rw [List.replicate_append_replicate, List.replicate_append_replicate]
      congr 1
      omega
    have hput : put (pre ++ List.replicate (n - p) blank ++ rest) w.1 w.2 =
        (pre ++ List.replicate (w.1 - p) blank ++ w.2) ++ List.replicate (n - (w.1 + w.2.length)) blank ++ rest := by
      have happend := @put_append α (pre ++ List.replicate (w.1 - p) blank) (List.replicate w.2.length blank) w.2
        (List.replicate (n - (w.1 + w.2.length)) blank ++ rest) w.1
      rw [hsplit]
      simp only [List.append_assoc] at happend ⊢
      apply happend
      . rw [List.length_append, List.length_replicate]
        omega
      . exact List.length_replicate
    have hlen : (pre ++ List.replicate (w.1 - p) blank ++ w.2).length = w.1 + w.2.length := by
      rw [List.length_append, List.length_append, List.length_replicate]
      omega
    have hrest := ih h.2 hlen
    unfold putAll at hrest ⊢
    rw [List.foldl_cons, hput, hrest, render_cons]
    simp only [List.append_assoc]

theorem render_succ (h : Ascending p n writes)
    : render blank p (n + 1) writes = render blank p n writes ++ [blank] := by
  induction writes generalizing p with
  | nil =>
    have hle : p ≤ n := h
    unfold render
    rw [Nat.succ_sub hle, List.replicate_succ']
  | cons w writes ih =>
    rw [render_cons, render_cons, ih h.2]
    simp only [List.append_assoc]

theorem slice_append {pre x post : List α} {off n : Nat} (hoff : pre.length = off) (hn : x.length = n)
    : slice (pre ++ x ++ post) off n = x := by
  unfold slice
  rw [List.append_assoc, List.drop_left' hoff, List.take_left' hn]

/--
Every write is read back, whatever stands around it.
-/
theorem slice_render {pre post : List α} {w : Nat × List α} (h : Ascending p n writes) (hpre : pre.length = p)
    (hw : w ∈ writes) : slice (pre ++ render blank p n writes ++ post) w.1 w.2.length = w.2 := by
  induction writes generalizing p pre with
  | nil => cases hw
  | cons v writes ih =>
    have hfirst := h.1
    have hhead : (pre ++ List.replicate (v.1 - p) blank).length = v.1 := by
      rw [List.length_append, List.length_replicate]
      omega
    cases hw with
    | head =>
      have happend := @slice_append α (pre ++ List.replicate (w.1 - p) blank) w.2
        (render blank (w.1 + w.2.length) n writes ++ post) w.1 w.2.length hhead rfl
      rw [render_cons]
      simp only [List.append_assoc] at happend ⊢
      exact happend
    | tail _ hw =>
      have hlen : (pre ++ List.replicate (v.1 - p) blank ++ v.2).length = v.1 + v.2.length := by
        rw [List.length_append, hhead]
      have hrest := ih h.2 hlen hw
      rw [render_cons]
      simp only [List.append_assoc] at hrest ⊢
      exact hrest

end Buffer
