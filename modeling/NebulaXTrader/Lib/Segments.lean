import Mathlib.Data.List.Chain
import Mathlib.Data.List.Induction

/-!
This module contains the segments of a list. A segment grows element by element until it is cut before the next one.
-/

namespace Segments

variable {α : Type} {cut : List α → α → Bool} {s : List (List α) × List α} {l r : List α}

/--
The closed segments and the open one, which is empty before the first element only.
-/
def step (cut : List α → α → Bool) (s : List (List α) × List α) (a : α) : List (List α) × List α :=
  match s.2 with
  | [] => (s.1, [a])
  | b :: r => if cut (b :: r) a then (s.1 ++ [b :: r], [a]) else (s.1, b :: r ++ [a])

def close (s : List (List α) × List α) : List (List α) :=
  match s.2 with
  | [] => s.1
  | b :: r => s.1 ++ [b :: r]

def segments (cut : List α → α → Bool) (l : List α) : List (List α) := close (l.foldl (step cut) ([], []))

/--
No element of the segment was one to cut before.
-/
def Grown (cut : List α → α → Bool) (r : List α) : Prop :=
  ∀ pre a, pre ≠ [] → pre ++ [a] <+: r → cut pre a = false

def CutBefore (cut : List α → α → Bool) (r r' : List α) : Prop := ∀ a, r'.head? = some a → cut r a = true

structure Built (cut : List α → α → Bool) (s : List (List α) × List α) (l : List α) : Prop where
  started : s.2 = [] → s.1 = []
  flatten : s.1.flatten ++ s.2 = l
  nonempty : ∀ r ∈ s.1, r ≠ []
  grown : ∀ r ∈ s.1 ++ [s.2], Grown cut r
  chain : (s.1 ++ [s.2]).IsChain (CutBefore cut)

theorem Grown.singleton (cut : List α → α → Bool) (a : α) : Grown cut [a] := by
  intro pre b hpre hprefix
  have hlength := hprefix.length_le
  rw [List.length_append, List.length_singleton, List.length_singleton] at hlength
  exact absurd (List.length_eq_zero_iff.1 (by omega)) hpre

theorem Grown.push (h : Grown cut r) {a : α} (hcut : cut r a = false) : Grown cut (r ++ [a]) := by
  intro pre b hpre hprefix
  cases (List.prefix_concat_iff.1 hprefix) with
  | inl heq =>
    obtain ⟨rfl, hb⟩ := List.append_inj' heq rfl
    cases hb
    exact hcut
  | inr hold => exact h pre b hpre hold

theorem Built.init (cut : List α → α → Bool) : Built cut ([], []) [] := by
  constructor
  . intro _
    rfl
  . rfl
  . intro r hr
    cases hr
  . intro r hr pre a _ hprefix
    have hnil : r = [] := List.mem_singleton.1 hr
    subst hnil
    have hempty := List.prefix_nil.1 hprefix
    simp at hempty
  . exact List.isChain_singleton []

theorem Built.first (h : Built cut s l) (hopen : s.2 = []) (a : α) : Built cut ([], [a]) (l ++ [a]) := by
  have hflatten := h.flatten
  rw [h.started hopen, hopen] at hflatten
  constructor
  . intro hnil
    cases hnil
  . rw [← hflatten]
    rfl
  . intro r hr
    cases hr
  . intro r hr
    rw [List.mem_singleton.1 hr]
    exact Grown.singleton cut a
  . exact List.isChain_singleton [a]

theorem Built.next (h : Built cut s l) (hopen : s.2 ≠ []) {a : α} (hcut : cut s.2 a = true)
    : Built cut (s.1 ++ [s.2], [a]) (l ++ [a]) := by
  constructor
  . intro hnil
    cases hnil
  . rw [List.flatten_append, List.flatten_singleton, h.flatten]
  . intro r hr
    cases List.mem_append.1 hr with
    | inl hold => exact h.nonempty r hold
    | inr hnew =>
      rw [List.mem_singleton.1 hnew]
      exact hopen
  . intro r hr
    cases List.mem_append.1 hr with
    | inl hold => exact h.grown r hold
    | inr hnew =>
      rw [List.mem_singleton.1 hnew]
      exact Grown.singleton cut a
  . apply List.isChain_append.2
    refine ⟨h.chain, List.isChain_singleton [a], ?_⟩
    intro r hr r' hr'
    rw [List.getLast?_concat] at hr
    cases hr
    cases hr'
    intro b hb
    cases hb
    exact hcut

theorem Built.grow (h : Built cut s l) (hopen : s.2 ≠ []) {a : α} (hcut : cut s.2 a = false)
    : Built cut (s.1, s.2 ++ [a]) (l ++ [a]) := by
  constructor
  . intro hnil
    simp at hnil
  . rw [← List.append_assoc, h.flatten]
  . exact h.nonempty
  . intro r hr
    cases List.mem_append.1 hr with
    | inl hold => exact h.grown r (List.mem_append_left _ hold)
    | inr hnew =>
      rw [List.mem_singleton.1 hnew]
      apply Grown.push _ hcut
      exact h.grown s.2 (by simp)
  . have hsplit := List.isChain_append.1 h.chain
    apply List.isChain_append.2
    refine ⟨hsplit.1, List.isChain_singleton _, ?_⟩
    intro r hr r' hr' b hb
    cases hr'
    rw [List.head?_append_of_ne_nil _ hopen] at hb
    exact hsplit.2.2 r hr s.2 rfl b hb

theorem Built.step (h : Built cut s l) (a : α) : Built cut (step cut s a) (l ++ [a]) := by
  obtain ⟨closed, opened⟩ := s
  unfold Segments.step
  cases opened with
  | nil =>
    have hclosed : closed = [] := h.started rfl
    subst hclosed
    exact h.first rfl a
  | cons b r =>
    have hopen : b :: r ≠ [] := List.cons_ne_nil b r
    dsimp only
    split
    . next hcut => exact h.next hopen hcut
    . next hcut => exact h.grow hopen (Bool.not_eq_true _ ▸ hcut)

theorem Built.foldl (cut : List α → α → Bool) (l : List α) : Built cut (l.foldl (Segments.step cut) ([], [])) l := by
  induction l using List.reverseRecOn with
  | nil => exact Built.init cut
  | append_singleton l a ih =>
    rw [List.foldl_append]
    exact ih.step a

theorem close_eq (s : List (List α) × List α) : close s = if s.2 = [] then s.1 else s.1 ++ [s.2] := by
  obtain ⟨closed, opened⟩ := s
  cases opened with
  | nil => rfl
  | cons b r => rfl

/--
What the segments of a list are: they make it up, and they are cut at every place where they can be and nowhere else.
-/
structure Split (cut : List α → α → Bool) (rs : List (List α)) (l : List α) : Prop where
  flatten : rs.flatten = l
  nonempty : ∀ r ∈ rs, r ≠ []
  grown : ∀ r ∈ rs, Grown cut r
  chain : rs.IsChain (CutBefore cut)

theorem split_segments (cut : List α → α → Bool) (l : List α) : Split cut (segments cut l) l := by
  have h := Built.foldl cut l
  unfold segments
  rw [close_eq]
  generalize l.foldl (Segments.step cut) ([], []) = s at h ⊢
  split
  . next hopen =>
    constructor
    . have hflatten := h.flatten
      rw [hopen, List.append_nil] at hflatten
      exact hflatten
    . exact h.nonempty
    . intro r hr
      exact h.grown r (List.mem_append_left _ hr)
    . exact (List.isChain_append.1 h.chain).1
  . next hopen =>
    constructor
    . rw [List.flatten_append, List.flatten_singleton, h.flatten]
    . intro r hr
      cases List.mem_append.1 hr with
      | inl hold => exact h.nonempty r hold
      | inr hnew =>
        rw [List.mem_singleton.1 hnew]
        exact hopen
    . exact h.grown
    . exact h.chain

/--
Every segment but the last was cut.
-/
theorem Split.forall_cut {rs : List (List α)} (h : Split cut rs l) {p : List α → Prop}
    (hp : ∀ r a, cut r a = true → p r) : ∀ r ∈ rs.dropLast, p r := by
  have hnonempty := h.nonempty
  have hchain := h.chain
  clear h
  induction rs with
  | nil =>
    intro r hr
    cases hr
  | cons r rs ih =>
    cases rs with
    | nil =>
      intro r' hr'
      cases hr'
    | cons r₂ rs =>
      have hcons := List.isChain_cons_cons.1 hchain
      intro r' hr'
      rw [List.dropLast_cons_cons] at hr'
      cases List.mem_cons.1 hr' with
      | inl heq =>
        obtain ⟨a, t, ht⟩ := List.exists_cons_of_ne_nil (hnonempty r₂ (by simp))
        rw [heq]
        apply hp r a
        apply hcons.1
        rw [ht]
        rfl
      | inr hrest => exact ih (fun x hx => hnonempty x (List.mem_cons_of_mem r hx)) hcons.2 r' hrest

end Segments
