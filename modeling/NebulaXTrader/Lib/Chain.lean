import Mathlib.Logic.Function.Basic
import Mathlib.Data.List.Basic
import Mathlib.Data.List.Nodup
import Mathlib.Data.List.Perm.Subperm

/-!
This module contains the theory of singly linked lists that live in an arena: the cells are indices,
a function `next` holds the link of every cell, and a sentinel index ends each list.
-/

namespace Chain

variable {ι : Type}

/--
Following `next` from `a` visits exactly the cells of the list, in order, and arrives at `b`.
-/
def Seg (next : ι → ι) : ι → List ι → ι → Prop
  | a, [], b => a = b
  | a, x :: l, b => a = x ∧ Seg next (next x) l b

/--
`l` is the complete list that starts at `a`: it ends at the sentinel and never visits it before.
-/
def IsList (next : ι → ι) (stop : ι) (a : ι) (l : List ι) : Prop :=
  Seg next a l stop ∧ stop ∉ l

def walk [DecidableEq ι] (next : ι → ι) (stop : ι) : Nat → ι → List ι
  | 0, _ => []
  | fuel + 1, a => if a = stop then [] else a :: walk next stop fuel (next a)

section Seg

variable {next : ι → ι} {a b c x y : ι} {l l₁ l₂ : List ι}

@[simp]
theorem seg_nil : Seg next a [] b ↔ a = b := Iff.rfl

@[simp]
theorem seg_cons : Seg next a (x :: l) b ↔ a = x ∧ Seg next (next x) l b := Iff.rfl

theorem seg_append : Seg next a (l₁ ++ l₂) b ↔ ∃ c, Seg next a l₁ c ∧ Seg next c l₂ b := by
  induction l₁ generalizing a with
  | nil => simp
  | cons x l ih =>
    simp only [List.cons_append, seg_cons, ih]
    constructor
    . rintro ⟨rfl, c, h1, h2⟩
      exact ⟨c, ⟨rfl, h1⟩, h2⟩
    . rintro ⟨c, ⟨rfl, h1⟩, h2⟩
      exact ⟨rfl, c, h1, h2⟩

theorem seg_congr {next' : ι → ι} (h : ∀ z ∈ l, next' z = next z)
    : Seg next' a l b ↔ Seg next a l b := by
  induction l generalizing a with
  | nil => simp
  | cons x l ih =>
    have hx : next' x = next x := h x (by simp)
    have ih := ih (a := next x) (fun z hz => h z (by simp [hz]))
    simp [hx, ih]

theorem seg_update [DecidableEq ι] (h : x ∉ l) : Seg (Function.update next x y) a l b ↔ Seg next a l b := by
  apply seg_congr
  intro z hz
  have : z ≠ x := by
    rintro rfl
    exact h hz
  simp [this]

end Seg

section IsList

variable {next : ι → ι} {stop a p x : ι} {l l' l₁ l₂ : List ι}

@[simp]
theorem isList_nil : IsList next stop a [] ↔ a = stop := by
  simp [IsList]

theorem isList_cons
    : IsList next stop a (x :: l) ↔ a = x ∧ x ≠ stop ∧ IsList next stop (next x) l := by
  simp only [IsList, seg_cons, List.mem_cons, not_or]
  constructor
  . rintro ⟨⟨rfl, h1⟩, h2, h3⟩
    exact ⟨rfl, fun h => h2 h.symm, h1, h3⟩
  . rintro ⟨rfl, h2, h1, h3⟩
    exact ⟨⟨rfl, h1⟩, fun h => h2 h.symm, h3⟩

theorem IsList.eq_nil (h : IsList next stop stop l) : l = [] := by
  cases l with
  | nil => rfl
  | cons x l =>
    rw [isList_cons] at h
    exact absurd h.1.symm h.2.1

theorem IsList.unique (h : IsList next stop a l) (h' : IsList next stop a l') : l = l' := by
  induction l generalizing a l' with
  | nil =>
    rw [isList_nil] at h
    subst h
    exact h'.eq_nil.symm
  | cons x l ih =>
    rw [isList_cons] at h
    obtain ⟨rfl, hx, hl⟩ := h
    cases l' with
    | nil =>
      rw [isList_nil] at h'
      exact absurd h' hx
    | cons x' l' =>
      rw [isList_cons] at h'
      obtain ⟨rfl, _, hl'⟩ := h'
      rw [ih hl hl']

theorem IsList.drop (h : IsList next stop a (l₁ ++ x :: l₂)) : IsList next stop x (x :: l₂) := by
  obtain ⟨hseg, hstop⟩ := h
  rw [seg_append] at hseg
  obtain ⟨c, _, h2⟩ := hseg
  have hc : c = x := by simpa using h2.1
  subst hc
  refine ⟨h2, fun hm => hstop ?_⟩
  exact List.mem_append_right _ hm

theorem IsList.nodup (h : IsList next stop a l) : l.Nodup := by
  induction l generalizing a with
  | nil => simp
  | cons x l ih =>
    rw [isList_cons] at h
    obtain ⟨rfl, hx, hl⟩ := h
    rw [List.nodup_cons]
    refine ⟨fun hmem => ?_, ih hl⟩
    obtain ⟨l₁, l₂, rfl⟩ := List.append_of_mem hmem
    -- the suffix that starts at the second visit is the list of `a` as well, yet shorter
    have h1 : IsList next stop a (a :: l₂) := hl.drop
    have h2 : IsList next stop a (a :: (l₁ ++ a :: l₂)) := by
      rw [isList_cons]
      exact ⟨rfl, hx, hl⟩
    have := congrArg List.length (h1.unique h2)
    simp at this
    omega

theorem IsList.ne_stop (h : IsList next stop a l) (hx : x ∈ l) : x ≠ stop := by
  rintro rfl
  exact h.2 hx

theorem IsList.congr {next' : ι → ι} (h : IsList next stop a l) (hn : ∀ z ∈ l, next' z = next z)
    : IsList next' stop a l :=
  ⟨(seg_congr hn).2 h.1, h.2⟩

theorem IsList.update [DecidableEq ι] (h : IsList next stop a l) (hx : x ∉ l) (y : ι)
    : IsList (Function.update next x y) stop a l :=
  ⟨(seg_update hx).2 h.1, h.2⟩

theorem IsList.push [DecidableEq ι] (h : IsList next stop a l) (hx : x ∉ l) (hstop : x ≠ stop)
    : IsList (Function.update next x a) stop x (x :: l) := by
  rw [isList_cons]
  refine ⟨rfl, hstop, ?_⟩
  simpa using h.update hx a

theorem IsList.unlink [DecidableEq ι] (h : IsList next stop a (l₁ ++ p :: x :: l₂))
    : IsList (Function.update next p (next x)) stop a (l₁ ++ p :: l₂) := by
  have hnd := h.nodup
  obtain ⟨hseg, hstop⟩ := h
  rw [seg_append] at hseg
  obtain ⟨c, h1, h2⟩ := hseg
  simp only [seg_cons] at h2
  obtain ⟨rfl, rfl, h3⟩ := h2
  rw [List.nodup_append] at hnd
  obtain ⟨_, hnd2, hdisj⟩ := hnd
  have hp1 : c ∉ l₁ := fun hm => hdisj c hm c (by simp) rfl
  have hp2 : c ∉ l₂ := by
    simp only [List.nodup_cons, List.mem_cons, not_or] at hnd2
    exact hnd2.1.2
  constructor
  . rw [seg_append]
    refine ⟨c, (seg_update hp1).2 h1, ?_⟩
    simp only [seg_cons, Function.update_self, true_and]
    exact (seg_update hp2).2 h3
  . intro hm
    apply hstop
    simp only [List.mem_append, List.mem_cons] at hm ⊢
    tauto

theorem IsList.split (h : IsList next stop a l) (hx : x ∈ l)
    : ∃ l₁ l₂, l = l₁ ++ x :: l₂ ∧ IsList next stop (next x) l₂ := by
  cases List.append_of_mem hx with
  | intro l₁ hex =>
    cases hex with
    | intro l₂ heq =>
      rw [heq] at h
      exact ⟨l₁, l₂, heq, (isList_cons.1 h.drop).2.2⟩

theorem IsList.walk_eq [DecidableEq ι] (h : IsList next stop a l) {fuel : Nat} (hf : l.length ≤ fuel)
    : walk next stop fuel a = l := by
  induction fuel generalizing a l with
  | zero =>
    cases l with
    | nil => rfl
    | cons x l => simp at hf
  | succ fuel ih =>
    cases l with
    | nil =>
      rw [isList_nil] at h
      simp [walk, h]
    | cons x l =>
      rw [isList_cons] at h
      obtain ⟨rfl, hx, hl⟩ := h
      simp only [walk, hx, if_false, List.cons.injEq, true_and]
      exact ih hl (by simpa using hf)

end IsList

section Passed

variable {next : ι → ι} {stop a x : ι} {l l₁ l₂ : List ι} {p q : ι → Prop}

/--
A walk along `l` that has arrived at `x` has left no cell with `p` behind.
-/
def Passed (p : ι → Prop) (l : List ι) (x : ι) : Prop :=
  ∀ l₁ l₂, l = l₁ ++ x :: l₂ → ∀ i ∈ l₁, ¬ p i

theorem IsList.passed_start (h : IsList next stop a l) : Passed p l a := by
  intro l₁ l₂ heq i hi
  cases l₁ with
  | nil => cases hi
  | cons x l₁ =>
    rw [heq, List.cons_append] at h
    have hnodup := List.nodup_cons.1 h.nodup
    rw [(isList_cons.1 h).1] at hnodup
    exact absurd (List.mem_append_right l₁ List.mem_cons_self) hnodup.1

theorem IsList.passed_next (h : IsList next stop a l) (hx : x ∈ l) (hnot : ¬ p x)
    (hpassed : Passed p l x) : Passed p l (next x) := by
  intro l₃ l₄ heq i hi
  cases h.split hx with
  | intro l₁ hex =>
    cases hex with
    | intro l₂ hl =>
      -- the link leads to the first cell of `l₂`, and no cell is on the list twice
      cases l₂ with
      | nil =>
        rw [isList_nil.1 hl.2] at heq
        rw [heq] at h
        exact absurd rfl (h.ne_stop (List.mem_append_right l₃ List.mem_cons_self))
      | cons y l₂ =>
        have hsplit : l₃ = l₁ ++ [x] := by
          have hnodup := h.nodup
          have heq₁ : l = (l₁ ++ [x]) ++ y :: l₂ := by
            rw [hl.1, List.append_assoc]
            rfl
          rw [(isList_cons.1 hl.2).1] at heq
          rw [heq₁] at heq hnodup
          rw [List.nodup_append, List.nodup_cons] at hnodup
          have hy : y ∉ l₁ ++ [x] := fun hmem => hnodup.2.2 y hmem y List.mem_cons_self rfl
          exact ((List.append_cons_inj_of_notMem hy hnodup.2.1.1).1 heq).1.symm
        rw [hsplit, List.mem_append, List.mem_singleton] at hi
        cases hi with
        | inl hmem => exact hpassed l₁ (y :: l₂) hl.1 i hmem
        | inr heq =>
          rw [heq]
          exact hnot

theorem IsList.passed_end (h : IsList next stop a l) (hx : x ∈ l) (hnot : ¬ p x)
    (hpassed : Passed p l x) (hend : next x = stop) : ∀ i ∈ l, ¬ p i := by
  intro i hi
  cases h.split hx with
  | intro l₁ hex =>
    cases hex with
    | intro l₂ hl =>
      have hnil : l₂ = [] := by
        have hlist := hl.2
        rw [hend] at hlist
        exact hlist.eq_nil
      rw [hl.1, hnil, List.mem_append, List.mem_singleton] at hi
      cases hi with
      | inl hmem => exact hpassed l₁ l₂ hl.1 i hmem
      | inr heq =>
        rw [heq]
        exact hnot

theorem Passed.mono (h : Passed p l x) (hq : ∀ i ∈ l, q i → p i) : Passed q l x := by
  intro l₁ l₂ heq i hi hqi
  refine h l₁ l₂ heq i hi (hq i ?_ hqi)
  rw [heq]
  exact List.mem_append_left _ hi

theorem Passed.push (h : Passed p l x) (hnot : ¬ p a) : Passed p (a :: l) x := by
  intro l₁ l₂ heq i hi
  cases l₁ with
  | nil => cases hi
  | cons y l₁ =>
    rw [List.cons_append, List.cons_eq_cons] at heq
    cases List.mem_cons.1 hi with
    | inl hiy =>
      rw [hiy, ← heq.1]
      exact hnot
    | inr hmem => exact h l₁ l₂ heq.2 i hmem

theorem Passed.unlink (h : Passed p (l₁ ++ a :: l₂) x) : Passed p (l₁ ++ l₂) x := by
  intro l₃ l₄ heq i hi
  rw [List.append_eq_append_iff] at heq
  cases heq with
  | inl heq =>
    cases heq with
    | intro m hm =>
      rw [hm.1, List.mem_append] at hi
      apply h (l₁ ++ a :: m) l₄
      . rw [hm.2, List.append_assoc]
        rfl
      . rw [List.mem_append, List.mem_cons]
        cases hi with
        | inl hmem => exact Or.inl hmem
        | inr hmem => exact Or.inr (Or.inr hmem)
  | inr heq =>
    cases heq with
    | intro m hm =>
      cases m with
      | nil =>
        rw [List.append_nil] at hm
        rw [List.nil_append] at hm
        apply h (l₁ ++ [a]) l₄
        . rw [← hm.2, List.append_assoc]
          rfl
        . rw [hm.1]
          exact List.mem_append_left _ hi
      | cons y m =>
        rw [List.cons_append, List.cons_eq_cons] at hm
        rw [← hm.2.1] at hm
        apply h l₃ (m ++ a :: l₂)
        . rw [hm.1, List.append_assoc]
          rfl
        . exact hi

end Passed

theorem length_le_of_nodup_of_lt {l : List Nat} {n : Nat} (h : l.Nodup) (hlt : ∀ i ∈ l, i < n)
    : l.length ≤ n := by
  have hsub : l ⊆ List.range n := by
    intro i hi
    rw [List.mem_range]
    exact hlt i hi
  have := (h.subperm hsub).length_le
  simpa using this

end Chain
