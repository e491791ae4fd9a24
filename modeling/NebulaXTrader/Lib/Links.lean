import Mathlib.Logic.Function.Basic

/-!
This module contains the theory of intrusive doubly linked lists in one arena of cells: every cell has a tag that says
which list it is in, and every list has a head. The heads may be forgotten at any time, so that a list can fall into
several parts.
-/

structure Links (ι κ : Type) where
  alive : ι → Prop
  tag : ι → κ
  next : ι → ι
  prev : ι → ι
  head : κ → ι

namespace Links

variable {ι κ : Type}

/--
The links `f` of the live cells lead to live cells of the same list, whose links `g` lead back.
-/
def Leads (stop : ι) (alive : ι → Prop) (tag : ι → κ) (f g : ι → ι) : Prop :=
  ∀ i, alive i → f i ≠ stop → alive (f i) ∧ tag (f i) = tag i ∧ g (f i) = i

/--
No link of a live cell and no head leads to a dead cell or into another list. The links of the dead cells are
unrestricted.
-/
structure WellLinked (stop : ι) (l : Links ι κ) : Prop where
  stop_dead : ¬ l.alive stop
  next : Leads stop l.alive l.tag l.next l.prev
  prev : Leads stop l.alive l.tag l.prev l.next
  head : ∀ k, l.head k ≠ stop → l.alive (l.head k) ∧ l.tag (l.head k) = k ∧ l.prev (l.head k) = stop

/--
The live cells are the same in both, and some lists have lost their head.
-/
structure Forgets (stop : ι) (l l' : Links ι κ) : Prop where
  alive : ∀ i, l'.alive i ↔ l.alive i
  tag : ∀ i, l.alive i → l'.tag i = l.tag i
  next : ∀ i, l.alive i → l'.next i = l.next i
  prev : ∀ i, l.alive i → l'.prev i = l.prev i
  head : ∀ k, l'.head k = l.head k ∨ l'.head k = stop

variable {stop x : ι} {l l' : Links ι κ} {k : κ}

theorem WellLinked.ne_stop (h : l.WellLinked stop) {i : ι} (hi : l.alive i) : i ≠ stop := by
  intro heq
  rw [heq] at hi
  exact h.stop_dead hi

theorem WellLinked.forgets (h : l.WellLinked stop) (hf : Forgets stop l l') : l'.WellLinked stop := by
  constructor
  . rw [hf.alive]
    exact h.stop_dead
  . intro i hi hne
    rw [hf.alive] at hi
    rw [hf.next i hi] at hne ⊢
    obtain ⟨halive, htag, hprev⟩ := h.next i hi hne
    rw [hf.alive, hf.tag _ halive, hf.tag i hi, hf.prev _ halive]
    exact ⟨halive, htag, hprev⟩
  . intro i hi hne
    rw [hf.alive] at hi
    rw [hf.prev i hi] at hne ⊢
    obtain ⟨halive, htag, hnext⟩ := h.prev i hi hne
    rw [hf.alive, hf.tag _ halive, hf.tag i hi, hf.next _ halive]
    exact ⟨halive, htag, hnext⟩
  . intro k hne
    cases hf.head k with
    | inl hk =>
      rw [hk] at hne ⊢
      obtain ⟨halive, htag, hprev⟩ := h.head k hne
      rw [hf.alive, hf.tag _ halive, hf.prev _ halive]
      exact ⟨halive, htag, hprev⟩
    | inr hk => exact absurd hk hne

variable [DecidableEq ι] [DecidableEq κ]

/--
A dead cell becomes the head of a list.
-/
def push (stop : ι) (l : Links ι κ) (x : ι) (k : κ) : Links ι κ where
  alive i := i = x ∨ l.alive i
  tag := Function.update l.tag x k
  next := Function.update l.next x (l.head k)
  prev i := if i = x then stop else if i = l.head k then x else l.prev i
  head := Function.update l.head k x

/--
A live cell is taken out and dies. It is the head of its list if it has no predecessor, or the list forgot the cell.
-/
def unlink (stop : ι) (l : Links ι κ) (x : ι) : Links ι κ where
  alive i := l.alive i ∧ i ≠ x
  tag := l.tag
  next i := if l.prev x ≠ stop ∧ i = l.prev x then l.next x else l.next i
  prev i := if l.next x ≠ stop ∧ i = l.next x then l.prev x else l.prev i
  head := if l.prev x = stop then Function.update l.head (l.tag x) (l.next x) else l.head

theorem WellLinked.push (h : l.WellLinked stop) (hx : ¬ l.alive x) (hstop : x ≠ stop) (k : κ)
    : (l.push stop x k).WellLinked stop := by
  have hne : ∀ i, l.alive i → i ≠ x := by
    intro i hi heq
    rw [heq] at hi
    exact hx hi
  have htag : ∀ i, l.alive i → (l.push stop x k).tag i = l.tag i := by
    intro i hi
    exact Function.update_of_ne (hne i hi) _ _
  have hnext : ∀ i, l.alive i → (l.push stop x k).next i = l.next i := by
    intro i hi
    exact Function.update_of_ne (hne i hi) _ _
  have hprev : ∀ i, l.alive i → (l.push stop x k).prev i = if i = l.head k then x else l.prev i := by
    intro i hi
    exact if_neg (hne i hi)
  have hself : (l.push stop x k).tag x = k ∧ (l.push stop x k).next x = l.head k ∧
      (l.push stop x k).prev x = stop :=
    ⟨Function.update_self .., Function.update_self .., if_pos rfl⟩
  constructor
  . intro hdead
    cases hdead with
    | inl heq => exact hstop heq.symm
    | inr hi => exact h.stop_dead hi
  . intro i hi hi'
    by_cases hix : i = x
    . subst hix
      rw [hself.2.1] at hi' ⊢
      obtain ⟨halive, hk, _⟩ := h.head k hi'
      rw [htag _ halive, hself.1, hprev _ halive, if_pos rfl]
      exact ⟨Or.inr halive, hk, rfl⟩
    . have hi := hi.resolve_left hix
      rw [hnext i hi] at hi' ⊢
      obtain ⟨halive, hk, hback⟩ := h.next i hi hi'
      rw [htag _ halive, htag i hi, hprev _ halive]
      refine ⟨Or.inr halive, hk, ?_⟩
      rw [if_neg]
      . exact hback
      . -- the old head has no predecessor
        intro heq
        rw [heq] at hi' hback
        rw [(h.head k hi').2.2] at hback
        exact h.ne_stop hi hback.symm
  . intro i hi hi'
    by_cases hix : i = x
    . subst hix
      exact absurd hself.2.2 hi'
    . have hi := hi.resolve_left hix
      rw [hprev i hi] at hi' ⊢
      split at hi'
      . next heq =>
        have hk := h.head k (heq ▸ h.ne_stop hi)
        rw [if_pos heq, htag i hi, hself.1, hself.2.1, heq]
        exact ⟨Or.inl rfl, hk.2.1.symm, rfl⟩
      . next hhead =>
        obtain ⟨halive, hk, hforth⟩ := h.prev i hi hi'
        rw [if_neg hhead, htag _ halive, htag i hi, hnext _ halive]
        exact ⟨Or.inr halive, hk, hforth⟩
  . intro q hq
    by_cases hqk : q = k
    . have hhead : (l.push stop x k).head q = x := by
        rw [hqk]
        exact Function.update_self ..
      rw [hhead, hqk]
      exact ⟨Or.inl rfl, hself.1, hself.2.2⟩
    . have hhead : (l.push stop x k).head q = l.head q := Function.update_of_ne hqk _ _
      rw [hhead] at hq ⊢
      obtain ⟨halive, htq, hpq⟩ := h.head q hq
      rw [htag _ halive, hprev _ halive]
      refine ⟨Or.inr halive, htq, ?_⟩
      rw [if_neg]
      . exact hpq
      . intro heq
        rw [heq] at hq htq
        exact hqk (htq.symm.trans (h.head k hq).2.1)

omit [DecidableEq κ] in
/--
The neighbours of a live cell are linked to each other in its place.
-/
theorem Leads.splice {alive : ι → Prop} {tag : ι → κ} {f g : ι → ι} (hf : Leads stop alive tag f g)
    (hg : Leads stop alive tag g f) (hstop : ¬ alive stop) (hx : alive x)
    : Leads stop (fun i => alive i ∧ i ≠ x) tag (fun i => if g x ≠ stop ∧ i = g x then f x else f i)
        (fun i => if f x ≠ stop ∧ i = f x then g x else g i) := by
  intro i hi hi'
  dsimp only at hi' ⊢
  split at hi'
  . next hig =>
    obtain ⟨halive, htag, hback⟩ := hf x hx hi'
    rw [if_pos hig, if_pos ⟨hi', rfl⟩, htag, hig.2]
    refine ⟨⟨halive, ?_⟩, (hg x hx hig.1).2.1.symm, rfl⟩
    -- a cell that follows itself would precede itself
    intro heq
    rw [heq] at hback
    exact hi.2 (hig.2.trans hback)
  . next hig =>
    obtain ⟨halive, htag, hback⟩ := hf i hi.1 hi'
    rw [if_neg hig]
    have hfx : f i ≠ x := by
      intro heq
      rw [heq] at hback
      apply hig
      constructor
      . intro hgx
        rw [hback] at hgx
        rw [hgx] at hi
        exact hstop hi.1
      . exact hback.symm
    refine ⟨⟨halive, hfx⟩, htag, ?_⟩
    rw [if_neg]
    . exact hback
    . intro heq
      have hloop := (hf x hx heq.1).2.2
      rw [← heq.2, hback] at hloop
      exact hi.2 hloop

theorem WellLinked.unlink (h : l.WellLinked stop) (hx : l.alive x) : (l.unlink stop x).WellLinked stop := by
  have hpost := h.next x hx
  constructor
  . intro hdead
    exact h.stop_dead hdead.1
  . exact h.next.splice h.prev h.stop_dead hx
  . exact h.prev.splice h.next h.stop_dead hx
  . intro k hk
    unfold Links.unlink at hk ⊢
    dsimp only at hk ⊢
    have hother : ∀ q, l.head q ≠ stop → l.head q ≠ x →
        (l.alive (l.head q) ∧ l.head q ≠ x) ∧ l.tag (l.head q) = q ∧
          (if l.next x ≠ stop ∧ l.head q = l.next x then l.prev x else l.prev (l.head q)) = stop := by
      intro q hq hqx
      obtain ⟨halive, htag, hprev⟩ := h.head q hq
      refine ⟨⟨halive, hqx⟩, htag, ?_⟩
      rw [if_neg]
      . exact hprev
      . -- a head that follows the cell would have a predecessor
        intro heq
        have hback := (hpost heq.1).2.2
        rw [← heq.2, hprev] at hback
        exact h.ne_stop hx hback.symm
    split at hk
    . next hp =>
      rw [if_pos hp]
      by_cases hkx : k = l.tag x
      . subst hkx
        rw [Function.update_self] at hk ⊢
        obtain ⟨halive, htag, hback⟩ := hpost hk
        rw [if_pos ⟨hk, rfl⟩]
        refine ⟨⟨halive, ?_⟩, htag, hp⟩
        intro heq
        rw [heq, hp] at hback
        exact h.ne_stop hx hback.symm
      . rw [Function.update_of_ne hkx] at hk ⊢
        apply hother k hk
        intro heq
        have htag := (h.head k hk).2.1
        rw [heq] at htag
        exact hkx htag.symm
    . next hp =>
      rw [if_neg hp]
      apply hother k hk
      intro heq
      have hprev := (h.head k hk).2.2
      rw [heq] at hprev
      exact hp hprev

end Links
