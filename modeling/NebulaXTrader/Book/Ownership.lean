import Mathlib.Algebra.Order.BigOperators.Group.Finset
import NebulaXTrader.Book.Lemmas.SharedPool

/-!
This module contains the theorem that the shared pool gives each slot to one owner, as long as no thread
sleeps through a whole turn of the tag.
-/

namespace NebulaXTrader

namespace SharedPool

section

variable {T : Type} [Fintype T] {s : SharedPool T} {fl : List Nat}

def Placed (s : SharedPool T) (fl : List Nat) (i : Nat) : Prop :=
  (fl.count i = 1 ∧ ∀ t, ¬ (s.threads t).Holds i ∧ ¬ (s.threads t).Frees i) ∨
  (i ∉ fl ∧ (∃! t, (s.threads t).Holds i) ∧ ∀ t, ¬ (s.threads t).Frees i) ∨
  (i ∉ fl ∧ (∀ t, ¬ (s.threads t).Holds i) ∧ ∃! t, (s.threads t).Frees i)

theorem Thread.owns_iff (th : Thread) (i : Nat) : th.Owns i ↔ th.Holds i ∨ th.Frees i := by
  unfold Thread.Owns Thread.Holds Thread.Frees
  cases th.pc.isFreeing with
  | true => simp
  | false => simp

theorem Inv.placed (h : s.Inv fl) {i : Nat} (hi : i < s.pool.capacity) : s.Placed fl i := by
  have hlist : i ∈ fl → ∀ t, ¬ (s.threads t).Owns i := by
    intro hmem t howns
    exact (h.owned t i howns).2 hmem
  cases h.covered i hi with
  | inl hmem =>
    apply Or.inl
    constructor
    . exact List.count_eq_one_of_mem h.free.isList.nodup hmem
    . intro t
      have hnot := hlist hmem t
      rw [Thread.owns_iff, not_or] at hnot
      exact hnot
  | inr hex =>
    cases hex with
    | intro t howns =>
      have hnot := (h.owned t i howns).2
      -- no thread both holds and frees the slot, and no other thread does either
      have hboth : ∀ t₁ t₂, (s.threads t₁).Holds i → ¬ (s.threads t₂).Frees i := by
        intro t₁ t₂ hholds hfrees
        have heq := h.alone t₁ t₂ i (((s.threads t₁).owns_iff i).2 (Or.inl hholds))
          (((s.threads t₂).owns_iff i).2 (Or.inr hfrees))
        subst heq
        cases hholds with
        | inl hheld => exact (h.good t₁).apart i hfrees.1 hheld
        | inr hslot =>
          have hfreeing := hfrees.2
          rw [hslot.2] at hfreeing
          cases hfreeing
      apply Or.inr
      cases ((s.threads t).owns_iff i).1 howns with
      | inl hholds =>
        apply Or.inl
        refine ⟨hnot, ⟨t, hholds, ?_⟩, fun t' => hboth t t' hholds⟩
        intro t' hholds'
        exact h.alone t' t i (((s.threads t').owns_iff i).2 (Or.inl hholds')) howns
      | inr hfrees =>
        apply Or.inr
        refine ⟨hnot, fun t' hholds => hboth t' t hholds hfrees, ⟨t, hfrees, ?_⟩⟩
        intro t' hfrees'
        exact h.alone t' t i (((s.threads t').owns_iff i).2 (Or.inr hfrees')) howns

theorem Inv.size_eq (h : s.Inv fl) (hidle : ∀ t, (s.threads t).pc = .idle)
    : s.pool.size = (Finset.univ.biUnion (fun t => (s.threads t).held)).card := by
  have hsum : ∑ t, (s.threads t).counted =
      (Finset.univ.biUnion (fun t => (s.threads t).held)).card := by
    rw [Finset.card_biUnion]
    . apply Finset.sum_congr rfl
      intro t _
      unfold Thread.counted
      rw [hidle t]
      rfl
    . intro t _ t' _ hne
      apply Finset.disjoint_left.2
      intro i hi hi'
      exact hne (h.alone t t' i (Or.inl hi) (Or.inl hi'))
  have hle : (Finset.univ.biUnion (fun t => (s.threads t).held)).card ≤ s.pool.capacity := by
    have hsub : Finset.univ.biUnion (fun t => (s.threads t).held) ⊆ Finset.range s.pool.capacity := by
      intro i hi
      rw [Finset.mem_biUnion] at hi
      cases hi with
      | intro t ht => exact Finset.mem_range.2 (h.owned t i (Or.inl ht.2)).1
    have hcard := Finset.card_le_card hsub
    rw [Finset.card_range] at hcard
    exact hcard
  have hcap : s.pool.capacity ≤ 4294967295 := h.free.cap
  rw [h.size, hsum, Nat.mod_eq_of_lt]
  omega

end

variable {T : Type} [DecidableEq T] {s : SharedPool T} {fl : List Nat}

theorem Inv.run [Fintype T] {s' : SharedPool T} {as : List (Label T)} (h : s.Inv fl)
    (htimely : Run.Along SharedPool.step Timely s as) (hrun : Run.exec SharedPool.step s as = some s')
    : ∃ fl', s'.Inv fl' := by
  apply Run.exec_inv (p := fun s => ∃ fl, s.Inv fl) _ ⟨fl, h⟩ htimely hrun
  intro s l s' hinv hgood hstep
  cases hinv with
  | intro fl hinv => exact hinv.step hgood hstep

def Label.thread (l : Label T) : T :=
  match l with
  | .allocate t => t
  | .deallocate t _ => t
  | .advance t => t
  | .spurious t => t

theorem setThread_self (s : SharedPool T) (t : T) (th : Thread) : (s.setThread t th).threads t = th := by
  apply Function.update_self

theorem setPc_self (s : SharedPool T) (t : T) (pc : Pc) : ((s.setPc t pc).threads t).pc = pc := by
  unfold setPc
  rw [setThread_self]

theorem setThread_of_ne (s : SharedPool T) {t t' : T} (th : Thread) (h : t' ≠ t)
    : (s.setThread t th).threads t' = s.threads t' := by
  apply Function.update_of_ne
  exact h

omit [DecidableEq T] in
theorem setSize_capacity (s : SharedPool T) (size : Nat)
    : (s.setSize size).pool.capacity = s.pool.capacity := rfl

omit [DecidableEq T] in
theorem setSize_threads (s : SharedPool T) (size : Nat) : (s.setSize size).threads = s.threads := rfl

structure Frame (s s' : SharedPool T) (t : T) : Prop where
  capacity : s'.pool.capacity = s.pool.capacity
  threads : ∀ t', t' ≠ t → s'.threads t' = s.threads t'

theorem Frame.setThread {s' : SharedPool T} (hcap : s'.pool.capacity = s.pool.capacity)
    (hthreads : s'.threads = s.threads) (t : T) (th : Thread) : Frame s (s'.setThread t th) t := by
  constructor
  . exact hcap
  . intro t' ht'
    rw [setThread_of_ne s' th ht', hthreads]

theorem Frame.test (s : SharedPool T) (t : T) : Frame s (s.test t) t := by
  unfold SharedPool.test
  split
  . apply Frame.setThread
    . rfl
    . rfl
  . apply Frame.setThread
    . rfl
    . rfl

theorem step_frame {s' : SharedPool T} {l : Label T} (hstep : s.step l = some s')
    : Frame s s' l.thread := by
  cases l with
  | allocate t =>
    unfold step at hstep
    dsimp only at hstep
    split at hstep
    . cases hstep
      apply Frame.setThread
      . rfl
      . rfl
    . cases hstep
  | deallocate t idx =>
    unfold step at hstep
    dsimp only at hstep
    split at hstep
    . cases hstep
      apply Frame.setThread
      . rfl
      . rfl
    . cases hstep
  | advance t =>
    have hadvance : s.advance t = some s' := hstep
    unfold advance at hadvance
    split at hadvance
    . cases hadvance
    . cases hadvance
      exact .test s t
    . cases hadvance
      apply Frame.setThread
      . rfl
      . rfl
    . split at hadvance
      . cases hadvance
        apply Frame.setThread
        . rfl
        . rfl
      . cases hadvance
        exact .test s t
    . cases hadvance
      apply Frame.setThread
      case hcap => rw [setSize_capacity]
      case hthreads => rw [setSize_threads]
    . cases hadvance
      apply Frame.setThread
      . rfl
      . rfl
    . cases hadvance
      apply Frame.setThread
      . rfl
      . rfl
    . cases hadvance
      apply Frame.setThread
      . rfl
      . rfl
    . split at hadvance
      . cases hadvance
        apply Frame.setThread
        . rfl
        . rfl
      . cases hadvance
        apply Frame.setThread
        . rfl
        . rfl
    . cases hadvance
      apply Frame.setThread
      case hcap => rw [setSize_capacity]
      case hthreads => rw [setSize_threads]
  | spurious t =>
    have hspurious : s.spurious t = some s' := hstep
    unfold spurious at hspurious
    split at hspurious
    . cases hspurious
      exact .test s t
    . cases hspurious
      apply Frame.setThread
      . rfl
      . rfl
    . cases hspurious

theorem test_null {t : T} (h : ((s.test t).threads t).pc = .null) : s.pool.freeHead.idx = noIdx := by
  unfold test at h
  split at h
  . assumption
  . rw [setPc_self] at h
    cases h

theorem step_null {s' : SharedPool T} {l : Label T} {t : T} (hstep : s.step l = some s')
    (hnull : (s'.threads t).pc = .null)
    : l ≠ .allocate t ∧ ((s.threads t).pc = .null ∨
        ((s.threads t).pc.isAllocating ∧ s.pool.freeHead.idx = noIdx)) := by
  by_cases ht : t = l.thread
  . cases l with
    | allocate t' =>
      have ht : t = t' := ht
      subst ht
      unfold step at hstep
      dsimp only at hstep
      split at hstep
      . cases hstep
        rw [setPc_self] at hnull
        cases hnull
      . cases hstep
    | deallocate t' idx =>
      have ht : t = t' := ht
      subst ht
      unfold step at hstep
      dsimp only at hstep
      split at hstep
      . cases hstep
        rw [setThread_self] at hnull
        cases hnull
      . cases hstep
    | advance t' =>
      have ht : t = t' := ht
      subst ht
      refine ⟨(fun h => nomatch h), Or.inr ?_⟩
      have hadvance : s.advance t = some s' := hstep
      unfold advance at hadvance
      cases hpc : (s.threads t).pc with
      | allocate =>
        rw [hpc] at hadvance
        cases hadvance
        exact ⟨rfl, test_null hnull⟩
      | takeHead fh since next =>
        rw [hpc] at hadvance
        dsimp only at hadvance
        split at hadvance
        . cases hadvance
          rw [setPc_self] at hnull
          cases hnull
        . cases hadvance
          exact ⟨rfl, test_null hnull⟩
      | idle =>
        rw [hpc] at hadvance
        cases hadvance
      | taken idx =>
        rw [hpc] at hadvance
        cases hadvance
        rw [setThread_self] at hnull
        cases hnull
      | pushHead idx fh since =>
        rw [hpc] at hadvance
        dsimp only at hadvance
        split at hadvance
        . cases hadvance
          rw [setPc_self] at hnull
          cases hnull
        . cases hadvance
          rw [setPc_self] at hnull
          cases hnull
      | _ =>
        rw [hpc] at hadvance
        cases hadvance
        rw [setPc_self] at hnull
        cases hnull
    | spurious t' =>
      have ht : t = t' := ht
      subst ht
      refine ⟨(fun h => nomatch h), Or.inr ?_⟩
      have hspurious : s.spurious t = some s' := hstep
      unfold spurious at hspurious
      split at hspurious
      . next hpc =>
        cases hspurious
        rw [hpc]
        exact ⟨rfl, test_null hnull⟩
      . cases hspurious
        rw [setPc_self] at hnull
        cases hnull
      . cases hspurious
  . rw [(step_frame hstep).threads t ht] at hnull
    refine ⟨?_, Or.inl hnull⟩
    intro heq
    rw [heq] at ht
    exact ht rfl

variable [Fintype T]

theorem run_null {s' : SharedPool T} {as : List (Label T)} {t : T} (hinv : s.Inv fl)
    (hstart : (s.threads t).pc = .idle)
    (htimely : Run.Along SharedPool.step Timely s as) (hrun : Run.exec SharedPool.step s as = some s')
    (hnull : (s'.threads t).pc = .null)
    : ∃ before after s₁, as = before ++ after ∧ Run.exec SharedPool.step s before = some s₁ ∧
        s₁.pool.Free [] ∧ (s₁.threads t).pc.isAllocating ∧ .allocate t ∉ after := by
  -- A null pointer: some moment of the call saw an empty list.
  induction as using List.reverseRecOn generalizing s' with
  | nil =>
    cases hrun
    rw [hstart] at hnull
    cases hnull
  | append_singleton as l ih =>
    cases Run.exec_concat hrun with
    | intro s₁ hs₁ =>
      have hstep := step_null hs₁.2 hnull
      cases hstep.2 with
      | inl hbefore =>
        cases ih htimely.append_left hs₁.1 hbefore with
        | intro before h =>
          cases h with
          | intro after h =>
            cases h with
            | intro s₂ h =>
              refine ⟨before, after ++ [l], s₂, ?_, h.2.1, h.2.2.1, h.2.2.2.1, ?_⟩
              . rw [h.1, List.append_assoc]
              . intro hmem
                cases List.mem_append.1 hmem with
                | inl hmem => exact h.2.2.2.2 hmem
                | inr hmem => exact hstep.1 (List.mem_singleton.1 hmem).symm
      | inr hempty =>
        refine ⟨as, [l], s₁, rfl, hs₁.1, ?_, hempty.1, ?_⟩
        . cases hinv.run htimely.append_left hs₁.1 with
          | intro fl₁ h₁ =>
            have hnil : fl₁ = [] := by
              have hlist := h₁.free.isList
              rw [hempty.2] at hlist
              exact hlist.eq_nil
            rw [hnil] at h₁
            exact h₁.free
        . intro hmem
          exact hstep.1 (List.mem_singleton.1 hmem).symm

/--
What holds after every interleaving in which each exchange comes less than `2 ^ 32` exchanges after the load
that it relies on: where the slots are, that the free list is a list, what a null pointer means, and what the
counter says when nothing runs.
-/
theorem one_owner {capacity : Nat} (h0 : 0 < capacity) (h : capacity ≤ noIdx) {as : List (Label T)}
    {s : SharedPool T} (htimely : Run.Along SharedPool.step Timely (init T capacity) as)
    (hrun : Run.exec SharedPool.step (init T capacity) as = some s)
    : (∃ fl, s.pool.Free fl ∧ fl.Nodup ∧ ∀ i, i < capacity → s.Placed fl i) ∧
      (∀ t, (s.threads t).pc = .null →
        ∃ before after s₁, as = before ++ after ∧
          Run.exec SharedPool.step (init T capacity) before = some s₁ ∧
          s₁.pool.Free [] ∧ (s₁.threads t).pc.isAllocating ∧ .allocate t ∉ after) ∧
      ((∀ t, (s.threads t).pc = .idle) →
        s.pool.size = (Finset.univ.biUnion (fun t => (s.threads t).held)).card) := by
  have hinit : (init T capacity).Inv (List.range capacity) := .init h0 h
  have hcap : s.pool.capacity = capacity := by
    apply Run.exec_keeps (p := fun s => s.pool.capacity = capacity) _ rfl hrun
    intro s l s' hs hstep
    rw [(step_frame hstep).capacity]
    exact hs
  cases hinit.run htimely hrun with
  | intro fl hinv =>
    refine ⟨⟨fl, hinv.free, hinv.free.isList.nodup, ?_⟩, ?_, hinv.size_eq⟩
    . intro i hi
      apply hinv.placed
      rw [hcap]
      exact hi
    . intro t hnull
      exact run_null hinit rfl htimely hrun hnull

theorem one_owner_stale
    : let as : List (Label Bool) := [.allocate true, .advance true, .advance true,
        .allocate false, .advance false, .advance false, .advance false, .advance false,
        .allocate false, .advance false, .advance false, .advance false, .advance false,
        .deallocate false 0, .advance false, .advance false, .advance false, .advance false,
        .advance true, .advance true, .advance true, .advance true]
      ∃ s, Run.exec SharedPool.step (init Bool 2) as = some s ∧
        ∃ fl, s.pool.Free fl ∧ fl.Nodup ∧ ∀ i, i < 2 → s.Placed fl i := by
  -- The tag at work: while one thread sits between its load and its exchange the other takes both
  -- slots and gives the first one back, so that the list head has the expected index but a new tag.
  intro as
  cases hrun : Run.exec SharedPool.step (init Bool 2) as with
  | none =>
    have hsome : (Run.exec SharedPool.step (init Bool 2) as).isSome := by decide +kernel
    rw [hrun] at hsome
    cases hsome
  | some s => exact ⟨s, rfl, (one_owner (by decide) (by decide) (by decide +kernel) hrun).1⟩

end SharedPool

end NebulaXTrader
