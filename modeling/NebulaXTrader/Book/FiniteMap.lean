import Mathlib.Data.Finmap
import NebulaXTrader.Book.Lemmas.OrderMap
import NebulaXTrader.Lib.Run

/-!
This module contains the theorem that an `OrderMap` with one caller is a finite map exactly as long as no
insert finds the node pool used up: the nodes of a treeified bucket never return to the pool.
-/

namespace NebulaXTrader

namespace OrderMap

inductive Op where
  | insert (orderRef order : Nat)
  | find (orderRef : Nat)
  | erase (orderRef : Nat)
  deriving DecidableEq, Repr

def apply (m : OrderMap) (op : Op) : OrderMap :=
  match op with
  | .insert orderRef order => m.insert orderRef order
  | .find _ => m
  | .erase orderRef => m.erase orderRef

def meaning (f : Finmap (fun _ : Nat => Nat)) (op : Op) : Finmap (fun _ : Nat => Nat) :=
  match op with
  | .insert orderRef order => f.insert orderRef order
  | .find _ => f
  | .erase orderRef => f.erase orderRef

def applyBoth (s : OrderMap × Finmap (fun _ : Nat => Nat)) (op : Op)
    : OrderMap × Finmap (fun _ : Nat => Nat) :=
  (s.1.apply op, meaning s.2 op)

def empty (capacity : Nat) : OrderMap × Finmap (fun _ : Nat => Nat) := (init capacity, ∅)

def Absent (s : OrderMap × Finmap (fun _ : Nat => Nat)) (op : Op) : Prop :=
  match op with
  | .insert orderRef _ => orderRef ∉ s.2
  | .find _ => True
  | .erase _ => True

def Fits (capacity : Nat) (s : OrderMap × Finmap (fun _ : Nat => Nat)) (op : Op) : Prop :=
  (meaning s.2 op).keys.card ≤ capacity

/--
The insert does not find its bucket short and the node pool empty.
-/
def Room (s : OrderMap × Finmap (fun _ : Nat => Nat)) (op : Op) : Prop :=
  match op with
  | .insert orderRef _ => ¬ s.1.Drops orderRef
  | .find _ => True
  | .erase _ => True

instance (s : OrderMap × Finmap (fun _ : Nat => Nat)) (op : Op) : Decidable (Absent s op) := by
  unfold Absent
  split
  . infer_instance
  . infer_instance
  . infer_instance

instance (capacity : Nat) (s : OrderMap × Finmap (fun _ : Nat => Nat)) (op : Op)
    : Decidable (Fits capacity s op) :=
  inferInstanceAs (Decidable (_ ≤ _))

instance (s : OrderMap × Finmap (fun _ : Nat => Nat)) (op : Op) : Decidable (Room s op) := by
  unfold Room
  split
  . infer_instance
  . infer_instance
  . infer_instance

def Answers (s : OrderMap × Finmap (fun _ : Nat => Nat)) : Prop :=
  (∀ orderRef, s.1.find orderRef = s.2.lookup orderRef) ∧ s.1.size = s.2.keys.card

structure Holds (s : OrderMap × Finmap (fun _ : Nat => Nat)) : Prop where
  wf : ∃ fl, s.1.Wf fl
  entries : ∀ orderRef, s.1.entries orderRef = (s.2.lookup orderRef).toList
  size : s.1.size = s.2.keys.card

variable {s : OrderMap × Finmap (fun _ : Nat => Nat)}

theorem Holds.answers (h : Holds s) : Answers s := by
  constructor
  . intro orderRef
    cases h.wf with
    | intro fl hwf =>
      rw [hwf.find_eq, h.entries]
      cases s.2.lookup orderRef with
      | none => rfl
      | some order => rfl
  . exact h.size

theorem Holds.empty {capacity : Nat} (h0 : 0 < capacity) (h : capacity ≤ noIdx)
    : Holds (empty capacity) := by
  constructor
  . exact ⟨_, Wf.init h0 h⟩
  . exact entries_init capacity
  . rfl

theorem Holds.insert (h : Holds s) {orderRef order : Nat} (habsent : orderRef ∉ s.2)
    (hroom : ¬ s.1.Drops orderRef) : Holds (applyBoth s (.insert orderRef order)) := by
  cases h.wf with
  | intro fl hwf =>
    have hnone : s.2.lookup orderRef = none := Finmap.lookup_eq_none.2 habsent
    have hnew : s.1.entries orderRef = [] := by
      rw [h.entries, hnone]
      rfl
    have hone : ∀ r, (s.1.entries r).length ≤ 1 := by
      intro r
      rw [h.entries]
      cases s.2.lookup r with
      | none => exact Nat.zero_le 1
      | some order => exact le_refl 1
    have hinsert := hwf.insert order hroom hnew hone
    constructor
    . exact hinsert.1
    . intro r
      by_cases hr : r = orderRef
      . subst hr
        show (s.1.insert r order).entries r = ((s.2.insert r order).lookup r).toList
        rw [hinsert.2.1, Finmap.lookup_insert]
        rfl
      . show (s.1.insert orderRef order).entries r = ((s.2.insert orderRef order).lookup r).toList
        rw [hinsert.2.2 r hr, Finmap.lookup_insert_of_ne _ hr, h.entries]
    . show (s.1.insert orderRef order).size = (s.2.insert orderRef order).keys.card
      have hkeys : (s.2.insert orderRef order).keys = Insert.insert orderRef s.2.keys := by
        ext r
        rw [Finmap.mem_keys, Finmap.mem_insert, Finset.mem_insert, Finmap.mem_keys]
      have hmem : orderRef ∉ s.2.keys := by
        rw [Finmap.mem_keys]
        exact habsent
      rw [insert_size hroom, h.size, hkeys, Finset.card_insert_of_notMem hmem]

theorem Holds.erase (h : Holds s) (orderRef : Nat) : Holds (applyBoth s (.erase orderRef)) := by
  cases h.wf with
  | intro fl hwf =>
    have herase := hwf.erase orderRef
    constructor
    . exact herase.1
    . intro r
      by_cases hr : r = orderRef
      . subst hr
        show (s.1.erase r).entries r = ((s.2.erase r).lookup r).toList
        rw [herase.2.2.1, Finmap.lookup_erase, h.entries]
        cases s.2.lookup r with
        | none => rfl
        | some order => rfl
      . show (s.1.erase orderRef).entries r = ((s.2.erase orderRef).lookup r).toList
        rw [herase.2.2.2 r hr, Finmap.lookup_erase_ne hr, h.entries]
    . show (s.1.erase orderRef).size = (s.2.erase orderRef).keys.card
      rw [hwf.erase_size, h.size, h.entries, Finmap.keys_erase, Finset.card_erase_eq_ite]
      cases hlookup : s.2.lookup orderRef with
      | none =>
        have hnot : orderRef ∉ s.2.keys := by
          rw [Finmap.mem_keys]
          exact Finmap.lookup_eq_none.1 hlookup
        rw [if_neg hnot]
        rfl
      | some order =>
        have hmem : orderRef ∈ s.2.keys := by
          rw [Finmap.mem_keys]
          exact Finmap.mem_of_lookup_eq_some hlookup
        rw [if_pos hmem]
        rfl

theorem Holds.applyBoth (h : Holds s) {op : Op} (habsent : Absent s op) (hroom : Room s op)
    : Holds (applyBoth s op) := by
  cases op with
  | insert orderRef order => exact h.insert habsent hroom
  | find orderRef => exact h
  | erase orderRef => exact h.erase orderRef

theorem Answers.room {op : Op} (habsent : Absent s op) (hbefore : Answers s)
    (hafter : Answers (OrderMap.applyBoth s op)) : Room s op := by
  -- An insert that is dropped leaves the table as it is, so one of the answers before and after it
  -- is wrong.
  cases op with
  | insert orderRef order =>
    intro hdrops
    have hnone : s.2.lookup orderRef = none := Finmap.lookup_eq_none.2 habsent
    have hfind := hafter.1 orderRef
    have hsame : (OrderMap.applyBoth s (.insert orderRef order)).1 = s.1 := insert_of_drops hdrops
    have hnew : (OrderMap.applyBoth s (.insert orderRef order)).2.lookup orderRef = some order :=
      Finmap.lookup_insert s.2
    rw [hsame, hnew, hbefore.1, hnone] at hfind
    cases hfind
  | find orderRef => trivial
  | erase orderRef => trivial

/--
The table answers like a finite map after every operation if and only if no insert of the sequence is
dropped.
-/
theorem finiteMap_iff {capacity : Nat} (h2 : 2 ≤ capacity) (h : capacity ≤ 2 ^ 31) (ops : List Op)
    (habsent : Run.Along (fun s op => some (OrderMap.applyBoth s op)) Absent (empty capacity) ops)
    : (∀ pre, pre <+: ops → Answers (pre.foldl OrderMap.applyBoth (empty capacity))) ↔
        Run.Along (fun s op => some (OrderMap.applyBoth s op)) Room (empty capacity) ops := by
  have hholds : Holds (empty capacity) := .empty (Nat.zero_lt_of_lt h2) (OrderMap.le_noIdx h)
  generalize empty capacity = s at habsent hholds
  induction ops generalizing s with
  | nil =>
    constructor
    . intro _
      trivial
    . intro _ pre hpre
      rw [List.prefix_nil.1 hpre]
      exact hholds.answers
  | cons op ops ih =>
    constructor
    . intro hanswers
      have hroom : Room s op :=
        Answers.room habsent.1 (hanswers [] List.nil_prefix) (hanswers [op] ⟨ops, rfl⟩)
      constructor
      . exact hroom
      . intro s' hs'
        cases hs'
        apply (ih _ (habsent.2 _ rfl) (hholds.applyBoth habsent.1 hroom)).1
        intro pre hpre
        exact hanswers (op :: pre) ((List.prefix_cons_inj op).2 hpre)
    . intro hroom pre hpre
      cases pre with
      | nil => exact hholds.answers
      | cons op' pre =>
        have hcons := List.cons_prefix_cons.1 hpre
        rw [hcons.1]
        apply (ih _ (habsent.2 _ rfl) (hholds.applyBoth habsent.1 hroom.1)).2 (hroom.2 _ rfl)
        exact hcons.2

theorem finiteMap_collision
    : let ops := [.insert 1 10, .insert 9 90, .erase 1, .find 9, .insert 1 11]
      Answers (ops.foldl OrderMap.applyBoth (empty 8)) := by
  -- Two references that share a bucket, and one of them again after it was erased.
  intro ops
  apply (finiteMap_iff (by decide) (by decide) ops (by decide +kernel)).2
  . decide +kernel
  . exact List.prefix_refl ops

theorem not_finiteMap
    : ¬ ∀ capacity : Nat, 2 ≤ capacity → capacity ≤ 2 ^ 31 → ∀ ops : List Op,
        Run.Along (fun s op => some (OrderMap.applyBoth s op))
          (fun s op => Absent s op ∧ Fits capacity s op) (empty capacity) ops →
        ∀ pre, pre <+: ops → Answers (pre.foldl OrderMap.applyBoth (empty capacity)) := by
  -- Eight references of one bucket treeify it. They take all nodes with them, so that a reference
  -- of another bucket is lost although nothing else is live.
  intro h
  have hanswers := h 8 (by decide) (by decide)
    [.insert 1 1, .insert 9 2, .insert 17 3, .insert 22 4, .insert 30 5, .insert 43 6, .insert 51 7,
      .insert 56 8, .erase 1, .erase 9, .erase 17, .erase 22, .erase 30, .erase 43, .erase 51, .erase 56,
      .insert 2 9] (by decide +kernel) _ (List.prefix_refl _)
  have hsize := hanswers.2
  revert hsize
  decide +kernel

end OrderMap

end NebulaXTrader
