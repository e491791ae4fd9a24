import Mathlib.Data.Finmap
import NebulaXTrader.Book.Lemmas.PriceLevelTable

/-!
This module contains the theorem that a table of price levels is a finite map from prices to levels with a cached
extreme.
-/

namespace NebulaXTrader

namespace PriceLevelTable

/--
The calls that change a table. What the caller of `operator[]` stores in the level is part of the call.
-/
inductive Op (β : Type) where
  | access (price : Int) (write : β → β)
  | erase (price : Int)

variable {β : Type} [Inhabited β]

abbrev Levels (β : Type) := Finmap (fun _ : Int => β)

def Op.price (op : Op β) : Int :=
  match op with
  | .access price _ => price
  | .erase price => price

def apply (t : PriceLevelTable β) (op : Op β) : PriceLevelTable β :=
  match op with
  | .access price write =>
    let (t, i) := t.access price
    t.modifyLvl i write
  | .erase price => t.erase price

def meaning (m : Levels β) (op : Op β) : Levels β :=
  match op with
  | .access price write => m.insert price (write ((m.lookup price).getD default))
  | .erase price => m.erase price

def Extreme (isBid : Bool) (prices : Set Int) (price : Int) : Prop :=
  if isBid then IsGreatest prices price else IsLeast prices price

/--
What a caller sees of the table is what the map says, and the table keeps each price in one slot. The last part is
about the loops of `grow` and `operator[]` that have no bound: with any number of old slots moved they find an
empty slot.
-/
structure Represents (isBid : Bool) (qty : β → Nat) (t : PriceLevelTable β) (m : Levels β) : Prop where
  find : ∀ price, Valid price → t.find price = m.lookup price
  access : ∀ price, Valid price →
    ((t.access price).1.slots (t.access price).2).lvl = (m.lookup price).getD default
  size : t.size = m.keys.card
  best : m.keys.Nonempty → Extreme isBid m.keys t.best
  bestQty : t.bestQty qty = (m.lookup t.best).elim 0 qty
  one : ∀ i j, i < t.cap → j < t.cap → Valid (t.slots i).price → (t.slots i).price = (t.slots j).price → i = j
  halts : ∀ k price, k ≤ t.cap →
    (Probe.scan (fun i => (t.rehashUpTo k i).price = kEmpty) (t.cap * 2) (t.cap * 2)
      (probe (t.cap * 2) price)).isSome

structure Holds (isBid : Bool) (t : PriceLevelTable β) (m : Levels β) : Prop where
  inv : t.Inv
  isBid : t.isBid = isBid
  find : ∀ price, Valid price → t.find price = m.lookup price
  valid : ∀ price, price ∈ m → Valid price

variable {isBid : Bool} {t : PriceLevelTable β} {m : Levels β}

theorem Holds.init (isBid : Bool) : Holds isBid (init isBid : PriceLevelTable β) ∅ := by
  refine ⟨Inv.init isBid, rfl, ?_, ?_⟩
  . intro price hprice
    rw [init_find isBid hprice.isPrice, Finmap.lookup_empty]
  . intro price hmem
    exact absurd hmem Finmap.notMem_empty

theorem Holds.access (h : Holds isBid t m) {price : Int} (hprice : Valid price) (write : β → β)
    : Holds isBid (t.apply (.access price write)) (meaning m (.access price write)) := by
  have hacc := h.inv.access hprice
  have hwrite := hacc.inv.modifyLvl_find hacc.lt hacc.price hprice.isPrice write
  refine ⟨hacc.inv.modifyLvl write, hacc.isBid.trans h.isBid, ?_, ?_⟩
  . intro q hq
    show ((t.access price).1.modifyLvl (t.access price).2 write).find q = (m.insert price _).lookup q
    by_cases heq : q = price
    . rw [heq, hwrite.1, hacc.lvl, h.find price hprice, Finmap.lookup_insert]
    . rw [hwrite.2 q hq.isPrice heq, hacc.other q hq.isPrice heq, h.find q hq, Finmap.lookup_insert_of_ne _ heq]
  . intro q hmem
    cases Finmap.mem_insert.1 hmem with
    | inl heq =>
      rw [heq]
      exact hprice
    | inr hold => exact h.valid q hold

theorem Holds.erase (h : Holds isBid t m) {price : Int} (hprice : Valid price)
    : Holds isBid (t.apply (.erase price)) (meaning m (.erase price)) := by
  obtain ⟨hinv, hnone, hother⟩ := h.inv.erase hprice.isPrice
  refine ⟨hinv, (erase_slots t price).2.1.trans h.isBid, ?_, ?_⟩
  . intro q hq
    show (t.erase price).find q = (m.erase price).lookup q
    by_cases heq : q = price
    . rw [heq, hnone, Finmap.lookup_erase]
    . rw [hother q hq.isPrice heq, h.find q hq, Finmap.lookup_erase_ne heq]
  . intro q hmem
    exact h.valid q (Finmap.mem_erase.1 hmem).2

omit [Inhabited β] in
theorem Holds.mem_iff (h : Holds isBid t m) (price : Int)
    : price ∈ m ↔ ∃ i, i < t.cap ∧ isPrice (t.slots i).price ∧ (t.slots i).price = price := by
  constructor
  . intro hmem
    have hprice := h.valid price hmem
    obtain ⟨lvl, hlvl⟩ := Finmap.mem_iff.1 hmem
    rw [← h.find price hprice, h.inv.find_eq_some_iff hprice.isPrice] at hlvl
    obtain ⟨i, hi, hpi, _⟩ := hlvl
    refine ⟨i, hi, ?_, hpi⟩
    rw [hpi]
    exact hprice.isPrice
  . intro hslot
    obtain ⟨i, hi, hisPrice, hpi⟩ := hslot
    have hprice := h.inv.valid i hi hisPrice
    rw [← hpi, Finmap.mem_iff]
    refine ⟨(t.slots i).lvl, ?_⟩
    rw [← h.find _ hprice, h.inv.find_slot hi hisPrice]

omit [Inhabited β] in
theorem Holds.size (h : Holds isBid t m) : t.size = m.keys.card := by
  -- the slots that hold a price are in bijection with the keys
  have hkeys : m.keys = ((Finset.range t.cap).filter (fun i => isPrice (t.slots i).price)).image
      (fun i => (t.slots i).price) := by
    ext price
    rw [Finmap.mem_keys, h.mem_iff, Finset.mem_image]
    simp only [Finset.mem_filter, Finset.mem_range, and_assoc]
  have hinj : Set.InjOn (fun i => (t.slots i).price)
      ((Finset.range t.cap).filter (fun i => isPrice (t.slots i).price) : Finset Nat) := by
    intro i hi j hj heq
    rw [Finset.mem_coe, Finset.mem_filter, Finset.mem_range] at hi hj
    have hne := ne_of_isPrice hi.2
    exact h.inv.placed.inj i j hi.1 hj.1 hne.1 hne.2 heq
  have hcount : t.size = t.count := rfl
  rw [hkeys, Finset.card_image_of_injOn hinj, hcount, h.inv.count_eq, List.countP_eq_length_filter]
  rw [Finset.card, Finset.filter_val, Finset.range_val, ← Multiset.coe_range, Multiset.filter_coe, Multiset.coe_card]
  simp only [Bool.decide_eq_true]

omit [Inhabited β] in
theorem Holds.best (h : Holds isBid t m) (hne : m.keys.Nonempty) : Extreme isBid m.keys t.best := by
  have hworst : ∀ price, price ∈ m → better isBid price t.best = false := by
    intro price hmem
    obtain ⟨i, hi, hisPrice, hpi⟩ := (h.mem_iff price).1 hmem
    rw [← hpi, ← h.isBid]
    exact h.inv.best_ge i hi hisPrice
  have hmem : t.best ∈ m := by
    cases h.inv.best_mem with
    | inl hnone =>
      -- a cached value that never moved is itself the price of every level
      obtain ⟨price, hprice⟩ := hne
      rw [Finmap.mem_keys] at hprice
      have hnot := hworst price hprice
      rw [hnone, h.isBid] at hnot ⊢
      rw [← eq_worst_of_not_better (h.valid price hprice) hnot]
      exact hprice
    | inr hslot =>
      obtain ⟨i, hi, hisPrice, hbest⟩ := hslot
      exact (h.mem_iff t.best).2 ⟨i, hi, hisPrice, hbest.symm⟩
  unfold Extreme
  cases isBid with
  | true =>
    refine ⟨Finmap.mem_keys.2 hmem, ?_⟩
    intro price hprice
    simpa [better] using hworst price (Finmap.mem_keys.1 hprice)
  | false =>
    refine ⟨Finmap.mem_keys.2 hmem, ?_⟩
    intro price hprice
    simpa [better] using hworst price (Finmap.mem_keys.1 hprice)

omit [Inhabited β] in
theorem Holds.bestQty (h : Holds isBid t m) (qty : β → Nat) : t.bestQty qty = (m.lookup t.best).elim 0 qty := by
  unfold PriceLevelTable.bestQty
  by_cases hempty : t.isEmpty
  . have hcard : m.keys.card = 0 := by
      rw [← h.size]
      exact of_decide_eq_true hempty
    have hnone : t.best ∉ m := by
      rw [← Finmap.mem_keys, Finset.card_eq_zero.1 hcard]
      exact Finset.notMem_empty _
    rw [if_pos hempty, Finmap.lookup_eq_none.2 hnone]
    rfl
  . have hne : m.keys.Nonempty := by
      rw [← Finset.card_pos, ← h.size]
      exact Nat.pos_of_ne_zero (fun hzero => hempty (decide_eq_true hzero))
    have hbest := h.best hne
    have hmem : t.best ∈ m := by
      unfold Extreme at hbest
      cases isBid with
      | true => exact Finmap.mem_keys.1 hbest.1
      | false => exact Finmap.mem_keys.1 hbest.1
    rw [if_neg hempty, h.find t.best (h.valid _ hmem)]
    cases m.lookup t.best with
    | none => rfl
    | some lvl => rfl

theorem Holds.represents (h : Holds isBid t m) (qty : β → Nat) : Represents isBid qty t m := by
  refine ⟨h.find, ?_, h.size, h.best, h.bestQty qty, ?_, ?_⟩
  . intro price hprice
    rw [(h.inv.access hprice).lvl, h.find price hprice]
  . intro i j hi hj hprice heq
    exact h.inv.placed.inj i j hi hj hprice.ne_kEmpty hprice.ne_kTombstone heq
  . intro k price hk
    exact h.inv.rehash_halts hk price

theorem Holds.run (h : Holds isBid t m) {ops : List (Op β)} (hops : ∀ op ∈ ops, Valid op.price)
    : Holds isBid (ops.foldl apply t) (ops.foldl meaning m) := by
  induction ops generalizing t m with
  | nil => exact h
  | cons op ops ih =>
    have hprice := hops op (by simp)
    have hrest : ∀ op' ∈ ops, Valid op'.price := fun op' hop' => hops op' (by simp [hop'])
    cases op with
    | access price write => exact ih (h.access hprice write) hrest
    | erase price => exact ih (h.erase hprice) hrest

/--
Whatever is called on a fresh table of either side, it represents the map that the calls mean.
-/
theorem represents_run (isBid : Bool) (qty : β → Nat) (ops : List (Op β)) (hops : ∀ op ∈ ops, Valid op.price)
    : Represents isBid qty (ops.foldl apply (init isBid)) (ops.foldl meaning ∅) :=
  ((Holds.init isBid).run hops).represents qty

def reinsertion : List (Op Nat) := [.access 10000 (· + 300), .erase 10000, .access 10000 id]

theorem represents_reinsertion
    : Represents true id (reinsertion.foldl apply (init true)) (reinsertion.foldl meaning ∅) := by
  apply represents_run
  intro op hop
  have hprice : op.price = 10000 := by
    simp only [reinsertion, List.mem_cons, List.not_mem_nil, or_false] at hop
    obtain rfl | rfl | rfl := hop
    . rfl
    . rfl
    . rfl
  rw [hprice]
  exact ⟨by decide, by decide⟩

end PriceLevelTable

end NebulaXTrader
