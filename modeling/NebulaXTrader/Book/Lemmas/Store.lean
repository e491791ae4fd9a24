import NebulaXTrader.Book.Ledger
import NebulaXTrader.Book.Lemmas.OrderMap

/-!
This module contains the proof that the order pool and the order index together store a finite map from
order references to orders.
-/

namespace NebulaXTrader

structure OrderPool.Relinks (p p' : OrderPool) : Prop where
  view : ∀ i, (p'.storage i).view = (p.storage i).view
  capacity : p'.capacity = p.capacity
  free : ∀ fl, p.Free fl → p'.Free fl

namespace OrderPool.Relinks

variable {p p' p'' : OrderPool}

theorem refl (p : OrderPool) : Relinks p p := ⟨fun _ => rfl, rfl, fun _ h => h⟩

theorem trans (h : Relinks p p') (h' : Relinks p' p'') : Relinks p p'' := by
  constructor
  . intro i
    rw [h'.view, h.view]
  . rw [h'.capacity, h.capacity]
  . intro fl hfl
    exact h'.free fl (h.free fl hfl)

theorem modify (p : OrderPool) (idx : Nat) (f : OrderSlot → OrderSlot)
    (hview : ∀ s, (f s).view = s.view) (hfree : ∀ s, (f s).poolNextFree = s.poolNextFree)
    : Relinks p (p.modify idx f) := by
  constructor
  . intro i
    exact modify_storage_field p idx f OrderSlot.view hview i
  . rfl
  . intro fl h
    exact h.modify idx f hfree

theorem linkFront (p : OrderPool) (lvl : PriceLevel) (idx : Nat)
    : Relinks p (OrderBook.linkFront p lvl idx) := by
  unfold OrderBook.linkFront
  split
  . apply Relinks.trans
    . apply Relinks.modify p lvl.headIdx (fun s => { s with prevIdx := idx })
      . intro s
        rfl
      . intro s
        rfl
    . apply Relinks.modify
      . intro s
        rfl
      . intro s
        rfl
  . exact Relinks.refl p

theorem ite_modify (c : Prop) [Decidable c] (p : OrderPool) (idx : Nat) (lvl lvl' : PriceLevel)
    (f : OrderSlot → OrderSlot) (hview : ∀ s, (f s).view = s.view)
    (hfree : ∀ s, (f s).poolNextFree = s.poolNextFree)
    : Relinks p (if c then (p.modify idx f, lvl) else (p, lvl')).1 := by
  split
  . exact Relinks.modify p idx f hview hfree
  . exact Relinks.refl p

theorem unlinkSlot (p : OrderPool) (lvl : PriceLevel) (idx : Nat)
    : Relinks p (OrderBook.unlinkSlot p lvl idx).1 := by
  unfold OrderBook.unlinkSlot
  apply Relinks.trans
  . apply Relinks.ite_modify ((p.storage idx).prevIdx ≠ noIdx) p (p.storage idx).prevIdx lvl
      { lvl with headIdx := (p.storage idx).nextIdx }
      (fun s => { s with nextIdx := (p.storage idx).nextIdx })
    . intro s
      rfl
    . intro s
      rfl
  . apply Relinks.ite_modify
    . intro s
      rfl
    . intro s
      rfl

end OrderPool.Relinks

theorem OrderBook.unlinkSlot_qty (p : OrderPool) (lvl : PriceLevel) (idx : Nat)
    : (unlinkSlot p lvl idx).2.qty = lvl.qty := by
  have key : ∀ (c : Prop) [Decidable c] (p₁ p₂ : OrderPool) (l l' : PriceLevel), l'.qty = l.qty →
      (if c then (p₁, l) else (p₂, l')).2.qty = l.qty := by
    intro c _ p₁ p₂ l l' h
    split
    . rfl
    . exact h
  unfold unlinkSlot
  apply Eq.trans
  . apply key
    rfl
  . apply key
    rfl

structure Stored (p : OrderPool) (ix : OrderMap) (orders : Nat → Option OrderSlotView) : Prop where
  wf : ∃ il, ix.Wf il
  free : ∃ pl, p.Free pl ∧ ∀ ref, ∀ s ∈ ix.entries ref, s ∉ pl ∧ s < p.capacity
  view : ∀ ref, (ix.entries ref).map (fun s => (p.storage s).view) = (orders ref).toList
  ref : ∀ ref v, orders ref = some v → v.orderRef = ref

namespace Stored

variable {p p' : OrderPool} {ix : OrderMap} {orders : Nat → Option OrderSlotView} {r s : Nat}
  {v : OrderSlotView}

theorem init {capacity nodes : Nat} (h0 : 0 < capacity) (h : capacity ≤ noIdx) (h0' : 0 < nodes)
    (h' : nodes ≤ noIdx)
    : Stored (OrderPool.init capacity) (OrderMap.init nodes) (fun _ => none) := by
  have hwf := OrderMap.Wf.init h0' h'
  constructor
  . exact ⟨_, hwf⟩
  . apply Exists.intro (List.range capacity)
    constructor
    . exact OrderPool.Free.init h0 h
    . intro ref s hs
      rw [OrderMap.entries_init] at hs
      cases hs
  . intro ref
    rw [OrderMap.entries_init]
    rfl
  . intro ref v hv
    cases hv

theorem relink (h : Stored p ix orders) (hp : p.Relinks p') : Stored p' ix orders := by
  constructor
  . exact h.wf
  . obtain ⟨pl, hpl, hs⟩ := h.free
    apply Exists.intro pl
    constructor
    . exact hp.free pl hpl
    . intro ref s hmem
      rw [hp.capacity]
      exact hs ref s hmem
  . intro ref
    simp only [hp.view]
    exact h.view ref
  . exact h.ref

theorem find_none (h : Stored p ix orders) (hr : orders r = none) : ix.find r = none := by
  obtain ⟨il, hwf⟩ := h.wf
  have hv := h.view r
  rw [hr] at hv
  rw [hwf.find_eq, List.map_eq_nil_iff.1 hv]
  rfl

theorem entries_some (h : Stored p ix orders) (hr : orders r = some v)
    : ∃ s, ix.entries r = [s] ∧ (p.storage s).view = v := by
  have hv := h.view r
  rw [hr] at hv
  cases he : ix.entries r with
  | nil => simp [he] at hv
  | cons s l =>
    simp only [he, List.map_cons, Option.toList_some, List.cons.injEq, List.map_eq_nil_iff] at hv
    apply Exists.intro s
    rw [hv.2]
    exact ⟨rfl, hv.1⟩

theorem find_some (h : Stored p ix orders) (hr : orders r = some v)
    : ∃ s, ix.find r = some s ∧ ix.entries r = [s] ∧ (p.storage s).view = v := by
  obtain ⟨il, hwf⟩ := h.wf
  obtain ⟨s, he, hv⟩ := h.entries_some hr
  apply Exists.intro s
  rw [hwf.find_eq, he]
  exact ⟨rfl, rfl, hv⟩

theorem slot_ne (h : Stored p ix orders) (he : ix.entries r = [s]) {r' s' : Nat} (hr : r' ≠ r)
    (hs' : s' ∈ ix.entries r') : s' ≠ s := by
  have key : ∀ q t, t ∈ ix.entries q → (p.storage t).view.orderRef = q := by
    intro q t ht
    have hmem : (p.storage t).view ∈ (ix.entries q).map (fun t => (p.storage t).view) :=
      List.mem_map_of_mem ht
    rw [h.view q, Option.mem_toList] at hmem
    exact h.ref q _ hmem
  intro hss
  have h1 := key r' s' hs'
  have h2 := key r s (by rw [he]; exact List.mem_singleton.2 rfl)
  rw [hss, h2] at h1
  exact hr h1.symm

theorem write (h : Stored p ix orders) (he : ix.entries r = [s]) (f : OrderSlot → OrderSlot)
    (hview : (f (p.storage s)).view = v) (hv : v.orderRef = r)
    (hfree : ∀ s, (f s).poolNextFree = s.poolNextFree)
    : Stored (p.modify s f) ix (Function.update orders r (some v)) := by
  constructor
  . exact h.wf
  . obtain ⟨pl, hpl, hs⟩ := h.free
    exact ⟨pl, hpl.modify s f hfree, hs⟩
  . intro ref
    by_cases hr : ref = r
    . subst hr
      rw [he, Function.update_self]
      simp [hview]
    . rw [Function.update_of_ne hr, ← h.view ref]
      apply List.map_congr_left
      intro t ht
      rw [OrderPool.modify_storage_of_ne p s f (h.slot_ne he hr ht)]
  . intro ref w hw
    by_cases hr : ref = r
    . subst hr
      rw [Function.update_self] at hw
      cases hw
      exact hv
    . rw [Function.update_of_ne hr] at hw
      exact h.ref ref w hw

theorem delete (h : Stored p ix orders) (he : ix.entries r = [s])
    : Stored (p.deallocate s) (ix.erase r) (Function.update orders r none) := by
  obtain ⟨il, hwf⟩ := h.wf
  obtain ⟨hwf', _, hself, hother⟩ := hwf.erase r
  obtain ⟨pl, hpl, hs⟩ := h.free
  have hmem := hs r s (by rw [he]; exact List.mem_singleton.2 rfl)
  have hnil : (ix.erase r).entries r = [] := by
    rw [hself, he]
    rfl
  constructor
  . exact hwf'
  . apply Exists.intro (s :: pl)
    constructor
    . exact hpl.deallocate hmem.1 hmem.2
    . intro ref t ht
      by_cases hr : ref = r
      . rw [hr, hnil] at ht
        cases ht
      . rw [hother ref hr] at ht
        constructor
        . simp only [List.mem_cons, not_or]
          exact ⟨h.slot_ne he hr ht, (hs ref t ht).1⟩
        . exact (hs ref t ht).2
  . intro ref
    have hview : ∀ t, ((p.deallocate s).storage t).view = (p.storage t).view :=
      OrderPool.deallocate_storage_field p s OrderSlot.view (fun _ _ => rfl)
    simp only [hview]
    by_cases hr : ref = r
    . rw [hr, hnil, Function.update_self]
      rfl
    . rw [hother ref hr, Function.update_of_ne hr]
      exact h.view ref
  . intro ref w hw
    by_cases hr : ref = r
    . rw [hr, Function.update_self] at hw
      cases hw
    . rw [Function.update_of_ne hr] at hw
      exact h.ref ref w hw

theorem entries_length (h : Stored p ix orders) (ref : Nat) : (ix.entries ref).length ≤ 1 := by
  have hlen := congrArg List.length (h.view ref)
  rw [List.length_map] at hlen
  rw [hlen]
  cases orders ref with
  | none => exact Nat.zero_le 1
  | some v => exact Nat.le_refl 1

theorem insert (h : Stored p ix orders) (hr : orders r = none) (ha : p.allocate = some (s, p'))
    (hd : ¬ ix.Drops r) (f : OrderSlot → OrderSlot) (hview : ∀ s, (f s).view = v)
    (hv : v.orderRef = r) (hfree : ∀ s, (f s).poolNextFree = s.poolNextFree)
    : Stored (p'.modify s f) (ix.insert r s) (Function.update orders r (some v)) := by
  obtain ⟨il, hwf⟩ := h.wf
  obtain ⟨pl, hpl, hs⟩ := h.free
  have hnil : ix.entries r = [] := by
    have hv := h.view r
    rw [hr] at hv
    exact List.map_eq_nil_iff.1 hv
  obtain ⟨hwf', hself, hother⟩ := hwf.insert s hd hnil h.entries_length
  rw [hpl.allocate] at ha
  cases pl with
  | nil => cases ha
  | cons i pl =>
    simp only [List.head?_cons, Option.map_some, Option.some.injEq, Prod.mk.injEq] at ha
    rw [← ha.2, ← ha.1]
    rw [← ha.1] at hself hother hwf'
    have hfl := hpl.takeHead
    have hfresh : i ∉ pl := (List.nodup_cons.1 hpl.isList.nodup).1
    have hold : ∀ ref t, t ∈ ix.entries ref → t ≠ i := by
      intro ref t ht hti
      exact (hs ref t ht).1 (by rw [hti]; exact List.mem_cons_self)
    constructor
    . exact hwf'
    . apply Exists.intro pl
      constructor
      . exact hfl.modify i f hfree
      . intro ref t ht
        by_cases href : ref = r
        . rw [href, hself, List.mem_singleton] at ht
          rw [ht]
          exact ⟨hfresh, hpl.lt i List.mem_cons_self⟩
        . rw [hother ref href] at ht
          constructor
          . intro hmem
            exact (hs ref t ht).1 (List.mem_cons_of_mem i hmem)
          . exact (hs ref t ht).2
    . intro ref
      by_cases href : ref = r
      . rw [href, hself, Function.update_self]
        simp [hview]
      . rw [hother ref href, Function.update_of_ne href, ← h.view ref]
        apply List.map_congr_left
        intro t ht
        rw [OrderPool.modify_storage_of_ne _ i f (hold ref t ht)]
        rfl
    . intro ref w hw
      by_cases href : ref = r
      . rw [href, Function.update_self] at hw
        cases hw
        rw [href]
        exact hv
      . rw [Function.update_of_ne href] at hw
        exact h.ref ref w hw

end Stored

end NebulaXTrader
