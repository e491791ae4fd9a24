import Mathlib.Data.Finset.Card
import NebulaXTrader.Lib.Run
import NebulaXTrader.Market.Frame

/-!
This module contains the theorem that the taken slots of the order pool are the slots of the live references,
one for each, exactly as long as no event enters a reference that is live or that the index drops.
-/

namespace NebulaXTrader

def OrderPool.freeList (p : OrderPool) : List Nat :=
  Chain.walk p.nextFree noIdx p.capacity p.freeHead.idx

def OrderPool.Allocated (p : OrderPool) (s : Nat) : Prop := s < p.capacity ∧ s ∉ p.freeList

theorem OrderPool.Free.freeList_eq {p : OrderPool} {fl : List Nat} (h : p.Free fl) : p.freeList = fl :=
  h.isList.walk_eq (Chain.length_le_of_nodup_of_lt h.isList.nodup h.lt)

namespace OrderStore

/--
Every slot that is taken belongs to one live reference, every live reference has one, and no slot is on
the free list twice.
-/
structure Bijective (st : OrderStore) : Prop where
  free : st.pool.Free st.pool.freeList
  owned : ∀ s, st.pool.Allocated s ↔ ∃ ref, st.index.find ref = some s
  single : ∀ ref ref' s, st.index.find ref = some s → st.index.find ref' = some s → ref = ref'
  usage : ∃ live : Finset Nat, (∀ ref, ref ∈ live ↔ (st.index.find ref).isSome) ∧ st.pool.size = live.card

/--
A new order finds the pool used up, or it has a new reference that the index does not drop.
-/
def Clean (st : OrderStore) (b : MarketEvent.Body) : Prop :=
  match b with
  | .ADD o => st.pool.freeHead.idx ≠ noIdx →
      st.index.find o.orderRef = none ∧ ¬ st.index.Drops o.orderRef
  | .REPLACE o => st.index.find o.orderRef ≠ none →
      (st.index.erase o.orderRef).find o.newOrderRef = none ∧
        ¬ (st.index.erase o.orderRef).Drops o.newOrderRef
  | .DELETE _ | .CANCEL _ | .TRADE _ | .EXECUTE _ => True

instance (st : OrderStore) (b : MarketEvent.Body) : Decidable (st.Clean b) :=
  match b with
  | .ADD _ | .REPLACE _ => inferInstanceAs (Decidable (_ → _))
  | .DELETE _ | .CANCEL _ | .TRADE _ | .EXECUTE _ => isTrue trivial

structure Full (st : OrderStore) (pl : List Nat) : Prop where
  one : ∀ ref, (st.index.entries ref).length ≤ 1
  all : ∀ s, s < st.pool.capacity → s ∉ pl → ∃ ref, s ∈ st.index.entries ref

variable {st st' : OrderStore} {pl pl' : List Nat} {ref s idx : Nat}

theorem Full.find_iff (hf : st.Full pl) (h : st.Tidy pl)
    : st.index.find ref = some s ↔ s ∈ st.index.entries ref := by
  have hone := hf.one ref
  rw [h.find_eq]
  generalize st.index.entries ref = l at hone
  cases l with
  | nil => simp
  | cons i l =>
    have hnil : l = [] := by simpa using hone
    simp [hnil, eq_comm]

theorem Tidy.allocated_iff (h : st.Tidy pl) : st.pool.Allocated s ↔ s < st.pool.capacity ∧ s ∉ pl := by
  unfold OrderPool.Allocated
  rw [h.free.freeList_eq]

theorem Tidy.bijective_iff_full (h : st.Tidy pl) : st.Bijective ↔ st.Full pl := by
  constructor
  . intro hb
    have hall : ∀ s, s < st.pool.capacity → s ∉ pl → ∃ ref, st.index.find ref = some s := by
      intro s hlt hs
      exact (hb.owned s).1 (h.allocated_iff.2 ⟨hlt, hs⟩)
    constructor
    . intro ref
      cases he : st.index.entries ref with
      | nil => simp
      | cons i l =>
        cases l with
        | nil => simp
        | cons j l =>
          -- the shadowed slot is found under some reference, which can only be this one
          have hj : j ∈ st.index.entries ref := by simp [he]
          have htaken := h.taken ref j hj
          obtain ⟨ref', href'⟩ := hall j htaken.2 htaken.1
          have href : ref' = ref := h.apart ref' ref j (h.mem_of_find href') hj
          have honce := h.once ref
          rw [href, h.find_eq, he, List.head?_cons, Option.some_inj] at href'
          simp [he, href'] at honce
    . intro s hlt hs
      obtain ⟨ref, href⟩ := hall s hlt hs
      exact ⟨ref, h.mem_of_find href⟩
  . intro hf
    have hall : ∀ s, st.pool.Allocated s → ∃ ref, st.index.find ref = some s := by
      intro s hs
      rw [h.allocated_iff] at hs
      obtain ⟨ref, href⟩ := hf.all s hs.1 hs.2
      exact ⟨ref, (hf.find_iff h).2 href⟩
    have hsingle : ∀ ref ref' s, st.index.find ref = some s → st.index.find ref' = some s → ref = ref' := by
      intro ref ref' s href href'
      exact h.apart ref ref' s (h.mem_of_find href) (h.mem_of_find href')
    have howned : ∀ s, st.pool.Allocated s ↔ ∃ ref, st.index.find ref = some s := by
      intro s
      refine ⟨hall s, ?_⟩
      intro hex
      obtain ⟨ref, href⟩ := hex
      have htaken := h.taken ref s (h.mem_of_find href)
      rw [h.allocated_iff]
      exact ⟨htaken.2, htaken.1⟩
    refine ⟨?_, howned, hsingle, ?_⟩
    . rw [h.free.freeList_eq]
      exact h.free
    . classical
      have hmem : ∀ s ∈ Finset.range st.pool.capacity \ pl.toFinset, st.pool.Allocated s := by
        intro s hs
        rw [h.allocated_iff]
        simpa using hs
      refine ⟨(Finset.range st.pool.capacity \ pl.toFinset).attach.image
        (fun s => (hall s.1 (hmem s.1 s.2)).choose), ?_, ?_⟩
      . intro ref
        rw [Finset.mem_image, Option.isSome_iff_exists]
        constructor
        . intro hex
          obtain ⟨s, _, rfl⟩ := hex
          exact ⟨s.1, (hall s.1 (hmem s.1 s.2)).choose_spec⟩
        . intro hex
          obtain ⟨s, hs⟩ := hex
          have hs' : s ∈ Finset.range st.pool.capacity \ pl.toFinset := by
            simpa using h.allocated_iff.1 ((howned s).2 ⟨ref, hs⟩)
          refine ⟨⟨s, hs'⟩, Finset.mem_attach _ _, ?_⟩
          exact hsingle _ ref s (hall s (hmem s hs')).choose_spec hs
      . rw [Finset.card_image_of_injective, Finset.card_attach, Finset.card_sdiff_of_subset,
          List.toFinset_card_of_nodup h.free.isList.nodup, Finset.card_range]
        . have hsize := h.size
          omega
        . intro i hi
          rw [List.mem_toFinset] at hi
          exact Finset.mem_range.2 (h.free.lt i hi)
        . intro s s' hss
          have hs := (hall s.1 (hmem s.1 s.2)).choose_spec
          have hs' := (hall s'.1 (hmem s'.1 s'.2)).choose_spec
          dsimp only at hss
          rw [hss, hs'] at hs
          exact Subtype.ext (Option.some_inj.1 hs).symm

theorem Full.init {pool index : Nat}
    : Full { pool := OrderPool.init pool, index := OrderMap.init index } (List.range pool) := by
  constructor
  . simp [OrderMap.entries_init]
  . intro s hlt hs
    rw [List.mem_range] at hs
    exact absurd hlt hs

theorem Full.written (hf : st.Full pl) (hw : st.Written st' s) : st'.Full pl := by
  constructor
  . rw [hw.2]
    exact hf.one
  . rw [hw.2, hw.1.capacity]
    exact hf.all

theorem Full.dropped (hf : st.Full pl) (h : st.Tidy pl) (hs : st.index.find ref = some s)
    (hd : st.Dropped st' ref s) : st'.Full (s :: pl) := by
  obtain ⟨_, hself, hother⟩ := h.entries_dropped hd
  have hone : st.index.entries ref = [s] := by
    have hlen := hf.one ref
    rw [h.find_eq] at hs
    have hcons := List.cons_head?_tail hs
    rw [← hcons, List.length_cons] at hlen
    have hnil : (st.index.entries ref).tail = [] := List.eq_nil_of_length_eq_zero (by omega)
    rw [← hcons, hnil]
  have hcap : st'.pool.capacity = st.pool.capacity := by
    obtain ⟨pool, hpool, hdealloc, _⟩ := hd
    rw [hdealloc, OrderPool.deallocate_capacity, hpool.capacity]
  constructor
  . intro r
    by_cases hr : r = ref
    . simp [hr, hself, hone]
    . rw [hother r hr]
      exact hf.one r
  . intro i hlt hi
    rw [hcap] at hlt
    rw [List.mem_cons, not_or] at hi
    obtain ⟨r, hr⟩ := hf.all i hlt hi.2
    have hne : r ≠ ref := by
      intro hrr
      rw [hrr, hone, List.mem_singleton] at hr
      exact hi.1 hr
    refine ⟨r, ?_⟩
    rw [hother r hne]
    exact hr

theorem Full.entered_iff (hf : st.Full (idx :: pl)) (h : st.Tidy (idx :: pl))
    (he : st.Entered st' ref idx) (h' : st'.Tidy pl)
    : st'.Full pl ↔ st.index.find ref = none ∧ ¬ st.index.Drops ref := by
  obtain ⟨il, hwf⟩ := h.wf
  obtain ⟨_, hself, hother⟩ := hwf.insert_sublist ref idx
  obtain ⟨pool, halloc, hpool, hindex⟩ := he
  rw [h.free.allocate] at halloc
  have hcap : st'.pool.capacity = st.pool.capacity := by
    rw [hpool.capacity]
    cases halloc
    rfl
  have hnew : ∀ r, idx ∉ st.index.entries r := by
    intro r hr
    exact (h.taken r idx hr).1 List.mem_cons_self
  constructor
  . intro hf'
    have hidx : idx ∈ st'.index.entries ref := by
      have hlt : idx < st'.pool.capacity := by
        rw [hcap]
        exact h.free.lt idx List.mem_cons_self
      obtain ⟨r, hr⟩ := hf'.all idx hlt (List.nodup_cons.1 h.free.isList.nodup).1
      by_cases hrr : r = ref
      . rw [← hrr]
        exact hr
      . rw [hindex] at hr
        exact absurd ((hother r hrr).1.subset hr) (hnew r)
    constructor
    . -- an older slot of the reference would be under it next to the new one
      cases hs : st.index.find ref with
      | none => rfl
      | some s =>
        have hmem := h.mem_of_find hs
        have htaken := h.taken ref s hmem
        have hlt : s < st'.pool.capacity := by
          rw [hcap]
          exact htaken.2
        rw [List.mem_cons, not_or] at htaken
        obtain ⟨r, hr⟩ := hf'.all s hlt htaken.1.2
        have hrr : r = ref := by
          by_contra hne
          rw [hindex] at hr
          exact hne (h.apart r ref s ((hother r hne).1.subset hr) hmem)
        rw [hrr] at hr
        have hfind := (hf'.find_iff h').2 hr
        rw [(hf'.find_iff h').2 hidx, Option.some_inj] at hfind
        exact absurd hfind.symm htaken.1.1
    . intro hdrops
      rw [hindex, OrderMap.insert_of_drops hdrops] at hidx
      exact hnew ref hidx
  . intro hclean
    have hnil : st.index.entries ref = [] := by
      rw [h.find_eq] at hclean
      simpa using hclean.1
    obtain ⟨_, hself', hother'⟩ := hwf.insert idx hclean.2 hnil hf.one
    rw [← hindex] at hself' hother'
    constructor
    . intro r
      by_cases hr : r = ref
      . simp [hr, hself']
      . rw [hother' r hr]
        exact hf.one r
    . intro i hlt hi
      rw [hcap] at hlt
      by_cases hii : i = idx
      . refine ⟨ref, ?_⟩
        simp [hself', hii]
      . obtain ⟨r, hr⟩ := hf.all i hlt (by simp [hii, hi])
        have hrr : r ≠ ref := by
          intro hrr
          rw [hrr, hnil] at hr
          cases hr
        refine ⟨r, ?_⟩
        rw [hother' r hrr]
        exact hr

theorem allocate_eq_none (p : OrderPool) : p.allocate = none ↔ p.freeHead.idx = noIdx := by
  unfold OrderPool.allocate
  simp

theorem clean_of_reduced {b : MarketEvent.Body} (hb : b.reduced = some ref) : st.Clean b := by
  cases b with
  | ADD o => cases hb
  | REPLACE o => cases hb
  | DELETE o => trivial
  | CANCEL o => trivial
  | TRADE t => trivial
  | EXECUTE t => trivial

theorem Effect.full_iff {b : MarketEvent.Body} (he : st.Effect b st') (h : st.Tidy pl) (hf : st.Full pl)
    : ∃ pl', st'.Tidy pl' ∧ (st'.Full pl' ↔ st.Clean b) := by
  cases he with
  | full o hfull =>
    refine ⟨pl, h, iff_of_true hf ?_⟩
    intro hne
    exact absurd ((allocate_eq_none _).1 hfull) hne
  | enter o he =>
    obtain ⟨pl', rfl, h'⟩ := h.entered he
    refine ⟨pl', h', ?_⟩
    rw [hf.entered_iff h he h']
    have hne : st.pool.freeHead.idx ≠ noIdx := by
      rw [ne_eq, ← allocate_eq_none]
      obtain ⟨_, halloc, _⟩ := he
      simp [halloc]
    exact (imp_iff_right hne).symm
  | unknown b hb hs => exact ⟨pl, h, iff_of_true hf (clean_of_reduced hb)⟩
  | write b hb hs hw => exact ⟨pl, h.written hw, iff_of_true (hf.written hw) (clean_of_reduced hb)⟩
  | drop b hb hs hd =>
    exact ⟨_, h.dropped hs hd, iff_of_true (hf.dropped h hs hd) (clean_of_reduced hb)⟩
  | stale o hs =>
    refine ⟨pl, h, iff_of_true hf ?_⟩
    intro hne
    exact absurd hs hne
  | lose o hs hd hfull =>
    -- the slot that was given back is free
    rw [(h.dropped hs hd).free.allocate] at hfull
    cases hfull
  | swap o hs hd he =>
    have h₁ := h.dropped hs hd
    obtain ⟨pl', hpl, h'⟩ := h₁.entered he
    have hf₁ := hf.dropped h hs hd
    rw [hpl] at h₁ hf₁
    refine ⟨pl', h', ?_⟩
    rw [hf₁.entered_iff h₁ he h']
    obtain ⟨_, _, _, hindex⟩ := hd
    rw [hindex]
    have hne : st.index.find o.orderRef ≠ none := by simp [hs]
    exact (imp_iff_right hne).symm

end OrderStore

namespace Workers

/--
The slots and the live references correspond to each other after every event of the feed if and only if
every event is clean in the state that it meets.
-/
theorem bijective_iff {pool index : Nat} (h0 : 0 < pool) (h : pool ≤ noIdx) (h0' : 2 ≤ index)
    (h' : index ≤ 2 ^ 31) (evs : List (Nat × MarketEvent))
    : (∀ pre, pre <+: evs → ((init pool index).feed pre).store.Bijective) ↔
        Run.Along (fun w e => some (handle w e.1 e.2)) (fun w e => w.store.Clean e.2.body) (init pool index)
          evs := by
  have htidy : ∃ pl, (init pool index).store.Tidy pl := ⟨_, .init h0 h (Nat.zero_lt_of_lt h0') (OrderMap.le_noIdx h')⟩
  have hbij : ∀ w : Workers, (∃ pl, w.store.Tidy pl) →
      (w.store.Bijective ↔ ∃ pl, w.store.Tidy pl ∧ w.store.Full pl) := by
    intro w hw
    constructor
    . intro hb
      obtain ⟨pl, hpl⟩ := hw
      exact ⟨pl, hpl, hpl.bijective_iff_full.1 hb⟩
    . intro hex
      obtain ⟨pl, hpl, hf⟩ := hex
      exact hpl.bijective_iff_full.2 hf
  have hinit : ∃ pl, (init pool index).store.Tidy pl ∧ (init pool index).store.Full pl :=
    ⟨_, .init h0 h (Nat.zero_lt_of_lt h0') (OrderMap.le_noIdx h'), .init⟩
  rw [← Run.along_iff (p := fun w => ∃ pl, w.store.Tidy pl ∧ w.store.Full pl) _ hinit]
  . apply forall_congr'
    intro pre
    apply imp_congr_right
    intro _
    exact hbij _ (feed_tidy htidy pre)
  . intro w e hw
    obtain ⟨pl, hpl, hf⟩ := hw
    obtain ⟨pl', hpl', hiff⟩ := ((w.consumers e.1).onEvent_effect w.store e.2).full_iff hpl hf
    rw [← hiff, ← hpl'.bijective_iff_full]
    exact (hbij (w.handle e.1 e.2) ⟨pl', hpl'⟩).symm

def buy (seq ref : Nat) : Nat × MarketEvent :=
  (0, { seqId := seq, locate := 1, timestamp := 0,
        body := .ADD { side := .BUY, price := 500, shares := 7, orderRef := ref } })

def replace (seq ref new : Nat) : Nat × MarketEvent :=
  (0, { seqId := seq, locate := 1, timestamp := 0,
        body := .REPLACE { price := 510, shares := 0, orderRef := ref, newOrderRef := new } })

theorem bijective_replace
    : ((init 4 4).feed [buy 1 3, buy 2 5, replace 3 3 6, replace 4 3 5]).store.Bijective := by
  -- The last event names an order that is gone, so that it does not matter that its new one is live.
  apply (bijective_iff (by decide) (by decide) (by decide) (by decide)
    [buy 1 3, buy 2 5, replace 3 3 6, replace 4 3 5]).2
  . decide +kernel
  . exact List.prefix_refl _

theorem not_bijective
    : ¬ ∀ (pool index : Nat) (evs : List (Nat × MarketEvent)), 0 < pool → pool ≤ noIdx → 2 ≤ index →
        index ≤ 2 ^ 31 → ((init pool index).feed evs).store.Bijective := by
  -- A reference that is added twice takes two slots.
  intro h
  have hbij := h 4 4 [buy 1 3, buy 2 3] (by decide) (by decide) (by decide) (by decide)
  have htidy : ∃ pl, (init 4 4).store.Tidy pl :=
    ⟨_, .init (by decide) (by decide) (by decide) (by decide)⟩
  obtain ⟨pl, hpl⟩ := feed_tidy htidy [buy 1 3, buy 2 3]
  have hone := (hpl.bijective_iff_full.1 hbij).one 3
  revert hone
  decide +kernel

end Workers

end NebulaXTrader
