import NebulaXTrader.Book.Lemmas.Reference
import NebulaXTrader.Lib.Run
import NebulaXTrader.Market.MarketLedger

/-!
This module contains the simulation of the order book consumers by one ledger per locate.
-/

namespace NebulaXTrader

namespace Ledger

section Unsequenced

variable (lg : Ledger) (ref : Nat)

theorem unsequenced_orders
    : lg.unsequenced.orders ref = (lg.orders ref).map OrderSlotView.unsequenced := rfl

theorem map_update (orders : Nat → Option OrderSlotView) (r : Nat) (v : Option OrderSlotView)
    : (fun q => (Function.update orders r v q).map OrderSlotView.unsequenced) =
      Function.update (fun q => (orders q).map OrderSlotView.unsequenced) r
        (v.map OrderSlotView.unsequenced) := by
  funext q
  by_cases h : q = r
  . subst h
    simp
  . simp [h]

theorem unsequenced_update (v : Option OrderSlotView) (s : Sides)
    : unsequenced { orders := Function.update lg.orders ref v, sides := s } =
      { orders := Function.update lg.unsequenced.orders ref (v.map OrderSlotView.unsequenced)
        sides := s } := by
  unfold unsequenced
  rw [map_update]

theorem unsequenced_add (side : OrderSide) (p : Int) (shares seq : Nat)
    : (lg.add ref side p shares seq).unsequenced = lg.unsequenced.add ref side p shares 0 :=
  unsequenced_update lg ref _ _

theorem unsequenced_remove : (lg.remove ref).unsequenced = lg.unsequenced.remove ref := by
  unfold Ledger.remove
  rw [unsequenced_orders]
  cases lg.orders ref with
  | none => rfl
  | some v => exact unsequenced_update lg ref _ _

theorem unsequenced_reduce (shares : Nat)
    : (lg.reduce ref shares).unsequenced = lg.unsequenced.reduce ref shares := by
  unfold Ledger.reduce
  rw [unsequenced_orders]
  cases lg.orders ref with
  | none => rfl
  | some v =>
    simp only [Option.map_some, OrderSlotView.unsequenced]
    generalize (if shares > v.remaining then v.remaining else shares) = n
    by_cases h : v.remaining - n = 0
    . rw [if_pos h, if_pos h, unsequenced_remove, unsequenced_update]
      rfl
    . rw [if_neg h, if_neg h, unsequenced_update]
      rfl

theorem unsequenced_replace (new : Nat) (side : OrderSide) (p : Int) (shares seq : Nat)
    : (lg.replace ref new side p shares seq).unsequenced =
      lg.unsequenced.replace ref new side p shares 0 := by
  unfold Ledger.replace
  rw [unsequenced_orders]
  cases lg.orders ref with
  | none => rfl
  | some v =>
    simp only [Option.map_some]
    rw [unsequenced_add, unsequenced_remove]
    rfl

theorem unsequenced_onEvent (seq : Nat) (b : MarketEvent.Body)
    : (lg.onEvent seq b).unsequenced = lg.unsequenced.onEvent 0 b := by
  cases b with
  | ADD o => exact unsequenced_add lg o.orderRef o.side o.price o.shares seq
  | DELETE o => exact unsequenced_remove lg o.orderRef
  | CANCEL o => exact unsequenced_reduce lg o.orderRef o.shares
  | REPLACE o =>
    simp only [onEvent, unsequenced_orders]
    cases lg.orders o.orderRef with
    | none => rfl
    | some v => exact unsequenced_replace lg o.orderRef o.newOrderRef v.side o.price o.shares seq
  | TRADE t => exact unsequenced_reduce lg t.orderRef t.volume
  | EXECUTE t => exact unsequenced_reduce lg t.orderRef t.volume

end Unsequenced

section Frame

variable {lg : Ledger} {ref r : Nat}

theorem remove_orders_of_ne (h : r ≠ ref) : (lg.remove ref).orders r = lg.orders r := by
  unfold Ledger.remove
  cases lg.orders ref with
  | none => rfl
  | some v => exact Function.update_of_ne h _ _

theorem reduce_orders_of_ne (shares : Nat) (h : r ≠ ref)
    : (lg.reduce ref shares).orders r = lg.orders r := by
  unfold Ledger.reduce
  cases lg.orders ref with
  | none => rfl
  | some v =>
    dsimp only
    generalize (if shares > v.remaining then v.remaining else shares) = n
    split
    . rw [remove_orders_of_ne h]
      exact Function.update_of_ne h _ _
    . exact Function.update_of_ne h _ _

theorem replace_orders_of_ne {new : Nat} (side : OrderSide) (p : Int) (shares seq : Nat)
    (h : r ≠ ref) (hnew : r ≠ new)
    : (lg.replace ref new side p shares seq).orders r = lg.orders r := by
  unfold Ledger.replace
  cases lg.orders ref with
  | none => rfl
  | some v =>
    apply Eq.trans
    . exact Function.update_of_ne hnew _ _
    . exact remove_orders_of_ne h

theorem onEvent_orders_of_not_mem (seq : Nat) {b : MarketEvent.Body} (h : r ∉ b.refs)
    : (lg.onEvent seq b).orders r = lg.orders r := by
  cases b with
  | ADD o => exact Function.update_of_ne (List.ne_of_not_mem_cons h) _ _
  | DELETE o => exact remove_orders_of_ne (List.ne_of_not_mem_cons h)
  | CANCEL o => exact reduce_orders_of_ne _ (List.ne_of_not_mem_cons h)
  | REPLACE o =>
    simp only [onEvent]
    cases lg.orders o.orderRef with
    | none => rfl
    | some v =>
      apply replace_orders_of_ne
      . exact List.ne_of_not_mem_cons h
      . exact List.ne_of_not_mem_cons (List.not_mem_of_not_mem_cons h)
  | TRADE t => exact reduce_orders_of_ne _ (List.ne_of_not_mem_cons h)
  | EXECUTE t => exact reduce_orders_of_ne _ (List.ne_of_not_mem_cons h)

structure SameOn (P : Nat → Prop) (lg lg' : Ledger) : Prop where
  sides : lg.sides = lg'.sides
  orders : ∀ ref, P ref → lg.orders ref = lg'.orders ref

variable {P : Nat → Prop} {lg' : Ledger}

theorem SameOn.update (h : SameOn P lg lg') (ref : Nat) (v : Option OrderSlotView) (s : Sides)
    : SameOn P { orders := Function.update lg.orders ref v, sides := s }
        { orders := Function.update lg'.orders ref v, sides := s } := by
  constructor
  . rfl
  . intro r hr
    by_cases hrr : r = ref
    . subst hrr
      simp
    . dsimp only
      rw [Function.update_of_ne hrr, Function.update_of_ne hrr]
      exact h.orders r hr

theorem SameOn.add (h : SameOn P lg lg') (ref : Nat) (side : OrderSide) (p : Int)
    (shares seq : Nat)
    : SameOn P (lg.add ref side p shares seq) (lg'.add ref side p shares seq) := by
  unfold Ledger.add
  rw [h.sides]
  exact h.update ref _ _

theorem SameOn.remove (h : SameOn P lg lg') (hp : P ref)
    : SameOn P (lg.remove ref) (lg'.remove ref) := by
  unfold Ledger.remove
  rw [h.orders ref hp, h.sides]
  cases lg'.orders ref with
  | none => exact h
  | some v => exact h.update ref _ _

theorem SameOn.reduce (h : SameOn P lg lg') (hp : P ref) (shares : Nat)
    : SameOn P (lg.reduce ref shares) (lg'.reduce ref shares) := by
  unfold Ledger.reduce
  rw [h.orders ref hp, h.sides]
  cases lg'.orders ref with
  | none => exact h
  | some v =>
    dsimp only
    generalize (if shares > v.remaining then v.remaining else shares) = n
    split
    . apply SameOn.remove _ hp
      exact h.update ref _ _
    . exact h.update ref _ _

theorem SameOn.replace (h : SameOn P lg lg') (hp : P ref) (new : Nat) (side : OrderSide) (p : Int)
    (shares seq : Nat)
    : SameOn P (lg.replace ref new side p shares seq) (lg'.replace ref new side p shares seq) := by
  unfold Ledger.replace
  rw [h.orders ref hp]
  cases lg'.orders ref with
  | none => exact h
  | some v => exact (h.remove hp).add _ _ _ _ _

theorem SameOn.onEvent (h : SameOn P lg lg') (seq : Nat) {b : MarketEvent.Body}
    (hp : ∀ r ∈ b.refs, P r) : SameOn P (lg.onEvent seq b) (lg'.onEvent seq b) := by
  cases b with
  | ADD o => exact h.add _ _ _ _ _
  | DELETE o => exact h.remove (hp _ List.mem_cons_self)
  | CANCEL o => exact h.reduce (hp _ List.mem_cons_self) _
  | REPLACE o =>
    simp only [Ledger.onEvent]
    rw [h.orders _ (hp o.orderRef List.mem_cons_self)]
    cases lg'.orders o.orderRef with
    | none => exact h
    | some v => exact h.replace (hp _ List.mem_cons_self) _ _ _ _ _
  | TRADE t => exact h.reduce (hp _ List.mem_cons_self) _
  | EXECUTE t => exact h.reduce (hp _ List.mem_cons_self) _

end Frame

end Ledger

namespace RefBook

variable {rb rb' : RefBook} {r : Nat}

theorem find_add (ref : Nat) (side : OrderSide) (p : Int) (shares : Nat)
    : (rb.add ref side p shares).find r =
      if ref = r then some ⟨ref, side, p, shares⟩ else rb.find r :=
  find_cons _ _ _

theorem find_reduce (ref shares : Nat)
    : (rb.reduce ref shares).find r =
      if r = ref then
        (rb.find ref).bind (fun o =>
          if o.remaining - min shares o.remaining = 0 then
            none
          else
            some { o with remaining := o.remaining - min shares o.remaining })
      else
        rb.find r := by
  unfold reduce
  cases ho : rb.find ref with
  | none =>
    by_cases hr : r = ref
    . rw [if_pos hr, hr]
      exact ho
    . rw [if_neg hr]
  | some o =>
    have href := (find_eq_some ho).2
    dsimp only [Option.bind_some]
    by_cases hl : o.remaining - min shares o.remaining = 0
    . rw [if_pos hl, if_pos hl, find_remove]
    . rw [if_neg hl, if_neg hl, find_cons, find_remove]
      by_cases hr : r = ref
      . rw [if_pos hr, if_pos (href.trans hr.symm), if_pos hr]
      . rw [if_neg hr, if_neg hr, if_neg (fun he => hr (he.symm.trans href))]

theorem find_replace (ref new : Nat) (side : OrderSide) (p : Int) (shares : Nat)
    : (rb.replace ref new side p shares).find r =
      if (rb.find ref).isSome then
        if new = r then some ⟨new, side, p, shares⟩ else if r = ref then none else rb.find r
      else
        rb.find r := by
  unfold replace
  cases rb.find ref with
  | none => rfl
  | some o =>
    dsimp only [Option.isSome_some]
    rw [if_pos rfl, find_add, find_remove]

theorem find_onEvent_congr {b : MarketEvent.Body} (hb : ∀ q ∈ b.refs, rb.find q = rb'.find q)
    (hr : rb.find r = rb'.find r) : (rb.onEvent b).find r = (rb'.onEvent b).find r := by
  cases b with
  | ADD o =>
    simp only [onEvent, find_add, hr]
  | DELETE o =>
    simp only [onEvent, find_remove, hr]
  | CANCEL o =>
    simp only [onEvent, find_reduce, hr, hb o.orderRef List.mem_cons_self]
  | REPLACE o =>
    have hold := hb o.orderRef List.mem_cons_self
    simp only [onEvent, hold]
    cases rb'.find o.orderRef with
    | none => exact hr
    | some old => simp only [find_replace, hold, hr]
  | TRADE t =>
    simp only [onEvent, find_reduce, hr, hb t.orderRef List.mem_cons_self]
  | EXECUTE t =>
    simp only [onEvent, find_reduce, hr, hb t.orderRef List.mem_cons_self]

theorem find_onEvent_of_not_mem {b : MarketEvent.Body} (h : r ∉ b.refs)
    : (rb.onEvent b).find r = rb.find r := by
  have hne : ∀ (q : Nat) (l : List Nat), r ∉ q :: l → ¬ r = q ∧ ¬ q = r := by
    intro q l hq
    have hrq := List.ne_of_not_mem_cons hq
    exact ⟨hrq, hrq.symm⟩
  cases b with
  | ADD o => simp only [onEvent, find_add, if_neg (hne _ _ h).2]
  | DELETE o => simp only [onEvent, find_remove, if_neg (hne _ _ h).1]
  | CANCEL o => simp only [onEvent, find_reduce, if_neg (hne _ _ h).1]
  | REPLACE o =>
    simp only [onEvent]
    cases rb.find o.orderRef with
    | none => rfl
    | some old =>
      have hnew := hne _ _ (List.not_mem_of_not_mem_cons h)
      simp only [find_replace, if_neg hnew.2, if_neg (hne _ _ h).1, ite_self]
  | TRADE t => simp only [onEvent, find_reduce, if_neg (hne _ _ h).1]
  | EXECUTE t => simp only [onEvent, find_reduce, if_neg (hne _ _ h).1]

theorem Fresh.congr {b : MarketEvent.Body} (h : rb.Fresh b)
    (hb : ∀ q ∈ b.refs, rb.find q = rb'.find q) : rb'.Fresh b := by
  cases b with
  | ADD o => exact (hb o.orderRef List.mem_cons_self).symm.trans h
  | REPLACE o =>
    unfold Fresh at h ⊢
    dsimp only at h ⊢
    rw [find_remove] at h ⊢
    rw [← hb o.orderRef List.mem_cons_self,
      ← hb o.newOrderRef (List.mem_cons_of_mem _ List.mem_cons_self)]
    exact h
  | DELETE o => trivial
  | CANCEL o => trivial
  | TRADE t => trivial
  | EXECUTE t => trivial

theorem fresh_filter {loc : Nat → Nat} {evs : List MarketEvent} (l : Nat)
    (hloc : ∀ ev ∈ evs, ∀ q ∈ ev.body.refs, loc q = ev.locate)
    (hrb : ∀ q, loc q = l → rb.find q = rb'.find q)
    (h : Run.Along (fun rb ev => some (rb.onEvent ev.body)) (fun rb ev => rb.Fresh ev.body) rb evs)
    : Run.Along (fun rb ev => some (rb.onEvent ev.body)) (fun rb ev => rb.Fresh ev.body) rb'
        (evs.filter (fun ev => ev.locate = l)) := by
  induction evs generalizing rb rb' with
  | nil => trivial
  | cons ev evs ih =>
    unfold Run.Along at h
    have hrest : ∀ e ∈ evs, ∀ q ∈ e.body.refs, loc q = e.locate := by
      intro e he
      exact hloc e (List.mem_cons_of_mem _ he)
    have hev := hloc ev List.mem_cons_self
    by_cases hl : ev.locate = l
    . rw [List.filter_cons_of_pos (by simpa using hl)]
      have hrefs : ∀ q ∈ ev.body.refs, rb.find q = rb'.find q := by
        intro q hq
        exact hrb q ((hev q hq).trans hl)
      unfold Run.Along
      constructor
      . exact h.1.congr hrefs
      . intro rb₁ hrb₁
        cases hrb₁
        apply ih hrest _ (h.2 _ rfl)
        intro q hq
        exact find_onEvent_congr hrefs (hrb q hq)
    . rw [List.filter_cons_of_neg (by simpa using hl)]
      apply ih hrest _ (h.2 _ rfl)
      intro q hq
      rw [find_onEvent_of_not_mem]
      . exact hrb q hq
      . intro hmem
        exact hl ((hev q hmem).symm.trans hq)

end RefBook

theorem Ledger.remove_orders_self (lg : Ledger) (ref : Nat) : (lg.remove ref).orders ref = none := by
  unfold Ledger.remove
  cases hv : lg.orders ref with
  | none => exact hv
  | some v => exact Function.update_self _ _ _

theorem Ledger.Fresh.congr {lg lg' : Ledger} {b : MarketEvent.Body} (h : lg.Fresh b)
    (hb : ∀ r ∈ b.refs, lg'.orders r = none ↔ lg.orders r = none) : lg'.Fresh b := by
  cases b with
  | ADD o => exact (hb _ List.mem_cons_self).2 h
  | REPLACE o =>
    intro hold
    have hnew := hb o.newOrderRef (List.mem_cons_of_mem _ List.mem_cons_self)
    cases h (fun hn => hold ((hb _ List.mem_cons_self).2 hn)) with
    | inl he => exact Or.inl he
    | inr hn => exact Or.inr (hnew.2 hn)
  | DELETE o => trivial
  | CANCEL o => trivial
  | TRADE t => trivial
  | EXECUTE t => trivial

theorem Tracks.fresh {lg : Ledger} {rb : RefBook} (h : Tracks lg.orders rb)
    {b : MarketEvent.Body} (hb : rb.Fresh b) : lg.Fresh b := by
  cases b with
  | ADD o => exact h.find_none hb
  | REPLACE o =>
    intro hold
    obtain ⟨v, hv⟩ := Option.ne_none_iff_exists'.1 hold
    have hnew : (rb.remove o.orderRef).find o.newOrderRef = none := by
      apply hb
      rw [h.find_some hv]
      exact Option.some_ne_none _
    rw [RefBook.find_remove] at hnew
    split at hnew
    . next he => exact Or.inl he
    . exact Or.inr (h.find_none hnew)
  | DELETE o => trivial
  | CANCEL o => trivial
  | TRADE t => trivial
  | EXECUTE t => trivial

theorem Tracks.onEvent {lg : Ledger} {rb : RefBook} (h : Tracks lg.orders rb) (seq : Nat)
    {b : MarketEvent.Body} (hb : rb.Fresh b)
    : Tracks (lg.onEvent seq b).orders (rb.onEvent b) := by
  cases b with
  | ADD o => exact h.add _ _ _ _ hb
  | DELETE o => exact h.remove _
  | CANCEL o => exact h.reduce _ _
  | REPLACE o =>
    simp only [Ledger.onEvent, RefBook.onEvent]
    rw [← h.find o.orderRef]
    cases hv : lg.orders o.orderRef with
    | none => exact h
    | some v => exact h.replace _ _ _ _ hb
  | TRADE t => exact h.reduce _ _
  | EXECUTE t => exact h.reduce _ _

end NebulaXTrader
