import NebulaXTrader.Book.Lemmas.Simulation
import NebulaXTrader.Book.Reference

/-!
This module contains the proof that the ledger agrees with the reference book as long as no call runs
into the double subtraction of a level.
-/

namespace NebulaXTrader

open PriceLevelTable (Valid isPrice)

namespace RefBook

variable {rb rb' : RefBook} {o : RefOrder} {ref : Nat} {buy : Bool} {p : Int}

theorem find_eq_some (h : rb.find ref = some o) : o ∈ rb ∧ o.orderRef = ref := by
  unfold find at h
  constructor
  . exact List.mem_of_find?_eq_some h
  . simpa using List.find?_some h

theorem find_eq_none (h : rb.find ref = none) : ∀ o ∈ rb, o.orderRef ≠ ref := by
  simpa [find] using h

theorem find_cons (o : RefOrder) (rb : RefBook) (r : Nat)
    : find (o :: rb) r = if o.orderRef = r then some o else find rb r := by
  unfold find
  rw [List.find?_cons]
  by_cases h : o.orderRef = r
  . simp [h]
  . simp [h]

theorem remove_of_find_none (h : rb.find ref = none) : rb.remove ref = rb := by
  unfold remove
  rw [List.filter_eq_self]
  simpa using find_eq_none h

theorem find_remove (r : Nat)
    : (rb.remove ref).find r = if r = ref then none else rb.find r := by
  unfold remove find
  rw [List.find?_filter]
  by_cases h : r = ref
  . subst h
    rw [if_pos rfl, List.find?_eq_none]
    intro x _
    simp
  . rw [if_neg h]
    congr 1
    funext x
    by_cases hx : x.orderRef = r
    . simp [hx, h]
    . simp [hx]

theorem remove_nodup (hn : (rb.map RefOrder.orderRef).Nodup)
    : ((rb.remove ref).map RefOrder.orderRef).Nodup := by
  apply List.Nodup.sublist _ hn
  apply List.Sublist.map
  exact List.filter_sublist

theorem mem_remove (h : o ∈ rb.remove ref) : o ∈ rb ∧ o.orderRef ≠ ref := by
  simpa [remove] using h

theorem perm_remove (hn : (rb.map RefOrder.orderRef).Nodup) (h : rb.find ref = some o)
    : rb.Perm (o :: rb.remove ref) := by
  induction rb with
  | nil => cases h
  | cons x rb ih =>
    rw [List.map_cons, List.nodup_cons] at hn
    unfold find at h
    rw [List.find?_cons] at h
    by_cases hx : x.orderRef = ref
    . simp only [hx, decide_true, Option.some.injEq] at h
      subst h
      have hno : remove rb ref = rb := by
        unfold remove
        rw [List.filter_eq_self]
        intro y hy
        simp only [ne_eq, decide_not, Bool.not_eq_eq_eq_not, Bool.not_true, decide_eq_false_iff_not]
        intro he
        apply hn.1
        rw [hx, ← he]
        exact List.mem_map_of_mem hy
      have hrem : remove (x :: rb) ref = remove rb ref := by
        simp [remove, hx]
      rw [hrem, hno]
    . simp only [hx, decide_false] at h
      have hrem : remove (x :: rb) ref = x :: remove rb ref := by
        simp [remove, hx]
      rw [hrem]
      apply List.Perm.trans _ (List.Perm.swap o x _)
      apply List.Perm.cons
      exact ih hn.2 h

theorem volumeAt_perm (buy : Bool) (p : Int) (h : rb.Perm rb') : rb.volumeAt buy p = rb'.volumeAt buy p := by
  unfold volumeAt restingAt
  apply List.Perm.sum_nat
  apply List.Perm.map
  exact h.filter _

theorem countAt_perm (buy : Bool) (p : Int) (h : rb.Perm rb') : rb.countAt buy p = rb'.countAt buy p := by
  unfold countAt restingAt
  apply List.Perm.length_eq
  exact h.filter _

theorem volumeAt_cons (o : RefOrder) (rb : RefBook)
    : volumeAt (o :: rb) buy p =
      if o.side.isBuy = buy ∧ o.price = p then
        o.remaining + rb.volumeAt buy p
      else
        rb.volumeAt buy p := by
  unfold volumeAt restingAt
  rw [List.filter_cons]
  by_cases h : o.side.isBuy = buy ∧ o.price = p
  . simp [h]
  . simp [h]

theorem countAt_cons (o : RefOrder) (rb : RefBook)
    : countAt (o :: rb) buy p =
      if o.side.isBuy = buy ∧ o.price = p then
        rb.countAt buy p + 1
      else
        rb.countAt buy p := by
  unfold countAt restingAt
  rw [List.filter_cons]
  by_cases h : o.side.isBuy = buy ∧ o.price = p
  . simp [h]
  . simp [h]

theorem countAt_le_volumeAt (buy : Bool) (p : Int) (hpos : ∀ o ∈ rb, 0 < o.remaining)
    : rb.countAt buy p ≤ rb.volumeAt buy p := by
  induction rb with
  | nil => exact Nat.le_refl 0
  | cons o rb ih =>
    have ho := hpos o List.mem_cons_self
    have ih := ih (fun o ho => hpos o (List.mem_cons_of_mem _ ho))
    rw [volumeAt_cons, countAt_cons]
    split
    . omega
    . exact ih

theorem countAt_eq_zero_iff
    : rb.countAt buy p = 0 ↔ ∀ o ∈ rb, o.side.isBuy = buy → o.price ≠ p := by
  simp [countAt, restingAt]

theorem volumeAt_eq_zero_of_countAt (h : rb.countAt buy p = 0) : rb.volumeAt buy p = 0 := by
  unfold countAt at h
  unfold volumeAt
  rw [List.length_eq_zero_iff.1 h]
  rfl

def level? (rb : RefBook) (buy : Bool) (p : Int) : Option LevelQty :=
  if rb.countAt buy p = 0 then
    none
  else
    some { count := rb.countAt buy p, totalQty := rb.volumeAt buy p }

theorem level?_getD
    : (rb.level? buy p).getD default =
      { count := rb.countAt buy p, totalQty := rb.volumeAt buy p } := by
  unfold level?
  split
  . next h =>
    rw [h, volumeAt_eq_zero_of_countAt h]
    rfl
  . rfl

theorem level?_perm (h : rb.Perm rb') : rb.level? buy p = rb'.level? buy p := by
  unfold level?
  rw [countAt_perm buy p h, volumeAt_perm buy p h]

theorem level?_cons_of_ne (h : ¬ (o.side.isBuy = buy ∧ o.price = p))
    : level? (o :: rb) buy p = rb.level? buy p := by
  unfold level?
  rw [countAt_cons, volumeAt_cons, if_neg h, if_neg h]

theorem level?_cons_self (o : RefOrder) (rb : RefBook)
    : level? (o :: rb) o.side.isBuy o.price =
      some
        { count := rb.countAt o.side.isBuy o.price + 1
          totalQty := o.remaining + rb.volumeAt o.side.isBuy o.price } := by
  unfold level?
  rw [countAt_cons, volumeAt_cons]
  simp

end RefBook

theorem add32_of_lt {a b : Nat} (h : a + b < 2 ^ 32) : add32 a b = a + b := Nat.mod_eq_of_lt h

theorem sub32_of_le {a b : Nat} (ha : a < 2 ^ 32) (h : b ≤ a) : sub32 a b = a - b := by
  unfold sub32
  omega

structure Tracks (orders : Nat → Option OrderSlotView) (rb : RefBook) : Prop where
  nodup : (rb.map RefOrder.orderRef).Nodup
  find : ∀ ref, (orders ref).map OrderSlotView.toRef = rb.find ref

namespace Tracks

variable {orders : Nat → Option OrderSlotView} {rb : RefBook} {v : OrderSlotView}

theorem init : Tracks (fun _ => none) [] := by
  constructor
  . exact List.nodup_nil
  . intro ref
    rfl

theorem find_none (h : Tracks orders rb) {ref : Nat} (hf : rb.find ref = none)
    : orders ref = none := by
  rw [← h.find ref] at hf
  exact Option.map_eq_none_iff.1 hf

theorem find_some (h : Tracks orders rb) {ref : Nat} (hv : orders ref = some v)
    : rb.find ref = some v.toRef := by
  rw [← h.find ref, hv]
  rfl

theorem cons (h : Tracks orders rb) (hnew : rb.find v.orderRef = none)
    : Tracks (Function.update orders v.orderRef (some v)) (v.toRef :: rb) := by
  constructor
  . rw [List.map_cons, List.nodup_cons]
    constructor
    . intro hmem
      obtain ⟨x, hx, href⟩ := List.mem_map.1 hmem
      exact RefBook.find_eq_none hnew x hx href
    . exact h.nodup
  . intro r
    rw [RefBook.find_cons]
    by_cases hr : r = v.orderRef
    . rw [hr, Function.update_self]
      exact (if_pos rfl).symm
    . rw [Function.update_of_ne hr]
      exact (h.find r).trans (if_neg (fun he => hr he.symm)).symm

theorem erase (h : Tracks orders rb) (ref : Nat)
    : Tracks (Function.update orders ref none) (rb.remove ref) := by
  constructor
  . exact RefBook.remove_nodup h.nodup
  . intro r
    rw [RefBook.find_remove]
    by_cases hr : r = ref
    . rw [hr, Function.update_self, if_pos rfl]
      rfl
    . rw [Function.update_of_ne hr, if_neg hr]
      exact h.find r

theorem write (h : Tracks orders rb) {ref : Nat} (href : v.orderRef = ref)
    : Tracks (Function.update orders ref (some v)) (v.toRef :: rb.remove ref) := by
  subst href
  have hc := (h.erase v.orderRef).cons (v := v) (by rw [RefBook.find_remove, if_pos rfl])
  rw [Function.update_idem] at hc
  exact hc

variable {lg : Ledger}

theorem add (h : Tracks lg.orders rb) {ref : Nat} (side : OrderSide) (p : Int) (shares seq : Nat)
    (hnew : rb.find ref = none)
    : Tracks (lg.add ref side p shares seq).orders (rb.add ref side p shares) :=
  h.cons (v := ⟨ref, side, p, shares, shares, seq⟩) hnew

theorem remove (h : Tracks lg.orders rb) (ref : Nat)
    : Tracks (lg.remove ref).orders (rb.remove ref) := by
  unfold Ledger.remove
  cases hv : lg.orders ref with
  | none =>
    rw [RefBook.remove_of_find_none]
    . exact h
    . rw [← h.find ref, hv]
      rfl
  | some v => exact h.erase ref

theorem reduce (h : Tracks lg.orders rb) (ref shares : Nat)
    : Tracks (lg.reduce ref shares).orders (rb.reduce ref shares) := by
  unfold Ledger.reduce RefBook.reduce
  rw [← h.find ref]
  cases hv : lg.orders ref with
  | none => exact h
  | some v =>
    have href : v.orderRef = ref := (RefBook.find_eq_some (h.find_some hv)).2
    have hmin : (if shares > v.remaining then v.remaining else shares) = min shares v.remaining := by
      split
      . omega
      . omega
    simp only [Option.map_some, hmin, OrderSlotView.toRef]
    generalize v.remaining - min shares v.remaining = left
    by_cases hl : left = 0
    . rw [if_pos hl, if_pos hl]
      have he := h.erase ref
      unfold Ledger.remove
      simp only [Function.update_self, Function.update_idem]
      exact he
    . rw [if_neg hl, if_neg hl]
      exact h.write (v := { v with remaining := left }) href

theorem replace (h : Tracks lg.orders rb) {ref new : Nat} (side : OrderSide) (p : Int)
    (shares seq : Nat) (hnew : rb.find ref ≠ none → (rb.remove ref).find new = none)
    : Tracks (lg.replace ref new side p shares seq).orders (rb.replace ref new side p shares) := by
  unfold Ledger.replace RefBook.replace
  rw [← h.find ref] at hnew ⊢
  cases hv : lg.orders ref with
  | none => exact h
  | some v =>
    rw [hv] at hnew
    apply (h.remove ref).add
    exact hnew (Option.some_ne_none _)

end Tracks

structure Agrees (lg : Ledger) (rb : RefBook) : Prop where
  tracks : Tracks lg.orders rb
  positive : ∀ o ∈ rb, 0 < o.remaining
  valid : ∀ o ∈ rb, Valid o.price
  bound : ∀ buy p, rb.volumeAt buy p < 2 ^ 32
  inv : ∀ buy, (lg.sides.half buy).Inv
  isBid : ∀ buy, (lg.sides.half buy).isBid = buy
  level : ∀ buy p, isPrice p = true → (lg.sides.half buy).find p = rb.level? buy p

namespace Agrees

variable {lg : Ledger} {rb : RefBook}

theorem change (h : Agrees lg rb) {rb' : RefBook} {orders : Nat → Option OrderSlotView}
    {side : OrderSide} {p : Int} {t : PriceLevelTable LevelQty} {lvl : Option LevelQty}
    (htracks : Tracks orders rb') (hpos : ∀ o ∈ rb', 0 < o.remaining) (hvalid : ∀ o ∈ rb', Valid o.price)
    (ht : PriceLevelTable.Updated (lg.sides.table side) t p lvl)
    (hlvl : rb'.level? side.isBuy p = lvl) (hbound : rb'.volumeAt side.isBuy p < 2 ^ 32)
    (hother : ∀ buy q, ¬ (side.isBuy = buy ∧ p = q) → rb'.level? buy q = rb.level? buy q)
    : Agrees { orders := orders, sides := lg.sides.setTable side t } rb' := by
  constructor
  . exact htracks
  . exact hpos
  . exact hvalid
  . intro buy q
    by_cases hq : side.isBuy = buy ∧ p = q
    . rw [← hq.1, ← hq.2]
      exact hbound
    . have heq := congrArg (fun l => (l.getD default).totalQty) (hother buy q hq)
      simp only [RefBook.level?_getD] at heq
      rw [heq]
      exact h.bound buy q
  . intro buy
    rw [Ledger.Sides.half_setTable]
    split
    . exact ht.inv
    . exact h.inv buy
  . intro buy
    rw [Ledger.Sides.half_setTable]
    split
    . next hs => rw [ht.isBid, ← Ledger.Sides.half_isBuy, h.isBid, hs]
    . exact h.isBid buy
  . intro buy q hq
    rw [Ledger.Sides.half_setTable]
    by_cases hs : side.isBuy = buy
    . rw [if_pos hs]
      by_cases hp : p = q
      . rw [← hp, ← hs, ht.self, hlvl]
      . rw [ht.other q hq (fun he => hp he.symm), ← Ledger.Sides.half_isBuy, h.level _ q hq,
          hother buy q (fun hc => hp hc.2), hs]
    . rw [if_neg hs, hother buy q (fun hc => hs hc.1)]
      exact h.level buy q hq

theorem find_level (h : Agrees lg rb) (side : OrderSide) {p : Int} (hp : Valid p)
    : (lg.sides.table side).find p = rb.level? side.isBuy p := by
  rw [← Ledger.Sides.half_isBuy]
  exact h.level _ p hp.isPrice

theorem table_inv (h : Agrees lg rb) (side : OrderSide) : (lg.sides.table side).Inv := by
  rw [← Ledger.Sides.half_isBuy]
  exact h.inv _

theorem cons_forall {P : RefOrder → Prop} (h : ∀ o ∈ rb, P o) {o : RefOrder} (ho : P o)
    : ∀ x ∈ o :: rb, P x := by
  intro x hx
  cases List.mem_cons.1 hx with
  | inl he =>
    rw [he]
    exact ho
  | inr hmem => exact h x hmem

theorem add (h : Agrees lg rb) {ref : Nat} {side : OrderSide} {p : Int} {shares : Nat} (seq : Nat)
    (hnew : rb.find ref = none) (hp : Valid p) (hpos : 0 < shares)
    (hbound : rb.volumeAt side.isBuy p + shares < 2 ^ 32)
    : Agrees (lg.add ref side p shares seq) (rb.add ref side p shares) := by
  have hle := RefBook.countAt_le_volumeAt side.isBuy p h.positive
  have ht := (h.table_inv side).enter hp shares
  rw [h.find_level side hp, RefBook.level?_getD] at ht
  dsimp only at ht
  rw [add32_of_lt (by omega), add32_of_lt hbound] at ht
  apply h.change _ _ _ ht
  . rw [RefBook.add, RefBook.level?_cons_self ⟨ref, side, p, shares⟩ rb, Nat.add_comm shares]
  . unfold RefBook.add
    rw [RefBook.volumeAt_cons, if_pos ⟨rfl, rfl⟩, Nat.add_comm]
    exact hbound
  . intro buy q hq
    exact RefBook.level?_cons_of_ne hq
  . exact h.tracks.add side p shares seq hnew
  . exact cons_forall h.positive hpos
  . exact cons_forall h.valid hp

theorem live (h : Agrees lg rb) {ref : Nat} {v : OrderSlotView} (hv : lg.orders ref = some v)
    : rb.find ref = some v.toRef ∧ rb.Perm (v.toRef :: rb.remove ref) ∧ v.toRef ∈ rb ∧
      Valid v.price ∧
      rb.level? v.side.isBuy v.price = some
        { count := (rb.remove ref).countAt v.side.isBuy v.price + 1
          totalQty := v.remaining + (rb.remove ref).volumeAt v.side.isBuy v.price } ∧
      v.remaining + (rb.remove ref).volumeAt v.side.isBuy v.price < 2 ^ 32 := by
  have hfind := h.tracks.find_some hv
  have hperm := RefBook.perm_remove h.tracks.nodup hfind
  have hmem := (RefBook.find_eq_some hfind).1
  have hvol := RefBook.volumeAt_perm v.side.isBuy v.price hperm
  rw [RefBook.volumeAt_cons, if_pos ⟨rfl, rfl⟩] at hvol
  have hbound := h.bound v.side.isBuy v.price
  rw [hvol] at hbound
  have hlvl := RefBook.level?_cons_self v.toRef (rb.remove ref)
  rw [← RefBook.level?_perm hperm] at hlvl
  exact ⟨hfind, hperm, hmem, h.valid _ hmem, hlvl, hbound⟩

theorem level?_remove (h : Agrees lg rb) {ref : Nat} {v : OrderSlotView}
    (hv : lg.orders ref = some v) {buy : Bool} {q : Int}
    (hne : ¬ (v.side.isBuy = buy ∧ v.price = q))
    : (rb.remove ref).level? buy q = rb.level? buy q := by
  obtain ⟨_, hperm, _⟩ := h.live hv
  rw [RefBook.level?_perm hperm]
  exact (RefBook.level?_cons_of_ne (o := v.toRef) hne).symm

theorem remove (h : Agrees lg rb) {ref : Nat}
    (hclean : ∀ v, lg.orders ref = some v →
      v.remaining = v.shares ∨ rb.countAt v.side.isBuy v.price = 1)
    : Agrees (lg.remove ref) (rb.remove ref) := by
  unfold Ledger.remove
  cases hv : lg.orders ref with
  | none =>
    rw [RefBook.remove_of_find_none]
    . exact h
    . rw [← h.tracks.find ref, hv]
      rfl
  | some v =>
    obtain ⟨_, hperm, _, hvalid, hlvl, hbound⟩ := h.live hv
    have hrest : ∀ o ∈ rb.remove ref, 0 < o.remaining := by
      intro o ho
      exact h.positive o (RefBook.mem_remove ho).1
    have hle := RefBook.countAt_le_volumeAt v.side.isBuy v.price hrest
    have hpos := h.positive _ (h.live hv).2.2.1
    have ht := (h.table_inv v.side).leave hvalid ((h.find_level v.side hvalid).trans hlvl) v.shares
    dsimp only at ht
    rw [sub32_of_le (by unfold OrderSlotView.toRef at hpos; dsimp only at hpos; omega) (by omega),
      Nat.add_sub_cancel] at ht
    apply h.change _ _ _ ht
    . unfold RefBook.level?
      by_cases hz : (rb.remove ref).countAt v.side.isBuy v.price = 0
      . rw [if_pos hz, if_pos hz]
      . rw [if_neg hz, if_neg hz]
        have hcount := RefBook.countAt_perm v.side.isBuy v.price hperm
        rw [RefBook.countAt_cons, if_pos ⟨rfl, rfl⟩] at hcount
        have hsh : v.remaining = v.shares := by
          cases hclean v hv with
          | inl hs => exact hs
          | inr hs => omega
        rw [← hsh, sub32_of_le hbound (by omega), Nat.add_sub_cancel_left]
    . omega
    . intro buy q hq
      exact h.level?_remove hv hq
    . exact h.tracks.erase ref
    . intro o ho
      exact h.positive o (RefBook.mem_remove ho).1
    . intro o ho
      exact h.valid o (RefBook.mem_remove ho).1

theorem reduce (h : Agrees lg rb) {ref shares : Nat}
    (hclean : ∀ v, lg.orders ref = some v → shares < v.remaining)
    : Agrees (lg.reduce ref shares) (rb.reduce ref shares) := by
  unfold Ledger.reduce RefBook.reduce
  rw [← h.tracks.find ref]
  cases hv : lg.orders ref with
  | none => exact h
  | some v =>
    have hlt := hclean v hv
    obtain ⟨hfind, hperm, hmem, hvalid, hlvl, hbound⟩ := h.live hv
    have ht := (h.table_inv v.side).decLevelQty hvalid ((h.find_level v.side hvalid).trans hlvl)
      shares
    dsimp only at ht
    rw [sub32_of_le hbound (by omega), if_neg (by omega)] at ht
    have hmin : min shares v.remaining = shares := by omega
    have hne : ¬ v.remaining - shares = 0 := by omega
    have hgt : ¬ shares > v.remaining := by omega
    simp only [Option.map_some, OrderSlotView.toRef, hmin, if_neg hne, if_neg hgt]
    have href : v.orderRef = ref := (RefBook.find_eq_some hfind).2
    apply h.change _ _ _ ht
    . rw [RefBook.level?_cons_self ⟨v.orderRef, v.side, v.price, v.remaining - shares⟩]
      congr 2
      dsimp only
      omega
    . rw [RefBook.volumeAt_cons, if_pos ⟨rfl, rfl⟩]
      dsimp only
      omega
    . intro buy q hq
      rw [RefBook.level?_cons_of_ne hq]
      exact h.level?_remove hv hq
    . exact h.tracks.write (v := { v with remaining := v.remaining - shares }) href
    . apply cons_forall
      . intro o ho
        exact h.positive o (RefBook.mem_remove ho).1
      . dsimp only
        omega
    . apply cons_forall
      . intro o ho
        exact h.valid o (RefBook.mem_remove ho).1
      . exact hvalid

theorem replace (h : Agrees lg rb) {ref new : Nat} {side : OrderSide} {p : Int} {shares : Nat}
    (seq : Nat)
    (hclean : ∀ v, lg.orders ref = some v →
      (v.remaining = v.shares ∨ rb.countAt v.side.isBuy v.price = 1) ∧
      (rb.remove ref).find new = none ∧ Valid p ∧ 0 < shares ∧
      (rb.remove ref).volumeAt side.isBuy p + shares < 2 ^ 32)
    : Agrees (lg.replace ref new side p shares seq) (rb.replace ref new side p shares) := by
  unfold Ledger.replace RefBook.replace
  rw [← h.tracks.find ref]
  cases hv : lg.orders ref with
  | none => exact h
  | some v =>
    obtain ⟨_, hnew, hp, hpos, hbound⟩ := hclean v hv
    apply (h.remove (fun w hw => (hclean w hw).1)).add
    . exact hnew
    . exact hp
    . exact hpos
    . exact hbound

theorem mem_prices (rb : RefBook) (buy : Bool) (p : Int)
    : p ∈ rb.prices buy ↔ rb.countAt buy p ≠ 0 := by
  rw [ne_eq, RefBook.countAt_eq_zero_iff]
  simp [RefBook.prices, and_assoc]

def slotPrices (t : PriceLevelTable LevelQty) : List Int :=
  ((List.range t.cap).filter (fun i => isPrice (t.slots i).price)).map (fun i => (t.slots i).price)

theorem mem_slotPrices {t : PriceLevelTable LevelQty} (ht : t.Inv) (p : Int)
    : p ∈ slotPrices t ↔ isPrice p = true ∧ t.find p ≠ none := by
  constructor
  . intro hp
    obtain ⟨i, hi, rfl⟩ := List.mem_map.1 hp
    rw [List.mem_filter, List.mem_range] at hi
    constructor
    . exact hi.2
    . rw [ht.find_slot hi.1 hi.2]
      exact Option.some_ne_none _
  . intro hp
    obtain ⟨l, hl⟩ := Option.ne_none_iff_exists'.1 hp.2
    obtain ⟨i, hi, hpi, _⟩ := (ht.find_eq_some_iff hp.1).1 hl
    apply List.mem_map.2
    apply Exists.intro i
    rw [List.mem_filter, List.mem_range, hpi]
    exact ⟨⟨hi, hp.1⟩, rfl⟩

theorem slotPrices_nodup {t : PriceLevelTable LevelQty} (ht : t.Inv) : (slotPrices t).Nodup := by
  apply List.Nodup.map_on
  . intro i hi j hj hij
    rw [List.mem_filter, List.mem_range] at hi hj
    have hsi := ht.search_slot hi.1 hi.2
    rw [hij, ht.search_slot hj.1 hj.2] at hsi
    exact (Option.some.inj hsi).symm
  . apply List.Nodup.filter
    exact List.nodup_range

theorem slotPrices_length {t : PriceLevelTable LevelQty} (ht : t.Inv)
    : (slotPrices t).length = t.count := by
  rw [ht.count_eq, slotPrices, List.length_map, List.countP_eq_length_filter]

theorem best_mem_slotPrices {t : PriceLevelTable LevelQty} (ht : t.Inv) (hz : t.count ≠ 0)
    : t.best ∈ slotPrices t ∧
      ∀ p ∈ slotPrices t, PriceLevelTable.better t.isBid p t.best = false := by
  have hge : ∀ p ∈ slotPrices t, PriceLevelTable.better t.isBid p t.best = false := by
    intro p hp
    obtain ⟨i, hi, rfl⟩ := List.mem_map.1 hp
    rw [List.mem_filter, List.mem_range] at hi
    exact ht.best_ge i hi.1 hi.2
  constructor
  . cases ht.best_mem with
    | inl hw =>
      -- only an ask level at `INT64_MAX` leaves the cached price where it started
      have hlen := slotPrices_length ht
      obtain ⟨p, hp⟩ := List.exists_mem_of_length_pos (show 0 < (slotPrices t).length by omega)
      have hb := hge p hp
      obtain ⟨i, hi, rfl⟩ := List.mem_map.1 hp
      rw [List.mem_filter, List.mem_range] at hi
      rw [hw] at hb ⊢
      rw [← PriceLevelTable.eq_worst_of_not_better (ht.valid i hi.1 hi.2) hb]
      exact hp
    | inr hs =>
      obtain ⟨i, hi, hp, heq⟩ := hs
      apply List.mem_map.2
      apply Exists.intro i
      rw [List.mem_filter, List.mem_range]
      exact ⟨⟨hi, hp⟩, heq.symm⟩
  . exact hge

theorem prices_perm (h : Agrees lg rb) (buy : Bool)
    : (slotPrices (lg.sides.half buy)).Perm (rb.prices buy) := by
  apply (List.perm_ext_iff_of_nodup (slotPrices_nodup (h.inv buy)) (List.nodup_dedup _)).2
  intro p
  show _ ↔ p ∈ rb.prices buy
  rw [mem_slotPrices (h.inv buy)]
  constructor
  . intro hp
    rw [h.level buy p hp.1] at hp
    have := (mem_prices rb buy p).2
    apply this
    intro hz
    exact hp.2 (by simp [RefBook.level?, hz])
  . intro hp
    have hz := (mem_prices rb buy p).1 hp
    have hprice : isPrice p = true := by
      by_contra hno
      apply hz
      rw [RefBook.countAt_eq_zero_iff]
      intro o ho _ hop
      rw [← hop] at hno
      exact hno (h.valid o ho).isPrice
    rw [h.level buy p hprice]
    constructor
    . exact hprice
    . simp [RefBook.level?, hz]

theorem levels (h : Agrees lg rb) (buy : Bool) : (lg.sides.half buy).size = rb.levels buy := by
  unfold RefBook.levels PriceLevelTable.size
  rw [← (h.prices_perm buy).length_eq, slotPrices_length (h.inv buy)]

theorem best? (h : Agrees lg rb) (buy : Bool)
    : rb.best? buy =
      if (lg.sides.half buy).isEmpty then none else some (lg.sides.half buy).best := by
  have hlen := h.levels buy
  have hinv := h.inv buy
  have hbid := h.isBid buy
  have hperm := h.prices_perm buy
  generalize lg.sides.half buy = t at *
  unfold PriceLevelTable.size RefBook.levels at hlen
  unfold PriceLevelTable.isEmpty
  by_cases hz : t.count = 0
  . rw [hz] at hlen
    have hnil := List.length_eq_zero_iff.1 hlen.symm
    simp [RefBook.best?, hnil, hz]
  . obtain ⟨hmem, hge⟩ := best_mem_slotPrices hinv hz
    rw [hperm.mem_iff] at hmem
    have hge : ∀ p ∈ rb.prices buy, PriceLevelTable.better t.isBid p t.best = false := by
      intro p hp
      exact hge p (hperm.mem_iff.2 hp)
    unfold RefBook.best?
    cases buy with
    | true =>
      simp only [hz, hbid, PriceLevelTable.better, if_true, decide_false, Bool.false_eq_true,
        if_false, decide_eq_false_iff_not, Int.not_lt] at hge ⊢
      exact List.max?_eq_some_iff.2 ⟨hmem, hge⟩
    | false =>
      simp only [hz, hbid, PriceLevelTable.better, decide_false, Bool.false_eq_true,
        if_false, decide_eq_false_iff_not, Int.not_lt] at hge ⊢
      exact List.min?_eq_some_iff.2 ⟨hmem, hge⟩

theorem best (h : Agrees lg rb) (buy : Bool)
    : (if (lg.sides.half buy).isEmpty then -1 else (lg.sides.half buy).best) = rb.best buy := by
  unfold RefBook.best
  rw [h.best? buy]
  split
  . rfl
  . rfl

theorem volumeAt (h : Agrees lg rb) (buy : Bool) {p : Int} (hp : isPrice p = true)
    : ((lg.sides.half buy).find p).elim 0 LevelQty.totalQty = rb.volumeAt buy p := by
  rw [h.level buy p hp]
  unfold RefBook.level?
  by_cases hz : rb.countAt buy p = 0
  . rw [if_pos hz, RefBook.volumeAt_eq_zero_of_countAt hz]
    rfl
  . rw [if_neg hz]
    rfl

theorem bestVolume (h : Agrees lg rb) (buy : Bool)
    : (lg.sides.half buy).bestQty (·.totalQty) = rb.bestVolume buy := by
  unfold PriceLevelTable.bestQty RefBook.bestVolume
  rw [h.best? buy]
  by_cases hz : (lg.sides.half buy).isEmpty
  . rw [if_pos hz, if_pos hz]
  . rw [if_neg hz, if_neg hz]
    obtain ⟨hmem, _⟩ := best_mem_slotPrices (h.inv buy) (by simpa [PriceLevelTable.isEmpty] using hz)
    have hvol := h.volumeAt buy ((mem_slotPrices (h.inv buy) _).1 hmem).1
    dsimp only
    rw [← hvol]
    cases (lg.sides.half buy).find (lg.sides.half buy).best with
    | none => rfl
    | some q => rfl

theorem init : Agrees { orders := fun _ => none, sides := Ledger.Sides.init } [] := by
  constructor
  . exact Tracks.init
  . intro o ho
    cases ho
  . intro o ho
    cases ho
  . intro buy p
    exact Nat.two_pow_pos 32
  . intro buy
    cases buy with
    | true => exact PriceLevelTable.Inv.init true
    | false => exact PriceLevelTable.Inv.init false
  . intro buy
    cases buy with
    | true => rfl
    | false => rfl
  . intro buy p hp
    cases buy with
    | true => exact PriceLevelTable.init_find true hp
    | false => exact PriceLevelTable.init_find false hp

end Agrees

end NebulaXTrader
