import NebulaXTrader.Market.Lemmas.OrderBookConsumer

/-!
This module contains what an event does to the shared order pool and order index, whatever the feed:
references that are live twice, references of other books and events that find no room included.
-/

namespace NebulaXTrader

/--
The pools differ in the links of the slots and in the slot `idx` only.
-/
structure OrderPool.SameBut (p p' : OrderPool) (idx : Nat) : Prop where
  view : ∀ i, i ≠ idx → (p'.storage i).view = (p.storage i).view
  capacity : p'.capacity = p.capacity
  size : p'.size = p.size
  free : ∀ fl, p.Free fl → p'.Free fl

namespace OrderPool

variable {p p' p'' : OrderPool} {idx : Nat}

theorem SameBut.trans (h : p.SameBut p' idx) (h' : p'.SameBut p'' idx) : p.SameBut p'' idx := by
  constructor
  . intro i hi
    rw [h'.view i hi, h.view i hi]
  . rw [h'.capacity, h.capacity]
  . rw [h'.size, h.size]
  . intro fl hfl
    exact h'.free fl (h.free fl hfl)

theorem SameBut.modify (p : OrderPool) (idx : Nat) (f : OrderSlot → OrderSlot)
    (hfree : ∀ s, (f s).poolNextFree = s.poolNextFree) : p.SameBut (p.modify idx f) idx := by
  constructor
  . intro i hi
    rw [modify_storage_of_ne p idx f hi]
  . simp
  . simp
  . intro fl hfl
    exact hfl.modify idx f hfree

theorem Relinks.sameBut (h : p.Relinks p') (hsize : p'.size = p.size) (idx : Nat) : p.SameBut p' idx := by
  constructor
  . intro i _
    exact h.view i
  . exact h.capacity
  . exact hsize
  . exact h.free

end OrderPool

namespace OrderBook

theorem linkFront_size (p : OrderPool) (lvl : PriceLevel) (idx : Nat)
    : (linkFront p lvl idx).size = p.size := by
  unfold linkFront
  split
  . simp
  . rfl

theorem unlinkSlot_size (p : OrderPool) (lvl : PriceLevel) (idx : Nat)
    : (unlinkSlot p lvl idx).1.size = p.size := by
  have hif : ∀ (c : Prop) [Decidable c] (q : OrderPool) (i : Nat) (f : OrderSlot → OrderSlot) (l l' : PriceLevel),
      (if c then (q.modify i f, l) else (q, l')).1.size = q.size := by
    intro c _ q i f l l'
    split
    . simp
    . rfl
  unfold unlinkSlot
  dsimp only
  rw [hif, hif]

end OrderBook

def MarketEvent.Body.reduced (b : MarketEvent.Body) : Option Nat :=
  match b with
  | .DELETE o | .CANCEL o => some o.orderRef
  | .TRADE t | .EXECUTE t => some t.orderRef
  | .ADD _ | .REPLACE _ => none

namespace OrderStore

/--
A new order was stored: a slot was taken from the pool, written and entered in the index, which may
drop it.
-/
def Entered (st st' : OrderStore) (ref idx : Nat) : Prop :=
  ∃ pool, st.pool.allocate = some (idx, pool) ∧ pool.SameBut st'.pool idx ∧
    st'.index = st.index.insert ref idx

def Dropped (st st' : OrderStore) (ref s : Nat) : Prop :=
  ∃ pool, st.pool.SameBut pool s ∧ st'.pool = pool.deallocate s ∧ st'.index = st.index.erase ref

def Written (st st' : OrderStore) (s : Nat) : Prop :=
  st.pool.SameBut st'.pool s ∧ st'.index = st.index

/--
What an event with the given body can do to the store.
-/
inductive Effect (st : OrderStore) : MarketEvent.Body → OrderStore → Prop where
  | full (o : MarketEvent.Order) (hfull : st.pool.allocate = none) : Effect st (.ADD o) st
  | enter (o : MarketEvent.Order) {st' : OrderStore} {idx : Nat} (h : st.Entered st' o.orderRef idx)
    : Effect st (.ADD o) st'
  | unknown (b : MarketEvent.Body) {ref : Nat} (hb : b.reduced = some ref)
    (hs : st.index.find ref = none) : Effect st b st
  | write (b : MarketEvent.Body) {st' : OrderStore} {ref s : Nat} (hb : b.reduced = some ref)
    (hs : st.index.find ref = some s) (h : st.Written st' s) : Effect st b st'
  | drop (b : MarketEvent.Body) {st' : OrderStore} {ref s : Nat} (hb : b.reduced = some ref)
    (hs : st.index.find ref = some s) (h : st.Dropped st' ref s) : Effect st b st'
  | stale (o : MarketEvent.Order) (hs : st.index.find o.orderRef = none) : Effect st (.REPLACE o) st
  | lose (o : MarketEvent.Order) {st' : OrderStore} {s : Nat} (hs : st.index.find o.orderRef = some s)
    (h : st.Dropped st' o.orderRef s) (hfull : st'.pool.allocate = none) : Effect st (.REPLACE o) st'
  | swap (o : MarketEvent.Order) {st' st'' : OrderStore} {s idx : Nat}
    (hs : st.index.find o.orderRef = some s) (h : st.Dropped st' o.orderRef s)
    (h' : st'.Entered st'' o.newOrderRef idx) : Effect st (.REPLACE o) st''

end OrderStore

namespace OrderBook

variable (bk : OrderBook)

theorem setTable_store (side : OrderSide) (t : PriceLevelTable PriceLevel)
    : (bk.setTable side t).store = bk.store := by
  unfold setTable
  split
  . rfl
  . rfl

theorem add_entered (ref : Nat) (side : OrderSide) (p : Int) (shares seq : Nat)
    : (bk.store.pool.allocate = none ∧ (bk.add ref side p shares seq).1.store = bk.store) ∨
      ∃ idx, bk.store.Entered (bk.add ref side p shares seq).1.store ref idx := by
  unfold add
  cases ha : bk.pool.allocate with
  | none => exact Or.inl ⟨ha, rfl⟩
  | some r =>
    apply Or.inr
    apply Exists.intro r.1
    dsimp only
    rw [setTable_store]
    refine ⟨r.2, ha, ?_, rfl⟩
    apply OrderPool.SameBut.trans (OrderPool.SameBut.modify r.2 r.1 _ _)
    . apply OrderPool.Relinks.sameBut (OrderPool.Relinks.linkFront _ _ _)
      apply linkFront_size
    . intro s
      rfl

theorem unlinkAndFree_dropped (s ref : Nat)
    : bk.store.Dropped
        { (bk.unlinkAndFree s) with index := (bk.unlinkAndFree s).index.erase ref }.store ref s := by
  have hstore : { (bk.unlinkAndFree s) with index := (bk.unlinkAndFree s).index.erase ref }.store =
      { (bk.unlinkAndFree s).store with index := (bk.unlinkAndFree s).store.index.erase ref } := rfl
  rw [hstore]
  unfold unlinkAndFree
  dsimp only
  rw [setTable_store]
  refine ⟨_, ?_, rfl, rfl⟩
  apply OrderPool.Relinks.sameBut
  . apply OrderPool.Relinks.unlinkSlot
  . apply unlinkSlot_size

theorem remove_dropped {ref s : Nat} (hs : bk.index.find ref = some s)
    : bk.store.Dropped (bk.remove ref).1.store ref s := by
  unfold remove
  rw [hs]
  exact bk.unlinkAndFree_dropped s ref

theorem reduce_effect {ref s : Nat} (shares : Nat) (hs : bk.index.find ref = some s)
    : bk.store.Written (bk.reduce ref shares).1.store s ∨
      bk.store.Dropped (bk.reduce ref shares).1.store ref s := by
  unfold reduce
  rw [hs]
  dsimp only
  generalize (if shares > (bk.pool.storage s).remaining then (bk.pool.storage s).remaining else shares) = n
  have hstore : ∀ (b : OrderBook) (side : OrderSide) (p : Int), (b.decLevelQty side p n).store = b.store := by
    intro b side p
    unfold decLevelQty
    apply setTable_store
  generalize hb : OrderBook.decLevelQty _ _ _ n = b
  have hwritten : bk.store.Written b.store s := by
    rw [← hb, hstore]
    have hmodify := OrderPool.SameBut.modify bk.pool s
      (fun slot => { slot with remaining := slot.remaining - n }) (fun _ => rfl)
    exact ⟨hmodify, rfl⟩
  split
  . -- the order is used up: it is written first, then dropped
    obtain ⟨pool, hpool, hdealloc, hindex⟩ := b.unlinkAndFree_dropped s ref
    apply Or.inr
    refine ⟨pool, hwritten.1.trans hpool, hdealloc, ?_⟩
    exact hindex.trans (congrArg (fun ix => OrderMap.erase ix ref) hwritten.2)
  . exact Or.inl hwritten

theorem reduce_unknown {ref : Nat} (shares : Nat) (hs : bk.index.find ref = none)
    : (bk.reduce ref shares).1 = bk := by
  unfold reduce
  rw [hs]

theorem remove_unknown {ref : Nat} (hs : bk.index.find ref = none) : (bk.remove ref).1 = bk := by
  unfold remove
  rw [hs]

theorem remove_effect {b : MarketEvent.Body} {ref : Nat} (hb : b.reduced = some ref)
    : bk.store.Effect b (bk.remove ref).1.store := by
  cases hs : bk.index.find ref with
  | none =>
    rw [bk.remove_unknown hs]
    exact .unknown b hb hs
  | some s => exact .drop b hb hs (bk.remove_dropped hs)

theorem execute_effect {b : MarketEvent.Body} {ref : Nat} (shares : Nat) (hb : b.reduced = some ref)
    : bk.store.Effect b (bk.reduce ref shares).1.store := by
  cases hs : bk.index.find ref with
  | none =>
    rw [bk.reduce_unknown shares hs]
    exact .unknown b hb hs
  | some s =>
    cases bk.reduce_effect shares hs with
    | inl h => exact .write b hb hs h
    | inr h => exact .drop b hb hs h

theorem replace_effect (o : MarketEvent.Order) (side : OrderSide) (seq : Nat) {s : Nat}
    (hs : bk.index.find o.orderRef = some s)
    : bk.store.Effect (.REPLACE o)
        (bk.replace o.orderRef o.newOrderRef side o.price o.shares seq).1.store := by
  have hdrop := bk.remove_dropped hs
  unfold replace
  rw [hs]
  dsimp only
  generalize (if seq ≠ 0 then seq else (bk.pool.storage s).sequence) = n
  cases (bk.remove o.orderRef).1.add_entered o.newOrderRef side o.price o.shares n with
  | inl h =>
    rw [h.2]
    exact .lose o hs hdrop h.1
  | inr h =>
    cases h with
    | intro idx h => exact .swap o hs hdrop h

end OrderBook

theorem OrderBookConsumer.onEvent_effect (c : OrderBookConsumer) (st : OrderStore) (ev : MarketEvent)
    : st.Effect ev.body (c.onEvent st ev).2 := by
  unfold onEvent
  generalize hbk : OrderBook.ofStore st (c.bookFor ev.locate) = bk
  have hst : bk.store = st := by
    rw [← hbk]
    rfl
  cases ev.body with
  | ADD o =>
    have hadd := bk.add_entered o.orderRef o.side o.price o.shares c.nextOrderSeq.orderSeq
    rw [hst, ← hbk] at hadd
    cases hadd with
    | inl h =>
      have heq : (c.handleAdd st ev.locate o).2 = st := h.2
      rw [heq]
      exact .full o h.1
    | inr h =>
      cases h with
      | intro idx h => exact .enter o h
  | DELETE o =>
    have hremove := bk.remove_effect (b := .DELETE o) rfl
    rw [hst, ← hbk] at hremove
    exact hremove
  | CANCEL o =>
    have hreduce := bk.execute_effect (b := .CANCEL o) o.shares rfl
    rw [hst, ← hbk] at hreduce
    exact hreduce
  | REPLACE o =>
    dsimp only
    unfold handleReplace
    rw [hbk]
    cases hs : bk.index.find o.orderRef with
    | none =>
      have hget : bk.get o.orderRef = none := by simp [OrderBook.get, hs]
      rw [hget]
      rw [← hbk] at hs
      exact .stale o hs
    | some s =>
      have hget : bk.get o.orderRef = some (bk.pool.storage s).view := by simp [OrderBook.get, hs]
      have hreplace := bk.replace_effect o (bk.pool.storage s).view.side c.nextOrderSeq.orderSeq hs
      rw [hget]
      rw [hst, ← hbk] at hreplace
      rw [← hbk]
      exact hreplace
  | TRADE t =>
    have hreduce := bk.execute_effect (b := .TRADE t) t.volume rfl
    rw [hst, ← hbk] at hreduce
    exact hreduce
  | EXECUTE t =>
    have hreduce := bk.execute_effect (b := .EXECUTE t) t.volume rfl
    rw [hst, ← hbk] at hreduce
    exact hreduce

/--
What holds of the store in every reachable state: every slot in the index is taken from the pool, and no
slot is in the index twice.
-/
structure OrderStore.Tidy (st : OrderStore) (pl : List Nat) : Prop where
  wf : ∃ il, st.index.Wf il
  free : st.pool.Free pl
  size : st.pool.size + pl.length = st.pool.capacity
  taken : ∀ ref, ∀ s ∈ st.index.entries ref, s ∉ pl ∧ s < st.pool.capacity
  once : ∀ ref, (st.index.entries ref).Nodup
  apart : ∀ ref ref' s, s ∈ st.index.entries ref → s ∈ st.index.entries ref' → ref = ref'

theorem OrderMap.Wf.insert_sublist {m : OrderMap} {fl : List Nat} (h : m.Wf fl) (ref order : Nat)
    : (∃ fl', (m.insert ref order).Wf fl') ∧
      ((m.insert ref order).entries ref).Sublist (order :: m.entries ref) ∧
      ∀ r, r ≠ ref → ((m.insert ref order).entries r).Sublist (m.entries r) ∧
        ((m.entries r).length ≤ 1 → (m.insert ref order).entries r = m.entries r) := by
  have hlast : ∀ l : List Nat, l.getLast?.toList.Sublist l ∧ (l.length ≤ 1 → l.getLast?.toList = l) := by
    intro l
    cases l.eq_nil_or_concat with
    | inl hl => simp [hl]
    | inr hl =>
      obtain ⟨l', x, rfl⟩ := hl
      constructor
      . simp
      . intro hlen
        have hnil : l' = [] := by simpa using hlen
        simp [hnil]
  by_cases hd : m.Drops ref
  . rw [insert_of_drops hd]
    refine ⟨⟨fl, h⟩, List.sublist_cons_self _ _, ?_⟩
    intro r _
    exact ⟨List.Sublist.refl _, fun _ => rfl⟩
  . obtain ⟨hwf, hself, hother⟩ := h.insert_entries order hd
    refine ⟨hwf, ?_, ?_⟩
    . rcases hself with hself | hself | hself
      . simp [hself]
      . simp [hself]
      . rw [hself]
        exact (hlast _).1
    . intro r hr
      cases hother r hr with
      | inl he => simp [he]
      | inr he =>
        rw [he]
        exact hlast _

theorem OrderMap.Wf.insert_mem {m : OrderMap} {fl : List Nat} (h : m.Wf fl) {ref order r i : Nat}
    (hi : i ∈ (m.insert ref order).entries r) : (r = ref ∧ i = order) ∨ i ∈ m.entries r := by
  obtain ⟨_, hself, hother⟩ := h.insert_sublist ref order
  by_cases hr : r = ref
  . rw [hr] at hi ⊢
    cases List.mem_cons.1 (hself.subset hi) with
    | inl hio => exact Or.inl ⟨rfl, hio⟩
    | inr hi => exact Or.inr hi
  . exact Or.inr ((hother r hr).1.subset hi)

namespace OrderStore

variable {st st' : OrderStore} {pl : List Nat} {ref s idx : Nat}

theorem Tidy.init {pool index : Nat} (h0 : 0 < pool) (h : pool ≤ noIdx) (h0' : 0 < index)
    (h' : index ≤ noIdx)
    : Tidy { pool := OrderPool.init pool, index := OrderMap.init index } (List.range pool) := by
  constructor
  . exact ⟨_, OrderMap.Wf.init h0' h'⟩
  . exact OrderPool.Free.init h0 h
  . simp [OrderPool.init]
  . simp [OrderMap.entries_init]
  . simp [OrderMap.entries_init]
  . simp [OrderMap.entries_init]

theorem Tidy.find_eq (h : st.Tidy pl) : st.index.find ref = (st.index.entries ref).head? := by
  cases h.wf with
  | intro il hwf => exact hwf.find_eq

theorem Tidy.mem_of_find (h : st.Tidy pl) (hs : st.index.find ref = some s)
    : s ∈ st.index.entries ref := by
  rw [h.find_eq] at hs
  exact List.mem_of_head? hs

theorem Tidy.written (h : st.Tidy pl) (hw : st.Written st' s) : st'.Tidy pl := by
  constructor
  . rw [hw.2]
    exact h.wf
  . exact hw.1.free pl h.free
  . rw [hw.1.size, hw.1.capacity]
    exact h.size
  . rw [hw.2, hw.1.capacity]
    exact h.taken
  . rw [hw.2]
    exact h.once
  . rw [hw.2]
    exact h.apart

theorem Tidy.entries_dropped (h : st.Tidy pl) (hd : st.Dropped st' ref s)
    : (∃ il, st'.index.Wf il) ∧ st'.index.entries ref = (st.index.entries ref).tail ∧
      ∀ r, r ≠ ref → st'.index.entries r = st.index.entries r := by
  obtain ⟨_, _, _, hindex⟩ := hd
  obtain ⟨il, hwf⟩ := h.wf
  obtain ⟨hwf', _, hself, hother⟩ := hwf.erase ref
  rw [hindex]
  exact ⟨hwf', hself, hother⟩

theorem Tidy.dropped (h : st.Tidy pl) (hs : st.index.find ref = some s) (hd : st.Dropped st' ref s)
    : st'.Tidy (s :: pl) := by
  have hentries := h.entries_dropped hd
  have hmem := h.mem_of_find hs
  have htaken := h.taken ref s hmem
  have hsub : ∀ r, (st'.index.entries r).Sublist (st.index.entries r) := by
    intro r
    by_cases hr : r = ref
    . rw [hr, hentries.2.1]
      exact List.tail_sublist _
    . rw [hentries.2.2 r hr]
  have hgone : ∀ r, s ∉ st'.index.entries r := by
    intro r hsr
    have hr : r = ref := h.apart r ref s ((hsub r).subset hsr) hmem
    rw [hr, hentries.2.1] at hsr
    have honce := h.once ref
    rw [h.find_eq] at hs
    rw [← List.cons_head?_tail hs, List.nodup_cons] at honce
    exact honce.1 hsr
  obtain ⟨pool, hpool, hdealloc, _⟩ := hd
  have hlen : (s :: pl).length ≤ st.pool.capacity := by
    apply Chain.length_le_of_nodup_of_lt
    . rw [List.nodup_cons]
      exact ⟨htaken.1, h.free.isList.nodup⟩
    . intro i hi
      cases List.mem_cons.1 hi with
      | inl hi => simpa [hi] using htaken.2
      | inr hi => exact h.free.lt i hi
  constructor
  . exact hentries.1
  . rw [hdealloc]
    apply (hpool.free pl h.free).deallocate htaken.1
    rw [hpool.capacity]
    exact htaken.2
  . have hsize := h.size
    have hsize' : st'.pool.size = st.pool.size - 1 := by
      rw [hdealloc, ← hpool.size]
      rfl
    have hcap : st'.pool.capacity = st.pool.capacity := by
      rw [hdealloc, ← hpool.capacity, OrderPool.deallocate_capacity]
    rw [hsize', hcap]
    rw [List.length_cons] at hlen ⊢
    omega
  . intro r i hi
    have hi' := h.taken r i ((hsub r).subset hi)
    rw [hdealloc, OrderPool.deallocate_capacity, hpool.capacity, List.mem_cons, not_or]
    refine ⟨⟨?_, hi'.1⟩, hi'.2⟩
    intro his
    rw [his] at hi
    exact hgone r hi
  . intro r
    exact (hsub r).nodup (h.once r)
  . intro r r' i hi hi'
    exact h.apart r r' i ((hsub r).subset hi) ((hsub r').subset hi')

theorem Tidy.entered (h : st.Tidy pl) (he : st.Entered st' ref idx)
    : ∃ pl', pl = idx :: pl' ∧ st'.Tidy pl' := by
  obtain ⟨pool, halloc, hpool, hindex⟩ := he
  rw [h.free.allocate] at halloc
  cases pl with
  | nil => cases halloc
  | cons i pl =>
    simp only [List.head?_cons, Option.map_some, Option.some.injEq, Prod.mk.injEq] at halloc
    obtain ⟨rfl, rfl⟩ := halloc
    obtain ⟨il, hwf⟩ := h.wf
    obtain ⟨hwf', hself, hother⟩ := hwf.insert_sublist ref i
    rw [← hindex] at hwf' hself hother
    have hfresh : i ∉ pl := (List.nodup_cons.1 h.free.isList.nodup).1
    have hnew : ∀ r, i ∉ st.index.entries r := by
      intro r hr
      exact (h.taken r i hr).1 List.mem_cons_self
    have hmem : ∀ r, ∀ j ∈ st'.index.entries r, (r = ref ∧ j = i) ∨ j ∈ st.index.entries r := by
      intro r j hj
      rw [hindex] at hj
      exact hwf.insert_mem hj
    apply Exists.intro pl
    refine ⟨rfl, ?_⟩
    constructor
    . exact hwf'
    . exact hpool.free pl h.free.takeHead
    . have hsize := h.size
      rw [hpool.size, hpool.capacity]
      simp only [List.length_cons, OrderPool.takeHead] at hsize ⊢
      omega
    . intro r j hj
      rw [hpool.capacity]
      cases hmem r j hj with
      | inl hji =>
        rw [hji.2]
        exact ⟨hfresh, h.free.lt i List.mem_cons_self⟩
      | inr hj =>
        have htaken := h.taken r j hj
        rw [List.mem_cons, not_or] at htaken
        exact ⟨htaken.1.2, htaken.2⟩
    . intro r
      by_cases hr : r = ref
      . rw [hr]
        apply hself.nodup
        rw [List.nodup_cons]
        exact ⟨hnew ref, h.once ref⟩
      . exact (hother r hr).1.nodup (h.once r)
    . intro r r' j hj hj'
      rcases hmem r j hj with hji | hj
      . rcases hmem r' j hj' with hji' | hj'
        . rw [hji.1, hji'.1]
        . rw [hji.2] at hj'
          exact absurd hj' (hnew r')
      . rcases hmem r' j hj' with hji' | hj'
        . rw [hji'.2] at hj
          exact absurd hj (hnew r)
        . exact h.apart r r' j hj hj'

theorem Effect.tidy {b : MarketEvent.Body} (he : st.Effect b st') (h : st.Tidy pl)
    : ∃ pl', st'.Tidy pl' := by
  cases he with
  | full o hfull => exact ⟨pl, h⟩
  | enter o he =>
    obtain ⟨pl', _, h'⟩ := h.entered he
    exact ⟨pl', h'⟩
  | unknown b hb hs => exact ⟨pl, h⟩
  | write b hb hs hw => exact ⟨pl, h.written hw⟩
  | drop b hb hs hd => exact ⟨_, h.dropped hs hd⟩
  | stale o hs => exact ⟨pl, h⟩
  | lose o hs hd hfull => exact ⟨_, h.dropped hs hd⟩
  | swap o hs hd he =>
    obtain ⟨pl', _, h'⟩ := (h.dropped hs hd).entered he
    exact ⟨pl', h'⟩

end OrderStore

end NebulaXTrader
