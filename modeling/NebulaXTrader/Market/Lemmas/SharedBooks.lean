import NebulaXTrader.Market.SharedBooks

/-!
This module contains the invariant of order books that share one pool and one index: what every call keeps, whatever
the quantities of the levels say about their lists.
-/

namespace NebulaXTrader

/--
A table in which the level of one price has got the head `head`, and any level may be gone.
-/
structure Reheaded (t t' : PriceLevelTable PriceLevel) (price : Int) (head : Nat) : Prop where
  steady : t'.Steady
  self : (t'.level price).headIdx = head ∨ (t'.level price).headIdx = noIdx
  other : ∀ q, q ≠ PriceLevelTable.kTombstone → q ≠ price →
    (t'.level q).headIdx = (t.level q).headIdx ∨ (t'.level q).headIdx = noIdx

namespace Reheaded

variable {t t' : PriceLevelTable PriceLevel} {price : Int} {head : Nat}

theorem eq_or_gone {a b : PriceLevel} (h : a = b ∨ a = default) : a.headIdx = b.headIdx ∨ a.headIdx = noIdx := by
  cases h with
  | inl h => exact Or.inl (congrArg PriceLevel.headIdx h)
  | inr h => exact Or.inr (congrArg PriceLevel.headIdx h)

theorem erase (h : Reheaded t t' price head) (hprice : PriceLevelTable.Usable price)
    : Reheaded t (t'.erase price) price head := by
  obtain ⟨hsteady, hself, hother⟩ := h.steady.erase hprice
  refine ⟨hsteady, ?_, ?_⟩
  . apply Or.inr
    rw [hself]
    rfl
  . intro q hqt hqp
    cases eq_or_gone (hother q hqt hqp) with
    | inl heq =>
      rw [heq]
      exact h.other q hqt hqp
    | inr hgone => exact Or.inr hgone

theorem erase_or {t₁ : PriceLevelTable PriceLevel} (h : Reheaded t t₁ price head)
    (hprice : PriceLevelTable.Usable price) (ht' : t' = t₁.erase price ∨ t' = t₁) : Reheaded t t' price head := by
  cases ht' with
  | inl heq =>
    rw [heq]
    exact h.erase hprice
  | inr heq =>
    rw [heq]
    exact h

theorem write (ht : t.Steady) (hprice : PriceLevelTable.Usable price) (f : PriceLevel → PriceLevel)
    (hf : (f (t.level price)).headIdx = head)
    : Reheaded t ((t.access price).1.modifyLvl (t.access price).2 f) price head := by
  obtain ⟨hsteady, hself, hother⟩ := (ht.access hprice).write f
  refine ⟨hsteady, ?_, ?_⟩
  . rw [hself]
    exact Or.inl hf
  . intro q hqt hqp
    exact eq_or_gone (hother q hqt hqp)

end Reheaded

namespace OrderStore

variable {st st' : OrderStore} {pl : List Nat} {ref idx i : Nat}

theorem Tidy.noIdx_free (h : st.Tidy pl) : ¬ st.pool.Allocated noIdx := by
  intro halloc
  exact absurd h.free.cap (Nat.not_le.2 halloc.1)

theorem Tidy.allocated_of_find (h : st.Tidy pl) (hs : st.index.find ref = some idx) : st.pool.Allocated idx := by
  have htaken := h.taken ref idx (h.mem_of_find hs)
  exact h.allocated_iff.2 ⟨htaken.2, htaken.1⟩

theorem Tidy.allocated_entered (h : st.Tidy pl) (he : st.Entered st' ref idx)
    : ¬ st.pool.Allocated idx ∧ idx ≠ noIdx ∧ ∀ i, st'.pool.Allocated i ↔ i = idx ∨ st.pool.Allocated i := by
  obtain ⟨pl', rfl, h'⟩ := h.entered he
  obtain ⟨pool, ha, hsame, _⟩ := he
  have hcap : st'.pool.capacity = st.pool.capacity := by
    rw [h.free.allocate] at ha
    cases ha
    exact hsame.capacity
  have hlt := h.free.lt idx List.mem_cons_self
  have hfresh := (List.nodup_cons.1 h.free.isList.nodup).1
  refine ⟨?_, ?_, ?_⟩
  . rw [h.allocated_iff]
    intro halloc
    exact halloc.2 List.mem_cons_self
  . exact Nat.ne_of_lt (Nat.lt_of_lt_of_le hlt h.free.cap)
  . intro i
    rw [h'.allocated_iff, h.allocated_iff, hcap, List.mem_cons, not_or]
    constructor
    . intro hi
      by_cases hidx : i = idx
      . exact Or.inl hidx
      . exact Or.inr ⟨hi.1, hidx, hi.2⟩
    . intro hi
      cases hi with
      | inl hidx =>
        rw [hidx]
        exact ⟨hlt, hfresh⟩
      | inr hi => exact ⟨hi.1, hi.2.2⟩

theorem Tidy.allocated_dropped (h : st.Tidy pl) (hs : st.index.find ref = some idx) (hd : st.Dropped st' ref idx)
    : ∀ i, st'.pool.Allocated i ↔ st.pool.Allocated i ∧ i ≠ idx := by
  intro i
  have hcap : st'.pool.capacity = st.pool.capacity := by
    obtain ⟨pool, hsame, hdealloc, _⟩ := hd
    rw [hdealloc, OrderPool.deallocate_capacity, hsame.capacity]
  rw [(h.dropped hs hd).allocated_iff, h.allocated_iff, hcap, List.mem_cons, not_or]
  constructor
  . intro hi
    exact ⟨⟨hi.1, hi.2.2⟩, hi.2.1⟩
  . intro hi
    exact ⟨hi.1.1, hi.2, hi.1.2⟩

end OrderStore

theorem OrderPool.allocate_storage {p p' : OrderPool} {idx : Nat} (ha : p.allocate = some (idx, p'))
    : p'.storage = p.storage := by
  unfold OrderPool.allocate at ha
  dsimp only at ha
  split at ha
  . cases ha
  . cases ha
    rfl

namespace OrderBook

theorem setTable_sides (bk : OrderBook) (pool : OrderPool) (index : OrderMap) (side : OrderSide)
    (t : PriceLevelTable PriceLevel)
    : ({ bk with pool := pool, index := index }.setTable side t).sides = (bk.setTable side t).sides := by
  unfold setTable
  split
  . rfl
  . rfl

theorem setTable_pool (bk : OrderBook) (side : OrderSide) (t : PriceLevelTable PriceLevel)
    : (bk.setTable side t).pool = bk.pool :=
  congrArg OrderStore.pool (setTable_store bk side t)

variable {bk : OrderBook} {pool : OrderPool} {idx : Nat}

theorem add_storage (ha : bk.pool.allocate = some (idx, pool)) (ref : Nat) (side : OrderSide) (price : Int)
    (shares seq : Nat) {head : Nat}
    (hhead : (((bk.table side).access price).1.slots ((bk.table side).access price).2).lvl.headIdx = head)
    (hne : head ≠ idx) (i : Nat)
    : ((bk.add ref side price shares seq).1.pool.storage i) =
        if i = idx then
          { bk.pool.storage idx with
            orderRef := ref, side := side, price := price, shares := shares, remaining := shares,
            sequence := seq, prevIdx := noIdx, nextIdx := head }
        else
          { bk.pool.storage i with
            prevIdx := if head ≠ noIdx ∧ i = head then idx else (bk.pool.storage i).prevIdx } := by
  -- The slot of a new order is linked to the old head of its level, and of the other slots the old head only is
  -- written.
  unfold add
  rw [ha]
  dsimp only
  rw [setTable_pool]
  dsimp only
  rw [linkFront_storage, OrderPool.modify_storage, OrderPool.allocate_storage ha, hhead]
  split
  . next hi =>
    rw [hi, if_neg (fun h => hne h.2.symm)]
    split
    . rfl
    . next hgone =>
      have hnone : head = noIdx := by
        by_contra hsome
        exact hgone ⟨hsome, rfl⟩
      rw [hnone]
  . next hi =>
    have hold : ¬ (head ≠ noIdx ∧ i = idx) := fun h => hi h.2
    rw [if_neg hold]

theorem add_sides (ha : bk.pool.allocate = some (idx, pool)) (ref : Nat) (side : OrderSide) (price : Int)
    (shares seq : Nat)
    : ∃ f : PriceLevel → PriceLevel, (∀ lvl, (f lvl).headIdx = idx) ∧
        (bk.add ref side price shares seq).1.sides =
          (bk.setTable side
            (((bk.table side).access price).1.modifyLvl ((bk.table side).access price).2 f)).sides := by
  unfold add
  rw [ha]
  dsimp only
  rw [setTable_sides]
  exact ⟨_, fun _ => rfl, rfl⟩

theorem unlinkAndFree_storage (bk : OrderBook) (idx i : Nat)
    : ∃ free, (bk.unlinkAndFree idx).pool.storage i =
        let s := bk.pool.storage idx
        { bk.pool.storage i with
          nextIdx := if s.prevIdx ≠ noIdx ∧ i = s.prevIdx then s.nextIdx else (bk.pool.storage i).nextIdx
          prevIdx := if s.nextIdx ≠ noIdx ∧ i = s.nextIdx then s.prevIdx else (bk.pool.storage i).prevIdx
          poolNextFree := free } := by
  unfold unlinkAndFree
  dsimp only
  rw [setTable_pool]
  unfold OrderPool.deallocate
  dsimp only
  by_cases hi : i = idx
  . subst hi
    rw [Function.update_self, unlinkSlot_storage]
    exact ⟨_, rfl⟩
  . rw [Function.update_of_ne hi, unlinkSlot_storage]
    exact ⟨_, rfl⟩

theorem unlinkAndFree_sides (bk : OrderBook) (idx : Nat)
    : let s := bk.pool.storage idx
      let r := (bk.table s.side).access s.price
      ∃ (lvl : PriceLevel) (t : PriceLevelTable PriceLevel),
        lvl.headIdx = (if s.prevIdx = noIdx then s.nextIdx else (r.1.slots r.2).lvl.headIdx) ∧
          (t = (r.1.modifyLvl r.2 (fun _ => lvl)).erase s.price ∨ t = r.1.modifyLvl r.2 (fun _ => lvl)) ∧
          (bk.unlinkAndFree idx).sides = (bk.setTable s.side t).sides := by
  intro s r
  have hhead := unlinkSlot_headIdx bk.pool (r.1.slots r.2).lvl idx
  unfold unlinkAndFree
  dsimp only
  change _ = if s.prevIdx = noIdx then _ else _ at hhead
  generalize unlinkSlot bk.pool (r.1.slots r.2).lvl idx = u at hhead ⊢
  refine ⟨{ u.2 with count := sub32 u.2.count 1, totalQty := sub32 u.2.totalQty s.shares }, _, hhead, ?_,
    setTable_sides bk _ bk.index _ _⟩
  split
  . exact Or.inl rfl
  . exact Or.inr rfl

theorem decLevelQty_sides (bk : OrderBook) (pool : OrderPool) (side : OrderSide) (price : Int) (shares : Nat)
    : ∃ t : PriceLevelTable PriceLevel,
        (t = (((bk.table side).access price).1.modifyLvl ((bk.table side).access price).2
            (fun lvl => { lvl with totalQty := sub32 lvl.totalQty shares })).erase price ∨
          t = ((bk.table side).access price).1.modifyLvl ((bk.table side).access price).2
            (fun lvl => { lvl with totalQty := sub32 lvl.totalQty shares })) ∧
        ({ bk with pool := pool }.decLevelQty side price shares).sides = (bk.setTable side t).sides := by
  have htable : { bk with pool := pool }.table side = bk.table side := rfl
  unfold decLevelQty
  rw [htable]
  dsimp only
  refine ⟨_, ?_, setTable_sides bk pool bk.index side _⟩
  split
  . exact Or.inl rfl
  . exact Or.inr rfl

end OrderBook

namespace SharedBooks

variable {B : Type} [DecidableEq B] {home : Nat → B} {s : SharedBooks B} {b : B} {bk bk' : OrderBook}

@[simp]
theorem book_put (s : SharedBooks B) (b : B) (bk : OrderBook) : (s.put b bk).book b = bk := by
  unfold book put
  dsimp only
  rw [Function.update_self]
  rfl

theorem put_put (s : SharedBooks B) (b : B) (bk bk' : OrderBook) : (s.put b bk).put b bk' = s.put b bk' := by
  unfold put
  rw [Function.update_idem]

theorem put_book (s : SharedBooks B) (b : B) : s.put b (s.book b) = s := by
  have hsides : (s.book b).sides = s.books b := rfl
  unfold put
  rw [hsides, Function.update_eq_self]
  rfl

omit [DecidableEq B] in
theorem table_eq_half (s : SharedBooks B) (b : B) (side : OrderSide)
    : (s.book b).table side = (s.books b).half side.isBuy := by
  unfold OrderBook.table BookSides.half OrderSide.isBuy
  cases side with
  | BUY => rfl
  | SELL => rfl
  | NONE => rfl

/--
What every call keeps. The order of a slot that the index leads to has the reference it was found under.
-/
structure Kept (home : Nat → B) (s : SharedBooks B) : Prop where
  tidy : ∃ pl, s.store.Tidy pl
  named : ∀ ref, ∀ i ∈ s.store.index.entries ref, (s.store.pool.storage i).orderRef = ref
  priced : ∀ i, s.store.pool.Allocated i → PriceLevelTable.Usable (s.store.pool.storage i).price
  steady : ∀ b buy, ((s.books b).half buy).Steady
  linked : (s.links home).WellLinked noIdx

section Put

variable {t' : PriceLevelTable PriceLevel} {side : OrderSide} {price : Int} {head : Nat}

theorem setTable_half (bk : OrderBook) (side : OrderSide) (t' : PriceLevelTable PriceLevel) (buy : Bool)
    : (bk.setTable side t').sides.half buy = if buy = side.isBuy then t' else bk.sides.half buy := by
  unfold OrderBook.setTable BookSides.half OrderBook.sides OrderSide.isBuy
  cases side with
  | BUY =>
    cases buy with
    | true => simp
    | false => simp
  | SELL =>
    cases buy with
    | true => simp
    | false => simp
  | NONE =>
    cases buy with
    | true => simp
    | false => simp

theorem half_put (hsides : bk'.sides = ((s.book b).setTable side t').sides) (b' : B) (buy : Bool)
    : ((s.put b bk').books b').half buy = if b' = b ∧ buy = side.isBuy then t' else (s.books b').half buy := by
  unfold put
  dsimp only
  by_cases hb : b' = b
  . subst hb
    rw [Function.update_self, hsides, setTable_half]
    by_cases hbuy : buy = side.isBuy
    . rw [if_pos hbuy, if_pos ⟨rfl, hbuy⟩]
    . rw [if_neg hbuy, if_neg (fun h => hbuy h.2)]
      rfl
  . rw [Function.update_of_ne hb, if_neg (fun h => hb h.1)]

variable (hsides : bk'.sides = ((s.book b).setTable side t').sides)
  (h : Reheaded ((s.book b).table side) t' price head)

include hsides h

theorem steady_put (hs : ∀ b buy, ((s.books b).half buy).Steady) (b' : B) (buy : Bool)
    : (((s.put b bk').books b').half buy).Steady := by
  rw [half_put hsides]
  split
  . exact h.steady
  . exact hs b' buy

theorem head_put (home : Nat → B) (hprice : price ≠ PriceLevelTable.kTombstone) (k : LevelKey B)
    : ((s.put b bk').links home).head k =
        (if k = ⟨b, side.isBuy, price⟩ then head else (s.links home).head k) ∨
      ((s.put b bk').links home).head k = noIdx := by
  -- The heads after a call at one level of a book: the level has the head `head`, and any level may be gone.
  unfold links
  dsimp only
  rw [half_put hsides]
  by_cases hk : k = ⟨b, side.isBuy, price⟩
  . subst hk
    dsimp only
    rw [if_neg hprice, if_pos ⟨rfl, rfl⟩, if_pos rfl]
    exact h.self
  . rw [if_neg hk]
    split
    . exact Or.inl rfl
    . next hkt =>
      split
      . next hkb =>
        obtain ⟨hb, hbuy⟩ := hkb
        have hkp : k.price ≠ price := by
          intro heq
          apply hk
          rw [← hb, ← hbuy, ← heq]
        have hother := h.other k.price hkt hkp
        rw [table_eq_half, ← hb, ← hbuy] at hother
        exact hother
      . exact Or.inl rfl

end Put

section Enter

/--
A free slot of the pool was taken for an order and became the head of a list.
-/
structure Enters (s : SharedBooks B) (p : OrderPool) (idx ref : Nat) (side : OrderSide) (price : Int) (head : Nat)
    : Prop where
  dead : ¬ s.store.pool.Allocated idx
  alive : ∀ i, p.Allocated i ↔ i = idx ∨ s.store.pool.Allocated i
  orderRef : (p.storage idx).orderRef = ref
  side : (p.storage idx).side = side
  price : (p.storage idx).price = price
  next : (p.storage idx).nextIdx = head
  prev : (p.storage idx).prevIdx = noIdx
  other : ∀ i, s.store.pool.Allocated i → p.storage i =
    { s.store.pool.storage i with
      prevIdx := if head ≠ noIdx ∧ i = head then idx else (s.store.pool.storage i).prevIdx }

theorem Enters.forgets {p : OrderPool} {idx ref head : Nat} {side : OrderSide} {price : Int}
    (h : s.Enters p idx ref side price head) (hstop : ¬ s.store.pool.Allocated noIdx) (hbk : bk'.pool = p)
    (hb : home ref = b) (hhead : (s.links home).head ⟨b, side.isBuy, price⟩ = head)
    (hheads : ∀ k, ((s.put b bk').links home).head k =
        (if k = ⟨b, side.isBuy, price⟩ then idx else (s.links home).head k) ∨
      ((s.put b bk').links home).head k = noIdx)
    : Links.Forgets noIdx ((s.links home).push noIdx idx ⟨b, side.isBuy, price⟩) ((s.put b bk').links home) := by
  have hpool : (s.put b bk').store.pool = p := hbk
  have hne : ∀ i, s.store.pool.Allocated i → i ≠ idx := by
    intro i hi heq
    rw [heq] at hi
    exact h.dead hi
  constructor
  . intro i
    unfold links
    dsimp only
    rw [hpool]
    exact h.alive i
  . intro i hi
    unfold links Links.push
    dsimp only
    rw [hpool]
    cases hi with
    | inl hi => rw [hi, Function.update_self, h.orderRef, h.side, h.price, hb]
    | inr hi => rw [Function.update_of_ne (hne i hi), h.other i hi]
  . intro i hi
    unfold Links.push
    rw [hhead]
    unfold links
    dsimp only
    rw [hpool]
    cases hi with
    | inl hi => rw [hi, Function.update_self, h.next]
    | inr hi => rw [Function.update_of_ne (hne i hi), h.other i hi]
  . intro i hi
    unfold Links.push
    rw [hhead]
    unfold links
    dsimp only
    rw [hpool]
    cases hi with
    | inl hi => rw [hi, if_pos rfl, h.prev]
    | inr hi =>
      rw [if_neg (hne i hi), h.other i hi]
      dsimp only
      by_cases hih : i = head
      . have hlive : head ≠ noIdx := by
          intro hnone
          rw [hih, hnone] at hi
          exact hstop hi
        rw [if_pos ⟨hlive, hih⟩, if_pos hih]
      . rw [if_neg (fun hand => hih hand.2), if_neg hih]
  . intro k
    have hk := hheads k
    unfold Links.push
    dsimp only
    rw [Function.update_apply]
    exact hk

omit [DecidableEq B] in
theorem Enters.named {p : OrderPool} {idx ref head : Nat} {side : OrderSide} {price : Int}
    (h : s.Enters p idx ref side price head) (hs : Kept home s) {r i : Nat}
    (hi : i ∈ (s.store.index.insert ref idx).entries r) : (p.storage i).orderRef = r := by
  obtain ⟨pl, htidy⟩ := hs.tidy
  obtain ⟨il, hwf⟩ := htidy.wf
  cases hwf.insert_mem hi with
  | inl heq => rw [heq.1, heq.2, h.orderRef]
  | inr hold =>
    have htaken := htidy.taken r i hold
    rw [h.other i (htidy.allocated_iff.2 ⟨htaken.2, htaken.1⟩)]
    exact hs.named r i hold

omit [DecidableEq B] in
theorem Enters.priced {p : OrderPool} {idx ref head : Nat} {side : OrderSide} {price : Int}
    (h : s.Enters p idx ref side price head) (hs : Kept home s) (hprice : PriceLevelTable.Usable price) {i : Nat}
    (hi : p.Allocated i) : PriceLevelTable.Usable (p.storage i).price := by
  cases (h.alive i).1 hi with
  | inl hidx =>
    rw [hidx, h.price]
    exact hprice
  | inr hi =>
    rw [h.other i hi]
    exact hs.priced i hi

omit [DecidableEq B] in
theorem Kept.level_head (h : Kept home s) (b : B) (side : OrderSide) {price : Int}
    (hprice : PriceLevelTable.Usable price)
    : ((((s.book b).table side).access price).1.slots (((s.book b).table side).access price).2).lvl.headIdx =
        (s.links home).head ⟨b, side.isBuy, price⟩ := by
  have hsteady := h.steady b side.isBuy
  rw [← table_eq_half] at hsteady
  rw [(hsteady.access hprice).lvl, table_eq_half]
  exact (if_neg hprice.2.2).symm

omit [DecidableEq B] in
theorem Kept.enters (h : Kept home s) {idx : Nat} {pool : OrderPool} (ha : (s.book b).pool.allocate = some (idx, pool))
    (ref : Nat) (side : OrderSide) {price : Int} (hprice : PriceLevelTable.Usable price) (shares seq : Nat)
    : s.store.Entered ((s.book b).add ref side price shares seq).1.store ref idx ∧
      s.Enters ((s.book b).add ref side price shares seq).1.pool idx ref side price
        ((s.links home).head ⟨b, side.isBuy, price⟩) := by
  have hentered : s.store.Entered ((s.book b).add ref side price shares seq).1.store ref idx := by
    have halloc : (s.book b).store.pool.allocate = some (idx, pool) := ha
    cases (s.book b).add_entered ref side price shares seq with
    | inl hfull =>
      have hnone := hfull.1
      rw [halloc] at hnone
      cases hnone
    | inr hex =>
      obtain ⟨idx', pool', ha', hrest⟩ := hex
      rw [halloc] at ha'
      cases ha'
      exact ⟨pool, halloc, hrest⟩
  refine ⟨hentered, ?_⟩
  obtain ⟨pl, htidy⟩ := h.tidy
  obtain ⟨hdead, hstop, halive⟩ := htidy.allocated_entered hentered
  have hne : (s.links home).head ⟨b, side.isBuy, price⟩ ≠ idx := by
    intro heq
    have hlinked := h.linked.head ⟨b, side.isBuy, price⟩
    rw [heq] at hlinked
    exact hdead (hlinked hstop).1
  have hstorage := OrderBook.add_storage ha ref side price shares seq (h.level_head b side hprice) hne
  have hself := hstorage idx
  rw [if_pos rfl] at hself
  refine ⟨hdead, halive, ?_, ?_, ?_, ?_, ?_, ?_⟩
  . rw [hself]
  . rw [hself]
  . rw [hself]
  . rw [hself]
  . rw [hself]
  . intro i hi
    have hidx : i ≠ idx := by
      intro heq
      rw [heq] at hi
      exact hdead hi
    exact (hstorage i).trans (if_neg hidx)

theorem Kept.add (h : Kept home s) {ref : Nat} (hb : home ref = b) {price : Int}
    (hprice : PriceLevelTable.Usable price) (side : OrderSide) (shares seq : Nat)
    : Kept home (s.put b ((s.book b).add ref side price shares seq).1) ∧
      (s.book b).add? ref side price shares seq = some ((s.book b).add ref side price shares seq) := by
  cases ha : (s.book b).pool.allocate with
  | none =>
    refine ⟨?_, OrderBook.add?_eq_none ha ..⟩
    have hnone : (s.book b).add ref side price shares seq = (s.book b, noIdx) := by
      unfold OrderBook.add
      rw [ha]
    rw [hnone, put_book]
    exact h
  | some r =>
    obtain ⟨idx, pool⟩ := r
    obtain ⟨pl, htidy⟩ := h.tidy
    obtain ⟨hentered, henters⟩ := h.enters ha ref side hprice shares seq
    obtain ⟨f, hf, hsides⟩ := OrderBook.add_sides ha ref side price shares seq
    have hsteady := h.steady b side.isBuy
    rw [← table_eq_half] at hsteady
    have hreheaded := Reheaded.write hsteady hprice f (hf _)
    constructor
    . constructor
      . obtain ⟨pl', _, htidy'⟩ := htidy.entered hentered
        exact ⟨pl', htidy'⟩
      . intro r i hi
        obtain ⟨_, _, _, hindex⟩ := hentered
        exact henters.named h (hindex ▸ hi)
      . intro i hi
        exact henters.priced h hprice hi
      . exact steady_put hsides hreheaded h.steady
      . have hheads := head_put hsides hreheaded home hprice.2.2
        have hstop := (htidy.allocated_entered hentered).2.1
        apply (h.linked.push henters.dead hstop ⟨b, side.isBuy, price⟩).forgets
        exact henters.forgets htidy.noIdx_free rfl hb rfl hheads
    . have hsame : pool.SameBut pool idx := ⟨fun _ _ => rfl, rfl, rfl, fun _ hfree => hfree⟩
      have htook : s.store.Entered { pool := pool, index := s.store.index.insert ref idx } ref idx :=
        ⟨pool, ha, hsame, rfl⟩
      have htaken := (htidy.allocated_entered htook).2.2
      apply OrderBook.add?_eq ha
      . exact (htaken idx).2 (Or.inl rfl)
      . intro hne
        rw [h.level_head b side hprice] at hne ⊢
        exact (htaken _).2 (Or.inr (h.linked.head _ hne).1)

end Enter

section Leave

variable {ref x : Nat}

/--
A slot was taken out of its list and given back to the pool.
-/
structure Leaves (s : SharedBooks B) (p : OrderPool) (x : Nat) : Prop where
  alive : ∀ i, p.Allocated i ↔ s.store.pool.Allocated i ∧ i ≠ x
  orderRef : ∀ i, (p.storage i).orderRef = (s.store.pool.storage i).orderRef
  side : ∀ i, (p.storage i).side = (s.store.pool.storage i).side
  price : ∀ i, (p.storage i).price = (s.store.pool.storage i).price
  next : ∀ i, (p.storage i).nextIdx =
    if (s.store.pool.storage x).prevIdx ≠ noIdx ∧ i = (s.store.pool.storage x).prevIdx then
      (s.store.pool.storage x).nextIdx
    else
      (s.store.pool.storage i).nextIdx
  prev : ∀ i, (p.storage i).prevIdx =
    if (s.store.pool.storage x).nextIdx ≠ noIdx ∧ i = (s.store.pool.storage x).nextIdx then
      (s.store.pool.storage x).prevIdx
    else
      (s.store.pool.storage i).prevIdx

theorem Leaves.forgets {p : OrderPool} (h : s.Leaves p x) (hbk : bk'.pool = p)
    (hheads : ∀ k, ((s.put b bk').links home).head k =
        (if k = (s.links home).tag x then
          if (s.store.pool.storage x).prevIdx = noIdx then
            (s.store.pool.storage x).nextIdx
          else
            (s.links home).head ((s.links home).tag x)
        else
          (s.links home).head k) ∨
      ((s.put b bk').links home).head k = noIdx)
    : Links.Forgets noIdx ((s.links home).unlink noIdx x) ((s.put b bk').links home) := by
  have hpool : (s.put b bk').store.pool = p := hbk
  constructor
  . intro i
    unfold links
    dsimp only
    rw [hpool]
    exact h.alive i
  . intro i _
    unfold links Links.unlink
    dsimp only
    rw [hpool, h.orderRef, h.side, h.price]
  . intro i _
    unfold links Links.unlink
    dsimp only
    rw [hpool, h.next]
  . intro i _
    unfold links Links.unlink
    dsimp only
    rw [hpool, h.prev]
  . intro k
    have hprev : (s.links home).prev x = (s.store.pool.storage x).prevIdx := rfl
    have hnext : (s.links home).next x = (s.store.pool.storage x).nextIdx := rfl
    have hk := hheads k
    unfold Links.unlink
    dsimp only
    rw [hprev, hnext]
    split
    . next hp =>
      rw [if_pos hp] at hk
      rw [Function.update_apply]
      exact hk
    . next hp =>
      rw [if_neg hp] at hk
      split at hk
      . next heq =>
        rw [heq]
        rw [heq] at hk
        exact hk
      . exact hk

omit [DecidableEq B] in
theorem Kept.slot_tag (h : Kept home s) (hx : s.store.index.find ref = some x)
    : (s.links home).tag x =
        ⟨home ref, (s.store.pool.storage x).side.isBuy, (s.store.pool.storage x).price⟩ := by
  obtain ⟨pl, htidy⟩ := h.tidy
  unfold links
  dsimp only
  rw [h.named ref x (htidy.mem_of_find hx)]

omit [DecidableEq B] in
theorem leaves_unlinkAndFree
    (halive : ∀ i, ((s.book b).unlinkAndFree x).pool.Allocated i ↔ s.store.pool.Allocated i ∧ i ≠ x)
    : s.Leaves ((s.book b).unlinkAndFree x).pool x := by
  have hstorage := (s.book b).unlinkAndFree_storage x
  refine ⟨halive, ?_, ?_, ?_, ?_, ?_⟩
  . intro i
    obtain ⟨free, hslot⟩ := hstorage i
    rw [hslot]
    rfl
  . intro i
    obtain ⟨free, hslot⟩ := hstorage i
    rw [hslot]
    rfl
  . intro i
    obtain ⟨free, hslot⟩ := hstorage i
    rw [hslot]
    rfl
  . intro i
    obtain ⟨free, hslot⟩ := hstorage i
    rw [hslot]
    rfl
  . intro i
    obtain ⟨free, hslot⟩ := hstorage i
    rw [hslot]
    rfl

theorem Kept.drop (h : Kept home s) (hb : home ref = b) (hx : s.store.index.find ref = some x)
    : Kept home (s.put b { (s.book b).unlinkAndFree x with index := ((s.book b).unlinkAndFree x).index.erase ref }) ∧
      (s.book b).unlinkAndFree? x = some ((s.book b).unlinkAndFree x) := by
  obtain ⟨pl, htidy⟩ := h.tidy
  have hdropped := (s.book b).unlinkAndFree_dropped x ref
  have hlive := htidy.allocated_of_find hx
  have hprice := h.priced x hlive
  have hleaves := s.leaves_unlinkAndFree (b := b) (htidy.allocated_dropped hx hdropped)
  have htag := h.slot_tag hx
  obtain ⟨lvl, t', hlvl, ht', hsides⟩ := (s.book b).unlinkAndFree_sides x
  have hpool : (s.book b).pool = s.store.pool := rfl
  rw [hpool] at hlvl ht' hsides
  rw [h.level_head b _ hprice, ← hb, ← htag] at hlvl
  have hreheaded : Reheaded ((s.book b).table (s.store.pool.storage x).side) t' (s.store.pool.storage x).price
      lvl.headIdx := by
    have hsteady := h.steady b (s.store.pool.storage x).side.isBuy
    rw [← table_eq_half] at hsteady
    exact (Reheaded.write hsteady hprice (fun _ => lvl) rfl).erase_or hprice ht'
  constructor
  . constructor
    . exact ⟨_, htidy.dropped hx hdropped⟩
    . intro r i hi
      have hentries := htidy.entries_dropped hdropped
      have hold : i ∈ s.store.index.entries r := by
        by_cases hr : r = ref
        . rw [hr] at hi ⊢
          exact List.mem_of_mem_tail (hentries.2.1 ▸ hi)
        . exact hentries.2.2 r hr ▸ hi
      exact (hleaves.orderRef i).trans (h.named r i hold)
    . intro i hi
      have hold := h.priced i ((hleaves.alive i).1 hi).1
      rw [← hleaves.price i] at hold
      exact hold
    . exact steady_put hsides hreheaded h.steady
    . apply (h.linked.unlink hlive).forgets
      apply hleaves.forgets rfl
      have hheads := head_put hsides hreheaded home hprice.2.2
      rw [← hb, ← htag, hlvl] at hheads
      rw [← hb]
      exact hheads
  . apply OrderBook.unlinkAndFree?_eq hlive
    . intro hne
      exact (h.linked.prev x hlive hne).1
    . intro hne
      exact (h.linked.next x hlive hne).1

def shrunk (bk : OrderBook) (x shares : Nat) : OrderBook :=
  { bk with
    pool := bk.pool.modify x (fun slot => { slot with remaining := slot.remaining - shares })
  }.decLevelQty (bk.pool.storage x).side (bk.pool.storage x).price shares

/--
The pools differ in what remains of an order only.
-/
structure Writes (p p' : OrderPool) : Prop where
  alive : ∀ i, p'.Allocated i ↔ p.Allocated i
  orderRef : ∀ i, (p'.storage i).orderRef = (p.storage i).orderRef
  side : ∀ i, (p'.storage i).side = (p.storage i).side
  price : ∀ i, (p'.storage i).price = (p.storage i).price
  next : ∀ i, (p'.storage i).nextIdx = (p.storage i).nextIdx
  prev : ∀ i, (p'.storage i).prevIdx = (p.storage i).prevIdx

theorem writes_shrunk (bk : OrderBook) (x shares : Nat) : Writes bk.pool (shrunk bk x shares).pool := by
  have hpool : (shrunk bk x shares).pool =
      bk.pool.modify x (fun slot => { slot with remaining := slot.remaining - shares }) := by
    unfold shrunk OrderBook.decLevelQty
    exact OrderBook.setTable_pool ..
  have hfield : ∀ {γ : Type} (g : OrderSlot → γ), (∀ slot n, g { slot with remaining := n } = g slot) → ∀ i,
      g ((shrunk bk x shares).pool.storage i) = g (bk.pool.storage i) := by
    intro γ g hg i
    rw [hpool]
    apply OrderPool.modify_storage_field
    intro slot
    exact hg slot _
  constructor
  . intro i
    rw [hpool]
    apply OrderPool.allocated_modify
    intro slot
    rfl
  . exact hfield (·.orderRef) (fun _ _ => rfl)
  . exact hfield (·.side) (fun _ _ => rfl)
  . exact hfield (·.price) (fun _ _ => rfl)
  . exact hfield (·.nextIdx) (fun _ _ => rfl)
  . exact hfield (·.prevIdx) (fun _ _ => rfl)

theorem shrunk_written (bk : OrderBook) (x shares : Nat) : bk.store.Written (shrunk bk x shares).store x := by
  have hstore : (shrunk bk x shares).store =
      ⟨bk.pool.modify x (fun slot => { slot with remaining := slot.remaining - shares }), bk.index⟩ := by
    unfold shrunk OrderBook.decLevelQty
    exact OrderBook.setTable_store ..
  have hmodify := OrderPool.SameBut.modify bk.pool x
    (fun slot => { slot with remaining := slot.remaining - shares }) (fun _ => rfl)
  rw [hstore]
  exact ⟨hmodify, rfl⟩

theorem Writes.forgets (h : Writes s.store.pool bk'.pool)
    (hheads : ∀ k, ((s.put b bk').links home).head k = (s.links home).head k ∨
      ((s.put b bk').links home).head k = noIdx)
    : Links.Forgets noIdx (s.links home) ((s.put b bk').links home) := by
  have hpool : (s.put b bk').store.pool = bk'.pool := rfl
  constructor
  . exact h.alive
  . intro i _
    unfold links
    dsimp only
    rw [hpool, h.orderRef, h.side, h.price]
  . intro i _
    exact h.next i
  . intro i _
    exact h.prev i
  . exact hheads

theorem Kept.shrink (h : Kept home s) (hb : home ref = b) (hx : s.store.index.find ref = some x) (shares : Nat)
    : Kept home (s.put b (shrunk (s.book b) x shares)) := by
  obtain ⟨pl, htidy⟩ := h.tidy
  have hlive := htidy.allocated_of_find hx
  have hprice := h.priced x hlive
  have hwrites := writes_shrunk (s.book b) x shares
  obtain ⟨t', ht', hsides⟩ := (s.book b).decLevelQty_sides
    (s.store.pool.modify x (fun slot => { slot with remaining := slot.remaining - shares }))
    (s.store.pool.storage x).side (s.store.pool.storage x).price shares
  have hreheaded : Reheaded ((s.book b).table (s.store.pool.storage x).side) t' (s.store.pool.storage x).price
      ((s.links home).head ((s.links home).tag x)) := by
    have hsteady := h.steady b (s.store.pool.storage x).side.isBuy
    rw [← table_eq_half] at hsteady
    have hhead := h.level_head b (s.store.pool.storage x).side hprice
    rw [(hsteady.access hprice).lvl, ← hb, ← h.slot_tag hx] at hhead
    have hwrite := Reheaded.write hsteady hprice (fun lvl => { lvl with totalQty := sub32 lvl.totalQty shares })
      (hb ▸ hhead)
    exact hwrite.erase_or hprice ht'
  have hwritten : s.store.Written (shrunk (s.book b) x shares).store x := shrunk_written (s.book b) x shares
  constructor
  . exact ⟨pl, htidy.written hwritten⟩
  . intro r i hi
    have hi' : i ∈ s.store.index.entries r := hwritten.2 ▸ hi
    exact (hwrites.orderRef i).trans (h.named r i hi')
  . intro i hi
    have hold := h.priced i ((hwrites.alive i).1 hi)
    rw [show s.store.pool = (s.book b).pool from rfl, ← hwrites.price i] at hold
    exact hold
  . exact steady_put hsides hreheaded h.steady
  . apply h.linked.forgets
    apply Writes.forgets hwrites
    intro k
    have hk := head_put hsides hreheaded home hprice.2.2 k
    rw [← hb, ← h.slot_tag hx] at hk
    rw [← hb]
    split at hk
    . next heq =>
      rw [heq] at hk ⊢
      exact hk
    . exact hk

theorem Kept.remove (h : Kept home s) (hb : home ref = b)
    : Kept home (s.put b ((s.book b).remove ref).1) ∧
      (s.book b).remove? ref = some ((s.book b).remove ref) := by
  unfold OrderBook.remove OrderBook.remove?
  cases hx : (s.book b).index.find ref with
  | none =>
    refine ⟨?_, rfl⟩
    rw [put_book]
    exact h
  | some x =>
    have hdrop := h.drop hb hx
    refine ⟨hdrop.1, ?_⟩
    dsimp only
    rw [hdrop.2]
    rfl

theorem Kept.reduce (h : Kept home s) (hb : home ref = b) (shares : Nat)
    : Kept home (s.put b ((s.book b).reduce ref shares).1) ∧
      (s.book b).reduce? ref shares = some ((s.book b).reduce ref shares) := by
  unfold OrderBook.reduce OrderBook.reduce?
  cases hx : (s.book b).index.find ref with
  | none =>
    refine ⟨?_, rfl⟩
    rw [put_book]
    exact h
  | some x =>
    obtain ⟨pl, htidy⟩ := h.tidy
    have hlive : (s.book b).pool.Allocated x := htidy.allocated_of_find hx
    simp only [OrderPool.at?_eq hlive, OrderPool.modify?_eq hlive, Option.bind_eq_bind, Option.bind_some]
    generalize (if shares > ((s.book b).pool.storage x).remaining then ((s.book b).pool.storage x).remaining
      else shares) = n
    have hshrunk := h.shrink hb hx n
    have hwritten := shrunk_written (s.book b) x n
    have hlive' := ((writes_shrunk (s.book b) x n).alive x).2 hlive
    unfold shrunk at hshrunk hwritten hlive'
    generalize OrderBook.decLevelQty _ _ _ n = bk at hshrunk hwritten hlive'
    rw [OrderPool.at?_eq hlive', Option.bind_some]
    split
    . -- the order is used up
      have hx' : (s.put b bk).store.index.find ref = some x := by
        rw [← hx]
        exact congrArg (fun ix => OrderMap.find ix ref) hwritten.2
      have hdrop := hshrunk.drop hb hx'
      rw [book_put, put_put] at hdrop
      rw [hdrop.2, Option.bind_some]
      exact ⟨hdrop.1, rfl⟩
    . exact ⟨hshrunk, rfl⟩

theorem Kept.replace (h : Kept home s) {newRef : Nat} (hb : home ref = b) (hb' : home newRef = b) {price : Int}
    (hprice : PriceLevelTable.Usable price) (side : OrderSide) (shares seq : Nat)
    : Kept home (s.put b ((s.book b).replace ref newRef side price shares seq).1) ∧
      (s.book b).replace? ref newRef side price shares seq =
        some ((s.book b).replace ref newRef side price shares seq) := by
  have hremove := h.remove hb
  unfold OrderBook.replace OrderBook.replace?
  cases hx : (s.book b).index.find ref with
  | none =>
    refine ⟨?_, rfl⟩
    rw [put_book]
    exact h
  | some x =>
    obtain ⟨pl, htidy⟩ := h.tidy
    have hlive : (s.book b).pool.Allocated x := htidy.allocated_of_find hx
    simp only [OrderPool.at?_eq hlive, hremove.2, Option.bind_eq_bind, Option.bind_some]
    generalize (if seq ≠ 0 then seq else ((s.book b).pool.storage x).sequence) = n
    have hadd := hremove.1.add hb' hprice side shares n
    rw [book_put, put_put] at hadd
    rw [hadd.2, Option.bind_some]
    exact ⟨hadd.1, rfl⟩

end Leave

theorem Kept.call (h : Kept home s) {c : OrderBook.Call} (hown : Own home b c)
    : Kept home (s.call b c) ∧ s.call? b c = some (s.call b c) := by
  obtain ⟨hrefs, hprices⟩ := hown
  unfold SharedBooks.call SharedBooks.call? OrderBook.call OrderBook.call?
  unfold OrderBook.Call.refs at hrefs
  unfold OrderBook.Call.prices at hprices
  cases c with
  | add ref side price shares seq =>
    have hadd := h.add (hrefs ref (by simp)) (hprices price (by simp)) side shares seq
    dsimp only
    rw [hadd.2]
    exact ⟨hadd.1, rfl⟩
  | remove ref =>
    have hremove := h.remove (hrefs ref (by simp))
    dsimp only
    rw [hremove.2]
    exact ⟨hremove.1, rfl⟩
  | cancel ref shares =>
    have hreduce := h.reduce (hrefs ref (by simp)) shares
    dsimp only
    rw [hreduce.2]
    exact ⟨hreduce.1, rfl⟩
  | execute ref shares =>
    have hreduce := h.reduce (hrefs ref (by simp)) shares
    dsimp only
    rw [hreduce.2]
    exact ⟨hreduce.1, rfl⟩
  | replace ref newRef side price shares seq =>
    have hreplace := h.replace (hrefs ref (by simp)) (hrefs newRef (by simp)) (hprices price (by simp)) side shares seq
    dsimp only
    rw [hreplace.2]
    exact ⟨hreplace.1, rfl⟩

omit [DecidableEq B] in
theorem Kept.init (home : Nat → B) {pool index : Nat} (h0 : 0 < pool) (h : pool ≤ noIdx) (h0' : 0 < index) (h' : index ≤ noIdx)
    : Kept home (init B pool index) := by
  have htidy : (SharedBooks.init B pool index).store.Tidy (List.range pool) := .init h0 h h0' h'
  have hnone : ∀ i, ¬ (SharedBooks.init B pool index).store.pool.Allocated i := by
    intro i hi
    rw [htidy.allocated_iff, List.mem_range] at hi
    exact hi.2 hi.1
  constructor
  . exact ⟨_, htidy⟩
  . intro ref i hi
    have hi' : i ∈ (OrderMap.init index).entries ref := hi
    rw [OrderMap.entries_init] at hi'
    cases hi'
  . intro i hi
    exact absurd hi (hnone i)
  . intro b buy
    cases buy with
    | true => exact PriceLevelTable.Steady.init true
    | false => exact PriceLevelTable.Steady.init false
  . constructor
    . exact hnone noIdx
    . intro i hi
      exact absurd hi (hnone i)
    . intro i hi
      exact absurd hi (hnone i)
    . intro k hk
      refine absurd ?_ hk
      unfold links
      dsimp only
      split
      . rfl
      . cases k.buy with
        | true => exact congrArg PriceLevel.headIdx (PriceLevelTable.level_init true k.price)
        | false => exact congrArg PriceLevel.headIdx (PriceLevelTable.level_init false k.price)

theorem Kept.run (h : Kept home s) {calls : List (B × OrderBook.Call)} (hown : ∀ e ∈ calls, Own home e.1 e.2)
    : Kept home (s.run calls) := by
  induction calls generalizing s with
  | nil => exact h
  | cons e calls ih =>
    have hnext := (h.call (hown e List.mem_cons_self)).1
    apply ih hnext
    intro e' he'
    exact hown e' (List.mem_cons_of_mem e he')

end SharedBooks

end NebulaXTrader
