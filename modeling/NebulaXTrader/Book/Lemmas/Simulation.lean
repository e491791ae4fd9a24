import NebulaXTrader.Book.Lemmas.Ledger
import NebulaXTrader.Book.Lemmas.Store

/-!
This module contains the proof that the ledger simulates the order book, and that the two give the same
answers.
-/

namespace NebulaXTrader

structure Sim (bk : OrderBook) (lg : Ledger) : Prop where
  stored : Stored bk.pool bk.index lg.orders
  bids : bk.bids.mapLvl PriceLevel.qty = lg.sides.bids
  asks : bk.asks.mapLvl PriceLevel.qty = lg.sides.asks

def OrderBook.HasRoom (bk : OrderBook) (ref : Nat) : Prop :=
  bk.pool.allocate.isSome ∧ ¬ bk.index.Drops ref

instance (bk : OrderBook) (ref : Nat) : Decidable (bk.HasRoom ref) :=
  inferInstanceAs (Decidable (_ ∧ _))

namespace Sim

variable {bk : OrderBook} {lg : Ledger}

theorem table (h : Sim bk lg) (side : OrderSide)
    : (bk.table side).mapLvl PriceLevel.qty = lg.sides.table side := by
  unfold OrderBook.table Ledger.Sides.table
  split
  . exact h.bids
  . exact h.asks

theorem setTable (h : Sim bk lg) {pool : OrderPool} {index : OrderMap}
    {orders : Nat → Option OrderSlotView} (hst : Stored pool index orders) (side : OrderSide)
    {t : PriceLevelTable PriceLevel} {t' : PriceLevelTable LevelQty}
    (ht : t.mapLvl PriceLevel.qty = t')
    : Sim ({ bk with pool := pool, index := index }.setTable side t)
        { orders := orders, sides := lg.sides.setTable side t' } := by
  unfold OrderBook.setTable Ledger.Sides.setTable
  split
  . exact ⟨hst, ht, h.asks⟩
  . exact ⟨hst, h.bids, ht⟩

theorem init {p : OrderPool} {ix : OrderMap} (h : Stored p ix (fun _ => none))
    : Sim (OrderBook.init p ix) { orders := fun _ => none, sides := Ledger.Sides.init } :=
  ⟨h, rfl, rfl⟩

theorem access (h : Sim bk lg) (side : OrderSide) (p : Int)
    : (lg.sides.table side).access p =
      (((bk.table side).access p).1.mapLvl PriceLevel.qty, ((bk.table side).access p).2) := by
  rw [← h.table side]
  apply PriceLevelTable.mapLvl_access
  rfl

theorem add (h : Sim bk lg) (ref : Nat) (side : OrderSide) (p : Int) (shares seq : Nat)
    (hnew : lg.orders ref = none) (hroom : bk.HasRoom ref)
    : Sim (bk.add ref side p shares seq).1 (lg.add ref side p shares seq) := by
  obtain ⟨⟨idx, pool⟩, ha⟩ := Option.isSome_iff_exists.1 hroom.1
  unfold OrderBook.add Ledger.add Ledger.Sides.enter PriceLevelTable.enter
  rw [ha, h.access side p]
  apply h.setTable
  . apply Stored.relink _ (OrderPool.Relinks.linkFront _ _ _)
    apply h.stored.insert hnew ha hroom.2
    . intro s
      rfl
    . rfl
    . intro s
      rfl
  . apply PriceLevelTable.mapLvl_modifyLvl
    rfl

theorem setTable_withIndex (bk : OrderBook) (side : OrderSide) (t : PriceLevelTable PriceLevel)
    (index : OrderMap)
    : { bk.setTable side t with index := index } = { bk with index := index }.setTable side t := by
  unfold OrderBook.setTable
  split
  . rfl
  . rfl

@[simp]
theorem setTable_pool (bk : OrderBook) (side : OrderSide) (t : PriceLevelTable PriceLevel)
    : (bk.setTable side t).pool = bk.pool := by
  unfold OrderBook.setTable
  split
  . rfl
  . rfl

@[simp]
theorem setTable_index (bk : OrderBook) (side : OrderSide) (t : PriceLevelTable PriceLevel)
    : (bk.setTable side t).index = bk.index := by
  unfold OrderBook.setTable
  split
  . rfl
  . rfl

theorem unlinkAndFree_index (bk : OrderBook) (s : Nat)
    : (bk.unlinkAndFree s).index = bk.index := setTable_index _ _ _

theorem unlinkAndFree (h : Sim bk lg) {ref s : Nat} (he : bk.index.entries ref = [s])
    {v : OrderSlotView} (hv : (bk.pool.storage s).view = v)
    : Sim { bk.unlinkAndFree s with index := bk.index.erase ref }
        { orders := Function.update lg.orders ref none
          sides := lg.sides.leave v.side v.price v.shares } := by
  have heq : ∃ p, bk.pool.Relinks p ∧ ∃ lvl : PriceLevel,
      lvl.qty = (((bk.table v.side).access v.price).1.slots
        ((bk.table v.side).access v.price).2).lvl.qty ∧
      bk.unlinkAndFree s = { bk with pool := p.deallocate s }.setTable v.side
        (let lvl := { lvl with count := sub32 lvl.count 1, totalQty := sub32 lvl.totalQty v.shares }
         let t := ((bk.table v.side).access v.price).1.modifyLvl
           ((bk.table v.side).access v.price).2 (fun _ => lvl)
         if lvl.count = 0 then t.erase v.price else t) := by
    subst hv
    exact ⟨_, OrderPool.Relinks.unlinkSlot _ _ _, _, OrderBook.unlinkSlot_qty _ _ _, rfl⟩
  obtain ⟨p, hp, lvl, hlvl, heq⟩ := heq
  rw [heq, setTable_withIndex]
  unfold Ledger.Sides.leave PriceLevelTable.leave
  rw [h.access v.side v.price]
  apply h.setTable
  . apply (h.stored.relink hp).delete he
  . have hm := PriceLevelTable.mapLvl_modifyLvl (f := PriceLevel.qty)
      ((bk.table v.side).access v.price).1 ((bk.table v.side).access v.price).2
      (fun _ => { lvl with count := sub32 lvl.count 1, totalQty := sub32 lvl.totalQty v.shares })
      (fun _ => { count := sub32 lvl.qty.count 1, totalQty := sub32 lvl.qty.totalQty v.shares }) rfl
    simp only [PriceLevelTable.mapLvl_lvl, ← hlvl]
    rw [← hm]
    apply PriceLevelTable.mapLvl_eraseIf
    exact Iff.rfl

theorem remove (h : Sim bk lg) (ref : Nat) : Sim (bk.remove ref).1 (lg.remove ref) := by
  unfold OrderBook.remove Ledger.remove
  cases hr : lg.orders ref with
  | none =>
    rw [h.stored.find_none hr]
    exact h
  | some v =>
    obtain ⟨s, hs, he, hv⟩ := h.stored.find_some hr
    rw [hs]
    simp only [unlinkAndFree_index]
    exact h.unlinkAndFree he hv

theorem decLevelQty (h : Sim bk lg) (side : OrderSide) (p : Int) (shares : Nat)
    : Sim (bk.decLevelQty side p shares)
        { lg with sides := lg.sides.decLevelQty side p shares } := by
  unfold OrderBook.decLevelQty Ledger.Sides.decLevelQty PriceLevelTable.decLevelQty
  rw [h.access side p]
  apply h.setTable h.stored
  have hm := PriceLevelTable.mapLvl_modifyLvl (f := PriceLevel.qty)
    ((bk.table side).access p).1 ((bk.table side).access p).2
    (fun lvl => { lvl with totalQty := sub32 lvl.totalQty shares })
    (fun q => { q with totalQty := sub32 q.totalQty shares }) rfl
  dsimp only
  rw [← hm]
  apply PriceLevelTable.mapLvl_eraseIf
  exact Iff.rfl

theorem reduce (h : Sim bk lg) (ref shares : Nat)
    : Sim (bk.reduce ref shares).1 (lg.reduce ref shares) := by
  cases hr : lg.orders ref with
  | none =>
    unfold OrderBook.reduce Ledger.reduce
    rw [h.stored.find_none hr, hr]
    exact h
  | some v =>
    obtain ⟨s, hs, he, hv⟩ := h.stored.find_some hr
    have hrem : (bk.pool.storage s).remaining = v.remaining := congrArg OrderSlotView.remaining hv
    have hside : (bk.pool.storage s).side = v.side := congrArg OrderSlotView.side hv
    have hprice : (bk.pool.storage s).price = v.price := congrArg OrderSlotView.price hv
    unfold OrderBook.reduce Ledger.reduce
    rw [hs, hr]
    simp only [hrem, hside, hprice]
    generalize (if shares > v.remaining then v.remaining else shares) = n
    generalize hw : { v with remaining := v.remaining - n } = w
    have hself : ((bk.pool.modify s
        (fun slot => { slot with remaining := slot.remaining - n })).storage s).view = w := by
      rw [OrderPool.modify_storage_self, ← hw, ← hv]
      rfl
    have hst : Stored
        (bk.pool.modify s (fun slot => { slot with remaining := slot.remaining - n })) bk.index
        (Function.update lg.orders ref (some w)) := by
      apply h.stored.write he
      . rw [← hself, OrderPool.modify_storage_self]
      . rw [← hw]
        exact h.stored.ref ref v hr
      . intro slot
        rfl
    generalize bk.pool.modify s (fun slot => { slot with remaining := slot.remaining - n }) = p at *
    have hsim : Sim { bk with pool := p }
        { lg with orders := Function.update lg.orders ref (some w) } :=
      ⟨hst, h.bids, h.asks⟩
    have hdec := hsim.decLevelQty v.side v.price n
    have hpool : ({ bk with pool := p }.decLevelQty v.side v.price n).pool = p :=
      setTable_pool _ _ _
    have hindex : ({ bk with pool := p }.decLevelQty v.side v.price n).index = bk.index :=
      setTable_index _ _ _
    have hrem' : (p.storage s).remaining = w.remaining := congrArg OrderSlotView.remaining hself
    have hws : v.side = w.side := by rw [← hw]
    have hwp : v.price = w.price := by rw [← hw]
    have hwr : v.remaining - n = w.remaining := by rw [← hw]
    rw [hpool, hrem', hwr]
    rw [hws, hwp] at hdec hpool hindex ⊢
    generalize OrderBook.decLevelQty _ w.side w.price n = bk' at *
    by_cases h0 : w.remaining = 0
    . rw [if_pos h0, if_pos h0]
      unfold Ledger.remove
      simp only [Function.update_self, unlinkAndFree_index]
      apply hdec.unlinkAndFree
      . rw [hindex]
        exact he
      . rw [hpool]
        exact hself
    . rw [if_neg h0, if_neg h0]
      exact hdec

theorem replace (h : Sim bk lg) (ref new : Nat) (side : OrderSide) (p : Int) (shares seq : Nat)
    (hnew : (lg.orders ref).isSome → (lg.remove ref).orders new = none ∧
      (bk.remove ref).1.HasRoom new)
    : Sim (bk.replace ref new side p shares seq).1 (lg.replace ref new side p shares seq) := by
  unfold OrderBook.replace Ledger.replace
  cases hr : lg.orders ref with
  | none =>
    rw [h.stored.find_none hr]
    exact h
  | some v =>
    obtain ⟨s, hs, _, hv⟩ := h.stored.find_some hr
    have hseq : (bk.pool.storage s).sequence = v.sequence := congrArg OrderSlotView.sequence hv
    rw [hs]
    simp only [hseq]
    rw [hr] at hnew
    apply (h.remove ref).add
    . exact (hnew rfl).1
    . exact (hnew rfl).2

section Answers

theorem get (h : Sim bk lg) (ref : Nat) : bk.get ref = lg.orders ref := by
  unfold OrderBook.get
  cases hr : lg.orders ref with
  | none =>
    rw [h.stored.find_none hr]
    rfl
  | some v =>
    obtain ⟨s, hs, _, hv⟩ := h.stored.find_some hr
    rw [hs, ← hv]
    rfl

theorem bestBid (h : Sim bk lg) : bk.bestBid = lg.sides.bestBid := by
  unfold OrderBook.bestBid Ledger.Sides.bestBid
  rw [← h.bids]
  rfl

theorem bestAsk (h : Sim bk lg) : bk.bestAsk = lg.sides.bestAsk := by
  unfold OrderBook.bestAsk Ledger.Sides.bestAsk
  rw [← h.asks]
  rfl

theorem bidLevels (h : Sim bk lg) : bk.bidLevels = lg.sides.bids.size := by
  rw [← h.bids]
  rfl

theorem askLevels (h : Sim bk lg) : bk.askLevels = lg.sides.asks.size := by
  rw [← h.asks]
  rfl

theorem bidVolumeAt (h : Sim bk lg) (p : Int) : bk.bidVolumeAt p = lg.sides.bidVolumeAt p := by
  unfold OrderBook.bidVolumeAt Ledger.Sides.bidVolumeAt
  rw [← h.bids, PriceLevelTable.mapLvl_find]
  cases bk.bids.find p with
  | none => rfl
  | some lvl => rfl

theorem askVolumeAt (h : Sim bk lg) (p : Int) : bk.askVolumeAt p = lg.sides.askVolumeAt p := by
  unfold OrderBook.askVolumeAt Ledger.Sides.askVolumeAt
  rw [← h.asks, PriceLevelTable.mapLvl_find]
  cases bk.asks.find p with
  | none => rfl
  | some lvl => rfl

theorem bestBidVolume (h : Sim bk lg) : bk.bestBidVolume = lg.sides.bestBidVolume := by
  unfold Ledger.Sides.bestBidVolume
  rw [← h.bids, PriceLevelTable.mapLvl_bestQty]
  rfl

theorem bestAskVolume (h : Sim bk lg) : bk.bestAskVolume = lg.sides.bestAskVolume := by
  unfold Ledger.Sides.bestAskVolume
  rw [← h.asks, PriceLevelTable.mapLvl_bestQty]
  rfl

end Answers

end Sim

end NebulaXTrader
