import NebulaXTrader.Book.Reference
import NebulaXTrader.Market.SlotBijection

/-!
This module contains the calls of an order book with every access to the order pool checked: they have a result if no
index leads to a slot that is free or outside the pool.
-/

namespace NebulaXTrader

namespace OrderPool

variable (p : OrderPool)

instance (idx : Nat) : Decidable (p.Allocated idx) := inferInstanceAs (Decidable (_ ∧ _))

def at? (idx : Nat) : Option OrderSlot :=
  if p.Allocated idx then some (p.storage idx) else none

def modify? (idx : Nat) (f : OrderSlot → OrderSlot) : Option OrderPool :=
  if p.Allocated idx then some (p.modify idx f) else none

def deallocate? (idx : Nat) : Option OrderPool :=
  if p.Allocated idx then some (p.deallocate idx) else none

end OrderPool

namespace OrderBook

def linkFront? (pool : OrderPool) (lvl : PriceLevel) (idx : Nat) : Option OrderPool :=
  if lvl.headIdx ≠ noIdx then do
    let pool ← pool.modify? lvl.headIdx (fun s => { s with prevIdx := idx })
    pool.modify? idx (fun s => { s with nextIdx := lvl.headIdx })
  else
    some pool

def add? (bk : OrderBook) (orderRef : Nat) (side : OrderSide) (price : Int) (shares sequence : Nat)
    : Option (OrderBook × Nat) :=
  match bk.pool.allocate with
  | none => some (bk, noIdx)
  | some (idx, pool) => do
    let pool ← pool.modify? idx (fun s =>
      { s with
        orderRef := orderRef
        side := side
        price := price
        shares := shares
        remaining := shares
        sequence := sequence
        prevIdx := noIdx
        nextIdx := noIdx })
    let (t, i) := (bk.table side).access price
    let pool ← linkFront? pool (t.slots i).lvl idx
    let t := t.modifyLvl i (fun lvl =>
      { headIdx := idx
        tailIdx := if lvl.tailIdx = noIdx then idx else lvl.tailIdx
        count := add32 lvl.count 1
        totalQty := add32 lvl.totalQty shares })
    let index := bk.index.insert orderRef idx
    some ({ bk with pool := pool, index := index }.setTable side t, idx)

def unlinkSlot? (pool : OrderPool) (lvl : PriceLevel) (idx : Nat) : Option (OrderPool × PriceLevel) := do
  let s ← pool.at? idx
  let (pool, lvl) ←
    if s.prevIdx ≠ noIdx then
      (pool.modify? s.prevIdx (fun p => { p with nextIdx := s.nextIdx })).map (·, lvl)
    else
      some (pool, { lvl with headIdx := s.nextIdx })
  let s ← pool.at? idx
  if s.nextIdx ≠ noIdx then
    (pool.modify? s.nextIdx (fun n => { n with prevIdx := s.prevIdx })).map (·, lvl)
  else
    some (pool, { lvl with tailIdx := s.prevIdx })

def unlinkAndFree? (bk : OrderBook) (idx : Nat) : Option OrderBook := do
  let s ← bk.pool.at? idx
  let (t, i) := (bk.table s.side).access s.price
  let (pool, lvl) ← unlinkSlot? bk.pool (t.slots i).lvl idx
  let lvl := { lvl with count := sub32 lvl.count 1, totalQty := sub32 lvl.totalQty s.shares }
  let t := t.modifyLvl i (fun _ => lvl)
  let t := if lvl.count = 0 then t.erase s.price else t
  let pool ← pool.deallocate? idx
  some ({ bk with pool := pool }.setTable s.side t)

def remove? (bk : OrderBook) (orderRef : Nat) : Option (OrderBook × Bool) :=
  match bk.index.find orderRef with
  | none => some (bk, false)
  | some s => do
    let bk ← bk.unlinkAndFree? s
    some ({ bk with index := bk.index.erase orderRef }, true)

def reduce? (bk : OrderBook) (orderRef shares : Nat) : Option (OrderBook × Bool) :=
  match bk.index.find orderRef with
  | none => some (bk, false)
  | some s => do
    let slot ← bk.pool.at? s
    let shares := if shares > slot.remaining then slot.remaining else shares
    let pool ← bk.pool.modify? s (fun slot => { slot with remaining := slot.remaining - shares })
    let bk := { bk with pool := pool }.decLevelQty slot.side slot.price shares
    let slot ← bk.pool.at? s
    if slot.remaining = 0 then do
      let bk ← bk.unlinkAndFree? s
      some ({ bk with index := bk.index.erase orderRef }, true)
    else
      some (bk, true)

def replace? (bk : OrderBook) (oldRef newRef : Nat) (side : OrderSide) (newPrice : Int)
    (newShares newSequence : Nat) : Option (OrderBook × Bool) :=
  match bk.index.find oldRef with
  | none => some (bk, false)
  | some s => do
    let slot ← bk.pool.at? s
    let seq := if newSequence ≠ 0 then newSequence else slot.sequence
    let (bk, _) ← bk.remove? oldRef
    let (bk, idx) ← bk.add? newRef side newPrice newShares seq
    some (bk, idx ≠ noIdx)

def call? (bk : OrderBook) (c : Call) : Option OrderBook :=
  match c with
  | .add orderRef side price shares sequence => (bk.add? orderRef side price shares sequence).map Prod.fst
  | .remove orderRef => (bk.remove? orderRef).map Prod.fst
  | .cancel orderRef shares => (bk.reduce? orderRef shares).map Prod.fst
  | .execute orderRef shares => (bk.reduce? orderRef shares).map Prod.fst
  | .replace oldRef newRef side price shares sequence =>
    (bk.replace? oldRef newRef side price shares sequence).map Prod.fst

end OrderBook

namespace OrderPool

variable {p : OrderPool} {idx i : Nat} {f : OrderSlot → OrderSlot}

theorem allocated_congr {p' : OrderPool} (hnext : ∀ j, (p'.storage j).poolNextFree = (p.storage j).poolNextFree)
    (hcap : p'.capacity = p.capacity) (hhead : p'.freeHead = p.freeHead)
    : p'.Allocated i ↔ p.Allocated i := by
  have hfun : p'.nextFree = p.nextFree := funext hnext
  unfold Allocated freeList
  rw [hfun, hcap, hhead]

theorem allocated_modify (hf : ∀ s, (f s).poolNextFree = s.poolNextFree)
    : (p.modify idx f).Allocated i ↔ p.Allocated i := by
  apply allocated_congr
  . exact modify_storage_field p idx f (·.poolNextFree) hf
  . rfl
  . rfl

theorem modify_storage (p : OrderPool) (idx : Nat) (f : OrderSlot → OrderSlot) (i : Nat)
    : (p.modify idx f).storage i = if i = idx then f (p.storage i) else p.storage i := by
  split
  . next h => rw [h, modify_storage_self]
  . next h => rw [modify_storage_of_ne p idx f h]

theorem at?_eq (h : p.Allocated idx) : p.at? idx = some (p.storage idx) := if_pos h

theorem modify?_eq (h : p.Allocated idx) : p.modify? idx f = some (p.modify idx f) := if_pos h

theorem deallocate?_eq (h : p.Allocated idx) : p.deallocate? idx = some (p.deallocate idx) := if_pos h

end OrderPool

namespace OrderBook

variable {pool : OrderPool} {lvl : PriceLevel} {idx i : Nat}

theorem linkFront?_eq (hidx : pool.Allocated idx) (hhead : lvl.headIdx ≠ noIdx → pool.Allocated lvl.headIdx)
    : linkFront? pool lvl idx = some (linkFront pool lvl idx) := by
  unfold linkFront? linkFront
  split
  . next hne =>
    rw [OrderPool.modify?_eq (hhead hne), Option.bind_eq_bind, Option.bind_some, OrderPool.modify?_eq]
    rw [OrderPool.allocated_modify]
    . exact hidx
    . intro s
      rfl
  . rfl

theorem reread (pool : OrderPool) (idx : Nat)
    : ((pool.modify (pool.storage idx).prevIdx
          (fun p => { p with nextIdx := (pool.storage idx).nextIdx })).storage idx) = pool.storage idx := by
  -- The slot itself is not changed by the first write, or it is its own predecessor and is written with its own
  -- link.
  by_cases hself : idx = (pool.storage idx).prevIdx
  . rw [← hself, OrderPool.modify_storage_self]
  . rw [OrderPool.modify_storage_of_ne _ _ _ hself]

theorem unlinkSlot?_eq (hidx : pool.Allocated idx)
    (hprev : (pool.storage idx).prevIdx ≠ noIdx → pool.Allocated (pool.storage idx).prevIdx)
    (hnext : (pool.storage idx).nextIdx ≠ noIdx → pool.Allocated (pool.storage idx).nextIdx)
    : unlinkSlot? pool lvl idx = some (unlinkSlot pool lvl idx) := by
  have hkeep : ∀ i, (pool.modify (pool.storage idx).prevIdx
      (fun p => { p with nextIdx := (pool.storage idx).nextIdx })).Allocated i ↔ pool.Allocated i := by
    intro i
    apply OrderPool.allocated_modify
    intro s
    rfl
  unfold unlinkSlot? unlinkSlot
  simp only [OrderPool.at?_eq hidx, Option.bind_eq_bind, Option.bind_some]
  by_cases hp : (pool.storage idx).prevIdx = noIdx
  . simp only [hp, ne_eq, not_true_eq_false, if_false]
    split
    . next hn => rw [OrderPool.modify?_eq (hnext hn), Option.map_some]
    . rfl
  . simp only [hp, ne_eq, not_false_eq_true, if_true, OrderPool.modify?_eq (hprev hp), Option.map_some,
      Option.bind_some, OrderPool.at?_eq ((hkeep idx).2 hidx), reread]
    split
    . next hn => rw [OrderPool.modify?_eq ((hkeep _).2 (hnext hn)), Option.map_some]
    . rfl

theorem unlinkSlot_storage (pool : OrderPool) (lvl : PriceLevel) (idx i : Nat)
    : (unlinkSlot pool lvl idx).1.storage i =
        let s := pool.storage idx
        { pool.storage i with
          nextIdx := if s.prevIdx ≠ noIdx ∧ i = s.prevIdx then s.nextIdx else (pool.storage i).nextIdx
          prevIdx := if s.nextIdx ≠ noIdx ∧ i = s.nextIdx then s.prevIdx else (pool.storage i).prevIdx } := by
  unfold unlinkSlot
  dsimp only
  by_cases hp : (pool.storage idx).prevIdx = noIdx
  . simp only [hp, ne_eq, not_true_eq_false, false_and, if_false]
    split
    . next hn =>
      rw [OrderPool.modify_storage]
      simp only [hn, not_false_eq_true, true_and]
      split
      . rfl
      . rfl
    . next hn => simp only [hn, false_and, if_false]
  . simp only [hp, ne_eq, not_false_eq_true, true_and, if_true, reread]
    split
    . next hn =>
      rw [OrderPool.modify_storage, OrderPool.modify_storage]
      simp only [hn, not_false_eq_true, true_and]
      split
      . split
        . rfl
        . rfl
      . split
        . rfl
        . rfl
    . next hn =>
      rw [OrderPool.modify_storage]
      simp only [hn, false_and, if_false]
      split
      . rfl
      . rfl

theorem unlinkSlot_headIdx (pool : OrderPool) (lvl : PriceLevel) (idx : Nat)
    : (unlinkSlot pool lvl idx).2.headIdx =
        if (pool.storage idx).prevIdx = noIdx then (pool.storage idx).nextIdx else lvl.headIdx := by
  unfold unlinkSlot
  dsimp only
  by_cases hp : (pool.storage idx).prevIdx = noIdx
  . simp only [hp, ne_eq, not_true_eq_false, if_false, if_true]
    split
    . rfl
    . rfl
  . simp only [hp, ne_eq, not_false_eq_true, if_true, if_false]
    split
    . rfl
    . rfl

theorem unlinkSlot_free (pool : OrderPool) (lvl : PriceLevel) (idx : Nat)
    : (unlinkSlot pool lvl idx).1.capacity = pool.capacity ∧ (unlinkSlot pool lvl idx).1.freeHead = pool.freeHead := by
  have hif : ∀ (c : Prop) [Decidable c] (q : OrderPool) (j : Nat) (f : OrderSlot → OrderSlot) (l l' : PriceLevel),
      (if c then (q.modify j f, l) else (q, l')).1.capacity = q.capacity ∧
        (if c then (q.modify j f, l) else (q, l')).1.freeHead = q.freeHead := by
    intro c _ q j f l l'
    split
    . exact ⟨rfl, rfl⟩
    . exact ⟨rfl, rfl⟩
  unfold unlinkSlot
  dsimp only
  rw [(hif _ _ _ _ _ _).1, (hif _ _ _ _ _ _).2]
  exact hif _ _ _ _ _ _

theorem unlinkSlot_allocated : (unlinkSlot pool lvl idx).1.Allocated i ↔ pool.Allocated i := by
  have hfree := unlinkSlot_free pool lvl idx
  apply OrderPool.allocated_congr
  . intro j
    rw [unlinkSlot_storage]
  . exact hfree.1
  . exact hfree.2

theorem unlinkAndFree?_eq {bk : OrderBook} (hidx : bk.pool.Allocated idx)
    (hprev : (bk.pool.storage idx).prevIdx ≠ noIdx → bk.pool.Allocated (bk.pool.storage idx).prevIdx)
    (hnext : (bk.pool.storage idx).nextIdx ≠ noIdx → bk.pool.Allocated (bk.pool.storage idx).nextIdx)
    : bk.unlinkAndFree? idx = some (bk.unlinkAndFree idx) := by
  unfold unlinkAndFree? unlinkAndFree
  simp only [OrderPool.at?_eq hidx, Option.bind_eq_bind, Option.bind_some, unlinkSlot?_eq hidx hprev hnext]
  rw [OrderPool.deallocate?_eq (unlinkSlot_allocated.2 hidx), Option.bind_some]

theorem linkFront_storage (pool : OrderPool) (lvl : PriceLevel) (idx i : Nat)
    : (linkFront pool lvl idx).storage i =
        { pool.storage i with
          nextIdx := if lvl.headIdx ≠ noIdx ∧ i = idx then lvl.headIdx else (pool.storage i).nextIdx
          prevIdx := if lvl.headIdx ≠ noIdx ∧ i = lvl.headIdx then idx else (pool.storage i).prevIdx } := by
  unfold linkFront
  split
  . next hne =>
    rw [OrderPool.modify_storage, OrderPool.modify_storage]
    simp only [hne, ne_eq, not_false_eq_true, true_and]
    split
    . split
      . rfl
      . rfl
    . split
      . rfl
      . rfl
  . next hne => simp only [hne, false_and, if_false]

theorem add?_eq_none {bk : OrderBook} (ha : bk.pool.allocate = none) (ref : Nat) (side : OrderSide) (price : Int)
    (shares seq : Nat) : bk.add? ref side price shares seq = some (bk.add ref side price shares seq) := by
  unfold add? add
  rw [ha]

theorem add?_eq {bk : OrderBook} (ha : bk.pool.allocate = some (idx, pool)) (hidx : pool.Allocated idx)
    {side : OrderSide} {price : Int}
    (hhead : (((bk.table side).access price).1.slots ((bk.table side).access price).2).lvl.headIdx ≠ noIdx →
      pool.Allocated (((bk.table side).access price).1.slots ((bk.table side).access price).2).lvl.headIdx)
    (ref shares seq : Nat) : bk.add? ref side price shares seq = some (bk.add ref side price shares seq) := by
  unfold add? add
  rw [ha]
  dsimp only
  rw [OrderPool.modify?_eq hidx, Option.bind_eq_bind, Option.bind_some]
  rw [linkFront?_eq, Option.bind_some]
  . rw [OrderPool.allocated_modify]
    . exact hidx
    . intro s
      rfl
  . intro hne
    rw [OrderPool.allocated_modify]
    . exact hhead hne
    . intro s
      rfl

end OrderBook

end NebulaXTrader
