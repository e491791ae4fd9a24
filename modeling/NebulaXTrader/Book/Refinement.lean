import NebulaXTrader.Book.Lemmas.Reference

/-!
This module contains the comparison of the order book with the reference book over whole sequences of
calls.
-/

namespace NebulaXTrader

open PriceLevelTable (Valid isPrice kEmpty kInt64Max)

namespace OrderBook

def callBoth (s : OrderBook × RefBook) (c : Call) : OrderBook × RefBook := (s.1.call c, s.2.call c)

def empty (capacity nodes : Nat) : OrderBook × RefBook :=
  (init (OrderPool.init capacity) (OrderMap.init nodes), [])

/--
A new order: its reference is not live, its shares are positive and fit in the total of its level, and
the pool and the index have room for it.
-/
def Enters (bk : OrderBook) (rb : RefBook) (ref : Nat) (side : OrderSide) (price : Int) (shares : Nat)
    : Prop :=
  rb.find ref = none ∧ 0 < shares ∧ rb.volumeAt side.isBuy price + shares < 2 ^ 32 ∧
    bk.HasRoom ref ∧ kEmpty ≤ price ∧ price ≤ kInt64Max

def Admissible (s : OrderBook × RefBook) (c : Call) : Prop :=
  match c with
  | .add ref side price shares _ => Enters s.1 s.2 ref side price shares
  | .remove _ => True
  | .cancel _ _ => True
  | .execute _ _ => True
  | .replace old new side price shares _ =>
    (s.2.find old).isSome → Enters (s.1.remove old).1 (s.2.remove old) new side price shares

/--
Taking the order out subtracts what the level still counts for it: nothing of it was cancelled or
executed before, or it is alone on its level.
-/
def LeavesClean (rb : RefBook) (v : OrderSlotView) : Prop :=
  v.remaining = v.shares ∨ rb.countAt v.side.isBuy v.price = 1

/--
The call neither subtracts shares twice from a level nor uses one of the two prices that the level
table reserves.
-/
def Clean (s : OrderBook × RefBook) (c : Call) : Prop :=
  match c with
  | .add _ _ price _ _ => isPrice price = true
  | .remove ref => ∀ v ∈ s.1.get ref, LeavesClean s.2 v
  | .cancel ref shares => ∀ v ∈ s.1.get ref, shares < v.remaining
  | .execute ref shares => ∀ v ∈ s.1.get ref, shares < v.remaining
  | .replace old _ _ price _ _ => ∀ v ∈ s.1.get old, LeavesClean s.2 v ∧ isPrice price = true

structure Answers (bk : OrderBook) (rb : RefBook) : Prop where
  bidVolumeAt : ∀ p, isPrice p = true → bk.bidVolumeAt p = rb.volumeAt true p
  askVolumeAt : ∀ p, isPrice p = true → bk.askVolumeAt p = rb.volumeAt false p
  bidLevels : bk.bidLevels = rb.levels true
  askLevels : bk.askLevels = rb.levels false
  bestBid : bk.bestBid = rb.best true
  bestAsk : bk.bestAsk = rb.best false
  bestBidVolume : bk.bestBidVolume = rb.bestVolume true
  bestAskVolume : bk.bestAskVolume = rb.bestVolume false
  get : ∀ ref, (bk.get ref).map OrderSlotView.toRef = rb.find ref
  sideOf : ∀ ref, bk.sideOf ref = rb.sideOf ref

section Decide

instance (bk : OrderBook) (rb : RefBook) (ref : Nat) (side : OrderSide) (price : Int) (shares : Nat)
    : Decidable (Enters bk rb ref side price shares) :=
  inferInstanceAs (Decidable (_ ∧ _ ∧ _ ∧ _ ∧ _ ∧ _))

instance (s : OrderBook × RefBook) (c : Call) : Decidable (Admissible s c) :=
  match c with
  | .add ref side price shares _ => inferInstanceAs (Decidable (Enters s.1 s.2 ref side price shares))
  | .remove _ => isTrue trivial
  | .cancel _ _ => isTrue trivial
  | .execute _ _ => isTrue trivial
  | .replace _ _ _ _ _ _ => inferInstanceAs (Decidable (_ → _))

instance (rb : RefBook) (v : OrderSlotView) : Decidable (LeavesClean rb v) :=
  inferInstanceAs (Decidable (_ ∨ _))

instance (s : OrderBook × RefBook) (c : Call) : Decidable (Clean s c) :=
  match c with
  | .add _ _ price _ _ => inferInstanceAs (Decidable (isPrice price = true))
  | .remove ref => inferInstanceAs (Decidable (∀ v ∈ s.1.get ref, LeavesClean s.2 v))
  | .cancel ref shares => inferInstanceAs (Decidable (∀ v ∈ s.1.get ref, shares < v.remaining))
  | .execute ref shares => inferInstanceAs (Decidable (∀ v ∈ s.1.get ref, shares < v.remaining))
  | .replace old _ _ price _ _ =>
    inferInstanceAs (Decidable (∀ v ∈ s.1.get old, LeavesClean s.2 v ∧ isPrice price = true))

end Decide

def Tied (s : OrderBook × RefBook) : Prop := ∃ lg, Sim s.1 lg ∧ Agrees lg s.2

theorem sideOf_eq_get (bk : OrderBook) (ref : Nat)
    : bk.sideOf ref = ((bk.get ref).map OrderSlotView.side).getD .NONE := by
  unfold sideOf get
  cases bk.index.find ref with
  | none => rfl
  | some s => rfl

theorem Tied.answers {s : OrderBook × RefBook} (h : Tied s) : Answers s.1 s.2 := by
  obtain ⟨lg, hsim, hag⟩ := h
  have hget : ∀ ref, (s.1.get ref).map OrderSlotView.toRef = s.2.find ref := by
    intro ref
    rw [hsim.get]
    exact hag.tracks.find ref
  constructor
  . intro p hp
    rw [hsim.bidVolumeAt, ← hag.volumeAt true hp]
    unfold Ledger.Sides.bidVolumeAt
    change _ = (lg.sides.bids.find p).elim 0 LevelQty.totalQty
    cases lg.sides.bids.find p with
    | none => rfl
    | some q => rfl
  . intro p hp
    rw [hsim.askVolumeAt, ← hag.volumeAt false hp]
    unfold Ledger.Sides.askVolumeAt
    change _ = (lg.sides.asks.find p).elim 0 LevelQty.totalQty
    cases lg.sides.asks.find p with
    | none => rfl
    | some q => rfl
  . exact hsim.bidLevels.trans (hag.levels true)
  . exact hsim.askLevels.trans (hag.levels false)
  . exact hsim.bestBid.trans (hag.best true)
  . exact hsim.bestAsk.trans (hag.best false)
  . exact hsim.bestBidVolume.trans (hag.bestVolume true)
  . exact hsim.bestAskVolume.trans (hag.bestVolume false)
  . exact hget
  . intro ref
    unfold RefBook.sideOf
    rw [← hget ref, sideOf_eq_get]
    cases s.1.get ref with
    | none => rfl
    | some v => rfl

theorem valid_of_isPrice {p : Int} (h : isPrice p = true) (hlo : kEmpty ≤ p) (hhi : p ≤ kInt64Max)
    : Valid p := by
  obtain ⟨h1, h2⟩ := PriceLevelTable.ne_of_isPrice h
  unfold Valid
  unfold kEmpty at h1 hlo
  unfold PriceLevelTable.kTombstone at h2 ⊢
  omega

theorem Tied.call {s : OrderBook × RefBook} {c : Call} (h : Tied s) (ha : Admissible s c)
    (hc : Clean s c) : Tied (callBoth s c) := by
  obtain ⟨lg, hsim, hag⟩ := h
  cases c with
  | add ref side price shares seq =>
    obtain ⟨hnew, hpos, hvol, hroom, hlo, hhi⟩ := ha
    have hp := valid_of_isPrice hc hlo hhi
    exact ⟨_, hsim.add ref side price shares seq (hag.tracks.find_none hnew) hroom,
      hag.add seq hnew hp hpos hvol⟩
  | remove ref =>
    apply Exists.intro (lg.remove ref)
    constructor
    . exact hsim.remove ref
    . apply hag.remove
      intro v hv
      exact hc v ((hsim.get ref).trans hv)
  | cancel ref shares =>
    apply Exists.intro (lg.reduce ref shares)
    constructor
    . exact hsim.reduce ref shares
    . apply hag.reduce
      intro v hv
      exact hc v ((hsim.get ref).trans hv)
  | execute ref shares =>
    apply Exists.intro (lg.reduce ref shares)
    constructor
    . exact hsim.reduce ref shares
    . apply hag.reduce
      intro v hv
      exact hc v ((hsim.get ref).trans hv)
  | replace old new side price shares seq =>
    have hlive : (lg.orders old).isSome → Enters (s.1.remove old).1 (s.2.remove old) new side price
        shares := by
      intro hv
      apply ha
      rw [← hag.tracks.find old, Option.isSome_map]
      exact hv
    have hclean : ∀ v, lg.orders old = some v → LeavesClean s.2 v ∧ isPrice price = true := by
      intro v hv
      exact hc v ((hsim.get old).trans hv)
    apply Exists.intro (lg.replace old new side price shares seq)
    constructor
    . apply hsim.replace
      intro hv
      obtain ⟨v, hv'⟩ := Option.isSome_iff_exists.1 hv
      obtain ⟨hnew, _, _, hroom, _⟩ := hlive hv
      constructor
      . exact (hag.tracks.remove old).find_none hnew
      . exact hroom
    . apply hag.replace
      intro v hv
      obtain ⟨hnew, hpos, hvol, _, hlo, hhi⟩ := hlive (by rw [hv]; rfl)
      exact ⟨(hclean v hv).1, hnew, valid_of_isPrice (hclean v hv).2 hlo hhi, hpos, hvol⟩

theorem Tied.empty {capacity nodes : Nat} (h0 : 0 < capacity) (h : capacity ≤ noIdx)
    (h0' : 0 < nodes) (h' : nodes ≤ noIdx) : Tied (OrderBook.empty capacity nodes) :=
  ⟨_, Sim.init (Stored.init h0 h h0' h'), Agrees.init⟩

theorem foldl_callBoth (s : OrderBook × RefBook) (calls : List Call)
    : calls.foldl callBoth s = (calls.foldl call s.1, calls.foldl RefBook.call s.2) := by
  induction calls generalizing s with
  | nil => rfl
  | cons c calls ih => exact ih (callBoth s c)

/--
The two books after every call of a sequence in which no call is a double subtraction.
-/
theorem refines_reference {capacity nodes : Nat} (h0 : 0 < capacity) (h : capacity ≤ noIdx)
    (h0' : 2 ≤ nodes) (h' : nodes ≤ 2 ^ 31) (calls : List Call)
    (ha : Run.Along (fun s c => some (callBoth s c)) Admissible (empty capacity nodes) calls)
    (hc : Run.Along (fun s c => some (callBoth s c)) Clean (empty capacity nodes) calls)
    : ∀ pre, pre <+: calls →
        Answers (pre.foldl call (init (OrderPool.init capacity) (OrderMap.init nodes)))
          (pre.foldl RefBook.call []) := by
  intro pre hpre
  obtain ⟨post, rfl⟩ := hpre
  have hrun := Run.exec_total callBoth (empty capacity nodes) pre
  have htied : Tied (pre.foldl callBoth (empty capacity nodes)) := by
    apply Run.exec_inv _ (Tied.empty h0 h (Nat.zero_lt_of_lt h0') (OrderMap.le_noIdx h')) (ha.append_left.and hc.append_left) hrun
    intro s c s' hs hgood hstep
    cases hstep
    exact hs.call hgood.1 hgood.2
  have hans := htied.answers
  rw [foldl_callBoth] at hans
  exact hans

theorem refines_reference_cancel
    : let calls := [.add 1 .BUY 1000 100 1, .add 2 .BUY 990 50 2, .cancel 1 40, .remove 1]
      Answers (calls.foldl call (init (OrderPool.init 4) (OrderMap.init 4))) (calls.foldl RefBook.call []) := by
  -- A partial cancel followed by the removal of the order that is alone on its level, next to an
  -- order that stays.
  intro calls
  apply refines_reference (by decide) (by decide) (by decide) (by decide) calls
  . decide +kernel
  . decide +kernel
  . exact List.prefix_refl calls

theorem not_refines_reference
    : ¬ ∀ capacity nodes : Nat, 0 < capacity → capacity ≤ noIdx → 2 ≤ nodes → nodes ≤ 2 ^ 31 →
        ∀ calls : List Call,
          Run.Along (fun s c => some (callBoth s c)) Admissible (empty capacity nodes) calls →
          ∀ pre, pre <+: calls →
            Answers (pre.foldl call (init (OrderPool.init capacity) (OrderMap.init nodes)))
              (pre.foldl RefBook.call []) := by
  -- A full execution leaves a level without orders behind.
  intro h
  have hans := h 4 4 (by decide) (by decide) (by decide) (by decide)
    [.add 1 .BUY 1000 100 1, .execute 1 100] (by decide +kernel) _ (List.prefix_refl _)
  have hlevels := hans.bidLevels
  revert hlevels
  decide +kernel

end OrderBook

end NebulaXTrader
