import NebulaXTrader.Book.Ledger
import NebulaXTrader.Book.Lemmas.OrderMap
import NebulaXTrader.Book.Lemmas.PriceLevelTable

/-!
This module contains the proof that forgetting a part of the levels of a table commutes with all of its
operations.
-/

namespace NebulaXTrader

namespace PriceLevelTable

variable {β γ : Type} {f : β → γ} (t : PriceLevelTable β) (p : Int)

@[simp]
theorem map_price (s : Slot β) : (s.map f).price = s.price := rfl

@[simp]
theorem mapLvl_price (i : Nat) : ((t.mapLvl f).slots i).price = (t.slots i).price := rfl

@[simp]
theorem mapLvl_lvl (i : Nat) : ((t.mapLvl f).slots i).lvl = f (t.slots i).lvl := rfl

@[simp]
theorem mapLvl_isBid : (t.mapLvl f).isBid = t.isBid := rfl

@[simp]
theorem mapLvl_best : (t.mapLvl f).best = t.best := rfl

@[simp]
theorem mapLvl_isEmpty : (t.mapLvl f).isEmpty = t.isEmpty := rfl

@[simp]
theorem mapLvl_search : (t.mapLvl f).search p = t.search p := rfl

@[simp]
theorem mapLvl_freeSlot : (t.mapLvl f).freeSlot p = t.freeSlot p := rfl

theorem mapLvl_find : (t.mapLvl f).find p = (t.find p).map f := by
  unfold find
  rw [mapLvl_search]
  split
  . next i _ =>
    rw [mapLvl_price, mapLvl_lvl]
    by_cases h : (t.slots i).price = p
    . rw [if_pos h, if_pos h]
      rfl
    . rw [if_neg h, if_neg h]
      rfl
  . rfl

theorem mapLvl_bestQty (qty : γ → Nat) : (t.mapLvl f).bestQty qty = t.bestQty (qty ∘ f) := by
  unfold bestQty
  rw [mapLvl_isEmpty, mapLvl_best, mapLvl_find]
  split
  . rfl
  . cases t.find t.best with
    | none => rfl
    | some lvl => rfl

theorem map_update (slots : Nat → Slot β) (i : Nat) (s : Slot β)
    : (fun j => (Function.update slots i s j).map f) =
      Function.update (fun j => (slots j).map f) i (s.map f) := by
  funext j
  by_cases h : j = i
  . subst h
    simp
  . simp [h]

theorem mapLvl_raiseBest : (t.raiseBest p).mapLvl f = (t.mapLvl f).raiseBest p := by
  unfold raiseBest
  rw [mapLvl_isBid, mapLvl_best]
  by_cases h : better t.isBid p t.best
  . rw [if_pos h, if_pos h]
    rfl
  . rw [if_neg h, if_neg h]

theorem mapLvl_bury (i : Nat) : (t.bury i).mapLvl f = (t.mapLvl f).bury i := by
  unfold bury mapLvl
  rw [map_update]
  rfl

theorem mapLvl_erase : (t.erase p).mapLvl f = (t.mapLvl f).erase p := by
  have hrescan : ∀ i, (t.bury i).rescanBest.mapLvl f = ((t.mapLvl f).bury i).rescanBest := by
    intro i
    rw [← mapLvl_bury]
    rfl
  unfold erase
  rw [mapLvl_search]
  split
  . next i _ =>
    rw [mapLvl_price, mapLvl_best]
    by_cases hp : (t.slots i).price = p
    . rw [if_pos hp, if_pos hp]
      by_cases hb : p = t.best
      . simp only [hb, if_true]
        exact hrescan i
      . simp only [hb, if_false]
        exact mapLvl_bury t i
    . rw [if_neg hp, if_neg hp]
  . rfl

theorem mapLvl_eraseIf {c c' : Prop} [Decidable c] [Decidable c'] (h : c ↔ c')
    : (if c then t.erase p else t).mapLvl f =
      if c' then (t.mapLvl f).erase p else t.mapLvl f := by
  by_cases hc : c
  . rw [if_pos hc, if_pos (h.1 hc), mapLvl_erase]
  . rw [if_neg hc, if_neg (fun hc' => hc (h.2 hc'))]

theorem mapLvl_modifyLvl (i : Nat) (g : β → β) (g' : γ → γ)
    (hg : f (g (t.slots i).lvl) = g' (f (t.slots i).lvl))
    : (t.modifyLvl i g).mapLvl f = (t.mapLvl f).modifyLvl i g' := by
  unfold modifyLvl
  unfold mapLvl
  rw [map_update]
  simp only [Slot.map, hg]

theorem scan_map (cap i : Nat) (slots : Nat → Slot β)
    : Probe.scan (fun j => decide (((slots j).map f).price = kEmpty)) cap cap i =
      Probe.scan (fun j => decide ((slots j).price = kEmpty)) cap cap i := rfl

theorem mapLvl_rehash (cap : Nat) (slots : Nat → Slot β) (s : Slot β)
    : (fun j => (rehash cap slots s j).map f) =
      rehash cap (fun j => (slots j).map f) (s.map f) := by
  unfold rehash
  rw [map_price, scan_map]
  cases Probe.scan (fun i => decide ((slots i).price = kEmpty)) cap cap (probe cap s.price) with
  | some j => exact map_update slots j s
  | none => rfl

section Insert

variable [Inhabited β] [Inhabited γ]

theorem mapLvl_place (hf : f default = default) (i : Nat)
    : (t.place p i).mapLvl f = (t.mapLvl f).place p i := by
  unfold place
  rw [mapLvl_raiseBest]
  congr 1
  unfold mapLvl
  rw [map_update]
  simp only [Slot.map, hf]

theorem mapLvl_grow (hf : f default = default) : t.grow.mapLvl f = (t.mapLvl f).grow := by
  have key : ∀ (l : List Nat) (ns : Nat → Slot β),
      (fun j => (l.foldl (fun ns i => if isPrice (t.slots i).price then
          rehash (t.cap * 2) ns (t.slots i) else ns) ns j).map f) =
      l.foldl (fun ns i => if isPrice ((t.slots i).map f).price then
          rehash (t.cap * 2) ns ((t.slots i).map f) else ns) (fun j => (ns j).map f) := by
    intro l
    induction l with
    | nil =>
      intro ns
      rfl
    | cons i l ih =>
      intro ns
      rw [List.foldl_cons, List.foldl_cons, ih]
      congr 1
      by_cases h : isPrice (t.slots i).price
      . rw [if_pos h, mapLvl_rehash]
        exact (if_pos h).symm
      . rw [if_neg h]
        exact (if_neg h).symm
  unfold grow
  unfold mapLvl
  rw [key]
  simp only [Slot.map, hf]

theorem mapLvl_access (hf : f default = default)
    : (t.mapLvl f).access p = ((t.access p).1.mapLvl f, (t.access p).2) := by
  unfold access
  rw [mapLvl_search]
  split
  . next i _ =>
    rw [mapLvl_price]
    by_cases h : (t.slots i).price = p
    . rw [if_pos h, if_pos h, mapLvl_raiseBest]
    . rw [if_neg h, if_neg h, mapLvl_freeSlot, mapLvl_place _ _ hf]
  . rw [← mapLvl_grow _ hf]
    dsimp only
    rw [mapLvl_freeSlot, mapLvl_place _ _ hf]

end Insert

theorem modifyLvl_lvl_self (i : Nat) (g : β → β)
    : ((t.modifyLvl i g).slots i).lvl = g (t.slots i).lvl := by
  simp [modifyLvl]

structure Updated (t t' : PriceLevelTable β) (p : Int) (lvl : Option β) : Prop where
  inv : t'.Inv
  isBid : t'.isBid = t.isBid
  self : t'.find p = lvl
  other : ∀ q, isPrice q = true → q ≠ p → t'.find q = t.find q

theorem Inv.write [Inhabited β] {t : PriceLevelTable β} {p : Int} (h : t.Inv) (hp : Valid p)
    (g : β → β)
    : Updated t ((t.access p).1.modifyLvl (t.access p).2 g) p
        (some (g ((t.find p).getD default))) := by
  have ha := h.access hp
  obtain ⟨hself, hother⟩ := ha.inv.modifyLvl_find ha.lt ha.price hp.isPrice g
  constructor
  . exact ha.inv.modifyLvl g
  . exact ha.isBid
  . rw [hself, ha.lvl]
  . intro q hq hne
    rw [hother q hq hne, ha.other q hq hne]

theorem Updated.eraseIf {t t' : PriceLevelTable β} {p : Int} {lvl : Option β} {c : Prop}
    [Decidable c] (h : Updated t t' p lvl) (hp : Valid p)
    : Updated t (if c then t'.erase p else t') p (if c then none else lvl) := by
  by_cases hc : c
  . rw [if_pos hc, if_pos hc]
    obtain ⟨hinv, hself, hother⟩ := h.inv.erase hp.isPrice
    constructor
    . exact hinv
    . rw [(erase_slots t' p).2.1]
      exact h.isBid
    . exact hself
    . intro q hq hne
      rw [hother q hq hne, h.other q hq hne]
  . rw [if_neg hc, if_neg hc]
    exact h

section LevelQty

variable {t : PriceLevelTable LevelQty} {p : Int} {q : LevelQty}

theorem Inv.enter (h : t.Inv) (hp : Valid p) (n : Nat)
    : Updated t (t.enter p n) p
        (some
          { count := add32 ((t.find p).getD default).count 1
            totalQty := add32 ((t.find p).getD default).totalQty n }) :=
  h.write hp (fun q => { count := add32 q.count 1, totalQty := add32 q.totalQty n })

theorem Inv.leave (h : t.Inv) (hp : Valid p) (hq : t.find p = some q) (n : Nat)
    : Updated t (t.leave p n) p
        (if sub32 q.count 1 = 0 then none else
          some { count := sub32 q.count 1, totalQty := sub32 q.totalQty n }) := by
  have hlvl := (h.access hp).lvl
  rw [hq, Option.getD_some] at hlvl
  unfold PriceLevelTable.leave
  simp only [hlvl]
  apply Updated.eraseIf _ hp
  exact h.write hp (fun _ => { count := sub32 q.count 1, totalQty := sub32 q.totalQty n })

theorem Inv.decLevelQty (h : t.Inv) (hp : Valid p) (hq : t.find p = some q) (n : Nat)
    : Updated t (t.decLevelQty p n) p
        (if sub32 q.totalQty n = 0 then none else
          some { q with totalQty := sub32 q.totalQty n }) := by
  have hlvl := (h.access hp).lvl
  rw [hq, Option.getD_some] at hlvl
  have hw := h.write hp (fun q => { q with totalQty := sub32 q.totalQty n })
  rw [hq, Option.getD_some] at hw
  have hslot : (((t.access p).1.modifyLvl (t.access p).2
      (fun q => { q with totalQty := sub32 q.totalQty n })).slots (t.access p).2).lvl =
      { q with totalQty := sub32 q.totalQty n } := by
    rw [modifyLvl_lvl_self, hlvl]
  unfold PriceLevelTable.decLevelQty
  simp only [hslot]
  exact hw.eraseIf hp

end LevelQty

end PriceLevelTable

namespace Ledger

def Sides.half (s : Sides) (buy : Bool) : PriceLevelTable LevelQty := if buy then s.bids else s.asks

theorem Sides.half_isBuy (s : Sides) (side : OrderSide) : s.half side.isBuy = s.table side := by
  cases side with
  | BUY => rfl
  | SELL => rfl
  | NONE => rfl

theorem Sides.half_setTable (s : Sides) (side : OrderSide) (buy : Bool)
    (t : PriceLevelTable LevelQty)
    : (s.setTable side t).half buy = if side.isBuy = buy then t else s.half buy := by
  cases side with
  | BUY =>
    cases buy with
    | true => rfl
    | false => rfl
  | SELL =>
    cases buy with
    | true => rfl
    | false => rfl
  | NONE =>
    cases buy with
    | true => rfl
    | false => rfl

end Ledger

end NebulaXTrader
