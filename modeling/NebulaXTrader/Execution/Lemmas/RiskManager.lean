import NebulaXTrader.Execution.RiskManager

/-!
This module contains the effect of fills and marks on the positions.
-/

namespace NebulaXTrader

namespace RiskManager

variable (rm : RiskManager)

theorem locateIdx_of_lt {symbolId : Nat} (h : symbolId < kMaxLocate)
    : locateIdx symbolId = ⟨symbolId, h⟩ := by
  unfold locateIdx
  rw [dif_pos h]

theorem locateIdx_ne {a b : Nat} (ha : a < kMaxLocate) (hb : b < kMaxLocate) (h : a ≠ b)
    : locateIdx a ≠ locateIdx b := by
  rw [locateIdx_of_lt ha, locateIdx_of_lt hb]
  intro heq
  exact h (Fin.mk.inj heq)

theorem updateEquity_cells : rm.updateEquity.cells = rm.cells := by
  unfold updateEquity
  split
  . rfl
  . rfl

theorem updateEquity_config : rm.updateEquity.config = rm.config := by
  unfold updateEquity
  split
  . rfl
  . rfl

theorem cell_updateEquity (s : Nat) : rm.updateEquity.cell s = rm.cell s := by
  unfold cell
  rw [updateEquity_cells]

theorem cell_setCell_self (s : Nat) (c : Cell) : (rm.setCell s c).cell s = c :=
  SparseArray.get_set_self _ _ _ _

theorem position_updateEquity (s : Nat) : rm.updateEquity.position s = rm.position s := by
  unfold position cell
  rw [updateEquity_cells]

theorem position_setCell (a s : Nat) (c : Cell)
    : (rm.setCell a c).position s = if locateIdx s = locateIdx a then c.qty else rm.position s := by
  unfold position cell setCell
  dsimp only
  rw [SparseArray.get_set]
  split
  . rfl
  . rfl

theorem position_mark (a s : Nat) (price : Int) : (rm.mark a price).position s = rm.position s := by
  unfold mark
  rw [position_updateEquity, position_setCell]
  split
  . next h =>
    unfold position cell
    rw [h]
  . rfl

def filledPosition (side : OrderSide) (pos q : Nat) : Nat :=
  match side with
  | .BUY => (pos + q) % 2 ^ 64
  | .SELL => pos - min q pos
  | .NONE => pos

theorem position_onFill (o : Order) (q s : Nat)
    : (rm.onFill o q).position s =
      if locateIdx s = locateIdx o.symbolId then
        filledPosition o.side (rm.position o.symbolId) q
      else
        rm.position s := by
  unfold onFill filledPosition
  dsimp only
  rw [position_updateEquity]
  cases o.side with
  | BUY => exact rm.position_setCell o.symbolId s _
  | SELL =>
    have hmin : (if q < (rm.cell o.symbolId).qty then q else (rm.cell o.symbolId).qty) =
        min q (rm.position o.symbolId) := by
      unfold position
      split
      . omega
      . omega
    rw [hmin]
    exact rm.position_setCell o.symbolId s _
  | NONE =>
    dsimp only
    split
    . next h =>
      unfold position cell
      rw [h]
    . rfl

theorem config_onFill (o : Order) (q : Nat) : (rm.onFill o q).config = rm.config := by
  unfold onFill
  dsimp only
  rw [updateEquity_config]
  cases o.side with
  | BUY => rfl
  | SELL => rfl
  | NONE => rfl

theorem config_mark (s : Nat) (price : Int) : (rm.mark s price).config = rm.config := by
  unfold mark
  rw [updateEquity_config]
  rfl

end RiskManager

end NebulaXTrader
