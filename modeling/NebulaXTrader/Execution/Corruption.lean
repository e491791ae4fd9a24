import NebulaXTrader.Execution.OuchLayout
import Mathlib.Data.List.GetD

/-!
This module contains what the checksum of a report is good for: a report with one altered byte is refused, unless its
type has become that of a shorter report whose checksum happens to be right.
-/

namespace NebulaXTrader

namespace OuchOrderCodec

/--
The last of the first `n` bytes is the sum of all before it.
-/
def Checks (buf : List UInt8) (n : Nat) : Prop := buf.getD (n - 1) 0 = checksum (buf.take (n - 1))

def Msg.isReport : Msg → Bool
  | .ack _ => true
  | .exec _ _ _ => true
  | .cancel _ _ => true
  | .reject _ => true
  | _ => false

variable {buf : List UInt8} {i n : Nat} {b : UInt8}

theorem checksum_set (hi : i < buf.length) (hb : buf.getD i 0 ≠ b) : checksum (buf.set i b) ≠ checksum buf := by
  intro heq
  have hsplit : buf = buf.take i ++ [buf.getD i 0] ++ buf.drop (i + 1) := by
    rw [List.getD_eq_getElem _ _ hi, List.append_assoc, List.singleton_append, List.getElem_cons_drop,
      List.take_append_drop]
  have hset : buf.set i b = buf.take i ++ [b] ++ buf.drop (i + 1) := by
    rw [List.set_eq_take_append_cons_drop, if_pos hi, List.append_assoc, List.singleton_append]
  have hsum := congrArg UInt8.toNat heq
  rw [toNat_checksum, toNat_checksum, hset] at hsum
  conv at hsum => rhs; rw [hsplit]
  simp only [List.map_append, List.sum_append, List.map_cons, List.map_nil, List.sum_cons, List.sum_nil] at hsum
  have hold := (buf.getD i 0).toNat_lt
  have hnew := b.toNat_lt
  apply hb
  apply UInt8.toNat_inj.1
  omega

theorem checks_set (h : Checks buf n) (hn : n ≤ buf.length) (hi : i < n) (hb : buf.getD i 0 ≠ b)
    : ¬ Checks (buf.set i b) n := by
  unfold Checks at h ⊢
  cases Nat.lt_or_eq_of_le (Nat.le_sub_one_of_lt hi) with
  | inl hlt =>
    -- the byte is one of those summed up
    have hlast : (buf.set i b).getD (n - 1) 0 = buf.getD (n - 1) 0 := by
      rw [List.getD_eq_getElem?_getD, List.getElem?_set_ne (by omega), List.getD_eq_getElem?_getD]
    have htake : (buf.take (n - 1)).getD i 0 = buf.getD i 0 := by
      rw [List.getD_eq_getElem?_getD, List.getElem?_take_of_lt hlt, List.getD_eq_getElem?_getD]
    have hset := @checksum_set (buf.take (n - 1)) i b (by rw [List.length_take]; omega) (by rw [htake]; exact hb)
    rw [hlast, h, List.take_set]
    exact hset.symm
  | inr heq =>
    -- the byte is the checksum itself
    have hlast : (buf.set i b).getD (n - 1) 0 = b := by
      rw [← heq, List.getD_eq_getElem _ _ (by rw [List.length_set]; omega), List.getElem_set_self]
    rw [hlast, List.take_set_of_le (by omega), ← h, ← heq]
    exact hb.symm

theorem decodeFill_none_iff (trader : OuchOrderCodec) (buf : List UInt8)
    : trader.decodeFill buf = (trader, none) ↔
        ¬ ∃ kind n, buf.head?.bind reportKind = some (kind, n) ∧ n ≤ buf.length ∧ Checks buf n := by
  unfold decodeFill
  split
  . next hkind =>
    simp [hkind]
  . next kind n hkind =>
    split
    . next hshort =>
      simp [hkind]
      omega
    . next hlong =>
      split
      . next hsum =>
        have hfails : ¬ Checks buf n := hsum
        simp [hkind, hfails]
      . next hsum =>
        have hchecks : Checks buf n := not_not.1 hsum
        simp [hkind, hchecks]
        omega

theorem frame_kind {c : OuchOrderCodec} {m : Msg} (h : m.isReport = true)
    : ∃ kind, (m.frame c).2.head?.bind reportKind = some (kind, (m.frame c).2.length) := by
  rw [Msg.length_frame]
  cases m with
  | ack o => exact ⟨.A, rfl⟩
  | exec orderId filledQty fillPrice => exact ⟨.E, rfl⟩
  | cancel orderId canceledQty => exact ⟨.C, rfl⟩
  | reject orderId => exact ⟨.J, rfl⟩
  | _ => cases h

theorem frame_checks (c : OuchOrderCodec) (m : Msg) : Checks (m.frame c).2 (m.frame c).2.length := by
  have hseal : ∃ body, (m.frame c).2 = sealFrame body := by
    cases m with
    | _ => exact ⟨_, rfl⟩
  obtain ⟨body, hbody⟩ := hseal
  unfold Checks
  rw [hbody, length_sealFrame, Nat.add_sub_cancel]
  exact sealFrame_checks rfl

/--
A report with one altered byte is refused, and nothing is learned from it, exactly unless the byte is the type, the
new type has a shorter frame and the checksum of that one is right.
-/
theorem decodeFill_altered (c trader : OuchOrderCodec) {m : Msg} (hm : m.isReport = true)
    (hi : i < (m.frame c).2.length) (hb : (m.frame c).2.getD i 0 ≠ b)
    : trader.decodeFill ((m.frame c).2.set i b) = (trader, none) ↔
        ¬ (i = 0 ∧ ∃ kind n, reportKind b = some (kind, n) ∧ n < (m.frame c).2.length ∧
          Checks ((m.frame c).2.set 0 b) n) := by
  have hkind := @frame_kind c m hm
  have hsum := frame_checks c m
  generalize (m.frame c).2 = frame at *
  have hfull : ¬ Checks (frame.set i b) frame.length := checks_set hsum (Nat.le_refl _) hi hb
  rw [decodeFill_none_iff, not_iff_not, List.length_set]
  obtain ⟨kind, hkind⟩ := hkind
  cases frame with
  | nil => cases hkind
  | cons x frame =>
    cases i with
    | zero =>
      constructor
      . intro hpass
        obtain ⟨kind', n, hkind', hle, hchecks⟩ := hpass
        refine ⟨rfl, kind', n, hkind', ?_, hchecks⟩
        apply Nat.lt_of_le_of_ne hle
        intro heq
        rw [heq] at hchecks
        exact hfull hchecks
      . intro hpass
        obtain ⟨_, kind', n, hkind', hlt, hchecks⟩ := hpass
        exact ⟨kind', n, hkind', Nat.le_of_lt hlt, hchecks⟩
    | succ i =>
      -- the type is as it was, and with it the place of the checksum
      constructor
      . intro hpass
        obtain ⟨kind', n, hkind', _, hchecks⟩ := hpass
        have hsame : some (kind', n) = some (kind, (x :: frame).length) := hkind'.symm.trans hkind
        cases hsame
        exact absurd hchecks hfull
      . intro hpass
        cases hpass.1

theorem frame_cancel
    : (Msg.frame {} (.cancel 1 18)).2 =
        [67, 0, 0, 0, 0, 0, 0, 0, 1] ++ [48, 48, 48, 48, 48, 48, 48, 48, 48, 48, 48, 48, 48, 49] ++
          [66, 0, 0, 0, 18] ++ [32, 32, 32, 32, 32, 32, 32, 32, 32, 32] ++ [121] := by
  show (encodeCancel {} 1 18).2 = _
  unfold encodeCancel
  dsimp only
  rw [tokenFor_one]
  decide

theorem cancel_altered
    : OuchOrderCodec.decodeFill {} ((Msg.frame {} (.cancel 1 18)).2.set 1 7) = ({}, none) ↔
        ¬ (1 = 0 ∧ ∃ kind n, reportKind 7 = some (kind, n) ∧ n < (Msg.frame {} (.cancel 1 18)).2.length ∧
          Checks ((Msg.frame {} (.cancel 1 18)).2.set 0 7) n) := by
  apply decodeFill_altered {} {}
  . rfl
  . rw [frame_cancel]
    decide
  . rw [frame_cancel]
    decide

/--
A report of 18 canceled shares, with `J` for its `C`, is a rejection.
-/
theorem cancel_as_reject
    : Msg.isReport (.cancel 1 18) = true ∧ (Msg.frame {} (.cancel 1 18)).2.getD 0 0 ≠ 74 ∧
      (OuchOrderCodec.decodeFill {} ((Msg.frame {} (.cancel 1 18)).2.set 0 74)).2 =
        some { type := .J, orderId := 1, exchangeRef := 1, filledQty := 0, fillPrice := 0 } := by
  rw [frame_cancel]
  exact ⟨rfl, by decide, rfl⟩

end OuchOrderCodec

end NebulaXTrader
