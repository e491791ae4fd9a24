import NebulaXTrader.Execution.Flatten

/-!
This module contains what a cancel that fails leaves behind. The order is marked before its request is encoded and
sent, and the mark stays when one of these fails.
-/

namespace NebulaXTrader

namespace ExecutionEngine

open OrderManager

def summary (om : OrderManager) (id : Nat) : Option (OrderStatus × Nat × Nat) :=
  (om.orders id).map (fun e => (e.status, e.filled, e.remaining))

/--
The order is as before: its entry, what an execution makes of it, and what a further cancel returns.
-/
structure Untouched (ex ex' : ExecutionEngine) (id : Nat) : Prop where
  entry : summary ex'.om id = summary ex.om id
  booked : ∀ q p, summary (ex'.om.onFill id q p) id = summary (ex.om.onFill id q p) id
  retried : ∀ env, (ex'.cancelOrder env id).2.1 = (ex.cancelOrder env id).2.1

/--
The order is active, so it gets marked, and its request does not reach the wire.
-/
def Stranded (ex : ExecutionEngine) (env : Env) (id : Nat) : Prop :=
  ex.hasSender ∧ ex.hasCodec ∧ (ex.om.orders id).any Entry.isActive ∧ env.wire id ≠ .sent

instance (ex : ExecutionEngine) (env : Env) (id : Nat) : Decidable (ex.Stranded env id) :=
  inferInstanceAs (Decidable (_ ∧ _))

theorem Untouched.refl (ex : ExecutionEngine) (id : Nat) : ex.Untouched ex id := by
  constructor
  . rfl
  . intro q p
    rfl
  . intro env
    rfl

variable {ex : ExecutionEngine} {env : Env} {id : Nat}

theorem cancelOrder_of_active {e : Entry} (hsender : ex.hasSender) (hcodec : ex.hasCodec)
    (he : ex.om.orders id = some e) (hactive : e.isActive)
    : (ex.cancelOrder env id).1 = { ex with om := (ex.om.requestCancel id).1 } ∧
      ((ex.cancelOrder env id).2.1 = true ↔ env.wire id = .sent) := by
  have hrequest : ex.om.requestCancel id =
      (ex.om.store id { e with status := .PENDING_CANCEL }, true) := by
    unfold requestCancel
    rw [he]
    dsimp only
    rw [if_pos hactive]
  unfold cancelOrder
  rw [if_neg (by simp [hsender, hcodec]), hrequest]
  dsimp only
  cases env.wire id with
  | encodeFails => simp
  | sendFails => simp
  | sent => simp

theorem cancelOrder_of_inactive (h : ¬ (ex.hasSender ∧ ex.hasCodec ∧ (ex.om.orders id).any Entry.isActive))
    : (ex.cancelOrder env id).1 = ex := by
  unfold cancelOrder
  by_cases hready : ex.hasSender ∧ ex.hasCodec
  . have hfalse : ex.om.requestCancel id = (ex.om, false) := by
      unfold requestCancel
      cases he : ex.om.orders id with
      | none => rfl
      | some e =>
        have hinactive : ¬ e.isActive := by simpa [he, hready] using h
        exact if_neg hinactive
    rw [if_neg (not_not.2 hready), hfalse]
  . rw [if_pos hready]

theorem summary_requestCancel {om : OrderManager} {e : Entry} (he : om.orders id = some e) (hactive : e.isActive)
    : summary (om.requestCancel id).1 id = some (.PENDING_CANCEL, e.filled, e.remaining) := by
  unfold summary requestCancel
  rw [he]
  dsimp only
  rw [if_pos hactive]
  show Option.map _ (Function.update om.orders id _ id) = _
  rw [Function.update_self]
  rfl

/--
A cancel that returns false leaves the order as it was exactly if it is not stranded.
-/
theorem cancelOrder_untouched_iff (ex : ExecutionEngine) (env : Env) (id : Nat)
    : ((ex.cancelOrder env id).2.1 = false → ex.Untouched (ex.cancelOrder env id).1 id) ↔
        ¬ ex.Stranded env id := by
  constructor
  . intro h hstranded
    obtain ⟨hsender, hcodec, hany, hwire⟩ := hstranded
    cases he : ex.om.orders id with
    | none => simp [he] at hany
    | some e =>
      have hactive : e.isActive := by simpa [he] using hany
      obtain ⟨hstate, hreturn⟩ := @cancelOrder_of_active ex env id e hsender hcodec he hactive
      have hfalse : (ex.cancelOrder env id).2.1 = false := by
        rw [Bool.eq_false_iff]
        intro htrue
        exact hwire (hreturn.1 htrue)
      have hentry := (h hfalse).entry
      have hbefore : summary ex.om id = some (e.status, e.filled, e.remaining) := by
        unfold summary
        rw [he]
        rfl
      rw [hstate, summary_requestCancel he hactive, hbefore] at hentry
      -- an active order is not yet waiting for the answer to a cancel request
      have hstatus : OrderStatus.PENDING_CANCEL = e.status := (Prod.mk.inj (Option.some.inj hentry)).1
      unfold Entry.isActive at hactive
      rw [← hstatus] at hactive
      cases hactive
  . intro hnot hfalse
    by_cases hready : ex.hasSender ∧ ex.hasCodec ∧ (ex.om.orders id).any Entry.isActive
    . cases he : ex.om.orders id with
      | none => simp [he] at hready
      | some e =>
        have hactive : e.isActive := by simpa [he] using hready.2.2
        obtain ⟨_, hreturn⟩ := @cancelOrder_of_active ex env id e hready.1 hready.2.1 he hactive
        have hsent : env.wire id = .sent := by
          by_contra hwire
          exact hnot ⟨hready.1, hready.2.1, hready.2.2, hwire⟩
        rw [hreturn.2 hsent] at hfalse
        cases hfalse
    . rw [cancelOrder_of_inactive hready]
      exact Untouched.refl ex id

def quiet : Env where
  visit_perm := List.Perm.refl

def working : ExecutionEngine :=
  (connected {} 100).run [
    .submit quiet ⟨.BUY, 1, 10000, 0, 10000⟩ 1 .LIMIT,
    .report quiet { type := .A, orderId := 1, exchangeRef := 1 }]

theorem not_untouched
    : let ex := (working.cancelOrder { wire := fun _ => .sendFails } 1).1
      (working.cancelOrder { wire := fun _ => .sendFails } 1).2.1 = false ∧
        summary working.om 1 = some (.SUBMITTED, 0, 100) ∧ summary ex.om 1 = some (.PENDING_CANCEL, 0, 100) ∧
        summary (working.om.onFill 1 40 10000) 1 = some (.PARTIAL_FILL, 40, 60) ∧
        summary (ex.om.onFill 1 40 10000) 1 = some (.PENDING_CANCEL, 0, 100) ∧
        (ex.cancelOrder {} 1).2.1 = false := by
  -- The request was not sent, yet the next execution is dropped and the cancel cannot be repeated.
  decide +kernel

end ExecutionEngine

end NebulaXTrader
