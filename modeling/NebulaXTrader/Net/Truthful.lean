import NebulaXTrader.Execution.Lemmas.OrderManager
import NebulaXTrader.Execution.ExecutionEngine
import NebulaXTrader.Net.Lemmas.ZeroCopySend

/-!
This module contains the theorem when the return value of `IoUringSender::send` is true, and with it the rejections of
the engine.
-/

namespace NebulaXTrader

namespace ZeroCopySend

/--
What the engine makes of the return value of call `c`.
-/
def wire (s : ZeroCopySend) (c : Nat) : Wire :=
  if s.returned c = some (s.messages c).length then .sent else .sendFails

def env (s : ZeroCopySend) (c : Nat) : Env where
  wire := fun _ => s.wire c
  visit_perm := List.Perm.refl

/--
The engine, which sends the message of an order with call `c`, rejects the order if and only if the kernel has not taken
the whole message.
-/
def RejectsUnsent (s : ZeroCopySend) : Prop :=
  ∀ c, (s.returned c).isSome → ∀ (ex : ExecutionEngine) (sig : Signal) (strategyId : Nat) (type : OrderType) order,
    ex.orderFor sig strategyId type = some order → ex.rm.checkOrder (ex.om.newOrder order).2 → ex.hasSender →
    ex.hasCodec →
    let out := ex.submitSignal (s.env c) sig strategyId type
    (out.1.om.status out.2.1 = .REJECTED ↔ ¬ s.Accepted c)

variable {k : Nat} {s : ZeroCopySend}

theorem status_submitSignal {ex : ExecutionEngine} {env : Env} {sig : Signal} {strategyId : Nat} {type : OrderType}
    {order : Order} (horder : ex.orderFor sig strategyId type = some order)
    (hcheck : ex.rm.checkOrder (ex.om.newOrder order).2) (hsender : ex.hasSender) (hcodec : ex.hasCodec)
    : let out := ex.submitSignal env sig strategyId type
      out.1.om.status out.2.1 = if env.wire ex.om.nextId = .sent then .PENDING else .REJECTED := by
  obtain ⟨e, he, _, hpending, _⟩ := ex.om.newOrder_orders order
  have hid : (ex.om.newOrder order).2.orderId = ex.om.nextId := rfl
  have hrejected : ((ex.om.newOrder order).1.onReject ex.om.nextId).status ex.om.nextId = .REJECTED := by
    obtain ⟨e', he', _, hstatus, _⟩ := (OrderManager.onReject_writes he hpending).self
    unfold OrderManager.status
    rw [he']
    exact hstatus
  unfold ExecutionEngine.submitSignal
  rw [horder]
  dsimp only
  rw [if_neg (not_not.2 hcheck), if_pos hsender, if_neg (not_not.2 hcodec), hid]
  cases hwire : env.wire ex.om.nextId with
  | encodeFails => exact hrejected
  | sendFails => exact hrejected
  | sent =>
    show (ex.om.newOrder order).1.status ex.om.nextId = .PENDING
    unfold OrderManager.status
    rw [he]
    exact hpending

theorem Truthful.rejectsUnsent (h : s.Truthful) : s.RejectsUnsent := by
  intro c hret ex sig strategyId type order horder hcheck hsender hcodec
  obtain ⟨r, hr⟩ := Option.isSome_iff_exists.1 hret
  have htrue := h c r hr
  have hstatus := @status_submitSignal ex (s.env c) _ _ _ _ horder hcheck hsender hcodec
  dsimp only at hstatus ⊢
  rw [hstatus, ← htrue]
  unfold env wire
  dsimp only
  rw [hr]
  by_cases heq : r = (s.messages c).length
  . simp [heq]
  . simp [heq]

theorem truthful_of_careful (hk : k < 64) (buf : Nat → UInt8) {labels : List Label}
    (hcareful : Run.Along step Careful (start buf (2 ^ k)) labels)
    (hrun : Run.exec step (start buf (2 ^ k)) labels = some s) : s.Truthful ∧ s.RejectsUnsent := by
  have hinv : Inv k s :=
    Run.exec_inv (fun _ _ _ h hgood hstep => Inv.next hk h hgood hstep) (Inv.start k buf) hcareful hrun
  exact ⟨hinv.base.truthful, hinv.base.truthful.rejectsUnsent⟩

/--
The send of two messages, the second one in two pieces.
-/
def twoSends : List Label :=
  [.send [1, 2, 3], .run, .run, .submit 1, .accepts 0 3, .post 0, .run, .run,
    .send [4, 5, 6], .run, .run, .submit 1, .accepts 1 2, .timeout, .submit 0, .post 1, .run,
    .run, .submit 1, .accepts 2 1, .post 2, .run, .run]

theorem truthful_of_careful_twoSends
    : ∃ s, Run.exec step (start (fun _ => 0) (2 ^ 7)) twoSends = some s ∧ s.returned 1 = some 3 ∧
        s.Truthful ∧ s.RejectsUnsent := by
  generalize hr : Run.exec step (start (fun _ => 0) (2 ^ 7)) twoSends = r
  have hend : r.map (fun s => s.returned 1) = some (some 3) := by
    rw [← hr]
    decide +kernel
  obtain ⟨s, rfl, hreturned⟩ := Option.map_eq_some_iff.1 hend
  exact ⟨s, rfl, hreturned, truthful_of_careful (by decide) (fun _ => 0) (by decide +kernel) hr⟩

/--
The notification of the first send becomes visible before the result of the second one.
-/
def notifiedBetween : List Label :=
  [.send [1, 2, 3], .run, .run, .submit 1, .accepts 0 3, .post 0, .run, .run, .notify 0,
    .send [4, 5, 6], .run, .run, .submit 1, .accepts 1 3, .run]

theorem not_truthful
    : ¬ ∀ labels s, Run.exec step (start (fun _ => 0) (2 ^ 7)) labels = some s → s.Truthful := by
  intro h
  generalize hr : Run.exec step (start (fun _ => 0) (2 ^ 7)) notifiedBetween = r
  have hend : r.map (fun s => (s.returned 1, s.messages 1, s.accepted.drop 3)) =
      some (some (-1), [4, 5, 6], [some (1, 0), some (1, 1), some (1, 2)]) := by
    rw [← hr]
    decide +kernel
  obtain ⟨s, rfl, hs⟩ := Option.map_eq_some_iff.1 hend
  simp only [Prod.mk.injEq] at hs
  obtain ⟨hreturned, hmessage, haccepted⟩ := hs
  have htrue := h notifiedBetween s hr 1 (-1) hreturned
  rw [hmessage] at htrue
  -- all three bytes are taken, and the call has returned -1
  have hall : s.Accepted 1 := by
    intro j hj
    rw [hmessage] at hj
    have hcases : j = 0 ∨ j = 1 ∨ j = 2 := by
      have hlt : j < 3 := hj
      omega
    apply List.mem_of_mem_drop (i := 3)
    rw [haccepted]
    simp [hcases]
  exact absurd (htrue.2 hall) (by decide)

end ZeroCopySend

end NebulaXTrader
