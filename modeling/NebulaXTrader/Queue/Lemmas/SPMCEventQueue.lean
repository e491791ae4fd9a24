import NebulaXTrader.Queue.SPMCEventQueue

/-!
This module contains what a step on broadcast queues can do and what it leaves as it is.
-/

namespace NebulaXTrader

open SPSCEventRing (Progress)

namespace SPMCEventQueue

variable {α : Type} {q : SPMCEventQueue α} {i j : Nat} {m : BitVec 32}

theorem and_bit_iff (hi : i < 32) : m &&& bit i ≠ 0 ↔ m.getLsbD i = true := by
  unfold bit
  rw [← BitVec.twoPow_eq, BitVec.and_twoPow]
  by_cases hset : m.getLsbD i = true
  . rw [if_pos hset]
    have hbit : BitVec.twoPow 32 i ≠ 0 := by
      intro hzero
      have hread : (BitVec.twoPow 32 i).getLsbD i = false := by
        rw [hzero]
        exact BitVec.getLsbD_zero
      simp [hi] at hread
    exact ⟨fun _ => hset, fun _ => hbit⟩
  . rw [if_neg hset]
    exact ⟨fun hne => absurd rfl hne, fun h => absurd h hset⟩

theorem bit_getLsbD (hj : j < 32) : (bit i).getLsbD j = decide (i = j) := by
  unfold bit
  rw [← BitVec.twoPow_eq, BitVec.getLsbD_twoPow]
  by_cases heq : i = j
  . simp [heq, hj]
  . simp [heq]

theorem or_bit_self (hi : i < 32) : (m ||| bit i) &&& bit i ≠ 0 := by
  rw [and_bit_iff hi, BitVec.getLsbD_or, bit_getLsbD hi, decide_eq_true rfl, Bool.or_true]

theorem or_bit_other (hj : j < 32) (hne : j ≠ i) : (m ||| bit i) &&& bit j ≠ 0 ↔ m &&& bit j ≠ 0 := by
  rw [and_bit_iff hj, and_bit_iff hj, BitVec.getLsbD_or, bit_getLsbD hj, decide_eq_false hne.symm, Bool.or_false]

theorem clear_bit_other (hj : j < 32) (hne : j ≠ i) : (m &&& ~~~(bit i)) &&& bit j ≠ 0 ↔ m &&& bit j ≠ 0 := by
  rw [and_bit_iff hj, and_bit_iff hj, BitVec.getLsbD_and, BitVec.getLsbD_not, bit_getLsbD hj,
    decide_eq_false hne.symm, decide_eq_true hj, Bool.not_false, Bool.and_true, Bool.and_true]

/--
A consumer changes nothing of the queue that the producer or another consumer owns.
-/
structure ChangedBy (i : Nat) (q q' : SPMCEventQueue α) : Prop where
  slots : q'.slots = q.slots
  capacity : q'.capacity = q.capacity
  numConsumers : q'.numConsumers = q.numConsumers
  tail : q'.tail = q.tail
  heads : ∀ j, j ≠ i → q'.heads j = q.heads j
  locals : ∀ j, j ≠ i → q'.locals j = q.locals j
  wakeFds : ∀ j, j ≠ i → q'.wakeFds j = q.wakeFds j
  blocked : ∀ j, j < 32 → j ≠ i → (q'.blocked &&& bit j ≠ 0 ↔ q.blocked &&& bit j ≠ 0)

theorem ChangedBy.refl (i : Nat) (q : SPMCEventQueue α) : q.ChangedBy i q :=
  ⟨rfl, rfl, rfl, rfl, fun _ _ => rfl, fun _ _ => rfl, fun _ _ => rfl, fun _ _ _ => Iff.rfl⟩

theorem progressFlush_heads_self (q : SPMCEventQueue α) (i : Nat)
    : (q.progressFlush i).heads i = (q.locals i).head := by
  unfold progressFlush
  dsimp only
  split
  . exact Function.update_self _ _ _
  . next heq => exact (not_not.1 heq).symm

theorem progressFlush_head (q : SPMCEventQueue α) (i j : Nat)
    : ((q.progressFlush i).locals j).head = (q.locals j).head := by
  unfold progressFlush
  dsimp only
  by_cases heq : j = i
  . rw [heq, Function.update_self]
  . rw [Function.update_of_ne heq]

theorem progressFlush_changedBy (q : SPMCEventQueue α) (i : Nat) : q.ChangedBy i (q.progressFlush i) := by
  refine ⟨rfl, rfl, rfl, rfl, ?_, ?_, fun _ _ => rfl, fun _ _ _ => Iff.rfl⟩
  . intro j hne
    unfold progressFlush
    dsimp only
    split
    . exact Function.update_of_ne hne _ _
    . rfl
  . intro j hne
    exact Function.update_of_ne hne _ _

theorem pop_changedBy (q : SPMCEventQueue α) (i : Nat) (pc : PopPc α) : q.ChangedBy i (q.pop i pc).1 := by
  unfold pop
  cases pc with
  | loadTail =>
    dsimp only
    split
    . exact ChangedBy.refl i q
    . exact ChangedBy.refl i q
  | readSlot tail => exact ChangedBy.refl i q
  | storeHead tail ev =>
    have hlocals : ∀ n p, q.ChangedBy i { q with locals := Function.update q.locals i ⟨n, p⟩ } := by
      intro n p
      exact ⟨rfl, rfl, rfl, rfl, fun _ _ => rfl, fun j hne => Function.update_of_ne hne _ _, fun _ _ => rfl,
        fun _ _ _ => Iff.rfl⟩
    dsimp only
    split
    . exact hlocals _ _
    . exact hlocals _ _
  | flush ev => exact q.progressFlush_changedBy i

theorem waitForData_changedBy {pc : WaitPc} {r : SPMCEventQueue α × Progress WaitPc Bool}
    (h : q.waitForData i pc = some r) : q.ChangedBy i r.1 := by
  have hclear : q.ChangedBy i { q with blocked := q.blocked &&& ~~~(bit i) } :=
    ⟨rfl, rfl, rfl, rfl, fun _ _ => rfl, fun _ _ => rfl, fun _ _ => rfl, fun _ => clear_bit_other⟩
  unfold waitForData at h
  cases pc with
  | register =>
    dsimp only at h
    split at h
    . cases h
      exact ChangedBy.refl i q
    . cases h
      exact ⟨rfl, rfl, rfl, rfl, fun _ _ => rfl, fun _ _ => rfl, fun _ _ => rfl, fun _ => or_bit_other⟩
  | pending =>
    dsimp only at h
    split at h
    . cases h
      exact ChangedBy.refl i q
    . cases h
      exact ChangedBy.refl i q
  | unregister =>
    cases h
    exact hclear
  | poll =>
    dsimp only at h
    split at h
    . cases h
      exact ChangedBy.refl i q
    . cases h
  | woken ret =>
    dsimp only at h
    split at h
    . cases h
      exact hclear
    . cases h
      exact hclear
  | read =>
    cases h
    exact ⟨rfl, rfl, rfl, rfl, fun _ _ => rfl, fun _ _ => rfl, fun j hne => Function.update_of_ne hne _ _,
      fun _ _ _ => Iff.rfl⟩

end SPMCEventQueue

namespace Broadcast

open SPMCEventQueue (PushPc PopPc WaitPc)

variable {α : Type} {s s' : Broadcast α} {l : Label α}

@[simp]
theorem setQueue_queues_self (k : Nat) (q : SPMCEventQueue α) : (s.setQueue k q).queues k = q :=
  Function.update_self _ _ _

@[simp]
theorem setQueue_consumers (k : Nat) (q : SPMCEventQueue α) : (s.setQueue k q).consumers = s.consumers := rfl

@[simp]
theorem setConsumer_queues (k i : Nat) (pc : ConsumerPc α) : (s.setConsumer k i pc).queues = s.queues := rfl

@[simp]
theorem setConsumer_consumers_self (k i : Nat) (pc : ConsumerPc α) : (s.setConsumer k i pc).consumers k i = pc := by
  unfold setConsumer
  dsimp only
  rw [Function.update_self, Function.update_self]

@[simp]
theorem setConsumer_received (k i : Nat) (pc : ConsumerPc α) : (s.setConsumer k i pc).received = s.received := rfl

@[simp]
theorem setQueue_received (k : Nat) (q : SPMCEventQueue α) : (s.setQueue k q).received = s.received := rfl

@[simp]
theorem setReceived_received_self (k i : Nat) (l : List α) : (s.setReceived k i l).received k i = l := by
  unfold setReceived
  dsimp only
  rw [Function.update_self, Function.update_self]

/--
A step of consumer `i` of queue `k`.
-/
structure OfConsumer (k i : Nat) (s s' : Broadcast α) : Prop where
  producer : s'.producer = s.producer
  cachedMinHead : s'.cachedMinHead = s.cachedMinHead
  pushed : s'.pushed = s.pushed
  queues : ∀ k', k' ≠ k → s'.queues k' = s.queues k'
  queue : (s.queues k).ChangedBy i (s'.queues k)
  consumers : ∀ k' j, k' ≠ k ∨ j ≠ i → s'.consumers k' j = s.consumers k' j
  received : ∀ k' j, k' ≠ k ∨ j ≠ i → s'.received k' j = s.received k' j

/--
A step of the push of `ev` on queue `k`.
-/
structure OfProducer (k : Nat) (ev : α) (pc : PushPc) (s s' : Broadcast α) : Prop where
  queue : s'.queues k = ((s.queues k).push s.cachedMinHead ev pc).1
  queues : ∀ k', k' ≠ k → s'.queues k' = s.queues k'
  cachedMinHead : s'.cachedMinHead = ((s.queues k).push s.cachedMinHead ev pc).2.1
  producer : s'.producer = afterPush k ev ((s.queues k).push s.cachedMinHead ev pc).2.2
  pushed : s'.pushed k = s.pushed k ++ stored ev pc
  pushed_other : ∀ k', k' ≠ k → s'.pushed k' = s.pushed k'
  consumers : s'.consumers = s.consumers
  received : s'.received = s.received

theorem stepProducer_ofProducer (h : s.stepProducer = some s')
    : ∃ k ev pc, s.producer = .push k ev pc ∧ OfProducer k ev pc s s' := by
  unfold stepProducer at h
  split at h
  . cases h
  . next k ev pc hpc =>
    refine ⟨k, ev, pc, hpc, ?_⟩
    generalize hr : (s.queues k).push s.cachedMinHead ev pc = r at h
    obtain ⟨q, cache, p⟩ := r
    cases h
    refine ⟨?_, ?_, ?_, ?_, ?_, ?_, rfl, rfl⟩
    . rw [hr]
      exact Function.update_self _ _ _
    . intro k' hne
      exact Function.update_of_ne hne _ _
    . rw [hr]
    . rw [hr]
    . exact Function.update_self _ _ _
    . intro k' hne
      exact Function.update_of_ne hne _ _

theorem update_update_of_ne {β : Type} (f : Nat → Nat → β) (k i : Nat) (b : β) {k' j : Nat} (h : k' ≠ k ∨ j ≠ i)
    : Function.update f k (Function.update (f k) i b) k' j = f k' j := by
  by_cases hk : k' = k
  . rw [hk, Function.update_self]
    cases h with
    | inl hne => exact absurd hk hne
    | inr hne => exact Function.update_of_ne hne _ _
  . rw [Function.update_of_ne hk]

theorem OfConsumer.set {k i : Nat} {q : SPMCEventQueue α} (pc : ConsumerPc α) (h : (s.queues k).ChangedBy i q)
    : OfConsumer k i s ((s.setQueue k q).setConsumer k i pc) := by
  refine ⟨rfl, rfl, rfl, ?_, ?_, ?_, fun _ _ _ => rfl⟩
  . intro k' hne
    exact Function.update_of_ne hne _ _
  . rw [setConsumer_queues, setQueue_queues_self]
    exact h
  . intro k' j hne
    exact update_update_of_ne _ _ _ _ hne

theorem OfConsumer.of_received {k i : Nat} {l : List α} (h : OfConsumer k i (s.setReceived k i l) s')
    : OfConsumer k i s s' := by
  refine ⟨h.producer, h.cachedMinHead, h.pushed, h.queues, h.queue, h.consumers, ?_⟩
  intro k' j hne
  rw [h.received k' j hne]
  exact update_update_of_ne _ _ _ _ hne

theorem OfConsumer.setConsumer (k i : Nat) (pc : ConsumerPc α) : OfConsumer k i s (s.setConsumer k i pc) :=
  ⟨rfl, rfl, rfl, fun _ _ => rfl, SPMCEventQueue.ChangedBy.refl i _, fun _ _ hne => update_update_of_ne _ _ _ _ hne,
    fun _ _ _ => rfl⟩

theorem OfConsumer.flush (k i : Nat) : OfConsumer k i s (s.setQueue k ((s.queues k).progressFlush i)) := by
  refine ⟨rfl, rfl, rfl, ?_, ?_, fun _ _ _ => rfl, fun _ _ _ => rfl⟩
  . intro k' hne
    exact Function.update_of_ne hne _ _
  . rw [setQueue_queues_self]
    exact SPMCEventQueue.progressFlush_changedBy _ i

theorem stepPop_ofConsumer (k i : Nat) (pc : PopPc α) : OfConsumer k i s (s.stepPop k i pc) := by
  apply OfConsumer.of_received
  exact OfConsumer.set _ ((s.queues k).pop_changedBy i pc)

theorem stepWait_ofConsumer {k i : Nat} {pc : WaitPc} (h : s.stepWait k i pc = some s') : OfConsumer k i s s' := by
  unfold stepWait at h
  split at h
  . next q p hq =>
    cases h
    exact OfConsumer.set _ (SPMCEventQueue.waitForData_changedBy hq)
  . cases h

/--
The steps of a run, without the guards that `step` decides.
-/
inductive Moves (s : Broadcast α) : Label α → Broadcast α → Prop where
  | push (k : Nat) (ev : α) (hidle : s.producer = .idle)
    : Moves s (.push k ev) { s with producer := .push k ev .loadTail }
  | producer (s' : Broadcast α) (h : s.stepProducer = some s') : Moves s .producer s'
  | call (l : Label α) (k i : Nat) (pc : ConsumerPc α) (hi : i < (s.queues k).numConsumers)
    (hidle : s.consumers k i = .idle) (hpc : pc = .pop .loadTail ∨ pc = .wait .register)
    : Moves s l (s.setConsumer k i pc)
  | flush (k i : Nat) (hi : i < (s.queues k).numConsumers) (hidle : s.consumers k i = .idle)
    : Moves s (.flush k i) (s.setQueue k ((s.queues k).progressFlush i))
  | pop (k i : Nat) (pc : PopPc α) (hpc : s.consumers k i = .pop pc)
    : Moves s (.consumer k i) (s.stepPop k i pc)
  | wait (k i : Nat) (pc : WaitPc) (s' : Broadcast α) (hpc : s.consumers k i = .wait pc)
    (h : s.stepWait k i pc = some s') : Moves s (.consumer k i) s'
  | interrupt (k i : Nat) (hpc : s.consumers k i = .wait .poll)
    : Moves s (.interrupt k i) (s.setConsumer k i (.wait (.woken false)))

theorem call_eq_some {k i : Nat} {s₁ : Broadcast α} (h : s.call k i s₁ = some s')
    : i < (s.queues k).numConsumers ∧ s.consumers k i = .idle ∧ s₁ = s' := by
  unfold call at h
  split at h
  . next hidle =>
    split at h
    . next hi =>
      cases h
      exact ⟨hi, hidle, rfl⟩
    . cases h
  . cases h

theorem step_moves (h : step s l = some s') : Moves s l s' := by
  cases l with
  | push k ev =>
    unfold step at h
    dsimp only at h
    split at h
    . next hidle =>
      cases h
      exact .push k ev hidle
    . cases h
  | producer => exact .producer s' h
  | pop k i =>
    obtain ⟨hi, hidle, heq⟩ := call_eq_some h
    rw [← heq]
    exact .call _ k i _ hi hidle (.inl rfl)
  | skip k i =>
    obtain ⟨hi, hidle, heq⟩ := call_eq_some h
    rw [← heq]
    exact .call _ k i _ hi hidle (.inl rfl)
  | flush k i =>
    obtain ⟨hi, hidle, heq⟩ := call_eq_some h
    rw [← heq]
    exact .flush k i hi hidle
  | wait k i =>
    obtain ⟨hi, hidle, heq⟩ := call_eq_some h
    rw [← heq]
    exact .call _ k i _ hi hidle (.inr rfl)
  | consumer k i =>
    have h : s.stepConsumer k i = some s' := h
    unfold stepConsumer at h
    split at h
    . cases h
    . next pc hpc =>
      cases h
      exact .pop k i pc hpc
    . next pc hpc => exact .wait k i pc s' hpc h
  | interrupt k i =>
    unfold step at h
    dsimp only at h
    split at h
    . next hpc =>
      cases h
      exact .interrupt k i hpc
    . cases h

end Broadcast

end NebulaXTrader
