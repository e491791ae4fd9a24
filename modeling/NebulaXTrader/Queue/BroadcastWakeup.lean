import NebulaXTrader.Lib.Doorbell
import NebulaXTrader.Queue.Lemmas.SPMCEventQueue

/-!
This module contains the theorem that no consumer of a broadcast queue sleeps on an empty eventfd while it has
events, unless the producer is on its way to write it.
-/

namespace NebulaXTrader

open SPSCEventRing (Progress)

namespace SPMCEventQueue

variable {α : Type}

/--
The push has stored the tail and has not yet come to the eventfd of consumer `i`.
-/
def PushPc.Owes (pc : PushPc) (i : Nat) : Prop :=
  match pc with
  | .loadBlocked => True
  | .notify m j => j ≤ i ∧ m &&& bit i ≠ 0
  | _ => False

def owesAfter (p : Progress PushPc Bool) (i : Nat) : Prop :=
  match p with
  | .next pc => pc.Owes i
  | .ret _ => False

end SPMCEventQueue

namespace Broadcast

open SPMCEventQueue (bit kMaxConsumers PushPc PopPc WaitPc)

variable {α : Type}

def ProducerPc.Owes (pc : ProducerPc α) (k i : Nat) : Prop :=
  match pc with
  | .idle => False
  | .push k' _ pc => k' = k ∧ pc.Owes i

def Owes (s : Broadcast α) (k i : Nat) : Prop := s.producer.Owes k i

/--
No consumer is inside `poll` with a count of 0 and events to read, unless the producer is between the store of the tail
and the write of its eventfd.
-/
def Awake (s : Broadcast α) : Prop :=
  ∀ k i, s.consumers k i = .wait .poll → (s.queues k).wakeFds i = some 0 → (s.queues k).pending i > 0 → s.Owes k i

/--
The eventfd of a consumer with the consumer itself as the only sleeper. One that is not valid never reads as 0.
-/
def doorbell (q : SPMCEventQueue α) (i : Nat) (asleep owed : Prop) : Doorbell Unit where
  count := (q.wakeFds i).getD 1
  asleep := fun _ => asleep
  work := fun _ => q.pending i > 0
  owed := owed

end Broadcast

namespace SPMCEventQueue

variable {α : Type} {q q' : SPMCEventQueue α} {i : Nat} {owed owed' : Prop}

structure Registered (q : SPMCEventQueue α) (i : Nat) : Prop where
  consumer : i < q.numConsumers
  valid : i < kMaxConsumers
  blocked : q.blocked &&& bit i ≠ 0

/--
What holds of consumer `i` while it waits: its bit is set from before it looks for events until it has been woken.
-/
def Listening (q : SPMCEventQueue α) (i : Nat) (owed : Prop) (pc : Broadcast.ConsumerPc α) : Prop :=
  match pc with
  | .wait .register => i < q.numConsumers
  | .wait .pending => q.Registered i
  | .wait .poll => q.Registered i ∧ (Broadcast.doorbell q i True owed).Sound
  | _ => True

theorem Registered.lt (h : q.Registered i) : i < 32 := Nat.lt_trans h.valid (by decide)

theorem Registered.frame (h : q.Registered i) (hn : q'.numConsumers = q.numConsumers)
    (hb : q'.blocked &&& bit i ≠ 0 ↔ q.blocked &&& bit i ≠ 0) : q'.Registered i := by
  refine ⟨?_, h.valid, hb.2 h.blocked⟩
  rw [hn]
  exact h.consumer

theorem Listening.frame {pc : Broadcast.ConsumerPc α} (h : q.Listening i owed pc)
    (hn : q'.numConsumers = q.numConsumers) (hb : i < 32 → (q'.blocked &&& bit i ≠ 0 ↔ q.blocked &&& bit i ≠ 0))
    (hdoor : (Broadcast.doorbell q i True owed).Sound → q.Registered i → (Broadcast.doorbell q' i True owed').Sound)
    : q'.Listening i owed' pc := by
  unfold Listening at h ⊢
  split
  . rw [hn]
    exact h
  . have h : q.Registered i := h
    exact h.frame hn (hb h.lt)
  . have h : q.Registered i ∧ (Broadcast.doorbell q i True owed).Sound := h
    exact ⟨h.1.frame hn (hb h.1.lt), hdoor h.2 h.1⟩
  . trivial

theorem sound_frame (h : (Broadcast.doorbell q i True owed).Sound) (hfd : q'.wakeFds i = q.wakeFds i)
    (htail : q'.tail = q.tail) (hheads : q'.heads i = q.heads i) (howed : owed → owed')
    : (Broadcast.doorbell q' i True owed').Sound := by
  apply h.frame
  . intro _ _
    refine ⟨trivial, ?_⟩
    unfold Broadcast.doorbell pending
    dsimp only
    rw [htail, hheads]
    exact id
  . unfold Broadcast.doorbell
    dsimp only
    rw [hfd]
    exact id
  . exact howed

theorem writeFd_sound (q : SPMCEventQueue α) (i : Nat) (owed : Prop)
    : (Broadcast.doorbell (q.writeFd i) i True owed).Sound := by
  apply Doorbell.Sound.of_count
  unfold Broadcast.doorbell writeFd
  dsimp only
  rw [Function.update_self]
  cases q.wakeFds i with
  | none => exact Nat.one_ne_zero
  | some count =>
    show (if count < kMaxCount then count + 1 else count) ≠ 0
    have hmax : 0 < kMaxCount := by decide
    split
    . omega
    . omega

theorem Listening.push {pc : Broadcast.ConsumerPc α} (cache : Nat) (ev : α) {ppc : PushPc}
    (h : q.Listening i (ppc.Owes i) pc)
    : (q.push cache ev ppc).1.Listening i (owesAfter (q.push cache ev ppc).2.2 i) pc := by
  unfold SPMCEventQueue.push
  cases ppc with
  | loadTail =>
    dsimp only
    split
    . exact h
    . exact h
  | minConsumed tail j minHead =>
    dsimp only
    split
    . exact h
    . split
      . exact h
      . exact h
  | writeSlot tail => exact h.frame rfl (fun _ => Iff.rfl) (fun hs _ => sound_frame hs rfl rfl rfl id)
  | storeTail tail => exact h.frame rfl (fun _ => Iff.rfl) (fun _ _ => Doorbell.Sound.of_owed trivial)
  | loadBlocked =>
    dsimp only
    split
    . next hnone =>
      -- nobody is registered, so nobody sleeps
      apply h.frame rfl (fun _ => Iff.rfl)
      intro _ hreg
      have hset := hreg.blocked
      rw [hnone] at hset
      exact absurd (BitVec.zero_and) hset
    . apply h.frame rfl (fun _ => Iff.rfl)
      intro _ hreg
      exact Doorbell.Sound.of_owed ⟨Nat.zero_le i, hreg.blocked⟩
  | notify m j =>
    dsimp only
    split
    . next hj =>
      split
      . next hset =>
        have hkeeps : (q.writeFd j).blocked &&& bit i ≠ 0 ↔ q.blocked &&& bit i ≠ 0 := Iff.rfl
        refine h.frame rfl (fun _ => hkeeps) ?_
        intro hs _
        by_cases heq : j = i
        . rw [heq]
          exact writeFd_sound q i _
        . apply sound_frame hs
          . exact Function.update_of_ne (Ne.symm heq) _ _
          . rfl
          . rfl
          . intro howed
            have hle := howed.1
            exact ⟨by omega, howed.2⟩
      . next hclear =>
        apply h.frame rfl (fun _ => Iff.rfl)
        intro hs _
        apply sound_frame hs rfl rfl rfl
        intro howed
        have hle := howed.1
        have hne : j ≠ i := by
          intro heq
          rw [heq] at hclear
          exact hclear howed.2
        exact ⟨by omega, howed.2⟩
    . next hj =>
      apply h.frame rfl (fun _ => Iff.rfl)
      intro hs hreg
      apply sound_frame hs rfl rfl rfl
      intro howed
      have hle := howed.1
      have hi := hreg.consumer
      omega

theorem Listening.weaken {pc : Broadcast.ConsumerPc α} (h : q.Listening i owed pc) (howed : owed → owed')
    : q.Listening i owed' pc := by
  apply h.frame rfl (fun _ => Iff.rfl)
  intro hs _
  exact sound_frame hs rfl rfl rfl howed

theorem Listening.wait {wpc : WaitPc} (h : q.Listening i owed (.wait wpc)) {p : Progress WaitPc Bool}
    (hr : q.waitForData i wpc = some (q', p)) : q'.Listening i owed (Broadcast.afterWait p) := by
  unfold waitForData at hr
  cases wpc with
  | register =>
    dsimp only at hr
    split at hr
    . cases hr
      trivial
    . next hvalid =>
      cases hr
      have hlt : i < kMaxConsumers := by
        by_contra hge
        exact hvalid (.inl (by omega))
      exact ⟨h, hlt, or_bit_self (Nat.lt_trans hlt (by decide))⟩
  | pending =>
    dsimp only at hr
    split at hr
    . cases hr
      trivial
    . next hnone =>
      cases hr
      refine ⟨h, ?_⟩
      intro _ _ hwork _
      exact absurd hwork hnone
  | unregister =>
    cases hr
    trivial
  | poll =>
    dsimp only at hr
    split at hr
    . cases hr
      trivial
    . cases hr
  | woken ret =>
    dsimp only at hr
    split at hr
    . cases hr
      trivial
    . cases hr
      trivial
  | read =>
    cases hr
    trivial

theorem Listening.changedBy {pc : Broadcast.ConsumerPc α} {j : Nat} (h : q.Listening j owed pc)
    (hq : q.ChangedBy i q') (hne : j ≠ i) : q'.Listening j owed pc := by
  apply h.frame hq.numConsumers
  . intro hlt
    exact hq.blocked j hlt hne
  . intro hs _
    exact sound_frame hs (hq.wakeFds j hne) hq.tail (hq.heads j hne) id

end SPMCEventQueue

namespace Broadcast

open SPMCEventQueue (PushPc PopPc WaitPc)

variable {α : Type} {s s' : Broadcast α}

def AllListening (s : Broadcast α) : Prop := ∀ k i, (s.queues k).Listening i (s.Owes k i) (s.consumers k i)

theorem OfConsumer.owes {k i : Nat} (h : OfConsumer k i s s') (k' j : Nat) : s'.Owes k' j = s.Owes k' j := by
  unfold Owes
  rw [h.producer]

theorem AllListening.ofConsumer {k i : Nat} (h : s.AllListening) (hs : OfConsumer k i s s')
    (hown : (s'.queues k).Listening i (s.Owes k i) (s'.consumers k i)) : s'.AllListening := by
  intro k' j
  rw [hs.owes]
  by_cases hk : k' = k
  . rw [hk]
    by_cases hj : j = i
    . rw [hj]
      exact hown
    . rw [hs.consumers k j (.inr hj)]
      exact (h k j).changedBy hs.queue hj
  . rw [hs.queues k' hk, hs.consumers k' j (.inl hk)]
    exact h k' j

theorem afterPush_owes {k i : Nat} {ev : α} {p : Progress PushPc Bool} (h : SPMCEventQueue.owesAfter p i)
    : (afterPush k ev p).Owes k i := by
  cases p with
  | next pc => exact ⟨rfl, h⟩
  | ret r => exact h

theorem AllListening.producer (h : s.AllListening) (hstep : s.stepProducer = some s') : s'.AllListening := by
  obtain ⟨k, ev, pc, hpc, hs⟩ := stepProducer_ofProducer hstep
  have howes : ∀ k' i, s.Owes k' i → k = k' ∧ pc.Owes i := by
    intro k' i howed
    unfold Owes at howed
    rw [hpc] at howed
    exact howed
  intro k' i
  rw [hs.consumers]
  by_cases hk : k' = k
  . rw [hk, hs.queue]
    have hi := (h k i).weaken (fun howed => (howes k i howed).2)
    apply (hi.push s.cachedMinHead ev).weaken
    intro howed
    unfold Owes
    rw [hs.producer]
    exact afterPush_owes howed
  . rw [hs.queues k' hk]
    apply (h k' i).weaken
    -- the producer owes nothing to another queue
    intro howed
    exact absurd (howes k' i howed).1.symm hk

theorem AllListening.next {l : Label α} (h : s.AllListening) (hstep : step s l = some s') : s'.AllListening := by
  cases step_moves hstep with
  | push k ev hidle =>
    intro k' i
    apply (h k' i).weaken
    intro howed
    unfold Owes at howed
    rw [hidle] at howed
    exact howed.elim
  | producer s' hprod => exact h.producer hprod
  | call _ k i pc hi _ hpc =>
    apply h.ofConsumer (OfConsumer.setConsumer k i pc)
    rw [setConsumer_consumers_self]
    cases hpc with
    | inl hpop =>
      rw [hpop]
      trivial
    | inr hwait =>
      rw [hwait]
      exact hi
  | flush k i _ hidle =>
    apply h.ofConsumer (OfConsumer.flush k i)
    rw [setQueue_consumers, hidle]
    trivial
  | pop k i pc hpc =>
    apply h.ofConsumer (stepPop_ofConsumer k i pc)
    unfold stepPop
    rw [setConsumer_consumers_self]
    generalize ((s.queues k).pop i pc).2 = p
    cases p with
    | next pc' => trivial
    | ret r => trivial
  | wait k i pc s' hpc hwait =>
    apply h.ofConsumer (stepWait_ofConsumer hwait)
    have hi := h k i
    rw [hpc] at hi
    unfold stepWait at hwait
    split at hwait
    . next q p hq =>
      cases hwait
      rw [setConsumer_consumers_self, setConsumer_queues, setQueue_queues_self]
      exact hi.wait hq
    . cases hwait
  | interrupt k i hpc =>
    apply h.ofConsumer (OfConsumer.setConsumer k i _)
    rw [setConsumer_consumers_self]
    trivial

theorem AllListening.awake (h : s.AllListening) : s.Awake := by
  intro k i hpoll hzero hpending
  have hi := h k i
  rw [hpoll] at hi
  refine hi.2 () trivial hpending ?_
  show ((s.queues k).wakeFds i).getD 1 = 0
  rw [hzero]
  rfl

theorem sleeper_woken (queues : Nat → SPMCEventQueue α) (labels : List (Label α)) (s : Broadcast α)
    (hrun : Run.exec step (start queues) labels = some s) : s.Awake := by
  apply AllListening.awake
  apply Run.exec_keeps (fun _ _ _ h hstep => AllListening.next h hstep) _ hrun
  intro k i
  trivial

def pair : SPMCEventQueue Nat := create (fun _ => 0) 2 1 (fun _ => true)

/--
The consumer is asleep when the tail is stored.
-/
def asleepAtPush : List (Label Nat) :=
  [.wait 0 0, .consumer 0 0, .consumer 0 0, .push 0 7, .producer, .producer, .producer]

theorem sleeper_woken_atPush
    : ∃ s, Run.exec step (start (fun _ => pair)) asleepAtPush = some s ∧
        s.consumers 0 0 = .wait .poll ∧ (s.queues 0).pending 0 > 0 ∧ s.Owes 0 0 := by
  refine ⟨_, rfl, rfl, ?_, ?_⟩
  . decide
  . apply sleeper_woken (fun _ => pair) asleepAtPush _ rfl
    . rfl
    . rfl
    . decide

end Broadcast

end NebulaXTrader
