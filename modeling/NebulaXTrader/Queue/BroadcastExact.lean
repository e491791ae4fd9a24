import NebulaXTrader.Queue.Lemmas.SPMCDelivery

/-!
This module contains the theorem when the consumers of broadcast queues receive exactly what was pushed to their queue.
-/

namespace NebulaXTrader

open SPSCEventRing (Progress)

namespace Broadcast

open SPMCEventQueue (PushPc PopPc WaitPc)

variable {α : Type} {s s' : Broadcast α}

/--
Every consumer has received what was pushed to its queue, in order, up to where it is, and all of it when it has caught
up. A push writes a slot only when every consumer has popped the event in it.
-/
structure Exact (s : Broadcast α) : Prop where
  receives : ∀ k i, i < (s.queues k).numConsumers → s.received k i <+: s.pushed k
  caughtUp : ∀ k i, i < (s.queues k).numConsumers → ((s.queues k).locals i).head = (s.queues k).tail →
    s.received k i = s.pushed k
  keeps : ∀ k ev tail, s.producer = .push k ev (.writeSlot tail) → ∀ i, i < (s.queues k).numConsumers →
    ∀ p, (s.received k i).length ≤ p → p < (s.pushed k).length → (s.queues k).slot p ≠ (s.queues k).slot tail

def Careful (s : Broadcast α) (l : Label α) : Prop :=
  match l with
  | .producer =>
    match s.producer with
    | .push k _ pc => (s.queues k).CarefulPush s.cachedMinHead pc
    | .idle => True
  | _ => True

instance (s : Broadcast α) (l : Label α) : Decidable (s.Careful l) :=
  match l with
  | .producer =>
    match h : s.producer with
    | .push k _ pc => decidable_of_iff ((s.queues k).CarefulPush s.cachedMinHead pc) (by simp [Careful, h])
    | .idle => isTrue (by simp [Careful, h])
  | .push .. | .pop .. | .skip .. | .flush .. | .wait .. | .consumer .. | .interrupt .. => isTrue trivial

def ProducerPc.Knows (pc : ProducerPc α) (queues : Nat → SPMCEventQueue α) : Prop :=
  match pc with
  | .idle => True
  | .push k ev pc => pc.Knows (queues k) ev

def ConsumerPc.Knows (pc : ConsumerPc α) (q : SPMCEventQueue α) (i : Nat) (l : List α) : Prop :=
  match pc with
  | .idle => True
  | .pop pc => i < q.numConsumers ∧ pc.Knows (q.locals i).head l
  | .wait _ => i < q.numConsumers

structure Inv (s : Broadcast α) : Prop where
  delivers : ∀ k, (s.queues k).Delivers (s.pushed k) (s.received k)
  producer : s.producer.Knows s.queues
  consumers : ∀ k i, (s.consumers k i).Knows (s.queues k) i (s.pushed k)

def Grows (s s' : Broadcast α) : Prop := ∀ k i, (s.queues k).heads i ≤ (s'.queues k).heads i

theorem afterPush_knows {k : Nat} {ev : α} {p : Progress PushPc Bool} {queues : Nat → SPMCEventQueue α}
    (h : ∀ pc, p = .next pc → pc.Knows (queues k) ev) : (afterPush k ev p).Knows queues := by
  cases p with
  | next pc => exact h pc rfl
  | ret r => trivial

theorem afterPop_knows {p : Progress (PopPc α) (Option α)} {q : SPMCEventQueue α} {i : Nat} {l : List α}
    (hi : i < q.numConsumers) (h : ∀ pc, p = .next pc → pc.Knows (q.locals i).head l)
    : (afterPop p).Knows q i l := by
  cases p with
  | next pc => exact ⟨hi, h pc rfl⟩
  | ret r => trivial

theorem ConsumerPc.Knows.frame {pc : ConsumerPc α} {q q' : SPMCEventQueue α} {i : Nat} {l : List α}
    (h : pc.Knows q i l) (hn : q'.numConsumers = q.numConsumers) (hlocals : q'.locals i = q.locals i) (evs : List α)
    : pc.Knows q' i (l ++ evs) := by
  cases pc with
  | idle => trivial
  | pop pc =>
    unfold ConsumerPc.Knows
    rw [hn, hlocals]
    exact ⟨h.1, h.2.append evs⟩
  | wait pc =>
    unfold ConsumerPc.Knows
    rw [hn]
    exact h

theorem ProducerPc.Knows.ofConsumer {k i : Nat} (h : s.producer.Knows s.queues) (hs : OfConsumer k i s s')
    (hheads : (s.queues k).heads i ≤ (s'.queues k).heads i)
    (hhead : ((s.queues k).locals i).head ≤ ((s'.queues k).locals i).head) : s'.producer.Knows s'.queues := by
  rw [hs.producer]
  unfold ProducerPc.Knows at h ⊢
  split
  . trivial
  . next k' ev pc hpc =>
    rw [hpc] at h
    by_cases hk : k' = k
    . rw [hk] at h ⊢
      exact h.changedBy hs.queue hheads hhead
    . rw [hs.queues k' hk]
      exact h

theorem Inv.ofConsumer {k i : Nat} (h : s.Inv) (hs : OfConsumer k i s s')
    (hfollows : (s'.queues k).Follows i (s.pushed k) (s'.received k i))
    (hheads : (s.queues k).heads i ≤ (s'.queues k).heads i)
    (hhead : ((s.queues k).locals i).head ≤ ((s'.queues k).locals i).head)
    (hpc : (s'.consumers k i).Knows (s'.queues k) i (s.pushed k)) : s'.Inv ∧ s.Grows s' := by
  have hq := hs.queue
  refine ⟨⟨?_, h.producer.ofConsumer hs hheads hhead, ?_⟩, ?_⟩
  . intro k'
    rw [hs.pushed]
    by_cases hk : k' = k
    . rw [hk]
      have hl := (h.delivers k).holds
      refine ⟨⟨?_, hq.tail.trans hl.tail, hl.lt⟩, ?_⟩
      . rw [hq.capacity]
        exact hl.cap
      . intro j hj
        by_cases heq : j = i
        . rw [heq]
          exact hfollows
        . rw [hq.numConsumers] at hj
          rw [hs.received k j (.inr heq)]
          exact ((h.delivers k).follows j hj).congr (hq.heads j heq) (hq.locals j heq) hq.capacity hq.slots
    . rw [hs.queues k' hk]
      have hreceived : s'.received k' = s.received k' := by
        funext j
        exact hs.received k' j (.inl hk)
      rw [hreceived]
      exact h.delivers k'
  . intro k' j
    rw [hs.pushed]
    by_cases hk : k' = k
    . rw [hk]
      by_cases heq : j = i
      . rw [heq]
        exact hpc
      . rw [hs.consumers k j (.inr heq)]
        have hj := (h.consumers k j).frame hq.numConsumers (hq.locals j heq) []
        rw [List.append_nil] at hj
        exact hj
    . rw [hs.queues k' hk, hs.consumers k' j (.inl hk)]
      exact h.consumers k' j
  . intro k' j
    by_cases hk : k' = k
    . rw [hk]
      by_cases heq : j = i
      . rw [heq]
        exact hheads
      . exact le_of_eq (hq.heads j heq).symm
    . rw [hs.queues k' hk]

theorem Inv.stepProducer (h : s.Inv) (hcareful : s.Careful .producer) (hstep : s.stepProducer = some s')
    : s'.Inv ∧ s.Grows s' := by
  obtain ⟨k, ev, pc, hpc, hs⟩ := stepProducer_ofProducer hstep
  unfold Careful at hcareful
  dsimp only at hcareful
  rw [hpc] at hcareful
  have hknows := h.producer
  rw [hpc] at hknows
  obtain ⟨hdelivers, hnext⟩ := (h.delivers k).push hknows hcareful
  obtain ⟨hn, hlocals, hheads⟩ := (s.queues k).push_keeps s.cachedMinHead ev pc
  refine ⟨⟨?_, ?_, ?_⟩, ?_⟩
  . intro k'
    rw [hs.received]
    by_cases hk : k' = k
    . rw [hk, hs.queue, hs.pushed]
      exact hdelivers
    . rw [hs.queues k' hk, hs.pushed_other k' hk]
      exact h.delivers k'
  . rw [hs.producer]
    apply afterPush_knows
    intro pc' hp
    rw [hs.queue]
    exact hnext pc' hp
  . intro k' j
    rw [hs.consumers]
    by_cases hk : k' = k
    . rw [hk, hs.queue, hs.pushed]
      exact (h.consumers k j).frame hn (by rw [hlocals]) _
    . rw [hs.queues k' hk, hs.pushed_other k' hk]
      exact h.consumers k' j
  . intro k' j
    by_cases hk : k' = k
    . rw [hk, hs.queue, hheads]
    . rw [hs.queues k' hk]

theorem Inv.stepPop {k i : Nat} {pc : PopPc α} (h : s.Inv) (hpc : s.consumers k i = .pop pc)
    : (s.stepPop k i pc).Inv ∧ s.Grows (s.stepPop k i pc) := by
  have hknows := h.consumers k i
  rw [hpc] at hknows
  obtain ⟨hfollows, hheads, hhead, hnext⟩ :=
    ((h.delivers k).follows i hknows.1).pop (h.delivers k).holds hknows.2
  have hn := ((s.queues k).pop_changedBy i pc).numConsumers
  apply h.ofConsumer (stepPop_ofConsumer k i pc)
  . unfold Broadcast.stepPop
    simp only [setConsumer_queues, setConsumer_received, setQueue_queues_self, setQueue_received,
      setReceived_received_self]
    exact hfollows
  . unfold Broadcast.stepPop
    simp only [setConsumer_queues, setQueue_queues_self]
    exact hheads
  . unfold Broadcast.stepPop
    simp only [setConsumer_queues, setQueue_queues_self]
    exact hhead
  . unfold Broadcast.stepPop
    simp only [setConsumer_queues, setQueue_queues_self, setConsumer_consumers_self]
    apply afterPop_knows
    . rw [hn]
      exact hknows.1
    . exact hnext

theorem Inv.stepWait {k i : Nat} {pc : WaitPc} (h : s.Inv) (hpc : s.consumers k i = .wait pc)
    (hwait : s.stepWait k i pc = some s') : s'.Inv ∧ s.Grows s' := by
  have hi : i < (s.queues k).numConsumers := by
    have hknows := h.consumers k i
    rw [hpc] at hknows
    exact hknows
  have hs := stepWait_ofConsumer hwait
  unfold Broadcast.stepWait at hwait
  split at hwait
  . next q p hq =>
    obtain ⟨hheads, hlocals⟩ := SPMCEventQueue.waitForData_keeps hq
    have hchanged := SPMCEventQueue.waitForData_changedBy hq
    cases hwait
    apply h.ofConsumer hs
    . simp only [setConsumer_queues, setConsumer_received, setQueue_queues_self, setQueue_received]
      exact ((h.delivers k).follows i hi).congr (by rw [hheads]) (by rw [hlocals]) hchanged.capacity hchanged.slots
    . rw [setConsumer_queues, setQueue_queues_self, hheads]
    . rw [setConsumer_queues, setQueue_queues_self, hlocals]
    . rw [setConsumer_queues, setQueue_queues_self, setConsumer_consumers_self]
      cases p with
      | next pc' =>
        show i < q.numConsumers
        rw [hchanged.numConsumers]
        exact hi
      | ret r => trivial
  . cases hwait

theorem Inv.next {l : Label α} (h : s.Inv) (hcareful : s.Careful l) (hstep : step s l = some s')
    : s'.Inv ∧ s.Grows s' := by
  cases step_moves hstep with
  | push k ev hidle => exact ⟨⟨h.delivers, trivial, h.consumers⟩, fun _ _ => Nat.le_refl _⟩
  | producer s' hprod => exact h.stepProducer hcareful hprod
  | call _ k i pc hi _ hpc =>
    apply h.ofConsumer (OfConsumer.setConsumer k i pc)
    . exact (h.delivers k).follows i hi
    . exact Nat.le_refl _
    . exact Nat.le_refl _
    . rw [setConsumer_consumers_self]
      cases hpc with
      | inl hpop =>
        rw [hpop]
        exact ⟨hi, trivial⟩
      | inr hwait =>
        rw [hwait]
        exact hi
  | flush k i hi hidle =>
    have hfollows := (h.delivers k).follows i hi
    apply h.ofConsumer (OfConsumer.flush k i)
    . rw [setQueue_queues_self, setQueue_received]
      exact hfollows.flush
    . rw [setQueue_queues_self, SPMCEventQueue.progressFlush_heads_self]
      exact hfollows.published
    . rw [setQueue_queues_self, SPMCEventQueue.progressFlush_head]
    . rw [setQueue_consumers, hidle]
      trivial
  | pop k i pc hpc => exact h.stepPop hpc
  | wait k i pc s' hpc hwait => exact h.stepWait hpc hwait
  | interrupt k i hpc =>
    have hi : i < (s.queues k).numConsumers := by
      have hknows := h.consumers k i
      rw [hpc] at hknows
      exact hknows
    apply h.ofConsumer (OfConsumer.setConsumer k i _)
    . exact (h.delivers k).follows i hi
    . exact Nat.le_refl _
    . exact Nat.le_refl _
    . rw [setConsumer_consumers_self]
      exact hi

theorem Inv.exact (h : s.Inv) : s.Exact := by
  constructor
  . intro k i hi
    rw [((h.delivers k).follows i hi).received]
    exact List.take_prefix _ _
  . intro k i hi hhead
    rw [((h.delivers k).follows i hi).received, hhead, (h.delivers k).holds.tail, List.take_length]
  . intro k ev tail hpc i hi p hp hlt heq
    have hl := (h.delivers k).holds
    have hfollows := (h.delivers k).follows i hi
    have hknows := h.producer
    rw [hpc] at hknows
    obtain ⟨htail, hroom⟩ := hknows
    have hroom := hroom i hi
    have hpopped := hfollows.popped
    rw [hfollows.received, List.length_take, Nat.min_eq_left hpopped] at hp
    rw [hl.slot_eq, hl.slot_eq] at heq
    rw [hl.tail] at htail
    have hsame := Wrap.eq_of_mod_eq (W := (s.queues k).capacity) (by omega) (by omega) heq.symm
    omega

theorem Inv.start {queues : Nat → SPMCEventQueue α} (hq : ∀ k, (queues k).Created) : (start queues).Inv := by
  refine ⟨?_, trivial, fun _ _ => trivial⟩
  intro k
  obtain ⟨eventfd, hcreated⟩ := (hq k).created
  refine ⟨⟨(hq k).cap, ?_, Nat.two_pow_pos 64⟩, ?_⟩
  . show (queues k).tail = 0
    rw [hcreated]
    rfl
  . intro i _
    have hheads : (queues k).heads i = 0 := by
      rw [hcreated]
      rfl
    have hhead : ((queues k).locals i).head = 0 := by
      rw [hcreated]
      rfl
    refine ⟨?_, ?_, ?_, ?_, ?_⟩
    . show (queues k).heads i ≤ ((queues k).locals i).head
      rw [hheads, hhead]
    . show ((queues k).locals i).head ≤ 0
      rw [hhead]
    . exact Nat.zero_le _
    . intro p _ hlt
      exact absurd hlt (Nat.not_lt_zero p)
    . exact (List.take_nil).symm

/--
Every run from new queues in which no push takes its first test further than the published positions of its own queue
allow.
-/
theorem broadcast_exact {queues : Nat → SPMCEventQueue α} (hq : ∀ k, (queues k).Created) {labels : List (Label α)}
    (hcareful : Run.Along step Careful (start queues) labels) {s : Broadcast α}
    (hrun : Run.exec step (start queues) labels = some s) : s.Exact :=
  Inv.exact (Run.exec_inv (fun _ _ _ h hgood hstep => (Inv.next h hgood hstep).1) (Inv.start hq) hcareful hrun)

def pairs (_ : Nat) : SPMCEventQueue Nat := create (fun _ => 0) 2 1 (fun _ => true)

theorem pairs_created (k : Nat) : (pairs k).Created := by
  have hconsumers : 1 ≤ SPMCEventQueue.kMaxConsumers := by decide
  exact ⟨⟨1, by decide, rfl⟩, hconsumers, _, rfl⟩

def pushAll (k : Nat) (evs : List Nat) : List (Label Nat) :=
  evs.flatMap (fun ev => [.push k ev, .producer, .producer, .producer, .producer])

def popOne (k : Nat) : List (Label Nat) := .pop k 0 :: List.replicate 3 (.consumer k 0)

theorem broadcast_exact_inTurn
    : ∃ s, Run.exec step (start pairs) (pushAll 1 [10, 11] ++ pushAll 0 [20, 21] ++ popOne 0 ++ popOne 1) = some s ∧
        s.Exact := by
  generalize hr : Run.exec step (start pairs) (pushAll 1 [10, 11] ++ pushAll 0 [20, 21] ++ popOne 0 ++ popOne 1) = r
  have hsome : r.isSome := by
    rw [← hr]
    decide +kernel
  obtain ⟨s, rfl⟩ := Option.isSome_iff_exists.1 hsome
  exact ⟨s, rfl, broadcast_exact pairs_created (by decide +kernel) hr⟩

/--
Both queues are full, queue 0 is read and its next push scans; the first test of the next push on queue 1 uses what that
scan has found.
-/
def overwritten : List (Label Nat) :=
  pushAll 1 [10, 11] ++ pushAll 0 [20, 21] ++ popOne 0 ++ popOne 0 ++ [.consumer 0 0, .push 0 22] ++
    List.replicate 6 .producer ++ pushAll 1 [12] ++ popOne 1

theorem not_broadcast_exact
    : ¬ ∀ queues : Nat → SPMCEventQueue Nat, (∀ k, (queues k).Created) → ∀ labels s,
        Run.exec step (start queues) labels = some s → s.Exact := by
  intro h
  generalize hr : Run.exec step (start pairs) overwritten = r
  have hend : r.map (fun s => ((s.queues 1).numConsumers, s.received 1 0, s.pushed 1)) =
      some (1, [12], [10, 11, 12]) := by
    rw [← hr]
    decide +kernel
  obtain ⟨s, rfl, hs⟩ := Option.map_eq_some_iff.1 hend
  simp only [Prod.mk.injEq] at hs
  obtain ⟨hn, hreceived, hpushed⟩ := hs
  -- the consumer of queue 1 receives the third event first
  have hprefix := (h pairs pairs_created overwritten s hr).receives 1 0 (by omega)
  rw [hreceived, hpushed] at hprefix
  exact absurd hprefix (by decide)

end Broadcast

end NebulaXTrader
