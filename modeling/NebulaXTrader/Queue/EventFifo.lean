import NebulaXTrader.Lib.Run
import NebulaXTrader.Queue.Lemmas.SPSCEventRing

/-!
This module contains the theorem that `SPSCEventRing` is a bounded queue for one producer and one consumer, whatever
the order of their accesses, and that the consumer pops what it has peeked.
-/

namespace NebulaXTrader

namespace SPSCEventRing

variable {α : Type}

inductive ConsumerPc (α : Type) where
  | idle
  | pop (pc : PopPc α)
  | peek (pc : PeekPc)

/--
The ring with its two sides. `pushed` and `popped` record the events that calls have accepted and returned, `peeked`
the answer of the last `peek` while no event has been popped after it.
-/
structure Pipe (α : Type) where
  ring : SPSCEventRing α
  producer : Option (α × PushPc)
  consumer : ConsumerPc α
  pushed : List α
  popped : List α
  peeked : Option α

inductive Move (α : Type) where
  | push (ev : α)
  | producer
  | pop
  | peek
  | consumer

namespace Pipe

def init (r : SPSCEventRing α) : Pipe α where
  ring := r
  producer := none
  consumer := .idle
  pushed := []
  popped := []
  peeked := none

def stepProducer (s : Pipe α) : Option (Pipe α) :=
  match s.producer with
  | none => none
  | some (ev, pc) =>
    match s.ring.push ev pc with
    | (ring, .next pc) => some { s with ring := ring, producer := some (ev, pc) }
    | (ring, .ret true) => some { s with ring := ring, producer := none, pushed := s.pushed ++ [ev] }
    | (ring, .ret false) => some { s with ring := ring, producer := none }

def stepConsumer (s : Pipe α) : Option (Pipe α) :=
  match s.consumer with
  | .idle => none
  | .pop pc =>
    match s.ring.pop pc with
    | (ring, .next pc) => some { s with ring := ring, consumer := .pop pc }
    | (ring, .ret none) => some { s with ring := ring, consumer := .idle }
    | (ring, .ret (some ev)) =>
      some { s with ring := ring, consumer := .idle, popped := s.popped ++ [ev], peeked := none }
  | .peek pc =>
    match s.ring.peek pc with
    | .next pc => some { s with consumer := .peek pc }
    | .ret none => some { s with consumer := .idle }
    | .ret (some ev) => some { s with consumer := .idle, peeked := some ev }

def step (s : Pipe α) : Move α → Option (Pipe α)
  | .push ev =>
    match s.producer with
    | none => some { s with producer := some (ev, .loadTail) }
    | some _ => none
  | .producer => s.stepProducer
  | .pop =>
    match s.consumer with
    | .idle => some { s with consumer := .pop .loadHead }
    | _ => none
  | .peek =>
    match s.consumer with
    | .idle => some { s with consumer := .peek .loadHead }
    | _ => none
  | .consumer => s.stepConsumer

end Pipe

/--
What a bounded queue promises in every state. A call fails only at its load of the position of the other side, and
then the queue is full, or empty, at that load.
-/
structure Fifo (s : Pipe α) : Prop where
  order : s.popped <+: s.pushed
  bounded : s.pushed.length ≤ s.popped.length + s.ring.capacity
  full : ∀ ev pc, s.producer = some (ev, pc) → (s.ring.push ev pc).2 = .ret false →
    s.pushed.length = s.popped.length + s.ring.capacity
  popEmpty : ∀ pc, s.consumer = .pop pc → (s.ring.pop pc).2 = .ret none → s.popped = s.pushed
  peekEmpty : ∀ pc, s.consumer = .peek pc → s.ring.peek pc = .ret none → s.popped = s.pushed
  peeked : ∀ ev, s.peeked = some ev → ∀ pc r, s.consumer = .pop pc → (s.ring.pop pc).2 = .ret r → r = some ev
  unread : ∀ ev tail, s.producer = some (ev, .writeSlot tail) → ∀ j, j < s.pushed.length - s.popped.length →
    s.ring.slot (Wrap.add (2 ^ 64) s.ring.head j) ≠ s.ring.slot tail

def ConsumerPc.Knows (pc : ConsumerPc α) (r : SPSCEventRing α) (q : List α) : Prop :=
  match pc with
  | .idle => True
  | .pop pc => pc.Knows r q
  | .peek pc => pc.Knows r q

/--
The events of `q` are in the ring, after the `h` that have left it.
-/
structure Flows (s : Pipe α) (h : Nat) (q : List α) : Prop where
  holds : s.ring.Holds h q
  split : s.pushed = s.popped ++ q
  producer : ∀ ev pc, s.producer = some (ev, pc) → pc.Knows s.ring q ev
  consumer : s.consumer.Knows s.ring q
  peeked : ∀ ev, s.peeked = some ev → ∃ rest, q = ev :: rest

variable {s s' : Pipe α} {h : Nat} {q : List α}

theorem Flows.init (slots : Nat → α) {k : Nat} (hk : k < 64) {p : Nat} (hp : p < 2 ^ 64)
    : Flows (Pipe.init ⟨slots, 2 ^ k, p, p⟩) p [] := by
  refine ⟨⟨⟨k, hk, rfl⟩, ?_, ?_, Nat.zero_le _, ?_⟩, rfl, ?_, trivial, ?_⟩
  . exact (Nat.mod_eq_of_lt hp).symm
  . exact (Nat.mod_eq_of_lt hp).symm
  . intro j hj
    cases hj
  . intro ev pc hpc
    cases hpc
  . intro ev hev
    cases hev

theorem ConsumerPc.Knows.frame {pc : ConsumerPc α} {r r' : SPSCEventRing α} (hpc : pc.Knows r q)
    (hhead : r'.head = r.head) (evs : List α) : pc.Knows r' (q ++ evs) := by
  cases pc with
  | idle => trivial
  | pop pc => exact PopPc.Knows.frame hpc hhead evs
  | peek pc => exact PeekPc.Knows.frame hpc hhead evs

theorem Flows.stepProducer (hs : Flows s h q) (hstep : s.stepProducer = some s') : ∃ q', Flows s' h q' := by
  unfold Pipe.stepProducer at hstep
  split at hstep
  . cases hstep
  . next ev pc hproducer =>
    have hpush := hs.holds.push (hs.producer ev pc hproducer)
    split at hstep
    . next ring pc' hnext =>
      rw [hnext] at hpush
      cases hstep
      have hframe := hs.consumer.frame hpush.2.2.1 []
      rw [List.append_nil] at hframe
      refine ⟨q, hpush.1, hs.split, ?_, hframe, hs.peeked⟩
      intro ev' pc'' heq
      cases heq
      exact hpush.2.2.2
    . next ring hret =>
      rw [hret] at hpush
      cases hstep
      refine ⟨q ++ [ev], hpush.1, ?_, ?_, hs.consumer.frame hpush.2.2 [ev], ?_⟩
      . show s.pushed ++ [ev] = s.popped ++ (q ++ [ev])
        rw [hs.split, List.append_assoc]
      . intro ev' pc' heq
        cases heq
      . intro ev' hpeeked
        cases hs.peeked ev' hpeeked with
        | intro rest hrest => exact ⟨rest ++ [ev], by rw [hrest, List.cons_append]⟩
    . next ring hret =>
      rw [hret] at hpush
      cases hstep
      have hring : ring = s.ring := hpush.1
      subst hring
      refine ⟨q, hs.holds, hs.split, ?_, hs.consumer, hs.peeked⟩
      intro ev' pc' heq
      cases heq

theorem Flows.stepConsumer (hs : Flows s h q) (hstep : s.stepConsumer = some s') : ∃ h' q', Flows s' h' q' := by
  have hconsumer := hs.consumer
  unfold Pipe.stepConsumer at hstep
  split at hstep
  . cases hstep
  . next pc hpc =>
    rw [hpc] at hconsumer
    have hpop := hs.holds.pop hconsumer
    split at hstep
    . next ring pc' hnext =>
      rw [hnext] at hpop
      cases hstep
      have hring : ring = s.ring := hpop.1
      subst hring
      exact ⟨h, q, hs.holds, hs.split, hs.producer, hpop.2, hs.peeked⟩
    . next ring hret =>
      rw [hret] at hpop
      cases hstep
      have hring : ring = s.ring := hpop.1
      subst hring
      exact ⟨h, q, hs.holds, hs.split, hs.producer, trivial, hs.peeked⟩
    . next ring ev hret =>
      rw [hret] at hpop
      obtain ⟨rest, hq, hholds, hcap, htail, hslots⟩ := hpop
      cases hstep
      refine ⟨h + 1, rest, hholds, ?_, ?_, trivial, ?_⟩
      . show s.pushed = s.popped ++ [ev] ++ rest
        rw [hs.split, hq, List.append_assoc, List.singleton_append]
      . intro ev' pc' heq
        apply (hs.producer ev' pc' heq).frame hcap htail hslots
        rw [hq]
        exact Nat.le_succ _
      . intro ev' hpeeked
        cases hpeeked
  . next pc hpc =>
    rw [hpc] at hconsumer
    have hpeek := hs.holds.peek hconsumer
    split at hstep
    . next pc' hnext =>
      rw [hnext] at hpeek
      cases hstep
      exact ⟨h, q, hs.holds, hs.split, hs.producer, hpeek, hs.peeked⟩
    . next hret =>
      cases hstep
      exact ⟨h, q, hs.holds, hs.split, hs.producer, trivial, hs.peeked⟩
    . next ev hret =>
      rw [hret] at hpeek
      cases hstep
      refine ⟨h, q, hs.holds, hs.split, hs.producer, trivial, ?_⟩
      intro ev' hpeeked
      cases hpeeked
      exact hpeek

theorem Flows.step (hs : Flows s h q) {m : Move α} (hstep : s.step m = some s') : ∃ h' q', Flows s' h' q' := by
  cases m with
  | push ev =>
    unfold Pipe.step at hstep
    dsimp only at hstep
    split at hstep
    . cases hstep
      refine ⟨h, q, hs.holds, hs.split, ?_, hs.consumer, hs.peeked⟩
      intro ev' pc' heq
      cases heq
      trivial
    . cases hstep
  | producer => exact ⟨h, hs.stepProducer hstep⟩
  | pop =>
    unfold Pipe.step at hstep
    dsimp only at hstep
    split at hstep
    . cases hstep
      exact ⟨h, q, hs.holds, hs.split, hs.producer, trivial, hs.peeked⟩
    . cases hstep
  | peek =>
    unfold Pipe.step at hstep
    dsimp only at hstep
    split at hstep
    . cases hstep
      exact ⟨h, q, hs.holds, hs.split, hs.producer, trivial, hs.peeked⟩
    . cases hstep
  | consumer => exact hs.stepConsumer hstep

theorem Flows.length (hs : Flows s h q) : s.pushed.length = s.popped.length + q.length := by
  rw [hs.split, List.length_append]

theorem Flows.fifo (hs : Flows s h q) : Fifo s := by
  have hlength := hs.length
  have hfits := hs.holds.fits
  refine ⟨⟨q, hs.split.symm⟩, by omega, ?_, ?_, ?_, ?_, ?_⟩
  . intro ev pc hpc hret
    rw [hlength, hs.holds.push_full (hs.producer ev pc hpc) hret]
  . intro pc hpc hret
    have hknows := hs.consumer
    rw [hpc] at hknows
    rw [hs.split, hs.holds.pop_none hknows hret, List.append_nil]
  . intro pc hpc hret
    have hknows := hs.consumer
    rw [hpc] at hknows
    have hpeek := hs.holds.peek hknows
    rw [hret] at hpeek
    rw [hs.split, hpeek, List.append_nil]
  . intro ev hev pc r hpc hret
    have hknows := hs.consumer
    rw [hpc] at hknows
    cases hs.peeked ev hev with
    | intro rest hq =>
      cases r with
      | none =>
        rw [hs.holds.pop_none hknows hret] at hq
        cases hq
      | some ev' =>
        cases hs.holds.pop_some hknows hret with
        | intro rest' hq' =>
          rw [hq] at hq'
          cases hq'
          rfl
  . intro ev tail hpc j hj heq
    have hknows := hs.producer ev _ hpc
    have htail : tail = s.ring.tail := hknows.1
    have hroom : q.length < s.ring.capacity := hknows.2
    have hread : Wrap.add (2 ^ 64) s.ring.head j = (h + j) % 2 ^ 64 := by
      rw [hs.holds.head, Wrap.add_mod]
    -- both positions lie within one lap
    rw [hread, htail, hs.holds.tail, hs.holds.slot_mod, hs.holds.slot_mod] at heq
    have hsame := Wrap.eq_of_mod_eq (W := s.ring.capacity) (by omega) (by omega) heq.symm
    omega

theorem flows_of_run {k : Nat} (hk : k < 64) (slots : Nat → α) {p : Nat} (hp : p < 2 ^ 64) (ms : List (Move α))
    (hrun : Run.exec Pipe.step (Pipe.init ⟨slots, 2 ^ k, p, p⟩) ms = some s) : ∃ h q, Flows s h q := by
  apply Run.exec_keeps _ ⟨p, [], Flows.init slots hk hp⟩ hrun
  intro s₁ m s₂ hs hstep
  obtain ⟨h, q, hs⟩ := hs
  exact hs.step hstep

/--
Whatever the order of the accesses of the two sides, and wherever the positions begin, the ring is a queue of at
most its capacity.
-/
theorem fifo_of_run {k : Nat} (hk : k < 64) (slots : Nat → α) {p : Nat} (hp : p < 2 ^ 64) (ms : List (Move α))
    (hrun : Run.exec Pipe.step (Pipe.init ⟨slots, 2 ^ k, p, p⟩) ms = some s) : Fifo s := by
  obtain ⟨h, q, hs⟩ := flows_of_run hk slots hp ms hrun
  exact hs.fifo

def pushTwoPopOne : List (Move Nat) :=
  [.push 5, .producer, .producer, .producer, .producer, .push 7, .producer, .producer, .producer, .producer,
    .peek, .consumer, .consumer, .consumer, .pop, .consumer, .consumer, .consumer, .consumer]

/--
The positions start over at 0 between the two events.
-/
theorem fifo_across_wrap
    : ∃ s, Run.exec Pipe.step (Pipe.init ⟨fun _ => 0, 2 ^ 1, 2 ^ 64 - 1, 2 ^ 64 - 1⟩) pushTwoPopOne = some s ∧
      s.pushed = [5, 7] ∧ s.popped = [5] ∧ s.ring.tail = 1 ∧ Fifo s := by
  refine ⟨_, rfl, rfl, rfl, rfl, ?_⟩
  exact fifo_of_run (k := 1) (by decide) (fun _ => 0) (p := 2 ^ 64 - 1) (by decide) pushTwoPopOne rfl

end SPSCEventRing

end NebulaXTrader
