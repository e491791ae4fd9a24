import NebulaXTrader.Runtime.Dispatcher
import NebulaXTrader.Queue.Lemmas.SPSCEventRing

/-!
This module contains the theorem that the events of one worker reach it in the order of their dispatch as
long as the retry thread does not clear `active` while an event is in the bucket or on its way into it.
-/

namespace NebulaXTrader

namespace Dispatcher

open SPSCEventRing (PushPc PopPc PeekPc PendingPc)

variable {α : Type} {s s' : Dispatcher α} {stream q q' b b' : List α} {n : Nat}

def ParserPc.Knows (pc : ParserPc α) (s : Dispatcher α) (q b : List α) : Prop :=
  match pc with
  | .loadActive => s.active = false → s.retry.waiting b = []
  | .direct ev pc => pc.Knows s.spsc q ev ∧ s.retry.waiting b = []
  | .queue ev pc => pc.Knows s.bucket b ev ∧ s.active = true
  | .offload ev pc => pc.Knows s.bucket b ev
  | .storeActive => True

def RetryPc.Knows (pc : RetryPc α) (s : Dispatcher α) (q b : List α) : Prop :=
  match pc with
  | .peek pc => pc.Knows s.bucket b
  | .push ev pc => pc.Knows s.spsc q ev ∧ ∃ rest, b = ev :: rest
  | .pop pc => pc.Knows s.bucket b ∧ b ≠ []
  | _ => True

/--
The events of `q` are in the ring and the events of `b` in the bucket, which `n` events have left before.
-/
structure Flow (stream q b : List α) (n : Nat) (s : Dispatcher α) : Prop where
  spsc : s.spsc.Holds s.popped.length q
  bucket : s.bucket.Holds n b
  worker : s.worker.Knows s.spsc q
  parser : s.parser.Knows s q b
  retry : s.retry.Knows s q b
  kept : s.popped ++ q ++ s.retry.waiting b ++ s.parser.inFlight ++ s.todo = stream

theorem Flow.start {k l : Nat} (hk : k < 64) (hl : l < 64) (slots retrySlots : Nat → α)
    : (start k l slots retrySlots stream).Flow stream [] [] 0 := by
  have hempty : ∀ k, k < 64 → ∀ slots : Nat → α,
      SPSCEventRing.Holds { slots := slots, capacity := 2 ^ k, head := 0, tail := 0 } 0 [] := by
    intro k hk slots
    refine ⟨⟨k, hk, rfl⟩, rfl, rfl, Nat.zero_le _, ?_⟩
    intro j hj
    cases hj
  exact ⟨hempty k hk slots, hempty l hl retrySlots, trivial, fun _ => rfl, trivial, rfl⟩

theorem Flow.fifo (h : s.Flow stream q b n) : s.Fifo stream := by
  have hkept := h.kept
  rw [← h.spsc.contents, ← h.bucket.contents] at hkept
  refine ⟨?_, hkept, ?_⟩
  . rw [← hkept, List.append_assoc, List.append_assoc, List.append_assoc]
    apply List.prefix_append
  . intro hboth
    have hparser := h.parser
    have hretry := h.retry
    cases hp : s.parser with
    | direct ev pc =>
      cases hr : s.retry with
      | push ev' pc' =>
        rw [hp] at hparser
        rw [hr] at hretry
        have hnone := hparser.2
        rw [hr] at hnone
        cases hretry.2 with
        | intro rest hb =>
          rw [hb] at hnone
          cases hnone
      | _ =>
        rw [hr] at hboth
        cases hboth.2
    | _ =>
      rw [hp] at hboth
      cases hboth.1

/-!
What the parsing thread and the retry thread know outlives the steps of the others.
-/

theorem ParserPc.Knows.frame {pc : ParserPc α} (h : pc.Knows s q b) (hspsc : s.spsc.Consumed s'.spsc)
    (hq : q'.length ≤ q.length) (hbucket : s.bucket.Consumed s'.bucket) (hb : b'.length ≤ b.length)
    (hactive : s'.active = s.active) (hwaiting : s'.retry.waiting b' = s.retry.waiting b)
    : pc.Knows s' q' b' := by
  cases pc with
  | loadActive =>
    intro hinactive
    rw [hwaiting]
    apply h
    rw [← hactive]
    exact hinactive
  | direct ev pc => exact ⟨h.1.frame hspsc.capacity hspsc.tail hspsc.slots hq, hwaiting.trans h.2⟩
  | queue ev pc => exact ⟨h.1.frame hbucket.capacity hbucket.tail hbucket.slots hb, hactive.trans h.2⟩
  | offload ev pc => exact PushPc.Knows.frame h hbucket.capacity hbucket.tail hbucket.slots hb
  | storeActive => trivial

theorem ParserPc.Knows.of_waiting {pc : ParserPc α} (h : pc.Knows s q b) (hwaiting : s.retry.waiting b ≠ [])
    (hbucket : s'.bucket = s.bucket) (hactive : s'.active = s.active) : pc.Knows s' q' b := by
  cases pc with
  | loadActive =>
    intro hinactive
    rw [hactive] at hinactive
    exact absurd (h hinactive) hwaiting
  | direct ev pc => exact absurd h.2 hwaiting
  | queue ev pc =>
    unfold ParserPc.Knows
    rw [hbucket, hactive]
    exact h
  | offload ev pc =>
    unfold ParserPc.Knows
    rw [hbucket]
    exact h
  | storeActive => trivial

theorem RetryPc.Knows.append {pc : RetryPc α} (h : pc.Knows s q b) (s' : Dispatcher α) (hspsc : s'.spsc = s.spsc)
    (hhead : s'.bucket.head = s.bucket.head) (evs : List α)
    : pc.Knows s' q (b ++ evs) ∧ pc.waiting (b ++ evs) = pc.waiting b ++ evs := by
  cases pc with
  | peek pc => exact ⟨PeekPc.Knows.frame h hhead evs, rfl⟩
  | push ev pc =>
    refine ⟨⟨?_, ?_⟩, rfl⟩
    . rw [hspsc]
      exact h.1
    . cases h.2 with
      | intro rest hb => exact ⟨rest ++ evs, by rw [hb, List.cons_append]⟩
  | pop pc =>
    refine ⟨⟨PopPc.Knows.frame h.1 hhead evs, ?_⟩, List.tail_append_of_ne_nil h.2⟩
    intro hnil
    exact h.2 (List.append_eq_nil_iff.1 hnil).1
  | idle => exact ⟨trivial, rfl⟩
  | pending pc => exact ⟨trivial, rfl⟩
  | clear => exact ⟨trivial, rfl⟩

theorem RetryPc.Knows.congr {pc : RetryPc α} (h : pc.Knows s q b) (hbucket : s'.bucket = s.bucket)
    (hpush : ∀ ev pc', pc = .push ev pc' → pc'.Knows s.spsc q ev → pc'.Knows s'.spsc q' ev) : pc.Knows s' q' b := by
  cases pc with
  | push ev pc => exact ⟨hpush ev pc rfl h.1, h.2⟩
  | peek pc =>
    unfold RetryPc.Knows
    rw [hbucket]
    exact h
  | pop pc =>
    unfold RetryPc.Knows
    rw [hbucket]
    exact h
  | idle => trivial
  | pending pc => trivial
  | clear => trivial

theorem RetryPc.Knows.of_empty {pc : RetryPc α} (h : pc.Knows s q b) (hwaiting : pc.waiting b = [])
    (hbucket : s'.bucket = s.bucket) : pc.Knows s' q' b := by
  apply h.congr hbucket
  intro ev pc' hpc
  rw [hpc] at h hwaiting
  cases h.2 with
  | intro rest hb =>
    rw [hb] at hwaiting
    cases hwaiting

theorem RetryPc.Knows.consumed {pc : RetryPc α} (h : pc.Knows s q b) (hspsc : s.spsc.Consumed s'.spsc)
    (hq : q'.length ≤ q.length) (hbucket : s'.bucket = s.bucket) : pc.Knows s' q' b := by
  apply h.congr hbucket
  intro ev pc' _ hknows
  exact hknows.frame hspsc.capacity hspsc.tail hspsc.slots hq

theorem Flow.stepWorker (h : s.Flow stream q b n) (hstep : s.stepWorker = some s')
    : ∃ q', s'.Flow stream q' b n := by
  have hpop := h.spsc.pop h.worker
  unfold Dispatcher.stepWorker at hstep
  split at hstep
  . next r pc heq =>
    rw [heq] at hpop
    cases hstep
    cases hpop.1
    exact ⟨q, h.spsc, h.bucket, hpop.2, h.parser, h.retry, h.kept⟩
  . next r ev heq =>
    rw [heq] at hpop
    cases hstep
    cases hpop with
    | intro rest hpop =>
      have hconsumed : s.spsc.Consumed r := ⟨hpop.2.2.1, hpop.2.2.2.1, hpop.2.2.2.2⟩
      have hlength : rest.length ≤ q.length := by
        rw [hpop.1]
        apply Nat.le_succ
      refine ⟨rest, ?_, h.bucket, trivial, ?_, ?_, ?_⟩
      . dsimp only
        rw [List.length_append]
        exact hpop.2.1
      . exact h.parser.frame hconsumed hlength (.refl _) (Nat.le_refl _) rfl rfl
      . exact h.retry.consumed hconsumed hlength rfl
      . have hkept := h.kept
        rw [hpop.1] at hkept
        rw [← hkept]
        simp
  . next r heq =>
    rw [heq] at hpop
    cases hstep
    cases hpop.1
    exact ⟨q, h.spsc, h.bucket, trivial, h.parser, h.retry, h.kept⟩

theorem Flow.access (h : s.Flow stream q b n) {r : SPSCEventRing α} {evs : List α} (pc : ParserPc α)
    (hholds : r.Holds n b') (hhead : r.head = s.bucket.head) (hb : b' = b ++ evs)
    (hinFlight : s.parser.inFlight = evs ++ pc.inFlight)
    (hknows : pc.Knows { s with bucket := r, parser := pc } q b')
    : ({ s with bucket := r, parser := pc }).Flow stream q b' n := by
  -- An access of the parsing thread to the bucket, after which the events of `evs` are in it.
  have hretry := h.retry.append { s with bucket := r, parser := pc } rfl hhead evs
  rw [← hb] at hretry
  refine ⟨h.spsc, hholds, h.worker, hknows, hretry.1, ?_⟩
  rw [← h.kept, hretry.2, hinFlight]
  simp only [List.append_assoc]

theorem Flow.direct (h : s.Flow stream q b n) {ev : α} {pc : SPSCEventRing.PushPc} (hpc : s.parser = .direct ev pc)
    (hstep : s.stepParser = some s') : ∃ q' b', s'.Flow stream q' b' n := by
  have hkept := h.kept
  have hparser := h.parser
  unfold Dispatcher.stepParser at hstep
  rw [hpc] at hkept hparser hstep
  have hpush := h.spsc.push hparser.1
  have hnone := hparser.2
  dsimp only at hstep
  split at hstep
  . next r pc' heq =>
    rw [heq] at hpush
    cases hstep
    refine ⟨q, b, hpush.1, h.bucket, ?_, ⟨hpush.2.2.2, hnone⟩, ?_, hkept⟩
    . have hworker := h.worker.frame hpush.2.2.1 []
      rw [List.append_nil] at hworker
      exact hworker
    . exact h.retry.of_empty hnone rfl
  . next r heq =>
    rw [heq] at hpush
    cases hstep
    refine ⟨q ++ [ev], b, hpush.1, h.bucket, ?_, fun _ => hnone, ?_, ?_⟩
    . exact h.worker.frame hpush.2.2 [ev]
    . exact h.retry.of_empty hnone rfl
    . rw [← hkept]
      dsimp only
      rw [hnone]
      simp [ParserPc.inFlight]
  . next r heq =>
    rw [heq] at hpush
    cases hstep
    cases hpush.1
    exact ⟨q, b, h.spsc, h.bucket, h.worker, trivial, h.retry, hkept⟩

theorem Flow.queue (h : s.Flow stream q b n) {ev : α} {pc : SPSCEventRing.PushPc} (hpc : s.parser = .queue ev pc)
    (hstep : s.stepParser = some s') : ∃ q' b', s'.Flow stream q' b' n := by
  have hkept := h.kept
  have hparser := h.parser
  unfold Dispatcher.stepParser at hstep
  rw [hpc] at hkept hparser hstep
  have hpush := h.bucket.push hparser.1
  dsimp only at hstep
  split at hstep
  . next r pc' heq =>
    rw [heq] at hpush
    cases hstep
    have hflow := h.access (.queue ev pc') hpush.1 hpush.2.2.1 (List.append_nil b).symm
    rw [hpc] at hflow
    exact ⟨q, b, hflow rfl ⟨hpush.2.2.2, hparser.2⟩⟩
  . next r heq =>
    rw [heq] at hpush
    cases hstep
    have hflow := h.access .loadActive hpush.1 hpush.2.2 rfl
    rw [hpc] at hflow
    refine ⟨q, b ++ [ev], hflow rfl ?_⟩
    intro hinactive
    rw [hparser.2] at hinactive
    cases hinactive
  . next r heq =>
    rw [heq] at hpush
    cases hstep
    cases hpush.1
    exact ⟨q, b, h.spsc, h.bucket, h.worker, ⟨trivial, hparser.2⟩, h.retry, hkept⟩

theorem Flow.offload (h : s.Flow stream q b n) {ev : α} {pc : SPSCEventRing.PushPc} (hpc : s.parser = .offload ev pc)
    (hstep : s.stepParser = some s') : ∃ q' b', s'.Flow stream q' b' n := by
  have hkept := h.kept
  have hparser := h.parser
  unfold Dispatcher.stepParser at hstep
  rw [hpc] at hkept hparser hstep
  have hpush := h.bucket.push hparser
  dsimp only at hstep
  split at hstep
  . next r pc' heq =>
    rw [heq] at hpush
    cases hstep
    have hflow := h.access (.offload ev pc') hpush.1 hpush.2.2.1 (List.append_nil b).symm
    rw [hpc] at hflow
    exact ⟨q, b, hflow rfl hpush.2.2.2⟩
  . next r heq =>
    rw [heq] at hpush
    cases hstep
    have hflow := h.access .storeActive hpush.1 hpush.2.2 rfl
    rw [hpc] at hflow
    exact ⟨q, b ++ [ev], hflow rfl trivial⟩
  . next r heq =>
    rw [heq] at hpush
    cases hstep
    cases hpush.1
    exact ⟨q, b, h.spsc, h.bucket, h.worker, trivial, h.retry, hkept⟩

theorem Flow.stepParser (h : s.Flow stream q b n) (hstep : s.stepParser = some s')
    : ∃ q' b', s'.Flow stream q' b' n := by
  cases hpc : s.parser with
  | direct ev pc => exact h.direct hpc hstep
  | queue ev pc => exact h.queue hpc hstep
  | offload ev pc => exact h.offload hpc hstep
  | loadActive =>
    have hkept := h.kept
    have hparser := h.parser
    unfold Dispatcher.stepParser at hstep
    rw [hpc] at hkept hparser hstep
    dsimp only at hstep
    split at hstep
    . cases hstep
    . next ev todo htodo =>
      rw [htodo] at hkept
      have hnext : s.popped ++ q ++ s.retry.waiting b ++ [ev] ++ todo = stream := by
        rw [← hkept]
        simp [ParserPc.inFlight]
      split at hstep
      . next hactive =>
        cases hstep
        exact ⟨q, b, h.spsc, h.bucket, h.worker, ⟨trivial, hactive⟩, h.retry, hnext⟩
      . next hinactive =>
        cases hstep
        refine ⟨q, b, h.spsc, h.bucket, h.worker, ⟨trivial, hparser ?_⟩, h.retry, hnext⟩
        exact eq_false_of_ne_true hinactive
  | storeActive =>
    have hkept := h.kept
    unfold Dispatcher.stepParser at hstep
    rw [hpc] at hkept hstep
    cases hstep
    refine ⟨q, b, h.spsc, h.bucket, h.worker, ?_, h.retry, hkept⟩
    intro hinactive
    cases hinactive

theorem Flow.setRetry (h : s.Flow stream q b n) (pc : RetryPc α) (hpc : pc.Knows s q b)
    (hwaiting : pc.waiting b = s.retry.waiting b) : ({ s with retry := pc }).Flow stream q b n := by
  refine ⟨h.spsc, h.bucket, h.worker, ?_, ?_, ?_⟩
  . exact h.parser.frame (.refl _) (Nat.le_refl _) (.refl _) (Nat.le_refl _) rfl hwaiting
  . cases pc with
    | _ => exact hpc
  . have hkept := h.kept
    rw [← hwaiting] at hkept
    exact hkept

theorem Flow.peek (h : s.Flow stream q b n) {pc : SPSCEventRing.PeekPc} (hpc : s.retry = .peek pc)
    (hstep : s.stepRetry = some s') : ∃ q' b' n', s'.Flow stream q' b' n' := by
  have hretry := h.retry
  unfold Dispatcher.stepRetry at hstep
  rw [hpc] at hretry hstep
  have hpeek := h.bucket.peek hretry
  dsimp only at hstep
  split at hstep
  . next pc' heq =>
    rw [heq] at hpeek
    cases hstep
    refine ⟨q, b, n, h.setRetry _ hpeek ?_⟩
    rw [hpc]
    rfl
  . next ev heq =>
    rw [heq] at hpeek
    cases hstep
    refine ⟨q, b, n, h.setRetry _ ⟨trivial, hpeek⟩ ?_⟩
    rw [hpc]
    rfl
  . next heq =>
    cases hstep
    refine ⟨q, b, n, h.setRetry _ trivial ?_⟩
    rw [hpc]
    rfl

theorem Flow.push (h : s.Flow stream q b n) {ev : α} {pc : SPSCEventRing.PushPc} (hpc : s.retry = .push ev pc)
    (hstep : s.stepRetry = some s') : ∃ q' b' n', s'.Flow stream q' b' n' := by
  have hkept := h.kept
  have hretry := h.retry
  unfold Dispatcher.stepRetry at hstep
  rw [hpc] at hretry hkept hstep
  have hpush := h.spsc.push hretry.1
  obtain ⟨rest, hb⟩ := hretry.2
  have hwaiting : s.retry.waiting b ≠ [] := by
    rw [hpc, hb]
    exact fun h => nomatch h
  dsimp only at hstep
  split at hstep
  . next r pc' heq =>
    rw [heq] at hpush
    cases hstep
    refine ⟨q, b, n, hpush.1, h.bucket, ?_, ?_, ⟨hpush.2.2.2, rest, hb⟩, hkept⟩
    . have hworker := h.worker.frame hpush.2.2.1 []
      rw [List.append_nil] at hworker
      exact hworker
    . exact h.parser.of_waiting hwaiting rfl rfl
  . next r heq =>
    rw [heq] at hpush
    cases hstep
    refine ⟨q ++ [ev], b, n, hpush.1, h.bucket, ?_, ?_, ⟨trivial, ?_⟩, ?_⟩
    . exact h.worker.frame hpush.2.2 [ev]
    . exact h.parser.of_waiting hwaiting rfl rfl
    . rw [hb]
      exact fun h => nomatch h
    . rw [← hkept]
      dsimp only
      rw [hb]
      simp [RetryPc.waiting]
  . next r heq =>
    rw [heq] at hpush
    cases hstep
    cases hpush.1
    refine ⟨q, b, n, h.setRetry (.pending .loadTail) trivial ?_⟩
    rw [hpc]
    rfl

theorem Flow.pop (h : s.Flow stream q b n) {pc : SPSCEventRing.PopPc α} (hpc : s.retry = .pop pc)
    (hstep : s.stepRetry = some s') : ∃ q' b' n', s'.Flow stream q' b' n' := by
  have hkept := h.kept
  have hretry := h.retry
  unfold Dispatcher.stepRetry at hstep
  rw [hpc] at hretry hkept hstep
  have hpop := h.bucket.pop hretry.1
  dsimp only at hstep
  split at hstep
  . next r pc' heq =>
    rw [heq] at hpop
    cases hstep
    cases hpop.1
    refine ⟨q, b, n, h.setRetry (.pop pc') ⟨hpop.2, hretry.2⟩ ?_⟩
    rw [hpc]
    rfl
  . next r res heq =>
    rw [heq] at hpop
    cases hstep
    cases res with
    | none => exact absurd hpop.2 hretry.2
    | some ev =>
      obtain ⟨rest, hb, hholds, hconsumed⟩ := hpop
      have hconsumed : s.bucket.Consumed r := ⟨hconsumed.1, hconsumed.2.1, hconsumed.2.2⟩
      have hlength : rest.length ≤ b.length := by
        rw [hb]
        apply Nat.le_succ
      have hwaiting : rest = s.retry.waiting b := by
        rw [hpc, hb]
        rfl
      refine ⟨q, rest, n + 1, h.spsc, hholds, h.worker, ?_, trivial, ?_⟩
      . exact h.parser.frame (.refl _) (Nat.le_refl _) hconsumed hlength rfl hwaiting
      . rw [← hkept]
        dsimp only
        rw [hb]
        rfl

theorem Flow.clear (h : s.Flow stream q b n) (hpc : s.retry = .clear) (hcleared : Cleared s .retry)
    (hstep : s.stepRetry = some s') : ∃ q' b' n', s'.Flow stream q' b' n' := by
  -- The bucket that is marked as empty is empty, and nobody is about to put an event into it.
  have hgood := hcleared rfl hpc
  have hkept := h.kept
  have hparser := h.parser
  unfold Dispatcher.stepRetry at hstep
  rw [hpc] at hkept hstep
  cases hstep
  refine ⟨q, b, n, h.spsc, h.bucket, h.worker, ?_, trivial, hkept⟩
  cases hp : s.parser with
  | loadActive =>
    rw [hp] at hgood
    exact fun _ => h.bucket.tail_eq_head_iff.1 hgood
  | direct ev pc =>
    rw [hp] at hgood hparser
    exact ⟨hparser.1, h.bucket.tail_eq_head_iff.1 hgood⟩
  | queue ev pc =>
    rw [hp] at hgood
    cases hgood
  | offload ev pc =>
    rw [hp] at hparser
    exact hparser
  | storeActive => trivial

theorem Flow.stepRetry (h : s.Flow stream q b n) (hcleared : s.retry = .clear → Cleared s .retry)
    (hstep : s.stepRetry = some s') : ∃ q' b' n', s'.Flow stream q' b' n' := by
  cases hpc : s.retry with
  | peek pc => exact h.peek hpc hstep
  | push ev pc => exact h.push hpc hstep
  | pop pc => exact h.pop hpc hstep
  | clear => exact h.clear hpc (hcleared hpc) hstep
  | idle =>
    unfold Dispatcher.stepRetry at hstep
    rw [hpc] at hstep
    cases hstep
    refine ⟨q, b, n, h.setRetry _ trivial ?_⟩
    rw [hpc]
    rfl
  | pending pc =>
    have hset : ∀ pc' : RetryPc α, pc'.Knows s q b → pc'.waiting b = b →
        ∃ q' b' n', ({ s with retry := pc' }).Flow stream q' b' n' := by
      intro pc' hknows hwaiting
      refine ⟨q, b, n, h.setRetry pc' hknows ?_⟩
      rw [hpc, hwaiting]
      rfl
    unfold Dispatcher.stepRetry at hstep
    rw [hpc] at hstep
    dsimp only at hstep
    split at hstep
    . cases hstep
      exact hset _ trivial rfl
    . split at hstep
      . cases hstep
        exact hset _ trivial rfl
      . cases hstep
        exact hset _ trivial rfl

theorem Flow.step (h : s.Flow stream q b n) {p : Party} (hcleared : Cleared s p) (hstep : s.step p = some s')
    : ∃ q' b' n', s'.Flow stream q' b' n' := by
  cases p with
  | parser =>
    cases h.stepParser hstep with
    | intro q' h =>
      cases h with
      | intro b' h => exact ⟨q', b', n, h⟩
  | retry => exact h.stepRetry (fun _ => hcleared) hstep
  | worker =>
    cases h.stepWorker hstep with
    | intro q' h => exact ⟨q', b, n, h⟩

/--
The events of a worker reach it in the order of their dispatch, none is lost, and only one thread is inside
`push` of its ring, if the retry thread does not clear `active` while an event is in the bucket or on its
way into it.
-/
theorem fifo_of_cleared {k l : Nat} (hk : k < 64) (hl : l < 64) (slots retrySlots : Nat → α)
    (stream : List α) {as : List Party} (has : Run.Along step Cleared (start k l slots retrySlots stream) as)
    (hrun : Run.exec step (start k l slots retrySlots stream) as = some s) : s.Fifo stream := by
  have hflow : ∃ q b n, s.Flow stream q b n := by
    apply Run.exec_inv _ ⟨[], [], 0, Flow.start hk hl slots retrySlots⟩ has hrun
    intro s p s' h hcleared hstep
    cases h with
    | intro q h =>
      cases h with
      | intro b h =>
        cases h with
        | intro n h => exact h.step hcleared hstep
  cases hflow with
  | intro q h =>
    cases h with
    | intro b h =>
      cases h with
      | intro n h => exact h.fifo

/--
The second event goes through the bucket, after which the retry thread is about to clear `active`.
-/
def retried : List Party :=
  List.replicate 13 .parser ++ List.replicate 4 .worker ++ List.replicate 16 .retry

theorem fifo_retried
    : let as := retried ++ [.retry] ++ List.replicate 4 .worker ++ List.replicate 5 .parser
      ∃ s, Run.exec step (start 0 0 (fun _ => 0) (fun _ => 0) [1, 2, 3, 4]) as = some s ∧
        s.Fifo [1, 2, 3, 4] := by
  intro as
  have hsome : (Run.exec step (start 0 0 (fun _ => 0) (fun _ => 0) [1, 2, 3, 4]) as).isSome := by
    decide +kernel
  cases Option.isSome_iff_exists.1 hsome with
  | intro s hrun =>
    refine ⟨s, hrun, ?_⟩
    apply fifo_of_cleared (by decide) (by decide) _ _ _ _ hrun
    decide +kernel

/--
The third event gets into the bucket before `active` is cleared, the fourth one then overtakes it.
-/
def overtaken : List Party :=
  retried ++ List.replicate 5 .parser ++ [.retry] ++ List.replicate 4 .worker ++
    List.replicate 5 .parser ++ List.replicate 4 .worker

theorem not_fifo
    : ¬ ∀ (k l : Nat) (slots retrySlots : Nat → Nat) (stream : List Nat), k < 64 → l < 64 →
        ∀ as s, Run.exec step (start k l slots retrySlots stream) as = some s → s.Fifo stream := by
  intro h
  have hpopped : (Run.exec step (start 0 0 (fun _ => 0) (fun _ => 0) [1, 2, 3, 4]) overtaken).map
      Dispatcher.popped = some [1, 2, 4] := by
    decide +kernel
  rw [Option.map_eq_some_iff] at hpopped
  cases hpopped with
  | intro s hs =>
    have hprefix := (h 0 0 _ _ _ (by decide) (by decide) _ s hs.1).popped
    rw [hs.2] at hprefix
    revert hprefix
    decide

end Dispatcher

end NebulaXTrader
