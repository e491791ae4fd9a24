import NebulaXTrader.Queue.Lemmas.SPSCEventRing
import NebulaXTrader.Runtime.Threads

/-!
This module contains the theorem that tells when the stop sequence loses no event: the workers do not wait
for the retry thread, so the retry buckets must be empty when the sequence begins, and no worker may be about
to leave because of what it has seen of its ring before.
-/

namespace NebulaXTrader

open SPSCEventRing (PendingPc PopPc)

variable {α : Type}

/--
Of an empty queue the call can see no event, of one that is not empty at least one.
-/
def SPSCEventRing.PendingPc.Fresh (pc : PendingPc) (r : SPSCEventRing α) (q : List α) : Prop :=
  pc.Knows r q ∧ (pc = .loadHead r.head → q = [])

theorem SPSCEventRing.PendingPc.Fresh.loadTail (r : SPSCEventRing α) (q : List α)
    : PendingPc.Fresh .loadTail r q := ⟨trivial, fun h => nomatch h⟩

theorem SPSCEventRing.Holds.pending_fresh {r : SPSCEventRing α} {h : Nat} {q : List α} (hr : r.Holds h q)
    {pc : PendingPc} (hpc : pc.Fresh r q)
    : match r.pending pc with
      | .next pc' => pc'.Fresh r q
      | .ret pending => pending = 0 → q = [] := by
  have hpending := hr.pending_knows hpc.1
  split
  . next pc' heq =>
    rw [heq] at hpending
    refine ⟨hpending.2, ?_⟩
    intro hhead
    rw [hpending.1] at hhead
    injection hhead with htail
    exact hr.tail_eq_head_iff.1 htail.symm
  . next pending heq =>
    rw [heq] at hpending
    intro hzero
    apply hpc.2
    have hhead := hr.head
    rw [hpending.2, hzero, hr.head_add, Nat.add_zero, hhead]

theorem SPSCEventRing.Holds.pending_nil {r : SPSCEventRing α} {h : Nat} (hr : r.Holds h [])
    {pc : PendingPc} (hpc : pc.Knows r [])
    : match r.pending pc with
      | .next pc' => pc'.Knows r []
      | .ret pending => pending = 0 := by
  have hpending := hr.pending_knows hpc
  split
  . next pc' heq =>
    rw [heq] at hpending
    exact hpending.2
  . next pending heq =>
    rw [heq] at hpending
    exact Nat.le_zero.1 hpending.1

def SPSCEventRing.PopPc.left (pc : PopPc α) : Nat :=
  match pc with
  | .loadHead => 3
  | .loadTail _ => 2
  | .readSlot _ => 1
  | .storeHead _ _ => 0

theorem SPSCEventRing.PopPc.left_of_next {r r' : SPSCEventRing α} {pc pc' : PopPc α}
    (hpop : r.pop pc = (r', .next pc')) : pc'.left < pc.left := by
  unfold SPSCEventRing.pop at hpop
  split at hpop
  . cases hpop
    exact Nat.lt_succ_self 2
  . split at hpop
    . cases hpop
    . cases hpop
      exact Nat.lt_succ_self 1
  . cases hpop
    exact Nat.lt_succ_self 0
  . cases hpop

def WorkerPc.Knows (pc : WorkerPc α) (r : SPSCEventRing α) (q : List α) : Prop :=
  match pc with
  | .outerDone => True
  | .outerPending pc => pc.Fresh r q
  | .innerPending pc => pc.Fresh r q
  | .innerDone => q = []
  | .pop pc => pc.Knows r q
  | .finished => q = []

theorem WorkerPc.Runs.knows {pc : WorkerPc α} {r : SPSCEventRing α} {q : List α} (h : pc.Runs r q)
    (hfound : pc.FoundEmpty r → q = []) : pc.Knows r q := by
  cases pc with
  | outerDone => trivial
  | outerPending pc => cases h
  | innerPending pc =>
    refine ⟨h, ?_⟩
    intro hhead
    subst hhead
    exact hfound rfl
  | innerDone => exact hfound trivial
  | pop pc => exact h
  | finished => cases h

/--
The retry thread while the buckets are empty.
-/
def RetryPc.Idle (pc : RetryPc α) (n : Nat) (buckets : Nat → SPSCEventRing α) : Prop :=
  match pc with
  | .outerDone => True
  | .outerEmpty i pc => i < n → pc.Knows (buckets i) []
  | .innerEmpty i pc => i < n → pc.Knows (buckets i) []
  | .innerDone => True
  | .peek i pc => i < n → pc.Knows (buckets i) []
  | .pending i pc => i < n ∧ pc.Knows (buckets i) []
  | .clear i => i < n
  | .push _ _ _ => False
  | .pop _ _ => False
  | .finished => True

namespace Threads

/--
The state of worker `i` while nobody pushes to its ring: what it processed and what the ring still holds are
the events that the ring held at the start.
-/
def Drains (s : Threads α) (i : Nat) (evs : List α) : Prop :=
  ∃ h q, (s.spscs i).Holds h q ∧ s.processed i ++ q = evs ∧ (s.workers i).Knows (s.spscs i) q

variable {n : Nat} {s s' s₀ : Threads α}

structure Quiet (n : Nat) (s₀ s : Threads α) : Prop where
  buckets : s.buckets = s₀.buckets
  retry : s.retry.Idle n s.buckets
  drains : ∀ i, i < n → s.Drains i (s₀.processed i ++ (s₀.spscs i).contents)

theorem RetryRuns.idle (h : s.RetryRuns n) (hempty : ∀ i, i < n → (s.buckets i).contents = [])
    : s.retry.Idle n s.buckets := by
  unfold RetryRuns at h
  cases hpc : s.retry with
  | outerDone => trivial
  | innerDone => trivial
  | finished => trivial
  | outerEmpty i pc =>
    rw [hpc] at h
    cases h
  | innerEmpty i pc =>
    rw [hpc] at h
    intro hi
    rw [← hempty i hi]
    exact h hi
  | peek i pc =>
    rw [hpc] at h
    intro hi
    rw [← hempty i hi]
    exact h hi
  | pending i pc =>
    rw [hpc] at h
    refine ⟨h.1, ?_⟩
    rw [← hempty i h.1]
    exact h.2
  | clear i =>
    rw [hpc] at h
    exact h
  | push i ev pc =>
    -- the event that the retry thread pushes is still in the bucket
    rw [hpc] at h
    cases h.2.2 with
    | intro rest hrest =>
      rw [hempty i h.1] at hrest
      cases hrest
  | pop i pc =>
    rw [hpc] at h
    exact absurd (hempty i h.1) h.2.2

theorem Quiet.start (h : s₀.Starts n) (hempty : ∀ i, i < n → (s₀.buckets i).contents = [])
    (hfound : ∀ i, i < n → (s₀.workers i).FoundEmpty (s₀.spscs i) → (s₀.spscs i).contents = [])
    : Quiet n s₀ s₀ := by
  constructor
  . rfl
  . exact h.retry.idle hempty
  . intro i hi
    exact ⟨_, _, (h.spscs i hi).holds, rfl, (h.workers i hi).knows (hfound i hi)⟩

theorem Drains.setWorker {i : Nat} {evs : List α} {h : Nat} {q : List α}
    (hr : (s.spscs i).Holds h q) (hevs : s.processed i ++ q = evs) {pc : WorkerPc α}
    (hpc : pc.Knows (s.spscs i) q) : (s.setWorker i pc).Drains i evs := by
  refine ⟨h, q, hr, hevs, ?_⟩
  rw [setWorker_self]
  exact hpc

theorem Drains.popped {i : Nat} {evs : List α} {h : Nat} {q : List α} {pc : SPSCEventRing.PopPc α}
    (hr : (s.spscs i).Holds h q) (hevs : s.processed i ++ q = evs) (hknows : pc.Knows (s.spscs i) q)
    (hstep : (match (s.spscs i).pop pc with
      | (r, .next pc) => some ((s.setSpsc i r).setWorker i (.pop pc))
      | (r, .ret none) => some ((s.setSpsc i r).setWorker i .outerDone)
      | (r, .ret (some ev)) => some (((s.setSpsc i r).process i ev).setWorker i (.pop .loadHead))) = some s')
    : s'.Drains i evs := by
  have hpop := hr.pop hknows
  split at hstep
  . next r pc' heq =>
    rw [heq] at hpop
    cases hstep
    apply Drains.setWorker (s := s.setSpsc i r) (h := h) (q := q)
    . rw [setSpsc_self, hpop.1]
      exact hr
    . exact hevs
    . rw [setSpsc_self, hpop.1]
      exact hpop.2
  . next r heq =>
    rw [heq] at hpop
    cases hstep
    apply Drains.setWorker (s := s.setSpsc i r) (h := h) (q := q)
    . rw [setSpsc_self, hpop.1]
      exact hr
    . exact hevs
    . trivial
  . next r ev heq =>
    rw [heq] at hpop
    cases hstep
    cases hpop with
    | intro rest hpop =>
      apply Drains.setWorker (s := (s.setSpsc i r).process i ev) (h := h + 1) (q := rest)
      . show ((s.setSpsc i r).spscs i).Holds (h + 1) rest
        rw [setSpsc_self]
        exact hpop.2.1
      . rw [process_self, ← hevs, hpop.1, List.append_assoc]
        rfl
      . trivial

theorem Drains.step {i : Nat} {evs : List α} (hs : s.Drains i evs) (hstep : s.stepWorker i = some s')
    : s'.Drains i evs := by
  cases hs with
  | intro h hs =>
    cases hs with
    | intro q hs =>
      have hr := hs.1
      have hevs := hs.2.1
      have hknows := hs.2.2
      unfold stepWorker at hstep
      cases hpc : s.workers i with
      | outerDone =>
        rw [hpc] at hstep
        dsimp only at hstep
        split at hstep
        . cases hstep
          exact .setWorker hr hevs (.loadTail _ _)
        . cases hstep
          exact .setWorker hr hevs (.loadTail _ _)
      | outerPending pc =>
        rw [hpc] at hstep hknows
        have hpending := hr.pending_fresh hknows
        dsimp only at hstep
        split at hstep
        . next pc' heq =>
          rw [heq] at hpending
          cases hstep
          exact .setWorker hr hevs hpending
        . next pending heq =>
          rw [heq] at hpending
          split at hstep
          . cases hstep
            exact .setWorker hr hevs (.loadTail _ _)
          . next hzero =>
            cases hstep
            exact .setWorker hr hevs (hpending (by omega))
      | innerPending pc =>
        rw [hpc] at hstep hknows
        have hpending := hr.pending_fresh hknows
        dsimp only at hstep
        split at hstep
        . next pc' heq =>
          rw [heq] at hpending
          cases hstep
          exact .setWorker hr hevs hpending
        . next pending heq =>
          rw [heq] at hpending
          split at hstep
          . next hzero =>
            cases hstep
            exact .setWorker hr hevs (hpending (by omega))
          . cases hstep
            exact .setWorker hr hevs trivial
      | innerDone =>
        rw [hpc] at hstep hknows
        dsimp only at hstep
        split at hstep
        . cases hstep
          exact .setWorker hr hevs hknows
        . cases hstep
          exact .setWorker hr hevs trivial
      | pop pc =>
        rw [hpc] at hstep hknows
        exact .popped hr hevs hknows hstep
      | finished =>
        rw [hpc] at hstep
        cases hstep

theorem stepWorker_frame {i : Nat} (hstep : s.stepWorker i = some s')
    : s'.buckets = s.buckets ∧ s'.retry = s.retry ∧
      ∀ j, j ≠ i → s'.spscs j = s.spscs j ∧ s'.processed j = s.processed j ∧ s'.workers j = s.workers j := by
  have hset : ∀ pc : WorkerPc α, s' = s.setWorker i pc →
      s'.buckets = s.buckets ∧ s'.retry = s.retry ∧
      ∀ j, j ≠ i → s'.spscs j = s.spscs j ∧ s'.processed j = s.processed j ∧ s'.workers j = s.workers j := by
    intro pc heq
    subst heq
    exact ⟨rfl, rfl, fun j hj => ⟨rfl, rfl, setWorker_of_ne s pc hj⟩⟩
  unfold stepWorker at hstep
  split at hstep
  . split at hstep
    . exact hset _ (Option.some.inj hstep).symm
    . exact hset _ (Option.some.inj hstep).symm
  . split at hstep
    . exact hset _ (Option.some.inj hstep).symm
    . split at hstep
      . exact hset _ (Option.some.inj hstep).symm
      . exact hset _ (Option.some.inj hstep).symm
  . split at hstep
    . exact hset _ (Option.some.inj hstep).symm
    . split at hstep
      . exact hset _ (Option.some.inj hstep).symm
      . exact hset _ (Option.some.inj hstep).symm
  . split at hstep
    . exact hset _ (Option.some.inj hstep).symm
    . exact hset _ (Option.some.inj hstep).symm
  . split at hstep
    . next r pc _ =>
      cases hstep
      refine ⟨rfl, rfl, fun j hj => ⟨setSpsc_of_ne s r hj, rfl, ?_⟩⟩
      exact setWorker_of_ne (s.setSpsc i r) _ hj
    . next r _ =>
      cases hstep
      refine ⟨rfl, rfl, fun j hj => ⟨setSpsc_of_ne s r hj, rfl, ?_⟩⟩
      exact setWorker_of_ne (s.setSpsc i r) _ hj
    . next r ev _ =>
      cases hstep
      refine ⟨rfl, rfl, fun j hj => ⟨setSpsc_of_ne s r hj, ?_, ?_⟩⟩
      . exact process_of_ne (s.setSpsc i r) ev hj
      . exact setWorker_of_ne ((s.setSpsc i r).process i ev) _ hj
  . cases hstep

theorem Drains.congr {i : Nat} {evs : List α} (hs : s.Drains i evs) (hspsc : s'.spscs i = s.spscs i)
    (hprocessed : s'.processed i = s.processed i) (hworker : s'.workers i = s.workers i)
    : s'.Drains i evs := by
  unfold Drains
  rw [hspsc, hprocessed, hworker]
  exact hs

theorem Quiet.stepRetry (h : Quiet n s₀ s) (hempty : ∀ i, i < n → (s₀.buckets i).contents = [])
    (hvalid : ∀ i, i < n → (s₀.buckets i).Valid) (hstep : s.stepRetry n = some s') : Quiet n s₀ s' := by
  have hset : ∀ pc : RetryPc α, s' = { s with retry := pc } → pc.Idle n s.buckets → Quiet n s₀ s' := by
    intro pc heq hpc
    subst heq
    exact ⟨h.buckets, hpc, h.drains⟩
  have hholds : ∀ i, i < n → (s.buckets i).Holds (s.buckets i).head [] := by
    intro i hi
    have hbucket := (hvalid i hi).holds
    rw [hempty i hi, ← h.buckets] at hbucket
    exact hbucket
  have hidle := h.retry
  unfold Threads.stepRetry at hstep
  split at hstep
  . split at hstep
    . exact hset _ (Option.some.inj hstep).symm (fun _ => trivial)
    . exact hset _ (Option.some.inj hstep).symm (fun _ => trivial)
  . next i pc hpc =>
    rw [hpc] at hidle
    split at hstep
    . next hi =>
      have hp := (hholds i hi).pending_nil (hidle hi)
      split at hstep
      . next pc' heq =>
        rw [heq] at hp
        exact hset _ (Option.some.inj hstep).symm (fun _ => hp)
      . next pending heq =>
        rw [heq] at hp
        split at hstep
        . omega
        . exact hset _ (Option.some.inj hstep).symm (fun _ => trivial)
    . exact hset _ (Option.some.inj hstep).symm trivial
  . next i pc hpc =>
    rw [hpc] at hidle
    split at hstep
    . next hi =>
      have hp := (hholds i hi).pending_nil (hidle hi)
      split at hstep
      . next pc' heq =>
        rw [heq] at hp
        exact hset _ (Option.some.inj hstep).symm (fun _ => hp)
      . next pending heq =>
        rw [heq] at hp
        split at hstep
        . omega
        . exact hset _ (Option.some.inj hstep).symm (fun _ => trivial)
    . exact hset _ (Option.some.inj hstep).symm trivial
  . split at hstep
    . exact hset _ (Option.some.inj hstep).symm trivial
    . exact hset _ (Option.some.inj hstep).symm trivial
  . next i pc hpc =>
    rw [hpc] at hidle
    split at hstep
    . next hi =>
      have hp := (hholds i hi).peek (hidle hi)
      split at hstep
      . next pc' heq =>
        rw [heq] at hp
        exact hset _ (Option.some.inj hstep).symm (fun _ => hp)
      . exact hset _ (Option.some.inj hstep).symm ⟨hi, trivial⟩
      . next ev heq =>
        -- there is no event to be seen in an empty bucket
        rw [heq] at hp
        cases hp with
        | intro rest hrest => cases hrest
    . exact hset _ (Option.some.inj hstep).symm trivial
  . next hpc =>
    rw [hpc] at hidle
    cases hidle
  . next hpc =>
    rw [hpc] at hidle
    cases hidle
  . next i pc hpc =>
    rw [hpc] at hidle
    have hp := (hholds i hidle.1).pending_nil hidle.2
    split at hstep
    . next pc' heq =>
      rw [heq] at hp
      exact hset _ (Option.some.inj hstep).symm ⟨hidle.1, hp⟩
    . next pending heq =>
      split at hstep
      . exact hset _ (Option.some.inj hstep).symm hidle.1
      . exact hset _ (Option.some.inj hstep).symm (fun _ => trivial)
  . cases hstep
    exact ⟨h.buckets, fun _ => trivial, h.drains⟩
  . cases hstep

theorem stepMain_frame (hstep : s.stepMain n = some s')
    : s'.buckets = s.buckets ∧ s'.spscs = s.spscs ∧ s'.processed = s.processed ∧
      s'.workers = s.workers ∧ s'.retry = s.retry := by
  unfold stepMain at hstep
  split at hstep
  . cases hstep
    exact ⟨rfl, rfl, rfl, rfl, rfl⟩
  . split at hstep
    . cases hstep
      exact ⟨rfl, rfl, rfl, rfl, rfl⟩
    . cases hstep
  . split at hstep
    . split at hstep
      . cases hstep
        exact ⟨rfl, rfl, rfl, rfl, rfl⟩
      . cases hstep
    . cases hstep
      exact ⟨rfl, rfl, rfl, rfl, rfl⟩
  . cases hstep

theorem Quiet.step (h : Quiet n s₀ s) (hempty : ∀ i, i < n → (s₀.buckets i).contents = [])
    (hvalid : ∀ i, i < n → (s₀.buckets i).Valid) {p : Party} (hstep : s.step n p = some s')
    : Quiet n s₀ s' := by
  cases p with
  | main =>
    have hframe := stepMain_frame hstep
    constructor
    . rw [hframe.1]
      exact h.buckets
    . rw [hframe.1, hframe.2.2.2.2]
      exact h.retry
    . intro i hi
      apply (h.drains i hi).congr
      . rw [hframe.2.1]
      . rw [hframe.2.2.1]
      . rw [hframe.2.2.2.1]
  | retry => exact h.stepRetry hempty hvalid hstep
  | worker i =>
    unfold Threads.step at hstep
    dsimp only at hstep
    split at hstep
    . have hframe := stepWorker_frame hstep
      constructor
      . rw [hframe.1]
        exact h.buckets
      . rw [hframe.1, hframe.2.1]
        exact h.retry
      . intro j hj
        by_cases hji : j = i
        . subst hji
          exact (h.drains j hj).step hstep
        . have hother := hframe.2.2 j hji
          exact (h.drains j hj).congr hother.1 hother.2.1 hother.2.2
    . cases hstep

theorem backlog_of_empty {i : Nat} (hempty : (s.buckets i).contents = []) : s.backlog i = [] := by
  unfold backlog
  split
  . split
    . rw [hempty]
      rfl
    . exact hempty
  . exact hempty

theorem Quiet.complete (h : Quiet n s₀ s) (hempty : ∀ i, i < n → (s₀.buckets i).contents = [])
    : Complete n s₀ s := by
  constructor
  . intro _ i hi
    rw [h.buckets]
    exact hempty i hi
  . intro i hi hfinished
    cases h.drains i hi with
    | intro head hd =>
      cases hd with
      | intro q hd =>
        have hknows := hd.2.2
        rw [hfinished] at hknows
        have hq : q = [] := hknows
        have hholds := hd.1
        have hevs := hd.2.1
        subst hq
        rw [List.append_nil] at hevs
        refine ⟨?_, hholds.contents, ?_⟩
        . rw [h.buckets]
          exact hempty i hi
        . rw [backlog_of_empty (hempty i hi), List.append_nil]
          exact hevs

structure At (s : Threads α) (i : Nat) (pc : WorkerPc α) (r : SPSCEventRing α)
    (buckets : Nat → SPSCEventRing α) : Prop where
  done : s.parseDone
  worker : s.workers i = pc
  ring : s.spscs i = r
  buckets : s.buckets = buckets

variable {i : Nat} {r : SPSCEventRing α} {b : Nat → SPSCEventRing α} {h : Nat} {q : List α}

theorem At.setWorker {pc : WorkerPc α} (hs : s.At i pc r b) (pc' : WorkerPc α)
    : (s.setWorker i pc').At i pc' r b :=
  ⟨hs.done, setWorker_self s i pc', hs.ring, hs.buckets⟩

theorem At.asks (hs : s.At i .outerDone r b) (hi : i < n)
    : ∃ s', Run.Reaches (Threads.step n) s s' ∧ s'.At i (.outerPending (.loadHead r.tail)) r b := by
  have h₁ : s.step n (.worker i) = some (s.setWorker i (.outerPending .loadTail)) := by
    unfold Threads.step stepWorker
    dsimp only
    rw [if_pos hi, hs.worker]
    exact if_pos hs.done
  have hs₁ := hs.setWorker (.outerPending .loadTail)
  generalize s.setWorker i (.outerPending .loadTail) = s₁ at h₁ hs₁
  have h₂ : s₁.step n (.worker i) = some (s₁.setWorker i (.outerPending (.loadHead r.tail))) := by
    unfold Threads.step stepWorker
    dsimp only
    rw [if_pos hi, hs₁.worker, hs₁.ring]
    rfl
  exact ⟨_, .head h₁ (.head h₂ (.refl _)), hs₁.setWorker _⟩

theorem At.terminates (hs : s.At i .outerDone r b) (hi : i < n) (hr : r.Holds h [])
    : ∃ s', Run.Reaches (Threads.step n) s s' ∧ s'.At i .finished r b := by
  -- A worker that finds its ring empty after the parser is done terminates.
  have hpending : r.pending (.loadHead r.tail) = .ret 0 := by
    have htail := hr.tail
    rw [List.length_nil] at htail
    rw [htail]
    exact hr.pending (Nat.zero_le 0)
  cases hs.asks hi with
  | intro s₁ hs₁ =>
    have hlast : s₁.step n (.worker i) = some (s₁.setWorker i .finished) := by
      unfold Threads.step stepWorker
      dsimp only
      rw [if_pos hi, hs₁.2.worker, hs₁.2.ring]
      dsimp only
      rw [hpending]
      rfl
    exact ⟨_, hs₁.1.trans (.head hlast (.refl _)), hs₁.2.setWorker .finished⟩

theorem At.popStep {pc : PopPc α} (hs : s.At i (.pop pc) r b) (hi : i < n) (hr : r.Holds h q)
    (hpc : pc.Knows r q)
    : ∃ s', s.step n (.worker i) = some s' ∧
        ((∃ pc', pc'.left < pc.left ∧ s'.At i (.pop pc') r b ∧ pc'.Knows r q) ∨
          (q = [] ∧ s'.At i .outerDone r b) ∨
          ∃ ev rest r', q = ev :: rest ∧ s'.At i (.pop .loadHead) r' b ∧ r'.Holds (h + 1) rest) := by
  have hpop := hr.pop hpc
  cases hres : r.pop pc with
  | mk r' progress =>
    rw [hres] at hpop
    cases progress with
    | next pc' =>
      have hring : r' = r := hpop.1
      subst hring
      refine ⟨(s.setSpsc i r').setWorker i (.pop pc'), ?_, .inl ⟨pc', ?_, ?_, hpop.2⟩⟩
      . unfold Threads.step stepWorker
        dsimp only
        rw [if_pos hi, hs.worker, hs.ring]
        dsimp only
        rw [hres]
      . exact PopPc.left_of_next hres
      . exact ⟨hs.done, setWorker_self _ i _, setSpsc_self s i r', hs.buckets⟩
    | ret res =>
      cases res with
      | none =>
        have hring : r' = r := hpop.1
        subst hring
        refine ⟨(s.setSpsc i r').setWorker i .outerDone, ?_, .inr (.inl ⟨hpop.2, ?_⟩)⟩
        . unfold Threads.step stepWorker
          dsimp only
          rw [if_pos hi, hs.worker, hs.ring]
          dsimp only
          rw [hres]
        . exact ⟨hs.done, setWorker_self _ i _, setSpsc_self s i r', hs.buckets⟩
      | some ev =>
        cases hpop with
        | intro rest hpop =>
          refine ⟨((s.setSpsc i r').process i ev).setWorker i (.pop .loadHead), ?_,
            .inr (.inr ⟨ev, rest, r', hpop.1, ?_, hpop.2.1⟩)⟩
          . unfold Threads.step stepWorker
            dsimp only
            rw [if_pos hi, hs.worker, hs.ring]
            dsimp only
            rw [hres]
          . exact ⟨hs.done, setWorker_self _ i _, setSpsc_self s i r', hs.buckets⟩

theorem At.drains {pc : PopPc α} (hs : s.At i (.pop pc) r b) (hi : i < n) (hr : r.Holds h q)
    (hpc : pc.Knows r q)
    : ∃ s' r' h', Run.Reaches (Threads.step n) s s' ∧ s'.At i .outerDone r' b ∧ r'.Holds h' [] := by
  -- A worker that nobody disturbs empties its ring: with each step a call of pop ends or is closer to its end.
  induction hrank : 4 * q.length + pc.left using Nat.strong_induction_on generalizing s r h q pc with
  | _ rank ih =>
    obtain ⟨s₁, hstep, hcases⟩ := hs.popStep hi hr hpc
    cases hcases with
    | inl hnext =>
      obtain ⟨pc', hleft, hat, hknows⟩ := hnext
      obtain ⟨s', r', h', hreach, hrest⟩ := ih (4 * q.length + pc'.left) (by omega) hat hr hknows rfl
      exact ⟨s', r', h', .head hstep hreach, hrest⟩
    | inr hcases =>
      cases hcases with
      | inl hnone =>
        have hq := hnone.1
        subst hq
        exact ⟨s₁, r, h, .head hstep (.refl _), hnone.2, hr⟩
      | inr hsome =>
        obtain ⟨ev, rest, r₁, hq, hat, hholds⟩ := hsome
        subst hq
        have hless : 4 * rest.length + (PopPc.loadHead : PopPc α).left < rank := by
          rw [List.length_cons] at hrank
          have hleft : (PopPc.loadHead : PopPc α).left = 3 := rfl
          omega
        obtain ⟨s', r', h', hreach, hrest⟩ := ih _ hless hat hholds trivial rfl
        exact ⟨s', r', h', .head hstep hreach, hrest⟩

theorem At.pops {pc : PopPc α} (hs : s.At i (.pop pc) r b) (hi : i < n) (hr : r.Holds h q)
    (hpc : pc.Knows r q) : ∃ s', Run.Reaches (Threads.step n) s s' ∧ ∃ r', s'.At i .finished r' b := by
  obtain ⟨s₁, r', h', hreach, hat, hempty⟩ := hs.drains hi hr hpc
  obtain ⟨s', hreach', hfinished⟩ := hat.terminates hi hempty
  exact ⟨s', hreach.trans hreach', r', hfinished⟩

theorem At.leaves (hs : s.At i .innerDone r b) (hi : i < n)
    : ∃ s', Run.Reaches (Threads.step n) s s' ∧ ∃ r', s'.At i .finished r' b := by
  have hstep : s.step n (.worker i) = some (s.setWorker i .finished) := by
    unfold Threads.step stepWorker
    dsimp only
    rw [if_pos hi, hs.worker]
    exact if_pos hs.done
  exact ⟨_, .head hstep (.refl _), r, hs.setWorker .finished⟩

theorem At.looked {tail : Nat} (hs : s.At i (.innerPending (.loadHead tail)) r b) (hi : i < n)
    (hr : r.Holds h q) : ∃ s', Run.Reaches (Threads.step n) s s' ∧ ∃ r', s'.At i .finished r' b := by
  cases hpending : decide (Wrap.sub (2 ^ 64) tail r.head = 0) with
  | true =>
    have hstep : s.step n (.worker i) = some (s.setWorker i .innerDone) := by
      unfold Threads.step stepWorker
      dsimp only
      rw [if_pos hi, hs.worker, hs.ring]
      exact if_pos (of_decide_eq_true hpending)
    obtain ⟨s', hreach, hfinished⟩ := (hs.setWorker .innerDone).leaves hi
    exact ⟨s', .head hstep hreach, hfinished⟩
  | false =>
    have hstep : s.step n (.worker i) = some (s.setWorker i (.pop .loadHead)) := by
      unfold Threads.step stepWorker
      dsimp only
      rw [if_pos hi, hs.worker, hs.ring]
      exact if_neg (of_decide_eq_false hpending)
    obtain ⟨s', hreach, hfinished⟩ := (hs.setWorker (.pop .loadHead)).pops hi hr trivial
    exact ⟨s', .head hstep hreach, hfinished⟩

theorem At.looks (hs : s.At i (.innerPending .loadTail) r b) (hi : i < n) (hr : r.Holds h q)
    : ∃ s', Run.Reaches (Threads.step n) s s' ∧ ∃ r', s'.At i .finished r' b := by
  have hstep : s.step n (.worker i) = some (s.setWorker i (.innerPending (.loadHead r.tail))) := by
    unfold Threads.step stepWorker
    dsimp only
    rw [if_pos hi, hs.worker, hs.ring]
    rfl
  obtain ⟨s', hreach, hfinished⟩ := (hs.setWorker (.innerPending (.loadHead r.tail))).looked hi hr
  exact ⟨s', .head hstep hreach, hfinished⟩

theorem At.begins (hs : s.At i .outerDone r b) (hi : i < n) (hr : r.Holds h q) (hq : q ≠ [])
    : ∃ s', Run.Reaches (Threads.step n) s s' ∧ ∃ r', s'.At i .finished r' b := by
  have hpending : r.pending (.loadHead r.tail) = .ret q.length := by
    rw [hr.tail, hr.pending (Nat.le_refl q.length)]
  have hpos : 0 < q.length := List.length_pos_iff.2 hq
  obtain ⟨s₁, hreach₁, hs₁⟩ := hs.asks hi
  have hstep : s₁.step n (.worker i) = some (s₁.setWorker i (.innerPending .loadTail)) := by
    unfold Threads.step stepWorker
    dsimp only
    rw [if_pos hi, hs₁.worker, hs₁.ring]
    dsimp only
    rw [hpending]
    exact if_pos hpos
  obtain ⟨s', hreach, hfinished⟩ := (hs₁.setWorker (.innerPending .loadTail)).looks hi hr
  exact ⟨s', hreach₁.trans (.head hstep hreach), hfinished⟩

theorem At.finishes {pc : WorkerPc α} (hs : s.At i pc r b) (hi : i < n) (hr : r.Holds h q)
    (hruns : pc.Runs r q)
    : ∃ s', Run.Reaches (Threads.step n) s s' ∧ ∃ r', s'.At i .finished r' b := by
  cases pc with
  | outerDone =>
    by_cases hq : q = []
    . subst hq
      obtain ⟨s', hreach, hfinished⟩ := hs.terminates hi hr
      exact ⟨s', hreach, r, hfinished⟩
    . exact hs.begins hi hr hq
  | innerPending pc =>
    cases pc with
    | loadTail => exact hs.looks hi hr
    | loadHead tail => exact hs.looked hi hr
  | innerDone => exact hs.leaves hi
  | pop pc => exact hs.pops hi hr hruns
  | outerPending pc => cases hruns
  | finished => cases hruns

theorem Starts.finishes (hs : s₀.Starts n) (hi : i < n)
    : ∃ s', Run.Reaches (Threads.step n) s₀ s' ∧ s'.workers i = .finished ∧ s'.buckets = s₀.buckets := by
  -- Once the parser is done each worker can terminate without a step of the retry thread.
  have hstep : s₀.step n .main = some { s₀ with parseDone := true, main := .joinRetry } := by
    unfold Threads.step stepMain
    dsimp only
    rw [hs.main]
  have hat : At { s₀ with parseDone := true, main := .joinRetry } i (s₀.workers i) (s₀.spscs i) s₀.buckets :=
    ⟨rfl, rfl, rfl, rfl⟩
  obtain ⟨s', hreach, r', hfinished⟩ := hat.finishes hi (hs.spscs i hi).holds (hs.workers i hi)
  exact ⟨s', .head hstep hreach, hfinished.worker, hfinished.buckets⟩

theorem Starts.leaves (hs : s₀.Starts n) (hi : i < n) (hfound : (s₀.workers i).FoundEmpty (s₀.spscs i))
    : ∃ s', Run.Reaches (Threads.step n) s₀ s' ∧ s'.workers i = .finished ∧ s'.spscs = s₀.spscs := by
  -- A worker that has found its ring empty leaves its loop without another look at it.
  have hstep : s₀.step n .main = some { s₀ with parseDone := true, main := .joinRetry } := by
    unfold Threads.step stepMain
    dsimp only
    rw [hs.main]
  cases hpc : s₀.workers i with
  | innerDone =>
    refine ⟨setWorker { s₀ with parseDone := true, main := .joinRetry } i .finished, ?_, ?_, rfl⟩
    . apply Run.Reaches.head hstep
      apply Run.Reaches.head (a := .worker i) _ (.refl _)
      unfold Threads.step stepWorker
      dsimp only
      rw [if_pos hi, hpc]
      rfl
    . exact setWorker_self _ i _
  | innerPending pc =>
    rw [hpc] at hfound
    cases pc with
    | loadTail => cases hfound
    | loadHead tail =>
      have htail : tail = (s₀.spscs i).head := hfound
      have hzero : Wrap.sub (2 ^ 64) tail (s₀.spscs i).head = 0 := by
        rw [htail]
        exact (Wrap.sub_eq_of_le (Nat.le_refl _) (hs.spscs i hi).head).trans (Nat.sub_self _)
      refine ⟨setWorker (setWorker { s₀ with parseDone := true, main := .joinRetry } i .innerDone) i .finished,
        ?_, ?_, rfl⟩
      . have hempty : step n { s₀ with parseDone := true, main := .joinRetry } (.worker i) =
            some (setWorker { s₀ with parseDone := true, main := .joinRetry } i .innerDone) := by
          unfold Threads.step stepWorker
          dsimp only
          rw [if_pos hi, hpc]
          exact if_pos hzero
        apply Run.Reaches.head hstep
        apply Run.Reaches.head hempty
        apply Run.Reaches.head (a := .worker i) _ (.refl _)
        unfold Threads.step stepWorker
        dsimp only
        rw [if_pos hi, setWorker_self]
        rfl
      . exact setWorker_self _ i _
  | outerDone =>
    rw [hpc] at hfound
    cases hfound
  | outerPending pc =>
    rw [hpc] at hfound
    cases hfound
  | pop pc =>
    rw [hpc] at hfound
    cases hfound
  | finished =>
    rw [hpc] at hfound
    cases hfound

/--
Wherever the threads are and whatever the queues hold when the stop sequence begins, all interleavings lose
no event if and only if the retry buckets hold none, and no worker that has found its ring empty has got an
event since then.
-/
theorem complete_iff (hs : s₀.Starts n)
    : (∀ as s, Run.exec (Threads.step n) s₀ as = some s → Complete n s₀ s) ↔
        ∀ i, i < n → (s₀.buckets i).contents = [] ∧
          ((s₀.workers i).FoundEmpty (s₀.spscs i) → (s₀.spscs i).contents = []) := by
  constructor
  . intro hcomplete i hi
    constructor
    . obtain ⟨s, hreach, hfinished, hbuckets⟩ := hs.finishes hi
      obtain ⟨as, hrun⟩ := hreach
      have hbucket := ((hcomplete as s hrun).2 i hi hfinished).1
      rw [hbuckets] at hbucket
      exact hbucket
    . intro hfound
      obtain ⟨s, hreach, hfinished, hspscs⟩ := hs.leaves hi hfound
      obtain ⟨as, hrun⟩ := hreach
      have hring := ((hcomplete as s hrun).2 i hi hfinished).2.1
      rw [hspscs] at hring
      exact hring
  . intro hempty as s hrun
    have hbuckets : ∀ i, i < n → (s₀.buckets i).contents = [] := fun i hi => (hempty i hi).1
    have hquiet : Quiet n s₀ s := by
      apply Run.exec_keeps (p := fun s => Quiet n s₀ s) _ _ hrun
      . intro s p s' h hstep
        exact h.step hbuckets hs.buckets hstep
      . exact Quiet.start hs hbuckets (fun i hi => (hempty i hi).2)
    exact hquiet.complete hbuckets

/--
The worker has popped nothing yet of its ring with one event, the retry thread is behind its last pass.
-/
def oneWorker (bucket : Nat) : Threads Nat where
  spscs _ := { slots := fun _ => 7, capacity := 2, head := 0, tail := 1 }
  buckets _ := { slots := fun _ => 8, capacity := 2, head := 0, tail := bucket }
  active _ := true
  retry := .pending 0 (.loadHead bucket)
  workers _ := .pop (.loadTail 0)

theorem oneWorker_starts {bucket : Nat} (h : bucket ≤ 1) : (oneWorker bucket).Starts 1 := by
  have hvalid : ∀ slot tail : Nat, tail ≤ 1 →
      SPSCEventRing.Valid { slots := fun _ => slot, capacity := 2, head := 0, tail := tail } := by
    intro slot tail htail
    have hlt : tail < 2 ^ 64 := by omega
    have hsub : Wrap.sub (2 ^ 64) tail 0 = tail := Wrap.sub_eq_of_le (Nat.zero_le tail) hlt
    refine ⟨⟨1, by omega, rfl⟩, by simp, hlt, ?_⟩
    dsimp only
    omega
  have hbucket := hvalid 8 bucket h
  refine ⟨rfl, rfl, ⟨by decide, bucket, ?_, ?_⟩, fun _ _ => rfl, ?_, ?_⟩
  . rw [SPSCEventRing.length_contents]
    have hlt : bucket < 2 ^ 64 := by omega
    exact (Wrap.sub_eq_of_le (Nat.zero_le bucket) hlt).ge
  . have hadd : Wrap.add (2 ^ 64) 0 bucket = 0 + bucket := Wrap.add_eq_of_lt (by omega)
    exact (hadd.trans (Nat.zero_add bucket)).symm
  . intro i _
    exact hvalid 7 1 (Nat.le_refl 1)
  . intro i _
    exact hbucket

theorem complete_oneWorker
    : (oneWorker 0).Starts 1 ∧
        ∀ as s, Run.exec (Threads.step 1) (oneWorker 0) as = some s → Complete 1 (oneWorker 0) s := by
  have hstarts := oneWorker_starts (Nat.zero_le 1)
  refine ⟨hstarts, (complete_iff hstarts).2 ?_⟩
  intro i _
  constructor
  . show (oneWorker 0 |>.buckets 0).contents = []
    decide +kernel
  . intro hfound
    cases hfound

theorem not_complete
    : ¬ ∀ (n : Nat) (s₀ : Threads Nat), s₀.Starts n →
        ∀ as s, Run.exec (Threads.step n) s₀ as = some s → Complete n s₀ s := by
  -- The worker terminates while its bucket holds an event.
  intro h
  cases hrun : Run.exec (Threads.step 1) (oneWorker 1) (.main :: List.replicate 8 (.worker 0)) with
  | none =>
    have hsome : (Run.exec (Threads.step 1) (oneWorker 1)
        (.main :: List.replicate 8 (.worker 0))).isSome := by decide +kernel
    rw [hrun] at hsome
    cases hsome
  | some s =>
    have hcomplete := h 1 (oneWorker 1) (oneWorker_starts (Nat.le_refl 1)) _ s hrun
    have hlost : (Run.exec (Threads.step 1) (oneWorker 1) (.main :: List.replicate 8 (.worker 0))).any
        (fun s => decide (s.workers 0 = .finished) && decide ((s.buckets 0).contents ≠ [])) := by
      decide +kernel
    rw [hrun] at hlost
    simp only [Option.any_some, Bool.and_eq_true, decide_eq_true_eq] at hlost
    exact hlost.2 (hcomplete.2 0 (by decide) hlost.1).1

end Threads

end NebulaXTrader
