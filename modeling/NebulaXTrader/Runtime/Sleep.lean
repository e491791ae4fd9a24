import NebulaXTrader.Runtime.Wakeup

/-!
This module contains the theorem that tells when no consumer sleeps while it has data.
-/

namespace NebulaXTrader

open SPSCEventRing (Progress PushPc PopPc PendingPc)

namespace SPSCEventRing

variable {α : Type} {r r' : SPSCEventRing α}

theorem push_next {ev : α} {pc pc' : PushPc} (h : r.push ev pc = (r', .next pc'))
    : r'.head = r.head ∧ r'.tail = r.tail := by
  cases pc with
  | loadTail =>
    cases h
    exact ⟨rfl, rfl⟩
  | loadHead tail =>
    unfold push at h
    dsimp only at h
    split at h
    . cases h
    . cases h
      exact ⟨rfl, rfl⟩
  | writeSlot tail =>
    cases h
    exact ⟨rfl, rfl⟩
  | storeTail tail => cases h

theorem push_full {ev : α} {pc : PushPc} (h : r.push ev pc = (r', .ret false)) : r' = r := by
  cases pc with
  | loadTail => cases h
  | loadHead tail =>
    unfold push at h
    dsimp only at h
    split at h
    . cases h
      rfl
    . cases h
  | writeSlot tail => cases h
  | storeTail tail => cases h

end SPSCEventRing

namespace WorkerWait

variable {α : Type} {n : Nat} {s s' : WorkerWait α} {i : Nat}

def bell (n : Nat) (s : WorkerWait α) : Doorbell Nat where
  count := s.wakeFd
  asleep i := i < n ∧ s.workers i = .poll
  work i := s.HasData i
  owed := s.Owed

theorem awake_iff : s.Awake n ↔ (s.bell n).Sound := by
  constructor
  . intro h i hi hwork hzero
    exact h i hi.1 hi.2 hzero hwork
  . intro h i hi hpoll hzero hwork
    exact h i ⟨hi, hpoll⟩ hwork hzero

@[simp]
theorem setWorker_self (pc : WaiterPc α) : (s.setWorker i pc).workers i = pc := Function.update_self _ _ _

theorem setWorker_of_ne {j : Nat} (pc : WaiterPc α) (h : j ≠ i) : (s.setWorker i pc).workers j = s.workers j :=
  Function.update_of_ne h _ _

theorem setRing_self (r : SPSCEventRing α) : (s.setRing i r).rings i = r := Function.update_self _ _ _

theorem setRing_of_ne {j : Nat} (r : SPSCEventRing α) (h : j ≠ i) : (s.setRing i r).rings j = s.rings j :=
  Function.update_of_ne h _ _

theorem Awake.frame (h : s.Awake n) (hself : s'.workers i ≠ .poll) (hworkers : ∀ j, j ≠ i → s'.workers j = s.workers j)
    (hrings : ∀ j, j ≠ i → s'.rings j = s.rings j) (hfd : s'.wakeFd = 0 → s.wakeFd = 0)
    (hproducers : s'.producers = s.producers) : s'.Awake n := by
  rw [awake_iff] at h ⊢
  apply h.frame
  . intro j hj
    have hne : j ≠ i := by
      intro heq
      rw [heq] at hj
      exact hself hj.2
    refine ⟨⟨hj.1, (hworkers j hne).symm.trans hj.2⟩, ?_⟩
    intro hwork
    show (s.rings j).head ≠ (s.rings j).tail
    rw [← hrings j hne]
    exact hwork
  . exact hfd
  . intro howed
    show s'.producers .parser = .write ∨ s'.producers .retry = .write
    rw [hproducers]
    exact howed

theorem Awake.goto (h : s.Awake n) {pc : WaiterPc α} (hpc : pc ≠ .poll) : (s.setWorker i pc).Awake n := by
  apply h.frame (i := i)
  . rw [setWorker_self]
    exact hpc
  . intro j hj
    exact setWorker_of_ne pc hj
  . intro j _
    rfl
  . exact id
  . rfl

theorem Awake.consume (h : s.Awake n) (r : SPSCEventRing α) {pc : WaiterPc α} (hpc : pc ≠ .poll)
    : ((s.setRing i r).setWorker i pc).Awake n := by
  apply h.frame (i := i)
  . rw [setWorker_self]
    exact hpc
  . intro j hj
    exact setWorker_of_ne pc hj
  . intro j hj
    exact setRing_of_ne r hj
  . exact id
  . rfl

theorem Awake.spin (h : s.Awake n) (k : Nat) : (s.setSpin i k).Awake n := h

theorem Awake.produce (h : s.Awake n) {p : Producer} {pc : ProducerPc α} (hp : s.producers p ≠ .write)
    (hrings : ∀ j, (s'.rings j).head = (s.rings j).head ∧ (s'.rings j).tail = (s.rings j).tail)
    (hworkers : s'.workers = s.workers) (hfd : s'.wakeFd = s.wakeFd)
    (hproducers : s'.producers = Function.update s.producers p pc) : s'.Awake n := by
  rw [awake_iff] at h ⊢
  apply h.frame
  . intro j hj
    refine ⟨⟨hj.1, ?_⟩, ?_⟩
    . rw [← hworkers]
      exact hj.2
    . intro hwork
      show (s.rings j).head ≠ (s.rings j).tail
      rw [← (hrings j).1, ← (hrings j).2]
      exact hwork
  . intro hzero
    exact hfd.symm.trans hzero
  . intro howed
    have hkeep : ∀ q, s.producers q = .write → s'.producers q = .write := by
      intro q hq
      rw [hproducers]
      by_cases hqp : q = p
      . rw [hqp] at hq
        exact absurd hq hp
      . rw [Function.update_of_ne hqp]
        exact hq
    cases howed with
    | inl hparser => exact Or.inl (hkeep _ hparser)
    | inr hretry => exact Or.inr (hkeep _ hretry)

theorem setRing_positions {j : Nat} {r : SPSCEventRing α} (hr : r.head = (s.rings j).head ∧ r.tail = (s.rings j).tail)
    (k : Nat)
    : ((s.setRing j r).rings k).head = (s.rings k).head ∧ ((s.setRing j r).rings k).tail = (s.rings k).tail := by
  by_cases hkj : k = j
  . subst hkj
    rw [setRing_self]
    exact hr
  . rw [setRing_of_ne r hkj]
    exact ⟨rfl, rfl⟩

theorem Awake.stepProducer (h : s.Awake n) {p : Producer} (hstep : s.stepProducer p = some s') : s'.Awake n := by
  unfold WorkerWait.stepProducer at hstep
  split at hstep
  . cases hstep
  . next j ev pc hpc =>
    have hne : s.producers p ≠ .write := by
      intro hwrite
      rw [hpc] at hwrite
      cases hwrite
    split at hstep
    . next r pc' hpush =>
      cases hstep
      exact h.produce hne (setRing_positions (SPSCEventRing.push_next hpush)) rfl rfl rfl
    . next r hpush =>
      cases hstep
      rw [SPSCEventRing.push_full hpush]
      exact h.produce hne (setRing_positions ⟨rfl, rfl⟩) rfl rfl rfl
    . next r hpush =>
      cases hstep
      rw [awake_iff]
      apply Doorbell.Sound.of_owed
      have hwrite : ((s.setRing j r).setProducer p .write).producers p = .write := Function.update_self _ _ _
      cases p with
      | parser => exact Or.inl hwrite
      | retry => exact Or.inr hwrite
  . cases hstep
    rw [awake_iff]
    apply Doorbell.Sound.of_count
    exact Nat.succ_ne_zero _

theorem take_iff {pc : WaiterPc α} (hold : s.workers i ≠ .poll) (hpc : pc ≠ .poll)
    : ({ s.setWorker i pc with wakeFd := 0 } : WorkerWait α).Awake n ↔ s.Settled n := by
  have hsame : ∀ j, (s.setWorker i pc).workers j = .poll ↔ s.workers j = .poll := by
    intro j
    by_cases hj : j = i
    . subst hj
      rw [setWorker_self]
      exact ⟨fun h => absurd h hpc, fun h => absurd h hold⟩
    . rw [setWorker_of_ne pc hj]
  rw [awake_iff]
  have htake := @Doorbell.sound_take_iff Nat (s.bell n) (({ s.setWorker i pc with wakeFd := 0 } :
    WorkerWait α).bell n) (fun j => and_congr_right fun _ => hsame j) rfl rfl Iff.rfl
  rw [htake]
  constructor
  . intro h j hj hpoll hdata
    exact h j ⟨hj, hpoll⟩ hdata
  . intro h j hj hdata
    exact h j hj.1 hj.2 hdata

theorem sleep_iff (h : s.Awake n) (hi : i < n) (hfd : ¬s.wakeFd > 0)
    : (s.setWorker i .poll).Awake n ↔ (s.HasData i → s.Owed) := by
  rw [awake_iff] at h ⊢
  have hsleep := @Doorbell.Sound.sleep_iff Nat (s.bell n) ((s.setWorker i .poll).bell n) h i
    ⟨hi, setWorker_self _⟩ ?_ rfl rfl Iff.rfl
  . rw [hsleep]
    constructor
    . intro hcase hdata
      exact hcase hdata (by show s.wakeFd = 0; omega)
    . intro hcase hdata _
      exact hcase hdata
  . intro j hj
    by_cases heq : j = i
    . exact Or.inl heq
    . rw [WorkerWait.bell] at hj
      dsimp only at hj
      rw [setWorker_of_ne _ heq] at hj
      exact Or.inr hj

theorem Awake.stepWorker (h : s.Awake n) (hdrain : s.workers i ≠ .drain) (htaken : s.workers i ≠ .taken)
    (hstep : s.stepWorker i = some s') : s'.Awake n := by
  unfold WorkerWait.stepWorker at hstep
  split at hstep
  . split at hstep
    . cases hstep
      exact h.goto (by simp)
    . cases hstep
      exact h.goto (by simp)
  . split at hstep
    . cases hstep
      exact h.goto (by simp)
    . split at hstep
      . cases hstep
        exact h.goto (by simp)
      . cases hstep
        exact h.goto (by simp)
  . split at hstep
    . cases hstep
      exact h.goto (by simp)
    . split at hstep
      . cases hstep
        exact h.goto (by simp)
      . cases hstep
        exact (h.spin _).goto (by simp)
  . split at hstep
    . cases hstep
      exact h.goto (by simp)
    . split at hstep
      . cases hstep
        exact (h.spin _).goto (by simp)
      . cases hstep
        exact (h.spin _).goto (by simp)
  . cases hstep
    rw [awake_iff]
    apply Doorbell.Sound.of_count
    exact Nat.succ_ne_zero _
  . next hpc => exact absurd hpc hdrain
  . split at hstep
    . cases hstep
      exact h.goto (by simp)
    . cases hstep
  . next hpc => exact absurd hpc htaken
  . split at hstep
    . cases hstep
      exact h.consume _ (by simp)
    . cases hstep
      exact h.consume _ (by simp)
    . cases hstep
      exact h.consume _ (by simp)
  . cases hstep

theorem Awake.step_iff (h : s.Awake n) {l : Label α} (hstep : s.step n l = some s')
    : s'.Awake n ↔ s.Careful n l := by
  cases l with
  | begin p j ev =>
    refine ⟨fun _ => trivial, fun _ => ?_⟩
    unfold WorkerWait.step at hstep
    dsimp only at hstep
    split at hstep
    . next hidle =>
      cases hstep
      have hne : s.producers p ≠ .write := by
        intro hwrite
        rw [hidle] at hwrite
        cases hwrite
      exact h.produce hne (fun _ => ⟨rfl, rfl⟩) rfl rfl rfl
    . cases hstep
  | producer p => exact ⟨fun _ => trivial, fun _ => h.stepProducer hstep⟩
  | timeout j =>
    refine ⟨fun _ => trivial, fun _ => ?_⟩
    unfold WorkerWait.step at hstep
    dsimp only at hstep
    split at hstep
    . split at hstep
      . cases hstep
        exact h.goto (by simp)
      . cases hstep
    . cases hstep
  | storeParseDone =>
    cases hstep
    exact ⟨fun _ => trivial, fun _ => h⟩
  | wake =>
    refine ⟨fun _ => trivial, fun _ => ?_⟩
    unfold WorkerWait.step at hstep
    dsimp only at hstep
    split at hstep
    . cases hstep
      rw [awake_iff]
      apply Doorbell.Sound.of_count
      exact Nat.succ_ne_zero _
    . cases hstep
  | worker j =>
    unfold WorkerWait.step at hstep
    dsimp only at hstep
    split at hstep
    . next hj =>
      by_cases hdrain : s.workers j = .drain
      . unfold WorkerWait.stepWorker at hstep
        simp only [Careful, hdrain, hj, true_implies] at hstep ⊢
        split at hstep
        . next hfd =>
          cases hstep
          rw [if_pos hfd]
          have hsame : s.setWorker j .drain = s := by
            unfold setWorker
            rw [← hdrain, Function.update_eq_self]
          have htake : _ ↔ s.Settled n := @take_iff α n s j .drain (by simp [hdrain]) (by simp)
          rw [hsame] at htake
          exact htake
        . next hfd =>
          cases hstep
          rw [if_neg hfd]
          exact sleep_iff h hj hfd
      . by_cases htaken : s.workers j = .taken
        . unfold WorkerWait.stepWorker at hstep
          simp only [Careful, htaken, hj, true_implies] at hstep ⊢
          cases hstep
          exact take_iff (by simp [htaken]) (by simp)
        . have hawake := h.stepWorker hdrain htaken hstep
          refine ⟨?_, fun _ => hawake⟩
          intro _ _
          split
          . next hpc => exact absurd hpc hdrain
          . next hpc => exact absurd hpc htaken
          . trivial
    . cases hstep

theorem awake_iff_careful (n : Nat) (rings : Nat → SPSCEventRing α) (labels : List (Label α))
    : (∀ pre, pre <+: labels → ∀ s, Run.exec (step n) (start rings) pre = some s → s.Awake n) ↔
        Run.Along (step n) (fun s l => s.Careful n l) (start rings) labels := by
  apply Run.exec_iff
  . intro s l s' h hstep
    exact h.step_iff hstep
  . intro s l hnone
    cases l with
    | worker i =>
      intro hi
      unfold step at hnone
      dsimp only at hnone
      rw [if_pos hi] at hnone
      -- a worker that takes the counter or goes to sleep can always do so
      split
      . next hdrain =>
        unfold WorkerWait.stepWorker at hnone
        simp only [hdrain] at hnone
        split at hnone
        . cases hnone
        . cases hnone
      . next htaken =>
        unfold WorkerWait.stepWorker at hnone
        simp only [htaken] at hnone
        cases hnone
      . trivial
    | begin => trivial
    | producer => trivial
    | timeout => trivial
    | storeParseDone => trivial
    | wake => trivial
  . intro i _ hpoll
    cases hpoll

end WorkerWait

namespace ParserWait

variable {s s' : ParserWait}

def bell (s : ParserWait) : Doorbell Unit where
  count := s.wakeFd
  asleep _ := s.parse = .poll
  work _ := s.HasData
  owed := s.Owed

theorem awake_iff : s.Awake ↔ s.bell.Sound := by
  constructor
  . intro h _ hpoll hwork hzero
    exact h hpoll hzero hwork
  . intro h hpoll hzero hwork
    exact h () hpoll hwork hzero

theorem awake_of_parse (h : s.parse ≠ .poll) : s.Awake := by
  intro hpoll
  exact absurd hpoll h

theorem awake_of_owed (h : s.Owed) : s.Awake := by
  rw [awake_iff]
  exact Doorbell.Sound.of_owed h

theorem awake_of_wakeFd (h : s.wakeFd ≠ 0) : s.Awake := by
  rw [awake_iff]
  exact Doorbell.Sound.of_count h

theorem Awake.stepRecv (h : s.Awake) (hstep : s.stepRecv = some s') : s'.Awake := by
  unfold ParserWait.stepRecv at hstep
  split at hstep
  . next hrecv =>
    have hnot : ¬s.Owed := by
      intro howed
      cases howed with
      | inl hfeed =>
        rw [hrecv] at hfeed
        cases hfeed
      | inr hnotify =>
        rw [hrecv] at hnotify
        cases hnotify
    have hidle : ∀ pc : RecvPc, ({ s with recv := pc } : ParserWait).Awake := by
      intro pc hpoll hzero hdata
      exact absurd (h hpoll hzero hdata) hnot
    split at hstep
    . cases hstep
      exact hidle _
    . cases hstep
      exact hidle _
  . split at hstep
    . cases hstep
    . cases hstep
      exact awake_of_owed (Or.inl rfl)
  . next hrecv =>
    split at hstep
    . cases hstep
      exact awake_of_owed (Or.inl hrecv)
    . cases hstep
      exact awake_of_owed (Or.inr rfl)
  . cases hstep
    exact awake_of_wakeFd (Nat.succ_ne_zero _)
  . cases hstep

theorem Awake.stepParse_iff (h : s.Awake) (hstep : s.stepParse = some s') : s'.Awake ↔ s.Careful .parse := by
  unfold ParserWait.stepParse at hstep
  have hcalm : s.parse ≠ .drain → s'.parse ≠ .poll → (s'.Awake ↔ s.Careful .parse) := by
    intro hdrain hpoll
    refine ⟨?_, fun _ => awake_of_parse hpoll⟩
    intro _ hpc
    exact absurd hpc hdrain
  cases hpc : s.parse with
  | loadStop =>
    simp only [hpc] at hstep
    split at hstep
    . cases hstep
      exact hcalm (by simp [hpc]) (by simp)
    . cases hstep
      exact hcalm (by simp [hpc]) (by simp)
  | parse =>
    simp only [hpc] at hstep
    obtain ⟨pipeline, _, rfl⟩ := Option.map_eq_some_iff.1 hstep
    apply hcalm
    . simp [hpc]
    . dsimp only
      split
      . simp
      . simp
  | testEmpty =>
    simp only [hpc] at hstep
    split at hstep
    . cases hstep
      exact hcalm (by simp [hpc]) (by simp)
    . split at hstep
      . cases hstep
        exact hcalm (by simp [hpc]) (by simp)
      . cases hstep
        exact hcalm (by simp [hpc]) (by simp)
  | drain =>
    simp only [hpc] at hstep
    split at hstep
    . next hfd =>
      cases hstep
      constructor
      . intro _ _ hzero
        omega
      . intro _
        apply awake_of_parse
        simp
    . next hfd =>
      cases hstep
      rw [awake_iff] at h ⊢
      have hsleep := @Doorbell.Sound.sleep_iff Unit s.bell ({ s with parse := .poll } : ParserWait).bell h () rfl
        (fun _ _ => Or.inl rfl) rfl rfl Iff.rfl
      rw [hsleep]
      constructor
      . intro hcase _ hzero hdata
        exact hcase hdata hzero
      . intro hcareful hdata hzero
        exact hcareful hpc hzero hdata
  | poll =>
    simp only [hpc] at hstep
    split at hstep
    . cases hstep
      exact hcalm (by simp [hpc]) (by simp)
    . cases hstep
  | taken =>
    simp only [hpc] at hstep
    cases hstep
    exact hcalm (by simp [hpc]) (by simp)
  | lastParse =>
    simp only [hpc] at hstep
    obtain ⟨pipeline, _, rfl⟩ := Option.map_eq_some_iff.1 hstep
    apply hcalm
    . simp [hpc]
    . dsimp only
      split
      . simp
      . simp
  | finished =>
    simp only [hpc] at hstep
    cases hstep

theorem Awake.step_iff (h : s.Awake) {l : Label} (hstep : s.step l = some s') : s'.Awake ↔ s.Careful l := by
  cases l with
  | recv => exact ⟨fun _ => trivial, fun _ => h.stepRecv hstep⟩
  | interrupted =>
    refine ⟨fun _ => trivial, fun _ => ?_⟩
    unfold ParserWait.step at hstep
    dsimp only at hstep
    split at hstep
    . next hrecv =>
      cases hstep
      intro hpoll hzero hdata
      have howed := h hpoll hzero hdata
      unfold Owed at howed
      rw [hrecv.1] at howed
      simp at howed
    . cases hstep
  | parse => exact h.stepParse_iff hstep
  | timeout =>
    refine ⟨fun _ => trivial, fun _ => ?_⟩
    unfold ParserWait.step at hstep
    dsimp only at hstep
    split at hstep
    . cases hstep
      exact awake_of_parse (by simp)
    . cases hstep
  | storeStop =>
    cases hstep
    exact ⟨fun _ => trivial, fun _ => h⟩
  | notify =>
    refine ⟨fun _ => trivial, fun _ => ?_⟩
    unfold ParserWait.step at hstep
    dsimp only at hstep
    split at hstep
    . cases hstep
      exact awake_of_wakeFd (Nat.succ_ne_zero _)
    . cases hstep

theorem awake_iff_careful (capacity : Nat) (buf : Nat → UInt8) (packets : List (List Message)) (labels : List Label)
    : (∀ pre, pre <+: labels → ∀ s, Run.exec step (start capacity buf packets) pre = some s → s.Awake) ↔
        Run.Along step Careful (start capacity buf packets) labels := by
  apply Run.exec_iff
  . intro s l s' h hstep
    exact h.step_iff hstep
  . intro s l hnone
    cases l with
    | parse =>
      intro hdrain
      unfold step stepParse at hnone
      simp only [hdrain] at hnone
      split at hnone
      . cases hnone
      . cases hnone
    | recv => trivial
    | interrupted => trivial
    | timeout => trivial
    | storeStop => trivial
    | notify => trivial
  . intro hpoll
    cases hpoll

end ParserWait

/--
No worker and no parsing thread sleeps while it has data, in any state of a run, if and only if no counter was taken
and no sleep begun at the wrong moment of it.
-/
theorem consumers_awake_iff {α : Type} (n : Nat) (rings : Nat → SPSCEventRing α)
    (labels : List (WorkerWait.Label α)) (capacity : Nat) (buf : Nat → UInt8) (packets : List (List Message))
    (parserLabels : List ParserWait.Label)
    : ((∀ pre, pre <+: labels → ∀ s, Run.exec (WorkerWait.step n) (WorkerWait.start rings) pre = some s →
          s.Awake n) ↔
        Run.Along (WorkerWait.step n) (fun s l => s.Careful n l) (WorkerWait.start rings) labels) ∧
      ((∀ pre, pre <+: parserLabels → ∀ s,
          Run.exec ParserWait.step (ParserWait.start capacity buf packets) pre = some s → s.Awake) ↔
        Run.Along ParserWait.step ParserWait.Careful (ParserWait.start capacity buf packets) parserLabels) := by
  constructor
  . apply WorkerWait.awake_iff_careful
  . apply ParserWait.awake_iff_careful

/--
The producer stores its tail and writes the eventfd after the worker has found its ring empty and before it drains.
-/
def overslept : List (WorkerWait.Label Unit) :=
  List.replicate 5 (.worker 0) ++ [.begin .parser 0 ()] ++ List.replicate 5 (.producer .parser) ++
    List.replicate 2 (.worker 0)

def packetMessage : Message where
  seq := 7
  body := [83, 79]
  seq_lt := by decide
  body_pos := by decide
  body_le := by decide

def parserOverslept : List ParserWait.Label :=
  List.replicate 4 .parse ++ List.replicate 7 .recv ++ List.replicate 2 .parse

theorem not_consumers_awake
    : (¬∀ (α : Type) (n : Nat) (rings : Nat → SPSCEventRing α) (labels : List (WorkerWait.Label α))
        (s : WorkerWait α), Run.exec (WorkerWait.step n) (WorkerWait.start rings) labels = some s → s.Awake n) ∧
      ¬∀ (capacity : Nat) (buf : Nat → UInt8) (packets : List (List Message)) (labels : List ParserWait.Label)
        (s : ParserWait), Run.exec ParserWait.step (ParserWait.start capacity buf packets) labels = some s →
          s.Awake := by
  constructor
  . intro h
    generalize hr : Run.exec (WorkerWait.step 1) (WorkerWait.start fun _ => ⟨fun _ => (), 4, 0, 0⟩) overslept = r
    have hend : r.map (fun s => (decide (s.workers 0 = .poll), s.wakeFd, (s.rings 0).head, (s.rings 0).tail,
        decide (s.producers .parser = .write ∨ s.producers .retry = .write))) = some (true, 0, 0, 1, false) := by
      rw [← hr]
      decide +kernel
    obtain ⟨s, rfl, hs⟩ := Option.map_eq_some_iff.1 hend
    simp only [Prod.mk.injEq, decide_eq_true_eq, decide_eq_false_iff_not] at hs
    obtain ⟨hpoll, hzero, hhead, htail, howed⟩ := hs
    apply howed
    apply h Unit 1 _ _ s hr 0 (by decide) hpoll hzero
    unfold WorkerWait.HasData
    rw [hhead, htail]
    decide
  . intro h
    generalize hr : Run.exec ParserWait.step (ParserWait.start 64 (fun _ => 0) [[packetMessage]])
      parserOverslept = r
    have hend : r.map (fun s => (s.parse, s.wakeFd, s.pipeline.head, s.pipeline.tail, s.recv)) =
        some (.poll, 0, 0, 12, .loadStop) := by
      rw [← hr]
      decide +kernel
    obtain ⟨s, rfl, hs⟩ := Option.map_eq_some_iff.1 hend
    simp only [Prod.mk.injEq] at hs
    obtain ⟨hpoll, hzero, hhead, htail, hrecv⟩ := hs
    have howed := h 64 _ _ _ s hr hpoll hzero
    unfold ParserWait.HasData ParserWait.Owed at howed
    rw [hhead, htail, hrecv] at howed
    revert howed
    decide

end NebulaXTrader
