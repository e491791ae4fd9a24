import NebulaXTrader.Market.Delivery
import NebulaXTrader.Runtime.Dispatch
import NebulaXTrader.Runtime.Machine

/-!
This module contains the theorem about the whole way of a message from the byte ring to its book: under every
interleaving of the threads the book of a locate is that of a single consumer that has got a part of the stream.
-/

namespace NebulaXTrader

namespace ItchParser

theorem rdBytes_lt (n : Nat) (m : List UInt8) (off : Nat) : rdBytes n m off < 256 ^ n := by
  unfold rdBytes
  induction n with
  | zero => exact Nat.one_pos
  | succ n ih =>
    rw [List.range_succ, List.foldl_append]
    have hbyte := (m.getD (off + n) 0).toNat_lt
    simp only [List.foldl_cons, List.foldl_nil]
    rw [pow_succ]
    omega

theorem locate_lt {m : List UInt8} {seq : Nat} {ev : MarketEvent} (h : feed m seq = some ev) : ev.locate < 65536 := by
  have hemit : ∀ (p : Prop) [Decidable p] (body : MarketEvent.Body),
      (if p then none else some (emit m seq body)) = some ev → ev.locate < 65536 := by
    intro p _ body hite
    split at hite
    . cases hite
    . cases hite
      exact rdBytes_lt 2 m 1
  unfold feed at h
  split at h
  . cases h
  . split at h
    . exact hemit _ _ h
    . exact hemit _ _ h
    . exact hemit _ _ h
    . exact hemit _ _ h
    . exact hemit _ _ h
    . exact hemit _ _ h
    . exact hemit _ _ h
    . exact hemit _ _ h
    . cases h

end ItchParser

namespace BytePipeline

theorem fed_stepUnpacker {s s' : BytePipeline} (h : s.stepUnpacker = some s') : s'.fed = s.fed := by
  unfold stepUnpacker at h
  split at h
  . split at h
    . cases h
    . split at h
      . cases h
        rfl
      . cases h
        rfl
  . cases h
    rfl
  . cases h
    rfl

theorem fed_stepParser {s s' : BytePipeline} (h : s.stepParser = some s') : s.fed <+: s'.fed := by
  have hsame : ∀ {t : BytePipeline}, some t = some s' → t.fed = s.fed → s.fed <+: s'.fed := by
    intro t ht hfed
    cases ht
    rw [hfed]
  unfold stepParser at h
  cases hpc : s.parser with
  | acquireHead => rw [hpc] at h; exact hsame h rfl
  | loadUsed n =>
    rw [hpc] at h
    dsimp only at h
    split at h
    . exact hsame h rfl
    . split at h
      . exact hsame h rfl
      . exact hsame h rfl
  | readHead n used =>
    rw [hpc] at h
    dsimp only at h
    split at h
    . exact hsame h rfl
    . split at h
      . exact hsame h rfl
      . exact hsame h rfl
  | testHole =>
    rw [hpc] at h
    dsimp only at h
    split at h
    . exact hsame h rfl
    . exact hsame h rfl
  | skip bytes => rw [hpc] at h; exact hsame h rfl
  | discard n => rw [hpc] at h; exact hsame h rfl
  | acquireMessage seq bodyLen =>
    rw [hpc] at h
    dsimp only at h
    split at h
    . exact hsame h rfl
    . exact hsame h rfl
  | feed seq bodyLen =>
    rw [hpc] at h
    cases h
    exact List.prefix_append _ _
  | verify seq bodyLen n =>
    rw [hpc] at h
    dsimp only at h
    split at h
    . exact hsame h rfl
    . exact hsame h rfl
  | copyFirst seq bodyLen n => rw [hpc] at h; exact hsame h rfl
  | copySecond seq bodyLen tmp => rw [hpc] at h; exact hsame h rfl
  | feedTmp seq bodyLen tmp =>
    rw [hpc] at h
    cases h
    exact List.prefix_append _ _
  | release msgLen => rw [hpc] at h; exact hsame h rfl

end BytePipeline

namespace Dispatcher

variable {α : Type} {s s' : Dispatcher α} {stream q b : List α} {n : Nat}

/--
The call of `dispatch` has returned.
-/
def Returned (s : Dispatcher α) : Prop := s.parser = .loadActive ∧ s.todo = []

theorem returned_of_stepParser (h : s.stepParser = none) : s.Returned := by
  unfold stepParser at h
  split at h
  . next hpc =>
    split at h
    . next htodo => exact ⟨hpc, htodo⟩
    . split at h
      . cases h
      . cases h
  . split at h
    . cases h
    . cases h
    . cases h
  . split at h
    . cases h
    . cases h
    . cases h
  . split at h
    . cases h
    . cases h
    . cases h
  . cases h

theorem popped_stepParser (h : s.stepParser = some s') : s'.popped = s.popped := by
  unfold stepParser at h
  split at h
  . split at h
    . cases h
    . split at h
      . cases h
        rfl
      . cases h
        rfl
  . split at h
    . cases h
      rfl
    . cases h
      rfl
    . cases h
      rfl
  . split at h
    . cases h
      rfl
    . cases h
      rfl
    . cases h
      rfl
  . split at h
    . cases h
      rfl
    . cases h
      rfl
    . cases h
      rfl
  . cases h
    rfl

theorem frame_stepRetry (h : s.stepRetry = some s') : s'.parser = s.parser ∧ s'.todo = s.todo ∧ s'.popped = s.popped := by
  unfold stepRetry at h
  split at h
  . cases h
    exact ⟨rfl, rfl, rfl⟩
  . split at h
    . cases h
      exact ⟨rfl, rfl, rfl⟩
    . cases h
      exact ⟨rfl, rfl, rfl⟩
    . cases h
      exact ⟨rfl, rfl, rfl⟩
  . split at h
    . cases h
      exact ⟨rfl, rfl, rfl⟩
    . cases h
      exact ⟨rfl, rfl, rfl⟩
    . cases h
      exact ⟨rfl, rfl, rfl⟩
  . split at h
    . cases h
      exact ⟨rfl, rfl, rfl⟩
    . cases h
      exact ⟨rfl, rfl, rfl⟩
  . split at h
    . cases h
      exact ⟨rfl, rfl, rfl⟩
    . split at h
      . cases h
        exact ⟨rfl, rfl, rfl⟩
      . cases h
        exact ⟨rfl, rfl, rfl⟩
  . cases h
    exact ⟨rfl, rfl, rfl⟩

theorem frame_stepWorker (h : s.stepWorker = some s') : s'.parser = s.parser ∧ s'.todo = s.todo ∧ s.popped <+: s'.popped := by
  unfold stepWorker at h
  split at h
  . cases h
    exact ⟨rfl, rfl, List.prefix_refl _⟩
  . cases h
    exact ⟨rfl, rfl, List.prefix_append _ _⟩
  . cases h
    exact ⟨rfl, rfl, List.prefix_refl _⟩

theorem Flow.call (h : s.Flow stream q b n) (ev : α) : Flow (stream ++ [ev]) q b n { s with todo := s.todo ++ [ev] } := by
  refine ⟨h.spsc, h.bucket, h.worker, ?_, ?_, ?_⟩
  . have hparser := h.parser
    dsimp only
    unfold ParserPc.Knows at hparser ⊢
    exact hparser
  . have hretry := h.retry
    dsimp only
    unfold RetryPc.Knows at hretry ⊢
    exact hretry
  . dsimp only
    rw [← List.append_assoc, h.kept]

end Dispatcher

namespace Registry

theorem owner_lookupOrRegister {n l k : Nat} {d d' : Registry} (h : lookupOrRegister n d l = some (d', k))
    : d'.owner l = k := by
  unfold lookupOrRegister at h
  split at h
  . cases h
    rfl
  . split at h
    . cases h
    . cases h
      exact Function.update_self _ _ _

end Registry

namespace Workers

variable {owner owner' : Nat → Nat} {w : Workers} {ev : MarketEvent}

theorem deliver_congr (h : owner' ev.locate = owner ev.locate) : w.deliver owner' ev = w.deliver owner ev := by
  unfold deliver
  rw [h]

theorem hasRoom_congr (h : owner' ev.locate = owner ev.locate) : w.HasRoom owner' ev ↔ w.HasRoom owner ev := by
  unfold HasRoom
  rw [h]

/--
The workers process the events of `log` one after the other and have room for each of them.
-/
def deliverAll (owner : Nat → Nat) (w : Workers) (log : List MarketEvent) : Option Workers :=
  Run.exec (Run.restrict (fun w ev => some (deliver owner w ev)) (HasRoom owner)) w log

theorem deliverAll_congr {log : List MarketEvent} (h : ∀ ev ∈ log, owner' ev.locate = owner ev.locate)
    : w.deliverAll owner' log = w.deliverAll owner log := by
  apply Run.exec_congr
  intro ev hev w
  unfold Run.restrict
  dsimp only
  rw [deliver_congr (h ev hev)]
  exact if_congr (hasRoom_congr (h ev hev)) rfl rfl

theorem deliverAll_concat {w' : Workers} {log : List MarketEvent} (h : w.deliverAll owner log = some w')
    (hroom : w'.HasRoom owner ev) : w.deliverAll owner (log ++ [ev]) = some (w'.deliver owner ev) := by
  unfold deliverAll at h ⊢
  rw [Run.exec_append, h]
  exact Run.exec_singleton (Run.restrict_eq_some.2 ⟨hroom, rfl⟩)

end Workers

namespace Machine

variable {k pool index : Nat} {messages : List Message} {s s' : Machine}

/--
The events that the parsing thread has dispatched, the last one of them perhaps not yet to the end.
-/
def given (s : Machine) : List MarketEvent :=
  (s.pipe.fed.take s.handled).filterMap (fun m => ItchParser.feed m.2 m.1)

def stream (s : Machine) (i : Nat) : List MarketEvent := s.given.filter (fun ev => s.registry.owner ev.locate = i)

structure Inv (k pool index : Nat) (messages : List Message) (s : Machine) : Prop where
  pipe : ∃ H T ms, s.pipe.Flow k H T ms messages
  handled : s.handled ≤ s.pipe.fed.length
  registers : Registry.Registers s.nworkers (s.given.map MarketEvent.locate) s.registry
  channel : ∀ i, ∃ q b n, (s.channels i).Flow (s.stream i) q b n
  returned : ∀ i, s.dispatching ≠ some i → (s.channels i).Returned
  processed : ∀ i, s.processed i ≤ (s.channels i).popped.length
  log : ∀ i, s.log.filter (fun ev => s.registry.owner ev.locate = i) = (s.channels i).popped.take (s.processed i)
  workers : (Workers.init pool index).deliverAll s.registry.owner s.log = some s.workers
  pos : 1 ≤ s.nworkers
  assigned : Run.exec (Registry.step s.nworkers) Registry.init (s.given.map MarketEvent.locate) = some s.registry

theorem Inv.start {c nworkers : Nat} (hc : c < 64) (hpos : 1 ≤ nworkers) (buf : Nat → UInt8) (slots : Nat → MarketEvent)
    : (start k c nworkers pool index buf slots messages).Inv k pool index messages where
  pipe := ⟨0, 0, [], BytePipeline.Flow.start buf⟩
  handled := Nat.le_refl _
  registers := Registry.Registers.init
  channel := fun _ => ⟨[], [], 0, Dispatcher.Flow.start hc hc slots slots⟩
  returned := fun _ _ => ⟨rfl, rfl⟩
  processed := fun _ => Nat.le_refl _
  log := fun _ => rfl
  workers := rfl
  pos := hpos
  assigned := rfl

theorem Inv.popped (h : s.Inv k pool index messages) (i : Nat) : (s.channels i).popped <+: s.stream i := by
  obtain ⟨q, b, n, hflow⟩ := h.channel i
  exact hflow.fifo.popped

theorem Inv.mem_given (h : s.Inv k pool index messages) {ev : MarketEvent} (hev : ev ∈ s.log) : ev ∈ s.given := by
  have hmem : ev ∈ s.log.filter (fun e => s.registry.owner e.locate = s.registry.owner ev.locate) := by
    rw [List.mem_filter]
    exact ⟨hev, decide_eq_true rfl⟩
  rw [h.log] at hmem
  exact (List.mem_filter.1 ((h.popped _).subset (List.take_subset _ _ hmem))).1

theorem Inv.setPipe (h : s.Inv k pool index messages) {pipe : BytePipeline} (hflow : ∃ H T ms, pipe.Flow k H T ms messages)
    (hfed : s.pipe.fed <+: pipe.fed) : Inv k pool index messages { s with pipe := pipe } := by
  have hgiven : given { s with pipe := pipe } = s.given := by
    obtain ⟨more, hmore⟩ := hfed
    unfold given
    dsimp only
    rw [← hmore, List.take_append_of_le_length h.handled]
  refine ⟨hflow, h.handled.trans hfed.length_le, ?_, ?_, h.returned, h.processed, h.log, h.workers, h.pos, ?_⟩
  . rw [hgiven]
    exact h.registers
  . unfold stream
    rw [hgiven]
    exact h.channel
  . rw [hgiven]
    exact h.assigned

theorem Inv.setChannel (h : s.Inv k pool index messages) {i : Nat} {channel : Dispatcher MarketEvent}
    (hflow : ∃ q b n, channel.Flow (s.stream i) q b n) (hpopped : (s.channels i).popped <+: channel.popped)
    (hreturned : s.dispatching ≠ some i → channel.Returned)
    : Inv k pool index messages { s with channels := Function.update s.channels i channel } := by
  refine ⟨h.pipe, h.handled, h.registers, ?_, ?_, ?_, ?_, h.workers, h.pos, h.assigned⟩
  . intro j
    by_cases hj : j = i
    . rw [hj]
      dsimp only
      rw [Function.update_self]
      exact hflow
    . dsimp only
      rw [Function.update_of_ne hj]
      exact h.channel j
  . intro j hne
    by_cases hj : j = i
    . rw [hj] at hne ⊢
      dsimp only
      rw [Function.update_self]
      exact hreturned hne
    . dsimp only
      rw [Function.update_of_ne hj]
      exact h.returned j hne
  . intro j
    by_cases hj : j = i
    . rw [hj]
      dsimp only
      rw [Function.update_self]
      exact (h.processed i).trans hpopped.length_le
    . dsimp only
      rw [Function.update_of_ne hj]
      exact h.processed j
  . intro j
    by_cases hj : j = i
    . rw [hj]
      dsimp only
      rw [Function.update_self, h.log]
      obtain ⟨more, hmore⟩ := hpopped
      rw [← hmore, List.take_append_of_le_length (h.processed i)]
    . dsimp only
      rw [Function.update_of_ne hj]
      exact h.log j

theorem Inv.receive (h : s.Inv k pool index messages) (hk : 9 ≤ k) (hk' : k < 64) (hroomy : s.pipe.Roomy)
    (hstep : s.stepReceive = some s') : s'.Inv k pool index messages := by
  unfold stepReceive at hstep
  obtain ⟨pipe, hpipe, rfl⟩ := Option.map_eq_some_iff.1 hstep
  obtain ⟨H, T, ms, hflow⟩ := h.pipe
  apply h.setPipe ⟨H, hflow.stepUnpacker hk hk' hroomy hpipe⟩
  rw [BytePipeline.fed_stepUnpacker hpipe]

theorem Inv.retry (h : s.Inv k pool index messages) {i : Nat} (hcleared : (s.channels i).Cleared .retry)
    (hstep : s.stepRetry i = some s') : s'.Inv k pool index messages := by
  unfold stepRetry at hstep
  split at hstep
  . obtain ⟨channel, hchannel, rfl⟩ := Option.map_eq_some_iff.1 hstep
    obtain ⟨q, b, n, hflow⟩ := h.channel i
    obtain ⟨hparser, htodo, hpopped⟩ := Dispatcher.frame_stepRetry hchannel
    apply h.setChannel
    . exact hflow.step (p := .retry) hcleared hchannel
    . rw [hpopped]
    . intro hne
      unfold Dispatcher.Returned
      rw [hparser, htodo]
      exact h.returned i hne
  . cases hstep

theorem take_succ_of_drop {α : Type} {xs rest : List α} {x : α} {n : Nat} (h : xs.drop n = x :: rest)
    : xs.take (n + 1) = xs.take n ++ [x] ∧ n + 1 ≤ xs.length ∧ x ∈ xs := by
  have hlength := congrArg List.length h
  rw [List.length_drop, List.length_cons] at hlength
  refine ⟨?_, by omega, ?_⟩
  . rw [List.take_add, h]
    rfl
  . apply List.mem_of_mem_drop
    rw [h]
    exact List.mem_cons_self

theorem Inv.process (h : s.Inv k pool index messages) {i : Nat} {ev : MarketEvent} {rest : List MarketEvent}
    (hdrop : (s.channels i).popped.drop (s.processed i) = ev :: rest) (hroom : s.workers.HasRoom (fun _ => i) ev)
    : Inv k pool index messages { s with
        workers := s.workers.deliver (fun _ => i) ev
        processed := Function.update s.processed i (s.processed i + 1)
        log := s.log ++ [ev] } := by
  obtain ⟨htake, hlength, hmem⟩ := take_succ_of_drop hdrop
  have howner : s.registry.owner ev.locate = i :=
    of_decide_eq_true (List.mem_filter.1 ((h.popped i).subset hmem)).2
  refine ⟨h.pipe, h.handled, h.registers, h.channel, h.returned, ?_, ?_, ?_, h.pos, h.assigned⟩
  . intro j
    by_cases hj : j = i
    . rw [hj]
      dsimp only
      rw [Function.update_self]
      exact hlength
    . dsimp only
      rw [Function.update_of_ne hj]
      exact h.processed j
  . intro j
    dsimp only
    rw [List.filter_append, h.log]
    by_cases hj : j = i
    . rw [hj, Function.update_self, htake, List.filter_cons_of_pos (by simpa using howner), List.filter_nil]
    . rw [Function.update_of_ne hj, List.filter_cons_of_neg, List.filter_nil, List.append_nil]
      simpa using fun heq => hj (heq.symm.trans howner)
  . have hsame : s.workers.deliver (fun _ => i) ev = s.workers.deliver s.registry.owner ev :=
      Workers.deliver_congr howner.symm
    dsimp only
    rw [hsame]
    exact Workers.deliverAll_concat h.workers ((Workers.hasRoom_congr howner.symm).1 hroom)

theorem Inv.work (h : s.Inv k pool index messages) {i : Nat} (hcareful : Careful s (.work i))
    (hstep : s.stepWork i = some s') : s'.Inv k pool index messages := by
  unfold stepWork at hstep
  split at hstep
  . split at hstep
    . obtain ⟨channel, hchannel, rfl⟩ := Option.map_eq_some_iff.1 hstep
      obtain ⟨q, b, n, hflow⟩ := h.channel i
      obtain ⟨hparser, htodo, hpopped⟩ := Dispatcher.frame_stepWorker hchannel
      apply h.setChannel
      . exact hflow.step (p := .worker) nofun hchannel
      . exact hpopped
      . intro hne
        unfold Dispatcher.Returned
        rw [hparser, htodo]
        exact h.returned i hne
    . next ev rest hdrop =>
      cases hstep
      apply h.process hdrop
      apply hcareful
      rw [hdrop]
      rfl
  . cases hstep

theorem given_succ {seq : Nat} {body : List UInt8}
    (htake : s.pipe.fed.take (s.handled + 1) = s.pipe.fed.take s.handled ++ [(seq, body)])
    : given { s with handled := s.handled + 1 } = s.given ++ (ItchParser.feed body seq).toList := by
  unfold given
  dsimp only
  rw [htake, List.filterMap_append]
  cases hfeed : ItchParser.feed body seq with
  | none => simp [hfeed]
  | some ev => simp [hfeed]

theorem Inv.handle (h : s.Inv k pool index messages) {seq : Nat} {body : List UInt8} {rest : List (Nat × List UInt8)}
    (hdrop : s.pipe.fed.drop s.handled = (seq, body) :: rest) (hfeed : ItchParser.feed body seq = none)
    : Inv k pool index messages { s with handled := s.handled + 1 } := by
  obtain ⟨htake, hlength, _⟩ := take_succ_of_drop hdrop
  have hgiven := given_succ htake
  rw [hfeed, Option.toList_none, List.append_nil] at hgiven
  refine ⟨h.pipe, hlength, ?_, ?_, h.returned, h.processed, h.log, h.workers, h.pos, ?_⟩
  . rw [hgiven]
    exact h.registers
  . unfold stream
    rw [hgiven]
    exact h.channel
  . rw [hgiven]
    exact h.assigned

theorem Inv.dispatch (h : s.Inv k pool index messages) {seq : Nat} {body : List UInt8}
    {rest : List (Nat × List UInt8)} (hdrop : s.pipe.fed.drop s.handled = (seq, body) :: rest)
    (hidle : s.dispatching = none) {ev : MarketEvent} (hfeed : ItchParser.feed body seq = some ev)
    (hstep : dispatch { s with handled := s.handled + 1 } ev = some s') : s'.Inv k pool index messages := by
  obtain ⟨htake, hlength, _⟩ := take_succ_of_drop hdrop
  unfold Machine.dispatch at hstep
  dsimp only at hstep
  split at hstep
  . cases hstep
  . next registry owner hlookup =>
    cases hstep
    have howner := Registry.owner_lookupOrRegister hlookup
    have hregister : Registry.step s.nworkers s.registry ev.locate = some registry := by
      unfold Registry.step
      rw [hlookup]
      rfl
    obtain ⟨hregisters, hkeep⟩ := h.registers.step h.pos (ItchParser.locate_lt hfeed) hregister
    have hgiven := given_succ htake
    rw [hfeed, Option.toList_some] at hgiven
    have hsame : ∀ e ∈ s.given, registry.owner e.locate = s.registry.owner e.locate := by
      intro e he
      exact hkeep _ (List.mem_map_of_mem he)
    have hstream : ∀ i, (s.given ++ [ev]).filter (fun e => registry.owner e.locate = i) =
        s.stream i ++ if owner = i then [ev] else [] := by
      intro i
      have hold : s.given.filter (fun e => registry.owner e.locate = i) = s.stream i :=
        List.filter_congr (fun e he => by rw [hsame e he])
      rw [List.filter_append, hold]
      split
      . next heq => rw [List.filter_cons_of_pos (by simpa using howner.trans heq), List.filter_nil]
      . next hne =>
        rw [List.filter_cons_of_neg, List.filter_nil]
        simpa using fun heq => hne (howner.symm.trans heq)
    have hmap : (s.given ++ [ev]).map MarketEvent.locate = s.given.map MarketEvent.locate ++ [ev.locate] := by
      rw [List.map_append]
      rfl
    rw [← hgiven] at hmap
    refine ⟨h.pipe, hlength, ?_, ?_, ?_, ?_, ?_, ?_, h.pos, ?_⟩
    . rw [← hmap] at hregisters
      exact hregisters
    . intro i
      have hgoal := hstream i
      rw [← hgiven] at hgoal
      obtain ⟨q, b, n, hflow⟩ := h.channel i
      refine ⟨q, b, n, ?_⟩
      apply Eq.mp (congrArg (fun stream => Dispatcher.Flow stream q b n _) hgoal.symm)
      dsimp only
      by_cases hi : i = owner
      . rw [hi, Function.update_self, if_pos rfl]
        rw [hi] at hflow
        exact hflow.call ev
      . rw [Function.update_of_ne hi, if_neg (Ne.symm hi), List.append_nil]
        exact hflow
    . intro i hne
      have hi : i ≠ owner := by
        intro heq
        exact hne (congrArg some heq.symm)
      dsimp only
      rw [Function.update_of_ne hi]
      apply h.returned
      rw [hidle]
      exact nofun
    . intro i
      dsimp only
      by_cases hi : i = owner
      . rw [hi, Function.update_self]
        exact h.processed owner
      . rw [Function.update_of_ne hi]
        exact h.processed i
    . intro i
      have hold : s.log.filter (fun e => registry.owner e.locate = i) =
          s.log.filter (fun e => s.registry.owner e.locate = i) :=
        List.filter_congr (fun e he => by rw [hsame e (h.mem_given he)])
      dsimp only
      rw [hold, h.log]
      by_cases hi : i = owner
      . rw [hi, Function.update_self]
      . rw [Function.update_of_ne hi]
    . dsimp only
      rw [Workers.deliverAll_congr (fun e he => hsame e (h.mem_given he))]
      exact h.workers
    . have hassigned : Run.exec (Registry.step s.nworkers) Registry.init (s.given.map MarketEvent.locate ++ [ev.locate]) =
          some registry := by
        rw [Run.exec_append, h.assigned]
        exact Run.exec_singleton hregister
      rw [← hmap] at hassigned
      exact hassigned

theorem Inv.parse (h : s.Inv k pool index messages) (hk : 9 ≤ k) (hk' : k < 64)
    (hhollow : s.pipe.Hollow) (hstep : s.stepParse = some s') : s'.Inv k pool index messages := by
  unfold stepParse at hstep
  split at hstep
  . next i hdispatching =>
    split at hstep
    . next channel hchannel =>
      cases hstep
      obtain ⟨q, b, n, hflow⟩ := h.channel i
      apply h.setChannel
      . exact hflow.step (p := .parser) nofun hchannel
      . rw [Dispatcher.popped_stepParser hchannel]
      . exact fun hne => absurd hdispatching hne
    . next hchannel =>
      cases hstep
      refine ⟨h.pipe, h.handled, h.registers, h.channel, ?_, h.processed, h.log, h.workers, h.pos, h.assigned⟩
      intro j _
      by_cases hj : j = i
      . rw [hj]
        exact Dispatcher.returned_of_stepParser hchannel
      . apply h.returned
        rw [hdispatching, ne_eq, Option.some_inj]
        exact Ne.symm hj
  . next hidle =>
    split at hstep
    . obtain ⟨pipe, hpipe, rfl⟩ := Option.map_eq_some_iff.1 hstep
      obtain ⟨H, T, ms, hflow⟩ := h.pipe
      obtain ⟨H', hflow'⟩ := hflow.stepParser hk hk' hhollow hpipe
      exact h.setPipe ⟨H', T, hflow'⟩ (BytePipeline.fed_stepParser hpipe)
    . next seq body rest hdrop =>
      dsimp only at hstep
      split at hstep
      . next hfeed =>
        cases hstep
        exact h.handle hdrop hfeed
      . next ev hfeed => exact h.dispatch hdrop hidle hfeed hstep

theorem Inv.step (h : s.Inv k pool index messages) (hk : 9 ≤ k) (hk' : k < 64) {a : Action} (hcareful : Careful s a)
    (hstep : step s a = some s') : s'.Inv k pool index messages := by
  cases a with
  | receive => exact h.receive hk hk' hcareful hstep
  | parse => exact h.parse hk hk' hcareful hstep
  | retry i => exact h.retry hcareful hstep
  | work i => exact h.work hcareful hstep

theorem Inv.given_prefix (h : s.Inv k pool index messages) (hk' : k < 64) : s.given <+: events messages := by
  obtain ⟨H, T, ms, hflow⟩ := h.pipe
  have hexact := hflow.exact hk'
  have hpushed : s.pipe.pushed <+: messages := by
    rw [← hexact.pushed, List.append_assoc]
    exact List.prefix_append _ _
  have hall : s.pipe.fed.take s.handled <+: messages.map (fun m => (m.seq, m.body)) :=
    (List.take_prefix _ _).trans (hexact.fed.trans (hpushed.map _))
  have hevents : events messages = (messages.map (fun m => (m.seq, m.body))).filterMap (fun m => ItchParser.feed m.2 m.1) := by
    rw [List.filterMap_map]
    rfl
  rw [hevents]
  exact hall.filterMap _

theorem filter_owner (owner : Nat → Nat) (evs : List MarketEvent) (l : Nat)
    : (evs.filter (fun ev => owner ev.locate = owner l)).filter (fun ev => ev.locate = l) =
      evs.filter (fun ev => ev.locate = l) := by
  rw [List.filter_filter]
  apply List.filter_congr
  intro ev _
  by_cases hl : ev.locate = l
  . simp [hl]
  . simp [hl]

theorem Inv.log_worker (h : s.Inv k pool index messages) (i : Nat)
    : s.log.filter (fun ev => s.registry.owner ev.locate = i) <+: s.stream i := by
  rw [h.log]
  exact (List.take_prefix _ _).trans (h.popped i)

theorem Inv.log_prefix (h : s.Inv k pool index messages) (hk' : k < 64) (l : Nat)
    : s.log.filter (fun ev => ev.locate = l) <+: (events messages).filter (fun ev => ev.locate = l) := by
  have hfiltered := (h.log_worker (s.registry.owner l)).filter (fun ev => ev.locate = l)
  unfold stream at hfiltered
  rw [filter_owner, filter_owner] at hfiltered
  exact hfiltered.trans ((h.given_prefix hk').filter _)

end Machine

end NebulaXTrader
