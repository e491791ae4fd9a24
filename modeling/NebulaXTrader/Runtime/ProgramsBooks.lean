import NebulaXTrader.Runtime.Programs

/-!
This module contains the theorems about a replay as a whole: the books and the decisions of the trader are those of the
messages in the file.
-/

namespace NebulaXTrader

namespace Message

theorem frame_injective : Function.Injective frame := by
  intro m m' h
  have hseq : m.seq = m'.seq := by
    rw [← m.word_seq, ← m'.word_seq, ← m.take_frame, ← m'.take_frame, h]
  have hbody : m.body = m'.body := by
    rw [← m.drop_frame, ← m'.drop_frame, h]
  cases m
  cases m'
  cases hseq
  cases hbody
  rfl

theorem frame_of_ofFrame {bytes : List UInt8} {m : Message} (h : ofFrame bytes = some m) : m.frame = bytes := by
  unfold ofFrame at h
  split at h
  . next hbytes =>
    cases h
    unfold frame
    dsimp only
    have hseq := Positional.bytes_word (bytes.take 8)
    rw [List.length_take, Nat.min_eq_left (by omega)] at hseq
    have hhead : bytes.take 8 = (bytes.take 10).take 8 := by
      rw [List.take_take]
      rfl
    rw [hseq, List.length_drop, ← hbytes.2.2, hhead, List.take_append_drop, List.take_append_drop]
  . cases h

theorem map_frame_numbered (k : Nat) (bs : List ItchBody)
    : (numbered k bs).map frame = ReplayClient.numbered k bs := by
  induction bs generalizing k with
  | nil => rfl
  | cons b bs ih =>
    unfold numbered
    rw [List.map_cons, ih, ReplayClient.numbered_cons]
    unfold frame
    rw [Positional.bytes_congr (Nat.mod_mod_of_dvd k (Nat.dvd_refl (2 ^ 64)))]

end Message

/-!
What the receiving thread pushes later changes no step.
-/

namespace BytePipeline

variable {s s' : BytePipeline} (ms : List Message)

theorem offer_offer (s : BytePipeline) (ms ms' : List Message) : (s.offer ms).offer ms' = s.offer (ms ++ ms') := by
  unfold offer
  rw [List.append_assoc]

theorem stepUnpacker_offer (h : s.stepUnpacker = some s') : (s.offer ms).stepUnpacker = some (s'.offer ms) := by
  unfold stepUnpacker at h ⊢
  unfold offer
  dsimp only
  split at h
  . next hpc =>
    split at h
    . cases h
    . next m todo htodo =>
      rw [htodo]
      dsimp only [List.cons_append]
      split at h
      . next hplan =>
        cases h
        rw [htodo]
        rfl
      . next hplan =>
        cases h
        rfl
  . cases h
    rfl
  . cases h
    rfl

theorem stepParser_offer (s : BytePipeline) : (s.offer ms).stepParser = s.stepParser.map (fun s => s.offer ms) := by
  unfold stepParser offer
  dsimp only
  split
  all_goals repeat' split
  all_goals rfl

end BytePipeline

namespace Machine

variable {s s' : Machine} {a : Action} (ms : List Message)

theorem offer_nil (s : Machine) : s.offer [] = s := by
  unfold offer BytePipeline.offer
  rw [List.append_nil]

theorem offer_offer (s : Machine) (ms ms' : List Message) : (s.offer ms).offer ms' = s.offer (ms ++ ms') := by
  unfold offer
  dsimp only
  rw [BytePipeline.offer_offer]

theorem stepReceive_offer (h : s.stepReceive = some s') : (s.offer ms).stepReceive = some (s'.offer ms) := by
  unfold stepReceive at h ⊢
  obtain ⟨pipe, hpipe, rfl⟩ := Option.map_eq_some_iff.1 h
  have hoffer : (s.offer ms).pipe.stepUnpacker = some (pipe.offer ms) := BytePipeline.stepUnpacker_offer ms hpipe
  rw [hoffer]
  rfl

theorem stepParse_offer (s : Machine) : (s.offer ms).stepParse = s.stepParse.map (fun s => s.offer ms) := by
  obtain ⟨pipe, handled, registry, dispatching, nworkers, channels, workers, processed, log⟩ := s
  unfold stepParse offer
  dsimp only
  split
  . split
    . rfl
    . rfl
  . have hfed : (pipe.offer ms).fed = pipe.fed := rfl
    rw [hfed]
    split
    . rw [BytePipeline.stepParser_offer]
      cases pipe.stepParser with
      | none => rfl
      | some pipe => rfl
    . unfold dispatch
      dsimp only
      split
      . rfl
      . split
        . rfl
        . rfl

theorem stepRetry_offer (s : Machine) (i : Nat)
    : (s.offer ms).stepRetry i = (s.stepRetry i).map (fun s => s.offer ms) := by
  unfold stepRetry offer
  dsimp only
  split
  . cases (s.channels i).stepRetry with
    | none => rfl
    | some channel => rfl
  . rfl

theorem stepWork_offer (s : Machine) (i : Nat)
    : (s.offer ms).stepWork i = (s.stepWork i).map (fun s => s.offer ms) := by
  unfold stepWork offer
  dsimp only
  split
  . split
    . cases (s.channels i).stepWorker with
      | none => rfl
      | some channel => rfl
    . rfl
  . rfl

theorem step_offer (h : s.step a = some s') : (s.offer ms).step a = some (s'.offer ms) := by
  cases a with
  | receive => exact stepReceive_offer ms h
  | parse =>
    have hparse : s.stepParse = some s' := h
    exact (stepParse_offer ms s).trans (by rw [hparse]; rfl)
  | retry i =>
    have hretry : s.stepRetry i = some s' := h
    exact (stepRetry_offer ms s i).trans (by rw [hretry]; rfl)
  | work i =>
    have hwork : s.stepWork i = some s' := h
    exact (stepWork_offer ms s i).trans (by rw [hwork]; rfl)

theorem careful_offer (h : s.step a = some s') (hcareful : s.Careful a) : (s.offer ms).Careful a := by
  cases a with
  | receive =>
    intro hpc m hm hcross hlap
    apply hcareful hpc m ?_ hcross hlap
    have hreceive : s.stepReceive = some s' := h
    unfold stepReceive BytePipeline.stepUnpacker at hreceive
    rw [show s.pipe.unpacker = .loadHead from hpc] at hreceive
    cases htodo : s.pipe.todo with
    | nil =>
      rw [htodo] at hreceive
      cases hreceive
    | cons m' todo =>
      change m ∈ (s.pipe.todo ++ ms).head? at hm
      rwa [htodo, List.cons_append] at hm
  | parse => exact hcareful
  | retry i => exact hcareful
  | work i => exact hcareful

end Machine

namespace FlowControl

variable {cfg : PackingLoop.Config} {capacity : Nat} {s s' : FlowControl} {l : Label}

theorem pushed_move {l : PackingLoop.Label} (h : s.move cfg l = some s') : s'.pushed = s.pushed := by
  unfold move at h
  split at h
  . cases h
    rfl
  . cases h

theorem pushed_stepMain (h : s.stepMain = some s') : s'.pushed = s.pushed := by
  unfold stepMain at h
  split at h
  case h_7 =>
    split at h
    . cases h
      rfl
    . cases h
  case h_8 => cases h
  all_goals
    cases h
    rfl

theorem pushed_step (h : s.step cfg capacity l = some s') (hl : l ≠ .recv) : s'.pushed = s.pushed := by
  unfold step at h
  cases l with
  | loadReady =>
    dsimp only at h
    split at h
    . cases h
      rfl
    . cases h
  | run =>
    dsimp only at h
    split at h
    . cases h
    . exact pushed_move h
  | rand r =>
    dsimp only at h
    split at h
    . cases h
    . exact pushed_move h
  | loadReceived => exact pushed_move h
  | sendto r =>
    dsimp only at h
    split at h
    . cases h
      unfold sendto
      split
      . split
        . rfl
        . rfl
      . rfl
    . cases h
  | fetchAdd =>
    dsimp only at h
    split at h
    . have hmove := pushed_move h
      exact hmove
    . cases h
  | storeDone =>
    dsimp only at h
    split at h
    . cases h
      rfl
    . cases h
  | main => exact pushed_stepMain h
  | recv => exact absurd rfl hl
  | fails =>
    dsimp only at h
    split at h
    . cases h
      rfl
    . cases h

end FlowControl

namespace Programs

variable {cfg : PackingLoop.Config} {capacity : Nat} {s s' : Programs}

theorem step_machine {a : Machine.Action} (h : step cfg capacity s (.machine a) = some s')
    : s.machine.step a = some s'.machine ∧ s'.flow = s.flow := by
  unfold step at h
  obtain ⟨machine, hmachine, rfl⟩ := Option.map_eq_some_iff.1 h
  exact ⟨hmachine, rfl⟩

theorem stepRecv_offers (h : s.stepRecv = some s')
    : s.flow.stepRecv = some s'.flow ∧
        ∃ ms, s'.machine = s.machine.offer ms ∧ s'.flow.pushed = s.flow.pushed ++ ms.map Message.frame := by
  unfold stepRecv at h
  split at h
  . cases h
  . split at h
    . next flow machine hflow hmachine =>
      cases h
      refine ⟨hflow, ?_⟩
      unfold handOver at hmachine
      unfold FlowControl.stepRecv at hflow
      split at hmachine
      . next frame rest hpc =>
        rw [hpc] at hflow
        cases hflow
        obtain ⟨m, hm, rfl⟩ := Option.map_eq_some_iff.1 hmachine
        refine ⟨[m], rfl, ?_⟩
        rw [List.map_singleton, Message.frame_of_ofFrame hm]
      . next hpc =>
        cases hmachine
        refine ⟨[], (Machine.offer_nil _).symm, ?_⟩
        rw [List.map_nil, List.append_nil]
        split at hflow
        . cases hflow
          rfl
        . split at hflow
          . cases hflow
          . cases hflow
            rfl
        . cases hflow
          rfl
        . cases hflow
          rfl
        . next frame rest hfeed => exact absurd hfeed (hpc frame rest)
        . cases hflow
    . cases h

theorem step_flow {l : FlowControl.Label} (h : step cfg capacity s (.flow l) = some s')
    : s.flow.step cfg capacity l = some s'.flow ∧
        ∃ ms, s'.machine = s.machine.offer ms ∧ s'.flow.pushed = s.flow.pushed ++ ms.map Message.frame := by
  have hother : l ≠ .recv → (s.flow.step cfg capacity l).map (fun flow => { s with flow := flow }) = some s' →
      s.flow.step cfg capacity l = some s'.flow ∧
        ∃ ms, s'.machine = s.machine.offer ms ∧ s'.flow.pushed = s.flow.pushed ++ ms.map Message.frame := by
    intro hl hmap
    obtain ⟨flow, hflow, rfl⟩ := Option.map_eq_some_iff.1 hmap
    refine ⟨hflow, [], (Machine.offer_nil _).symm, ?_⟩
    rw [FlowControl.pushed_step hflow hl, List.map_nil, List.append_nil]
  cases l with
  | recv => exact stepRecv_offers h
  | loadReady | run | rand r | loadReceived | sendto r | fetchAdd | storeDone | main | fails => exact hother nofun h

/--
The messages of the file that have not been handed over.
-/
def rest (cfg : PackingLoop.Config) (s : Programs) : List Message :=
  (Message.numbered 0 (FileWalk.messages cfg.file)).drop s.flow.pushed.length

structure Inv (cfg : PackingLoop.Config) (s : Programs) : Prop where
  flow : FlowControl.Inv cfg s.flow
  sent : FlowControl.Sent s.flow

theorem Inv.step (hpack : 1 ≤ cfg.packMax) (hfc : cfg.fc = true) (hcapacity : 0 < capacity) (h : Inv cfg s) {l : Label}
    (hcareful : Careful s l) (hstep : step cfg capacity s l = some s') : Inv cfg s' := by
  cases l with
  | flow l =>
    have hflow := (step_flow hstep).1
    refine ⟨h.flow.step hpack hfc hcapacity hflow, h.sent.step h.flow hfc ?_ hflow⟩
    intro r hr
    rw [hr] at hcareful
    exact hcareful
  | machine a =>
    obtain ⟨_, hflow⟩ := step_machine hstep
    constructor
    . rw [hflow]
      exact h.flow
    . rw [hflow]
      exact h.sent

theorem Inv.rest_eq (h : Inv cfg s') (hfits : FlowControl.Fits cfg) {ms : List Message}
    (hpushed : s'.flow.pushed = s.flow.pushed ++ ms.map Message.frame) : s.rest cfg = ms ++ s'.rest cfg := by
  obtain ⟨more, hmore⟩ := (h.flow.numbered h.sent hfits).pushed
  rw [hpushed, ← Message.map_frame_numbered] at hmore
  have hdrop := congrArg (List.drop s.flow.pushed.length) hmore.symm
  rw [List.append_assoc, List.drop_left, ← List.map_drop] at hdrop
  obtain ⟨first, last, hsplit, hfirst, _⟩ := List.map_eq_append_iff.1 hdrop
  rw [Message.frame_injective.list_map hfirst] at hsplit
  unfold rest
  rw [hpushed, List.length_append, List.length_map, ← List.drop_drop, hsplit, List.drop_left]

theorem Inv.offer_flow (hpack : 1 ≤ cfg.packMax) (hfc : cfg.fc = true) (hcapacity : 0 < capacity)
    (hfits : FlowControl.Fits cfg) (h : Inv cfg s) {l : FlowControl.Label} (hcareful : Careful s (.flow l))
    (hstep : Programs.step cfg capacity s (.flow l) = some s')
    : s'.machine.offer (s'.rest cfg) = s.machine.offer (s.rest cfg) := by
  obtain ⟨_, ms, hmachine, hpushed⟩ := step_flow hstep
  rw [(h.step hpack hfc hcapacity hcareful hstep).rest_eq hfits hpushed, hmachine, Machine.offer_offer]

theorem offer_machine {a : Machine.Action} (hcareful : Careful s (.machine a))
    (hstep : step cfg capacity s (.machine a) = some s')
    : Run.restrict Machine.step Machine.Careful (s.machine.offer (s.rest cfg)) a =
        some (s'.machine.offer (s'.rest cfg)) := by
  obtain ⟨hmachine, hflow⟩ := step_machine hstep
  have hrest : s'.rest cfg = s.rest cfg := by
    unfold rest
    rw [hflow]
  rw [hrest]
  exact Run.restrict_eq_some.2 ⟨Machine.careful_offer _ hmachine hcareful, Machine.step_offer _ hmachine⟩

theorem Inv.start {k c nworkers pool index : Nat} (buf : Nat → UInt8) (slots : Nat → MarketEvent)
    : Inv cfg (start k c nworkers pool index buf slots) := ⟨FlowControl.Inv.start cfg, rfl⟩

theorem Inv.run (hpack : 1 ≤ cfg.packMax) (hfc : cfg.fc = true) (hcapacity : 0 < capacity) (h : Inv cfg s)
    {ls : List Label} (halong : Run.Along (Programs.step cfg capacity) Careful s ls)
    (hexec : Run.exec (Programs.step cfg capacity) s ls = some s') : Inv cfg s' := by
  apply Run.exec_inv _ h halong hexec
  intro s l s' h hcareful hstep
  exact h.step hpack hfc hcapacity hcareful hstep

theorem Inv.drained (h : Inv cfg s) (hfits : FlowControl.Fits cfg) (hended : s.Ended)
    : (s.machine.offer (s.rest cfg)).Drained := by
  have hpushed := (h.flow.numbered h.sent hfits).stopped hended.1
  have hrest : s.rest cfg = [] := by
    unfold rest
    rw [hpushed, ← Message.map_frame_numbered, List.length_map, List.drop_length]
  rw [hrest, Machine.offer_nil]
  exact hended.2

def events (cfg : PackingLoop.Config) : List MarketEvent :=
  Machine.events (Message.numbered 0 (FileWalk.messages cfg.file))

/--
A record of the type that the client leaves out, and a new order.
-/
def oneOrder : PackingLoop.Config where
  file := [0, 1, 82, 0, 36] ++ (Machine.addMessage 0 5 1).body
  packMax := 2
  fc := true

/--
The main thread stops the receiving thread before the parsing thread takes its first step.
-/
def replay : List Label :=
  ([.main, .main, .recv, .loadReady, .run, .rand 0, .run, .run, .run, .run, .loadReceived, .sendto 58, .recv, .recv,
    .recv] : List FlowControl.Label).map .flow ++ List.replicate 3 (.machine .receive) ++
  ([.recv, .fetchAdd, .run, .storeDone, .main, .main, .main, .main, .recv, .main] : List FlowControl.Label).map .flow ++
  List.replicate 13 (.machine .parse) ++ List.replicate 5 (.machine (.work 0))

end Programs

end NebulaXTrader
