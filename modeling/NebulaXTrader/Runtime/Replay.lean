import NebulaXTrader.Runtime.Reception

/-!
This module contains the theorem that tells when the stop of a replay loses no message: a packet counts as
received before it is unpacked, so the last packet must carry no message.
-/

namespace NebulaXTrader

namespace BytePipeline

variable {k H T : Nat} {ms messages : List Message} {s s' : BytePipeline}

theorem Flow.offer (h : s.Flow k H T ms messages) (packet : List Message)
    : (s.offer packet).Flow k H T ms (messages ++ packet) := by
  refine ⟨h.capacity, h.head, h.tail, h.layout, h.room, h.stored, h.unpacker, h.parser, ?_, h.fed, h.holes⟩
  rw [← h.pushed, List.append_assoc _ _ packet]
  rfl

theorem stepUnpacker_left (hstep : s.stepUnpacker = some s')
    : s'.unpacker.inFlight ++ s'.todo <:+ s.unpacker.inFlight ++ s.todo ∧ s'.parser = s.parser := by
  unfold stepUnpacker at hstep
  split at hstep
  . next hpc =>
    split at hstep
    . cases hstep
    . next m todo htodo =>
      split at hstep
      . cases hstep
        exact ⟨List.suffix_rfl, rfl⟩
      . cases hstep
        refine ⟨?_, rfl⟩
        rw [hpc, htodo]
        exact List.suffix_rfl
  . next c copies tail m hpc =>
    cases hstep
    refine ⟨?_, rfl⟩
    rw [hpc]
    exact List.suffix_rfl
  . next tail m hpc =>
    cases hstep
    refine ⟨?_, rfl⟩
    rw [hpc]
    exact List.suffix_cons m s.todo

end BytePipeline

namespace Reception

open BytePipeline (parseAvailable)

variable {packets : List (List Message)} {k n : Nat} {s s' : Reception}

def RecvPc.Flow (pc : RecvPc) (packets : List (List Message)) (s : Reception) : Prop :=
  match pc with
  | .count packet => packets.drop s.received = packet :: s.packets ∧ s.Fed
  | .feed => packets.drop s.received = s.packets ∧ s.remaining <:+ (packets.take s.received).getLastD []
  | _ => packets.drop s.received = s.packets ∧ s.Fed

structure Inv (packets : List (List Message)) (k n : Nat) (s : Reception) : Prop where
  sent : s.sent = n
  le : s.received ≤ packets.length
  flow : s.recv.Flow packets s
  pipe : ∃ H T ms, s.pipe.Flow k H T ms (packets.take s.received).flatten
  waited : ∀ received, s.main = .loadSent received → received ≤ s.received
  passed : s.main = .storeStop → n ≤ s.received
  stop : s.stop → n ≤ s.received
  last : s.parse = .lastDrain ∨ s.parse = .finished → s.stop
  idle : s.parse = .loadStop → s.pipe.parser = .acquireHead
  alone : s.parse = .lastDrain → s.pipe.Alone
  finished : s.parse = .finished → s.pipe.fed = s.pipe.pushed.map (fun m => (m.seq, m.body))

theorem Inv.start (buf : Nat → UInt8) : (start (2 ^ k) n buf packets).Inv packets k n := by
  refine ⟨rfl, Nat.zero_le _, ⟨rfl, rfl, rfl⟩, ⟨0, 0, [], BytePipeline.Flow.start buf⟩, ?_, ?_, ?_, ?_, ?_, ?_, ?_⟩
  . intro received hmain
    cases hmain
  . intro hmain
    cases hmain
  . intro hstop
    cases hstop
  . intro hparse
    cases hparse with
    | inl h => cases h
    | inr h => cases h
  . intro _
    rfl
  . intro hparse
    cases hparse
  . intro hparse
    cases hparse

/--
The packets that can be the last one counted before main stops the threads carry no message.
-/
def Quiet (packets : List (List Message)) (n : Nat) : Prop :=
  ∀ packet, packet ∈ packets.drop (n - 1) → packet = []

instance : Decidable (Quiet packets n) :=
  inferInstanceAs (Decidable (∀ packet, packet ∈ packets.drop (n - 1) → packet = []))

theorem Quiet.getLastD (hquiet : Quiet packets n) {c : Nat} (hn : n ≤ c) (hc : c ≤ packets.length)
    : (packets.take c).getLastD [] = [] := by
  cases c with
  | zero => rfl
  | succ c =>
    rw [List.take_succ_eq_append_getElem hc, List.getLastD_concat]
    apply hquiet
    rw [List.mem_drop_iff_getElem]
    refine ⟨c - (n - 1), by omega, ?_⟩
    congr 1
    omega

theorem remaining_feed (hrecv : s.recv = .feed) : s.remaining = s.pipe.unpacker.inFlight ++ s.pipe.todo := by
  unfold Reception.remaining
  rw [hrecv]

theorem remaining_ne_nil (h : ¬ s.Fed) (hrecv : s.recv = .feed) : s.remaining ≠ [] := by
  rw [remaining_feed hrecv]
  intro hnil
  have hnil := List.append_eq_nil_iff.1 hnil
  apply h
  refine ⟨?_, hnil.2⟩
  cases hpc : s.pipe.unpacker with
  | loadHead => rfl
  | copy copies tail m =>
    rw [hpc] at hnil
    cases hnil.1

theorem Inv.stopped (h : s.Inv packets k n) (hquiet : Quiet packets n) (hstop : s.stop) : s.remaining = [] := by
  have hn := h.stop hstop
  have hflow := h.flow
  cases hrecv : s.recv with
  | count packet =>
    rw [hrecv] at hflow
    have hmem : packet ∈ packets.drop s.received := by
      rw [hflow.1]
      exact List.mem_cons_self
    have hnone := hquiet packet (List.drop_subset_drop_left packets (by omega) hmem)
    unfold remaining
    rw [hrecv]
    exact hnone
  | feed =>
    rw [hrecv] at hflow
    have hsuffix := hflow.2
    rw [hquiet.getLastD hn h.le] at hsuffix
    exact List.suffix_nil.1 hsuffix
  | _ =>
    unfold remaining
    rw [hrecv]

theorem Inv.pushed (h : s.Inv packets k n) (hnone : s.remaining = [])
    : s.pipe.pushed = (packets.take s.received).flatten := by
  obtain ⟨H, T, ms, hpipe⟩ := h.pipe
  have hflow := h.flow
  have hrest : s.pipe.unpacker.inFlight ++ s.pipe.todo = [] := by
    cases hrecv : s.recv with
    | feed =>
      rw [remaining_feed hrecv] at hnone
      exact hnone
    | _ =>
      rw [hrecv] at hflow
      rw [hflow.2.1, hflow.2.2]
      rfl
  rw [← hpipe.pushed, List.append_assoc, hrest, List.append_nil]

theorem Inv.setMain (h : s.Inv packets k n) {main : MainPc} (closed : Bool)
    (hwaited : ∀ received, main = .loadSent received → received ≤ s.received)
    (hpassed : main = .storeStop → n ≤ s.received)
    : Inv packets k n { s with main := main, closed := closed } :=
  ⟨h.sent, h.le, h.flow, h.pipe, hwaited, hpassed, h.stop, h.last, h.idle, h.alone, h.finished⟩

theorem Inv.stepMain (h : s.Inv packets k n) (hstep : s.stepMain = some s') : s'.Inv packets k n := by
  unfold Reception.stepMain at hstep
  split at hstep
  . cases hstep
    apply h.setMain s.closed
    . intro received hmain
      cases hmain
      exact Nat.le_refl _
    . exact fun hmain => nomatch hmain
  . next received hpc =>
    have hwaited := h.waited received hpc
    split at hstep
    . cases hstep
      exact h.setMain s.closed (fun _ hmain => nomatch hmain) (fun hmain => nomatch hmain)
    . next hge =>
      cases hstep
      apply h.setMain s.closed
      . exact fun _ hmain => nomatch hmain
      . intro _
        rw [h.sent] at hge
        omega
  . next hpc =>
    cases hstep
    exact ⟨h.sent, h.le, h.flow, h.pipe, (fun _ hmain => nomatch hmain), (fun hmain => nomatch hmain),
      fun _ => h.passed hpc, fun _ => rfl, h.idle, h.alone, h.finished⟩
  . cases hstep
    exact h.setMain true (fun _ hmain => nomatch hmain) (fun hmain => nomatch hmain)
  . split at hstep
    . cases hstep
      exact h.setMain s.closed (fun _ hmain => nomatch hmain) (fun hmain => nomatch hmain)
    . cases hstep
  . split at hstep
    . cases hstep
      exact h.setMain s.closed (fun _ hmain => nomatch hmain) (fun hmain => nomatch hmain)
    . cases hstep
  . cases hstep

theorem Inv.setRecv (h : s.Inv packets k n) {pc : RecvPc} {rest : List (List Message)}
    (hflow : pc.Flow packets { s with recv := pc, packets := rest })
    : Inv packets k n { s with recv := pc, packets := rest } :=
  ⟨h.sent, h.le, hflow, h.pipe, h.waited, h.passed, h.stop, h.last, h.idle, h.alone, h.finished⟩

theorem Inv.count (h : s.Inv packets k n) {packet : List Message} (hrecv : s.recv = .count packet)
    : Inv packets k n { s with received := s.received + 1, pipe := s.pipe.offer packet, recv := .feed } := by
  obtain ⟨H, T, ms, hpipe⟩ := h.pipe
  have hflow := h.flow
  rw [hrecv] at hflow
  have hlt : s.received < packets.length := by
    apply lt_of_not_ge
    intro hge
    have hdrop := hflow.1
    rw [List.drop_eq_nil_of_le hge] at hdrop
    cases hdrop
  have hcons := hflow.1
  rw [List.drop_eq_getElem_cons hlt] at hcons
  injection hcons with hpacket hrest
  have htake : packets.take (s.received + 1) = packets.take s.received ++ [packet] := by
    rw [List.take_succ_eq_append_getElem hlt, hpacket]
  refine ⟨h.sent, hlt, ⟨hrest, ?_⟩, ⟨H, T, ms, ?_⟩, ?_, ?_, ?_, h.last, h.idle, h.alone, h.finished⟩
  . have hleft : (s.pipe.offer packet).unpacker.inFlight ++ (s.pipe.offer packet).todo = packet := by
      unfold BytePipeline.offer
      dsimp only
      rw [hflow.2.1, hflow.2.2]
      rfl
    rw [remaining_feed rfl]
    dsimp only
    rw [htake, List.getLastD_concat]
    exact ⟨[], hleft⟩
  . rw [htake, List.flatten_append, List.flatten_singleton]
    exact hpipe.offer packet
  . intro received hmain
    exact Nat.le_succ_of_le (h.waited received hmain)
  . intro hmain
    exact Nat.le_succ_of_le (h.passed hmain)
  . intro hstop
    exact Nat.le_succ_of_le (h.stop hstop)

theorem Inv.push (h : s.Inv packets k n) (hk : 9 ≤ k) (hk' : k < 64) (hquiet : Quiet packets n)
    (hroomy : s.pipe.Roomy) (hrecv : s.recv = .feed) (hfed : ¬ s.Fed) {pipe : BytePipeline}
    (hstep : s.pipe.stepUnpacker = some pipe) : Inv packets k n { s with pipe := pipe } := by
  obtain ⟨H, T, ms, hpipe⟩ := h.pipe
  have hflow := h.flow
  rw [hrecv] at hflow
  obtain ⟨hleft, hparser⟩ := BytePipeline.stepUnpacker_left hstep
  -- nothing remains to be pushed once main has stopped the threads
  have hrunning : ¬ s.stop = true := fun hstop => remaining_ne_nil hfed hrecv (h.stopped hquiet hstop)
  refine ⟨h.sent, h.le, ?_, ?_, h.waited, h.passed, h.stop, h.last, ?_, ?_, ?_⟩
  . have hsuffix := hflow.2
    rw [remaining_feed hrecv] at hsuffix
    dsimp only
    rw [hrecv]
    refine ⟨hflow.1, ?_⟩
    rw [remaining_feed rfl]
    exact hleft.trans hsuffix
  . obtain ⟨T', ms', hpipe'⟩ := hpipe.stepUnpacker hk hk' hroomy hstep
    exact ⟨H, T', ms', hpipe'⟩
  . intro hparse
    exact hparser.trans (h.idle hparse)
  . intro hparse
    exact absurd (h.last (Or.inl hparse)) hrunning
  . intro hparse
    exact absurd (h.last (Or.inr hparse)) hrunning

theorem Inv.stepRecv (h : s.Inv packets k n) (hk : 9 ≤ k) (hk' : k < 64) (hquiet : Quiet packets n)
    (hroomy : s.pipe.Roomy) (hstep : s.stepRecv = some s') : s'.Inv packets k n := by
  have hflow := h.flow
  unfold Reception.stepRecv at hstep
  split at hstep
  . next hpc =>
    rw [hpc] at hflow
    split at hstep
    . cases hstep
      exact h.setRecv hflow
    . cases hstep
      exact h.setRecv hflow
  . next hpc =>
    rw [hpc] at hflow
    split at hstep
    . cases hstep
    . next packet rest hpackets =>
      cases hstep
      exact h.setRecv ⟨hflow.1.trans hpackets, hflow.2⟩
  . next packet hpc =>
    cases hstep
    exact h.count hpc
  . next hpc =>
    rw [hpc] at hflow
    split at hstep
    . next hfed =>
      cases hstep
      exact h.setRecv ⟨hflow.1, hfed⟩
    . next hfed =>
      obtain ⟨pipe, hpipe, rfl⟩ := Option.map_eq_some_iff.1 hstep
      exact h.push hk hk' hquiet hroomy hpc hfed hpipe
  . cases hstep

theorem Fed.congr (h : s.Fed) (hunpacker : s'.pipe.unpacker = s.pipe.unpacker) (htodo : s'.pipe.todo = s.pipe.todo)
    : s'.Fed := by
  unfold Reception.Fed
  rw [hunpacker, htodo]
  exact h

theorem RecvPc.Flow.congr (h : s.recv.Flow packets s) (hreceived : s'.received = s.received)
    (hpackets : s'.packets = s.packets) (hrecv : s'.recv = s.recv)
    (hunpacker : s'.pipe.unpacker = s.pipe.unpacker) (htodo : s'.pipe.todo = s.pipe.todo)
    : s'.recv.Flow packets s' := by
  have hremaining : s'.remaining = s.remaining := by
    unfold Reception.remaining
    rw [hrecv, hunpacker, htodo]
  unfold RecvPc.Flow at h ⊢
  rw [hrecv, hreceived, hpackets, hremaining]
  cases hpc : s.recv with
  | feed =>
    rw [hpc] at h
    exact h
  | _ =>
    rw [hpc] at h
    exact ⟨h.1, h.2.congr hunpacker htodo⟩

theorem Inv.parseOn (h : s.Inv packets k n) (hk : 9 ≤ k) (hk' : k < 64) (hhollow : s.pipe.Hollow)
    {returned : ParsePc} (hpc : s.parse = .drain ∧ returned = .loadStop ∨ s.parse = .lastDrain ∧ returned = .finished)
    (hstep : s.parseOn returned = some s') : s'.Inv packets k n := by
  obtain ⟨H, T, ms, hpipe⟩ := h.pipe
  obtain ⟨pipe, hparser, rfl⟩ := Option.map_eq_some_iff.1 hstep
  obtain ⟨-, hpushed, hunpacker, htodo⟩ := BytePipeline.stepParser_keeps hparser
  obtain ⟨H', ms', hpipe'⟩ := hpipe.stepParser hk hk' hhollow hparser
  have hreceived : ({ s with pipe := pipe } : Reception).received = s.received := rfl
  have hflow := h.flow.congr hreceived rfl rfl hunpacker htodo
  have hreturns : s.pipe.breaks = true → pipe = { s.pipe with parser := .acquireHead } := by
    intro hbreaks
    rw [BytePipeline.stepParser_of_breaks hbreaks] at hparser
    exact (Option.some.inj hparser).symm
  cases hbreaks : s.pipe.breaks with
  | false =>
    refine ⟨h.sent, h.le, hflow, ⟨H', T, ms', hpipe'⟩, h.waited, h.passed, h.stop, ?_, ?_, ?_, ?_⟩
    . exact h.last
    . intro hparse
      have hparse : s.parse = .loadStop := hparse
      cases hpc with
      | inl hpc =>
        rw [hpc.1] at hparse
        cases hparse
      | inr hpc =>
        rw [hpc.1] at hparse
        cases hparse
    . intro hparse
      exact (h.alone hparse).stepParser hparser
    . intro hparse
      have hparse : s.parse = .finished := hparse
      cases hpc with
      | inl hpc =>
        rw [hpc.1] at hparse
        cases hparse
      | inr hpc =>
        rw [hpc.1] at hparse
        cases hparse
  | true =>
    have hidle := hreturns hbreaks
    have hacquire : pipe.parser = .acquireHead := by rw [hidle]
    refine ⟨h.sent, h.le, hflow, ⟨H', T, ms', hpipe'⟩, h.waited, h.passed, h.stop, ?_, ?_, ?_, ?_⟩
    . intro hparse
      cases hpc with
      | inl hpc =>
        have hparse : returned = .lastDrain ∨ returned = .finished := hparse
        rw [hpc.2] at hparse
        cases hparse with
        | inl hparse => cases hparse
        | inr hparse => cases hparse
      | inr hpc => exact h.last (Or.inl hpc.1)
    . intro _
      exact hacquire
    . intro _
      exact .of_acquireHead hacquire
    . intro hparse
      cases hpc with
      | inl hpc =>
        have hparse : returned = .finished := hparse
        rw [hpc.2] at hparse
        cases hparse
      | inr hpc =>
        -- a call that no push disturbs returns only when it has taken everything
        have hnil := hpipe.nil_of_breaks hk' (h.alone hpc.1) hbreaks
        have hfed := hpipe.fed
        have hunfed : s.pipe.parser.unfed ms = [] := by
          rw [hnil]
          unfold BytePipeline.ParserPc.unfed
          split
          . rfl
          . rfl
        rw [hunfed, List.map_nil, List.append_nil] at hfed
        dsimp only
        rw [hidle]
        exact hfed

theorem Inv.stepParse (h : s.Inv packets k n) (hk : 9 ≤ k) (hk' : k < 64) (hhollow : s.pipe.Hollow)
    (hstep : s.stepParse = some s') : s'.Inv packets k n := by
  unfold Reception.stepParse at hstep
  split at hstep
  . next hpc =>
    have hidle := h.idle hpc
    split at hstep
    . next hstop =>
      cases hstep
      exact ⟨h.sent, h.le, h.flow, h.pipe, h.waited, h.passed, h.stop, fun _ => hstop, (fun hf => nomatch hf),
        fun _ => .of_acquireHead hidle, (fun hf => nomatch hf)⟩
    . cases hstep
      refine ⟨h.sent, h.le, h.flow, h.pipe, h.waited, h.passed, h.stop, ?_, (fun hf => nomatch hf),
        (fun hf => nomatch hf), (fun hf => nomatch hf)⟩
      intro hor
      cases hor with
      | inl hparse => cases hparse
      | inr hparse => cases hparse
  . next hpc => exact h.parseOn hk hk' hhollow (Or.inl ⟨hpc, rfl⟩) hstep
  . next hpc => exact h.parseOn hk hk' hhollow (Or.inr ⟨hpc, rfl⟩) hstep
  . cases hstep

theorem Inv.step (h : s.Inv packets k n) (hk : 9 ≤ k) (hk' : k < 64) (hquiet : Quiet packets n) {p : Party}
    (hcareful : Careful s p) (hstep : s.step p = some s') : s'.Inv packets k n := by
  cases p with
  | main => exact h.stepMain hstep
  | recv => exact h.stepRecv hk hk' hquiet hcareful hstep
  | interrupted =>
    unfold Reception.step at hstep
    dsimp only at hstep
    split at hstep
    . next hpc =>
      have hflow := h.flow
      rw [hpc.1] at hflow
      cases hstep
      exact h.setRecv hflow
    . cases hstep
  | parse => exact h.stepParse hk hk' hcareful hstep

theorem Inv.complete (h : s.Inv packets k n) (hquiet : Quiet packets n) : Complete packets s := by
  intro hfinished
  have hnone := h.stopped hquiet (h.last (Or.inr hfinished))
  refine ⟨?_, hnone⟩
  rw [h.finished hfinished, h.pushed hnone]

/-!
A careful run that parses each message as soon as it is pushed.
-/

theorem step_push (hrecv : s.recv = .feed) (hfed : ¬ s.Fed) (hroomy : s.pipe.Roomy) {pipe : BytePipeline}
    (hstep : s.pipe.stepUnpacker = some pipe)
    : Run.restrict Reception.step Careful s .recv = some { s with pipe := pipe } := by
  refine Run.restrict_eq_some.2 ⟨hroomy, ?_⟩
  unfold Reception.step stepRecv
  dsimp only
  rw [hrecv]
  dsimp only
  rw [if_neg hfed, hstep]
  rfl

theorem reaches_copied {H T : Nat} {ms messages : List Message} (hk : 9 ≤ k) (hk' : k < 64)
    {copies : List (Nat × List UInt8)} {tail : Nat} {m : Message}
    (hflow : s.pipe.Flow k H T ms messages) (hrecv : s.recv = .feed) (hpc : s.pipe.unpacker = .copy copies tail m)
    : ∃ pipe T' ms', Run.Reaches (Run.restrict step Careful) s { s with pipe := pipe } ∧
        pipe.Flow k H T' ms' messages ∧ pipe.unpacker = .loadHead ∧ pipe.todo = s.pipe.todo ∧
        pipe.parser = s.pipe.parser := by
  have hroomy : s.pipe.Roomy := by
    intro hload
    rw [hpc] at hload
    cases hload
  have hfed : ¬ s.Fed := by
    intro hfed
    have hload := hfed.1
    rw [hpc] at hload
    cases hload
  induction copies generalizing s T ms with
  | nil =>
    have hstep : ∃ pipe, s.pipe.stepUnpacker = some pipe ∧ pipe.unpacker = .loadHead ∧ pipe.todo = s.pipe.todo := by
      unfold BytePipeline.stepUnpacker
      rw [hpc]
      exact ⟨_, rfl, rfl, rfl⟩
    obtain ⟨pipe, hstep, hload, htodo⟩ := hstep
    obtain ⟨T', ms', hflow'⟩ := hflow.stepUnpacker hk hk' hroomy hstep
    exact ⟨pipe, T', ms', .of_step (step_push hrecv hfed hroomy hstep), hflow', hload, htodo,
      (BytePipeline.stepUnpacker_left hstep).2⟩
  | cons c copies ih =>
    have hstep : ∃ pipe, s.pipe.stepUnpacker = some pipe ∧ pipe.unpacker = .copy copies tail m ∧
        pipe.todo = s.pipe.todo := by
      unfold BytePipeline.stepUnpacker
      rw [hpc]
      exact ⟨_, rfl, rfl, rfl⟩
    obtain ⟨pipe, hstep, hcopy, htodo⟩ := hstep
    obtain ⟨T₁, ms₁, hflow₁⟩ := hflow.stepUnpacker hk hk' hroomy hstep
    have hroomy₁ : pipe.Roomy := by
      intro hload
      rw [hcopy] at hload
      cases hload
    have hfed₁ : ¬ Fed { s with pipe := pipe } := by
      intro hfed
      have hload : pipe.unpacker = .loadHead := hfed.1
      rw [hcopy] at hload
      cases hload
    obtain ⟨pipe', T', ms', hreaches, hflow', hload, htodo', hparser⟩ :=
      ih (s := { s with pipe := pipe }) hflow₁ hrecv hcopy hroomy₁ hfed₁
    refine ⟨pipe', T', ms', .head (step_push hrecv hfed hroomy hstep) hreaches, hflow', hload, ?_, ?_⟩
    . exact htodo'.trans htodo
    . exact hparser.trans (BytePipeline.stepUnpacker_left hstep).2

theorem reaches_pushed {T : Nat} {messages : List Message} (hk : 9 ≤ k) (hk' : k < 64) {m : Message}
    {todo : List Message} (hflow : s.pipe.Flow k T T [] messages) (hrecv : s.recv = .feed)
    (hparser : s.pipe.parser = .acquireHead) (hload : s.pipe.unpacker = .loadHead) (htodo : s.pipe.todo = m :: todo)
    : ∃ pipe T' ms', Run.Reaches (Run.restrict step Careful) s { s with pipe := pipe } ∧
        pipe.Flow k T T' ms' messages ∧ pipe.unpacker = .loadHead ∧ pipe.todo = todo ∧ pipe.parser = .acquireHead := by
  have hpos := SPSCByteRing.capacity_pos (k := k)
  have hdrained := hflow.drained hk hk' hparser
  obtain ⟨plan, hplan⟩ := Option.isSome_iff_exists.1 (hdrained.accepts m)
  have hroomy : s.pipe.Roomy := by
    intro _ _ _ _ hlast
    rw [hdrained.empty]
    unfold SPSCByteRing.nextLap at hlast
    have hdvd : 2 ^ 64 ∣ (s.pipe.tail / s.pipe.capacity + 1) * s.pipe.capacity := Nat.dvd_of_mod_eq_zero hlast
    have hcap : 0 < s.pipe.capacity := hflow.capacity ▸ hpos
    have hle := Nat.le_of_dvd (Nat.mul_pos (Nat.succ_pos _) hcap) hdvd
    have hlap := Nat.div_mul_le_self s.pipe.tail s.pipe.capacity
    rw [Nat.succ_mul] at hle
    omega
  have hfed : ¬ s.Fed := by
    intro hfed
    have hnil := hfed.2
    rw [htodo] at hnil
    cases hnil
  have hstep : s.pipe.stepUnpacker =
      some { s.pipe with todo := todo, unpacker := .copy plan.copies plan.tail m } := by
    unfold BytePipeline.stepUnpacker
    rw [hload, htodo]
    dsimp only
    rw [hplan]
  obtain ⟨T₁, ms₁, hflow₁⟩ := hflow.stepUnpacker hk hk' hroomy hstep
  obtain ⟨pipe, T', ms', hreaches, hflow', hload', htodo', hparser'⟩ :=
    reaches_copied (s := { s with pipe := _ }) hk hk' hflow₁ hrecv rfl
  exact ⟨pipe, T', ms', .head (step_push hrecv hfed hroomy hstep) hreaches, hflow', hload', htodo',
    hparser'.trans hparser⟩

theorem reaches_returned {fuel : Nat} {pipe : BytePipeline} {pc returned : ParsePc}
    (hpc : pc = .drain ∧ returned = .loadStop ∨ pc = .lastDrain ∧ returned = .finished) (hparse : s.parse = pc)
    (halone : s.pipe.Alone) (hreturns : parseAvailable fuel s.pipe = some pipe)
    : Run.Reaches (Run.restrict step Careful) s { s with pipe := pipe, parse := returned } := by
  induction fuel generalizing s with
  | zero => cases hreturns
  | succ fuel ih =>
    rw [parseAvailable] at hreturns
    obtain ⟨pipe₁, hparser⟩ := BytePipeline.exists_stepParser s.pipe
    rw [hparser] at hreturns
    have hstep : Run.restrict step Careful s .parse =
        some { s with pipe := pipe₁, parse := if s.pipe.breaks then returned else s.parse } := by
      refine Run.restrict_eq_some.2 ⟨halone.hollow, ?_⟩
      have hon : s.stepParse = s.parseOn returned := by
        unfold stepParse
        cases hpc with
        | inl hpc => rw [hparse, hpc.1, hpc.2]
        | inr hpc => rw [hparse, hpc.1, hpc.2]
      show s.stepParse = _
      rw [hon]
      unfold parseOn
      rw [hparser]
      rfl
    dsimp only at hreturns
    split at hreturns
    . next hbreaks =>
      cases hreturns
      rw [if_pos hbreaks] at hstep
      exact .of_step hstep
    . next hbreaks =>
      rw [if_neg hbreaks] at hstep
      exact .head hstep (ih hparse (halone.stepParser hparser) hreturns)

/--
Everything pushed is parsed, and main has not stopped the threads.
-/
structure Ready (k n received : Nat) (packets : List (List Message)) (s : Reception) : Prop where
  sent : s.sent = n
  received : s.received = received
  packets : s.packets = packets
  main : s.main = .loadReceived
  stop : s.stop = false
  parse : s.parse = .loadStop
  parser : s.pipe.parser = .acquireHead
  unpacker : s.pipe.unpacker = .loadHead
  flow : ∃ T messages, s.pipe.Flow k T T [] messages

theorem Ready.drains {received : Nat} {T T' : Nat} {ms messages : List Message} {pipe : BytePipeline}
    (h : s.Ready k n received packets) (hk : 9 ≤ k) (hk' : k < 64)
    (hflow : pipe.Flow k T T' ms messages) (hload : pipe.unpacker = .loadHead) (hparser : pipe.parser = .acquireHead)
    : ∃ s', Run.Reaches (Run.restrict step Careful) { s with pipe := pipe } s' ∧
        s'.Ready k n received packets ∧ s'.recv = s.recv ∧ s'.pipe.todo = pipe.todo := by
  obtain ⟨fuel, pipe', hreturns, hflow', hparser'⟩ := hflow.returns_drained hk hk' hparser
  obtain ⟨-, -, hunpacker, htodo⟩ := BytePipeline.parseAvailable_keeps hreturns
  have hdrain : Run.restrict step Careful { s with pipe := pipe } .parse =
      some { s with pipe := pipe, parse := .drain } := by
    refine Run.restrict_eq_some.2 ⟨(BytePipeline.Alone.of_acquireHead hparser).hollow, ?_⟩
    show stepParse { s with pipe := pipe } = _
    unfold stepParse
    dsimp only
    rw [h.parse, h.stop]
    rfl
  have hcall := reaches_returned (s := { s with pipe := pipe, parse := .drain }) (Or.inl ⟨rfl, rfl⟩) rfl
    (.of_acquireHead hparser) hreturns
  refine ⟨_, .head hdrain hcall, ?_, rfl, htodo⟩
  exact ⟨h.sent, h.received, h.packets, h.main, h.stop, rfl, hparser', hunpacker.trans hload, ⟨T', messages, hflow'⟩⟩

theorem Ready.fed {received : Nat} (h : s.Ready k n received packets) (hk : 9 ≤ k) (hk' : k < 64)
    (hrecv : s.recv = .feed)
    : ∃ s', Run.Reaches (Run.restrict step Careful) s s' ∧ s'.Ready k n received packets ∧ s'.recv = .loadStop ∧
        s'.pipe.todo = [] := by
  induction htodo : s.pipe.todo generalizing s with
  | nil =>
    have hstep : Run.restrict step Careful s .recv = some { s with recv := .loadStop } := by
      refine Run.restrict_eq_some.2 ⟨?_, ?_⟩
      . intro _ m hm
        rw [htodo] at hm
        cases hm
      . show s.stepRecv = _
        unfold stepRecv
        rw [hrecv]
        exact if_pos ⟨h.unpacker, htodo⟩
    exact ⟨_, .of_step hstep, ⟨h.sent, h.received, h.packets, h.main, h.stop, h.parse, h.parser, h.unpacker, h.flow⟩,
      rfl, htodo⟩
  | cons m todo ih =>
    obtain ⟨T, messages, hflow⟩ := h.flow
    obtain ⟨pipe, T', ms', hpushed, hflow', hload, htodo', hparser⟩ :=
      reaches_pushed hk hk' hflow hrecv h.parser h.unpacker htodo
    obtain ⟨s₁, hdrained, hready, hrecv₁, htodo₁⟩ := h.drains hk hk' hflow' hload hparser
    obtain ⟨s', hreaches, hrest⟩ := ih hready (hrecv₁.trans hrecv) (htodo₁.trans htodo')
    exact ⟨s', (hpushed.trans hdrained).trans hreaches, hrest⟩

theorem Ready.counts {received : Nat} {packet : List Message} (h : s.Ready k n received (packet :: packets))
    (hrecv : s.recv = .loadStop) (htodo : s.pipe.todo = [])
    : ∃ s', Run.Reaches (Run.restrict step Careful) s s' ∧ s'.Ready k n (received + 1) packets ∧ s'.recv = .feed ∧
        s'.pipe.todo = packet := by
  have hroomy : s.pipe.Roomy := by
    intro _ m hm
    rw [htodo] at hm
    cases hm
  have hload : Run.restrict step Careful s .recv = some { s with recv := .recv } := by
    refine Run.restrict_eq_some.2 ⟨hroomy, ?_⟩
    show s.stepRecv = _
    unfold stepRecv
    rw [hrecv]
    dsimp only
    rw [h.stop]
    rfl
  have harrive : Run.restrict step Careful { s with recv := .recv } .recv =
      some { s with packets := packets, recv := .count packet } := by
    refine Run.restrict_eq_some.2 ⟨hroomy, ?_⟩
    show stepRecv { s with recv := .recv } = _
    unfold stepRecv
    dsimp only
    rw [h.packets]
  have hcount : Run.restrict step Careful { s with packets := packets, recv := .count packet } .recv =
      some { s with packets := packets, received := s.received + 1, pipe := s.pipe.offer packet, recv := .feed } :=
    Run.restrict_eq_some.2 ⟨hroomy, rfl⟩
  obtain ⟨T, messages, hflow⟩ := h.flow
  refine ⟨_, .head hload (.head harrive (.of_step hcount)), ?_, rfl, ?_⟩
  . refine ⟨h.sent, ?_, rfl, h.main, h.stop, h.parse, h.parser, h.unpacker, ⟨T, _, hflow.offer packet⟩⟩
    dsimp only
    rw [h.received]
  . unfold BytePipeline.offer
    dsimp only
    rw [htodo, List.nil_append]

theorem Ready.receives {received : Nat} (before : List (List Message))
    (h : s.Ready k n received (before ++ packets)) (hk : 9 ≤ k) (hk' : k < 64) (hrecv : s.recv = .loadStop)
    (htodo : s.pipe.todo = [])
    : ∃ s', Run.Reaches (Run.restrict step Careful) s s' ∧ s'.Ready k n (received + before.length) packets ∧
        s'.recv = .loadStop ∧ s'.pipe.todo = [] := by
  induction before generalizing received s with
  | nil => exact ⟨s, .refl s, h, hrecv, htodo⟩
  | cons packet before ih =>
    obtain ⟨s₁, hcounted, hready₁, hrecv₁, -⟩ := h.counts hrecv htodo
    obtain ⟨s₂, hfed, hready₂, hrecv₂, htodo₂⟩ := hready₁.fed hk hk' hrecv₁
    obtain ⟨s', hreaches, hready, hrest⟩ := ih hready₂ hrecv₂ htodo₂
    refine ⟨s', (hcounted.trans hfed).trans hreaches, ?_, hrest⟩
    have hcount : received + (before.length + 1) = received + 1 + before.length := by omega
    rw [List.length_cons, hcount]
    exact hready

theorem Ready.stops {received : Nat} (h : s.Ready k n received packets) (hk' : k < 64) (hn : n ≤ received)
    : ∃ s', Run.Reaches (Run.restrict step Careful) s s' ∧ s'.parse = .finished ∧ s'.recv = s.recv ∧
        s'.pipe = s.pipe := by
  -- Main stops the threads between the count of a packet and the push of its messages.
  obtain ⟨T, messages, hflow⟩ := h.flow
  have hload : Run.restrict step Careful s .main = some { s with main := .loadSent received } := by
    refine Run.restrict_eq_some.2 ⟨trivial, ?_⟩
    show s.stepMain = _
    unfold stepMain
    rw [h.main, h.received]
  have hpass : Run.restrict step Careful { s with main := .loadSent received } .main =
      some { s with main := .storeStop } := by
    refine Run.restrict_eq_some.2 ⟨trivial, ?_⟩
    refine if_neg ?_
    dsimp only
    rw [h.sent]
    exact Nat.not_lt.2 hn
  have hstop : Run.restrict step Careful { s with main := .storeStop } .main =
      some { s with stop := true, main := .stopReceiver } :=
    Run.restrict_eq_some.2 ⟨trivial, rfl⟩
  have hlast : Run.restrict step Careful { s with stop := true, main := .stopReceiver } .parse =
      some { s with stop := true, main := .stopReceiver, parse := .lastDrain } := by
    refine Run.restrict_eq_some.2 ⟨(BytePipeline.Alone.of_acquireHead h.parser).hollow, ?_⟩
    show stepParse { s with stop := true, main := .stopReceiver } = _
    unfold stepParse
    dsimp only
    rw [h.parse]
    rfl
  have hreturn := reaches_returned (s := { s with stop := true, main := .stopReceiver, parse := .lastDrain })
    (Or.inr ⟨rfl, rfl⟩) rfl (.of_acquireHead h.parser) (hflow.returns hk' h.parser)
  exact ⟨_, .head hload (.head hpass (.head hstop (.head hlast hreturn))), rfl, rfl, rfl⟩

theorem Ready.start (n : Nat) (buf : Nat → UInt8) (packets : List (List Message))
    : (start (2 ^ k) n buf packets).Ready k n 0 packets :=
  ⟨rfl, rfl, rfl, rfl, rfl, rfl, rfl, rfl, ⟨0, [], BytePipeline.Flow.start buf⟩⟩

/--
The stop of a replay parses every packet received, in all runs in which the byte ring works, if and only if no packet
that can be the last one counted carries a message: main can stop both threads between the count of a packet and the
push of its messages.
-/
theorem parsed_iff (hk : 9 ≤ k) (hk' : k < 64) (n : Nat) (buf : Nat → UInt8) (packets : List (List Message))
    : (∀ as s, Run.Along step Careful (start (2 ^ k) n buf packets) as →
        Run.exec step (start (2 ^ k) n buf packets) as = some s → Complete packets s) ↔ Quiet packets n := by
  constructor
  . intro hcomplete packet hmem
    rw [List.mem_drop_iff_getElem] at hmem
    obtain ⟨i, hlt, hget⟩ := hmem
    have hsplit : packets = packets.take (n - 1 + i) ++ packet :: packets.drop (n - 1 + i + 1) := by
      rw [← hget, ← List.drop_eq_getElem_cons, List.take_append_drop]
    have hlength : (packets.take (n - 1 + i)).length = n - 1 + i := by
      rw [List.length_take]
      omega
    have hstart := Ready.start (k := k) n buf packets
    rw [hsplit] at hstart
    obtain ⟨s₁, hreaches₁, hready₁, hrecv₁, htodo₁⟩ := hstart.receives _ hk hk' rfl rfl
    obtain ⟨s₂, hreaches₂, hready₂, hrecv₂, htodo₂⟩ := hready₁.counts hrecv₁ htodo₁
    obtain ⟨s, hreaches, hparse, hrecv, hpipe⟩ := hready₂.stops hk' (by omega)
    obtain ⟨as, hexec⟩ := (hreaches₁.trans hreaches₂).trans hreaches
    rw [← hsplit] at hexec
    obtain ⟨halong, hrun⟩ := Run.exec_restrict.1 hexec
    have hnone := (hcomplete as s halong hrun hparse).2
    rw [remaining_feed (hrecv.trans hrecv₂), hpipe, htodo₂] at hnone
    exact (List.append_eq_nil_iff.1 hnone).2
  . intro hquiet as s halong hrun
    have hinv : s.Inv packets k n := by
      refine Run.exec_inv (fun s a s' => ?_) (Inv.start buf) halong hrun
      intro h hcareful hstep
      exact h.step hk hk' hquiet hcareful hstep
    exact hinv.complete hquiet

def oneMessage : Message where
  seq := 0
  body := [83]
  seq_lt := by decide
  body_pos := by decide
  body_le := by decide

/--
A packet with one message arrives and is parsed, then an empty one, with which main ends its wait.
-/
def lastEmpty : List Party :=
  List.replicate 7 .recv ++ List.replicate 9 .parse ++ List.replicate 4 .recv ++ List.replicate 4 .main ++
    List.replicate 3 .parse ++ [.recv, .main, .main]

theorem parsed_lastEmpty
    : ∃ s, Run.exec step (start (2 ^ 9) 2 (fun _ => 0) [[oneMessage], []]) lastEmpty = some s ∧
        s.main = .stopped ∧ Complete [[oneMessage], []] s := by
  have hstopped : (Run.exec step (start (2 ^ 9) 2 (fun _ => 0) [[oneMessage], []]) lastEmpty).map
      (fun s => s.main) = some .stopped := by decide +kernel
  obtain ⟨s, hrun, hmain⟩ := Option.map_eq_some_iff.1 hstopped
  refine ⟨s, hrun, hmain, ?_⟩
  apply (parsed_iff (by decide) (by decide) 2 _ _).2 (by decide) lastEmpty s _ hrun
  decide +kernel

theorem not_parsed
    : ¬ ∀ (k n : Nat) (buf : Nat → UInt8) (packets : List (List Message)), 9 ≤ k → k < 64 → packets.length ≤ n →
        ∀ as s, Run.exec step (start (2 ^ k) n buf packets) as = some s → Complete packets s := by
  -- The only packet is counted, then main stops the threads and the parsing thread finds the ring
  -- empty.
  intro h
  have hlost : (Run.exec step (start (2 ^ 9) 1 (fun _ => 0) [[oneMessage]])
      (List.replicate 3 .recv ++ List.replicate 3 .main ++ List.replicate 3 .parse)).map
        (fun s => (s.parse, s.remaining)) = some (.finished, [oneMessage]) := by
    decide +kernel
  obtain ⟨s, hrun, hvalues⟩ := Option.map_eq_some_iff.1 hlost
  rw [Prod.mk.injEq] at hvalues
  have hnone := (h 9 1 _ _ (by decide) (by decide) (by decide) _ s hrun hvalues.1).2
  rw [hvalues.2] at hnone
  cases hnone

end Reception

end NebulaXTrader
