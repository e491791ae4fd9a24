import NebulaXTrader.Lib.Rank
import NebulaXTrader.Runtime.ReplaySession

/-!
This module contains the theorem that a replay never gets stuck: from every state the two processes can go on to their
end, where the byte ring has got the messages of the file.
-/

namespace NebulaXTrader

open IoUringPoller (BUF_SIZE)

namespace FlowControl

/--
`sendto` does not fail, and `recv` only after the main thread has stopped the receiver.
-/
def Orderly (s : FlowControl) (l : Label) : Prop :=
  match l with
  | .sendto r => 0 < r
  | .fails => s.stop = true
  | _ => True

instance (s : FlowControl) (l : Label) : Decidable (Orderly s l) :=
  match l with
  | .sendto r => inferInstanceAs (Decidable (0 < r))
  | .fails => inferInstanceAs (Decidable (s.stop = true))
  | .loadReady | .run | .rand _ | .loadReceived | .fetchAdd | .storeDone | .main | .recv => isTrue trivial

def orderly (cfg : PackingLoop.Config) (capacity : Nat) (s : FlowControl) (l : Label) : Option FlowControl :=
  Run.restrict (step cfg capacity) Orderly s l

variable {cfg : PackingLoop.Config} {capacity : Nat} {s s' : FlowControl}

theorem orderly_of_step {l : Label} (hl : Orderly s l) (hstep : step cfg capacity s l = some s')
    : orderly cfg capacity s l = some s' := Run.restrict_eq_some.2 ⟨hl, hstep⟩

structure Good (cfg : PackingLoop.Config) (s : FlowControl) : Prop where
  inv : Inv cfg s
  sent : Sent s
  alive : s.recv = .finished → s.stop = true

theorem Good.start (cfg : PackingLoop.Config) : Good cfg start := ⟨Inv.start cfg, rfl, nofun⟩

theorem move_recv {l : PackingLoop.Label} (hstep : s.move cfg l = some s') : s'.recv = s.recv ∧ s'.stop = s.stop := by
  unfold FlowControl.move at hstep
  split at hstep
  . cases hstep
    exact ⟨rfl, rfl⟩
  . cases hstep

theorem stepMain_recv (hstep : s.stepMain = some s') : s'.recv = s.recv ∧ (s.stop = true → s'.stop = true) := by
  unfold FlowControl.stepMain at hstep
  split at hstep
  case h_7 =>
    split at hstep
    . cases hstep
      exact ⟨rfl, id⟩
    . cases hstep
  case h_8 => cases hstep
  all_goals
    cases hstep
    exact ⟨rfl, fun hstop => by first | exact hstop | rfl⟩

theorem Inv.finished (h : Inv cfg s) (hstep : s.stepRecv = some s') (hfinished : s'.recv = .finished) : s'.stop = true := by
  unfold FlowControl.stepRecv at hstep
  split at hstep
  . cases hstep
    cases hstop : s.stop with
    | true => rfl
    | false =>
      dsimp only at hfinished
      rw [hstop] at hfinished
      cases hfinished
  . split at hstep
    . cases hstep
    . next datagram network hnetwork =>
      cases hstep
      have hne : datagram ≠ [] := by
        apply h.nonempty
        rw [hnetwork]
        exact List.mem_cons_self
      have hpositive := length_take_pos hne
      dsimp only at hfinished
      rw [if_pos hpositive] at hfinished
      cases hfinished
  all_goals
    cases hstep
    try cases hfinished

theorem Good.step (h : Good cfg s) (hpack : 1 ≤ cfg.packMax) (hfc : cfg.fc = true) (hcapacity : 0 < capacity) {l : Label}
    (hstep : orderly cfg capacity s l = some s') : Good cfg s' := by
  obtain ⟨hl, hstep⟩ := Run.restrict_eq_some.1 hstep
  have hsendto : ∀ r, l = .sendto r → 0 < r := by
    intro r heq
    rw [heq] at hl
    exact hl
  refine ⟨h.inv.step hpack hfc hcapacity hstep, h.sent.step h.inv hfc hsendto hstep, ?_⟩
  have hkeep : s'.recv = s.recv ∧ (s.stop = true → s'.stop = true) → s'.recv = .finished → s'.stop = true := by
    intro hsame hfinished
    rw [hsame.1] at hfinished
    exact hsame.2 (h.alive hfinished)
  have hmove : ∀ t : FlowControl, t.recv = s.recv ∧ t.stop = s.stop → ∀ l, t.move cfg l = some s' →
      s'.recv = .finished → s'.stop = true := by
    intro t ht l hmoved
    obtain ⟨hrecv, hstop⟩ := move_recv hmoved
    apply hkeep
    rw [hrecv, hstop, ht.1, ht.2]
    exact ⟨rfl, id⟩
  unfold FlowControl.step at hstep
  cases l with
  | main => exact hkeep (stepMain_recv hstep)
  | recv => exact h.inv.finished hstep
  | fails =>
    dsimp only at hstep
    split at hstep
    . cases hstep
      exact fun _ => hl
    . cases hstep
  | run =>
    dsimp only at hstep
    split at hstep
    . cases hstep
    . exact hmove s ⟨rfl, rfl⟩ _ hstep
  | rand r =>
    dsimp only at hstep
    split at hstep
    . cases hstep
    . exact hmove s ⟨rfl, rfl⟩ _ hstep
  | loadReceived => exact hmove s ⟨rfl, rfl⟩ _ hstep
  | fetchAdd =>
    dsimp only at hstep
    split at hstep
    . exact hmove { s with ret := none } ⟨rfl, rfl⟩ _ hstep
    . cases hstep
  | sendto r =>
    dsimp only at hstep
    split at hstep
    . cases hstep
      unfold FlowControl.sendto
      split
      . split
        . exact h.alive
        . exact h.alive
      . exact h.alive
    . cases hstep
  | loadReady =>
    dsimp only at hstep
    split at hstep
    . cases hstep
      exact h.alive
    . cases hstep
  | storeDone =>
    dsimp only at hstep
    split at hstep
    . cases hstep
      exact h.alive
    . cases hstep

/-!
The receiving thread empties the socket by itself.
-/

def weight (datagram : List UInt8) : Nat := (MoldUdpUnpacker.feed (datagram.take BUF_SIZE)).1.length + 4

def RecvPc.rank (pc : RecvPc) : Nat :=
  match pc with
  | .loadStop => 2
  | .recv => 1
  | .fetchAdd packet => (MoldUdpUnpacker.feed packet).1.length + 4
  | .feed messages => messages.length + 3
  | .finished => 0

def rankRecv (s : FlowControl) : Nat := (s.network.map weight).sum + s.recv.rank

/--
The client and the main thread are where they were.
-/
structure Beside (s s' : FlowControl) : Prop where
  client : s'.client = s.client
  ret : s'.ret = s.ret
  waiting : s'.waiting = s.waiting
  ready : s'.ready = s.ready
  done : s'.done = s.done
  stop : s'.stop = s.stop
  main : s'.main = s.main

theorem Beside.trans {t : FlowControl} (h : Beside s t) (h' : Beside t s') : Beside s s' :=
  ⟨h'.client.trans h.client, h'.ret.trans h.ret, h'.waiting.trans h.waiting, h'.ready.trans h.ready,
    h'.done.trans h.done, h'.stop.trans h.stop, h'.main.trans h.main⟩

theorem Inv.recv_step (h : Inv cfg s) (hrecv : s.recv ≠ .finished) (hwork : s.recv = .recv → s.network ≠ [])
    : ∃ s', s.stepRecv = some s' ∧ s'.rankRecv < s.rankRecv ∧ Beside s s' := by
  unfold FlowControl.stepRecv
  cases hpc : s.recv with
  | loadStop =>
    refine ⟨_, rfl, ?_, rfl, rfl, rfl, rfl, rfl, rfl, rfl⟩
    unfold rankRecv
    rw [hpc]
    apply Nat.add_lt_add_left
    dsimp only
    split
    . exact Nat.succ_pos 1
    . exact Nat.lt_succ_self 1
  | recv =>
    cases hnetwork : s.network with
    | nil => exact absurd hnetwork (hwork hpc)
    | cons datagram network =>
      have hne : datagram ≠ [] := by
        apply h.nonempty
        rw [hnetwork]
        exact List.mem_cons_self
      refine ⟨_, rfl, ?_, rfl, rfl, rfl, rfl, rfl, rfl, rfl⟩
      unfold rankRecv
      rw [hpc, hnetwork]
      dsimp only
      rw [if_pos (length_take_pos hne), List.map_cons, List.sum_cons]
      unfold weight RecvPc.rank
      dsimp only
      omega
  | fetchAdd packet =>
    refine ⟨_, rfl, ?_, rfl, rfl, rfl, rfl, rfl, rfl, rfl⟩
    unfold rankRecv
    rw [hpc]
    exact Nat.add_lt_add_left (Nat.lt_succ_self _) _
  | feed messages =>
    cases messages with
    | nil =>
      refine ⟨_, rfl, ?_, rfl, rfl, rfl, rfl, rfl, rfl, rfl⟩
      unfold rankRecv
      rw [hpc]
      exact Nat.add_lt_add_left (Nat.lt_succ_self _) _
    | cons m messages =>
      refine ⟨_, rfl, ?_, rfl, rfl, rfl, rfl, rfl, rfl, rfl⟩
      unfold rankRecv
      rw [hpc]
      exact Nat.add_lt_add_left (Nat.lt_succ_self _) _
  | finished => exact absurd hpc hrecv

theorem client_step (hwaiting : s.waiting = false) {l : PackingLoop.Label} {client : PackingLoop}
    (hl : l.silent = true) (hstep : PackingLoop.step cfg s.client l = some client)
    : ∃ l', orderly cfg capacity s l' = some { s with client := client } := by
  have hmove : s.move cfg l = some { s with client := client } := by
    unfold FlowControl.move
    rw [hstep]
  have hpassed : ¬ s.waiting = true := by
    rw [hwaiting]
    exact Bool.false_ne_true
  cases l with
  | run => exact ⟨.run, orderly_of_step (l := .run) trivial ((if_neg hpassed).trans hmove)⟩
  | rand r => exact ⟨.rand r, orderly_of_step (l := .rand r) trivial ((if_neg hpassed).trans hmove)⟩
  | load received => cases hl
  | sendto r => cases hl

theorem Good.fetchAdd_progress (h : Good cfg s) (hpack : 1 ≤ cfg.packMax)
    (hcut : ¬ FileWalk.CutShort cfg.file) {r : Int} (hpc : s.client.pc = .send) (hret : s.ret = some r)
    : ∃ s', orderly cfg capacity s .fetchAdd = some s' ∧ s'.waiting = s.waiting ∧
        s'.client.rank cfg < s.client.rank cfg := by
  have hclient : PackingLoop.step cfg s.client (.sendto r) = some (s.client.sendto cfg r) := by
    unfold PackingLoop.step
    rw [hpc]
  have hstep : FlowControl.step cfg capacity s .fetchAdd =
      some { s with ret := none, client := s.client.sendto cfg r } := by
    unfold FlowControl.step move
    dsimp only
    rw [hret]
    dsimp only
    rw [hclient]
  exact ⟨_, orderly_of_step trivial hstep, rfl, (PackingLoop.rank_step h.inv.loop hpack hcut hclient).2 rfl⟩

theorem Good.begins (h : Good cfg s)
    : ∃ s', Run.Reaches (orderly cfg capacity) s s' ∧ s'.waiting = false := by
  cases hwaiting : s.waiting with
  | false => exact ⟨s, Run.Reaches.refl s, hwaiting⟩
  | true =>
    have hready : ∃ t, Run.Reaches (orderly cfg capacity) s t ∧ t.waiting = true ∧ t.ready = true := by
      have hwaited := h.inv.waited
      have hdone : s.done = false := (h.inv.running (by rw [h.inv.waiting hwaiting]; simp)).1
      cases hmain : s.main with
      | startReceiver =>
        have hstart : orderly cfg capacity s .main = some { s with bound := true, main := .storeReady } :=
          orderly_of_step trivial (by unfold FlowControl.step stepMain; dsimp only; rw [hmain])
        have hstore : orderly cfg capacity { s with bound := true, main := .storeReady } .main =
            some { s with bound := true, ready := true, main := .loadDone } := orderly_of_step trivial rfl
        exact ⟨_, ((Run.Reaches.refl _).head hstore).head hstart, hwaiting, rfl⟩
      | storeReady =>
        have hstore : orderly cfg capacity s .main = some { s with ready := true, main := .loadDone } :=
          orderly_of_step trivial (by unfold FlowControl.step stepMain; dsimp only; rw [hmain])
        exact ⟨_, (Run.Reaches.refl _).head hstore, hwaiting, rfl⟩
      | loadDone =>
        rw [hmain] at hwaited
        exact ⟨s, Run.Reaches.refl s, hwaiting, hwaited⟩
      | loadReceived =>
        rw [hmain] at hwaited
        exact ⟨s, Run.Reaches.refl s, hwaiting, hwaited.1⟩
      | loadSent received =>
        rw [hmain] at hwaited
        exact ⟨s, Run.Reaches.refl s, hwaiting, hwaited.1⟩
      | storeStop =>
        rw [hmain] at hwaited
        exact absurd hwaited.1 (by rw [hdone]; exact Bool.false_ne_true)
      | joinRecv =>
        rw [hmain] at hwaited
        exact absurd (h.inv.stop hwaited).1 (by rw [hdone]; exact Bool.false_ne_true)
      | stopped =>
        rw [hmain] at hwaited
        exact absurd (h.inv.stop hwaited.1).1 (by rw [hdone]; exact Bool.false_ne_true)
    obtain ⟨t, hreaches, hwaiting', hready⟩ := hready
    have hload : orderly cfg capacity t .loadReady = some { t with waiting := !t.ready } :=
      orderly_of_step trivial (if_pos hwaiting')
    refine ⟨_, hreaches.trans ((Run.Reaches.refl _).head hload), ?_⟩
    dsimp only
    rw [hready]
    rfl

section

variable (hpack : 1 ≤ cfg.packMax) (hfc : cfg.fc = true) (hcapacity : 0 < capacity)

include hpack hfc hcapacity

theorem Good.reaches (h : Good cfg s) (hreaches : Run.Reaches (orderly cfg capacity) s s') : Good cfg s' := by
  obtain ⟨ls, hexec⟩ := hreaches
  apply Run.exec_keeps _ h hexec
  intro s l s' h hstep
  exact h.step hpack hfc hcapacity hstep

theorem Good.drains (h : Good cfg s) (hstop : s.stop = false)
    : ∃ s', Run.Reaches (orderly cfg capacity) s s' ∧ s'.recv = .recv ∧ s'.network = [] ∧ Beside s s' := by
  have hnext : ∀ t, Good cfg t ∧ Beside s t → (t.recv = .recv ∧ t.network = [] ∧ Beside s t) ∨
      ∃ l t', orderly cfg capacity t l = some t' ∧ (Good cfg t' ∧ Beside s t') ∧ t'.rankRecv < t.rankRecv := by
    intro t ht
    obtain ⟨ht, hbeside⟩ := ht
    by_cases hempty : t.recv = .recv ∧ t.network = []
    . exact Or.inl ⟨hempty.1, hempty.2, hbeside⟩
    . right
      have hrecv : t.recv ≠ .finished := by
        intro hfinished
        have htrue := ht.alive hfinished
        rw [hbeside.stop, hstop] at htrue
        cases htrue
      obtain ⟨t', hstep, hlt, hsame⟩ := ht.inv.recv_step hrecv fun hpc hnil => hempty ⟨hpc, hnil⟩
      have horderly : orderly cfg capacity t .recv = some t' := orderly_of_step trivial hstep
      exact ⟨.recv, t', horderly, ⟨ht.step hpack hfc hcapacity horderly, hbeside.trans hsame⟩, hlt⟩
  exact Run.reaches_final hnext ⟨h, rfl, rfl, rfl, rfl, rfl, rfl, rfl⟩

theorem Good.client_progress (h : Good cfg s) (hcut : ¬ FileWalk.CutShort cfg.file) (hwaiting : s.waiting = false)
    (hdone : s.client.pc ≠ .done)
    : ∃ s', Run.Reaches (orderly cfg capacity) s s' ∧ s'.waiting = false ∧ s'.client.rank cfg < s.client.rank cfg := by
  -- The client comes closer to its end. At its wait the receiving thread makes the counters equal, and the packet
  -- that it sends next is accepted.
  have hsilent : ∀ (l : PackingLoop.Label) client, l.silent = true → l.moves = true →
      PackingLoop.step cfg s.client l = some client →
      ∃ s', Run.Reaches (orderly cfg capacity) s s' ∧ s'.waiting = false ∧ s'.client.rank cfg < s.client.rank cfg := by
    intro l client hl hmoves hstep
    obtain ⟨l', hl'⟩ := client_step hwaiting hl hstep
    have hlt := (PackingLoop.rank_step h.inv.loop hpack hcut hstep).2 hmoves
    exact ⟨_, (Run.Reaches.refl _).head hl', hwaiting, hlt⟩
  cases hpc : s.client.pc with
  | outer => exact hsilent .run (s.client.testOuter cfg) rfl rfl (by unfold PackingLoop.step; rw [hpc])
  | choose => exact hsilent (.rand 0) (s.client.choose cfg 0) rfl rfl (by unfold PackingLoop.step; rw [hpc])
  | fill => exact hsilent .run (s.client.fill cfg) rfl rfl (by unfold PackingLoop.step; rw [hpc])
  | pack => exact hsilent .run (s.client.pack cfg) rfl rfl (by unfold PackingLoop.step; rw [hpc])
  | await =>
    obtain ⟨t, hreaches, hrecv, hnetwork, hbeside⟩ :=
      h.drains hpack hfc hcapacity (h.inv.running hdone).2
    have ht := h.reaches hpack hfc hcapacity hreaches
    have hbalance := ht.inv.balance
    rw [hrecv, hnetwork] at hbalance
    have hle : t.client.sent ≤ t.received := by
      have hnil : (RecvPc.taken .recv).length + ([] : List (List UInt8)).length = 0 := rfl
      omega
    have hpc' : t.client.pc = .await := by
      rw [hbeside.client]
      exact hpc
    have hclient : PackingLoop.step cfg t.client (.load t.received) = some { t.client with pc := .send } := by
      unfold PackingLoop.step
      rw [hpc']
      exact congrArg some (if_neg (Nat.not_lt.2 hle))
    have hmove : t.move cfg (.load t.received) = some { t with client := { t.client with pc := .send } } := by
      unfold FlowControl.move
      rw [hclient]
    have hload : orderly cfg capacity t .loadReceived = some { t with client := { t.client with pc := .send } } :=
      orderly_of_step trivial hmove
    refine ⟨_, hreaches.trans ((Run.Reaches.refl _).head hload), hbeside.waiting.trans hwaiting, ?_⟩
    rw [← hbeside.client]
    unfold PackingLoop.rank
    rw [hpc']
    exact Nat.lt_succ_self _
  | send =>
    cases hret : s.ret with
    | some r =>
      obtain ⟨s', hstep, hsame, hlt⟩ := h.fetchAdd_progress hpack hcut hpc hret
      exact ⟨s', (Run.Reaches.refl _).head hstep, hsame.trans hwaiting, hlt⟩
    | none =>
      have hsendto : orderly cfg capacity s (.sendto 1) = some (s.sendto capacity 1) :=
        orderly_of_step (l := .sendto 1) Int.one_pos (if_pos ⟨hpc, hret⟩)
      have hsame : (s.sendto capacity 1).client = s.client ∧ (s.sendto capacity 1).waiting = s.waiting ∧
          (s.sendto capacity 1).ret = some 1 := by
        unfold FlowControl.sendto
        rw [if_pos Int.one_pos]
        split
        . exact ⟨rfl, rfl, rfl⟩
        . exact ⟨rfl, rfl, rfl⟩
      obtain ⟨hclient, hwaiting', hret'⟩ := hsame
      have ht := h.step hpack hfc hcapacity hsendto
      obtain ⟨s', hstep, hkept, hlt⟩ :=
        ht.fetchAdd_progress hpack hcut (by rw [hclient]; exact hpc) hret'
      rw [hclient] at hlt
      exact ⟨s', ((Run.Reaches.refl _).head hstep).head hsendto, (hkept.trans hwaiting').trans hwaiting, hlt⟩
  | done => exact absurd hpc hdone

theorem Good.client_done (h : Good cfg s) (hcut : ¬ FileWalk.CutShort cfg.file) (hwaiting : s.waiting = false)
    : ∃ s', Run.Reaches (orderly cfg capacity) s s' ∧ s'.client.pc = .done := by
  induction hrank : s.client.rank cfg using Nat.strongRecOn generalizing s with
  | ind n ih =>
    by_cases hdone : s.client.pc = .done
    . exact ⟨s, Run.Reaches.refl s, hdone⟩
    . obtain ⟨t, hreaches, hwaiting', hlt⟩ := h.client_progress hpack hfc hcapacity hcut hwaiting hdone
      have ht := h.reaches hpack hfc hcapacity hreaches
      obtain ⟨s', hreaches', hdone'⟩ := ih (t.client.rank cfg) (hrank ▸ hlt) ht hwaiting' rfl
      exact ⟨s', hreaches.trans hreaches', hdone'⟩

end

/-!
Behind the end of the client the main thread passes its wait, and the receiving thread finishes.
-/

def MainPc.rank (pc : MainPc) (sent : Nat) : Nat :=
  match pc with
  | .startReceiver => 8
  | .storeReady => 7
  | .loadDone => 6
  | .loadReceived => 4
  | .loadSent received => if received < sent then 5 else 3
  | .storeStop => 2
  | .joinRecv => 1
  | .stopped => 0

def rankEnd (s : FlowControl) : Nat := s.main.rank s.client.sent + s.rankRecv

theorem main_step (hdone : s.done = true) (hle : s.client.sent ≤ s.received) (hjoin : s.main ≠ .joinRecv)
    (hstopped : s.main ≠ .stopped)
    : ∃ s', s.stepMain = some s' ∧ s'.rankEnd < s.rankEnd ∧ s'.done = true ∧ s'.client.sent ≤ s'.received := by
  unfold FlowControl.stepMain
  cases hpc : s.main with
  | startReceiver =>
    refine ⟨_, rfl, ?_, hdone, hle⟩
    unfold rankEnd
    rw [hpc]
    exact Nat.add_lt_add_right (Nat.lt_succ_self 7) _
  | storeReady =>
    refine ⟨_, rfl, ?_, hdone, hle⟩
    unfold rankEnd
    rw [hpc]
    exact Nat.add_lt_add_right (Nat.lt_succ_self 6) _
  | loadDone =>
    refine ⟨_, rfl, ?_, hdone, hle⟩
    unfold rankEnd
    rw [hpc, if_pos hdone]
    exact Nat.add_lt_add_right (Nat.lt_succ_of_lt (Nat.lt_succ_self 4)) _
  | loadReceived =>
    refine ⟨_, rfl, ?_, hdone, hle⟩
    unfold rankEnd
    rw [hpc]
    apply Nat.add_lt_add_right
    unfold MainPc.rank
    dsimp only
    rw [if_neg (Nat.not_lt.2 hle)]
    exact Nat.lt_succ_self 3
  | loadSent received =>
    refine ⟨_, rfl, ?_, hdone, hle⟩
    unfold rankEnd
    rw [hpc]
    apply Nat.add_lt_add_right
    by_cases hlt : received < s.client.sent
    . unfold MainPc.rank
      dsimp only
      rw [if_pos hlt, if_pos hlt]
      exact Nat.lt_succ_self 4
    . unfold MainPc.rank
      dsimp only
      rw [if_neg hlt, if_neg hlt]
      exact Nat.lt_succ_self 2
  | storeStop =>
    refine ⟨_, rfl, ?_, hdone, hle⟩
    unfold rankEnd
    rw [hpc]
    exact Nat.add_lt_add_right (Nat.lt_succ_self 1) _
  | joinRecv => exact absurd hpc hjoin
  | stopped => exact absurd hpc hstopped

theorem Inv.join_step (h : Inv cfg s) (hmain : s.main = .joinRecv)
    : ∃ l s', orderly cfg capacity s l = some s' ∧ s'.rankEnd < s.rankEnd ∧ s'.stop = true := by
  have hstop := h.waited
  rw [hmain] at hstop
  have hstop : s.stop = true := hstop
  by_cases hfinished : s.recv = .finished
  . have hstep : s.stepMain = some { s with main := .stopped } := by
      unfold FlowControl.stepMain
      rw [hmain]
      exact if_pos hfinished
    refine ⟨.main, _, orderly_of_step trivial hstep, ?_, hstop⟩
    unfold rankEnd
    rw [hmain]
    exact Nat.add_lt_add_right (Nat.lt_succ_self 0) _
  . by_cases hrecv : s.recv = .recv
    . refine ⟨.fails, _, orderly_of_step (l := .fails) hstop (if_pos hrecv), ?_, hstop⟩
      unfold rankEnd rankRecv
      apply Nat.add_lt_add_left
      apply Nat.add_lt_add_left
      rw [hrecv]
      exact Nat.lt_succ_self 0
    . obtain ⟨s', hstep, hlt, hbeside⟩ := h.recv_step hfinished fun hpc => absurd hpc hrecv
      refine ⟨.recv, s', orderly_of_step trivial hstep, ?_, hbeside.stop.trans hstop⟩
      unfold rankEnd
      rw [hbeside.main, hbeside.client]
      exact Nat.add_lt_add_left hlt _

section

variable (hpack : 1 ≤ cfg.packMax) (hfc : cfg.fc = true) (hcapacity : 0 < capacity)

include hpack hfc hcapacity

theorem Good.ends (h : Good cfg s) (hdone : s.done = true) (hle : s.client.sent ≤ s.received)
    : ∃ s', Run.Reaches (orderly cfg capacity) s s' ∧ s'.main = .stopped := by
  have hnext : ∀ t, (Good cfg t ∧ t.done = true ∧ t.client.sent ≤ t.received) → t.main = .stopped ∨
      ∃ l t', orderly cfg capacity t l = some t' ∧ (Good cfg t' ∧ t'.done = true ∧ t'.client.sent ≤ t'.received) ∧
        t'.rankEnd < t.rankEnd := by
    intro t ht
    obtain ⟨ht, hdone, hle⟩ := ht
    by_cases hstopped : t.main = .stopped
    . exact Or.inl hstopped
    . right
      by_cases hjoin : t.main = .joinRecv
      . obtain ⟨l, t', hstep, hlt, hstop⟩ := ht.inv.join_step hjoin
        have ht' := ht.step hpack hfc hcapacity hstep
        exact ⟨l, t', hstep, ⟨ht', ht'.inv.stop hstop⟩, hlt⟩
      . obtain ⟨t', hstep, hlt, hdone', hle'⟩ := main_step hdone hle hjoin hstopped
        have horderly : orderly cfg capacity t .main = some t' := orderly_of_step trivial hstep
        exact ⟨.main, t', horderly, ⟨ht.step hpack hfc hcapacity horderly, hdone', hle'⟩, hlt⟩
  exact Run.reaches_final hnext ⟨h, hdone, hle⟩

theorem Good.stops (h : Good cfg s) (hcut : ¬ FileWalk.CutShort cfg.file)
    : ∃ s', Run.Reaches (orderly cfg capacity) s s' ∧ s'.main = .stopped := by
  have hbegins : ∃ s₁, Run.Reaches (orderly cfg capacity) s s₁ ∧ _ := h.begins
  obtain ⟨s₁, hreaches₁, hwaiting⟩ := hbegins
  have h₁ := h.reaches hpack hfc hcapacity hreaches₁
  obtain ⟨s₂, hreaches₂, hdone⟩ := h₁.client_done hpack hfc hcapacity hcut hwaiting
  have h₂ := h₁.reaches hpack hfc hcapacity hreaches₂
  have hstore : orderly cfg capacity s₂ .storeDone = some { s₂ with done := true } :=
    orderly_of_step trivial (if_pos hdone)
  have h₃ := h₂.step hpack hfc hcapacity hstore
  have hreaches₃ := (hreaches₁.trans hreaches₂).trans ((Run.Reaches.refl _).head hstore)
  have hcaught : ∃ s₄, Run.Reaches (orderly cfg capacity) { s₂ with done := true } s₄ ∧ s₄.done = true ∧
      s₄.client.sent ≤ s₄.received := by
    by_cases hstop : s₂.stop = true
    . exact ⟨_, Run.Reaches.refl _, h₃.inv.stop hstop⟩
    . have hrunning : s₂.stop = false := Bool.eq_false_of_not_eq_true hstop
      obtain ⟨s₄, hreaches₄, hrecv, hnetwork, hbeside⟩ := h₃.drains hpack hfc hcapacity hrunning
      have hbalance := (h₃.reaches hpack hfc hcapacity hreaches₄).inv.balance
      rw [hrecv, hnetwork] at hbalance
      have hnil : (RecvPc.taken .recv).length + ([] : List (List UInt8)).length = 0 := rfl
      exact ⟨s₄, hreaches₄, hbeside.done, by omega⟩
  obtain ⟨s₄, hreaches₄, hdone₄, hle⟩ := hcaught
  have h₄ := h₃.reaches hpack hfc hcapacity hreaches₄
  obtain ⟨s', hreaches', hstopped⟩ := h₄.ends hpack hfc hcapacity hdone₄ hle
  exact ⟨s', (hreaches₃.trans hreaches₄).trans hreaches', hstopped⟩

end

end FlowControl

end NebulaXTrader
