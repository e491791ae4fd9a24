import NebulaXTrader.Runtime.FlowControl

/-!
This module contains the theorems about a whole replay: the two counters keep at most one packet on its way, so that
nothing is lost, and the byte ring gets the messages of the file.
-/

namespace NebulaXTrader

open IoUringPoller (BUF_SIZE)

namespace ReplayClient

theorem length_messages_le {bs : List ItchBody} {n : Nat} (h : ∀ b ∈ bs, 2 + b.1.length ≤ n)
    : (bs.flatMap message).length ≤ bs.length * n := by
  induction bs with
  | nil => exact Nat.zero_le _
  | cons b bs ih =>
    have hhead := h b List.mem_cons_self
    have htail := ih fun b hb => h b (List.mem_cons_of_mem _ hb)
    rw [List.flatMap_cons, List.length_append, length_message, List.length_cons, Nat.succ_mul]
    omega

theorem map_take_sequenced {groups : List (List ItchBody)} {n : Nat}
    (h : ∀ g ∈ groups, 20 + (g.flatMap message).length ≤ n) (firstSeq : Nat)
    : (sequenced firstSeq groups).map (List.take n) = sequenced firstSeq groups := by
  induction groups generalizing firstSeq with
  | nil => rfl
  | cons g groups ih =>
    have hhead := h g List.mem_cons_self
    have htake : (header firstSeq g.length ++ g.flatMap message).take n = header firstSeq g.length ++ g.flatMap message := by
      apply List.take_of_length_le
      rw [List.length_append, length_header]
      exact hhead
    rw [sequenced, List.map_cons, htake, ih fun g hg => h g (List.mem_cons_of_mem _ hg)]

theorem feed_sequenced {groups : List (List ItchBody)} (h : ∀ g ∈ groups, g.length ≤ 65535) (firstSeq : Nat)
    : (sequenced firstSeq groups).flatMap (fun packet => (MoldUdpUnpacker.feed packet).1) =
        numbered firstSeq groups.flatten := by
  induction groups generalizing firstSeq with
  | nil => rfl
  | cons g groups ih =>
    have hpacket : header firstSeq g.length ++ g.flatMap message =
        packets firstSeq [⟨g, h g List.mem_cons_self⟩] := (List.append_nil _).symm
    have hmessages : messagesOf [⟨g, h g List.mem_cons_self⟩] = g := List.append_nil g
    rw [sequenced, List.flatMap_cons, List.flatten_cons, numbered_append, hpacket, MoldUdpUnpacker.feed_packets,
      hmessages, ih fun g hg => h g (List.mem_cons_of_mem _ hg)]

end ReplayClient

namespace PackingLoop

variable {cfg : Config} {s s' : PackingLoop}

def Label.silent (l : Label) : Bool :=
  match l with
  | .run => true
  | .rand _ => true
  | .load _ => false
  | .sendto _ => false

structure Silent (s s' : PackingLoop) : Prop where
  send : s.pc ≠ .send
  done : s.pc ≠ .done
  send' : s'.pc ≠ .send
  sent : s'.sent = s.sent
  packets : s'.packets = s.packets

theorem silent_of_step (hfc : cfg.fc = true) {l : Label} (hl : l.silent = true) (hstep : step cfg s l = some s')
    : Silent s s' := by
  cases moved hstep with
  | testOuter hpc =>
    unfold testOuter
    split
    . exact ⟨by simp [hpc], by simp [hpc], by simp, rfl, rfl⟩
    . exact ⟨by simp [hpc], by simp [hpc], by simp, rfl, rfl⟩
  | choose r hpc => exact ⟨by simp [hpc], by simp [hpc], by simp [PackingLoop.choose], rfl, rfl⟩
  | fill hpc =>
    have hfilled := filled cfg s
    generalize s.fill cfg = s' at hfilled
    cases hfilled
    all_goals exact ⟨by simp [hpc], by simp [hpc], by simp [hpc], rfl, rfl⟩
  | pack hpc =>
    unfold PackingLoop.pack
    split
    . exact ⟨by simp [hpc], by simp [hpc], by simp, rfl, rfl⟩
    . exact ⟨by simp [hpc], by simp [hpc], by simp, rfl, rfl⟩
  | await received hpc => cases hl
  | sendto r hpc => cases hl

theorem Invariant.sending (h : Invariant cfg s)
    : ∃ groups : List (List ItchBody), groups.flatten <+: FileWalk.messages cfg.file ∧
        (∀ g ∈ groups, g ≠ [] ∧ g.length ≤ cfg.packMax.toNat) ∧
        s.packets ++ (if s.pc = .send then [s.pkt] else []) = ReplayClient.sequenced 0 groups := by
  obtain ⟨walked, groups, current, h⟩ := h
  obtain ⟨r, hr⟩ := Deframer.Drains.total (d := FileWalk.deframer) (cfg.file.drop s.pos)
  have hmessages : FileWalk.messages cfg.file =
      groups.flatten ++ current ++ r.1.filter FileWalk.listed := by
    unfold FileWalk.messages
    rw [FileWalk.walk_of_drains (h.walk r hr), List.filter_append, h.listed]
  rw [hmessages, h.packets]
  by_cases hpc : s.pc = .send
  . have hholding := h.holding
    rw [hpc] at hholding
    obtain ⟨hpkt, hne, hle⟩ := hholding
    refine ⟨groups ++ [current], ?_, ?_, ?_⟩
    . rw [List.flatten_append, List.flatten_singleton]
      exact List.prefix_append _ _
    . intro g hg
      rw [List.mem_append, List.mem_singleton] at hg
      cases hg with
      | inl hmem => exact h.small g hmem
      | inr heq =>
        rw [heq]
        exact ⟨hne, hle⟩
    . rw [if_pos hpc, ReplayClient.sequenced_concat, Nat.zero_add, hpkt]
  . refine ⟨groups, ?_, h.small, ?_⟩
    . rw [List.append_assoc]
      exact List.prefix_append _ _
    . rw [if_neg hpc, List.append_nil]

theorem Invariant.pkt_ne_nil (h : Invariant cfg s) (hpc : s.pc = .send) : s.pkt ≠ [] := by
  obtain ⟨walked, groups, current, h⟩ := h
  have hholding := h.holding
  rw [hpc] at hholding
  intro hnil
  have hlength := congrArg List.length hholding.1
  rw [hnil, List.length_append, ReplayClient.length_header, List.length_nil] at hlength
  omega

end PackingLoop

namespace FlowControl

variable {cfg : PackingLoop.Config} {capacity : Nat} {s s' : FlowControl}

/--
What the receiving thread has taken from the socket and not counted yet.
-/
def RecvPc.taken (pc : RecvPc) : List (List UInt8) :=
  match pc with
  | .fetchAdd packet => [packet]
  | _ => []

def RecvPc.remaining (pc : RecvPc) : List (List UInt8) :=
  match pc with
  | .feed messages => messages
  | _ => []

/--
The packet that `sendto` has taken and that is not counted yet.
-/
def uncounted (s : FlowControl) : Nat :=
  match s.ret with
  | some r => if 0 < r then 1 else 0
  | none => 0

/--
Behind its wait the main thread finds nothing on its way.
-/
def MainPc.Waited (pc : MainPc) (s : FlowControl) : Prop :=
  match pc with
  | .startReceiver => s.ready = false
  | .storeReady => s.ready = false ∧ s.bound = true
  | .loadDone => s.ready = true
  | .loadReceived => s.ready = true ∧ s.done = true
  | .loadSent received => s.ready = true ∧ s.done = true ∧ received ≤ s.received
  | .storeStop => s.done = true ∧ s.client.sent ≤ s.received
  | .joinRecv => s.stop = true
  | .stopped => s.stop = true ∧ s.recv = .finished

structure Inv (cfg : PackingLoop.Config) (s : FlowControl) : Prop where
  loop : PackingLoop.Invariant cfg s.client
  waiting : s.waiting = true → s.client.pc = .outer
  bound : s.waiting = false ∨ s.ready = true → s.bound = true
  returned : s.ret ≠ none → s.client.pc = .send
  balance : s.received + s.recv.taken.length + s.network.length = s.client.sent + s.uncounted
  turn : s.client.pc = .send → s.ret = none → s.client.sent ≤ s.received
  ahead : s.client.sent + s.uncounted ≤ s.received + 1
  dropped : s.dropped = []
  nonempty : ∀ datagram ∈ s.network, datagram ≠ []
  order : s.accepted.map (List.take BUF_SIZE) = s.handed ++ s.recv.taken ++ s.network.map (List.take BUF_SIZE)
  pushes : s.pushed ++ s.recv.remaining = s.handed.flatMap (fun packet => (MoldUdpUnpacker.feed packet).1)
  done : s.done = true → s.client.pc = .done
  waited : s.main.Waited s
  stop : s.stop = true → s.done = true ∧ s.client.sent ≤ s.received

theorem Inv.start (cfg : PackingLoop.Config) : Inv cfg start := by
  constructor
  . exact ⟨[], [], [], PackingLoop.Inv.start cfg⟩
  . exact fun _ => rfl
  . exact fun h => h.elim nofun nofun
  . exact fun h => absurd rfl h
  . rfl
  . exact fun h => nomatch h
  . exact Nat.zero_le _
  . rfl
  . exact fun _ h => absurd h List.not_mem_nil
  . rfl
  . rfl
  . exact nofun
  . rfl
  . exact nofun

theorem MainPc.Waited.mono {pc : MainPc} (h : pc.Waited s) (hready : s'.ready = s.ready) (hbound : s'.bound = s.bound)
    (hstop : s'.stop = s.stop) (hdone : s.done = true → s'.done = true ∧ s'.client.sent = s.client.sent)
    (hreceived : s.received ≤ s'.received) (hrecv : s.recv = .finished → s'.recv = .finished) : pc.Waited s' := by
  cases pc with
  | startReceiver => exact hready.trans h
  | storeReady => exact ⟨hready.trans h.1, hbound.trans h.2⟩
  | loadDone => exact hready.trans h
  | loadReceived => exact ⟨hready.trans h.1, (hdone h.2).1⟩
  | loadSent received => exact ⟨hready.trans h.1, (hdone h.2.1).1, Nat.le_trans h.2.2 hreceived⟩
  | storeStop =>
    obtain ⟨hdone', hsent⟩ := hdone h.1
    refine ⟨hdone', ?_⟩
    rw [hsent]
    exact Nat.le_trans h.2 hreceived
  | joinRecv => exact hstop.trans h
  | stopped => exact ⟨hstop.trans h.1, hrecv h.2⟩

theorem Inv.running (h : Inv cfg s) (hpc : s.client.pc ≠ .done) : s.done = false ∧ s.stop = false := by
  constructor
  . cases hdone : s.done with
    | false => rfl
    | true => exact absurd (h.done hdone) hpc
  . cases hstop : s.stop with
    | false => rfl
    | true => exact absurd (h.done (h.stop hstop).1) hpc

theorem Inv.move (h : Inv cfg s) (hpack : 1 ≤ cfg.packMax) (hfc : cfg.fc = true) {l : PackingLoop.Label}
    (hl : l.silent = true) (hwaiting : s.waiting = false) (hstep : s.move cfg l = some s') : Inv cfg s' := by
  unfold FlowControl.move at hstep
  split at hstep
  . next client hclient =>
    cases hstep
    have hsilent := PackingLoop.silent_of_step hfc hl hclient
    obtain ⟨hdone, hstop⟩ := h.running hsilent.done
    have hret : s.ret = none := by
      by_contra hne
      exact hsilent.send (h.returned hne)
    refine ⟨h.loop.step hpack hclient, ?_, h.bound, ?_, ?_, ?_, ?_, h.dropped, h.nonempty, h.order, h.pushes, ?_, ?_, ?_⟩
    . intro hwaiting'
      rw [hwaiting] at hwaiting'
      cases hwaiting'
    . exact fun hne => absurd hret hne
    . dsimp only
      rw [hsilent.sent]
      exact h.balance
    . exact fun hsend => absurd hsend hsilent.send'
    . dsimp only
      rw [hsilent.sent]
      exact h.ahead
    . intro hdone'
      rw [hdone] at hdone'
      cases hdone'
    . exact h.waited.mono rfl rfl rfl (fun hdone' => ⟨hdone', hsilent.sent⟩) (Nat.le_refl _) id
    . intro hstop'
      rw [hstop] at hstop'
      cases hstop'
  . cases hstep

theorem Inv.loadReceived (h : Inv cfg s) (hpack : 1 ≤ cfg.packMax)
    (hstep : s.move cfg (.load s.received) = some s') : Inv cfg s' := by
  unfold FlowControl.move at hstep
  split at hstep
  . next client hclient =>
    cases hstep
    have hloop := h.loop.step hpack hclient
    cases PackingLoop.moved hclient with
    | await received hpc =>
      have hret : s.ret = none := by
        by_contra hne
        have hsend := h.returned hne
        rw [hpc] at hsend
        cases hsend
      have hwaiting : s.waiting = false := by
        by_contra hne
        have houter := h.waiting (Bool.eq_true_of_not_eq_false hne)
        rw [hpc] at houter
        cases houter
      have hdone : s.done = false := (h.running (by simp [hpc])).1
      have hstop : s.stop = false := (h.running (by simp [hpc])).2
      unfold PackingLoop.await at hloop ⊢
      by_cases hlt : s.received < s.client.sent
      . rw [if_pos hlt] at hloop ⊢
        exact h
      . rw [if_neg hlt] at hloop ⊢
        refine ⟨hloop, ?_, h.bound, fun hne => absurd hret hne, h.balance, ?_, h.ahead, h.dropped, h.nonempty, h.order,
          h.pushes, ?_, ?_, h.stop⟩
        . intro hwaiting'
          rw [hwaiting] at hwaiting'
          cases hwaiting'
        . exact fun _ _ => Nat.le_of_not_lt hlt
        . intro hdone'
          rw [hdone] at hdone'
          cases hdone'
        . exact h.waited.mono rfl rfl rfl (fun hdone' => ⟨hdone', rfl⟩) (Nat.le_refl _) id
  . cases hstep

theorem Inv.quiet (h : Inv cfg s) (hpc : s.client.pc = .send) (hret : s.ret = none)
    : s.network = [] ∧ s.recv.taken = [] ∧ s.bound = true := by
  have hturn := h.turn hpc hret
  have hbalance := h.balance
  have hzero : s.uncounted = 0 := by
    unfold uncounted
    rw [hret]
  refine ⟨List.eq_nil_of_length_eq_zero (by omega), List.eq_nil_of_length_eq_zero (by omega), ?_⟩
  apply h.bound
  left
  by_contra hne
  have houter := h.waiting (Bool.eq_true_of_not_eq_false hne)
  rw [hpc] at houter
  cases houter

theorem Inv.sendto (h : Inv cfg s) (hcapacity : 0 < capacity) (hpc : s.client.pc = .send) (hret : s.ret = none) (r : Int)
    : Inv cfg (s.sendto capacity r) := by
  obtain ⟨hnetwork, htaken, hbound⟩ := h.quiet hpc hret
  have hturn := h.turn hpc hret
  have hbalance := h.balance
  have hzero : s.uncounted = 0 := by
    unfold uncounted
    rw [hret]
  unfold FlowControl.sendto
  split
  . next hr =>
    have hspace : s.bound = true ∧ s.network.length < capacity := by
      rw [hnetwork]
      exact ⟨hbound, hcapacity⟩
    rw [if_pos hspace]
    have hone : uncounted { s with
        ret := some r
        accepted := s.accepted ++ [s.client.pkt]
        network := s.network ++ [s.client.pkt] } = 1 := if_pos hr
    refine ⟨h.loop, h.waiting, h.bound, fun _ => hpc, ?_, fun _ hnone => (nomatch hnone), ?_, h.dropped, ?_, ?_, h.pushes,
      h.done, h.waited.mono rfl rfl rfl (fun hdone => ⟨hdone, rfl⟩) (Nat.le_refl _) id, h.stop⟩
    . rw [hone]
      dsimp only
      rw [List.length_append, List.length_singleton]
      omega
    . rw [hone]
      exact Nat.succ_le_succ hturn
    . intro datagram hmem
      dsimp only at hmem
      rw [hnetwork, List.nil_append, List.mem_singleton] at hmem
      rw [hmem]
      exact h.loop.pkt_ne_nil hpc
    . dsimp only
      rw [List.map_append, List.map_append, h.order, List.append_assoc, List.append_assoc]
  . next hr =>
    have hnone : uncounted { s with ret := some r } = 0 := if_neg hr
    refine ⟨h.loop, h.waiting, h.bound, fun _ => hpc, ?_, fun _ hnone => (nomatch hnone), ?_, h.dropped, h.nonempty, h.order,
      h.pushes, h.done, h.waited.mono rfl rfl rfl (fun hdone => ⟨hdone, rfl⟩) (Nat.le_refl _) id, h.stop⟩
    . rw [hnone]
      dsimp only
      omega
    . rw [hnone]
      dsimp only
      omega

theorem Inv.fetchAdd (h : Inv cfg s) (hpack : 1 ≤ cfg.packMax) (hfc : cfg.fc = true) {r : Int} (hret : s.ret = some r)
    (hstep : ({ s with ret := none }).move cfg (.sendto r) = some s') : Inv cfg s' := by
  unfold FlowControl.move at hstep
  split at hstep
  . next client hclient =>
    cases hstep
    have hloop := h.loop.step hpack hclient
    cases PackingLoop.moved hclient with
    | sendto r hpc =>
      have hpc : s.client.pc = .send := hpc
      have hrunning := h.running (by simp [hpc])
      have hsent : (s.client.sendto cfg r).sent = s.client.sent + s.uncounted := by
        unfold PackingLoop.sendto uncounted
        rw [hret]
        dsimp only
        by_cases hr : 0 < r
        . rw [if_pos ⟨hr, hfc⟩, if_pos hr]
        . rw [if_neg (fun h => hr h.1), if_neg hr, Nat.add_zero]
      have hwaiting : s.waiting = false := by
        by_contra hne
        have houter := h.waiting (Bool.eq_true_of_not_eq_false hne)
        rw [hpc] at houter
        cases houter
      refine ⟨hloop, fun _ => rfl, h.bound, fun hne => absurd rfl hne, ?_, fun hsend => (nomatch hsend), ?_, h.dropped,
        h.nonempty, h.order, h.pushes, ?_, ?_, ?_⟩
      . show _ = (s.client.sendto cfg r).sent + 0
        rw [hsent]
        exact h.balance
      . show (s.client.sendto cfg r).sent + 0 ≤ _
        rw [hsent]
        exact h.ahead
      . intro hdone
        dsimp only at hdone
        rw [hrunning.1] at hdone
        cases hdone
      . have hsame : s.done = true →
            s.done = true ∧ (s.client.sendto cfg r).sent = s.client.sent := by
          intro hdone
          rw [hrunning.1] at hdone
          cases hdone
        have hwaited : s.main.Waited { s with ret := none, client := s.client.sendto cfg r } :=
          h.waited.mono rfl rfl rfl hsame (Nat.le_refl _) id
        exact hwaited
      . intro hstop
        dsimp only at hstop
        rw [hrunning.2] at hstop
        cases hstop
  . cases hstep

theorem Inv.stepMain (h : Inv cfg s) (hstep : s.stepMain = some s') : Inv cfg s' := by
  have hwaited := h.waited
  unfold FlowControl.stepMain at hstep
  split at hstep
  . next hpc =>
    rw [hpc] at hwaited
    cases hstep
    exact ⟨h.loop, h.waiting, fun _ => rfl, h.returned, h.balance, h.turn, h.ahead, h.dropped, h.nonempty, h.order,
      h.pushes, h.done, ⟨hwaited, rfl⟩, h.stop⟩
  . next hpc =>
    rw [hpc] at hwaited
    cases hstep
    exact ⟨h.loop, h.waiting, fun _ => hwaited.2, h.returned, h.balance, h.turn, h.ahead, h.dropped, h.nonempty, h.order,
      h.pushes, h.done, rfl, h.stop⟩
  . next hpc =>
    rw [hpc] at hwaited
    cases hstep
    refine ⟨h.loop, h.waiting, h.bound, h.returned, h.balance, h.turn, h.ahead, h.dropped, h.nonempty, h.order, h.pushes,
      h.done, ?_, h.stop⟩
    cases hdone : s.done with
    | false => exact hwaited
    | true => exact ⟨hwaited, rfl⟩
  . next hpc =>
    rw [hpc] at hwaited
    cases hstep
    exact ⟨h.loop, h.waiting, h.bound, h.returned, h.balance, h.turn, h.ahead, h.dropped, h.nonempty, h.order, h.pushes,
      h.done, ⟨hwaited.1, hwaited.2, Nat.le_refl _⟩, h.stop⟩
  . next received hpc =>
    rw [hpc] at hwaited
    cases hstep
    refine ⟨h.loop, h.waiting, h.bound, h.returned, h.balance, h.turn, h.ahead, h.dropped, h.nonempty, h.order, h.pushes,
      h.done, ?_, h.stop⟩
    by_cases hlt : received < s.client.sent
    . rw [if_pos hlt]
      exact ⟨hwaited.1, hwaited.2.1⟩
    . rw [if_neg hlt]
      exact ⟨hwaited.2.1, Nat.le_trans (Nat.le_of_not_lt hlt) hwaited.2.2⟩
  . next hpc =>
    rw [hpc] at hwaited
    cases hstep
    exact ⟨h.loop, h.waiting, h.bound, h.returned, h.balance, h.turn, h.ahead, h.dropped, h.nonempty, h.order, h.pushes,
      h.done, rfl, fun _ => hwaited⟩
  . next hpc =>
    rw [hpc] at hwaited
    split at hstep
    . next hrecv =>
      cases hstep
      exact ⟨h.loop, h.waiting, h.bound, h.returned, h.balance, h.turn, h.ahead, h.dropped, h.nonempty, h.order, h.pushes,
        h.done, ⟨hwaited, hrecv⟩, h.stop⟩
    . cases hstep
  . cases hstep

theorem length_take_pos {datagram : List UInt8} (hne : datagram ≠ []) : (datagram.take BUF_SIZE).length > 0 := by
  rw [List.length_take]
  have hlength := List.length_pos_of_ne_nil hne
  unfold BUF_SIZE
  omega

theorem Inv.stepRecv (h : Inv cfg s) (hstep : s.stepRecv = some s') : Inv cfg s' := by
  have hbalance := h.balance
  have horder := h.order
  have hpushes := h.pushes
  have hwaited : ∀ pc : RecvPc, s.recv ≠ .finished → s.main.Waited { s with recv := pc } := by
    intro pc hne
    refine h.waited.mono rfl rfl rfl (fun hdone => ⟨hdone, rfl⟩) (Nat.le_refl _) ?_
    exact fun hfinished => absurd hfinished hne
  unfold FlowControl.stepRecv at hstep
  split at hstep
  . next hpc =>
    rw [hpc] at hbalance horder hpushes
    cases hstep
    refine ⟨h.loop, h.waiting, h.bound, h.returned, ?_, h.turn, h.ahead, h.dropped, h.nonempty, ?_, ?_, h.done,
      hwaited _ (by simp [hpc]), h.stop⟩
    all_goals
      dsimp only
      split
      . assumption
      . assumption
  . next hpc =>
    rw [hpc] at hbalance horder hpushes
    split at hstep
    . cases hstep
    . next datagram network hnetwork =>
      cases hstep
      have hne : datagram ≠ [] := by
        apply h.nonempty
        rw [hnetwork]
        exact List.mem_cons_self
      rw [if_pos (length_take_pos hne)]
      rw [hnetwork] at hbalance horder
      refine ⟨h.loop, h.waiting, h.bound, h.returned, ?_, h.turn, h.ahead, h.dropped, ?_, ?_, hpushes, h.done,
        hwaited _ (by simp [hpc]), h.stop⟩
      . rw [List.length_cons] at hbalance
        show s.received + 1 + network.length = s.client.sent + s.uncounted
        have htaken : (RecvPc.taken .recv).length = 0 := rfl
        omega
      . intro d hmem
        apply h.nonempty
        rw [hnetwork]
        exact List.mem_cons_of_mem _ hmem
      . rw [horder, List.map_cons]
        show _ = s.handed ++ [datagram.take BUF_SIZE] ++ network.map (List.take BUF_SIZE)
        rw [List.append_assoc, List.append_assoc]
        rfl
  . next packet hpc =>
    rw [hpc] at hbalance horder hpushes
    cases hstep
    refine ⟨h.loop, h.waiting, h.bound, h.returned, ?_, ?_, ?_, h.dropped, h.nonempty, ?_, ?_, h.done, ?_, ?_⟩
    . show s.received + 1 + 0 + s.network.length = s.client.sent + s.uncounted
      exact hbalance
    . exact fun hsend hret => Nat.le_succ_of_le (h.turn hsend hret)
    . exact Nat.le_succ_of_le h.ahead
    . show _ = s.handed ++ [packet] ++ [] ++ s.network.map (List.take BUF_SIZE)
      rw [List.append_nil]
      exact horder
    . show s.pushed ++ (MoldUdpUnpacker.feed packet).1 = _
      rw [List.flatMap_append, List.flatMap_singleton, ← hpushes]
      show _ = s.pushed ++ [] ++ _
      rw [List.append_nil]
    . refine h.waited.mono rfl rfl rfl (fun hdone => ⟨hdone, rfl⟩) (Nat.le_succ _) ?_
      intro hfinished
      rw [hpc] at hfinished
      cases hfinished
    . exact fun hstop => ⟨(h.stop hstop).1, Nat.le_succ_of_le (h.stop hstop).2⟩
  . next hpc =>
    rw [hpc] at hbalance horder hpushes
    cases hstep
    exact ⟨h.loop, h.waiting, h.bound, h.returned, hbalance, h.turn, h.ahead, h.dropped, h.nonempty, horder, hpushes,
      h.done, hwaited _ (by simp [hpc]), h.stop⟩
  . next m messages hpc =>
    rw [hpc] at hbalance horder hpushes
    cases hstep
    refine ⟨h.loop, h.waiting, h.bound, h.returned, hbalance, h.turn, h.ahead, h.dropped, h.nonempty, horder, ?_, h.done,
      ?_, h.stop⟩
    . rw [← hpushes]
      show s.pushed ++ [m] ++ messages = s.pushed ++ m :: messages
      rw [List.append_assoc]
      rfl
    . refine h.waited.mono rfl rfl rfl (fun hdone => ⟨hdone, rfl⟩) (Nat.le_refl _) ?_
      intro hfinished
      rw [hpc] at hfinished
      cases hfinished
  . cases hstep

theorem Inv.fails (h : Inv cfg s) (hpc : s.recv = .recv) : Inv cfg { s with recv := .finished } := by
  have hbalance := h.balance
  have horder := h.order
  have hpushes := h.pushes
  rw [hpc] at hbalance horder hpushes
  refine ⟨h.loop, h.waiting, h.bound, h.returned, hbalance, h.turn, h.ahead, h.dropped, h.nonempty, horder, hpushes, h.done,
    ?_, h.stop⟩
  exact h.waited.mono rfl rfl rfl (fun hdone => ⟨hdone, rfl⟩) (Nat.le_refl _) fun _ => rfl

theorem Inv.step (h : Inv cfg s) (hpack : 1 ≤ cfg.packMax) (hfc : cfg.fc = true) (hcapacity : 0 < capacity) {l : Label}
    (hstep : FlowControl.step cfg capacity s l = some s') : Inv cfg s' := by
  cases l with
  | loadReady =>
    unfold FlowControl.step at hstep
    dsimp only at hstep
    split at hstep
    . next hwaiting =>
      cases hstep
      refine ⟨h.loop, fun _ => h.waiting hwaiting, ?_, h.returned, h.balance, h.turn, h.ahead, h.dropped, h.nonempty, h.order,
        h.pushes, h.done, h.waited.mono rfl rfl rfl (fun hdone => ⟨hdone, rfl⟩) (Nat.le_refl _) id, h.stop⟩
      intro hready
      apply h.bound
      right
      cases hready with
      | inl hpassed => exact Eq.mp (Bool.not_eq_false' s.ready) hpassed
      | inr hready => exact hready
    . cases hstep
  | run =>
    unfold FlowControl.step at hstep
    dsimp only at hstep
    split at hstep
    . cases hstep
    . next hwaiting => exact h.move hpack hfc rfl (Bool.eq_false_of_not_eq_true hwaiting) hstep
  | rand r =>
    unfold FlowControl.step at hstep
    dsimp only at hstep
    split at hstep
    . cases hstep
    . next hwaiting => exact h.move hpack hfc rfl (Bool.eq_false_of_not_eq_true hwaiting) hstep
  | loadReceived => exact h.loadReceived hpack hstep
  | sendto r =>
    unfold FlowControl.step at hstep
    dsimp only at hstep
    split at hstep
    . next hpc =>
      cases hstep
      exact h.sendto hcapacity hpc.1 hpc.2 r
    . cases hstep
  | fetchAdd =>
    unfold FlowControl.step at hstep
    dsimp only at hstep
    split at hstep
    . next r hret => exact h.fetchAdd hpack hfc hret hstep
    . cases hstep
  | storeDone =>
    unfold FlowControl.step at hstep
    dsimp only at hstep
    split at hstep
    . next hpc =>
      cases hstep
      exact ⟨h.loop, h.waiting, h.bound, h.returned, h.balance, h.turn, h.ahead, h.dropped, h.nonempty, h.order, h.pushes,
        fun _ => hpc, h.waited.mono rfl rfl rfl (fun _ => ⟨rfl, rfl⟩) (Nat.le_refl _) id,
        fun hstop => ⟨rfl, (h.stop hstop).2⟩⟩
    . cases hstep
  | main => exact h.stepMain hstep
  | recv => exact h.stepRecv hstep
  | fails =>
    unfold FlowControl.step at hstep
    dsimp only at hstep
    split at hstep
    . next hpc =>
      cases hstep
      exact h.fails hpc
    . cases hstep

theorem Inv.run (hpack : 1 ≤ cfg.packMax) (hfc : cfg.fc = true) (hcapacity : 0 < capacity) {ls : List Label}
    (hexec : Run.exec (FlowControl.step cfg capacity) .start ls = some s) : Inv cfg s := by
  apply Run.exec_keeps _ _ hexec
  . intro s l s' h hstep
    exact h.step hpack hfc hcapacity hstep
  . exact Inv.start cfg

/--
Nothing is lost between the processes: the client is one packet ahead of the trader at the most and one behind in its
count, and the trader takes the packets that `sendto` has accepted in their order. When it stops it has taken all.
-/
structure Lossless (s : FlowControl) : Prop where
  ahead : s.client.sent ≤ s.received + 1
  behind : s.received ≤ s.client.sent + 1
  single : s.recv.taken.length + s.network.length ≤ 1
  dropped : s.dropped = []
  order : s.accepted.map (List.take BUF_SIZE) = s.handed ++ s.recv.taken ++ s.network.map (List.take BUF_SIZE)
  stop : s.stop = true → s.handed = s.accepted.map (List.take BUF_SIZE)

theorem Inv.all_taken (h : Inv cfg s) (hdone : s.done = true) (hle : s.client.sent ≤ s.received)
    : s.ret = none ∧ s.recv.taken = [] ∧ s.network = [] := by
  have hpc := h.done hdone
  have hret : s.ret = none := by
    by_contra hne
    have hsend := h.returned hne
    rw [hpc] at hsend
    cases hsend
  have hzero : s.uncounted = 0 := by
    unfold uncounted
    rw [hret]
  have hbalance := h.balance
  exact ⟨hret, List.eq_nil_of_length_eq_zero (by omega), List.eq_nil_of_length_eq_zero (by omega)⟩

theorem Inv.handed (h : Inv cfg s) (hdone : s.done = true) (hle : s.client.sent ≤ s.received)
    : s.handed = s.accepted.map (List.take BUF_SIZE) := by
  obtain ⟨_, htaken, hnetwork⟩ := h.all_taken hdone hle
  have horder := h.order
  rw [htaken, hnetwork, List.append_nil, List.map_nil, List.append_nil] at horder
  exact horder.symm

theorem uncounted_le (s : FlowControl) : s.uncounted ≤ 1 := by
  unfold uncounted
  split
  . split
    . exact Nat.le_refl _
    . exact Nat.zero_le _
  . exact Nat.zero_le _

/--
Whatever the threads and the kernel do, and whichever calls of `sendto` and `recv` fail, nothing is lost.
-/
theorem lossless (hpack : 1 ≤ cfg.packMax) (hfc : cfg.fc = true) (hcapacity : 0 < capacity) {ls : List Label}
    (hexec : Run.exec (FlowControl.step cfg capacity) .start ls = some s) : Lossless s := by
  have h := Inv.run hpack hfc hcapacity hexec
  have hbalance := h.balance
  have hahead := h.ahead
  have hle := s.uncounted_le
  constructor
  . omega
  . omega
  . omega
  . exact h.dropped
  . exact h.order
  . exact fun hstop => h.handed (h.stop hstop).1 (h.stop hstop).2

/--
A whole replay in packets of one message. The trader counts the first packet before the client does.
-/
def session : List Label :=
  [.main, .main, .recv, .loadReady, .run, .rand 0, .run, .run, .run, .loadReceived, .sendto 40, .recv, .recv, .recv,
    .recv, .recv, .fetchAdd, .run, .rand 0, .run, .run, .run, .run, .run, .loadReceived, .sendto 40, .fetchAdd, .run,
    .storeDone, .main, .main, .main, .main, .recv, .recv, .recv, .recv, .main, .main, .main, .recv, .main,
    .fails, .main]

theorem lossless_trimmed
    : ∃ s, Run.exec (FlowControl.step PackingLoop.trimmed 1) start session = some s ∧ Lossless s := by
  have hsome : (Run.exec (FlowControl.step PackingLoop.trimmed 1) start session).isSome := by decide +kernel
  obtain ⟨s, hexec⟩ := Option.isSome_iff_exists.1 hsome
  exact ⟨s, hexec, lossless (by decide) rfl Nat.one_pos hexec⟩

/--
Every packet of the client fits into a buffer of the trader.
-/
def Fits (cfg : PackingLoop.Config) : Prop :=
  ∀ b ∈ FileWalk.messages cfg.file, 20 + cfg.packMax.toNat * (2 + b.1.length) ≤ BUF_SIZE

instance (cfg : PackingLoop.Config) : Decidable (Fits cfg) := inferInstanceAs (Decidable (∀ b ∈ _, _ ≤ _))

theorem Fits.groups (hfits : Fits cfg) {groups : List (List ItchBody)}
    (hmessages : groups.flatten <+: FileWalk.messages cfg.file)
    (hsmall : ∀ g ∈ groups, g ≠ [] ∧ g.length ≤ cfg.packMax.toNat)
    : ∀ g ∈ groups, 20 + (g.flatMap ReplayClient.message).length ≤ BUF_SIZE ∧ g.length ≤ 65535 := by
  intro g hg
  obtain ⟨hne, hle⟩ := hsmall g hg
  have hmem : ∀ b ∈ g, b ∈ FileWalk.messages cfg.file :=
    fun b hb => hmessages.subset (List.mem_flatten_of_mem hg hb)
  have hpositive : 0 < cfg.packMax.toNat := Nat.lt_of_lt_of_le (List.length_pos_of_ne_nil hne) hle
  have hdiv : ∀ b ∈ g, 2 + b.1.length ≤ (BUF_SIZE - 20) / cfg.packMax.toNat := by
    intro b hb
    have hfit := hfits b (hmem b hb)
    rw [Nat.le_div_iff_mul_le hpositive, Nat.mul_comm]
    omega
  have hlength := ReplayClient.length_messages_le hdiv
  have hbound : g.length * ((BUF_SIZE - 20) / cfg.packMax.toNat) ≤ BUF_SIZE - 20 :=
    Nat.le_trans (Nat.mul_le_mul_right _ hle) (Nat.mul_div_le _ _)
  have hpackMax : cfg.packMax.toNat ≤ BUF_SIZE := by
    obtain ⟨b, hb⟩ := List.exists_mem_of_ne_nil g hne
    have hfit := hfits b (hmem b hb)
    have hmul := Nat.le_mul_of_pos_right cfg.packMax.toNat (Nat.lt_of_lt_of_le (Nat.succ_pos 1) (Nat.le_add_right 2 b.1.length))
    omega
  unfold BUF_SIZE at *
  omega

def returnedPkt (s : FlowControl) : List (List UInt8) :=
  match s.ret with
  | some _ => [s.client.pkt]
  | none => []

/--
If no call of `sendto` fails, all that the client has sent has been accepted.
-/
def Sent (s : FlowControl) : Prop := s.accepted = s.client.packets ++ s.returnedPkt

theorem Sent.move (h : Sent s) (hinv : Inv cfg s) (hfc : cfg.fc = true) {l : PackingLoop.Label} (hl : l.silent = true)
    (hstep : s.move cfg l = some s') : Sent s' := by
  unfold FlowControl.move at hstep
  split at hstep
  . next client hclient =>
    cases hstep
    have hsilent := PackingLoop.silent_of_step hfc hl hclient
    have hret : s.ret = none := by
      by_contra hne
      exact hsilent.send (hinv.returned hne)
    unfold Sent returnedPkt at h ⊢
    rw [hret] at h ⊢
    rw [h, ← hsilent.packets]
  . cases hstep

theorem Sent.stepMain (h : Sent s) (hstep : s.stepMain = some s') : Sent s' := by
  unfold FlowControl.stepMain at hstep
  split at hstep
  case h_7 =>
    split at hstep
    . cases hstep
      exact h
    . cases hstep
  case h_8 => cases hstep
  all_goals
    cases hstep
    exact h

theorem Sent.stepRecv (h : Sent s) (hstep : s.stepRecv = some s') : Sent s' := by
  unfold FlowControl.stepRecv at hstep
  split at hstep
  case h_2 =>
    split at hstep
    . cases hstep
    . cases hstep
      exact h
  case h_6 => cases hstep
  all_goals
    cases hstep
    exact h

theorem Sent.step (h : Sent s) (hinv : Inv cfg s) (hfc : cfg.fc = true) {l : Label} (hl : ∀ r, l = .sendto r → 0 < r)
    (hstep : FlowControl.step cfg capacity s l = some s') : Sent s' := by
  unfold FlowControl.step at hstep
  cases l with
  | loadReady =>
    dsimp only at hstep
    split at hstep
    . cases hstep
      exact h
    . cases hstep
  | run =>
    dsimp only at hstep
    split at hstep
    . cases hstep
    . exact h.move hinv hfc rfl hstep
  | rand r =>
    dsimp only at hstep
    split at hstep
    . cases hstep
    . exact h.move hinv hfc rfl hstep
  | loadReceived =>
    unfold FlowControl.move at hstep
    dsimp only at hstep
    split at hstep
    . next client hclient =>
      cases hstep
      cases PackingLoop.moved hclient with
      | await received hpc =>
        unfold PackingLoop.await
        split
        . exact h
        . exact h
    . cases hstep
  | sendto r =>
    have hr := hl r rfl
    dsimp only at hstep
    split at hstep
    . next hpc =>
      cases hstep
      unfold Sent returnedPkt at h
      rw [hpc.2, List.append_nil] at h
      unfold FlowControl.sendto
      rw [if_pos hr]
      unfold Sent
      split
      . exact congrArg (· ++ [s.client.pkt]) h
      . exact congrArg (· ++ [s.client.pkt]) h
    . cases hstep
  | fetchAdd =>
    unfold FlowControl.move at hstep
    dsimp only at hstep
    split at hstep
    . next r hret =>
      split at hstep
      . next client hclient =>
        cases hstep
        cases PackingLoop.moved hclient with
        | sendto r hpc =>
          unfold Sent returnedPkt at h
          rw [hret] at h
          unfold Sent
          show s.accepted = (s.client.packets ++ [s.client.pkt]) ++ []
          rw [List.append_nil]
          exact h
      . cases hstep
    . cases hstep
  | storeDone =>
    dsimp only at hstep
    split at hstep
    . cases hstep
      exact h
    . cases hstep
  | main => exact h.stepMain hstep
  | recv => exact h.stepRecv hstep
  | fails =>
    dsimp only at hstep
    split at hstep
    . cases hstep
      exact h
    . cases hstep

theorem Sent.sequenced (h : Sent s) (hinv : Inv cfg s)
    : ∃ groups : List (List ItchBody), groups.flatten <+: FileWalk.messages cfg.file ∧
        (∀ g ∈ groups, g ≠ [] ∧ g.length ≤ cfg.packMax.toNat) ∧ s.accepted <+: ReplayClient.sequenced 0 groups := by
  obtain ⟨groups, hmessages, hsmall, hpackets⟩ := hinv.loop.sending
  refine ⟨groups, hmessages, hsmall, ?_⟩
  rw [← hpackets, h]
  cases hret : s.ret with
  | none =>
    have hnil : s.returnedPkt = [] := by
      unfold returnedPkt
      rw [hret]
    rw [hnil, List.append_nil]
    exact List.prefix_append _ _
  | some r =>
    have hpc : s.client.pc = .send := hinv.returned (by simp [hret])
    have hpkt : s.returnedPkt = [s.client.pkt] := by
      unfold returnedPkt
      rw [hret]
    simp only [hpkt, if_pos hpc, List.prefix_rfl]

/--
The byte ring gets the messages of the file in their order and with their numbers, and when the main thread has stopped
it has got all of them.
-/
structure Replayed (cfg : PackingLoop.Config) (s : FlowControl) : Prop where
  pushed : s.pushed <+: ReplayClient.numbered 0 (FileWalk.messages cfg.file)
  stopped : s.main = .stopped → s.pushed = ReplayClient.numbered 0 (FileWalk.messages cfg.file)

theorem Inv.numbered (h : Inv cfg s) (hsent : Sent s) (hfits : Fits cfg) : Replayed cfg s := by
  obtain ⟨groups, hmessages, hsmall, haccepted⟩ := hsent.sequenced h
  have hgroups := hfits.groups hmessages hsmall
  have htake : s.accepted.map (List.take BUF_SIZE) <+: ReplayClient.sequenced 0 groups := by
    have hmap := haccepted.map (List.take BUF_SIZE)
    rwa [ReplayClient.map_take_sequenced fun g hg => (hgroups g hg).1] at hmap
  have hfeed := ReplayClient.feed_sequenced (fun g hg => (hgroups g hg).2) 0
  constructor
  . have hhanded : s.handed <+: ReplayClient.sequenced 0 groups := by
      apply List.IsPrefix.trans _ htake
      rw [h.order, List.append_assoc]
      exact List.prefix_append _ _
    obtain ⟨rest, hrest⟩ := hhanded
    obtain ⟨more, hmore⟩ := hmessages
    rw [← hmore, ReplayClient.numbered_append, ← hfeed, ← hrest, List.flatMap_append, ← h.pushes, List.append_assoc,
      List.append_assoc]
    exact List.prefix_append _ _
  . intro hmain
    have hwaited := h.waited
    rw [hmain] at hwaited
    obtain ⟨hstop, hrecv⟩ := hwaited
    obtain ⟨hdone, hle⟩ := h.stop hstop
    have hhanded := h.handed hdone hle
    obtain ⟨hret, _⟩ := h.all_taken hdone hle
    obtain ⟨groups', hflatten, hpackets, hsmall', _⟩ := h.loop.packed (h.done hdone)
    have hgroups' := hfits.groups (by simp only [hflatten, List.prefix_rfl]) hsmall'
    have hall : s.accepted = ReplayClient.sequenced 0 groups' := by
      unfold Sent returnedPkt at hsent
      rw [hret, List.append_nil] at hsent
      rw [hsent, hpackets]
    have hpushes := h.pushes
    rw [hrecv, hhanded, hall, ReplayClient.map_take_sequenced fun g hg => (hgroups' g hg).1,
      ReplayClient.feed_sequenced fun g hg => (hgroups' g hg).2, hflatten] at hpushes
    rw [← hpushes]
    exact (List.append_nil _).symm

theorem replayed (hpack : 1 ≤ cfg.packMax) (hfc : cfg.fc = true) (hcapacity : 0 < capacity) (hfits : Fits cfg)
    {ls : List Label} (hsent : ∀ r, Label.sendto r ∈ ls → 0 < r)
    (hexec : Run.exec (FlowControl.step cfg capacity) .start ls = some s) : Replayed cfg s := by
  have hboth : Inv cfg s ∧ Sent s := by
    have halong : Run.Along (FlowControl.step cfg capacity) (fun _ l => ∀ r, l = .sendto r → 0 < r) start ls := by
      apply Run.Along.of_forall
      intro l hl _ r heq
      rw [heq] at hl
      exact hsent r hl
    apply Run.exec_inv _ _ halong hexec
    . intro s l s' h hl hstep
      exact ⟨h.1.step hpack hfc hcapacity hstep, h.2.step h.1 hfc hl hstep⟩
    . exact ⟨Inv.start cfg, rfl⟩
  exact hboth.1.numbered hboth.2 hfits

theorem replayed_trimmed
    : ∃ s, Run.exec (FlowControl.step PackingLoop.trimmed 1) start session = some s ∧ s.main = .stopped ∧
        Replayed PackingLoop.trimmed s := by
  have hsome : (Run.exec (FlowControl.step PackingLoop.trimmed 1) start session).isSome := by decide +kernel
  have hmain : (Run.exec (FlowControl.step PackingLoop.trimmed 1) start session).map FlowControl.main = some .stopped := by
    decide +kernel
  obtain ⟨s, hexec⟩ := Option.isSome_iff_exists.1 hsome
  rw [hexec] at hmain
  have hsent : ∀ r, Label.sendto r ∈ session → 0 < r := by
    intro r hr
    simp only [session, List.mem_cons, reduceCtorEq, false_or, or_false, Label.sendto.injEq, List.not_mem_nil] at hr
    omega
  exact ⟨s, hexec, Option.some.inj hmain, replayed (by decide) rfl Nat.one_pos (by decide +kernel) hsent hexec⟩

end FlowControl

end NebulaXTrader
