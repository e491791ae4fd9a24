import NebulaXTrader.Net.SingleReceive

/-!
This module contains the theorem about the path of a single recv: as the thread that receives the reports uses it, no data
is lost or returned twice.
-/

namespace NebulaXTrader

namespace SingleReceiver

variable {s s' : SingleReceiver}

/--
What the call knows about its recv. One that is not `pending` has been returned.
-/
def Phase (s : SingleReceiver) : Prop :=
  match s.pc with
  | .idle => s.outstanding = s.pending.toNat
  | .submitNow _ => s.pending = false ∧ s.outstanding = 0 ∧ s.waited = false
  | .peek _ => s.pending = true ∧ s.outstanding = 1 ∧ s.waited = false
  | .process _ _ => s.pending = true ∧ s.outstanding = (if s.cq = [] then 0 else 1) ∧ s.waited = false
  | .submit _ => s.pending = false ∧ s.outstanding = 0 ∧ s.blocking = true
  | .wait _ => s.outstanding = s.pending.toNat ∧ s.blocking = true
  | .reap _ got _ => s.outstanding = (if got then 0 else s.pending.toNat) ∧ s.blocking = true
  | .copy _ _ => s.pending = false ∧ s.outstanding = 0

/--
There are no timeouts before a call has waited.
-/
structure NoTimeouts (sq : List Sqe) (timers : Nat) (cq : List Cqe) : Prop where
  sq : .timeout ∉ sq
  timers : timers = 0
  cq : ∀ res, .timeout res ∉ cq

structure Inv (s : SingleReceiver) : Prop where
  in_order : s.delivered ++ s.waiting = s.completed.filter (fun x => x ≠ [])
  phase : Phase s
  quiet : s.waited = false → NoTimeouts s.sq s.timers s.cq
  waits : s.waited = true → s.blocking = true
  owned : s.astray = false

theorem Inv.delivers (h : Inv s) : Delivers s := by
  have hphase := h.phase
  unfold Phase at hphase
  have hpending := s.pending.toNat_le
  constructor
  . exact h.in_order
  . split at hphase
    . omega
    . omega
    . omega
    . split at hphase
      . omega
      . omega
    . omega
    . omega
    . split at hphase
      . omega
      . omega
    . omega
  . intro len result hpc
    rw [hpc] at hphase
    exact hphase.2
  . exact h.owned

theorem Inv.start : Inv start := ⟨rfl, rfl, fun _ => ⟨List.not_mem_nil, rfl, fun _ => List.not_mem_nil⟩, nofun, rfl⟩

/-!
What the operations leave as it is.
-/

theorem outstanding_take (s : SingleReceiver) (n : Nat) : (s.take n).outstanding = s.outstanding := by
  have hcount : s.sq.count Sqe.recv = (s.sq.take n).count Sqe.recv + (s.sq.drop n).count Sqe.recv := by
    rw [← List.count_append, List.take_append_drop]
  unfold outstanding take
  dsimp only
  omega

theorem NoTimeouts.take (h : NoTimeouts s.sq s.timers s.cq) (n : Nat)
    : NoTimeouts (s.take n).sq (s.take n).timers (s.take n).cq where
  sq hmem := h.sq (List.mem_of_mem_drop hmem)
  timers := by
    have hcount : (s.sq.take n).count Sqe.timeout = 0 :=
      List.count_eq_zero_of_not_mem (fun hmem => h.sq (List.mem_of_mem_take hmem))
    unfold SingleReceiver.take
    dsimp only
    rw [h.timers, hcount]
  cq := h.cq

theorem flatMap_queued_of_no_recv {cq : List Cqe} (h : cq.countP Cqe.isRecv = 0) : cq.flatMap s.queued = [] := by
  rw [List.flatMap_eq_nil_iff]
  intro e he
  have hnot := List.countP_eq_zero.1 h e he
  cases e with
  | recv res => exact absurd rfl hnot
  | timeout res => rfl

theorem delivered_ret (s : SingleReceiver) (n : Int) (out : List UInt8)
    : (s.ret n out).delivered = s.delivered ++ if 0 < n then [out] else [] := by
  unfold delivered SingleReceiver.ret
  dsimp only
  rw [List.filter_append, List.map_append]
  by_cases hpos : 0 < n
  . simp [hpos]
  . simp [hpos]

theorem Inv.ret (h : Inv s) {n : Int} {out : List UInt8} {p : Bool} (hfound : s.found = if 0 < n then [out] else [])
    (ho : s.outstanding = p.toNat) : Inv ({ s with pending := p }.ret n out) := by
  refine ⟨?_, ho, h.quiet, h.waits, h.owned⟩
  have horder := h.in_order
  unfold waiting at horder
  rw [hfound, ← List.append_assoc, ← delivered_ret] at horder
  exact horder

theorem Inv.call (h : Inv s) (hpc : s.pc = .idle) (len : Nat) : Inv (s.call len) := by
  have hphase := h.phase
  unfold Phase at hphase
  rw [hpc] at hphase
  dsimp only at hphase
  have hfound : s.found = [] := by
    unfold found
    rw [hpc]
  have horder := h.in_order
  unfold waiting at horder
  rw [hfound] at horder
  unfold SingleReceiver.call
  split
  . exact h.ret hfound hphase
  . split
    . next hblocking =>
      have hwaited : s.waited = false := by
        by_contra hwaited
        rw [h.waits (Bool.eq_true_of_not_eq_false hwaited)] at hblocking
        cases hblocking
      split
      . next hpending =>
        refine ⟨horder, ⟨hpending, ?_, hwaited⟩, h.quiet, h.waits, h.owned⟩
        rw [hpending] at hphase
        exact hphase
      . next hpending =>
        have hpending := Bool.eq_false_of_not_eq_true hpending
        refine ⟨horder, ⟨hpending, ?_, hwaited⟩, h.quiet, h.waits, h.owned⟩
        rw [hpending] at hphase
        exact hphase
    . next hblocking =>
      have hblocking := Bool.eq_true_of_not_eq_false hblocking
      split
      . exact ⟨horder, ⟨hphase, hblocking⟩, h.quiet, h.waits, h.owned⟩
      . next hpending =>
        have hpending := Bool.eq_false_of_not_eq_true hpending
        refine ⟨horder, ⟨hpending, ?_, hblocking⟩, h.quiet, h.waits, h.owned⟩
        rw [hpending] at hphase
        exact hphase

theorem Inv.setBlocking (h : Inv s) (hpc : s.pc = .idle) {b : Bool} (hb : b = false → s.waited = false)
    : Inv { s with blocking := b } := by
  have hphase := h.phase
  unfold Phase at hphase
  rw [hpc] at hphase
  refine ⟨h.in_order, ?_, h.quiet, ?_, h.owned⟩
  . unfold Phase
    rw [hpc]
    exact hphase
  . intro hwaited
    by_contra hnot
    rw [hb (Bool.eq_false_of_not_eq_true hnot)] at hwaited
    cases hwaited

theorem NoTimeouts.recv {sq : List Sqe} {timers : Nat} {cq : List Cqe} (h : NoTimeouts sq timers cq)
    : NoTimeouts (sq ++ [.recv]) timers cq := by
  refine ⟨?_, h.timers, h.cq⟩
  intro hmem
  cases List.mem_append.1 hmem with
  | inl hold => exact h.sq hold
  | inr hnew => cases List.mem_singleton.1 hnew

theorem outstanding_prepare (s : SingleReceiver) : s.prepare.outstanding = s.outstanding + 1 := by
  unfold outstanding prepare
  dsimp only
  rw [List.count_append, List.count_singleton_self]
  omega

theorem Inv.astray_prepare (h : Inv s) (howns : s.hasBuf) : s.prepare.astray = false := by
  unfold prepare
  dsimp only
  rw [h.owned, howns]
  rfl

theorem Inv.submitNow (h : Inv s) {len : Nat} (hpc : s.pc = .submitNow len) {sqe : Bool} {taken : Option Nat}
    (hclean : sqe = true → taken.isSome ∧ s.Owns) : Inv (s.submitNow len sqe taken) := by
  have hphase := h.phase
  unfold Phase at hphase
  rw [hpc] at hphase
  obtain ⟨hpending, hout, hwaited⟩ := hphase
  have hfound : s.found = [] := by
    unfold found
    rw [hpc]
  have horder := h.in_order
  unfold waiting at horder
  rw [hfound] at horder
  unfold SingleReceiver.submitNow
  split
  . next hsqe =>
    obtain ⟨htaken, howns⟩ := hclean hsqe
    unfold Owns at howns
    rw [hpc] at howns
    obtain ⟨n, rfl⟩ := Option.isSome_iff_exists.1 htaken
    refine ⟨horder, ⟨rfl, ?_, hwaited⟩, ?_, h.waits, h.astray_prepare howns⟩
    . change (s.prepare.take n).outstanding = 1
      rw [outstanding_take, outstanding_prepare, hout]
    . intro _
      exact NoTimeouts.take (s := s.prepare) (h.quiet hwaited).recv n
  . have hidle : s.outstanding = s.pending.toNat := by
      rw [hout, hpending]
      rfl
    exact h.ret hfound hidle

theorem Inv.submit (h : Inv s) {len : Nat} (hpc : s.pc = .submit len) {sqe : Bool} (howns : sqe = true → s.Owns)
    : Inv (s.submit len sqe) := by
  have hphase := h.phase
  unfold Phase at hphase
  rw [hpc] at hphase
  obtain ⟨hpending, hout, hblocking⟩ := hphase
  have hfound : s.found = [] := by
    unfold found
    rw [hpc]
  have horder := h.in_order
  unfold waiting at horder
  rw [hfound] at horder
  unfold SingleReceiver.submit
  split
  . next hsqe =>
    have howns := howns hsqe
    unfold Owns at howns
    rw [hpc] at howns
    refine ⟨horder, ⟨?_, hblocking⟩, fun hwaited => (h.quiet hwaited).recv, h.waits, h.astray_prepare howns⟩
    change s.prepare.outstanding = 1
    rw [outstanding_prepare, hout]
  . have hidle : s.outstanding = s.pending.toNat := by
      rw [hout, hpending]
      rfl
    exact h.ret hfound hidle

theorem Inv.take (h : Inv s) (n : Nat) : Inv (s.take n) := by
  refine ⟨h.in_order, ?_, fun hwaited => (h.quiet hwaited).take n, h.waits, h.owned⟩
  have hphase := h.phase
  unfold Phase at hphase ⊢
  rw [outstanding_take]
  exact hphase

theorem Inv.timer (h : Inv s) {len : Nat} (hpc : s.pc = .wait len)
    : Inv { s with sq := s.sq ++ [.timeout], waited := true } := by
  have hphase := h.phase
  unfold Phase at hphase
  rw [hpc] at hphase
  have hout : outstanding { s with sq := s.sq ++ [.timeout], waited := true } = s.outstanding := by
    unfold outstanding
    dsimp only
    rw [List.count_append]
    rfl
  refine ⟨h.in_order, ?_, nofun, fun _ => hphase.2, h.owned⟩
  unfold Phase
  rw [hout]
  dsimp only
  rw [hpc]
  exact hphase

theorem Inv.awaited (h : Inv s) {len : Nat} (hpc : s.pc = .wait len)
    : Inv { s with pc := .reap len false 0 } ∧ Inv { s with pc := .wait len } ∧ Inv (s.ret (-1) []) := by
  have hphase := h.phase
  unfold Phase at hphase
  rw [hpc] at hphase
  have hfound : s.found = [] := by
    unfold found
    rw [hpc]
  have horder := h.in_order
  unfold waiting at horder
  rw [hfound] at horder
  refine ⟨⟨horder, hphase, h.quiet, h.waits, h.owned⟩, ⟨horder, hphase, h.quiet, h.waits, h.owned⟩, ?_⟩
  exact h.ret hfound hphase.1

theorem Inv.wait (h : Inv s) {len : Nat} (hpc : s.pc = .wait len) (timer : Bool) (n : Nat) (r : Waited)
    : Inv (s.wait len timer n r) := by
  unfold SingleReceiver.wait
  cases timer with
  | true =>
    obtain ⟨hready, hagain, hfailed⟩ := ((h.timer hpc).take n).awaited hpc
    cases r with
    | ready => exact hready
    | again => exact hagain
    | failed => exact hfailed
  | false =>
    obtain ⟨hready, hagain, hfailed⟩ := (h.take n).awaited hpc
    cases r with
    | ready => exact hready
    | again => exact hagain
    | failed => exact hfailed

theorem chunk_of_neg {res : Int} (h : ¬ 0 ≤ res) : s.chunk res = [] := by
  unfold chunk
  rw [if_neg]
  omega

theorem Inv.process (h : Inv s) {len : Nat} {result : Int} (hpc : s.pc = .process len result)
    : Inv (s.process len result) := by
  have hphase := h.phase
  have horder := h.in_order
  unfold Phase at hphase
  unfold waiting found at horder
  rw [hpc] at hphase horder
  dsimp only at hphase horder
  obtain ⟨hpending, hout, hwaited⟩ := hphase
  unfold SingleReceiver.process
  split
  . next res cq hcq =>
    have hmem : Cqe.timeout res ∈ s.cq := by
      rw [hcq]
      exact List.mem_cons_self
    exact absurd hmem ((h.quiet hwaited).cq res)
  . next res cq hcq =>
    -- there is only this one
    rw [hcq, if_neg (List.cons_ne_nil _ _)] at hout horder
    unfold outstanding at hout
    rw [hcq, List.countP_cons_of_pos rfl] at hout
    have hnil : cq = [] := by
      apply List.eq_nil_iff_forall_not_mem.2
      intro e he
      have hnot := List.countP_eq_zero.1 (show cq.countP Cqe.isRecv = 0 by omega) e he
      cases e with
      | recv res => exact hnot rfl
      | timeout res =>
        apply (h.quiet hwaited).cq res
        rw [hcq]
        exact List.mem_cons_of_mem _ he
    subst hnil
    refine ⟨horder, ⟨hpending, ?_, hwaited⟩, ?_, h.waits, h.owned⟩
    . unfold outstanding
      dsimp only
      rw [if_pos rfl, List.countP_nil]
      omega
    . intro _
      exact ⟨(h.quiet hwaited).sq, (h.quiet hwaited).timers, fun _ => List.not_mem_nil⟩
  . next hcq =>
    rw [if_pos hcq] at hout horder
    have hfound : s.found = s.chunk result := by
      unfold found
      rw [hpc]
      exact if_pos hcq
    dsimp only
    split
    . exact ⟨horder, ⟨rfl, hout⟩, h.quiet, h.waits, h.owned⟩
    . next hneg =>
      rw [chunk_of_neg hneg] at hfound
      split
      . exact h.ret hfound hout
      . exact h.ret hfound hout

theorem Inv.reap (h : Inv s) {len : Nat} {got : Bool} {result : Int} (hpc : s.pc = .reap len got result)
    : Inv (s.reap len got result) := by
  have hphase := h.phase
  have horder := h.in_order
  unfold Phase at hphase
  unfold waiting found at horder
  rw [hpc] at hphase horder
  dsimp only at hphase horder
  obtain ⟨hout, hblocking⟩ := hphase
  have htail : ∀ {e : Cqe} {cq : List Cqe}, s.cq = e :: cq → s.waited = false → NoTimeouts s.sq s.timers cq := by
    intro e cq hcq hwaited
    refine ⟨(h.quiet hwaited).sq, (h.quiet hwaited).timers, ?_⟩
    intro res hmem
    apply (h.quiet hwaited).cq res
    rw [hcq]
    exact List.mem_cons_of_mem _ hmem
  unfold SingleReceiver.reap
  split
  . next res cq hcq =>
    unfold outstanding at hout
    rw [hcq] at hout horder
    refine ⟨?_, ?_, htail hcq, h.waits, h.owned⟩
    . unfold waiting found
      dsimp only
      rw [hpc]
      exact horder
    . unfold Phase
      dsimp only
      rw [hpc]
      exact ⟨hout, hblocking⟩
  . next res cq hcq =>
    unfold outstanding at hout
    rw [hcq, List.countP_cons_of_pos rfl] at hout
    rw [hcq] at horder
    have hgot : got = false := by
      by_contra hgot
      rw [if_pos (Bool.eq_true_of_not_eq_false hgot)] at hout
      omega
    rw [hgot] at hout horder
    have hpending := s.pending.toNat_le
    refine ⟨horder, ⟨?_, hblocking⟩, htail hcq, h.waits, h.owned⟩
    unfold outstanding
    dsimp only at hout ⊢
    rw [if_neg Bool.false_ne_true] at hout
    rw [if_pos rfl]
    omega
  . next hcq =>
    have hfound : s.found = if got then s.chunk result else [] := by
      unfold found
      rw [hpc]
    split
    . next hgot =>
      rw [hgot] at hfound hout horder
      split
      . exact h.ret hfound hout
      . exact ⟨horder, ⟨hout, hblocking⟩, h.quiet, h.waits, h.owned⟩
    . next hgot =>
      rw [Bool.eq_true_of_not_eq_false hgot] at hfound hout horder
      dsimp only
      split
      . exact ⟨horder, ⟨rfl, hout⟩, h.quiet, h.waits, h.owned⟩
      . next hneg =>
        rw [if_pos rfl, chunk_of_neg hneg] at hfound horder
        split
        . exact h.ret hfound hout
        . split
          . exact ⟨horder, ⟨hout, hblocking⟩, h.quiet, h.waits, h.owned⟩
          . exact h.ret hfound hout

theorem Inv.run (h : Inv s) (hfits : s.pc.Fits) (howns : s.Owns) (hrun : s.run = some s') : Inv s' := by
  have hphase := h.phase
  have horder := h.in_order
  unfold Phase at hphase
  unfold waiting at horder
  unfold SingleReceiver.run at hrun
  split at hrun
  . next len hpc =>
    cases hrun
    rw [hpc] at hphase
    have hfound : s.found = [] := by
      unfold found
      rw [hpc]
    obtain ⟨hpending, hout, hwaited⟩ := hphase
    have hidle : s.outstanding = s.pending.toNat := by
      rw [hout, hpending]
      rfl
    split
    . exact h.ret hfound hidle
    . next hcq =>
      rw [hfound] at horder
      refine ⟨?_, ⟨hpending, ?_, hwaited⟩, h.quiet, h.waits, h.owned⟩
      . unfold waiting found
        dsimp only
        rw [if_neg hcq]
        exact horder
      . rw [if_neg hcq]
        exact hout
  . next hpc =>
    cases hrun
    exact h.process hpc
  . next hpc =>
    cases hrun
    exact h.reap hpc
  . next len result hpc =>
    unfold Owns at howns
    rw [hpc] at hphase hfits howns
    obtain ⟨hpending, hout⟩ := hphase
    split at hrun
    . cases hrun
      have hmin : min result.toNat len = result.toNat := Nat.min_eq_left hfits
      have hfound : s.found = if 0 < (result.toNat : Int) then [s.buf.take result.toNat] else [] := by
        unfold found chunk
        rw [hpc]
        dsimp only
        by_cases hpos : 0 < result
        . rw [if_pos hpos, if_pos (by omega)]
        . rw [if_neg hpos, if_neg (by omega)]
      rw [hmin]
      apply h.ret hfound
      rw [hout, hpending]
      rfl
    . next hnone => exact absurd howns hnone
  . cases hrun

theorem Inv.stop (h : Inv s) : Inv { s with running := false, hasBuf := false } :=
  ⟨h.in_order, h.phase, h.quiet, h.waits, h.owned⟩

/-!
The steps of the kernel.
-/

theorem Inv.inflight (h : Inv s) (hin : 0 < s.inflight)
    : (∀ s' : SingleReceiver, s'.pc = s.pc → s'.found = []) ∧ s.cq.countP Cqe.isRecv = 0 ∧
        ∀ len result, s.pc ≠ .process len result := by
  have hphase := h.phase
  have hpending := s.pending.toNat_le
  have hsingle : s.outstanding ≤ 1 := h.delivers.single
  unfold outstanding at hsingle
  have hnone : s.cq.countP Cqe.isRecv = 0 := by omega
  have hout : 0 < s.outstanding := by
    unfold outstanding
    omega
  have hpc : ∀ len result, s.pc ≠ .process len result := by
    intro len result hpc
    unfold Phase at hphase
    rw [hpc] at hphase
    obtain ⟨_, hcq, hwaited⟩ := hphase
    split at hcq
    . omega
    . next hne =>
      obtain ⟨e, he⟩ := List.exists_mem_of_ne_nil _ hne
      have hnot := List.countP_eq_zero.1 hnone e he
      cases e with
      | recv res => exact hnot rfl
      | timeout res => exact (h.quiet hwaited).cq res he
  refine ⟨?_, hnone, hpc⟩
  intro s' hsame
  unfold Phase at hphase
  unfold found
  rw [hsame]
  split
  . next hprocess => exact absurd hprocess (hpc _ _)
  . next got _ hreap =>
    rw [hreap] at hphase
    cases got with
    | false => rfl
    | true =>
      rw [hphase.1] at hout
      cases hout
  . next hcopy =>
    rw [hcopy] at hphase
    omega
  . rfl

theorem Phase.kernel (h : Phase s) (hpc : s'.pc = s.pc) (hpending : s'.pending = s.pending)
    (hblocking : s'.blocking = s.blocking) (hwaited : s'.waited = s.waited) (hout : s'.outstanding = s.outstanding)
    (hprocess : ∀ len result, s.pc ≠ .process len result) : Phase s' := by
  unfold Phase at h ⊢
  rw [hpc, hpending, hblocking, hwaited, hout]
  split
  . next hidle =>
    rw [hidle] at h
    exact h
  . next hsubmit =>
    rw [hsubmit] at h
    exact h
  . next hpeek =>
    rw [hpeek] at h
    exact h
  . next hloop => exact absurd hloop (hprocess _ _)
  . next hsubmit =>
    rw [hsubmit] at h
    exact h
  . next hwait =>
    rw [hwait] at h
    exact h
  . next hreap =>
    rw [hreap] at h
    exact h
  . next hcopy =>
    rw [hcopy] at h
    exact h

theorem found_of_not_process (hpc : s'.pc = s.pc) (hbuf : s'.buf = s.buf)
    (hprocess : ∀ len result, s.pc ≠ .process len result) : s'.found = s.found := by
  unfold found chunk
  rw [hpc, hbuf]
  split
  . next hloop => exact absurd hloop (hprocess _ _)
  . rfl
  . rfl
  . rfl

theorem NoTimeouts.completed {sq : List Sqe} {timers : Nat} {cq : List Cqe} (h : NoTimeouts sq timers cq) (res : Int)
    : NoTimeouts sq timers (cq ++ [.recv res]) := by
  refine ⟨h.sq, h.timers, ?_⟩
  intro res' hmem
  cases List.mem_append.1 hmem with
  | inl hold => exact h.cq res' hold
  | inr hnew => cases List.mem_singleton.1 hnew

theorem outstanding_completed (h : s'.sq = s.sq) (hin : s'.inflight + 1 = s.inflight) {res : Int}
    (hcq : s'.cq = s.cq ++ [.recv res]) : s'.outstanding = s.outstanding := by
  unfold outstanding
  rw [h, hcq, List.countP_append, ← hin]
  change _ + (_ + 1) = _
  omega

theorem Inv.complete (h : Inv s) (hin : 0 < s.inflight) (x : List UInt8) : Inv (s.complete x) := by
  obtain ⟨hfound, hnone, hprocess⟩ := h.inflight hin
  refine ⟨?_, ?_, fun hwaited => (h.quiet hwaited).completed _, h.waits, h.owned⟩
  . have horder := h.in_order
    unfold waiting at horder
    rw [hfound s rfl, flatMap_queued_of_no_recv hnone, List.append_nil, List.append_nil] at horder
    have hqueued : (s.complete x).cq.flatMap (s.complete x).queued = if x = [] then [] else [x] := by
      unfold SingleReceiver.complete
      dsimp only
      rw [List.flatMap_append, flatMap_queued_of_no_recv hnone, List.nil_append, List.flatMap_singleton]
      unfold queued chunk
      dsimp only
      rw [Int.toNat_natCast, List.take_left]
      cases x with
      | nil => rfl
      | cons b x => exact if_pos (by rw [List.length_cons]; omega)
    unfold waiting
    rw [hfound (s.complete x) rfl, List.nil_append, hqueued]
    change s.delivered ++ _ = (s.completed ++ [x]).filter _
    rw [List.filter_append, horder]
    congr 1
    cases x with
    | nil => rfl
    | cons b x => rfl
  . refine h.phase.kernel rfl rfl rfl rfl ?_ hprocess
    exact outstanding_completed rfl (Nat.sub_add_cancel hin) rfl

theorem Inv.fail (h : Inv s) (hin : 0 < s.inflight) {res : Int} (hres : res < 0) : Inv (s.fail res) := by
  obtain ⟨hfound, hnone, hprocess⟩ := h.inflight hin
  refine ⟨?_, ?_, fun hwaited => (h.quiet hwaited).completed _, h.waits, h.owned⟩
  . have horder := h.in_order
    unfold waiting at horder
    rw [hfound s rfl] at horder
    have hqueued : (s.fail res).cq.flatMap (s.fail res).queued = s.cq.flatMap s.queued := by
      change (s.cq ++ [Cqe.recv res]).flatMap s.queued = _
      rw [List.flatMap_append, List.flatMap_singleton]
      change _ ++ s.chunk res = _
      rw [chunk_of_neg (by omega), List.append_nil]
    unfold waiting
    rw [hfound (s.fail res) rfl, hqueued]
    exact horder
  . refine h.phase.kernel rfl rfl rfl rfl ?_ hprocess
    exact outstanding_completed rfl (Nat.sub_add_cancel hin) rfl

theorem Inv.timeout (h : Inv s) (htimers : 0 < s.timers) (res : Int) : Inv (s.timeout res) := by
  have hwaited : s.waited = true := by
    by_contra hnot
    rw [(h.quiet (Bool.eq_false_of_not_eq_true hnot)).timers] at htimers
    exact Nat.not_lt_zero 0 htimers
  have hprocess : ∀ len result, s.pc ≠ .process len result := by
    intro len result hpc
    have hphase := h.phase
    unfold Phase at hphase
    rw [hpc, hwaited] at hphase
    cases hphase.2.2
  refine ⟨?_, ?_, ?_, h.waits, h.owned⟩
  . have horder := h.in_order
    unfold waiting at horder
    have hqueued : (s.timeout res).cq.flatMap (s.timeout res).queued = s.cq.flatMap s.queued := by
      change (s.cq ++ [Cqe.timeout res]).flatMap s.queued = _
      rw [List.flatMap_append, List.flatMap_singleton]
      exact List.append_nil _
    have hfound : (s.timeout res).found = s.found := found_of_not_process rfl rfl hprocess
    unfold waiting
    rw [hfound, hqueued]
    exact horder
  . refine h.phase.kernel rfl rfl rfl rfl ?_ hprocess
    unfold outstanding SingleReceiver.timeout
    dsimp only
    rw [List.countP_append]
    rfl
  . intro hnot
    rw [show s.waited = false from hnot] at hwaited
    cases hwaited

theorem Inv.step (h : Inv s) {l : Label} (hclean : Clean s l) (hstep : step s l = some s') : Inv s' := by
  unfold SingleReceiver.step at hstep
  cases l with
  | setBlocking blocking =>
    dsimp only at hstep
    split at hstep
    . next hpc =>
      cases hstep
      exact h.setBlocking hpc hclean
    . cases hstep
  | call len =>
    dsimp only at hstep
    split at hstep
    . next hpc =>
      cases hstep
      exact h.call hpc len
    . cases hstep
  | submitNow sqe taken =>
    dsimp only at hstep
    split at hstep
    . next hpc =>
      cases hstep
      exact h.submitNow hpc hclean
    . cases hstep
  | submit sqe =>
    dsimp only at hstep
    split at hstep
    . next hpc =>
      cases hstep
      exact h.submit hpc hclean
    . cases hstep
  | wait timer n r =>
    dsimp only at hstep
    split at hstep
    . next hpc =>
      cases hstep
      exact h.wait hpc timer n r
    . cases hstep
  | run => exact h.run hclean.1 hclean.2 hstep
  | stop =>
    cases hstep
    split
    . exact h.stop
    . exact h
  | complete x =>
    dsimp only at hstep
    split at hstep
    . next hin =>
      cases hstep
      exact h.complete hin.1 x
    . cases hstep
  | fail res =>
    dsimp only at hstep
    split at hstep
    . next hin =>
      cases hstep
      exact h.fail hin.1 hin.2
    . cases hstep
  | timeout res =>
    dsimp only at hstep
    split at hstep
    . next htimers =>
      cases hstep
      exact h.timeout htimers res
    . cases hstep

/--
For every interleaving of the steps of `recv` with the kernel and with a `stop` that overtakes no preparation and no copy.
-/
theorem single_delivery {ls : List Label} (hclean : Run.Along SingleReceiver.step Clean SingleReceiver.start ls)
    (hexec : Run.exec SingleReceiver.step SingleReceiver.start ls = some s) : Delivers s := by
  apply Inv.delivers
  apply Run.exec_inv _ Inv.start hclean hexec
  intro s l s' h hgood hstep
  exact h.step hgood hstep

/--
The calls of the thread that receives the reports: one that does not block, then the others. The first one leaves its
recv in the kernel, the second one waits for it, and `stop()` ends the third one.
-/
def drained : List Label :=
  [.setBlocking false, .call 2048, .submitNow true (some 1), .run, .setBlocking true, .call 2048, .wait true 1 .ready,
    .timeout (-62), .run, .run, .wait true 1 .ready, .complete [65, 66], .run, .run, .run, .call 2048, .submit true, .stop,
    .wait true 2 .ready, .timeout (-62), .run, .run]

theorem single_delivery_drained
    : ∃ s, Run.exec SingleReceiver.step SingleReceiver.start drained = some s ∧ s.returns = [(0, []), (2, [65, 66]), (0, [])] ∧
        Delivers s := by
  have hreturns : (Run.exec SingleReceiver.step SingleReceiver.start drained).map SingleReceiver.returns =
      some [(0, []), (2, [65, 66]), (0, [])] := by
    decide +kernel
  obtain ⟨s, hexec, hret⟩ := Option.map_eq_some_iff.1 hreturns
  exact ⟨s, hexec, hret, single_delivery (by decide +kernel) hexec⟩

/--
A timeout that is left over from a call that waits makes one that does not block give up its recv.
-/
def leftOver : List Label :=
  [.call 8, .submit true, .wait true 2 .ready, .complete [65], .run, .run, .run, .timeout 0, .setBlocking false, .call 8,
    .submitNow true (some 1), .run, .run, .run, .run, .call 8, .submitNow true (some 1)]

theorem not_single_delivery
    : ¬ ∀ ls s, Run.exec SingleReceiver.step SingleReceiver.start ls = some s → Delivers s := by
  intro h
  have htwo : (Run.exec SingleReceiver.step SingleReceiver.start leftOver).map outstanding = some 2 := by decide +kernel
  obtain ⟨s, hexec, hout⟩ := Option.map_eq_some_iff.1 htwo
  have hsingle := (h leftOver s hexec).single
  rw [hout] at hsingle
  exact absurd hsingle (by decide)

end SingleReceiver

end NebulaXTrader
