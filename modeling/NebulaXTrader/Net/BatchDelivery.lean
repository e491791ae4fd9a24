import NebulaXTrader.Lib.Run
import NebulaXTrader.Net.Lemmas.BatchReceive

/-!
This module contains the theorem about the batch path: every datagram is returned once, in the order of completion and
with its own length and bytes, and the receiving thread stays in its loop until it is told to stop.
-/

namespace NebulaXTrader

namespace BatchReceiver

open IoUringPoller (MAX_BUFFERS BUF_SIZE)

variable {s s' : BatchReceiver}

def Label.Own (l : Label) : Prop :=
  match l with
  | .begin _ _ => True
  | .call _ => True
  | .run => True
  | .wait _ => True
  | .resubmit _ => True
  | _ => False

/-!
The steps that the thread has still to take until it returns the next datagram.
-/

def rank (s : BatchReceiver) : Nat :=
  match s.pc with
  | .begin => 3 * s.poller.cq.length + 14
  | .idle => if s.poller.readyLen = 0 then 3 * s.poller.cq.length + 13 else 4
  | .loop _ => if s.poller.readyLen = 0 then 3 * s.poller.cq.length + 12 else 3
  | .wait _ => 3 * s.poller.cq.length + 11
  | .reap _ _ _ => 3 * s.poller.cq.length + 10
  | .seen _ _ _ _ => 3 * s.poller.cq.length + 12
  | .store _ _ _ _ => 3 * s.poller.cq.length + 11
  | .take _ => 2
  | .taken _ _ _ => 1
  | .copied _ _ _ _ => 0

/--
A step of the thread that gets it closer to its next return, or is the return.
-/
def Advances (s s' : BatchReceiver) (r : Int × List UInt8) : Prop :=
  (Moved s s' ∧ rank s' < rank s) ∨ s'.delivered = s.delivered ++ [r]

theorem advances_reap {len added : Nat} {sawError : Bool} {r : Int × List UInt8} {rest : List (Int × List UInt8)}
    (hrunning : s.running = true) (hstop : s.stopFlag = false) (hwaiting : s.waiting = r :: rest)
    (hpc : s.pc = .reap len added sawError) (hclean : Clean s .run) : Advances s (s.reap len added sawError) r := by
  have hbuf : pcBuf s.pc = none := by
    rw [hpc]
    rfl
  left
  unfold BatchReceiver.reap
  split
  . next hcq =>
    unfold Clean at hclean
    rw [hpc] at hclean
    split
    . next herror =>
      cases hclean hcq herror with
      | inl h =>
        rw [hstop] at h
        cases h
      | inr h =>
        rw [hrunning] at h
        cases h
    . rw [if_neg (by simp [hrunning])]
      refine ⟨moved_between hbuf rfl, ?_⟩
      -- nothing is left of the completions, so what waits is in the ready queue
      have hready : s.poller.readyLen ≠ 0 := by
        intro hzero
        have hitems : s.poller.readyItems = [] := by
          unfold IoUringPoller.readyItems
          rw [hzero]
          rfl
        unfold waiting at hwaiting
        rw [inHand_of_pcBuf hbuf, inEntry_of_pcBuf hbuf, hcq, hitems] at hwaiting
        cases hwaiting
      unfold rank
      rw [hpc]
      dsimp only
      rw [if_neg hready]
      omega
  . next hcq =>
    refine ⟨moved_reap_timeout hpc hcq, ?_⟩
    unfold rank
    rw [hpc, hcq, List.length_cons]
    dsimp only
    omega
  . next hcq =>
    refine ⟨moved_reap_recv hpc hcq, ?_⟩
    unfold rank
    rw [hpc, hcq, List.length_cons]
    dsimp only
    omega

theorem SameData.readyLen_eq {p p' : IoUringPoller} (h : SameData p p') : p'.readyLen = p.readyLen := by
  have hlength := congrArg List.length h.readyItems
  unfold IoUringPoller.readyItems at hlength
  rwa [CircularQueue.length_items, CircularQueue.length_items] at hlength

theorem step_call (hpc : s.pc = .idle) (hleft : s.left = false) (len : Nat)
    : step s (.call len) = some (s.call len) := by
  unfold step
  dsimp only
  split
  . rw [hleft]
    rfl
  . next hne => exact absurd hpc hne

/--
A step of the thread brings the next datagram nearer, if it is clean.
-/
def CanAdvance (s : BatchReceiver) (r : Int × List UInt8) : Prop :=
  ∃ l : Label, l.Own ∧ (Clean s l → ∃ s', step s l = some s' ∧ Advances s s' r)

variable {r : Int × List UInt8} {rest : List (Int × List UInt8)} {len added b : Nat} {sawError : Bool} {nbytes : Int}

theorem advances_begin (h : Inv s) (hpc : s.pc = .begin) : CanAdvance s r := by
  refine ⟨.begin 0 0, trivial, ?_⟩
  intro _
  refine ⟨_, by unfold step; rw [hpc], Or.inl ⟨moved_begin h hpc 0 0, ?_⟩⟩
  have hsame := (sameData_submitInflight s.poller MAX_BUFFERS 0).trans (sameData_submit _ 0)
  unfold rank
  rw [hpc]
  dsimp only
  rw [hsame.cq, hsame.readyLen_eq]
  split
  . omega
  . omega

theorem advances_idle (h : Inv s) (hrunning : s.running = true) (hstop : s.stopFlag = false) (hpc : s.pc = .idle)
    : CanAdvance s r := by
  refine ⟨.call BUF_SIZE, trivial, ?_⟩
  intro _
  have hleft : s.left = false := by
    by_contra hleft
    cases h.stays (Bool.eq_true_of_not_eq_false hleft) with
    | inl hflag =>
      rw [hstop] at hflag
      cases hflag
    | inr hnot =>
      rw [hrunning] at hnot
      cases hnot
  have hcall : s.call BUF_SIZE = { s with pc := .loop BUF_SIZE } := by
    unfold call
    rw [hstop, hrunning]
    rfl
  refine ⟨_, step_call hpc hleft BUF_SIZE, ?_⟩
  rw [hcall]
  refine Or.inl ⟨moved_between ?_ rfl, ?_⟩
  . rw [hpc]
    rfl
  . unfold rank
    rw [hpc]
    dsimp only
    split
    . omega
    . omega

theorem advances_loop (hpc : s.pc = .loop len) : CanAdvance s r := by
  refine ⟨.run, trivial, ?_⟩
  intro _
  refine ⟨_, by unfold step run; rw [hpc], Or.inl ⟨moved_between ?_ ?_, ?_⟩⟩
  . rw [hpc]
    rfl
  . split
    . rfl
    . rfl
  . unfold rank
    rw [hpc]
    dsimp only
    rcases Nat.eq_zero_or_pos s.poller.readyLen with hlen | hlen
    . rw [if_pos hlen]
      dsimp only
      rw [if_pos hlen]
      omega
    . have hne := Nat.ne_of_gt hlen
      rw [if_neg hne]
      dsimp only
      rw [if_neg hne]
      decide

theorem advances_seen (h : Inv s) (hpc : s.pc = .seen len added sawError b) : CanAdvance s r := by
  refine ⟨.run, trivial, ?_⟩
  intro _
  refine ⟨_, by unfold step run; rw [hpc], Or.inl ⟨moved_seen h hpc, ?_⟩⟩
  have hcq := (sameData_freeBuffer s.poller b).cq
  unfold seen
  split
  . unfold rank
    rw [hpc]
    dsimp only
    omega
  . unfold rank
    rw [hpc]
    dsimp only
    rw [hcq]
    omega

theorem advances_store (h : Inv s) (hpc : s.pc = .store len added sawError b) : CanAdvance s r := by
  refine ⟨.run, trivial, ?_⟩
  intro _
  refine ⟨_, by unfold step run; rw [hpc], Or.inl ⟨moved_store h hpc, ?_⟩⟩
  have hcq := (sameData_freeBuffer s.poller b).cq
  unfold store
  split
  . unfold rank
    rw [hpc]
    show 3 * s.poller.cq.length + 10 < 3 * s.poller.cq.length + 11
    omega
  . unfold rank
    rw [hpc]
    dsimp only
    rw [hcq]
    omega

theorem advances_take (hlocal : Local s) (hrunning : s.running = true) (hpc : s.pc = .take len) : CanAdvance s r := by
  refine ⟨.run, trivial, ?_⟩
  intro _
  cases htake : s.poller.takeReady with
  | none =>
    unfold Local at hlocal
    rw [hpc] at hlocal
    unfold IoUringPoller.takeReady at htake
    rw [if_neg (hlocal hrunning)] at htake
    cases htake
  | some r' =>
    obtain ⟨e, p⟩ := r'
    refine ⟨_, by unfold step run; rw [hpc]; dsimp only; rw [htake], Or.inl ⟨moved_take hpc htake, ?_⟩⟩
    unfold rank
    rw [hpc]
    exact Nat.lt_succ_self 1

theorem advances_copied {n : Nat} {out : List UInt8} (hlocal : Local s) (hrunning : s.running = true)
    (hwaiting : s.waiting = r :: rest) (hpc : s.pc = .copied b nbytes n out)
    : CanAdvance s r := by
  refine ⟨.resubmit true, trivial, ?_⟩
  intro hclean
  unfold Clean at hclean
  unfold Local at hlocal
  rw [hpc] at hclean hlocal
  refine ⟨_, by unfold step; rw [hpc], Or.inr ?_⟩
  have hpos : (0 : Int) < n := by
    by_contra hnot
    have hzero := hclean (by omega)
    rw [hrunning] at hzero
    cases hzero
  rw [waiting_copied hpc true] at hwaiting
  rw [delivered_ret, if_pos hpos, (List.cons.inj hwaiting).1]
  rfl

theorem advances (h : Inv s) (hlocal : Local s) (hrunning : s.running = true) (hstop : s.stopFlag = false)
    (hwaiting : s.waiting = r :: rest) : CanAdvance s r := by
  cases hpc : s.pc with
  | begin => exact advances_begin h hpc
  | idle => exact advances_idle h hrunning hstop hpc
  | loop len => exact advances_loop hpc
  | wait len =>
    refine ⟨.wait 0, trivial, ?_⟩
    intro _
    refine ⟨_, by unfold step; rw [hpc], Or.inl ⟨moved_wait hpc 0, ?_⟩⟩
    unfold rank
    rw [hpc]
    dsimp only
    rw [(sameData_submit s.poller 0).cq]
    omega
  | reap len added sawError =>
    refine ⟨.run, trivial, ?_⟩
    intro hclean
    refine ⟨_, by unfold step run; rw [hpc], ?_⟩
    exact advances_reap hrunning hstop hwaiting hpc hclean
  | seen len added sawError b => exact advances_seen h hpc
  | store len added sawError b => exact advances_store h hpc
  | take len => exact advances_take hlocal hrunning hpc
  | taken len b nbytes =>
    refine ⟨.run, trivial, ?_⟩
    intro hclean
    unfold Clean at hclean
    rw [hpc] at hclean
    refine ⟨_, by unfold step run; rw [hpc], Or.inl ⟨moved_taken h hpc hclean, ?_⟩⟩
    unfold rank
    rw [hpc]
    exact Nat.lt_succ_self 0
  | copied b nbytes n out => exact advances_copied hlocal hrunning hwaiting hpc

/--
While the receiver runs, clean steps of the thread return the next datagram without anything from the kernel.
-/
def ReturnsNext (s : BatchReceiver) : Prop :=
  s.running = true → s.stopFlag = false → ∀ r rest, s.waiting = r :: rest →
    ∃ ls : List Label,
      (∀ l ∈ ls, l.Own)
        ∧
      (Run.Along step Clean s ls → ∃ s', Run.exec step s ls = some s' ∧ s'.delivered = s.delivered ++ [r])

theorem returnsNext (h : Inv s) (hlocal : Local s) : ReturnsNext s := by
  intro hrunning hstop r rest hwaiting
  induction hrank : rank s using Nat.strongRecOn generalizing s with
  | ind n ih =>
    obtain ⟨l, hown, hadvance⟩ := advances h hlocal hrunning hstop hwaiting
    by_cases hclean : Clean s l
    . obtain ⟨s₁, hstep, hnext⟩ := hadvance hclean
      cases hnext with
      | inl hmoved =>
        have hmove := hmoved.1
        have hlt : rank s₁ < n := by
          rw [← hrank]
          exact hmoved.2
        have hrest := ih (rank s₁) hlt (h.moved hmove) (local_step hlocal hclean hstep) (hmove.running.trans hrunning)
          (hmove.stopFlag.trans hstop) (hmove.waiting.trans hwaiting) rfl
        obtain ⟨ls, hls, hreturn⟩ := hrest
        refine ⟨l :: ls, List.forall_mem_cons.2 ⟨hown, hls⟩, ?_⟩
        intro halong
        obtain ⟨s', hexec, hdelivered⟩ := hreturn (halong.2 s₁ hstep)
        refine ⟨s', ?_, ?_⟩
        . unfold Run.exec
          rw [hstep]
          exact hexec
        . rw [hdelivered]
          unfold delivered
          rw [hmove.returns]
      | inr hreturned =>
        refine ⟨[l], List.forall_mem_singleton.2 hown, ?_⟩
        intro _
        refine ⟨s₁, ?_, hreturned⟩
        unfold Run.exec
        rw [hstep]
        rfl
    . refine ⟨[l], List.forall_mem_singleton.2 hown, ?_⟩
      intro halong
      exact absurd halong.1 hclean

/--
In every clean run from the start the calls return every datagram once, in the order of completion, with its length and
its bytes, they return 0 only after `stop()`, and the thread does not leave its loop before it is told to.
-/
theorem batch_delivery {ls : List Label} (hclean : Run.Along step Clean start ls) {s : BatchReceiver}
    (hrun : Run.exec step start ls = some s) : Delivers s ∧ ReturnsNext s := by
  have hinv : Inv s ∧ Local s := by
    apply Run.exec_inv _ _ hclean hrun
    . intro s l s' h hgood hstep
      exact ⟨inv_step h.1 h.2 hgood hstep, local_step h.2 hgood hstep⟩
    . exact ⟨inv_start, trivial⟩
  exact ⟨hinv.1.delivers, returnsNext hinv.1 hinv.2⟩

/--
Two datagrams and a timeout complete before the thread looks. The first call returns the one that has completed first.
-/
def mixed : List Label :=
  [.begin 64 64, .complete 2 [7, 8], .timeout (-62), .complete 1 [9], .call 65536, .run, .wait 64] ++
    List.replicate 11 .run ++ [.resubmit true]

theorem exec_mixed
    : (Run.exec step start mixed).map (fun s => (s.running, s.left, s.returns)) =
        some (true, false, [(2, [7, 8])]) := by
  decide

theorem batch_delivery_mixed : ∃ s, Run.exec step start mixed = some s ∧ s.returns = [(2, [7, 8])] ∧ Delivers s := by
  obtain ⟨s, hs, hreturns⟩ := Option.map_eq_some_iff.1 exec_mixed
  have hclean : Run.Along step Clean start mixed := by decide
  refine ⟨s, hs, ?_, (batch_delivery hclean hs).1⟩
  exact congrArg (fun r => r.2.2) hreturns

def empty : List Label :=
  [.begin 64 64, .complete 1 [], .call 65536, .run, .wait 0] ++ List.replicate 7 .run ++ [.resubmit true]

def failed : List Label :=
  [.begin 64 64, .complete 1 [7], .fail 2 (-104), .call 65536, .run, .wait 0] ++ List.replicate 6 .run

def reused : List Label :=
  [.begin 64 64, .complete 1 [7, 8, 9], .call 65536, .run, .wait 0, .run, .reuse 1] ++ List.replicate 6 .run ++
    [.resubmit true]

theorem exec_empty
    : (Run.exec step start empty).map (fun s => (s.running, s.returns)) = some (true, [(0, [])]) := by
  decide

theorem exec_failed
    : (Run.exec step start failed).map (fun s => (s.running, s.stopFlag, s.left)) = some (true, false, true) := by
  decide

theorem exec_reused
    : (Run.exec step start reused).map (fun s => (s.running, s.completed, s.delivered)) =
        some (true, [[7, 8, 9]], [(1, [7])]) := by
  decide

/--
An empty datagram is returned like a stop, an error that completes beside a datagram ends the loop of the thread, and a
datagram whose entry is reused is returned with the length of another one.
-/
theorem not_batch_delivery
    : (¬∀ s, Run.exec step start empty = some s → Delivers s) ∧
      (¬∀ s, Run.exec step start failed = some s → Delivers s) ∧
      ¬∀ s, Run.exec step start reused = some s → Delivers s := by
  refine ⟨?_, ?_, ?_⟩
  . intro h
    obtain ⟨s, hs, hend⟩ := Option.map_eq_some_iff.1 exec_empty
    have hreturns : s.returns = [(0, [])] := congrArg Prod.snd hend
    have hrunning : s.running = true := congrArg Prod.fst hend
    have hzero := (h s hs).zero (0, []) (by rw [hreturns]; exact List.mem_singleton_self _) rfl
    rw [hrunning] at hzero
    cases hzero
  . intro h
    obtain ⟨s, hs, hend⟩ := Option.map_eq_some_iff.1 exec_failed
    have hrunning : s.running = true := congrArg Prod.fst hend
    have hstop : s.stopFlag = false := congrArg (fun r => r.2.1) hend
    have hleft : s.left = true := congrArg (fun r => r.2.2) hend
    cases (h s hs).stays hleft with
    | inl hflag =>
      rw [hstop] at hflag
      cases hflag
    | inr hnot =>
      rw [hrunning] at hnot
      cases hnot
  . intro h
    obtain ⟨s, hs, hend⟩ := Option.map_eq_some_iff.1 exec_reused
    have hcompleted : s.completed = [[7, 8, 9]] := congrArg (fun r => r.2.1) hend
    have hdelivered : s.delivered = [(1, [7])] := congrArg (fun r => r.2.2) hend
    have honce := (h s hs).once
    rw [hcompleted, hdelivered] at honce
    revert honce
    decide

end BatchReceiver

end NebulaXTrader
