import NebulaXTrader.Lib.Run
import NebulaXTrader.Net.BatchPath
import NebulaXTrader.Net.Lemmas.BatchReceive

/-!
This module contains the theorem that the batch path neither loses nor doubles a receive buffer, whatever the kernel
completes and however often the submission ring is full.
-/

namespace NebulaXTrader

namespace BatchPath

open IoUringPoller (MAX_BUFFERS BUF_SIZE Cqe)
open BatchReceiver (SameData)

variable {s s' : BatchPath}

def buffers (s : BatchPath) : List Nat := s.inHand ++ s.taken ++ s.poller.places

structure Inv (s : BatchPath) : Prop where
  buffers : s.buffers.Perm (List.range MAX_BUFFERS)
  in_order : s.returned ++ s.poller.readyItems = s.stored

theorem Inv.conserved (h : Inv s) : s.Conserved := by
  have hcount : ∀ b, s.poller.free.count b + s.inFlight.count b + s.ready.count b + s.taken.count b =
      if b < MAX_BUFFERS then 1 else 0 := by
    intro b
    have hb := h.buffers.count_eq b
    rw [List.count_range] at hb
    rw [← hb]
    unfold BatchPath.buffers IoUringPoller.places inFlight ready
    simp only [List.count_append]
    omega
  have hle : ∀ b, s.poller.free.count b + s.inFlight.count b + s.ready.count b + s.taken.count b ≤ 1 := by
    intro b
    rw [hcount b]
    split
    . exact Nat.le_refl 1
    . exact Nat.zero_le 1
  constructor
  . exact hcount
  . rw [List.nodup_iff_count_le_one]
    intro b
    have hb := hle b
    omega
  . intro b hmem
    have hflight : b ∈ s.inFlight := by
      unfold inFlight
      simp only [List.mem_append]
      exact Or.inl (Or.inl hmem)
    have hpos := List.count_pos_iff.2 hflight
    have hb := hle b
    constructor
    . apply List.count_eq_zero.1
      omega
    . apply List.count_eq_zero.1
      omega
  . exact h.in_order

theorem Inv.room (h : Inv s) (hout : 0 < s.inHand.length + s.taken.length)
    : s.poller.free.length < MAX_BUFFERS ∧ s.poller.readyLen < MAX_BUFFERS := by
  have hlength := h.buffers.length_eq
  unfold BatchPath.buffers IoUringPoller.places IoUringPoller.readyItems at hlength
  simp only [List.length_append, List.length_map, CircularQueue.length_items, List.length_range] at hlength
  constructor
  . omega
  . omega

theorem Inv.free_le (h : Inv s) : s.poller.free.length ≤ MAX_BUFFERS := by
  have hlength := h.buffers.length_eq
  unfold BatchPath.buffers IoUringPoller.places at hlength
  simp only [List.length_append, List.length_range] at hlength
  omega

/--
A step that stores nothing, returns nothing and completes no recv with success.
-/
structure Moved (s s' : BatchPath) : Prop where
  buffers : s'.buffers.Perm s.buffers
  readyItems : s'.poller.readyItems = s.poller.readyItems
  pending : s'.pending = s.pending
  completed : s'.completed = s.completed
  stored : s'.stored = s.stored
  returned : s'.returned = s.returned

def Own (s : BatchPath) : Prop := s.stored ++ s.pending = s.completed

theorem Moved.inv (hm : Moved s s') (h : Inv s) : Inv s' := by
  constructor
  . exact hm.buffers.trans h.buffers
  . rw [hm.returned, hm.readyItems, hm.stored]
    exact h.in_order

theorem Moved.own (hm : Moved s s') (h : Own s) : Own s' := by
  unfold Own
  rw [hm.stored, hm.pending, hm.completed]
  exact h

/-!
The steps of the caller.
-/

theorem moved_poller {p : IoUringPoller} {taken : List Nat} (pc : Pc) (ret : Int) (hs : s.inHand = [])
    (hentry : s.inEntry = []) (hpc : ∀ s' : BatchPath, s'.pc = pc → s'.inHand = [] ∧ s'.inEntry = [])
    (hplaces : (taken ++ p.places).Perm (s.taken ++ s.poller.places)) (hsame : SameData s.poller p)
    : Moved s { s with poller := p, pc := pc, ret := ret, taken := taken } := by
  have hnone := hpc { s with poller := p, pc := pc, ret := ret, taken := taken } rfl
  refine ⟨?_, hsame.readyItems, ?_, rfl, rfl, rfl⟩
  . unfold BatchPath.buffers
    rw [hnone.1, hs]
    exact hplaces
  . unfold pending
    rw [hnone.2, hentry, hsame.cq]

theorem outside_of_idle (hpc : s.pc = .idle) : s.inHand = [] ∧ s.inEntry = [] := by
  unfold inHand inEntry
  rw [hpc]
  exact ⟨rfl, rfl⟩

theorem outside_of_reap {added : Nat} {sawError : Bool} (hpc : s.pc = .reap added sawError)
    : s.inHand = [] ∧ s.inEntry = [] := by
  unfold inHand inEntry
  rw [hpc]
  exact ⟨rfl, rfl⟩

theorem moved_submitInflight (h : Inv s) (hpc : s.pc = .idle) (count sqes n : Nat)
    : Moved s (s.submitInflight count sqes n) := by
  have hout := outside_of_idle hpc
  have hplaces : (s.poller.submitInflight count sqes).places.Perm s.poller.places :=
    IoUringPoller.places_submitInflight h.free_le
  have hsame := BatchReceiver.sameData_submitInflight s.poller count sqes
  have hgoal : ∀ p : IoUringPoller, p.places.Perm s.poller.places → SameData s.poller p → ∀ ret : Int,
      Moved s { s with poller := p, ret := ret } := by
    intro p hp hdata ret
    have hmoved := moved_poller s.pc ret hout.1 hout.2 (fun _ hs' => outside_of_idle (hs'.trans hpc))
      (hp.append_left s.taken) hdata
    exact hmoved
  unfold BatchPath.submitInflight
  dsimp only
  split
  . exact hgoal _ hplaces hsame _
  . exact hgoal _ ((IoUringPoller.places_submit n).trans hplaces) (hsame.trans (BatchReceiver.sameData_submit _ n)) _

theorem moved_reapMore (hpc : s.pc = .idle) (n : Nat)
    : Moved s { s with poller := s.poller.submit n, pc := .reap 0 false } := by
  have hout := outside_of_idle hpc
  have hmoved := moved_poller (.reap 0 false) s.ret hout.1 hout.2 (fun _ => outside_of_reap)
    ((IoUringPoller.places_submit n).append_left s.taken) (BatchReceiver.sameData_submit s.poller n)
  exact hmoved

theorem moved_resubmitRecv (h : Inv s) (hpc : s.pc = .idle) {b : Nat} (hmem : b ∈ s.taken) (sqe : Bool)
    : Moved s { s with poller := s.poller.resubmitRecv b sqe, taken := s.taken.erase b } := by
  have hout := outside_of_idle hpc
  have hroom := h.room (by
    have hpos := List.length_pos_of_mem hmem
    omega)
  have hplaces : (s.taken.erase b ++ (s.poller.resubmitRecv b sqe).places).Perm (s.taken ++ s.poller.places) := by
    apply ((IoUringPoller.places_resubmitRecv sqe hroom.1).append_left _).trans
    apply List.perm_middle.trans
    exact (List.perm_cons_erase hmem).symm.append_right s.poller.places
  have hmoved := moved_poller s.pc s.ret hout.1 hout.2
    (fun _ hs' => outside_of_idle (hs'.trans hpc)) hplaces (BatchReceiver.sameData_resubmitRecv s.poller b sqe)
  exact hmoved

theorem inv_takeReady (h : Inv s) (hpc : s.pc = .idle) : Inv s.takeReady ∧ (Own s → Own s.takeReady) := by
  have hout := outside_of_idle hpc
  unfold BatchPath.takeReady
  cases htake : s.poller.takeReady with
  | none =>
    have hmoved := moved_poller s.pc (noIdx : Int) hout.1 hout.2
      (fun _ hs' => outside_of_idle (hs'.trans hpc)) (List.Perm.refl (s.taken ++ s.poller.places))
      (SameData.refl s.poller)
    exact ⟨hmoved.inv h, hmoved.own⟩
  | some r =>
    obtain ⟨e, p⟩ := r
    obtain ⟨head, len, hp, hready⟩ := IoUringPoller.takeReady_cases htake
    constructor
    . constructor
      . refine List.Perm.trans ?_ h.buffers
        have hplaces := IoUringPoller.places_takeReady htake
        unfold BatchPath.buffers inHand
        rw [hpc]
        exact (List.perm_middle.symm).trans ((hplaces.symm).append_left s.taken)
      . have horder := h.in_order
        rw [hready] at horder
        dsimp only
        rw [List.append_assoc]
        exact horder
    . intro hown
      unfold Own pending inEntry at hown ⊢
      rw [hp]
      dsimp only
      exact hown

/-!
The steps inside of `reap_more`.
-/

theorem moved_reap {added : Nat} {sawError : Bool} (hpc : s.pc = .reap added sawError)
    : Moved s (s.reap added sawError) := by
  have hout := outside_of_reap hpc
  unfold BatchPath.reap
  split
  . have hmoved := moved_poller .idle (if sawError then -1 else (added : Int)) hout.1 hout.2
      (fun _ => outside_of_idle) (List.Perm.refl (s.taken ++ s.poller.places)) (SameData.refl s.poller)
    exact hmoved
  . next res cq hcq =>
    refine ⟨?_, rfl, ?_, rfl, rfl, rfl⟩
    . unfold BatchPath.buffers IoUringPoller.places IoUringPoller.readyItems inHand
      rw [hcq]
      exact List.Perm.refl _
    . unfold pending inEntry
      rw [hcq]
      rfl
  . next b res cq hcq =>
    refine ⟨?_, rfl, ?_, rfl, rfl, rfl⟩
    . have hplaces := IoUringPoller.places_seen hcq
      unfold BatchPath.buffers
      rw [hout.1]
      exact (List.perm_middle.symm).trans ((hplaces.symm).append_left s.taken)
    . unfold pending
      have hsuccess : success (.recv b res) = if 0 ≤ res then some (b, res) else none := rfl
      rw [hout.2, hcq, List.filterMap_cons, hsuccess]
      unfold inEntry
      dsimp only
      split
      . rfl
      . rfl

theorem moved_seen (h : Inv s) {added b : Nat} {sawError : Bool} (hpc : s.pc = .seen added sawError b)
    : Moved s (s.seen added sawError b) := by
  have hhand : s.inHand = [b] := by
    unfold inHand
    rw [hpc]
  unfold BatchPath.seen
  split
  . next hentry =>
    refine ⟨?_, rfl, ?_, rfl, rfl, rfl⟩
    . unfold BatchPath.buffers
      rw [hhand]
      exact List.Perm.refl _
    . unfold pending inEntry
      rw [hpc]
      dsimp only
      rw [if_pos hentry]
  . next hentry =>
    have hroom := h.room (by
      rw [hhand, List.length_singleton]
      omega)
    have hsame := BatchReceiver.sameData_freeBuffer s.poller b
    refine ⟨?_, hsame.readyItems, ?_, rfl, rfl, rfl⟩
    . unfold BatchPath.buffers
      rw [hhand]
      exact ((IoUringPoller.places_freeBuffer hroom.1).append_left s.taken).trans List.perm_middle
    . unfold pending inEntry
      rw [hpc]
      dsimp only
      rw [if_neg hentry, hsame.cq]

theorem inv_store (h : Inv s) {added b : Nat} {sawError : Bool} (hpc : s.pc = .store added sawError b)
    : Inv (s.store added sawError b) ∧ (Own s → Own (s.store added sawError b)) := by
  have hhand : s.inHand = [b] := by
    unfold inHand
    rw [hpc]
  have hroom := h.room (by
    rw [hhand, List.length_singleton]
    omega)
  unfold BatchPath.store
  rw [if_pos hroom.2]
  constructor
  . constructor
    . refine List.Perm.trans ?_ h.buffers
      unfold BatchPath.buffers
      rw [hhand]
      exact ((IoUringPoller.places_pushReady s.entry hroom.2).append_left s.taken).trans List.perm_middle
    . dsimp only
      rw [IoUringPoller.readyItems_pushReady s.entry hroom.2, ← List.append_assoc, h.in_order]
  . intro hown
    unfold Own pending inEntry at hown ⊢
    rw [hpc] at hown
    rw [← hown]
    simp only [List.append_assoc, List.nil_append]
    rfl

/-!
The steps of the kernel.
-/

theorem inv_complete (h : Inv s) {b : Nat} (x : List UInt8) (hmem : b ∈ s.poller.inflight)
    : Inv { s with poller := s.poller.complete b x, completed := s.completed ++ [(b, (x.length : Int))] } ∧
      (Own s → Own { s with
        poller := s.poller.complete b x
        completed := s.completed ++ [(b, (x.length : Int))] }) := by
  constructor
  . constructor
    . refine List.Perm.trans ?_ h.buffers
      exact (IoUringPoller.places_completed _ _ hmem).append_left (s.inHand ++ s.taken)
    . exact h.in_order
  . intro hown
    unfold Own at hown ⊢
    dsimp only
    rw [← hown]
    unfold pending IoUringPoller.complete inEntry
    dsimp only
    rw [List.filterMap_append]
    have hlast : [Cqe.recv b (x.length : Int)].filterMap success = [(b, (x.length : Int))] := by
      unfold success
      simp
    rw [hlast]
    simp only [List.append_assoc]

theorem moved_fail {b : Nat} {res : Int} (hmem : b ∈ s.poller.inflight) (hres : res < 0)
    : Moved s { s with poller := s.poller.fail b res } := by
  refine ⟨?_, rfl, ?_, rfl, rfl, rfl⟩
  . exact (IoUringPoller.places_completed s.poller.bufs res hmem).append_left (s.inHand ++ s.taken)
  . have hnone : [Cqe.recv b res].filterMap success = [] := by
      unfold success
      simp [hres]
    unfold pending IoUringPoller.fail inEntry
    dsimp only
    rw [List.filterMap_append, hnone, List.append_nil]

theorem moved_timeout (s : BatchPath) (res : Int) : Moved s { s with poller := s.poller.timeout res } := by
  refine ⟨?_, rfl, ?_, rfl, rfl, rfl⟩
  . unfold BatchPath.buffers IoUringPoller.places IoUringPoller.timeout IoUringPoller.readyItems inHand
    dsimp only
    rw [List.filterMap_append]
    simp only [List.filterMap_cons, List.filterMap_nil, Cqe.buf, List.append_nil]
    exact List.Perm.refl _
  . unfold pending IoUringPoller.timeout inEntry
    dsimp only
    rw [List.filterMap_append]
    simp only [List.filterMap_cons, List.filterMap_nil, success, List.append_nil]

theorem inv_reuse (h : Inv s) (res : Int)
    : Inv { s with entry := res } ∧ (Untouched s (.reuse res) → Own s → Own { s with entry := res }) := by
  constructor
  . exact ⟨h.buffers, h.in_order⟩
  . intro huntouched hown
    unfold Untouched inHand at huntouched
    unfold Own pending inEntry at hown ⊢
    dsimp only at huntouched hown ⊢
    cases hpc : s.pc with
    | idle =>
      rw [hpc] at hown
      exact hown
    | reap added sawError =>
      rw [hpc] at hown
      exact hown
    | seen added sawError b =>
      rw [hpc] at hown huntouched
      rw [huntouched (List.cons_ne_nil b [])]
      exact hown
    | store added sawError b =>
      rw [hpc] at hown huntouched
      rw [huntouched (List.cons_ne_nil b [])]
      exact hown

theorem inv_step {l : Label} (h : Inv s) (hstep : step s l = some s')
    : Inv s' ∧ (Untouched s l → Own s → Own s') := by
  have hmoved : ∀ {t : BatchPath}, Moved s t → Inv t ∧ (Untouched s l → Own s → Own t) := by
    intro t hm
    exact ⟨hm.inv h, fun _ => hm.own⟩
  unfold step at hstep
  cases l with
  | submitInflight count sqes n =>
    dsimp only at hstep
    split at hstep
    . next hpc =>
      cases hstep
      exact hmoved (moved_submitInflight h hpc count sqes n)
    . cases hstep
  | reapMore n =>
    dsimp only at hstep
    split at hstep
    . next hpc =>
      cases hstep
      exact hmoved (moved_reapMore hpc n)
    . cases hstep
  | run =>
    dsimp only at hstep
    unfold BatchPath.run at hstep
    cases hpc : s.pc with
    | idle =>
      rw [hpc] at hstep
      cases hstep
    | reap added sawError =>
      rw [hpc] at hstep
      cases hstep
      exact hmoved (moved_reap hpc)
    | seen added sawError b =>
      rw [hpc] at hstep
      cases hstep
      exact hmoved (moved_seen h hpc)
    | store added sawError b =>
      rw [hpc] at hstep
      cases hstep
      have hstore := inv_store h hpc
      exact ⟨hstore.1, fun _ => hstore.2⟩
  | takeReady =>
    dsimp only at hstep
    split at hstep
    . next hpc =>
      cases hstep
      have htake := inv_takeReady h hpc
      exact ⟨htake.1, fun _ => htake.2⟩
    . cases hstep
  | resubmitRecv b sqe =>
    dsimp only at hstep
    split at hstep
    . next hpc =>
      cases hstep
      exact hmoved (moved_resubmitRecv h hpc.1 hpc.2 sqe)
    . cases hstep
  | complete b x =>
    dsimp only at hstep
    split at hstep
    . next hmem =>
      cases hstep
      have hcomplete := inv_complete h x hmem.1
      exact ⟨hcomplete.1, fun _ => hcomplete.2⟩
    . cases hstep
  | fail b res =>
    dsimp only at hstep
    split at hstep
    . next hmem =>
      cases hstep
      exact hmoved (moved_fail hmem.1 hmem.2)
    . cases hstep
  | timeout res =>
    cases hstep
    exact hmoved (moved_timeout s res)
  | reuse res =>
    cases hstep
    exact inv_reuse h res

theorem inv_start : Inv {} := by
  constructor
  . exact List.Perm.refl _
  . rfl

/--
In every reachable state every buffer is once in one of the four places, and `take_ready` returns what has become ready
in the same order. As long as the kernel does not write over an entry that is still read, what has become ready are the
first of the recvs that have succeeded, in the order of their completion and with their lengths.
-/
theorem buffers_conserved {ls : List Label} {s : BatchPath} (hrun : Run.exec step {} ls = some s)
    : s.Conserved ∧ (Run.Along step Untouched {} ls → s.stored ++ s.pending = s.completed) := by
  have hinv : Inv s := Run.exec_keeps (fun _ _ _ h hstep => (inv_step h hstep).1) inv_start hrun
  refine ⟨hinv.conserved, ?_⟩
  intro huntouched
  have hboth : Inv s ∧ Own s := by
    apply Run.exec_inv _ _ huntouched hrun
    . intro t l t' ht hclean hstep
      have hnext := inv_step ht.1 hstep
      exact ⟨hnext.1, hnext.2 hclean ht.2⟩
    . exact ⟨inv_start, rfl⟩
  exact hboth.2

/--
Two of 64 recvs get an entry. One succeeds and one fails, and the caller finds no entry when it resubmits.
-/
def shortOfEntries : List Label :=
  [.submitInflight 64 2 2, .complete 1 [7, 8], .fail 0 (-104), .reapMore 0] ++ List.replicate 6 .run ++
    [.takeReady, .resubmitRecv 1 false]

theorem exec_shortOfEntries
    : (Run.exec step {} shortOfEntries).map (fun s => (s.returned, s.poller.free.take 3)) =
        some ([(1, 2)], [1, 0, 2]) := by
  decide

theorem buffers_conserved_shortOfEntries
    : ∃ s, Run.exec step {} shortOfEntries = some s ∧ s.returned = [(1, 2)] ∧ s.Conserved ∧
        s.stored ++ s.pending = s.completed := by
  obtain ⟨s, hs, hend⟩ := Option.map_eq_some_iff.1 exec_shortOfEntries
  have hconserved := buffers_conserved hs
  refine ⟨s, hs, ?_, hconserved.1, hconserved.2 (by decide)⟩
  exact congrArg Prod.fst hend

end BatchPath

end NebulaXTrader
